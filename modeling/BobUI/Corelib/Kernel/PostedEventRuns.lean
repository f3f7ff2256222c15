import BobUI.Corelib.Kernel.PostedEvents
import BobUI.Library.Outcome
import Mathlib.Data.List.Basic
import Mathlib.Data.List.Perm.Basic

/-!
# No posted event is lost

In every run, an event that has been accepted is held by one entry of the list, or has been
delivered once, or has been removed.  What each step does to the entries that hold an event is a
permutation, or one of them goes; the entries before the start offset hold none.
-/

namespace QCoreApplication

variable {R : Type}

/-! ### The entries that hold an event -/

/-- The receivers and the events of the entries that hold one. -/
def holders (list : List (QPostEvent R)) : List (R × ℕ) :=
  list.filterMap fun pe => pe.event.map fun e => (pe.receiver, e.id)

theorem holders_append (l l' : List (QPostEvent R)) :
  holders (l ++ l') = holders l ++ holders l'
  := List.filterMap_append

theorem holders_perm {l l' : List (QPostEvent R)} (h : l.Perm l') :
  (holders l).Perm (holders l')
  := h.filterMap _

theorem holders_eq_nil {l : List (QPostEvent R)} (h : ∀ pe ∈ l, pe.event = none) :
  holders l = []
  := by
  rw [holders, List.filterMap_eq_nil_iff]
  intro pe hpe
  rw [h pe hpe]
  rfl

/-- The number of entries that hold an event. -/
theorem count_holders (list : List (QPostEvent R)) (id : ℕ) :
  ((holders list).map Prod.snd).count id
    = list.countP fun pe => pe.event.any (·.id = id)
  := by
  induction list with
  | nil => rfl
  | cons pe list ih =>
    rw [List.countP_cons, ← ih, holders, List.filterMap_cons]
    cases pe.event with
    | none => rfl
    | some e =>
      rw [Option.map_some, List.map_cons, List.count_cons]
      simp [holders]

variable {i : ℕ} {pe : QPostEvent R} {data : QThreadData R}

/-- The list with the entry at an index nulled. -/
theorem nullEvent_eq (h : data.postEventList[i]? = some pe) :
  ∃ l l', data.postEventList = l ++ pe :: l' ∧ l.length = i
    ∧ (nullEvent i data).postEventList = l ++ { pe with event := none } :: l'
  := by
  obtain ⟨hi, rfl⟩ := List.getElem?_eq_some_iff.mp h
  refine ⟨data.postEventList.take i, data.postEventList.drop (i + 1), ?_, ?_, ?_⟩
  · rw [← List.drop_eq_getElem_cons hi, List.take_append_drop]
  · exact List.length_take_of_le (Nat.le_of_lt hi)
  · rw [nullEvent, List.modify_eq_take_cons_drop hi]

theorem holders_nullEvent {e : QEvent} (h : data.postEventList[i]? = some pe)
    (he : pe.event = some e) :
  (holders data.postEventList).Perm
    ((pe.receiver, e.id) :: holders (nullEvent i data).postEventList)
  := by
  obtain ⟨l, l', hlist, -, hnull⟩ := nullEvent_eq h
  have hpe : holders [pe] = [(pe.receiver, e.id)] := by
    simp [holders, he]
  have hnone : holders [{ pe with event := none }] = [] := by
    simp [holders]
  rw [hlist, hnull, ← List.singleton_append, ← List.singleton_append (l := l'), holders_append,
    holders_append, holders_append, holders_append, hpe, hnone, List.nil_append]
  exact List.perm_middle

theorem length_nullEvent (i : ℕ) (data : QThreadData R) :
  (nullEvent i data).postEventList.length = data.postEventList.length
  := List.length_modify ..

/-! ### Insertion -/

/-- The search stays in the range. -/
theorem upperBound_ends (list : List (QPostEvent R)) (priority : ℤ) (turns first len : ℕ)
    (hturns : len ≤ turns) (hlen : first + len ≤ list.length) :
  ∃ i, upperBound list priority turns first len = .ok i ∧ first ≤ i ∧ i ≤ list.length
  := by
  induction turns generalizing first len with
  | zero => exact ⟨first, rfl, Nat.le_refl _, by omega⟩
  | succ turns ih =>
    rw [upperBound]
    split
    next => exact ⟨first, rfl, Nat.le_refl _, by omega⟩
    next hpos =>
      rw [List.getElem?_eq_getElem (by omega)]
      dsimp only
      split
      next => exact ih first (len / 2) (by omega) (by omega)
      next =>
        obtain ⟨i, heq, hfirst, hi⟩ :=
          ih (first + len / 2 + 1) (len - len / 2 - 1) (by omega) (by omega)
        exact ⟨i, heq, by omega, hi⟩

/-- An entry is inserted somewhere behind the insertion offset. -/
theorem addEvent_ends (ev : QPostEvent R) (hoffset : 0 ≤ data.insertionOffset) :
  ∃ k : ℕ, k ≤ data.postEventList.length
    ∧ (data.insertionOffset ≤ k ∨ k = data.postEventList.length)
    ∧ addEvent ev data = .ok { data with
      postEventList := data.postEventList.take k ++ ev :: data.postEventList.drop k }
  := by
  unfold addEvent
  dsimp only
  split
  next =>
    refine ⟨data.postEventList.length, Nat.le_refl _, .inr rfl, ?_⟩
    rw [List.take_length, List.drop_length]
  next hinside =>
    rw [if_neg (by omega)]
    obtain ⟨k, heq, hfirst, hk⟩ := upperBound_ends data.postEventList ev.priority
      data.postEventList.length data.insertionOffset.toNat
      (data.postEventList.length - data.insertionOffset.toNat) (by omega) (by omega)
    refine ⟨k, hk, .inl (by omega), ?_⟩
    rw [heq, ok_bind, if_neg (Nat.not_lt_of_le hk)]
    rfl

theorem holders_insert (list : List (QPostEvent R)) (k : ℕ) (ev : QPostEvent R) :
  (holders (list.take k ++ ev :: list.drop k)).Perm (holders (ev :: list))
  := by
  apply holders_perm
  have hmiddle : (list.take k ++ ev :: list.drop k).Perm (ev :: (list.take k ++ list.drop k)) :=
    List.perm_middle
  rwa [List.take_append_drop] at hmiddle

/-! ### The invariant -/

/-- The offsets are in the list, and the entries before the start offset hold no event. -/
structure Offsets (data : QThreadData R) (passes : List (Pass R)) : Prop where
  recursion_eq : data.recursion = passes.length
  start_nonneg : 0 ≤ data.startOffset
  start_le : data.startOffset ≤ data.insertionOffset
  start_le_size : data.startOffset ≤ data.postEventList.length
  start_eq_zero : (∀ p ∈ passes, p.isFull = false) → data.startOffset = 0
  own_nonneg : ∀ p ∈ passes, 0 ≤ p.startOffset
  front : ∀ (j : ℕ) (pe : QPostEvent R), (j : ℤ) < data.startOffset →
    data.postEventList[j]? = some pe → pe.event = none

section Offsets

variable {data : QThreadData R} {passes : List (Pass R)}

theorem Offsets.start_of_recursion (h : Offsets data passes) (hzero : data.recursion = 0) :
  data.startOffset = 0
  := by
  have hrec := h.recursion_eq
  rw [hzero, eq_comm, List.length_eq_zero_iff] at hrec
  apply h.start_eq_zero
  rw [hrec]
  exact fun p hp => nomatch hp

/-- The other fields do not matter. -/
theorem Offsets.update (h : Offsets data passes) (canWait : Bool) (loopLevel scopeLevel : ℤ) :
  Offsets { data with canWait := canWait, loopLevel := loopLevel, scopeLevel := scopeLevel } passes
  := ⟨h.recursion_eq, h.start_nonneg, h.start_le, h.start_le_size, h.start_eq_zero, h.own_nonneg,
    h.front⟩

/-- An event is nulled. -/
theorem Offsets.null (h : Offsets data passes) (i : ℕ) :
  Offsets (nullEvent i data) passes
  := by
  refine ⟨h.recursion_eq, h.start_nonneg, h.start_le, ?_, h.start_eq_zero, h.own_nonneg, ?_⟩
  · rw [length_nullEvent]
    exact h.start_le_size
  · intro j pe hj hpe
    rw [nullEvent, List.getElem?_modify] at hpe
    obtain ⟨pe', hpe', heq⟩ := Option.map_eq_some_iff.mp hpe
    have hnone := h.front j pe' hj hpe'
    split at heq
    next => rw [← heq]
    next => rwa [← heq]

/-- An entry is inserted. -/
theorem Offsets.insert (h : Offsets data passes) (ev : QPostEvent R) :
  ∃ data', addEvent ev data = .ok data' ∧ Offsets data' passes
    ∧ (holders data'.postEventList).Perm (holders (ev :: data.postEventList))
  := by
  have hoffset := Int.le_trans h.start_nonneg h.start_le
  obtain ⟨k, hk, hbehind, heq⟩ := addEvent_ends ev hoffset
  refine ⟨_, heq, ⟨h.recursion_eq, h.start_nonneg, h.start_le, ?_, h.start_eq_zero, h.own_nonneg,
    ?_⟩, holders_insert data.postEventList k ev⟩
  · have hsize := h.start_le_size
    rw [List.length_append, List.length_cons, List.length_take, List.length_drop]
    dsimp only
    omega
  · intro j pe hj hpe
    have hstart := h.start_le
    have hsize := h.start_le_size
    have hjk : j < k := by
      change (j : ℤ) < data.startOffset at hj
      omega
    have hlength : j < (data.postEventList.take k).length := by
      rwa [List.length_take_of_le hk]
    rw [List.getElem?_append_left hlength, List.getElem?_take_of_lt hjk] at hpe
    exact h.front j pe hj hpe

theorem index_of_front {l : List (QPostEvent R)} {n : ℕ}
    (h : ∀ (j : ℕ) (pe : QPostEvent R), j < n → l[j]? = some pe → pe.event = none) :
  holders (l.drop n) = holders l
  := by
  have htake : holders (l.take n) = [] := by
    apply holders_eq_nil
    intro pe hpe
    obtain ⟨j, hj⟩ := List.mem_iff_getElem?.mp hpe
    rw [List.getElem?_take] at hj
    split at hj
    next hlt => exact h j pe hlt hj
    next => cases hj
  conv =>
    rhs
    rw [← List.take_append_drop n l, holders_append, htake, List.nil_append]

/-- The innermost pass ends. -/
theorem Offsets.cleanUp {p : Pass R} (h : Offsets data (p :: passes)) (exceptionCaught : Bool) :
  ∃ data', cleanUp p exceptionCaught data = .ok data' ∧ Offsets data' passes
    ∧ holders data'.postEventList = holders data.postEventList
  := by
  have hrec := h.recursion_eq
  rw [List.length_cons] at hrec
  have hown : ∀ q ∈ passes, 0 ≤ q.startOffset :=
    fun q hq => h.own_nonneg q (List.mem_cons_of_mem p hq)
  unfold QCoreApplication.cleanUp
  dsimp only
  by_cases hfull : p.isFull = true
  · have hstart := h.start_le
    rw [if_pos ⟨hfull, h.start_nonneg⟩, if_neg (Int.not_lt.mpr h.start_le_size),
      if_neg (by omega)]
    refine ⟨_, rfl, ⟨?_, Int.le_refl 0, ?_, ?_, fun _ => rfl, hown, ?_⟩, ?_⟩
    · change data.recursion - 1 = passes.length
      omega
    · change 0 ≤ data.insertionOffset - data.startOffset
      omega
    · exact Int.natCast_nonneg _
    · intro j pe hj
      change (j : ℤ) < 0 at hj
      omega
    · apply index_of_front
      intro j pe hj hpe
      exact h.front j pe (by omega) hpe
  · rw [if_neg (fun h => hfull h.1)]
    refine ⟨_, rfl, ⟨?_, h.start_nonneg, h.start_le, h.start_le_size, ?_, hown, h.front⟩, rfl⟩
    · change data.recursion - 1 = passes.length
      omega
    · intro hnone
      apply h.start_eq_zero
      intro q hq
      rcases List.mem_cons.mp hq with rfl | hq
      · exact Bool.not_eq_true _ ▸ hfull
      · exact hnone q hq

end Offsets

variable [DecidableEq R]

/-- Each event that has been accepted is held by an entry, or delivered, or removed. -/
structure Ledger (s : State R) : Prop where
  counted : ∀ r, s.postedEvents r = (holders s.data.postEventList).countP (·.1 = r)
  accounted : ((holders s.data.postEventList).map Prod.snd ++ (s.delivered ++ s.removed)).Perm
    s.accepted
  nodup : s.accepted.Nodup
  created : ∀ id ∈ s.accepted, id < s.created

/-- The entries have changed places, or some without event have come or gone. -/
theorem Ledger.of_perm {s : State R} (h : Ledger s)
    (hperm : (holders data.postEventList).Perm (holders s.data.postEventList)) :
  Ledger { s with data := data }
  := by
  refine ⟨?_, ?_, h.nodup, h.created⟩
  · intro r
    rw [hperm.countP_eq]
    exact h.counted r
  · exact ((hperm.map Prod.snd).append_right _).trans h.accounted

/-- An entry loses its event, which is delivered or removed. -/
theorem Ledger.lose {s s' : State R} {r : R} {id : ℕ} (h : Ledger s)
    (hlist : (holders s.data.postEventList).Perm ((r, id) :: holders s'.data.postEventList))
    (hposted : s'.postedEvents = Function.update s.postedEvents r (s.postedEvents r - 1))
    (hgone : (s'.delivered ++ s'.removed).Perm (id :: (s.delivered ++ s.removed)))
    (haccepted : s'.accepted = s.accepted) (hcreated : s'.created = s.created) :
  Ledger s'
  := by
  refine ⟨?_, ?_, haccepted ▸ h.nodup, ?_⟩
  · intro q
    have hcount := h.counted q
    rw [hlist.countP_eq, List.countP_cons] at hcount
    rw [hposted]
    by_cases hq : q = r
    · rw [hq, if_pos (decide_eq_true rfl)] at hcount
      rw [hq, Function.update_self, hcount]
      push_cast
      omega
    · rw [if_neg (fun h => hq (of_decide_eq_true h).symm)] at hcount
      rw [Function.update_of_ne hq, hcount]
      rfl
  · have hmap := hlist.map Prod.snd
    rw [List.map_cons] at hmap
    rw [haccepted]
    refine .trans ?_ h.accounted
    refine (hgone.append_left _).trans (.trans ?_ (hmap.append_right _).symm)
    exact List.perm_middle
  · rw [haccepted, hcreated]
    exact h.created

/-- The invariant of the runs. -/
structure Inv (s : State R) : Prop where
  offsets : Offsets s.data s.passes
  ledger : Ledger s

variable {s : State R}

/-! ### Posting and sending -/

theorem postEvent_ends (h : Inv s) (self : Compress R) (receiver : Option R)
    (type timerId loopLevel scopeLevel priority : ℤ) :
  ∃ s', postEvent self receiver type timerId loopLevel scopeLevel priority s = .ok s' ∧ Inv s'
  := by
  have hlater : Ledger { s with created := s.created + 1 } :=
    ⟨h.ledger.counted, h.ledger.accounted, h.ledger.nodup,
      fun id hid => Nat.lt_succ_of_lt (h.ledger.created id hid)⟩
  cases receiver with
  | none => exact ⟨_, rfl, h.offsets, hlater⟩
  | some r =>
    unfold postEvent
    dsimp only
    split
    next => exact ⟨_, rfl, h.offsets, hlater⟩
    next =>
      obtain ⟨data, heq, hoffsets, hperm⟩ := h.offsets.insert
        ⟨r, some ⟨s.created, type, timerId, loopLevel, scopeLevel⟩, priority⟩
      have hcons : (holders data.postEventList).Perm
          ((r, s.created) :: holders s.data.postEventList) := hperm
      rw [heq, ok_bind]
      refine ⟨_, rfl, hoffsets.update _ _ _, ?_, ?_, ?_, ?_⟩
      · intro q
        change Function.update s.postedEvents r (s.postedEvents r + 1) q
          = (holders data.postEventList).countP _
        have hcount := h.ledger.counted q
        rw [hcons.countP_eq, List.countP_cons]
        by_cases hq : q = r
        · rw [hq, Function.update_self, if_pos (decide_eq_true rfl), ← hq, hcount]
          push_cast
          rfl
        · rw [Function.update_of_ne hq, hcount,
            if_neg (fun h => hq (of_decide_eq_true h).symm)]
          rfl
      · exact ((hcons.map Prod.snd).append_right _).trans (h.ledger.accounted.cons s.created)
      · refine List.nodup_cons.mpr ⟨?_, h.ledger.nodup⟩
        intro hold
        exact Nat.lt_irrefl _ (h.ledger.created _ hold)
      · exact List.forall_mem_cons.mpr ⟨Nat.lt_succ_self _, hlater.created⟩

theorem sendPostedEvents_inv (h : Inv s) (receiver : Option R) (eventType : ℤ) :
  Inv (sendPostedEvents receiver eventType s)
  := by
  unfold sendPostedEvents
  generalize (if eventType = -1 then 0 else eventType) = eventType
  dsimp only
  split
  next =>
    exact ⟨h.offsets.update _ _ _, h.ledger.of_perm (List.Perm.refl _)⟩
  next =>
    refine ⟨⟨?_, h.offsets.start_nonneg, h.offsets.start_le_size, h.offsets.start_le_size, ?_, ?_,
      h.offsets.front⟩, ⟨h.ledger.counted, h.ledger.accounted, h.ledger.nodup, h.ledger.created⟩⟩
    · change s.data.recursion + 1 = s.passes.length + 1
      rw [h.offsets.recursion_eq]
    · intro hnone
      exact h.offsets.start_eq_zero fun p hp => hnone p (List.mem_cons_of_mem _ hp)
    · exact List.forall_mem_cons.mpr ⟨h.offsets.start_nonneg, h.offsets.own_nonneg⟩

/-- The event of an entry is delivered. -/
theorem deliver_ends (h : Ledger s) (hnull : Offsets (nullEvent i s.data) s.passes) {e : QEvent}
    (hpe : s.data.postEventList[i]? = some pe) (he : pe.event = some e) :
  ∃ s', deliver i pe.receiver e s = .ok s' ∧ Inv s'
  := by
  have hlist := holders_nullEvent hpe he
  have hpos : ¬ s.postedEvents pe.receiver ≤ 0 := by
    have hcount := h.counted pe.receiver
    rw [hlist.countP_eq, List.countP_cons, if_pos (decide_eq_true rfl)] at hcount
    omega
  unfold deliver
  rw [if_neg hpos]
  exact ⟨_, rfl, hnull, h.lose hlist rfl (List.Perm.refl _) rfl rfl⟩

/-- The index of a pass is incremented, where the entry at it holds no event, or loses it, or is
left to other passes. -/
theorem advance_inv {p : Pass R} {passes : List (Pass R)} (h : Inv s)
    (hpasses : s.passes = p :: passes) (hsize : index p s.data < s.data.postEventList.length)
    (hinsertion : index p s.data < s.data.insertionOffset)
    (hpe : s.data.postEventList[(index p s.data).toNat]? = some pe) :
  Ledger (advance p passes s) ∧ (advance p passes s).data.postEventList = s.data.postEventList
    ∧ Offsets (nullEvent (index p s.data).toNat (advance p passes s).data)
      (advance p passes s).passes
    ∧ (p.isFull = false ∨ pe.event = none →
      Offsets (advance p passes s).data (advance p passes s).passes)
  := by
  have hoffsets := h.offsets
  rw [hpasses] at hoffsets
  by_cases hfull : p.isFull = true
  · have hindex : index p s.data = s.data.startOffset := if_pos hfull
    have hadvance : advance p passes s
        = { s with data := { s.data with startOffset := s.data.startOffset + 1 } } := if_pos hfull
    rw [hadvance]
    rw [hindex] at hsize hinsertion hpe ⊢
    have hstart := h.offsets.start_nonneg
    have hzero : ¬ ∀ q ∈ p :: passes, q.isFull = false := by
      intro hnone
      rw [hnone p List.mem_cons_self] at hfull
      cases hfull
    -- The entry at the start offset is the only one that comes before it now.
    have hfront : ∀ l : List (QPostEvent R), (∀ (j : ℕ) (pe : QPostEvent R),
          (j : ℤ) < s.data.startOffset → l[j]? = some pe → pe.event = none) →
        (∀ pe, l[s.data.startOffset.toNat]? = some pe → pe.event = none) →
        ∀ (j : ℕ) (pe : QPostEvent R), (j : ℤ) < s.data.startOffset + 1 →
          l[j]? = some pe → pe.event = none := by
      intro l hold hnew j pe hj hl
      by_cases heq : (j : ℤ) = s.data.startOffset
      · apply hnew pe
        rwa [← heq, Int.toNat_natCast]
      · exact hold j pe (by omega) hl
    refine ⟨⟨h.ledger.counted, h.ledger.accounted, h.ledger.nodup, h.ledger.created⟩, rfl, ?_, ?_⟩
    · have hnull := h.offsets.null s.data.startOffset.toNat
      refine ⟨h.offsets.recursion_eq, by change 0 ≤ s.data.startOffset + 1; omega,
        hinsertion, ?_, ?_, h.offsets.own_nonneg, hfront _ hnull.front ?_⟩
      · rw [length_nullEvent]
        exact hsize
      · rw [hpasses]
        exact fun hnone => absurd hnone hzero
      · intro pe' hpe'
        rw [nullEvent, List.getElem?_modify] at hpe'
        obtain ⟨pe'', -, rfl⟩ := Option.map_eq_some_iff.mp hpe'
        rw [if_pos rfl]
    · intro hnone
      have hevent : pe.event = none := hnone.resolve_left fun h => by
        rw [h] at hfull
        cases hfull
      refine ⟨h.offsets.recursion_eq, by change 0 ≤ s.data.startOffset + 1; omega,
        hinsertion, hsize, ?_, h.offsets.own_nonneg, hfront _ h.offsets.front ?_⟩
      · rw [hpasses]
        exact fun hnone => absurd hnone hzero
      · intro pe' hpe'
        rw [hpe] at hpe'
        cases hpe'
        exact hevent
  · have hadvance : advance p passes s
        = { s with passes := { p with startOffset := p.startOffset + 1 } :: passes } :=
      if_neg hfull
    rw [hadvance]
    have hown := hoffsets.own_nonneg p List.mem_cons_self
    have hadvanced : Offsets s.data ({ p with startOffset := p.startOffset + 1 } :: passes) := by
      refine ⟨hoffsets.recursion_eq, hoffsets.start_nonneg, hoffsets.start_le,
        hoffsets.start_le_size, ?_, ?_, hoffsets.front⟩
      · intro hnone
        apply hoffsets.start_eq_zero
        rw [List.forall_mem_cons] at hnone ⊢
        exact hnone
      · have hrest := hoffsets.own_nonneg
        rw [List.forall_mem_cons] at hrest ⊢
        exact ⟨by change 0 ≤ p.startOffset + 1; omega, hrest.2⟩
    refine ⟨⟨h.ledger.counted, h.ledger.accounted, h.ledger.nodup, h.ledger.created⟩, rfl,
      hadvanced.null _, fun _ => hadvanced⟩

theorem turn_ends {p : Pass R} {passes : List (Pass R)} (h : Inv s)
    (hpasses : s.passes = p :: passes) :
  ∃ s', turn p passes s = .ok s' ∧ Inv s'
  := by
  unfold turn
  dsimp only
  split
  next =>
    have hoffsets := h.offsets
    rw [hpasses] at hoffsets
    obtain ⟨data, heq, hdata, hholders⟩ := hoffsets.cleanUp false
    rw [heq, ok_bind]
    refine ⟨_, rfl, hdata, ?_⟩
    have hledger := h.ledger.of_perm (List.Perm.of_eq hholders)
    exact ⟨hledger.counted, hledger.accounted, hledger.nodup, hledger.created⟩
  next hmore =>
    have hindex : 0 ≤ index p s.data := by
      unfold index
      split
      · exact h.offsets.start_nonneg
      · apply h.offsets.own_nonneg p
        rw [hpasses]
        exact List.mem_cons_self
    rw [if_neg (Int.not_lt.mpr hindex)]
    rw [not_or, Int.not_le, Int.not_le] at hmore
    have hlt : (index p s.data).toNat < s.data.postEventList.length := by omega
    have hpe := List.getElem?_eq_getElem hlt
    generalize s.data.postEventList[(index p s.data).toNat] = pe at hpe
    rw [hpe]
    dsimp only
    obtain ⟨hledger, hlist, hnull, hkept⟩ :=
      advance_inv h hpasses hmore.1 hmore.2 hpe
    rw [← hlist] at hpe
    cases hevent : pe.event with
    | none => exact ⟨_, rfl, hkept (.inr hevent), hledger⟩
    | some e =>
      dsimp only
      split
      next hfilter =>
        have hpart : p.isFull = false := by
          rw [Pass.isFull, decide_eq_false_iff_not]
          rintro ⟨htype, hreceiver⟩
          rw [Option.isNone_iff_eq_none] at hreceiver
          rw [hreceiver, htype] at hfilter
          simp at hfilter
        have hoffsets := hkept (.inl hpart)
        exact ⟨_, rfl, hoffsets.update _ _ _, hledger.of_perm (List.Perm.refl _)⟩
      next =>
        split
        next =>
          split
          next =>
            -- The event goes to another entry.
            obtain ⟨data, heq, hdata, hperm⟩ := hnull.insert pe
            rw [heq, ok_bind]
            refine ⟨_, rfl, hdata, hledger.of_perm (hperm.trans ?_)⟩
            have hholders := holders_nullEvent hpe hevent
            refine .trans (.of_eq ?_) hholders.symm
            simp [holders, hevent]
          next hpart => exact ⟨_, rfl, hkept (.inl (Bool.not_eq_true _ ▸ hpart)), hledger⟩
        next => exact deliver_ends hledger hnull hpe hevent

/-! ### Removing -/

/-- The event of an entry is removed. -/
theorem remove_inv (h : Inv s) {e : QEvent} (hpe : s.data.postEventList[i]? = some pe)
    (he : pe.event = some e) :
  Inv { setPosted e.id false (uncount pe.receiver s) with
    data := nullEvent i s.data, removed := e.id :: s.removed }
  := by
  refine ⟨h.offsets.null i, h.ledger.lose (holders_nullEvent hpe he) rfl ?_ rfl rfl⟩
  exact List.perm_middle

/-- The loop of `removePostedEvents`: where no pass goes on, the entries from `j` to `i` hold no
event; no entry before `i` is one that is to be removed. -/
theorem removeLoop_ends (receiver : Option R) (eventType : ℤ) {turns j : ℕ} (h : Inv s)
    (hturns : i + turns = s.data.postEventList.length) (hj : j ≤ i)
    (hgap : s.data.recursion = 0 → ∀ (k : ℕ) (pe : QPostEvent R), j ≤ k → k < i →
      s.data.postEventList[k]? = some pe → pe.event = none)
    (hdone : ∀ (k : ℕ) (pe : QPostEvent R), k < i → s.data.postEventList[k]? = some pe →
      matching receiver eventType pe = none) :
  ∃ s' j', removeLoop receiver eventType turns i j s = .ok (s', j') ∧ Inv s'
    ∧ s'.data.recursion = s.data.recursion ∧ j' ≤ s'.data.postEventList.length
    ∧ (s.data.recursion = 0 → ∀ (k : ℕ) (pe : QPostEvent R), j' ≤ k →
      s'.data.postEventList[k]? = some pe → pe.event = none)
    ∧ ∀ pe ∈ s'.data.postEventList, matching receiver eventType pe = none
  := by
  induction turns generalizing i j s with
  | zero =>
    rw [Nat.add_zero] at hturns
    refine ⟨s, j, rfl, h, rfl, hturns ▸ hj, ?_, ?_⟩
    · intro hzero k pe hk hpe
      apply hgap hzero k pe hk _ hpe
      rw [hturns]
      exact (List.getElem?_eq_some_iff.mp hpe).1
    · intro pe hpe
      obtain ⟨k, hk⟩ := List.mem_iff_getElem?.mp hpe
      apply hdone k pe _ hk
      rw [hturns]
      exact (List.getElem?_eq_some_iff.mp hk).1
  | succ turns ih =>
    have hi : i < s.data.postEventList.length := by omega
    have hpe := List.getElem?_eq_getElem hi
    set pe := s.data.postEventList[i] with hpe_def
    rw [removeLoop, hpe]
    dsimp only
    cases hmatch : matching receiver eventType pe with
    | some e =>
      have he : pe.event = some e := (Option.filter_eq_some_iff.mp hmatch).1
      have hnew := remove_inv h hpe he
      -- The entries are the same but for the one that is nulled.
      have hentry : ∀ (k : ℕ) (q : QPostEvent R),
          (nullEvent i s.data).postEventList[k]? = some q →
          (k = i ∧ q.event = none) ∨ k ≠ i ∧ s.data.postEventList[k]? = some q := by
        intro k q hq
        rw [nullEvent, List.getElem?_modify] at hq
        obtain ⟨q', hq', heq⟩ := Option.map_eq_some_iff.mp hq
        by_cases hk : i = k
        · rw [if_pos hk] at heq
          exact .inl ⟨hk.symm, by rw [← heq]⟩
        · rw [if_neg hk] at heq
          exact .inr ⟨Ne.symm hk, by rw [hq', heq]⟩
      apply ih hnew
      · change i + 1 + turns = (nullEvent i s.data).postEventList.length
        rw [length_nullEvent]
        omega
      · omega
      · intro hzero k q hk hlt hq
        rcases hentry k q hq with ⟨-, hnone⟩ | ⟨hne, hold⟩
        · exact hnone
        · exact hgap hzero k q hk (by omega) hold
      · intro k q hlt hq
        rcases hentry k q hq with ⟨-, hnone⟩ | ⟨hne, hold⟩
        · rw [matching, hnone]
          rfl
        · exact hdone k q (by omega) hold
    | none =>
      dsimp only
      by_cases hzero : s.data.recursion = 0
      · have hjlt : j < s.data.postEventList.length := by omega
        have hother := List.getElem?_eq_getElem hjlt
        set other := s.data.postEventList[j] with hother_def
        rw [if_pos hzero, hother]
        dsimp only
        have hperm : ((s.data.postEventList.set i other).set j pe).Perm
            s.data.postEventList := List.set_set_perm hi hjlt
        have hstart := h.offsets.start_of_recursion hzero
        have hentry : ∀ (k : ℕ) (q : QPostEvent R),
            ((s.data.postEventList.set i other).set j pe)[k]? = some q →
            (k = j ∧ q = pe) ∨ k ≠ j ∧ (k = i ∧ q = other)
              ∨ k ≠ j ∧ k ≠ i ∧ s.data.postEventList[k]? = some q := by
          intro k q hq
          rw [List.getElem?_set, List.getElem?_set] at hq
          split at hq
          next hk =>
            split at hq
            next => exact .inl ⟨hk.symm, (Option.some.inj hq).symm⟩
            next => cases hq
          next hk =>
            split at hq
            next hk' =>
              exact .inr (.inl ⟨Ne.symm hk, hk'.symm, (Option.some.inj hq).symm⟩)
            next hk' => exact .inr (.inr ⟨Ne.symm hk, Ne.symm hk', hq⟩)
        apply ih
        · refine ⟨⟨h.offsets.recursion_eq, h.offsets.start_nonneg, h.offsets.start_le, ?_,
            h.offsets.start_eq_zero, h.offsets.own_nonneg, ?_⟩,
            h.ledger.of_perm (holders_perm hperm)⟩
          · change s.data.startOffset ≤ ((s.data.postEventList.set i other).set j pe).length
            rw [hstart]
            exact Int.natCast_nonneg _
          · intro k q hk
            change (k : ℤ) < s.data.startOffset at hk
            omega
        · change i + 1 + turns = ((s.data.postEventList.set i other).set j pe).length
          rw [List.length_set, List.length_set]
          omega
        · omega
        · intro _ k q hk hlt hq
          rcases hentry k q hq with ⟨heq, -⟩ | ⟨hne, heq, rfl⟩ | ⟨-, hne, hold⟩
          · omega
          · exact hgap hzero j _ (Nat.le_refl j) (by omega) hother
          · exact hgap hzero k q (by omega) (by omega) hold
        · intro k q hlt hq
          rcases hentry k q hq with ⟨-, rfl⟩ | ⟨hne, heq, rfl⟩ | ⟨-, hne, hold⟩
          · exact hmatch
          · exact hdone j _ (by omega) hother
          · exact hdone k q (by omega) hold
      · rw [if_neg hzero]
        apply ih h (by omega) (by omega)
        · exact fun h => absurd h hzero
        · intro k q hlt hq
          by_cases hk : k = i
          · rw [hk, hpe, Option.some.injEq] at hq
            rw [← hq]
            exact hmatch
          · exact hdone k q (by omega) hq

theorem holders_of_matching {receiver : Option R} {list : List (QPostEvent R)}
    (h : ∀ pe ∈ list, matching receiver 0 pe = none) {r : R} (hr : receiver = some r) :
  (holders list).countP (·.1 = r) = 0
  := by
  rw [List.countP_eq_zero]
  intro x hx
  obtain ⟨pe, hpe, hevent⟩ := List.mem_filterMap.mp hx
  obtain ⟨e, he, rfl⟩ := Option.map_eq_some_iff.mp hevent
  have hnone := h pe hpe
  rw [matching, hr, he, Option.filter_eq_none_iff] at hnone
  intro heq
  apply hnone e rfl
  simpa using heq

/-- The list is truncated where the rest holds no event. -/
theorem truncate_inv (h : Inv s) (hzero : s.data.recursion = 0) {j : ℕ}
    (hrest : ∀ (k : ℕ) (pe : QPostEvent R), j ≤ k → s.data.postEventList[k]? = some pe →
      pe.event = none) :
  Inv { s with data := { s.data with postEventList := s.data.postEventList.take j } }
  := by
  have hstart := h.offsets.start_of_recursion hzero
  have hdrop : holders (s.data.postEventList.drop j) = [] := by
    apply holders_eq_nil
    intro pe hpe
    obtain ⟨k, hk⟩ := List.mem_iff_getElem?.mp hpe
    rw [List.getElem?_drop] at hk
    exact hrest (j + k) pe (Nat.le_add_right j k) hk
  have htake : holders (s.data.postEventList.take j) = holders s.data.postEventList := by
    conv =>
      rhs
      rw [← List.take_append_drop j s.data.postEventList, holders_append, hdrop, List.append_nil]
  refine ⟨⟨h.offsets.recursion_eq, h.offsets.start_nonneg, h.offsets.start_le, ?_,
    h.offsets.start_eq_zero, h.offsets.own_nonneg, ?_⟩, h.ledger.of_perm (.of_eq htake)⟩
  · change s.data.startOffset ≤ (s.data.postEventList.take j).length
    rw [hstart]
    exact Int.natCast_nonneg _
  · intro k pe hk
    change (k : ℤ) < s.data.startOffset at hk
    omega

theorem removePostedEvents_ends (h : Inv s) (receiver : Option R) (eventType : ℤ) :
  ∃ s', removePostedEvents receiver eventType s = .ok s' ∧ Inv s'
  := by
  unfold removePostedEvents
  split
  next => exact ⟨s, rfl, h⟩
  next =>
    obtain ⟨s', j, heq, h', hrec, hj, hrest, hnone⟩ :=
      removeLoop_ends receiver eventType h (Nat.zero_add _) (Nat.le_refl 0)
        (fun _ k _ _ hk => absurd hk (Nat.not_lt_zero k))
        (fun k _ hk => absurd hk (Nat.not_lt_zero k))
    have hcounter : ¬ (receiver.any (fun r => s'.postedEvents r ≠ 0) ∧ eventType = 0) := by
      rintro ⟨hany, rfl⟩
      obtain ⟨r, hr, hne⟩ := (Option.any_eq_true _ _).mp hany
      have hcount := h'.ledger.counted r
      rw [holders_of_matching hnone hr] at hcount
      exact of_decide_eq_true hne hcount
    rw [heq, ok_bind]
    dsimp only
    rw [if_neg hcounter]
    by_cases hzero : s'.data.recursion = 0
    · rw [if_pos hzero, if_neg (Nat.not_lt_of_le hj)]
      exact ⟨_, rfl, truncate_inv h' hzero (hrest (hrec ▸ hzero))⟩
    · rw [if_neg hzero]
      exact ⟨s', rfl, h'⟩

theorem removePostedEvent_inv (h : Inv s) (id : ℕ) :
  Inv (removePostedEvent id s)
  := by
  unfold removePostedEvent
  split
  next => exact h
  next =>
    cases hfind : s.data.postEventList.findIdx? (fun pe => pe.event.any (·.id = id)) with
    | none => exact h
    | some i =>
      obtain ⟨hi, hany, -⟩ := List.findIdx?_eq_some_iff_getElem.mp hfind
      have hpe := List.getElem?_eq_getElem hi
      dsimp only
      rw [hpe]
      obtain ⟨e, he, hid⟩ := (Option.any_eq_true _ _).mp hany
      rw [← of_decide_eq_true hid]
      exact remove_inv h hpe he

/-! ### Runs -/

theorem step_inv (self : Compress R) (h : Inv s) (action : Action R) :
  ∃ s', step self s action = .ok s' ∧ Inv s'
  := by
  have hstill : ∀ running : Bool, Inv { s with running := running } := fun running =>
    ⟨h.offsets, h.ledger.counted, h.ledger.accounted, h.ledger.nodup, h.ledger.created⟩
  cases action with
  | turn =>
    rw [step]
    cases hpasses : s.passes with
    | nil => exact ⟨s, rfl, h⟩
    | cons p passes =>
      dsimp only
      split
      next => exact ⟨s, rfl, h⟩
      next => exact turn_ends h hpasses
  | post receiver type timerId loopLevel scopeLevel priority =>
    rw [step]
    split
    next => exact postEvent_ends h self receiver type timerId loopLevel scopeLevel priority
    next => exact ⟨s, rfl, h⟩
  | send receiver eventType =>
    refine ⟨_, rfl, ?_⟩
    split
    next => exact sendPostedEvents_inv h receiver eventType
    next => exact h
  | remove receiver eventType =>
    rw [step]
    split
    next => exact removePostedEvents_ends h receiver eventType
    next => exact ⟨s, rfl, h⟩
  | removeEvent id =>
    refine ⟨_, rfl, ?_⟩
    split
    next => exact removePostedEvent_inv h id
    next => exact h
  | levels loopLevel scopeLevel =>
    refine ⟨_, rfl, ?_⟩
    split
    next =>
      exact ⟨h.offsets.update _ _ _, h.ledger.of_perm (List.Perm.refl _)⟩
    next => exact h
  | leave =>
    refine ⟨_, rfl, ?_⟩
    split
    next => exact hstill false
    next => exact h
  | raise =>
    rw [step]
    cases hpasses : s.passes with
    | nil => exact ⟨s, rfl, h⟩
    | cons p passes =>
      dsimp only
      split
      next =>
        have hoffsets := h.offsets
        rw [hpasses] at hoffsets
        obtain ⟨data, heq, hdata, hholders⟩ := hoffsets.cleanUp true
        rw [heq, ok_bind]
        refine ⟨_, rfl, hdata, ?_⟩
        have hledger := h.ledger.of_perm (List.Perm.of_eq hholders)
        exact ⟨hledger.counted, hledger.accounted, hledger.nodup, hledger.created⟩
      next => exact ⟨s, rfl, h⟩

theorem initial_inv :
  Inv (initial R)
  := by
  refine ⟨⟨rfl, Int.le_refl 0, Int.le_refl 0, Int.le_refl 0, fun _ => rfl, ?_, ?_⟩, ?_⟩
  · exact fun p hp => nomatch hp
  · exact fun j pe _ hpe => nomatch hpe
  · exact ⟨fun r => rfl, List.Perm.refl _, List.nodup_nil, fun id hid => nomatch hid⟩

theorem run_inv (self : Compress R) (h : Inv s) (actions : List (Action R)) :
  ∃ s', run self s actions = .ok s' ∧ Inv s'
  := by
  induction actions generalizing s with
  | nil => exact ⟨s, rfl, h⟩
  | cons action actions ih =>
    obtain ⟨s', hstep, h'⟩ := step_inv self h action
    obtain ⟨s'', hrun, h''⟩ := ih h'
    refine ⟨s'', ?_, h''⟩
    rw [run, List.foldlM_cons, hstep, ok_bind]
    exact hrun

theorem countP_holders (list : List (QPostEvent R)) (r : R) :
  (holders list).countP (·.1 = r)
    = list.countP fun pe => pe.event.isSome ∧ pe.receiver = r
  := by
  induction list with
  | nil => rfl
  | cons pe list ih =>
    rw [List.countP_cons, ← ih, holders, List.filterMap_cons]
    cases pe.event with
    | none => simp [holders]
    | some e =>
      rw [Option.map_some, List.countP_cons]
      simp [holders]

end QCoreApplication
