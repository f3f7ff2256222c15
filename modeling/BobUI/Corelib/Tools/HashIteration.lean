import BobUI.Corelib.Tools.MultiHashTables

/-!
# Erasing while iterating

A loop over a hash increments its iterator, or goes on with the one that `erase` returns.  What
`erase` moves into the hole stood behind it, and is come to afterwards; but the walk goes on at
the first bucket when it has been at the last, and an entry that stands there has been come to
already.  The loop comes to it again, unless nothing is moved over the entry that is erased.
-/

open QHashPrivate LinearProbing

namespace QMultiHash

variable {K W : Type} {t : Data K W}

/-! ### The nodes from a bucket on -/

section Layout

variable (h : t.Layout)

include h

/-- What is done to a bucket changes nothing for the nodes from a later one on. -/
theorem nodesFrom_put_of_lt {i b : ℕ} (hib : i < b) (n : Option (Node K W)) :
  nodesFrom (t.put (.ofBucketIndex i) n) b = nodesFrom t b
  := by
  rw [nodesFrom, Data.flatten_put h, List.drop_set, if_pos hib]
  rfl

theorem nodesFrom_store {i b : ℕ} (hbi : b ≤ i) (hi : i < t.numBuckets)
    (hunused : t.entry i = none) (n : Node K W) :
  (nodesFrom (t.put (.ofBucketIndex i) (some n)) b).Perm (n :: nodesFrom t b)
  := by
  rw [nodesFrom, Data.flatten_put h, List.drop_set, if_neg (Nat.not_lt_of_le hbi)]
  apply Slots.entries_store
  rw [List.getElem?_drop, Nat.add_sub_cancel' hbi, h.getElem?_flatten hi, hunused]

theorem nodesFrom_remove {i b : ℕ} (hbi : b ≤ i) (hi : i < t.numBuckets) {n : Node K W}
    (hused : t.entry i = some n) :
  (nodesFrom t b).Perm (n :: nodesFrom (t.put (.ofBucketIndex i) none) b)
  := by
  rw [nodesFrom, nodesFrom, Data.flatten_put h, List.drop_set, if_neg (Nat.not_lt_of_le hbi)]
  apply Slots.entries_remove
  rw [List.getElem?_drop, Nat.add_sub_cancel' hbi, h.getElem?_flatten hi, hused]

end Layout


end QMultiHash

namespace QHashPrivate.Data

open QMultiHash

variable {K V : Type} {hash : K → ℕ → ℕ} {d d' : Data K V}

/-! ### Which entries an erasure moves -/

/-- An entry is moved from a bucket into a hole. -/
theorem entry_move (h : d.Layout) {i hole : ℕ} (hi : i < d.numBuckets)
    (hhole : hole < d.numBuckets) (a : Node K V) :
  ((d.put (.ofBucketIndex i) none).put (.ofBucketIndex hole) (some a)).entry
    = Function.update (Function.update d.entry i none) hole (some a)
  := by
  rw [entry_put (h.put i none) hhole, entry_put h hi]

/-- The hole lies before the bucket `b`, and so do the buckets that are still looked at. -/
theorem closeHole_before (h : d.Layout) {hole j u b : ℕ}
    (hgap : Gap d.numBuckets (home hash d) d.entry hole (next d.numBuckets j) u)
    (hj : j < d.numBuckets) (hhole : hole < b) (hnext : next d.numBuckets j ≤ u) (hu : u < b)
    {turns : ℕ} (heq : closeHole hash turns (.ofBucketIndex hole) (.ofBucketIndex j) d = .ok d') :
  nodesFrom d' b = nodesFrom d b
  := by
  induction turns generalizing d hole j with
  | zero => cases heq
  | succ turns ih =>
    have hlt : next d.numBuckets j < d.numBuckets := hgap.next_lt
    rw [closeHole_succ h hgap.hole_lt hj] at heq
    cases hentry : d.entry (next d.numBuckets j) with
    | none =>
      rw [hentry] at heq
      cases heq
      rfl
    | some a =>
      have hju := hgap.used_ne hentry
      have hun := hgap.unused_lt
      have hnext' : next d.numBuckets (next d.numBuckets j) ≤ u := by
        rw [LinearProbing.next, if_neg (by omega)]
        omega
      rw [hentry] at heq
      dsimp only at heq
      split at heq
      next hmove =>
        have hmoved := hgap.move hentry hmove
        rw [← entry_move h hlt hgap.hole_lt] at hmoved
        rw [ih ((h.put _ none).put hole (some a)) hmoved hlt (by omega) hnext' heq,
          nodesFrom_put_of_lt (h.put _ none) hhole, nodesFrom_put_of_lt h (by omega)]
      next hstay =>
        exact ih h (hgap.stay hentry (Nat.le_of_not_lt hstay)) hlt hhole hnext' heq

/-- The hole lies at or behind the bucket `b`, and the buckets before `b` are looked at: an entry
is moved into the hole unless the hole is a barrier. -/
theorem closeHole_wrapped (h : d.Layout) {hole j u b : ℕ}
    (hgap : Gap d.numBuckets (home hash d) d.entry hole (next d.numBuckets j) u)
    (hj : j < d.numBuckets) (hhole : b ≤ hole) (hnext : next d.numBuckets j ≤ u) (hu : u < b)
    {turns : ℕ} (heq : closeHole hash turns (.ofBucketIndex hole) (.ofBucketIndex j) d = .ok d') :
  ∃ moved, (nodesFrom d' b).Perm (moved ++ nodesFrom d b)
    ∧ (moved = [] ↔ Barrier d.numBuckets (home hash d) d.entry hole)
  := by
  induction turns generalizing j with
  | zero => cases heq
  | succ turns ih =>
    have hlt : next d.numBuckets j < d.numBuckets := hgap.next_lt
    rw [closeHole_succ h hgap.hole_lt hj] at heq
    cases hentry : d.entry (next d.numBuckets j) with
    | none =>
      rw [hentry] at heq
      cases heq
      refine ⟨[], List.Perm.refl _, iff_of_true rfl ?_⟩
      exact (hgap.closed h.home_lt hentry).barrier hgap.hole_lt hgap.hole
    | some a =>
      have hju := hgap.used_ne hentry
      have hun := hgap.unused_lt
      have hnext' : next d.numBuckets (next d.numBuckets j) ≤ u := by
        rw [LinearProbing.next, if_neg (by omega)]
        omega
      rw [hentry] at heq
      dsimp only at heq
      split at heq
      next hmove =>
        have hmoved := hgap.move hentry hmove
        rw [← entry_move h hlt hgap.hole_lt] at hmoved
        have hunused : (d.put (.ofBucketIndex (next d.numBuckets j)) none).entry hole
            = none := by
          rw [entry_put h hlt, Function.update_of_ne hgap.next_ne.symm]
          exact hgap.hole
        refine ⟨[a], ?_, iff_of_false (List.cons_ne_nil a []) ?_⟩
        · rw [closeHole_before ((h.put _ none).put hole (some a)) hmoved hlt (by omega)
            hnext' hu heq]
          apply (nodesFrom_store (h.put _ none) hhole hgap.hole_lt hunused a).trans
          rw [nodesFrom_put_of_lt h (by omega)]
          exact List.Perm.refl _
        · intro hbarrier
          exact Nat.not_lt_of_le (hbarrier _ hlt a hentry) hmove
      next hstay =>
        exact ih (hgap.stay hentry (Nat.le_of_not_lt hstay)) hlt hnext' heq

/-- The buckets behind the hole are looked at: an entry from before the bucket `b` is moved to a
bucket at or behind `b` unless a bucket from the hole on is a barrier. -/
theorem closeHole_behind (h : d.Layout) {hole j u b : ℕ}
    (hgap : Gap d.numBuckets (home hash d) d.entry hole (next d.numBuckets j) u)
    (hj : j < d.numBuckets) (hhole : b ≤ hole) (horder : hole ≤ j) (hu : u < b ∨ j < u)
    {turns : ℕ} (heq : closeHole hash turns (.ofBucketIndex hole) (.ofBucketIndex j) d = .ok d') :
  ∃ moved, (nodesFrom d' b).Perm (moved ++ nodesFrom d b)
    ∧ (moved = [] ↔ ∃ g, hole ≤ g ∧ g < d.numBuckets
      ∧ Barrier d.numBuckets (home hash d) d.entry g)
  := by
  have hun := hgap.unused_lt
  induction turns generalizing d hole j with
  | zero => cases heq
  | succ turns ih =>
    by_cases hlast : j + 1 = d.numBuckets
    · -- The walk goes on at the first bucket.
      have hzero : next d.numBuckets j = 0 := by
        rw [LinearProbing.next, if_pos hlast]
      obtain ⟨moved, hperm, hmoved⟩ := closeHole_wrapped h hgap hj hhole (by omega)
        (by omega) heq
      refine ⟨moved, hperm, hmoved.trans ⟨fun h => ⟨hole, Nat.le_refl _, hgap.hole_lt, h⟩, ?_⟩⟩
      rintro ⟨g, hhg, hg, hbarrier⟩
      rw [hzero] at hgap
      exact hgap.barrier_hole h.home_lt hhg hg hbarrier
    · have hnext : next d.numBuckets j = j + 1 := by
        rw [LinearProbing.next, if_neg hlast]
      have hlt : j + 1 < d.numBuckets := by omega
      rw [closeHole_succ h hgap.hole_lt hj] at heq
      rw [hnext] at heq hgap
      cases hentry : d.entry (j + 1) with
      | none =>
        rw [hentry] at heq
        cases heq
        refine ⟨[], List.Perm.refl _, iff_of_true rfl ⟨hole, Nat.le_refl _, hgap.hole_lt, ?_⟩⟩
        exact (hgap.closed h.home_lt hentry).barrier hgap.hole_lt hgap.hole
      | some a =>
        have hju := hgap.used_ne hentry
        rw [hentry] at heq
        dsimp only at heq
        split at heq
        next hmove =>
          have hmoved := hgap.move hentry hmove
          have hunused : (d.put (.ofBucketIndex (j + 1)) none).entry hole = none := by
            rw [entry_put h hlt, Function.update_of_ne hgap.next_ne.symm]
            exact hgap.hole
          rw [← entry_move h hlt hgap.hole_lt] at hmoved
          obtain ⟨moved, hperm, hiff⟩ := ih ((h.put _ none).put hole (some a)) hmoved hlt
            (by omega) (Nat.le_refl _) (by omega) heq hun
          refine ⟨moved, hperm.trans (List.Perm.append_left moved ?_), hiff.trans ?_⟩
          · exact (nodesFrom_store (h.put _ none) hhole hgap.hole_lt hunused a).trans
              (nodesFrom_remove h (by omega) hlt hentry).symm
          · rw [entry_move h hlt hgap.hole_lt]
            constructor
            · rintro ⟨g, hjg, hg, hbarrier⟩
              exact ⟨g, by omega, hg, (barrier_move h.home_lt (by omega) hlt hjg hg
                hgap.hole hentry hmove).mp hbarrier⟩
            · rintro ⟨g, hhg, hg, hbarrier⟩
              have hjg := hbarrier.le_of_move h.home_lt hlt hhg hentry hmove (by omega)
              exact ⟨g, hjg, hg, (barrier_move h.home_lt (by omega) hlt hjg hg
                hgap.hole hentry hmove).mpr hbarrier⟩
        next hstay =>
          exact ih h (hgap.stay hentry (Nat.le_of_not_lt hstay)) hlt hhole (by omega)
            (by omega) heq hun

/-- An erasure moves no entry over the erased one: it is at the last bucket, or no other entry has
been probed past one of the buckets from it to the end. -/
def Separates (hash : K → ℕ → ℕ) (d : Data K V) (bucket : ℕ) : Prop :=
  bucket + 1 = d.numBuckets ∨ ∃ g, bucket ≤ g ∧ g < d.numBuckets
    ∧ ∀ x < d.numBuckets, x ≠ bucket → ∀ n, d.entry x = some n →
      dist d.numBuckets (home hash d n) x ≤ dist d.numBuckets (home hash d n) g

/-- A bucket is a barrier of the table without an entry. -/
theorem barrier_remove (h : d.Layout) {c : ℕ} (hc : c < d.numBuckets) (g : ℕ) :
  Barrier d.numBuckets (home hash d) (d.put (.ofBucketIndex c) none).entry g
    ↔ ∀ x < d.numBuckets, x ≠ c → ∀ n, d.entry x = some n →
      dist d.numBuckets (home hash d n) x ≤ dist d.numBuckets (home hash d n) g
  := by
  rw [entry_put h hc, Barrier]
  constructor
  · intro hbarrier x hx hxc n hn
    apply hbarrier x hx
    rw [Function.update_of_ne hxc]
    exact hn
  · intro hbarrier x hx n hn
    by_cases hxc : x = c
    · rw [hxc, Function.update_self] at hn
      cases hn
    · rw [Function.update_of_ne hxc] at hn
      exact hbarrier x hx hxc n hn

variable {m : K → Option V}

/-- From the bucket of an erased entry on stand the nodes behind it then, and those that have
been moved there from before it. -/
theorem Represents.nodesFrom_erase (h : d.Represents hash m) {c : ℕ}
    (hc : c + 1 < d.numBuckets) {n : Node K V} (hn : d.entry c = some n)
    (heq : d.erase hash (.ofBucketIndex c) = .ok d') :
  ∃ moved, (nodesFrom d' c).Perm (moved ++ nodesFrom d (c + 1))
    ∧ (moved = [] ↔ d.Separates hash c)
  := by
  have hcn : c < d.numBuckets := by omega
  have hnode : d.node (.ofBucketIndex c) = some n := hn
  obtain ⟨u, hu, hunused⟩ := h.exists_unused h.room
  have hcu : c ≠ u := by
    rintro rfl
    rw [hunused] at hn
    cases hn
  have hgap := h.probed.gap hcn hu hunused hcu
  rw [← entry_put h.toLayout hcn] at hgap
  have hlayout := h.toLayout.put c none
  rw [Data.erase, isUnused, hnode] at heq
  obtain ⟨moved, hperm, hmoved⟩ := closeHole_behind
    (d := { d.put (.ofBucketIndex c) none with size := d.size - 1 })
    ⟨hlayout.span_length, hlayout.numBuckets_eq, hlayout.numBuckets_pos,
      hlayout.numBuckets_le⟩ hgap hcn (Nat.le_refl c) (Nat.le_refl c) (by omega) heq
  have hrest : nodesFrom { d.put (.ofBucketIndex c) none with size := d.size - 1 } c
      = nodesFrom d (c + 1) := by
    change nodesFrom (d.put (.ofBucketIndex c) none) c = _
    have hlt : c < (d.put (.ofBucketIndex c) none).numBuckets := hcn
    rw [nodesFrom_of_lt hlayout hlt, entry_put h.toLayout hcn, Function.update_self,
      nodesFrom_put_of_lt h.toLayout (Nat.lt_succ_self c)]
    rfl
  rw [hrest] at hperm
  refine ⟨moved, hperm, hmoved.trans ?_⟩
  rw [Separates, or_iff_right (Nat.ne_of_lt hc)]
  simp only [← barrier_remove h.toLayout hcn]
  exact Iff.rfl

end QHashPrivate.Data

namespace QHash

variable {K V : Type} (hash : K → ℕ → ℕ) (globalSeed : ℕ)

/-! ### The loop -/

/-- The entries of a hash. -/
def entries (q : QHash K V) : List (Node K V) :=
  match q.d with
  | none => []
  | some d => d.nodes

/-- A loop over the entries of a hash: the hash, the iterator, and the entries that the iterator
has come to. -/
structure Loop (K V : Type) where
  q : QHash K V
  it : Option (Data.Iterator K V)
  visited : List (Node K V)

/-- The loop starts at `begin()`. -/
def begin (q : QHash K V) : Except Fault (Loop K V) :=
  match q.d with
  | none => pure ⟨q, none, []⟩
  | some _ => do
    let d ← q.detach globalSeed
    pure ⟨⟨some d⟩, ← QMultiHash.tableBegin d, []⟩

/-- One turn of the loop, which is over at the end of the hash: the iterator is incremented, or
the entry is erased. -/
def turn (erases : Bool) (s : Loop K V) : Except Fault (Loop K V) :=
  match s.it, s.q.d with
  | some it, some d =>
    if erases then do
      let (d, _, next) ← s.q.erase hash globalSeed it.bucket
      pure ⟨⟨some d⟩, next, s.visited ++ [it.node]⟩
    else do
      let next ← d.nextIterator d.numBuckets it.bucket
      pure ⟨s.q, next, s.visited ++ [it.node]⟩
  | _, _ => pure s

/-- The loop after some turns. -/
def loop (erases : ℕ → Bool) (q : QHash K V) : ℕ → Except Fault (Loop K V)
  | 0 => q.begin globalSeed
  | turns + 1 => do turn hash globalSeed (erases turns) (← loop erases q turns)

/-- The loop comes to the end, and has come to each entry of the hash exactly once. -/
def VisitsOnce (erases : ℕ → Bool) (q : QHash K V) : Prop :=
  ∃ turns s, loop hash globalSeed erases q turns = .ok s ∧ s.it = none
    ∧ s.visited.Perm q.entries

variable {hash globalSeed} {m : K → Option V}

/-- The nodes from the iterator of a loop on. -/
def Loop.remaining (s : Loop K V) : List (Node K V) :=
  match s.q.d with
  | none => []
  | some d => QMultiHash.nodesOf d s.it

/-- An iterator of the loop designates an entry of the hash, whose data represents a map. -/
def Loop.Valid (hash : K → ℕ → ℕ) (s : Loop K V) : Prop :=
  ∀ it ∈ s.it, ∃ d m, s.q.d = some d ∧ d.Represents hash m ∧ it.bucket < d.numBuckets
    ∧ d.entry it.bucket = some it.node

/-- To erase the entry that the loop is at moves none over it. -/
def Loop.Separates (hash : K → ℕ → ℕ) (s : Loop K V) : Prop :=
  ∀ it ∈ s.it, ∀ d ∈ s.q.d, d.Separates hash it.bucket

/-- A loop that has come to the end stays there. -/
theorem loop_stays {q : QHash K V} {erases : ℕ → Bool} {s : Loop K V} {turns : ℕ}
    (h : loop hash globalSeed erases q turns = .ok s) (hend : s.it = none) (k : ℕ) :
  loop hash globalSeed erases q (turns + k) = .ok s
  := by
  induction k with
  | zero => exact h
  | succ k ih =>
    rw [Nat.add_succ, loop, ih]
    change turn hash globalSeed (erases (turns + k)) s = .ok s
    unfold turn
    rw [hend]
    rfl

theorem Loop.remaining_of_end {s : Loop K V} (h : s.it = none) :
  s.remaining = []
  := by
  obtain ⟨⟨_ | d⟩, it, visited⟩ := s
  · rfl
  · cases h
    rfl

theorem begin_ends (globalSeed : ℕ) {q : QHash K V} (h : q.Represents hash m) :
  ∃ s, q.begin globalSeed = .ok s ∧ s.Valid hash ∧ s.visited = [] ∧ s.remaining = q.entries
  := by
  obtain ⟨_ | d⟩ := q
  · exact ⟨⟨⟨none⟩, none, []⟩, rfl, (fun it hit => nomatch hit), rfl, rfl⟩
  · obtain ⟨ref, hdetach⟩ := detach_of_data (d := d) h.toLayout globalSeed
    have hd := h.withRef ref
    obtain ⟨it, hbegin, hnodes, hit⟩ := QMultiHash.tableBegin_ends hd.toLayout
    refine ⟨⟨⟨some { d with ref := ref }⟩, it, []⟩, ?_, ?_, rfl, hnodes.symm⟩
    · unfold begin
      dsimp only
      rw [hdetach]
      change (QMultiHash.tableBegin _ >>= _) = _
      rw [hbegin]
      rfl
    · intro it' hit'
      exact ⟨_, m, rfl, hd, hit it' hit'⟩

variable [DecidableEq K]

/-- An entry is erased, and the iterator comes to the nodes behind it, and to those that have been
moved there from before it. -/
theorem erase_continues (globalSeed : ℕ) {d : Data K V} (h : d.Represents hash m) {c : ℕ}
    (hc : c < d.numBuckets) {n : Node K V} (hn : d.entry c = some n) :
  ∃ d' next moved, erase hash globalSeed c ⟨some d⟩ = .ok (d', n, next)
    ∧ d'.Represents hash (Function.update m n.key none)
    ∧ (QMultiHash.nodesOf d' next).Perm (moved ++ QMultiHash.nodesFrom d (c + 1))
    ∧ (moved = [] ↔ d.Separates hash c)
    ∧ ∀ it ∈ next, it.bucket < d'.numBuckets ∧ d'.entry it.bucket = some it.node
  := by
  have hnode : d.node (.ofBucketIndex c) = some n := hn
  obtain ⟨ref, hdetach⟩ := detach_of_data (d := d) h.toLayout globalSeed
  obtain ⟨d', herase, hd', -, hnumBuckets⟩ := (h.withRef ref).erase hc hn
  change d'.numBuckets = d.numBuckets at hnumBuckets
  have hc' : c < d'.numBuckets := hnumBuckets ▸ hc
  have heq : erase hash globalSeed c ⟨some d⟩
      = if c = d'.numBuckets - 1 ∨ d'.isUnused (.ofBucketIndex c) then
          (do pure (d', n, ← d'.nextIterator d'.numBuckets c))
        else (do pure (d', n, some (← d'.iterator (.ofBucketIndex c)))) := by
    unfold erase
    dsimp only [Option.bind_some]
    rw [if_pos hc, hnode, hdetach]
    change (Data.erase hash _ _ >>= _) = _
    rw [herase]
    rfl
  rw [heq]
  by_cases hlast : c + 1 = d.numBuckets
  · -- The last entry has been erased.
    have hnone : d'.nextIterator d'.numBuckets c = .ok none := by
      rw [hnumBuckets, ← hlast, Data.nextIterator, if_pos (hlast.trans hnumBuckets.symm)]
    refine ⟨d', none, [], ?_, hd', ?_, iff_of_true rfl (.inl hlast), by rintro it ⟨⟩⟩
    · rw [if_pos (.inl (by omega)), hnone]
      rfl
    · rw [QMultiHash.nodesFrom_of_le h.toLayout (Nat.le_of_eq hlast.symm)]
      exact List.Perm.refl _
  · obtain ⟨moved, hperm, hmoved⟩ := (h.withRef ref).nodesFrom_erase (by
      change c + 1 < d.numBuckets
      omega) hn herase
    rw [QMultiHash.nodesFrom_of_lt hd'.toLayout hc'] at hperm
    rw [isUnused_eq]
    cases hentry : d'.entry c with
    | none =>
      obtain ⟨next, hnext, hnodes, hit⟩ := QMultiHash.nextIterator_ends hd'.toLayout hc'
        (Nat.le_add_left _ c)
      rw [hentry, Option.toList_none, List.nil_append, hnodes] at hperm
      refine ⟨d', next, moved, ?_, hd', hperm, hmoved, hit⟩
      rw [if_pos (.inr rfl), hnext]
      rfl
    | some n' =>
      rw [hentry] at hperm
      refine ⟨d', some ⟨c, n'⟩, moved, ?_, hd', hperm, hmoved, ?_⟩
      · rw [if_neg, iterator_eq hentry]
        · rfl
        · rintro (heq | heq)
          · omega
          · cases heq
      · rintro _ ⟨⟩
        exact ⟨hc', hentry⟩

/-- One turn of the loop comes to the next entry, and none is left out; some come back where an
entry is erased over which others are moved. -/
theorem turn_ends (globalSeed : ℕ) {s : Loop K V} (h : s.Valid hash) (erases : Bool) :
  ∃ s' moved, turn hash globalSeed erases s = .ok s' ∧ s'.Valid hash
    ∧ (s'.visited ++ s'.remaining).Perm (moved ++ (s.visited ++ s.remaining))
    ∧ (moved = [] ↔ (erases = true → s.Separates hash))
    ∧ (s.it = none ∧ s' = s ∨ s.it.isSome = true ∧ s'.visited.length = s.visited.length + 1)
  := by
  obtain ⟨q, it, visited⟩ := s
  cases it with
  | none =>
    refine ⟨⟨q, none, visited⟩, [], rfl, h, List.Perm.refl _, iff_of_true rfl ?_, .inl ⟨rfl, rfl⟩⟩
    intro _ it hit
    cases hit
  | some it =>
    obtain ⟨d, m, hq, hd, hc, hn⟩ := h it rfl
    obtain ⟨_⟩ := q
    cases hq
    cases erases with
    | false =>
      obtain ⟨next, hnext, hnodes, hit⟩ := QMultiHash.nextIterator_ends hd.toLayout hc
        (Nat.le_add_left _ it.bucket)
      refine ⟨⟨⟨some d⟩, next, visited ++ [it.node]⟩, [], ?_, ?_, ?_, ?_, .inr ⟨rfl, ?_⟩⟩
      · unfold turn
        dsimp only
        rw [hnext]
        rfl
      · intro it' hit'
        exact ⟨d, m, rfl, hd, hit it' hit'⟩
      · change (visited ++ [it.node] ++ QMultiHash.nodesOf d next).Perm
          (visited ++ it.node :: QMultiHash.nodesFrom d (it.bucket + 1))
        rw [hnodes, List.append_assoc]
        exact List.Perm.refl _
      · exact iff_of_true rfl (fun h => nomatch h)
      · rw [List.length_append]
        rfl
    | true =>
      obtain ⟨d', next, moved, herase, hd', hperm, hmoved, hit⟩ :=
        erase_continues globalSeed hd hc hn
      refine ⟨⟨⟨some d'⟩, next, visited ++ [it.node]⟩, moved, ?_, ?_, ?_, ?_, .inr ⟨rfl, ?_⟩⟩
      · unfold turn
        dsimp only
        rw [if_pos rfl, herase]
        rfl
      · intro it' hit'
        exact ⟨d', _, rfl, hd', hit it' hit'⟩
      · change (visited ++ [it.node] ++ QMultiHash.nodesOf d' next).Perm
          (moved ++ (visited ++ it.node :: QMultiHash.nodesFrom d (it.bucket + 1)))
        have hfront := (hperm.append_left (visited ++ [it.node])).trans
          (List.perm_append_comm_assoc _ _ _)
        rw [List.append_assoc visited [it.node] (QMultiHash.nodesFrom d _)] at hfront
        exact hfront
      · rw [hmoved]
        constructor
        · rintro hstays - _ ⟨⟩ _ ⟨⟩
          exact hstays
        · intro hstays
          exact hstays rfl it rfl d rfl
      · rw [List.length_append]
        rfl

/-- In every turn of the loop, the entries that it has come to and those from its iterator on are
the entries of the hash, and those that have come back. -/
theorem loop_ends (globalSeed : ℕ) {q : QHash K V} (h : q.Represents hash m) (erases : ℕ → Bool)
    (turns : ℕ) :
  ∃ s moved, loop hash globalSeed erases q turns = .ok s ∧ s.Valid hash
    ∧ (s.visited ++ s.remaining).Perm (moved ++ q.entries)
    ∧ (moved = [] ↔ ∀ k < turns, ∀ t, loop hash globalSeed erases q k = .ok t →
      erases k = true → t.Separates hash)
    ∧ (s.it = none ∨ s.visited.length = turns)
  := by
  induction turns with
  | zero =>
    obtain ⟨s, hbegin, hvalid, hvisited, hremaining⟩ := begin_ends globalSeed h
    refine ⟨s, [], hbegin, hvalid, ?_, iff_of_true rfl ?_, .inr ?_⟩
    · rw [hvisited, hremaining]
    · intro k hk
      exact absurd hk (Nat.not_lt_zero k)
    · rw [hvisited]
      rfl
  | succ turns ih =>
    obtain ⟨s, moved, hloop, hvalid, hperm, hmoved, hcount⟩ := ih
    obtain ⟨s', moved', hturn, hvalid', hperm', hmoved', hcount'⟩ :=
      turn_ends globalSeed hvalid (erases turns)
    refine ⟨s', moved' ++ moved, ?_, hvalid', ?_, ?_, ?_⟩
    · rw [loop, hloop]
      exact hturn
    · rw [List.append_assoc]
      exact hperm'.trans (hperm.append_left moved')
    · rw [List.append_eq_nil_iff, hmoved, hmoved']
      constructor
      · rintro ⟨hlast, hbefore⟩ k hk t ht
        rcases Nat.lt_succ_iff_lt_or_eq.mp hk with hlt | rfl
        · exact hbefore k hlt t ht
        · rw [hloop] at ht
          cases ht
          exact hlast
      · intro hall
        exact ⟨hall turns (Nat.lt_succ_self _) s hloop,
          fun k hk => hall k (Nat.lt_succ_of_lt hk)⟩
    · rcases hcount' with ⟨hnone, rfl⟩ | ⟨hsome, hlength⟩
      · exact .inl hnone
      · right
        rcases hcount with hnone | hturns
        · rw [hnone] at hsome
          cases hsome
        · rw [hlength, hturns]

/-- The loop over the entries of a reachable hash comes to each of them exactly once, and to the
end, if and only if no entry is moved over one that it erases. -/
theorem loop_visits_once_iff [Inhabited V] {ops : List (Op K V)} {q : QHash K V}
    {results : List (Result K V)} (h : run hash globalSeed ⟨none⟩ ops = .ok (q, results))
    (erases : ℕ → Bool) :
  VisitsOnce hash globalSeed erases q
    ↔ ∀ turns s, loop hash globalSeed erases q turns = .ok s → erases turns = true →
      s.Separates hash
  := by
  have h_empty : Represents hash (⟨none⟩ : QHash K V) (fun _ => none) := rfl
  have h_yields := run_yields h_empty globalSeed ops
  rw [h] at h_yields
  obtain ⟨m, -, h_q⟩ := h_yields
  change q.Represents hash m at h_q
  constructor
  · rintro ⟨turns, s, h_loop, h_end, h_visited⟩ k t h_t
    obtain ⟨s', moved, h_loop', -, h_perm, h_moved, -⟩ :=
      loop_ends globalSeed h_q erases (turns + (k + 1))
    rw [loop_stays h_loop h_end] at h_loop'
    cases h_loop'
    rw [Loop.remaining_of_end h_end, List.append_nil] at h_perm
    have h_length := (h_visited.symm.trans h_perm).length_eq
    rw [List.length_append] at h_length
    have h_nil : moved = [] := by
      rw [← List.length_eq_zero_iff]
      omega
    exact h_moved.mp h_nil k (by omega) t h_t
  · intro h_all
    obtain ⟨s, moved, h_loop, -, h_perm, h_moved, h_count⟩ :=
      loop_ends globalSeed h_q erases (q.entries.length + 1)
    rw [h_moved.mpr fun k _ t h_t => h_all k t h_t, List.nil_append] at h_perm
    have h_end : s.it = none := by
      have h_length := h_perm.length_eq
      rw [List.length_append] at h_length
      rcases h_count with h_none | h_turns
      · exact h_none
      · omega
    rw [Loop.remaining_of_end h_end, List.append_nil] at h_perm
    exact ⟨_, s, h_loop, h_end, h_perm⟩

theorem loop_visits_once_iff_insert :
  ∃ (q : QHash ℕ ℕ) (results : List (Result ℕ ℕ)),
    run (fun key _ => key) 0 ⟨none⟩ [.insert 126 0, .insert 127 0] = .ok (q, results)
      ∧ (VisitsOnce (fun key _ => key) 0 (fun turn => turn == 0) q
        ↔ ∀ turns s, loop (fun key _ => key) 0 (fun turn => turn == 0) q turns = .ok s →
          (turns == 0) = true → s.Separates (fun key _ => key))
  := by
  have h_ok : (run (fun key _ => key) 0 (⟨none⟩ : QHash ℕ ℕ)
      [.insert 126 0, .insert 127 0]).toOption.isSome = true := by
    rfl
  cases h_run : run (fun key _ => key) 0 (⟨none⟩ : QHash ℕ ℕ)
      [.insert 126 0, .insert 127 0] with
  | error e =>
    rw [h_run] at h_ok
    cases h_ok
  | ok r => exact ⟨r.1, r.2, rfl, loop_visits_once_iff h_run _⟩

/-- Erasing 126 moves 254 over it, from the first bucket, which the loop has been at. -/
theorem loop_visits_twice :
  ∃ (q : QHash ℕ ℕ) (results : List (Result ℕ ℕ)),
    run (fun key _ => key) 0 ⟨none⟩ [.insert 126 0, .insert 127 0, .insert 254 0]
        = .ok (q, results)
      ∧ ¬ VisitsOnce (fun key _ => key) 0 (fun turn => turn == 1) q
  := by
  have h_four : (run (fun key _ => key) 0 (⟨none⟩ : QHash ℕ ℕ)
      [.insert 126 0, .insert 127 0, .insert 254 0] >>= fun r =>
        loop (fun key _ => key) 0 (fun turn => turn == 1) r.1 4).map
      (fun s => (s.it.isNone, s.visited.length)) = .ok (true, 4) := by
    rfl
  have h_three : (run (fun key _ => key) 0 (⟨none⟩ : QHash ℕ ℕ)
      [.insert 126 0, .insert 127 0, .insert 254 0]).map (fun r => r.1.entries.length)
        = .ok 3 := by
    rfl
  generalize run (fun key _ => key) 0 (⟨none⟩ : QHash ℕ ℕ)
    [.insert 126 0, .insert 127 0, .insert 254 0] = r at h_four h_three ⊢
  obtain _ | ⟨q, results⟩ := r
  · cases h_three
  · change (loop _ 0 _ q 4).map _ = _ at h_four
    change Except.ok q.entries.length = _ at h_three
    refine ⟨q, results, rfl, ?_⟩
    rintro ⟨turns, s, h_loop, h_end, h_perm⟩
    have h_length := h_perm.length_eq
    cases h_eq : loop (fun key _ => key) 0 (fun turn => turn == 1) q 4 with
    | error e =>
      rw [h_eq] at h_four
      cases h_four
    | ok t =>
      rw [h_eq] at h_four
      injection h_four with h_four
      obtain ⟨h_none, h_visited⟩ := Prod.mk.inj h_four
      have h_stays := loop_stays h_eq (Option.isNone_iff_eq_none.mp h_none) turns
      rw [Nat.add_comm, loop_stays h_loop h_end 4] at h_stays
      cases h_stays
      rw [h_visited] at h_length
      cases h_length.trans (Except.ok.inj h_three)

end QHash
