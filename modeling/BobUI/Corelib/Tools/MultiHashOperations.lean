import BobUI.Corelib.Tools.MultiHashTables
import Mathlib.Data.Fintype.Option

/-!
# Operations on objects with many values for a key

An object holds a map from keys to lists of values.  Each operation does to that map what its
name says, and changes no other object, whichever objects share a table.
-/

open QHashPrivate SharedData

namespace QMultiHash

variable {ι K V : Type} {hash : K → ℕ → ℕ} {d : Data K (List V)} {m : K → List V}

/-! ### Operations on a table -/

section Tables

theorem iterator_of_entry {c : ℕ} {key : K} {value : V} {chain : List V}
    (h : d.entry c = some ⟨key, value :: chain⟩) :
  (d.iterator (.ofBucketIndex c) >>= fun it => iterator it) = .ok ⟨c, 0⟩
    ∧ entryAt d ⟨c, 0⟩ = .ok ⟨key, value⟩
  := by
  have hnode : d.node (.ofBucketIndex c) = some ⟨key, value :: chain⟩ := h
  constructor
  · rw [QHash.iterator_eq h]
    rfl
  · rw [entryAt, hnode]
    rfl

variable [DecidableEq K]

theorem HoldsChains.emplaceHelper (h : HoldsChains hash d m) (key : K) (value : V) :
  Yields (NoMemory (d.size + 1))
    (fun r => HoldsChains hash r.1 (Function.update m key (value :: m key))
      ∧ entryAt r.1 r.2 = .ok ⟨key, value⟩)
    (emplaceHelper hash key value d)
  := by
  apply (h.findOrInsert key).bind
  rintro ⟨_, initialized, d₁⟩ ⟨c, rfl, ⟨rfl, rfl, hc, -, hentry⟩ | ⟨rfl, hnil, hinsert⟩⟩
  · have hnode : d₁.node (.ofBucketIndex c) = some ⟨key, m key⟩ := hentry
    have hput : (d₁.put (.ofBucketIndex c) (some ⟨key, value :: m key⟩)).entry c
        = some ⟨key, value :: m key⟩ := by
      rw [Data.entry_put h.toLayout hc, Function.update_self]
    obtain ⟨hit, hat⟩ := iterator_of_entry hput
    dsimp only
    rw [if_pos rfl, hnode, Option.map_some, pure_bind, ← bind_assoc, hit]
    exact ⟨h.replace hc hentry (List.cons_ne_nil value _), hat⟩
  · obtain ⟨d', heq, hc, hd', hentry⟩ := hinsert [value] (List.cons_ne_nil value [])
    obtain ⟨hit, hat⟩ := iterator_of_entry hentry
    dsimp only
    rw [if_neg Bool.false_ne_true, heq, hnil]
    change Yields _ _ (d'.iterator (.ofBucketIndex c) >>= _)
    rw [← bind_assoc, hit]
    exact ⟨hd', hat⟩

theorem HoldsChains.emplaceReplaceHelper (h : HoldsChains hash d m) (key : K) (value : V) :
  Yields (NoMemory (d.size + 1))
    (fun r => HoldsChains hash r.1 (Function.update m key (value :: (m key).tail))
      ∧ entryAt r.1 r.2.1 = .ok ⟨key, value⟩ ∧ (r.2.2 = true ↔ m key = []))
    (emplaceReplaceHelper hash key value d)
  := by
  apply (h.findOrInsert key).bind
  rintro ⟨_, initialized, d₁⟩ ⟨c, rfl, ⟨rfl, rfl, hc, hne, hentry⟩ | ⟨rfl, hnil, hinsert⟩⟩
  · obtain ⟨old, chain, hchain⟩ := List.exists_cons_of_ne_nil hne
    have hnode : d₁.node (.ofBucketIndex c) = some ⟨key, old :: chain⟩ := hchain ▸ hentry
    have hput : (d₁.put (.ofBucketIndex c) (some ⟨key, value :: chain⟩)).entry c
        = some ⟨key, value :: chain⟩ := by
      rw [Data.entry_put h.toLayout hc, Function.update_self]
    obtain ⟨hit, hat⟩ := iterator_of_entry hput
    dsimp only
    rw [if_pos rfl, hnode, hchain]
    change Yields _ _ ((Data.iterator _ (.ofBucketIndex c)) >>= _)
    rw [← bind_assoc, hit]
    refine ⟨h.replace hc hentry (List.cons_ne_nil value _), hat, ?_⟩
    exact iff_of_false Bool.false_ne_true (List.cons_ne_nil old chain)
  · obtain ⟨d', heq, hc, hd', hentry⟩ := hinsert [value] (List.cons_ne_nil value [])
    obtain ⟨hit, hat⟩ := iterator_of_entry hentry
    dsimp only
    rw [if_neg Bool.false_ne_true, heq, hnil]
    change Yields _ _ (d'.iterator (.ofBucketIndex c) >>= _)
    rw [← bind_assoc, hit]
    exact ⟨hd', hat, iff_of_true rfl rfl⟩

end Tables

/-! ### Objects -/

/-- An object holds a map: its table has the lists, and the number of their values is right. -/
def HoldsMap (hash : K → ℕ → ℕ) (v : Option (Data K (List V)) × ℤ) (m : K → List V) : Prop :=
  match v.1 with
  | none => m = (fun _ => []) ∧ v.2 = 0
  | some d => HoldsChains hash d m ∧ v.2 = total d

variable {m' : K → List V} {p : Option ι} {v : Option (Data K (List V)) × ℤ}

/-- An object without values holds the empty map. -/
theorem HoldsMap.eq_nil [DecidableEq K] (h : HoldsMap hash v m) (hsize : v.2 = 0) :
  m = fun _ => []
  := by
  obtain ⟨_ | d, size⟩ := v
  · exact h.1
  · obtain ⟨hd, htotal⟩ := h
    change size = total d at htotal
    change size = 0 at hsize
    funext key
    have hsplit := hd.total_split key
    rw [← List.length_eq_zero_iff]
    omega

/-- An object with values does not hold the empty map. -/
theorem HoldsMap.ne_nil (h : HoldsMap hash v m) (hsize : v.2 ≠ 0) :
  m ≠ fun _ => []
  := by
  rintro rfl
  obtain ⟨_ | d, size⟩ := v
  · exact hsize h.2
  · obtain ⟨hd, htotal⟩ := h
    apply hsize
    change size = total d at htotal
    change size = 0
    have hnodes : d.nodes = [] := by
      rw [List.eq_nil_iff_forall_not_mem]
      intro n hn
      obtain ⟨hvalue, hne⟩ := hd.mem_nodes.mp hn
      exact hne hvalue
    rw [htotal, total, hnodes]
    rfl

variable [DecidableEq ι] [Fintype ι] {s s' s₁ : Memory ι K V} {o : Option ι}

/-- Nothing but an object has changed, which holds a map now. -/
def Changes (hash : K → ℕ → ℕ) (s : Memory ι K V) (o : Option ι) (m : K → List V)
    (s' : Memory ι K V) : Prop :=
  s'.Counted ∧ ∃ v, s'.view = Function.update s.view o v ∧ HoldsMap hash v m

theorem Changes.refl (h : s.Counted) (ho : HoldsMap hash (s.view o) m) :
  Changes hash s o m s
  := ⟨h, s.view o, (Function.update_eq_self o s.view).symm, ho⟩

theorem Changes.trans {m₁ : K → List V} (h : Changes hash s o m₁ s₁)
    (h' : Changes hash s₁ o m s') :
  Changes hash s o m s'
  := by
  obtain ⟨-, v₁, hview₁, -⟩ := h
  obtain ⟨hcounted, v, hview, hv⟩ := h'
  refine ⟨hcounted, v, ?_, hv⟩
  rw [hview, hview₁, Function.update_idem]

theorem Changes.view_of_ne (h : Changes hash s o m s') (hp : p ≠ o) :
  s'.view p = s.view p
  := by
  obtain ⟨-, v, hview, -⟩ := h
  rw [hview, Function.update_of_ne hp]

theorem Changes.holds (h : Changes hash s o m s') :
  HoldsMap hash (s'.view o) m
  := by
  obtain ⟨-, v, hview, hv⟩ := h
  rw [hview, Function.update_self]
  exact hv

/-- An object has a table for itself, which holds a map. -/
structure Owns (hash : K → ℕ → ℕ) (s : Memory ι K V) (o : Option ι) (m : K → List V)
    (d : Data K (List V)) : Prop where
  counted : s.Counted
  data_eq : s.data o = some d
  ref_eq : d.ref = 1
  holds : HoldsChains hash d m
  size_eq : mSize s o = total d

theorem Owns.table_eq (h : Owns hash s o m d) :
  table s o = .ok d
  := by
  rw [table, h.data_eq]

/-- The table of an object is changed, and the number of its values set. -/
theorem Owns.write {d' : Data K (List V)} (h : Owns hash s o m d) (hd' : HoldsChains hash d' m')
    {size : ℤ} (hsize : size = total d') :
  Changes hash s o m' ((s.write o d').setOwn o size)
  := by
  obtain ⟨hcounted, -, hview⟩ := h.counted.write h.data_eq h.ref_eq d'
  obtain ⟨hcounted', hview'⟩ := hcounted.setOwn o size
  refine ⟨hcounted', (some { d' with ref := 0 }, size), ?_, hd'.withRef 0, hsize⟩
  rw [hview', hview, Function.update_self, Function.update_idem]
  rfl

/-- An object that holds a map has a table, or has had none. -/
theorem detach_ends (h : s.Counted) (ho : HoldsMap hash (s.view o) m) (globalSeed : ℕ) :
  ∃ s₁ d, detach globalSeed o s = .ok s₁ ∧ Owns hash s₁ o m d ∧ Changes hash s o m s₁
    ∧ mSize s₁ o = mSize s o ∧ ∀ d₀, s.data o = some d₀ → d = { d₀ with ref := 1 }
  := by
  cases hdata : s.data o with
  | none =>
    have hview : s.view o = (none, mSize s o) := by
      rw [Store.view, hdata]
      rfl
    rw [hview] at ho
    obtain ⟨rfl, hzero⟩ := ho
    change mSize s o = 0 at hzero
    rcases (Data.create_yields hash globalSeed 0 (V := List V)).cases with
      ⟨d, hcreate, hd, hsize⟩ | ⟨e, -, -, he⟩
    · have href : d.ref = 1 := by
        unfold Data.create at hcreate
        cases hspans : allocateSpans K (List V) (GrowthPolicy.bucketsForCapacity 0) with
        | error e =>
          rw [hspans] at hcreate
          cases hcreate
        | ok spans =>
          rw [hspans] at hcreate
          cases hcreate
          rfl
      have hholds : HoldsChains hash d fun _ => [] := hd
      have htotal : total d = 0 := by
        have hlength := hd.size_eq
        rw [hsize, eq_comm, List.length_eq_zero_iff] at hlength
        rw [total, hlength]
        rfl
      obtain ⟨s₁, heq, hcounted, hdata₁, hview₁⟩ :=
        h.detach_null Data.copy hdata hcreate href
      rw [hview] at hview₁
      have hchanges : Changes hash s o (fun _ => []) s₁ := by
        refine ⟨hcounted, _, hview₁, hd.withRef 0, ?_⟩
        change mSize s o = total d
        rw [hzero, htotal]
        rfl
      have hown : mSize s₁ o = mSize s o := by
        have hsnd : (s₁.view o).2 = mSize s o := by
          rw [hview₁, Function.update_self]
        exact hsnd
      refine ⟨s₁, d, heq, ⟨hcounted, hdata₁, href, hholds, ?_⟩, hchanges, hown, ?_⟩
      · rw [hown, hzero, htotal]
        rfl
      · intro d₀ hd₀
        cases hd₀
    · exact absurd he (by decide)
  | some d =>
    have hview : s.view o = (some { d with ref := 0 }, mSize s o) := by
      rw [Store.view, hdata]
      rfl
    have ho' := ho
    rw [hview] at ho'
    obtain ⟨hd, hsize⟩ := ho'
    change mSize s o = total d at hsize
    obtain ⟨s₁, heq, hcounted, hdata₁, hview₁⟩ :=
      h.detach (Data.create K (List V) globalSeed 0) Data.copy hdata hd.toLayout.copy
    have hown : mSize s₁ o = mSize s o := congrArg Prod.snd (congrFun hview₁ o)
    refine ⟨s₁, { d with ref := 1 }, heq, ⟨hcounted, hdata₁, rfl, hd.withRef 1, ?_⟩, ?_,
      hown, ?_⟩
    · rw [hown, hsize]
      rfl
    · refine ⟨hcounted, s.view o, ?_, ho⟩
      rw [hview₁, Function.update_eq_self]
    · rintro d₀ ⟨⟩
      rfl

/-! ### Insertion -/

/-- Memory for as many values cannot be allocated. -/
def TooMany (size : ℤ) (e : Fault) : Prop :=
  e = .badAlloc ∧ 2 ^ 61 ≤ size

variable [DecidableEq K]

omit [DecidableEq K] in
theorem Owns.tooMany (h : Owns hash s o m d) (e : Fault) (he : NoMemory (d.size + 1) e) :
  TooMany (mSize s o + 1) e
  := by
  refine ⟨he.1, ?_⟩
  have hle := h.holds.size_le
  have hsize := h.size_eq
  have hmany := he.2
  omega

theorem emplace_yields (h : s.Counted) (ho : HoldsMap hash (s.view o) m) (globalSeed : ℕ)
    (key : K) (value : V) :
  Yields (TooMany (mSize s o + 1))
    (fun r => Changes hash s o (Function.update m key (value :: m key)) r.1
      ∧ mSize r.1 o = mSize s o + 1 ∧ r.2 = ⟨key, value⟩)
    (emplace globalSeed hash o key value s)
  := by
  obtain ⟨s₁, d, hdetach, howns, hchanges, hown, -⟩ := detach_ends h ho globalSeed
  unfold emplace
  rw [hdetach, ← hown]
  change Yields _ _ (table s₁ o >>= _)
  rw [howns.table_eq]
  apply ((howns.holds.emplaceHelper key value).mono howns.tooMany fun _ h => h).bind
  rintro ⟨d', it⟩ ⟨hd', hat⟩
  dsimp only at hd' hat ⊢
  rw [hat]
  have hset : mSize ((s₁.write o d').setOwn o (mSize s₁ o + 1)) o = mSize s₁ o + 1 := by
    simp [mSize, Store.setOwn, Store.setHandle]
  refine ⟨hchanges.trans (howns.write hd' ?_), hset, rfl⟩
  have htotal := howns.holds.total_update hd'
  rw [List.length_cons] at htotal
  rw [howns.size_eq]
  omega

theorem emplaceReplace_yields (h : s.Counted) (ho : HoldsMap hash (s.view o) m)
    (globalSeed : ℕ) (key : K) (value : V) :
  Yields (TooMany (mSize s o + 1))
    (fun r => Changes hash s o (Function.update m key (value :: (m key).tail)) r.1
      ∧ r.2 = ⟨key, value⟩)
    (emplaceReplace globalSeed hash o key value s)
  := by
  obtain ⟨s₁, d, hdetach, howns, hchanges, hown, -⟩ := detach_ends h ho globalSeed
  unfold emplaceReplace
  rw [hdetach, ← hown]
  change Yields _ _ (table s₁ o >>= _)
  rw [howns.table_eq]
  apply ((howns.holds.emplaceReplaceHelper key value).mono howns.tooMany fun _ h => h).bind
  rintro ⟨d', it, new⟩ ⟨hd', hat, hnew⟩
  dsimp only at hd' hat hnew ⊢
  rw [hat]
  refine ⟨hchanges.trans (howns.write hd' ?_), rfl⟩
  have htotal := howns.holds.total_update hd'
  rw [List.length_cons, List.length_tail] at htotal
  rw [howns.size_eq]
  split
  next htrue =>
    rw [hnew.mp htrue, List.length_nil] at htotal
    omega
  next hfalse =>
    have hpos := List.length_pos_iff.mpr (mt hnew.mpr hfalse)
    omega

theorem operatorIndex_yields [Inhabited V] (h : s.Counted) (ho : HoldsMap hash (s.view o) m)
    (globalSeed : ℕ) (key : K) :
  Yields (TooMany (mSize s o + 1))
    (fun r => Changes hash s o
        (Function.update m key (if m key = [] then [default] else m key)) r.1
      ∧ r.2 = (m key).headD default)
    (operatorIndex globalSeed hash o key s)
  := by
  obtain ⟨s₁, d, hdetach, howns, hchanges, hown, -⟩ := detach_ends h ho globalSeed
  unfold operatorIndex
  rw [hdetach, ← hown]
  change Yields _ _ (table s₁ o >>= _)
  rw [howns.table_eq]
  apply ((howns.holds.findOrInsert key).mono howns.tooMany fun _ h => h).bind
  rintro ⟨_, initialized, d₁⟩ ⟨c, rfl, ⟨rfl, rfl, hc, hne, hentry⟩ | ⟨rfl, hnil, hinsert⟩⟩
  · obtain ⟨value, chain, hchain⟩ := List.exists_cons_of_ne_nil hne
    have hnode : d₁.node (.ofBucketIndex c) = some ⟨key, value :: chain⟩ := hchain ▸ hentry
    rw [if_neg hne, Function.update_eq_self, hchain]
    dsimp only
    rw [if_pos rfl, if_pos rfl, pure_bind, hnode]
    exact ⟨hchanges.trans (howns.write howns.holds howns.size_eq), rfl⟩
  · obtain ⟨d', heq, hc, hd', hentry⟩ := hinsert [default] (List.cons_ne_nil default [])
    have hnode : d'.node (.ofBucketIndex c) = some ⟨key, [default]⟩ := hentry
    rw [hnil, if_pos rfl]
    dsimp only
    rw [if_neg Bool.false_ne_true, if_neg Bool.false_ne_true, heq]
    dsimp only [bind, Except.bind]
    rw [hnode]
    refine ⟨hchanges.trans (howns.write hd' ?_), rfl⟩
    have htotal := howns.holds.total_update hd'
    rw [hnil, List.length_nil, List.length_singleton] at htotal
    rw [howns.size_eq]
    omega

/-! ### Removal -/

omit [DecidableEq K] in
/-- The number of the values is lowered. -/
theorem Owns.subtractSize {d' : Data K (List V)} (h : Owns hash s o m d)
    (hd' : HoldsChains hash d' m') {n : ℕ} (hn : total d' + n = total d) :
  ∃ s', subtractSize o n (s.write o d') = .ok s' ∧ Changes hash s o m' s'
  := by
  have hsize := h.size_eq
  have hsame : mSize (s.write o d') o = mSize s o := by
    rw [mSize, Store.write_handles]
    rfl
  refine ⟨(s.write o d').setOwn o (mSize s o - n), ?_, h.write hd' (by omega)⟩
  rw [QMultiHash.subtractSize, hsame, if_neg (by omega)]

/-- A key is looked for in an object with values, which gets a table for itself. -/
theorem locate (h : s.Counted) (ho : HoldsMap hash (s.view o) m) (globalSeed : ℕ)
    (hfull : ¬ isEmpty s o = true) (key : K) :
  ∃ d₀ c s₁ d, table s o = .ok d₀ ∧ d₀.findBucket hash key = .ok (.ofBucketIndex c)
    ∧ detach globalSeed o s = .ok s₁ ∧ Owns hash s₁ o m d ∧ Changes hash s o m s₁
    ∧ c < d.numBuckets
    ∧ (m key ≠ [] ∧ d.node (.ofBucketIndex c) = some ⟨key, m key⟩
      ∨ m key = [] ∧ d.node (.ofBucketIndex c) = none)
  := by
  obtain ⟨s₁, d, hdetach, howns, hchanges, hown, hdata⟩ := detach_ends h ho globalSeed
  cases hd₀ : s.data o with
  | none =>
    exfalso
    apply hfull
    rw [Store.view, hd₀] at ho
    exact decide_eq_true ho.2
  | some d₀ =>
    rw [Store.view, hd₀] at ho
    have hholds : HoldsChains hash d₀ m := Data.Represents.withRef ho.1 d₀.ref
    obtain ⟨c, hc, hfind, hfound⟩ := hholds.findBucket key
    rw [hdata d₀ hd₀] at howns
    refine ⟨d₀, c, s₁, { d₀ with ref := 1 }, ?_, hfind, hdetach, howns, hchanges, hc,
      hfound⟩
    rw [table, hd₀]

/-- A key without values is removed already. -/
theorem update_nil {key : K} (h : m key = []) :
  Function.update m key [] = m
  := by
  rw [← h, Function.update_eq_self]

theorem remove_ends (h : s.Counted) (ho : HoldsMap hash (s.view o) m) (globalSeed : ℕ)
    (key : K) :
  ∃ s', remove globalSeed hash o key s = .ok (s', (m key).length)
    ∧ Changes hash s o (Function.update m key []) s'
  := by
  unfold remove
  by_cases hempty : isEmpty s o = true
  · have hnil := ho.eq_nil (of_decide_eq_true hempty)
    rw [if_pos hempty, update_nil (congrFun hnil key), congrFun hnil key]
    exact ⟨s, rfl, Changes.refl h ho⟩
  · obtain ⟨d₀, c, s₁, d, htable, hfind, hdetach, howns, hchanges, hc, hfound⟩ :=
      locate h ho globalSeed hempty key
    rw [if_neg hempty]
    simp only [htable, hfind, hdetach, howns.table_eq, ok_bind,
      Bucket.toBucketIndex_ofBucketIndex]
    rcases hfound with ⟨-, hnode⟩ | ⟨hnil, hnode⟩
    · obtain ⟨d', herase, hd', -⟩ := howns.holds.erase hc hnode []
      have htotal := howns.holds.total_update hd'
      rw [List.length_nil, Nat.add_zero] at htotal
      have hsize := howns.size_eq
      have hleft : ¬ mSize s₁ o - (m key).length < 0 := by omega
      simp only [hnode, subtractSize, if_neg hleft, ok_bind, herase, Store.setOwn_write]
      exact ⟨_, rfl, hchanges.trans (howns.write hd' (by omega))⟩
    · rw [hnode, hnil, update_nil hnil]
      exact ⟨s₁, rfl, hchanges⟩

theorem take_ends [Inhabited V] (h : s.Counted) (ho : HoldsMap hash (s.view o) m)
    (globalSeed : ℕ) (key : K) :
  ∃ s', take globalSeed hash o key s = .ok (s', (m key).headD default)
    ∧ Changes hash s o (Function.update m key (m key).tail) s'
  := by
  unfold take
  by_cases hempty : isEmpty s o = true
  · have hnil := ho.eq_nil (of_decide_eq_true hempty)
    rw [if_pos hempty, congrFun hnil key, List.tail_nil, update_nil (congrFun hnil key)]
    exact ⟨s, rfl, Changes.refl h ho⟩
  · obtain ⟨d₀, c, s₁, d, htable, hfind, hdetach, howns, hchanges, hc, hfound⟩ :=
      locate h ho globalSeed hempty key
    rw [if_neg hempty]
    simp only [htable, hfind, hdetach, howns.table_eq, ok_bind,
      Bucket.toBucketIndex_ofBucketIndex]
    rcases hfound with ⟨hne, hnode⟩ | ⟨hnil, hnode⟩
    · obtain ⟨t, chain, hchain⟩ := List.exists_cons_of_ne_nil hne
      have hentry := hnode
      rw [hchain] at hnode
      rw [hnode, hchain, List.tail_cons]
      dsimp only
      by_cases hlast : chain = []
      · obtain ⟨d', herase, hd'⟩ := howns.holds.erase_node hc hentry
        have htotal := howns.holds.total_update hd'
        rw [hchain, hlast] at htotal
        obtain ⟨s', hsubtract, hchanges'⟩ := howns.subtractSize (n := 1) hd' htotal
        refine ⟨s', ?_, hlast ▸ hchanges.trans hchanges'⟩
        simp only [hlast, List.isEmpty_nil, if_true, herase, ok_bind, hsubtract]
        rfl
      · have hd' := howns.holds.replace hc hentry hlast
        have htotal := howns.holds.total_update hd'
        rw [hchain, List.length_cons] at htotal
        obtain ⟨s', hsubtract, hchanges'⟩ := howns.subtractSize (n := 1) hd' (by omega)
        refine ⟨s', ?_, hchanges.trans hchanges'⟩
        rw [List.isEmpty_eq_false_iff.mpr hlast, if_neg Bool.false_ne_true, pure_bind,
          hsubtract]
        rfl
    · rw [hnode, hnil, List.tail_nil, update_nil hnil]
      exact ⟨s₁, rfl, hchanges⟩

omit [DecidableEq K] in
theorem removeFromChain_eq [BEq V] (value : V) (chain : List V) :
  removeFromChain value chain = (chain.filter (! · == value), chain.countP (· == value))
  := by
  induction chain with
  | nil => rfl
  | cons v chain ih =>
    rw [removeFromChain, ih]
    cases h : v == value with
    | true => simp [h]
    | false => simp [h]

theorem removeValue_ends [BEq V] (h : s.Counted) (ho : HoldsMap hash (s.view o) m)
    (globalSeed : ℕ) (key : K) (value : V) :
  ∃ s', removeValue globalSeed hash o key value s
      = .ok (s', (m key).countP (· == value))
    ∧ Changes hash s o (Function.update m key ((m key).filter (! · == value))) s'
  := by
  unfold removeValue
  by_cases hempty : isEmpty s o = true
  · have hnil := ho.eq_nil (of_decide_eq_true hempty)
    rw [if_pos hempty, congrFun hnil key, List.filter_nil, update_nil (congrFun hnil key)]
    exact ⟨s, rfl, Changes.refl h ho⟩
  · obtain ⟨d₀, c, s₁, d, htable, hfind, hdetach, howns, hchanges, hc, hfound⟩ :=
      locate h ho globalSeed hempty key
    rw [if_neg hempty]
    simp only [htable, hfind, hdetach, howns.table_eq, ok_bind,
      Bucket.toBucketIndex_ofBucketIndex]
    rcases hfound with ⟨hne, hnode⟩ | ⟨hnil, hnode⟩
    · have hcount : (m key).length = (m key).countP (· == value)
          + ((m key).filter (! · == value)).length := by
        rw [← List.countP_eq_length_filter, List.length_eq_countP_add_countP (· == value)]
        simp
      rw [hnode]
      dsimp only
      rw [removeFromChain_eq]
      dsimp only
      by_cases hlast : (m key).filter (! · == value) = []
      · obtain ⟨d', herase, hd', -⟩ := howns.holds.erase hc hnode []
        have htotal := howns.holds.total_update hd'
        rw [List.length_nil] at htotal
        rw [hlast, List.length_nil] at hcount
        obtain ⟨s', hsubtract, hchanges'⟩ :=
          howns.subtractSize (n := (m key).countP (· == value)) hd' (by omega)
        refine ⟨s', ?_, ?_⟩
        · simp only [hlast, List.isEmpty_nil, if_true, herase, ok_bind, hsubtract]
          rfl
        · rw [hlast]
          exact hchanges.trans hchanges'
      · have hd' := howns.holds.replace hc hnode hlast
        have htotal := howns.holds.total_update hd'
        obtain ⟨s', hsubtract, hchanges'⟩ :=
          howns.subtractSize (n := (m key).countP (· == value)) hd' (by omega)
        refine ⟨s', ?_, hchanges.trans hchanges'⟩
        rw [List.isEmpty_eq_false_iff.mpr hlast, if_neg Bool.false_ne_true, pure_bind,
          hsubtract]
        rfl
    · rw [hnode, hnil, List.filter_nil, update_nil hnil]
      exact ⟨s₁, rfl, hchanges⟩

/-! ### Erasing with an iterator -/

omit [DecidableEq K] in
theorem designates_of_entryAt (h : d.Layout) {it : Iterator} {entry : Node K V}
    (hat : entryAt d it = .ok entry) :
  it.bucket < d.numBuckets ∧ ∃ n, d.node (.ofBucketIndex it.bucket) = some n
    ∧ n.key = entry.key ∧ n.value[it.e]? = some entry.value
  := by
  unfold entryAt at hat
  split at hat
  next => cases hat
  next n hn =>
    split at hat
    next => cases hat
    next v hv =>
      cases hat
      refine ⟨?_, n, hn, rfl, hv⟩
      by_contra hbucket
      have hnone : d.node (.ofBucketIndex it.bucket) = none :=
        h.entry_of_le (Nat.le_of_not_lt hbucket)
      rw [hnone] at hn
      cases hn

/-- An entry is erased from its chain, or with its node. -/
theorem HoldsChains.eraseEntry_ends (h : HoldsChains hash d m) {it : Iterator} {key : K}
    (hbucket : it.bucket < d.numBuckets)
    (hnode : d.node (.ofBucketIndex it.bucket) = some ⟨key, m key⟩)
    (he : it.e < (m key).length) :
  ∃ d' i, eraseEntry hash ⟨key, m key⟩ it d = .ok (d', i)
    ∧ HoldsChains hash d' (Function.update m key ((m key).eraseIdx it.e))
    ∧ ∀ it' ∈ i, Designates d' it'
  := by
  have hlength := List.length_eraseIdx_of_lt he
  unfold eraseEntry
  dsimp only
  by_cases hlast : (m key).eraseIdx it.e = []
  · -- The chain had one entry.
    rw [hlast, List.length_nil] at hlength
    have hzero : it.e = 0 := by omega
    obtain ⟨d', herase, hd', hbuckets⟩ := h.erase hbucket hnode []
    rw [hlast, List.length_nil, if_neg (Nat.not_lt_zero _), if_pos hzero]
    simp only [herase, ok_bind]
    rw [← hbuckets] at hbucket
    split
    next =>
      obtain ⟨i, hnext, -, hi⟩ := hd'.nextNode_ends hbucket
      rw [hnext]
      exact ⟨d', i, rfl, hd', hi⟩
    next hused =>
      cases hentry : d'.entry it.bucket with
      | none =>
        exfalso
        apply hused
        right
        rw [QHash.isUnused_eq, hentry]
        rfl
      | some n =>
        obtain ⟨heq, hdesignates, -⟩ :=
          hd'.iterator_ends (i := ⟨it.bucket, n⟩) ⟨hbucket, hentry⟩
        rw [QHash.iterator_eq hentry, ok_bind, heq]
        refine ⟨d', some ⟨it.bucket, 0⟩, rfl, hd', ?_⟩
        rintro _ ⟨⟩
        exact hdesignates
  · have hd' := h.replace hbucket hnode hlast
    have hput : (d.put (.ofBucketIndex it.bucket) (some ⟨key, (m key).eraseIdx it.e⟩)).entry
        it.bucket = some ⟨key, (m key).eraseIdx it.e⟩ := by
      rw [Data.entry_put h.toLayout hbucket, Function.update_self]
    split
    next hmore =>
      refine ⟨_, some it, rfl, hd', ?_⟩
      rintro _ ⟨⟩
      exact ⟨hbucket, _, hput, hmore⟩
    next hmore =>
      have hpos := List.length_pos_iff.mpr hlast
      rw [if_neg (by omega)]
      obtain ⟨i, hnext, -, hi⟩ := hd'.nextNode_ends hbucket
      rw [hnext]
      exact ⟨_, i, rfl, hd', hi⟩

theorem erase_yields (h : s.Counted) (ho : HoldsMap hash (s.view o) m) (globalSeed : ℕ)
    (it : Iterator) :
  Yields (fun e => e = .badIterator ∧ ∀ d entry, s.data o = some d → entryAt d it ≠ .ok entry)
    (fun r => (m r.2.1.key)[it.e]? = some r.2.1.value
      ∧ Changes hash s o (Function.update m r.2.1.key ((m r.2.1.key).eraseIdx it.e)) r.1
      ∧ ∀ entry ∈ r.2.2,
        entry.value ∈ Function.update m r.2.1.key ((m r.2.1.key).eraseIdx it.e) entry.key)
    (erase globalSeed hash o it s)
  := by
  unfold erase
  split
  next hnone =>
    refine ⟨rfl, ?_⟩
    intro d entry hd hat
    rw [hd, Option.bind_some, hat] at hnone
    cases hnone
  next entry hsome =>
    obtain ⟨d₀, hd₀, htoOption⟩ := Option.bind_eq_some_iff.mp hsome
    have hat : entryAt d₀ it = .ok entry := by
      cases heq : entryAt d₀ it with
      | error e =>
        rw [heq] at htoOption
        cases htoOption
      | ok a =>
        rw [heq] at htoOption
        cases htoOption
        rfl
    obtain ⟨s₁, d, hdetach, howns, hchanges, hown, hdata⟩ := detach_ends h ho globalSeed
    have hd := hdata d₀ hd₀
    have hlayout : d₀.Layout := by
      have hl := howns.holds.toLayout
      rw [hd] at hl
      exact ⟨hl.span_length, hl.numBuckets_eq, hl.numBuckets_pos, hl.numBuckets_le⟩
    obtain ⟨hbucket, ⟨key, chain⟩, hnode, rfl, hvalue⟩ := designates_of_entryAt hlayout hat
    have hbucket' : it.bucket < d.numBuckets := by
      rw [hd]
      exact hbucket
    have hnode' : d.node (.ofBucketIndex it.bucket) = some ⟨entry.key, chain⟩ := by
      rw [hd]
      exact hnode
    obtain ⟨hchain, -⟩ := howns.holds.entry_eq hbucket' hnode'
    change chain = m entry.key at hchain
    subst hchain
    have he : it.e < (m entry.key).length := (List.getElem?_eq_some_iff.mp hvalue).1
    obtain ⟨d', i, herase, hd', hi⟩ :=
      howns.holds.eraseEntry_ends hbucket' hnode' he
    have htotal := howns.holds.total_update hd'
    rw [List.length_eraseIdx_of_lt he] at htotal
    obtain ⟨s', hsubtract, hchanges'⟩ := howns.subtractSize (n := 1) hd' (by omega)
    simp only [hdetach, howns.table_eq, ok_bind, hnode', herase, hsubtract]
    cases i with
    | none => exact ⟨hvalue, hchanges.trans hchanges', fun entry h => nomatch h⟩
    | some it' =>
      obtain ⟨next, i', hnext, -⟩ := hd'.next_ends (hi it' rfl)
      rw [Option.mapM_some, hnext]
      refine ⟨hvalue, hchanges.trans hchanges', ?_⟩
      rintro _ ⟨⟩
      obtain ⟨hb, n, hn, hkey, hv⟩ := designates_of_entryAt hd'.toLayout hnext
      obtain ⟨hchain', -⟩ := hd'.entry_eq hb hn
      rw [← hkey, ← hchain']
      exact List.mem_of_getElem? hv

/-! ### Union -/

/-- Entries are put in front of the lists of their keys, one after the other. -/
def insertAll (entries : List (Node K V)) (m : K → List V) : K → List V :=
  entries.foldl (fun m e => Function.update m e.key (e.value :: m e.key)) m

omit [DecidableEq ι] [Fintype ι] in
theorem insertAll_apply (entries : List (Node K V)) (m : K → List V) (key : K) :
  insertAll entries m key
    = ((entries.filter (·.key = key)).map Node.value).reverse ++ m key
  := by
  induction entries generalizing m with
  | nil => rfl
  | cons e entries ih =>
    change insertAll entries (Function.update m e.key (e.value :: m e.key)) key = _
    rw [ih, List.filter_cons]
    by_cases hkey : e.key = key
    · simp [hkey]
    · rw [Function.update_of_ne (Ne.symm hkey)]
      simp [hkey]

omit [DecidableEq ι] [Fintype ι] [DecidableEq K] in
/-- The table of an object is what the object shows, all but the reference count. -/
theorem table_of_view {c : Data K (List V)} {size : ℤ} (h : s.view o = (some c, size))
    (hc : HoldsChains hash c m) :
  ∃ d, table s o = .ok d ∧ HoldsChains hash d m ∧ total d = total c
    ∧ (∀ i, remaining d i = remaining c i) ∧ ∀ it, Designates d it ↔ Designates c it
  := by
  obtain ⟨d, hd, rfl⟩ := Option.map_eq_some_iff.mp (congrArg Prod.fst h)
  refine ⟨d, by rw [table, hd], Data.Represents.withRef hc d.ref, rfl, ?_, fun _ => Iff.rfl⟩
  rintro (_ | it) <;> rfl

/-- The loop of `unite` inserts the entries of the copy, which stays as it is. -/
theorem uniteLoop_yields (h : s.Counted) (ho : HoldsMap hash (s.view o) m) (globalSeed : ℕ)
    (hne : o ≠ none) {c : Data K (List V)} {size : ℤ} (hcopy : s.view none = (some c, size))
    {m_c : K → List V} (hc : HoldsChains hash c m_c) {i : Option Iterator}
    (hcit : ∀ it ∈ i, Designates c it) {n : ℕ}
    (hturns : (remaining c i).length ≤ n) :
  Yields (TooMany (mSize s o + (remaining c i).length))
    (Changes hash s o (insertAll (remaining c i) m))
    (uniteLoop globalSeed hash o n i s)
  := by
  induction n generalizing s m i with
  | zero =>
    cases i with
    | none => exact Changes.refl h ho
    | some it =>
      obtain ⟨entry, i, -, -, hremaining, -⟩ := hc.next_ends (hcit it rfl)
      rw [hremaining] at hturns
      exact absurd hturns (Nat.not_succ_le_zero _)
  | succ n ih =>
    cases i with
    | none => exact Changes.refl h ho
    | some it =>
      obtain ⟨d, htable, hd, -, hsame, hdes⟩ := table_of_view hcopy hc
      obtain ⟨entry, i', hat, -, hremaining, -⟩ :=
        hd.next_ends ((hdes it).mpr (hcit it rfl))
      rw [hsame, hsame] at hremaining
      rw [hremaining, List.length_cons] at hturns ⊢
      rw [uniteLoop, htable, ok_bind, hat, ok_bind]
      have hemplace := emplace_yields h ho globalSeed entry.key entry.value
      apply (hemplace.mono ?_ fun _ h => h).bind
      · rintro ⟨s₁, e⟩ ⟨hchanges, hsize, -⟩
        dsimp only at hchanges hsize ⊢
        have hcopy₁ := (hchanges.view_of_ne (Ne.symm hne)).trans hcopy
        obtain ⟨d₁, htable₁, hd₁, -, hsame₁, hdes₁⟩ := table_of_view hcopy₁ hc
        obtain ⟨entry₁, i₁, -, hnext₁, hremaining₁, hi₁⟩ :=
          hd₁.next_ends ((hdes₁ it).mpr (hcit it rfl))
        rw [hsame₁, hsame₁, hremaining, List.cons.injEq] at hremaining₁
        rw [htable₁, ok_bind, hnext₁, ok_bind, hremaining₁.2]
        have hloop := ih hchanges.1 hchanges.holds hcopy₁ (i := i₁)
          (fun it' hit' => (hdes₁ it').mp (hi₁ it' hit'))
          (by rw [← hremaining₁.2]; omega)
        apply hloop.mono
        · rintro e ⟨he, hmany⟩
          refine ⟨he, ?_⟩
          rw [hsize] at hmany
          push_cast
          omega
        · intro s' hs'
          exact hchanges.trans hs'
      · rintro e ⟨he, hmany⟩
        refine ⟨he, ?_⟩
        push_cast
        omega

omit [DecidableEq ι] [Fintype ι] [DecidableEq K] in
/-- Two objects with the same pointer show the same. -/
theorem view_eq_of_pointer (ho : HoldsMap hash (s.view o) m) (hp : HoldsMap hash (s.view p) m')
    (hd : (s.handles o).d = (s.handles p).d) :
  s.view o = s.view p
  := by
  have hdata : s.data o = s.data p := by
    rw [Store.data, Store.data, hd]
  unfold HoldsMap at ho hp
  unfold Store.view at *
  rw [hdata] at ho ⊢
  cases hp' : s.data p with
  | none =>
    rw [hp'] at ho hp
    rw [Prod.mk.injEq]
    exact ⟨rfl, ho.2.trans hp.2.symm⟩
  | some d =>
    rw [hp'] at ho hp
    rw [Prod.mk.injEq]
    exact ⟨rfl, ho.2.trans hp.2.symm⟩

omit [DecidableEq K] in
/-- An object becomes a copy of another one. -/
theorem assign_changes (h : s.Counted) (ho : HoldsMap hash (s.view o) m)
    (hp : HoldsMap hash (s.view p) m') :
  Changes hash s o m' (s.assign o p) ∧ (s.assign o p).view = Function.update s.view o (s.view p)
  := by
  obtain ⟨hcounted, hview⟩ := h.assign o p (view_eq_of_pointer ho hp)
  exact ⟨⟨hcounted, s.view p, hview, hp⟩, hview⟩

/-- The map of an object after `unite`. -/
def united (m m_y : K → List V) (m' : K → List V) : Prop :=
  (m = (fun _ => []) → m' = m_y)
    ∧ (m ≠ (fun _ => []) → m' = fun key => (m_y key).reverse ++ m key)

theorem unite_yields {x y : ι} {m_y : K → List V} (h : s.Counted)
    (hx : HoldsMap hash (s.view (some x)) m) (hy : HoldsMap hash (s.view (some y)) m_y)
    (hcopy : s.view none = (none, 0)) (globalSeed : ℕ) :
  Yields (TooMany (mSize s (some x) + mSize s (some y)))
    (fun s' => ∃ m', united m m_y m' ∧ Changes hash s (some x) m' s')
    (unite globalSeed hash x y s)
  := by
  unfold unite
  split
  next hempty =>
    have hnil := hx.eq_nil (of_decide_eq_true hempty)
    exact ⟨m_y, ⟨fun _ => rfl, fun h => absurd hnil h⟩, (assign_changes h hx hy).1⟩
  next hfull =>
    have hne := hx.ne_nil (fun hzero => hfull (decide_eq_true hzero))
    split
    next hempty =>
      have hnil := hy.eq_nil (of_decide_eq_true hempty)
      refine ⟨m, ⟨fun h => absurd h hne, fun _ => ?_⟩, Changes.refl h hx⟩
      rw [hnil]
      rfl
    next hfull' =>
      have hnone : HoldsMap hash (s.view none) (fun _ => []) := by
        rw [hcopy]
        exact ⟨rfl, rfl⟩
      obtain ⟨hassign, hview₁⟩ := assign_changes h hnone hy
      set s₁ := s.assign none (some y) with hs₁
      have hx₁ : HoldsMap hash (s₁.view (some x)) m := by
        rw [hassign.view_of_ne (Option.some_ne_none x)]
        exact hx
      obtain ⟨s₂, d, hdetach, howns, hchanges₂, hown₂, -⟩ :=
        detach_ends hassign.1 hx₁ globalSeed
      have hcopy₂ : s₂.view none = s.view (some y) := by
        rw [hchanges₂.view_of_ne (Option.some_ne_none x).symm, hview₁, Function.update_self]
      have hsize_x : mSize s₂ (some x) = mSize s (some x) :=
        hown₂.trans (congrArg Prod.snd (hassign.view_of_ne (Option.some_ne_none x)))
      rcases hv : s.view (some y) with ⟨_ | c, size⟩
      · rw [hv] at hy
        exact absurd (decide_eq_true ((congrArg Prod.snd hv).trans hy.2)) hfull'
      · rw [hv] at hy hcopy₂
        obtain ⟨hc, htotal⟩ := hy
        have hsize_y : mSize s₂ none = mSize s (some y) :=
          (congrArg Prod.snd hcopy₂).trans (congrArg Prod.snd hv).symm
        have htotal_y : mSize s₂ none = total c := (congrArg Prod.snd hcopy₂).trans htotal
        obtain ⟨d_c, htable, hd_c, htotal_c, hsame, hdes⟩ := table_of_view hcopy₂ hc
        obtain ⟨cit, hbegin, hremaining, hcit⟩ := hd_c.begin_ends
        have hlength : (remaining c cit).length = total c := by
          rw [← hsame, hremaining, length_entriesOf, ← htotal_c]
          rfl
        dsimp only
        rw [hdetach, ok_bind, htable, ok_bind, hbegin, ok_bind]
        have hloop := uniteLoop_yields howns.counted hchanges₂.holds globalSeed
          (Option.some_ne_none x) hcopy₂ hc (i := cit)
          (fun it hit => (hdes it).mp (hcit it hit)) (n := (mSize s₂ none).toNat)
          (by rw [hlength, htotal_y]; exact Nat.le_refl _)
        apply (hloop.mono ?_ fun _ h => h).bind
        · intro s₃ hchanges₃
          obtain ⟨hcleared, hview₄⟩ := hchanges₃.1.clear none 0
          obtain ⟨-, v₃, hview₃, hv₃⟩ := hchanges₃
          obtain ⟨-, v₂, hview₂, -⟩ := hchanges₂
          refine ⟨_, ⟨fun h => absurd h hne, fun _ => ?_⟩, hcleared, v₃, ?_, hv₃⟩
          · funext key
            rw [insertAll_apply, ← hsame, hremaining, hd_c.filter_entries]
          · rw [hview₄, hview₃, hview₂, hview₁, Function.update_idem,
              Function.update_comm (Option.some_ne_none x), Function.update_idem, ← hcopy,
              Function.update_eq_self]
        · rintro e ⟨he, hmany⟩
          refine ⟨he, ?_⟩
          rw [hlength, ← htotal_y] at hmany
          omega

/-- The loop of `unite` with a `QHash` inserts its entries. -/
theorem uniteHashLoop_yields (h : s.Counted) (ho : HoldsMap hash (s.view o) m)
    (globalSeed : ℕ) {other : Data K V} (hother : other.Layout)
    {cit : Option (Data.Iterator K V)} (hcit : ∀ it ∈ cit, it.bucket < other.numBuckets)
    {n : ℕ} (hn : (nodesOf other cit).length ≤ n) :
  Yields (TooMany (mSize s o + (nodesOf other cit).length))
    (Changes hash s o (insertAll (nodesOf other cit) m))
    (uniteHashLoop globalSeed hash o other n cit s)
  := by
  induction n generalizing s m cit with
  | zero =>
    cases cit with
    | none => exact Changes.refl h ho
    | some it => exact absurd hn (Nat.not_succ_le_zero _)
  | succ n ih =>
    cases cit with
    | none => exact Changes.refl h ho
    | some it =>
      obtain ⟨i, hnext, hnodes, hi⟩ :=
        nextIterator_ends hother (hcit it rfl) (Nat.le_add_left _ _)
      rw [nodesOf, List.length_cons, hnodes] at hn
      rw [nodesOf, List.length_cons, hnodes, uniteHashLoop, hnext]
      have hemplace := emplace_yields h ho globalSeed it.node.key it.node.value
      apply (hemplace.mono ?_ fun _ h => h).bind
      · rintro ⟨s₁, e⟩ ⟨hchanges, hsize, -⟩
        have hloop := ih hchanges.1 hchanges.holds (fun it hit => (hi it hit).1)
          (Nat.le_of_succ_le_succ hn)
        apply hloop.mono
        · rintro e ⟨he, hmany⟩
          refine ⟨he, ?_⟩
          change mSize s₁ o = mSize s o + 1 at hsize
          rw [hsize] at hmany
          push_cast
          omega
        · intro s' hs'
          exact hchanges.trans hs'
      · rintro e ⟨he, hmany⟩
        refine ⟨he, ?_⟩
        push_cast
        omega

/-- The entries of a table, by their key. -/
theorem filter_nodes {t : Data K V} {m_t : K → Option V} (h : t.Represents hash m_t) (key : K) :
  (t.nodes.filter (·.key = key)).map Node.value = (m_t key).toList
  := by
  cases hkey : m_t key with
  | none =>
    have hnil : t.nodes.filter (·.key = key) = [] := by
      rw [List.filter_eq_nil_iff]
      intro n hn heq
      exact h.apply_eq_none.mp hkey n hn (of_decide_eq_true heq)
    rw [hnil]
    rfl
  | some value =>
    have hsingle : t.nodes.filter (·.key = key) = [⟨key, value⟩] := by
      rw [← List.perm_singleton, List.perm_ext_iff_of_nodup
        ((List.Nodup.of_map Node.key h.toInOrder.nodup).filter _) (List.nodup_singleton _)]
      rintro ⟨k, v⟩
      rw [List.mem_filter, List.mem_singleton, decide_eq_true_iff, ← h.apply_eq_some,
        Node.mk.injEq]
      constructor
      · rintro ⟨hv, rfl⟩
        exact ⟨rfl, Option.some.inj (hv.symm.trans hkey)⟩
      · rintro ⟨rfl, rfl⟩
        exact ⟨hkey, rfl⟩
    rw [hsingle]
    rfl

theorem uniteHash_yields (h : s.Counted) (ho : HoldsMap hash (s.view o) m) (globalSeed : ℕ)
    (other : HashOf hash V) :
  Yields (TooMany (mSize s o + other.q.size))
    (Changes hash s o fun key => (other.map key).toList ++ m key)
    (uniteHash globalSeed hash o other.q s)
  := by
  obtain ⟨⟨_ | t⟩, m_t, ht⟩ := other
  · cases ht
    exact Changes.refl h ho
  · change t.Represents hash m_t at ht
    obtain ⟨cit, hbegin, hnodes, hcit⟩ := tableBegin_ends ht.toLayout
    have hall : insertAll (nodesOf t cit) m = fun key => (m_t key).toList ++ m key := by
      funext key
      rw [insertAll_apply, ← hnodes, filter_nodes ht]
      cases m_t key <;> rfl
    unfold uniteHash
    dsimp only
    rw [hbegin, ok_bind]
    have hloop := uniteHashLoop_yields h ho globalSeed ht.toLayout
      (fun it hit => (hcit it hit).1) (n := t.size)
      (by rw [← hnodes, ← ht.size_eq])
    rw [hall, ← hnodes, ← ht.size_eq] at hloop
    exact hloop

end QMultiHash
