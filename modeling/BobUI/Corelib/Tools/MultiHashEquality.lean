import BobUI.Corelib.Tools.MultiHashRuns

/-!
# Equality of hashes with many values

`operator==` compares the numbers of values and of keys, and looks for each value of the right
hash among the values that the left one has for the key.  It does not count how often a value is
there: two hashes may be equal on one side only, or on both sides with different contents.
-/

open QHashPrivate SharedData

namespace QMultiHash

variable {ι K V : Type}

/-- The loops over two chains: whether each value of the chain `e` is in the chain `oe`. -/
def chainContained [BEq V] (oe e : List V) : Bool :=
  e.all fun value => oe.any fun v => v == value

variable [DecidableEq K] (hash : K → ℕ → ℕ)

/-- The loop of `comparesEqual` over the nodes of the right hash, for as many turns as there are
nodes. -/
def compareNodes [BEq V] (lhs rhs : Data K (List V)) :
    ℕ → Option (Data.Iterator K (List V)) → Except Fault Bool
  | _, none => pure true
  | 0, some _ => throw .endless
  | turns + 1, some it => do
    -- `findNode`
    let bucket ← lhs.findBucket hash it.node.key
    match lhs.node bucket with
    | none => pure false
    | some n =>
      if chainContained n.value it.node.value then
        compareNodes lhs rhs turns (← rhs.nextIterator rhs.numBuckets it.bucket)
      else pure false

/-- `comparesEqual`. -/
def comparesEqual [BEq V] (s : Memory ι K V) (lhs rhs : Option ι) : Except Fault Bool :=
  if (s.handles lhs).d = (s.handles rhs).d then pure true
  else if mSize s lhs ≠ mSize s rhs then pure false
  else if mSize s lhs = 0 then pure true
  else do
    let l ← table s lhs
    let r ← table s rhs
    if l.size ≠ r.size then pure false
    else compareNodes hash l r r.size (← tableBegin r)

/-! ### What the comparison finds -/

variable {hash} {l r : Data K (List V)} {m m' : K → List V}

theorem chainContained_iff [DecidableEq V] (oe e : List V) :
  chainContained oe e = true ↔ e ⊆ oe
  := by
  rw [chainContained, List.all_eq_true, List.subset_def]
  constructor
  · intro h value hvalue
    obtain ⟨v, hv, heq⟩ := List.any_eq_true.mp (h value hvalue)
    rw [← eq_of_beq heq]
    apply hv
  · intro h value hvalue
    apply List.any_eq_true.mpr
    use value, h hvalue
    apply beq_self_eq_true

/-- The loop looks at every node from the iterator on. -/
theorem HoldsChains.compareNodes_ends [DecidableEq V] (hl : HoldsChains hash l m)
    (hr : HoldsChains hash r m') {turns : ℕ} {i : Option (Data.Iterator K (List V))}
    (hi : ∀ it ∈ i, it.bucket < r.numBuckets ∧ r.entry it.bucket = some it.node)
    (hturns : (nodesOf r i).length ≤ turns) :
  ∃ b, compareNodes hash l r turns i = .ok b ∧
    (b = true ↔ ∀ n ∈ nodesOf r i, m n.key ≠ [] ∧ n.value ⊆ m n.key)
  := by
  induction turns generalizing i with
  | zero =>
    cases i with
    | none =>
      use true, rfl
      simp [nodesOf]
    | some it => cases hturns
  | succ turns ih =>
    cases i with
    | none =>
      use true, rfl
      simp [nodesOf]
    | some it =>
      obtain ⟨hbucket, hentry⟩ := hi it rfl
      obtain ⟨c, hc, hfind, hfound⟩ := hl.findBucket it.node.key
      obtain ⟨i', hnext, hnodes, hi'⟩ :=
        nextIterator_ends hr.toLayout hbucket (Nat.le_add_left _ _)
      have hrest : (nodesOf r i').length ≤ turns := by
        rw [nodesOf, hnodes, List.length_cons] at hturns
        apply Nat.le_of_succ_le_succ hturns
      obtain ⟨b, hb, hiff⟩ := ih hi' hrest
      rw [compareNodes, hfind, ok_bind, nodesOf, hnodes]
      rcases hfound with ⟨hne, hnode⟩ | ⟨hnil, hnode⟩
      · change l.node (.ofBucketIndex c) = _ at hnode
        rw [hnode]
        dsimp only
        by_cases hcontained : it.node.value ⊆ m it.node.key
        · rw [if_pos ((chainContained_iff _ _).mpr hcontained), hnext, ok_bind]
          use b, hb
          rw [hiff, List.forall_mem_cons]
          constructor
          · intro hall
            use ⟨hne, hcontained⟩
          · rintro ⟨-, hall⟩
            apply hall
        · rw [if_neg (mt (chainContained_iff _ _).mp hcontained)]
          use false, rfl
          rw [List.forall_mem_cons]
          constructor
          · intro hfalse
            cases hfalse
          · rintro ⟨⟨-, hvalue⟩, -⟩
            cases hcontained hvalue
      · change l.node (.ofBucketIndex c) = _ at hnode
        rw [hnode]
        use false, rfl
        rw [List.forall_mem_cons]
        constructor
        · intro hfalse
          cases hfalse
        · rintro ⟨⟨hne, -⟩, -⟩
          cases hne hnil

omit [DecidableEq K] in
theorem HoldsChains.mem_keys (h : HoldsChains hash l m) (key : K) :
  key ∈ l.nodes.map Node.key ↔ m key ≠ []
  := by
  rw [List.mem_map]
  constructor
  · rintro ⟨n, hn, rfl⟩
    obtain ⟨hvalue, hne⟩ := h.mem_nodes.mp hn
    rwa [← hvalue]
  · intro hne
    use ⟨key, m key⟩
    constructor
    · apply h.mem_nodes.mpr
      use rfl, hne
    · rfl

omit [DecidableEq K] in
theorem HoldsChains.length_keys (h : HoldsChains hash l m) :
  (l.nodes.map Node.key).length = l.size
  := by
  rw [List.length_map, h.toWellFormed.size_eq]

omit [DecidableEq K] in
/-- A table has one map. -/
theorem HoldsChains.unique (h : HoldsChains hash l m) (h' : HoldsChains hash l m') :
  m = m'
  := by
  have heq : ∀ {m m' : K → List V}, HoldsChains hash l m → HoldsChains hash l m' →
      ∀ key, m key ≠ [] → m key = m' key := by
    intro m m' h h' key hne
    have hnode : ⟨key, m key⟩ ∈ l.nodes := h.mem_nodes.mpr ⟨rfl, hne⟩
    apply (h'.mem_nodes.mp hnode).1
  funext key
  by_cases hnil : m key = []
  · by_cases hnil' : m' key = []
    · rw [hnil, hnil']
    · apply (heq h' h key hnil').symm
  · apply heq h h' key hnil

omit [DecidableEq K] in
/-- The values of a table, key by key. -/
theorem HoldsChains.total_eq (h : HoldsChains hash l m) :
  total l = ((l.nodes.map Node.key).map fun key => (m key).length).sum
  := by
  rw [total, List.map_map]
  congr 1
  apply List.map_congr_left
  intro n hn
  rw [(h.mem_nodes.mp hn).1]
  rfl

omit [DecidableEq K] in
/-- As many keys in a table as in another one, which has them all: they have the same keys. -/
theorem HoldsChains.nil_iff_of_size_eq (hl : HoldsChains hash l m) (hr : HoldsChains hash r m')
    (hsize : l.size = r.size) (hkeys : ∀ key, m' key ≠ [] → m key ≠ []) (key : K) :
  m key = [] ↔ m' key = []
  := by
  have hsubset : r.nodes.map Node.key ⊆ l.nodes.map Node.key := by
    intro k hk
    apply (hl.mem_keys k).mpr
    apply hkeys
    apply (hr.mem_keys k).mp hk
  have hperm := (hr.toInOrder.nodup.subperm hsubset).perm_of_length_le (by
    rw [hl.length_keys, hr.length_keys, hsize])
  have hmem : m' key ≠ [] ↔ m key ≠ [] := by
    rw [← hl.mem_keys, ← hr.mem_keys, hperm.mem_iff]
  apply (not_iff_not.mp hmem).symm

omit [DecidableEq K] in
/-- Tables with the same keys have the same number of nodes. -/
theorem HoldsChains.size_eq_of_nil_iff (hl : HoldsChains hash l m) (hr : HoldsChains hash r m')
    (hkeys : ∀ key, m key = [] ↔ m' key = []) :
  l.size = r.size
  := by
  have hperm := (List.perm_ext_iff_of_nodup hl.toInOrder.nodup hr.toInOrder.nodup).mpr (by
    intro key
    rw [hl.mem_keys, hr.mem_keys, ne_eq, ne_eq, hkeys])
  rw [← hl.length_keys, ← hr.length_keys, hperm.length_eq]

/-! ### The comparison of objects -/

/-- Two objects have the same number of values and the same keys, and each value of the second one
is among those that the first one has for the key. -/
structure Covers (s : Memory ι K V) (x y : ι) (m m' : K → List V) : Prop where
  size_eq : mSize s (some x) = mSize s (some y)
  keys_eq : ∀ key, m key = [] ↔ m' key = []
  subset : ∀ key, m' key ⊆ m key

/-- The same values belong to each key, each of them as often. -/
def SameContents (m m' : K → List V) : Prop :=
  ∀ key, (m key).Perm (m' key)

variable [DecidableEq ι] [Fintype ι] {s : Memory ι K V} {lists : ι → K → List V}

omit [DecidableEq K] [DecidableEq ι] [Fintype ι] in
/-- An object that has a table holds the lists of the table. -/
theorem HoldsMap.chains {o : Option ι} (h : HoldsMap hash (s.view o) m) {d : Data K (List V)}
    (hd : s.data o = some d) :
  HoldsChains hash d m
  := by
  rw [Store.view, hd] at h
  apply Data.Represents.withRef h.1 d.ref

omit [DecidableEq K] [DecidableEq ι] [Fintype ι] in
/-- An object that has values has a table. -/
theorem HoldsMap.data_ne_none {o : Option ι} (h : HoldsMap hash (s.view o) m)
    (hsize : mSize s o ≠ 0) :
  ∃ d, s.data o = some d
  := by
  cases hd : s.data o with
  | none =>
    rw [Store.view, hd] at h
    cases hsize h.2
  | some d => use d

omit [DecidableEq K] [DecidableEq ι] [Fintype ι] in
/-- Objects that share a table, or have none, hold the same lists. -/
theorem HoldsMap.eq_of_shared {o p : Option ι} (ho : HoldsMap hash (s.view o) m)
    (hp : HoldsMap hash (s.view p) m') (hd : (s.handles o).d = (s.handles p).d) :
  mSize s o = mSize s p ∧ m = m'
  := by
  have hdata : s.data o = s.data p := by rw [Store.data, Store.data, hd]
  rw [Store.view, hdata] at ho
  rw [Store.view] at hp
  cases htable : s.data p with
  | none =>
    rw [htable] at ho hp
    constructor
    · apply ho.2.trans hp.2.symm
    · apply ho.1.trans hp.1.symm
  | some d =>
    rw [htable] at ho hp
    constructor
    · apply ho.2.trans hp.2.symm
    · apply HoldsChains.unique ho.1 hp.1

/-- What `operator==` returns. -/
theorem Refines.comparesEqual_ends [DecidableEq V] (h : Refines hash s lists) (x y : ι) :
  ∃ b, comparesEqual hash s (some x) (some y) = .ok b ∧
    (b = true ↔ Covers s x y (lists x) (lists y))
  := by
  have hx := h.holds x
  have hy := h.holds y
  rw [comparesEqual]
  by_cases hd : (s.handles (some x)).d = (s.handles (some y)).d
  · obtain ⟨hsize, hlists⟩ := hx.eq_of_shared hy hd
    rw [if_pos hd]
    use true, rfl
    apply iff_of_true rfl
    use hsize
    · simp [hlists]
    · simp [hlists]
  · rw [if_neg hd]
    by_cases hsize : mSize s (some x) = mSize s (some y)
    · rw [if_neg (not_not.mpr hsize)]
      by_cases hzero : mSize s (some x) = 0
      · rw [if_pos hzero]
        use true, rfl
        apply iff_of_true rfl
        have hnil_x := hx.eq_nil hzero
        have hnil_y := hy.eq_nil (hsize.symm.trans hzero)
        use hsize
        · simp [hnil_x, hnil_y]
        · simp [hnil_x, hnil_y]
      · obtain ⟨l, hl⟩ := hx.data_ne_none hzero
        obtain ⟨r, hr⟩ := hy.data_ne_none (hsize ▸ hzero)
        have hchains_l := hx.chains hl
        have hchains_r := hy.chains hr
        rw [if_neg hzero, table, table, hl, hr]
        change ∃ b, (if l.size ≠ r.size then _ else _) = _ ∧ _
        by_cases hkeys : l.size = r.size
        · obtain ⟨i, hbegin, hnodes, hi⟩ := tableBegin_ends hchains_r.toLayout
          obtain ⟨b, hb, hiff⟩ := hchains_l.compareNodes_ends hchains_r hi (Nat.le_of_eq (by
            rw [← hnodes, ← hchains_r.toWellFormed.size_eq]))
          rw [if_neg (not_not.mpr hkeys), hbegin, ok_bind]
          use b, hb
          rw [hiff, ← hnodes]
          constructor
          · intro hall
            have hnode : ∀ key, lists y key ≠ [] →
                lists x key ≠ [] ∧ lists y key ⊆ lists x key := by
              intro key hne
              apply hall ⟨key, lists y key⟩
              apply hchains_r.mem_nodes.mpr
              use rfl, hne
            use hsize
            · apply hchains_l.nil_iff_of_size_eq hchains_r hkeys
              intro key hne
              apply (hnode key hne).1
            · intro key
              by_cases hnil : lists y key = []
              · rw [hnil]
                apply List.nil_subset
              · apply (hnode key hnil).2
          · intro hcovers n hn
            obtain ⟨hvalue, hne⟩ := hchains_r.mem_nodes.mp hn
            rw [hvalue] at hne ⊢
            constructor
            · apply mt (hcovers.keys_eq n.key).mp hne
            · apply hcovers.subset
        · rw [if_pos hkeys]
          use false, rfl
          apply iff_of_false Bool.false_ne_true
          intro hcovers
          apply hkeys
          apply hchains_l.size_eq_of_nil_iff hchains_r hcovers.keys_eq
    · rw [if_pos hsize]
      use false, rfl
      apply iff_of_false Bool.false_ne_true
      intro hcovers
      apply hsize hcovers.size_eq

omit [DecidableEq K] [DecidableEq ι] [Fintype ι] in
theorem SameContents.nil_iff (h : SameContents m m') (key : K) :
  m key = [] ↔ m' key = []
  := by
  have hperm := h key
  constructor
  · intro hnil
    rw [hnil] at hperm
    apply hperm.symm.eq_nil
  · intro hnil
    rw [hnil] at hperm
    apply hperm.eq_nil

omit [DecidableEq ι] [Fintype ι] in
/-- Objects with the same contents have the same number of values. -/
theorem SameContents.size_eq {o p : Option ι} (h : SameContents m m')
    (ho : HoldsMap hash (s.view o) m) (hp : HoldsMap hash (s.view p) m') :
  mSize s o = mSize s p
  := by
  by_cases hzero : mSize s o = 0
  · by_contra hne
    have hnil := ho.eq_nil hzero
    apply hp.ne_nil (fun hsize => hne (hzero.trans hsize.symm))
    funext key
    apply (h.nil_iff key).mp
    rw [hnil]
  · have hzero' : mSize s p ≠ 0 := by
      intro hsize
      have hnil := hp.eq_nil hsize
      apply ho.ne_nil hzero
      funext key
      apply (h.nil_iff key).mpr
      rw [hnil]
    obtain ⟨l, hl⟩ := ho.data_ne_none hzero
    obtain ⟨r, hr⟩ := hp.data_ne_none hzero'
    have hchains_l := ho.chains hl
    have hchains_r := hp.chains hr
    have hperm : (l.nodes.map Node.key).Perm (r.nodes.map Node.key) := by
      apply (List.perm_ext_iff_of_nodup hchains_l.toInOrder.nodup hchains_r.toInOrder.nodup).mpr
      intro key
      rw [hchains_l.mem_keys, hchains_r.mem_keys, ne_eq, ne_eq, h.nil_iff]
    have htotal : total l = total r := by
      rw [hchains_l.total_eq, hchains_r.total_eq,
        (hperm.map fun key => (m key).length).sum_eq]
      congr 1
      apply List.map_congr_left
      intro key _
      apply (h key).length_eq
    rw [Store.view, hl] at ho
    rw [Store.view, hr] at hp
    have hsize_l : mSize s o = total l := ho.2
    have hsize_r : mSize s p = total r := hp.2
    rw [hsize_l, hsize_r, htotal]

/-- In every run from unused objects, `operator==` returns whether two objects have the same
contents, each value as often, if and only if they do where one covers the other: where they have
the same keys and the same number of values, and the values of the right one are among those of
the left one. -/
theorem run_comparesEqual [Inhabited V] [DecidableEq V] (hash : K → ℕ → ℕ) (globalSeed : ℕ)
    (ops : List (Op ι V hash)) :
  (∃ (s : Memory ι K V) (results : List (Result K V)) (lists : ι → K → List V),
      run globalSeed (initial ι K V) ops = .ok (s, results) ∧ (∀ x, HoldsLists s hash x (lists x)) ∧
      ∀ x y, ∃ b, comparesEqual hash s (some x) (some y) = .ok b ∧
        ((b = true ↔ SameContents (lists x) (lists y)) ↔
          (Covers s x y (lists x) (lists y) → SameContents (lists x) (lists y)))) ∨
    ∃ e, run globalSeed (initial ι K V) ops = .error e ∧
      Stops globalSeed (initial ι K V) ops e
  := by
  rcases (run_yields (refines_initial hash) globalSeed ops).cases with
    ⟨⟨s, results⟩, h_eq, lists, -, h⟩ | ⟨e, h_eq, h_e⟩
  · left
    use s, results, lists, h_eq, h.holdsLists
    intro x y
    obtain ⟨b, h_b, h_covers⟩ := h.comparesEqual_ends x y
    use b, h_b
    rw [h_covers]
    constructor
    · intro h_iff
      apply h_iff.mp
    · intro h_same
      constructor
      · apply h_same
      · intro h_contents
        use h_contents.size_eq (h.holds x) (h.holds y)
        · apply h_contents.nil_iff
        · intro key
          apply (h_contents key).symm.subset
  · right
    use e, h_eq

/-- Two different values for a key, and one of them twice: the objects are equal if the second one
is on the right, and not equal if it is on the left. -/
theorem comparesEqual_asymmetric :
  ∃ s results, run 0 (initial Bool ℕ ℕ) ([.insert false 1 7, .insert false 1 8, .insert true 1 7,
      .insert true 1 7] : List (Op Bool ℕ fun _ _ => 0)) = .ok (s, results) ∧
    values (fun _ _ => 0) s (some false) 1 = .ok [8, 7] ∧
    values (fun _ _ => 0) s (some true) 1 = .ok [7, 7] ∧
    comparesEqual (fun _ _ => 0) s (some false) (some true) = .ok true ∧
    comparesEqual (fun _ _ => 0) s (some true) (some false) = .ok false
  := ⟨_, _, rfl, rfl, rfl, rfl, rfl⟩

end QMultiHash
