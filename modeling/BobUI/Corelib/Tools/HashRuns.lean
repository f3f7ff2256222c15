import BobUI.Corelib.Tools.HashMap

/-!
# Runs of hash operations

The operations of a `QHash`, in any order, do what the operations of a finite map do.  Each of
them ends, and the table stays as linear probing needs it.
-/

open QHashPrivate LinearProbing

namespace QHash

variable {K V : Type} [DecidableEq K]

/-! ### The finite map -/

/-- What an operation does to a map from keys to values, and what it returns. -/
def MapStep [Inhabited V] (m : K → Option V) : Op K V → Result K V → (K → Option V) → Prop
  | .insert key value, .iterator it, m' | .emplace key value, .iterator it, m' =>
    it.node = ⟨key, value⟩ ∧ m' = Function.update m key (some value)
  | .tryEmplace key value, .emplaced it inserted, m' =>
    inserted = (m key).isNone ∧ it.node = ⟨key, (m key).getD value⟩
      ∧ m' = Function.update m key (some ((m key).getD value))
  | .remove key, .removed found, m' =>
    found = (m key).isSome ∧ m' = Function.update m key none
  | .take key, .taken value, m' =>
    value = (m key).getD default ∧ m' = Function.update m key none
  | .erase _, .erased node next, m' =>
    m node.key = some node.value ∧ m' = Function.update m node.key none
      ∧ ∀ it ∈ next, m' it.node.key = some it.node.value
  | .reserve _, .done, m' | .squeeze, .done, m' | .share, .done, m' | .unshare, .done, m' =>
    m' = m
  | _, _, _ => False

/-- The same for the operations of a run. -/
inductive MapRun [Inhabited V] :
    (K → Option V) → List (Op K V) → List (Result K V) → (K → Option V) → Prop
  | nil (m) : MapRun m [] [] m
  | cons {m m₁ m' op result ops results} :
    MapStep m op result m₁ → MapRun m₁ ops results m' →
      MapRun m (op :: ops) (result :: results) m'

/-- The table holds the map: every key of the map is found, the search for any other key ends
at an unused bucket, the keys are distinct, the entries are counted and take at most half of the
buckets, and no unused bucket lies between the home bucket of an entry and its bucket. -/
structure Holds (hash : K → ℕ → ℕ) (d : Data K V) (m : K → Option V) : Prop where
  found : ∀ key value, m key = some value →
    ∃ b, d.findBucket hash key = .ok b ∧ d.node b = some ⟨key, value⟩
  absent : ∀ key, m key = none → ∃ b, d.findBucket hash key = .ok b ∧ d.isUnused b = true
  distinct : ∀ i < d.numBuckets, ∀ j < d.numBuckets, ∀ a b, d.entry i = some a →
    d.entry j = some b → a.key = b.key → i = j
  size_eq : d.size = ((List.range d.numBuckets).filter fun i => (d.entry i).isSome).length
  half : 2 * d.size ≤ d.numBuckets
  probed : ∀ i < d.numBuckets, ∀ a, d.entry i = some a → ∀ x < d.numBuckets,
    dist d.numBuckets (Data.home hash d a) x < dist d.numBuckets (Data.home hash d a) i →
      (d.entry x).isSome = true

/-- A hash without data holds the empty map. -/
def HoldsMap (hash : K → ℕ → ℕ) (q : QHash K V) (m : K → Option V) : Prop :=
  match q.d with
  | none => m = fun _ => none
  | some d => Holds hash d m

/-! ### Representation -/

omit [DecidableEq K] in
theorem range_map_entry {d : Data K V} (h : d.Layout) :
  (List.range d.numBuckets).map d.entry = d.spans.flatten
  := by
  apply List.ext_getElem?
  intro i
  rw [List.getElem?_map]
  rcases Nat.lt_or_ge i d.numBuckets with hi | hi
  · rw [List.getElem?_range hi, h.getElem?_flatten hi]
    rfl
  · rw [List.getElem?_eq_none (by rwa [List.length_range]),
      List.getElem?_eq_none (by rwa [h.length_flatten])]
    rfl

/-- A table that represents a map holds it. -/
theorem holds_of_represents {hash : K → ℕ → ℕ} {d : Data K V} {m : K → Option V}
    (h : d.Represents hash m) :
  Holds hash d m
  := by
  refine ⟨?_, ?_, ?_, ?_, h.half, h.probed⟩
  · intro key value hkey
    obtain ⟨c, -, hfind, ⟨v, hv, hm⟩ | ⟨-, hnone, -⟩⟩ := h.findBucket key
    · rw [hkey] at hm
      cases hm
      exact ⟨_, hfind, hv⟩
    · rw [hkey] at hnone
      cases hnone
  · intro key hkey
    obtain ⟨c, -, hfind, ⟨v, -, hm⟩ | ⟨hunused, -⟩⟩ := h.findBucket key
    · rw [hkey] at hm
      cases hm
    · refine ⟨_, hfind, ?_⟩
      change (d.entry c).isNone = true
      rw [hunused]
      rfl
  · intro i hi j hj a b ha hb hkey
    by_contra hij
    have hremove := Data.nodes_remove h.toLayout hi ha
    have hnodup := h.nodup
    rw [(hremove.map Node.key).nodup_iff, List.map_cons, List.nodup_cons, hkey] at hnodup
    apply hnodup.1
    apply List.mem_map_of_mem
    rw [(h.toLayout.put i none).mem_nodes]
    use j, hj
    rw [Data.entry_put h.toLayout hi, Function.update_of_ne (Ne.symm hij)]
    exact hb
  · rw [h.size_eq, Data.nodes, List.reduceOption_length_eq, ← range_map_entry h.toLayout,
      List.filter_map, List.length_map]
    rfl

/-- A hash without data represents the empty map. -/
def Represents (hash : K → ℕ → ℕ) (q : QHash K V) (m : K → Option V) : Prop :=
  match q.d with
  | none => m = fun _ => none
  | some d => d.Represents hash m

def size (q : QHash K V) : ℕ :=
  match q.d with
  | none => 0
  | some d => d.size

variable {hash : K → ℕ → ℕ} {q : QHash K V} {m : K → Option V}

/-! ### The operations -/

omit [DecidableEq K] in
theorem iterator_eq {d : Data K V} {c : ℕ} {n : Node K V} (h : d.entry c = some n) :
  d.iterator (.ofBucketIndex c) = .ok ⟨c, n⟩
  := by
  have hnode : d.node (.ofBucketIndex c) = some n := h
  rw [Data.iterator, hnode, Bucket.toBucketIndex_ofBucketIndex]

omit [DecidableEq K] in
theorem isUnused_eq (d : Data K V) (c : ℕ) :
  d.isUnused (.ofBucketIndex c) = (d.entry c).isNone
  := rfl

omit [DecidableEq K] in
/-- Data that is shared is copied, bucket for bucket. -/
theorem detach_of_data {d : Data K V} (h : d.Layout) (globalSeed : ℕ) :
  ∃ ref, detach globalSeed ⟨some d⟩ = .ok { d with ref := ref }
  := by
  unfold detach
  dsimp only
  split
  · exact ⟨d.ref, rfl⟩
  · exact ⟨1, h.copy⟩

omit [DecidableEq K] in
theorem detach_yields (h : q.Represents hash m) (globalSeed : ℕ) :
  ∃ d, q.detach globalSeed = .ok d ∧ d.Represents hash m ∧ d.size = q.size
  := by
  obtain ⟨_ | d⟩ := q
  · rcases (Data.create_yields hash globalSeed 0 (V := V)).cases with
      ⟨d, heq, hd, hsize⟩ | ⟨e, -, -, he⟩
    · cases h
      exact ⟨d, heq, hd, hsize⟩
    · exact absurd he (by decide)
  · obtain ⟨ref, heq⟩ := detach_of_data (d := d) h.toLayout globalSeed
    exact ⟨_, heq, h.withRef ref, rfl⟩

omit [DecidableEq K] in
theorem createData_yields (h : q.Represents hash m) (globalSeed : ℕ) :
  ∃ d, q.createData globalSeed = .ok d ∧ d.Represents hash m ∧ d.size = q.size
  := by
  obtain ⟨_ | d⟩ := q
  · exact detach_yields h globalSeed
  · exact ⟨d, rfl, h, rfl⟩

/-- The bucket of a key, and the table that it lies in: either its entry is there, or the entry
is to be created there in a table that has room for it. -/
theorem findOrInsert_yields {d : Data K V} (h : d.Represents hash m) (key : K) :
  Yields (NoMemory (d.size + 1))
    (fun r => ∃ c, r.1 = .ofBucketIndex c
      ∧ (r.2.1 = true ∧ r.2.2 = d ∧ c < d.numBuckets ∧ (∃ value, d.entry c = some ⟨key, value⟩)
        ∨ r.2.1 = false ∧ ∃ d₁ : Data K V, r.2.2 = { d₁ with size := d₁.size + 1 }
          ∧ d₁.Represents hash m ∧ d₁.size = d.size ∧ c < d₁.numBuckets ∧ d₁.entry c = none
          ∧ m key = none ∧ d₁.Passed hash key c ∧ 2 * (d₁.size + 1) ≤ d₁.numBuckets))
    (d.findOrInsert hash key)
  := by
  obtain ⟨c, hc, hfind, hfound⟩ := h.findBucket key
  have hfind' : d.findBucketWithHash key (hash key d.seed) = pure (.ofBucketIndex c) := hfind
  unfold Data.findOrInsert
  rw [if_pos h.numBuckets_pos, hfind', map_pure, pure_bind]
  dsimp only
  rcases hfound with ⟨value, hentry, hm⟩ | ⟨hunused, hnone, hpassed⟩
  · have hfilter : (some (Bucket.ofBucketIndex c)).filter (fun it => !d.isUnused it)
        = some (.ofBucketIndex c) := by
      rw [Option.filter_some, isUnused_eq, hentry]
      rfl
    rw [hfilter]
    exact ⟨c, rfl, .inl ⟨rfl, rfl, hc, value, hentry⟩⟩
  · have hfilter : (some (Bucket.ofBucketIndex c)).filter (fun it => !d.isUnused it) = none := by
      rw [Option.filter_some, isUnused_eq, hunused]
      rfl
    rw [hfilter]
    dsimp only
    by_cases hgrow : d.shouldGrow = true
    · rw [if_pos hgrow]
      have hrehash := h.rehash (d.size + 1) (.inr (Nat.le_succ _))
      rw [Nat.max_eq_left (Nat.le_succ _)] at hrehash
      apply hrehash.bind
      rintro d₁ ⟨hd₁, hsize, hseed, hroom⟩
      obtain ⟨c₁, hc₁, hfind₁, hfound₁⟩ := hd₁.findBucket key
      have hfind₁' : d₁.findBucketWithHash key (hash key d.seed) = pure (.ofBucketIndex c₁) := by
        rw [← hseed]
        exact hfind₁
      rcases hfound₁ with ⟨value, -, hm⟩ | ⟨hunused₁, -, hpassed₁⟩
      · rw [hnone] at hm
        cases hm
      · have hfilter₁ : (some (Bucket.ofBucketIndex c₁)).filter d₁.isUnused
            = some (.ofBucketIndex c₁) := by
          rw [Option.filter_some, isUnused_eq, hunused₁]
          rfl
        rw [hfind₁', pure_bind, pure_bind]
        dsimp only
        rw [hfilter₁]
        exact ⟨c₁, rfl, .inr ⟨rfl, d₁, rfl, hd₁, hsize, hc₁, hunused₁, hnone, hpassed₁,
          by omega⟩⟩
    · have hfilter' : (some (Bucket.ofBucketIndex c)).filter d.isUnused
          = some (.ofBucketIndex c) := by
        rw [Option.filter_some, isUnused_eq, hunused]
        rfl
      have hroom : 2 * (d.size + 1) ≤ d.numBuckets := by
        rw [Data.shouldGrow, decide_eq_true_iff, Nat.shiftRight_eq_div_pow] at hgrow
        omega
      rw [if_neg hgrow, pure_bind]
      dsimp only
      rw [hfilter']
      exact ⟨c, rfl, .inr ⟨rfl, d, rfl, h, rfl, hc, hunused, hnone, hpassed, hroom⟩⟩

theorem emplace_yields (h : q.Represents hash m) (globalSeed : ℕ) (key : K) (value : V) :
  Yields (NoMemory (q.size + 1))
    (fun r => r.1.Represents hash (Function.update m key (some value))
      ∧ r.1.size ≤ q.size + 1 ∧ r.2.node = ⟨key, value⟩)
    (q.emplace hash globalSeed key value)
  := by
  obtain ⟨d, heq, hd, hsize⟩ := detach_yields h globalSeed
  rw [emplace, heq, ← hsize]
  apply (findOrInsert_yields hd key).bind
  rintro ⟨_, initialized, d'⟩ ⟨c, rfl, ⟨rfl, rfl, hc, old, hold⟩
    | ⟨rfl, d₁, rfl, hd₁, hsize₁, hc, hunused, hnone, hpassed, hroom⟩⟩
  · have hnode : d'.node (.ofBucketIndex c) = some ⟨key, old⟩ := hold
    have hentry : (d'.put (.ofBucketIndex c) (some ⟨key, value⟩)).entry c
        = some ⟨key, value⟩ := by
      rw [Data.entry_put hd.toLayout hc, Function.update_self]
    dsimp only
    rw [if_pos rfl, hnode, Option.map_some, iterator_eq hentry]
    exact ⟨hd.replace hc hold value, Nat.le_succ _, rfl⟩
  · have hstore := hd₁.store hc hunused hpassed hnone hroom value
    have hentry := hd₁.toLayout.entry_stored hc ⟨key, value⟩
    have hinsert : Data.insert { d₁ with size := d₁.size + 1 } (.ofBucketIndex c) ⟨key, value⟩
        = .ok { d₁.put (.ofBucketIndex c) (some ⟨key, value⟩) with size := d₁.size + 1 } :=
      Data.insert_eq hunused
    dsimp only
    rw [if_neg Bool.false_ne_true, hinsert]
    apply (Yields.of_eq (E := NoMemory (d.size + 1)) (P := fun it => it = ⟨c, ⟨key, value⟩⟩)
      (iterator_eq hentry) rfl).bind
    rintro _ rfl
    refine ⟨hstore, ?_, rfl⟩
    change d₁.size + 1 ≤ d.size + 1
    omega

/-- The bucket of a key in data that no other hash shares. -/
theorem detachForEmplace_yields {d : Data K V} (h : d.Represents hash m) (globalSeed : ℕ)
    (key : K) :
  Yields (NoMemory (d.size + 1))
    (fun r => r.1.Represents hash m ∧ r.1.size = d.size ∧ ∃ c < r.1.numBuckets,
      r.2.1 = .ofBucketIndex c
      ∧ (r.2.2 = false ∧ (∃ value, r.1.entry c = some ⟨key, value⟩ ∧ m key = some value)
        ∨ r.2.2 = true ∧ r.1.entry c = none ∧ m key = none ∧ r.1.Passed hash key c
          ∧ 2 * (r.1.size + 1) ≤ r.1.numBuckets))
    (detachForEmplace hash globalSeed key d)
  := by
  obtain ⟨c, hc, hfind, hfound⟩ := h.findBucket key
  have hfind' : d.findBucketWithHash key (hash key d.seed) = .ok (.ofBucketIndex c) := hfind
  have hcopy : Data.detached globalSeed (some d) = .ok { d with ref := 1 } := h.toLayout.copy
  unfold detachForEmplace
  dsimp only
  apply (Yields.of_eq (E := NoMemory (d.size + 1)) (P := fun b => b = .ofBucketIndex c)
    hfind' rfl).bind
  rintro _ rfl
  rw [isUnused_eq, hcopy, Bucket.toBucketIndex_ofBucketIndex]
  rcases hfound with ⟨value, hentry, hm⟩ | ⟨hunused, hnone, hpassed⟩
  · -- The entry is there; data that is shared is copied.
    rw [hentry, Option.isNone_some, Bool.false_and, Bool.or_false]
    split
    · rw [if_neg Bool.false_ne_true]
      exact ⟨h.withRef 1, rfl, c, hc, rfl, .inl ⟨rfl, value, hentry, hm⟩⟩
    · exact ⟨h, rfl, c, hc, rfl, .inl ⟨rfl, value, hentry, hm⟩⟩
  · rw [hunused, Option.isNone_none, Bool.true_and]
    by_cases hgrow : d.shouldGrow = true
    · -- The entry is to be created in data that have grown.
      rw [hgrow, Bool.or_true, if_pos rfl, if_pos rfl]
      have hreserved := h.copyReserved (d.size + 1)
      rw [Nat.max_eq_right (Nat.le_succ _)] at hreserved
      apply hreserved.bind
      rintro d₁ ⟨hd₁, hsize, hseed, hroom⟩
      obtain ⟨c₁, hc₁, hfind₁, hfound₁⟩ := hd₁.findBucket key
      have hfind₁' : d₁.findBucketWithHash key (hash key d.seed) = .ok (.ofBucketIndex c₁) := by
        rw [← hseed]
        exact hfind₁
      rw [hfind₁']
      rcases hfound₁ with ⟨value, -, hm⟩ | ⟨hunused₁, -, hpassed₁⟩
      · rw [hnone] at hm
        cases hm
      · exact ⟨hd₁, hsize, c₁, hc₁, rfl, .inr ⟨rfl, hunused₁, hnone, hpassed₁, by
          change 2 * (d₁.size + 1) ≤ d₁.numBuckets
          omega⟩⟩
    · have hroom : 2 * (d.size + 1) ≤ d.numBuckets := by
        rw [Data.shouldGrow, decide_eq_true_iff, Nat.shiftRight_eq_div_pow] at hgrow
        omega
      rw [Bool.not_eq_true] at hgrow
      rw [hgrow, Bool.or_false]
      split
      · rw [if_neg Bool.false_ne_true]
        exact ⟨h.withRef 1, rfl, c, hc, rfl, .inr ⟨rfl, hunused, hnone, hpassed, hroom⟩⟩
      · exact ⟨h, rfl, c, hc, rfl, .inr ⟨rfl, hunused, hnone, hpassed, hroom⟩⟩

theorem tryEmplace_yields (h : q.Represents hash m) (globalSeed : ℕ) (key : K) (value : V) :
  Yields (NoMemory (q.size + 1))
    (fun r => r.1.Represents hash (Function.update m key (some ((m key).getD value)))
      ∧ r.1.size ≤ q.size + 1 ∧ r.2.1.node = ⟨key, (m key).getD value⟩
      ∧ r.2.2 = (m key).isNone)
    (q.tryEmplace hash globalSeed key value)
  := by
  obtain ⟨d, heq, hd, hsize⟩ := createData_yields h globalSeed
  rw [tryEmplace, heq, ← hsize]
  apply (detachForEmplace_yields hd globalSeed key).bind
  rintro ⟨d', _, _⟩ ⟨hd', hsize', c, hc, rfl, ⟨rfl, old, hentry, hm⟩
    | ⟨rfl, hunused, hnone, hpassed, hroom⟩⟩
  · have hsame : Function.update m key (some ((m key).getD value)) = m := by
      rw [hm, Option.getD_some, ← hm, Function.update_eq_self]
    dsimp only at hd' hsize' hc hentry ⊢
    rw [if_neg Bool.false_ne_true, iterator_eq hentry, hsame, hm]
    refine ⟨hd', ?_, rfl, rfl⟩
    change d'.size ≤ d.size + 1
    omega
  · dsimp only at hd' hsize' hc hunused hpassed hroom ⊢
    have hstore := hd'.store hc hunused hpassed hnone hroom value
    have hentry := hd'.toLayout.entry_stored hc ⟨key, value⟩
    rw [if_pos rfl, Data.insert_eq (n := ⟨key, value⟩) hunused, hnone, Option.getD_none]
    apply (Yields.of_eq (E := NoMemory (d.size + 1)) (P := fun it => it = ⟨c, ⟨key, value⟩⟩)
      (iterator_eq hentry) rfl).bind
    rintro _ rfl
    refine ⟨hstore, ?_, rfl, rfl⟩
    change d'.size + 1 ≤ d.size + 1
    omega

omit [DecidableEq K] in
/-- An iterator is incremented to an entry, or to the end. -/
theorem nextIterator_ends {d : Data K V} (h : d.Layout) {turns bucket : ℕ}
    (hbucket : bucket < d.numBuckets) (hturns : d.numBuckets ≤ bucket + turns) :
  ∃ next, d.nextIterator turns bucket = .ok next ∧ ∀ it ∈ next, it.node ∈ d.nodes
  := by
  induction turns generalizing bucket with
  | zero => omega
  | succ turns ih =>
    rw [Data.nextIterator]
    split
    next hlast => exact ⟨none, rfl, fun it hit => (nomatch hit)⟩
    next hlast =>
      cases hentry : d.entry (bucket + 1) with
      | none =>
        have hnode : d.node (.ofBucketIndex (bucket + 1)) = none := hentry
        rw [hnode]
        exact ih (by omega) (by omega)
      | some n =>
        have hnode : d.node (.ofBucketIndex (bucket + 1)) = some n := hentry
        rw [hnode]
        refine ⟨_, rfl, ?_⟩
        rintro it hit
        cases hit
        exact h.mem_nodes.mpr ⟨bucket + 1, by omega, hentry⟩

/-- A key that is absent is removed already. -/
theorem update_none {key : K} (h : m key = none) :
  Function.update m key none = m
  := by
  rw [← h, Function.update_eq_self]

omit [DecidableEq K] in
/-- A table without entries represents the empty map. -/
theorem apply_of_size_eq_zero {d : Data K V} (h : d.Represents hash m) (hsize : d.size = 0)
    (key : K) :
  m key = none
  := by
  rw [h.apply_eq_none]
  intro a ha
  have hpos := List.length_pos_of_mem ha
  rw [← h.size_eq, hsize] at hpos
  exact absurd hpos (Nat.lt_irrefl 0)

theorem remove_ends (h : q.Represents hash m) (globalSeed : ℕ) (key : K) :
  ∃ q', q.remove hash globalSeed key = .ok (q', (m key).isSome)
    ∧ q'.Represents hash (Function.update m key none) ∧ q'.size ≤ q.size
  := by
  obtain ⟨_ | d⟩ := q
  · have hnone : m key = none := congrFun h key
    refine ⟨⟨none⟩, ?_, ?_, Nat.le_refl _⟩
    · rw [hnone]
      rfl
    · rw [update_none hnone]
      exact h
  · change d.Represents hash m at h
    by_cases hempty : d.size = 0
    · have hnone := apply_of_size_eq_zero h hempty key
      refine ⟨⟨some d⟩, ?_, ?_, Nat.le_refl _⟩
      · rw [hnone]
        exact if_pos (decide_eq_true hempty)
      · rw [update_none hnone]
        exact h
    · have hfull : ¬ isEmpty ⟨some d⟩ = true := fun h => hempty (of_decide_eq_true h)
      obtain ⟨c, hc, hfind, ⟨value, hentry, hm⟩ | ⟨hunused, hnone, -⟩⟩ := h.findBucket key
      · obtain ⟨ref, hdetach⟩ := detach_of_data (d := d) h.toLayout globalSeed
        obtain ⟨d', herase, hd', hsize, -⟩ := (h.withRef ref).erase hc hentry
        refine ⟨⟨some d'⟩, ?_, hd', ?_⟩
        · unfold remove
          dsimp only
          rw [if_neg hfull, hfind, hm]
          change (if d.isUnused (.ofBucketIndex c) = true then _ else _) = _
          rw [isUnused_eq, hentry, hdetach, Bucket.toBucketIndex_ofBucketIndex]
          rw [if_neg (show ¬ (some (⟨key, value⟩ : Node K V)).isNone = true from
            Bool.false_ne_true)]
          change (Data.erase hash (.ofBucketIndex c) { d with ref := ref } >>= fun d =>
            pure ((⟨some d⟩ : QHash K V), true)) = _
          rw [herase]
          rfl
        · change d'.size ≤ d.size
          change d'.size + 1 = d.size at hsize
          omega
      · refine ⟨⟨some d⟩, ?_, ?_, Nat.le_refl _⟩
        · unfold remove
          dsimp only
          rw [if_neg hfull, hfind, hnone]
          change (if d.isUnused (.ofBucketIndex c) = true then _ else _) = _
          rw [isUnused_eq, hunused]
          rfl
        · rw [update_none hnone]
          exact h

theorem take_ends [Inhabited V] (h : q.Represents hash m) (globalSeed : ℕ) (key : K) :
  ∃ q', q.take hash globalSeed key = .ok (q', (m key).getD default)
    ∧ q'.Represents hash (Function.update m key none) ∧ q'.size ≤ q.size
  := by
  obtain ⟨_ | d⟩ := q
  · have hnone : m key = none := congrFun h key
    refine ⟨⟨none⟩, ?_, ?_, Nat.le_refl _⟩
    · rw [hnone]
      rfl
    · rw [update_none hnone]
      exact h
  · change d.Represents hash m at h
    by_cases hempty : d.size = 0
    · have hnone := apply_of_size_eq_zero h hempty key
      refine ⟨⟨some d⟩, ?_, ?_, Nat.le_refl _⟩
      · rw [hnone]
        exact if_pos (decide_eq_true hempty)
      · rw [update_none hnone]
        exact h
    · have hfull : ¬ isEmpty ⟨some d⟩ = true := fun h => hempty (of_decide_eq_true h)
      obtain ⟨c, hc, hfind, hfound⟩ := h.findBucket key
      obtain ⟨ref, hdetach⟩ := detach_of_data (d := d) h.toLayout globalSeed
      have hnode : Data.node { d with ref := ref } (.ofBucketIndex c) = d.entry c := rfl
      rcases hfound with ⟨value, hentry, hm⟩ | ⟨hunused, hnone, -⟩
      · obtain ⟨d', herase, hd', hsize, -⟩ := (h.withRef ref).erase hc hentry
        refine ⟨⟨some d'⟩, ?_, hd', ?_⟩
        · unfold take
          dsimp only
          rw [if_neg hfull, hfind, hm, hdetach]
          dsimp only [bind, Except.bind]
          rw [Bucket.toBucketIndex_ofBucketIndex, hnode, hentry]
          dsimp only
          rw [herase]
          rfl
        · change d'.size ≤ d.size
          change d'.size + 1 = d.size at hsize
          omega
      · refine ⟨⟨some { d with ref := ref }⟩, ?_, ?_, Nat.le_refl _⟩
        · unfold take
          dsimp only
          rw [if_neg hfull, hfind, hnone, hdetach]
          dsimp only [bind, Except.bind]
          rw [Bucket.toBucketIndex_ofBucketIndex, hnode, hunused]
          rfl
        · rw [update_none hnone]
          exact h.withRef ref

theorem erase_yields (h : q.Represents hash m) (globalSeed bucket : ℕ) :
  Yields (· = .badIterator)
    (fun r => r.1.Represents hash (Function.update m r.2.1.key none) ∧ r.1.size ≤ q.size
      ∧ m r.2.1.key = some r.2.1.value
      ∧ ∀ it ∈ r.2.2, Function.update m r.2.1.key none it.node.key = some it.node.value)
    (q.erase hash globalSeed bucket)
  := by
  unfold erase
  split
  next => exact rfl
  next n hn =>
    obtain ⟨_ | d⟩ := q
    · cases hn
    · change d.Represents hash m at h
      change (if bucket < d.numBuckets then d.entry bucket else none) = some n at hn
      split at hn
      next hbucket =>
        obtain ⟨ref, hdetach⟩ := detach_of_data (d := d) h.toLayout globalSeed
        obtain ⟨d', herase, hd', hsize, hnumBuckets⟩ := (h.withRef ref).erase hbucket hn
        change d'.size + 1 = d.size at hsize
        change d'.numBuckets = d.numBuckets at hnumBuckets
        have hle : d'.size ≤ d.size := by omega
        have happly := h.apply_eq_of_entry hbucket hn
        rw [hdetach]
        change Yields _ _ (Data.erase hash _ _ >>= _)
        rw [herase]
        change Yields _ _ (if bucket = d'.numBuckets - 1 ∨ d'.isUnused (.ofBucketIndex bucket) = true
          then _ else _)
        split
        next hend =>
          obtain ⟨next, hnext, hmem⟩ := nextIterator_ends hd'.toLayout
            (hnumBuckets ▸ hbucket) (Nat.le_add_left _ _)
          rw [hnext]
          exact ⟨hd', hle, happly, fun it hit => (hd'.apply_eq_some _ _).mpr (hmem it hit)⟩
        next hused =>
          cases hentry : d'.entry bucket with
          | none =>
            exfalso
            apply hused
            right
            rw [isUnused_eq, hentry]
            rfl
          | some n' =>
            rw [iterator_eq hentry]
            refine ⟨hd', hle, happly, ?_⟩
            rintro it hit
            cases hit
            exact hd'.apply_eq_of_entry (hnumBuckets ▸ hbucket) hentry
      next => cases hn

theorem reserve_yields (h : q.Represents hash m) (globalSeed : ℕ) (size : ℤ) :
  Yields (NoMemory (max size.toNat q.size))
    (fun q' => q'.Represents hash m ∧ q'.size = q.size) (q.reserve hash globalSeed size)
  := by
  unfold reserve
  split
  next henough => exact ⟨h, rfl⟩
  next hmore =>
    obtain ⟨_ | d⟩ := q
    · apply ((Data.create_yields hash globalSeed size.toNat (V := V)).mono
        (NoMemory.mono (Nat.le_max_left _ _)) fun _ h => h).bind
      rintro d ⟨hd, hsize⟩
      cases h
      exact ⟨hd, hsize⟩
    · change d.Represents hash m at h
      have hhalf : d.numBuckets >>> 1 = d.numBuckets / 2 := Nat.shiftRight_eq_div_pow _ 1
      have hhint : size.toNat = 0 ∨ d.size ≤ size.toNat := by
        have hle := h.half
        change ¬ (size ≠ 0 ∧ size ≤ ((d.numBuckets >>> 1 : ℕ) : ℤ)) at hmore
        omega
      dsimp only
      split
      · apply (h.rehash _ hhint).bind
        rintro d' ⟨hd', hsize, -⟩
        exact ⟨hd', hsize⟩
      · have hcopy := h.copyReserved size.toNat
        rw [Nat.max_comm] at hcopy
        apply hcopy.bind
        rintro d' ⟨hd', hsize, -⟩
        exact ⟨hd', hsize⟩

theorem squeeze_yields (h : q.Represents hash m) (globalSeed : ℕ) :
  Yields (NoMemory q.size)
    (fun q' => q'.Represents hash m ∧ q'.size = q.size) (q.squeeze hash globalSeed)
  := by
  unfold squeeze
  split
  · exact ⟨h, rfl⟩
  · have hreserve := reserve_yields h globalSeed 0
    rwa [Int.toNat_zero, Nat.zero_max] at hreserve

/-! ### Runs -/

/-- The capacity that an operation asks for. -/
def Op.capacity : Op K V → ℕ
  | .reserve size => size.toNat
  | _ => 0

/-- Each operation does what it does to the map. -/
theorem step_yields [Inhabited V] (h : q.Represents hash m) (globalSeed : ℕ) (op : Op K V) :
  Yields (fun e => e = .badIterator ∨ NoMemory (max (q.size + 1) op.capacity) e)
    (fun r => ∃ m', MapStep m op r.2 m' ∧ r.1.Represents hash m' ∧ r.1.size ≤ q.size + 1)
    (q.step hash globalSeed op)
  := by
  have hmemory : ∀ c ≤ max (q.size + 1) op.capacity, ∀ e, NoMemory c e →
      e = .badIterator ∨ NoMemory (max (q.size + 1) op.capacity) e :=
    fun c hc e he => .inr (NoMemory.mono hc e he)
  cases op with
  | insert key value =>
    apply ((emplace_yields h globalSeed key value).mono
      (hmemory _ (Nat.le_max_left _ _)) fun _ h => h).bind
    rintro ⟨d, it⟩ ⟨hd, hsize, hit⟩
    exact ⟨_, ⟨hit, rfl⟩, hd, hsize⟩
  | emplace key value =>
    apply ((emplace_yields h globalSeed key value).mono
      (hmemory _ (Nat.le_max_left _ _)) fun _ h => h).bind
    rintro ⟨d, it⟩ ⟨hd, hsize, hit⟩
    exact ⟨_, ⟨hit, rfl⟩, hd, hsize⟩
  | tryEmplace key value =>
    apply ((tryEmplace_yields h globalSeed key value).mono
      (hmemory _ (Nat.le_max_left _ _)) fun _ h => h).bind
    rintro ⟨d, it, inserted⟩ ⟨hd, hsize, hit, hinserted⟩
    exact ⟨_, ⟨hinserted, hit, rfl⟩, hd, hsize⟩
  | remove key =>
    obtain ⟨q', heq, hq', hsize⟩ := remove_ends h globalSeed key
    rw [step, heq]
    exact ⟨_, ⟨rfl, rfl⟩, hq', Nat.le_succ_of_le hsize⟩
  | take key =>
    obtain ⟨q', heq, hq', hsize⟩ := take_ends h globalSeed key
    rw [step, heq]
    exact ⟨_, ⟨rfl, rfl⟩, hq', Nat.le_succ_of_le hsize⟩
  | erase bucket =>
    apply ((erase_yields h globalSeed bucket).mono (fun e he => .inl he) fun _ h => h).bind
    rintro ⟨d, n, next⟩ ⟨hd, hsize, hn, hnext⟩
    exact ⟨_, ⟨hn, rfl, hnext⟩, hd, Nat.le_succ_of_le hsize⟩
  | reserve size =>
    apply ((reserve_yields h globalSeed size).mono
      (hmemory _ (by change max size.toNat q.size ≤ max (q.size + 1) size.toNat; omega))
      fun _ h => h).bind
    rintro q' ⟨hq', hsize⟩
    exact ⟨m, rfl, hq', Nat.le_succ_of_le (Nat.le_of_eq hsize)⟩
  | squeeze =>
    apply ((squeeze_yields h globalSeed).mono (hmemory _ (by omega)) fun _ h => h).bind
    rintro q' ⟨hq', hsize⟩
    exact ⟨m, rfl, hq', Nat.le_succ_of_le (Nat.le_of_eq hsize)⟩
  | share =>
    obtain ⟨_ | d⟩ := q
    · exact ⟨m, rfl, h, Nat.le_succ _⟩
    · exact ⟨m, rfl, Data.Represents.withRef h (d.ref + 1), Nat.le_succ _⟩
  | unshare =>
    obtain ⟨_ | d⟩ := q
    · exact ⟨m, rfl, h, Nat.le_succ _⟩
    · refine ⟨m, rfl, ?_⟩
      change (Represents hash ⟨some (if d.ref ≤ 1 then d else { d with ref := d.ref - 1 })⟩ m)
        ∧ size ⟨some (if d.ref ≤ 1 then d else { d with ref := d.ref - 1 })⟩ ≤ d.size + 1
      split
      · exact ⟨h, Nat.le_succ _⟩
      · exact ⟨Data.Represents.withRef h (d.ref - 1), Nat.le_succ _⟩

/-- Why a run does not come to its end: an iterator that designates no entry, or a table that
is too large for the memory. -/
def Breaks (size : ℕ) (ops : List (Op K V)) (e : Fault) : Prop :=
  e = .badIterator
    ∨ e = .badAlloc ∧ (2 ^ 61 ≤ size + ops.length ∨ ∃ n : ℤ, 2 ^ 61 ≤ n ∧ .reserve n ∈ ops)

omit [DecidableEq K] in
theorem Breaks.of_step {size : ℕ} {op : Op K V} (ops : List (Op K V)) (e : Fault)
    (h : e = .badIterator ∨ NoMemory (max (size + 1) op.capacity) e) :
  Breaks size (op :: ops) e
  := by
  rcases h with h | ⟨h, hmax⟩
  · exact .inl h
  · refine .inr ⟨h, ?_⟩
    rw [List.length_cons]
    cases op with
    | reserve n =>
      change 2 ^ 61 ≤ max (size + 1) n.toNat at hmax
      rcases Nat.lt_or_ge n.toNat (2 ^ 61) with hn | hn
      · exact .inl (by omega)
      · exact .inr ⟨n, by omega, List.mem_cons_self⟩
    | _ =>
      left
      change 2 ^ 61 ≤ max (size + 1) 0 at hmax
      omega

omit [DecidableEq K] in
theorem Breaks.of_run {size size' : ℕ} (hsize : size' ≤ size + 1) (op : Op K V)
    {ops : List (Op K V)} (e : Fault) (h : Breaks size' ops e) :
  Breaks size (op :: ops) e
  := by
  rcases h with h | ⟨h, hmax | ⟨n, hn, hmem⟩⟩
  · exact .inl h
  · refine .inr ⟨h, .inl ?_⟩
    rw [List.length_cons]
    omega
  · exact .inr ⟨h, .inr ⟨n, hn, List.mem_cons_of_mem _ hmem⟩⟩

theorem run_yields [Inhabited V] (h : q.Represents hash m) (globalSeed : ℕ)
    (ops : List (Op K V)) :
  Yields (Breaks q.size ops)
    (fun r => ∃ m', MapRun m ops r.2 m' ∧ r.1.Represents hash m')
    (q.run hash globalSeed ops)
  := by
  induction ops generalizing q m with
  | nil => exact ⟨m, .nil m, h⟩
  | cons op ops ih =>
    apply ((step_yields h globalSeed op).mono (Breaks.of_step ops) fun _ h => h).bind
    rintro ⟨q₁, result⟩ ⟨m₁, hm₁, hq₁, hsize⟩
    apply ((ih hq₁).mono (Breaks.of_run hsize op) fun _ h => h).bind
    rintro ⟨q', results⟩ ⟨m', hm', hq'⟩
    exact ⟨m', .cons hm₁ hm', hq'⟩

end QHash
