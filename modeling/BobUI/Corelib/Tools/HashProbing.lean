import BobUI.Corelib.Tools.Hash
import BobUI.Library.LinearProbing
import BobUI.Library.Outcome
import BobUI.Library.Slots
import Mathlib.Data.List.Perm.Lattice

/-!
# Linear probing in the table

The buckets of a table are numbered through its spans, and what the buckets hold is the flat
list of the spans' content.  A table is in order where its keys are distinct and its entries are
probed from their home buckets on; then a key is found, or its search ends at an unused bucket,
as long as one is left.  Storing, moving into a new table and erasing keep a table in order.
-/

namespace QHashPrivate

open SpanConstants GrowthPolicy LinearProbing

variable {K V : Type}

/-! ### Bucket indexes -/

theorem Bucket.ofBucketIndex_eq (i : ℕ) :
  Bucket.ofBucketIndex i = ⟨i / 128, i % 128⟩
  := by
  have hmask : i &&& localBucketMask = i % 128 := Nat.and_two_pow_sub_one_eq_mod i 7
  have hshift : i >>> spanShift = i / 128 := Nat.shiftRight_eq_div_pow i 7
  rw [ofBucketIndex, hmask, hshift]

theorem Bucket.toBucketIndex_ofBucketIndex (i : ℕ) :
  (Bucket.ofBucketIndex i).toBucketIndex = i
  := by
  rw [ofBucketIndex_eq, toBucketIndex]
  have hor : (i / 128) <<< 7 + i % 128 = (i / 128) <<< 7 ||| i % 128 :=
    Nat.shiftLeft_add_eq_or_of_lt (Nat.mod_lt i (by decide)) (i / 128)
  change (i / 128) <<< 7 ||| i % 128 = i
  rw [← hor, Nat.shiftLeft_eq]
  omega

theorem Bucket.ofBucketIndex_inj {i j : ℕ} :
  Bucket.ofBucketIndex i = Bucket.ofBucketIndex j ↔ i = j
  := by
  constructor
  · intro h
    rw [← toBucketIndex_ofBucketIndex i, h, toBucketIndex_ofBucketIndex]
  · rintro rfl
    rfl

theorem bucketForHash_lt {n : ℕ} (h : 0 < n) (hash : ℕ) :
  bucketForHash n hash < n
  := by
  have hle : hash &&& (n - 1) ≤ n - 1 := Nat.and_le_right
  unfold bucketForHash
  omega

namespace Data

/-- What the bucket of an index holds. -/
def entry (d : Data K V) (i : ℕ) : Option (Node K V) :=
  d.node (.ofBucketIndex i)

/-- The entries of the table. -/
def nodes (d : Data K V) : List (Node K V) :=
  d.spans.flatten.reduceOption

/-- The spans make up the buckets. -/
structure Layout (d : Data K V) : Prop where
  span_length : ∀ span ∈ d.spans, span.length = 128
  numBuckets_eq : d.numBuckets = 128 * d.spans.length
  numBuckets_pos : 0 < d.numBuckets
  numBuckets_le : d.numBuckets ≤ maxBucketCount

/-- The fields but the spans are the same. -/
structure SameHeader (d d' : Data K V) : Prop where
  ref : d'.ref = d.ref
  size : d'.size = d.size
  numBuckets : d'.numBuckets = d.numBuckets
  seed : d'.seed = d.seed

theorem SameHeader.refl (d : Data K V) :
  d.SameHeader d
  := ⟨rfl, rfl, rfl, rfl⟩

theorem SameHeader.trans {d₁ d₂ d₃ : Data K V} (h : d₁.SameHeader d₂) (h' : d₂.SameHeader d₃) :
  d₁.SameHeader d₃
  := ⟨h'.ref.trans h.ref, h'.size.trans h.size, h'.numBuckets.trans h.numBuckets,
    h'.seed.trans h.seed⟩

theorem put_sameHeader (d : Data K V) (b : Bucket) (n : Option (Node K V)) :
  d.SameHeader (d.put b n)
  := ⟨rfl, rfl, rfl, rfl⟩

section Layout

variable {d : Data K V} (h : d.Layout)

include h

theorem Layout.length_flatten :
  d.spans.flatten.length = d.numBuckets
  := by
  rw [Slots.length_flatten h.span_length, h.numBuckets_eq]

theorem Layout.entry_eq (i : ℕ) :
  d.entry i = d.spans.flatten[i]?.join
  := by
  rw [Slots.getElem?_flatten (by decide) h.span_length, entry, Bucket.ofBucketIndex_eq]
  change (d.spans.getD (i / 128) []).getD (i % 128) none = _
  rw [List.getD_eq_getElem?_getD, List.getD_eq_getElem?_getD]
  cases hspan : d.spans[i / 128]? with
  | none => rfl
  | some span =>
    rw [Option.getD_some, Option.bind_some]
    cases span[i % 128]? with
    | none => rfl
    | some slot => rfl

theorem Layout.getElem?_flatten {i : ℕ} (hi : i < d.numBuckets) :
  d.spans.flatten[i]? = some (d.entry i)
  := by
  rw [h.entry_eq, List.getElem?_eq_getElem (h.length_flatten ▸ hi)]
  rfl

theorem Layout.entry_of_le {i : ℕ} (hi : d.numBuckets ≤ i) :
  d.entry i = none
  := by
  rw [h.entry_eq, List.getElem?_eq_none (h.length_flatten ▸ hi)]
  rfl

theorem Layout.mem_nodes {n : Node K V} :
  n ∈ d.nodes ↔ ∃ i < d.numBuckets, d.entry i = some n
  := by
  rw [nodes, Slots.mem_entries]
  constructor
  · rintro ⟨i, hi⟩
    have hlt : i < d.numBuckets := h.length_flatten ▸ (List.getElem?_eq_some_iff.mp hi).1
    use i
    rw [h.getElem?_flatten hlt] at hi
    exact ⟨hlt, Option.some.inj hi⟩
  · rintro ⟨i, hlt, hi⟩
    use i
    rw [h.getElem?_flatten hlt, hi]

theorem Layout.exists_unused (hroom : d.nodes.length < d.numBuckets) :
  ∃ u < d.numBuckets, d.entry u = none
  := by
  obtain ⟨u, hu, hnone⟩ := Slots.exists_unused (h.length_flatten.symm ▸ hroom)
  rw [h.length_flatten] at hu
  use u, hu
  rw [h.getElem?_flatten hu] at hnone
  exact Option.some.inj hnone

theorem Layout.numSpans :
  d.numBuckets >>> spanShift = d.spans.length
  := by
  change d.numBuckets >>> 7 = _
  rw [Nat.shiftRight_eq_div_pow, h.numBuckets_eq]
  omega

theorem Layout.advanceWrapped {i : ℕ} (hi : i < d.numBuckets) :
  (Bucket.ofBucketIndex i).advanceWrapped d = .ofBucketIndex (next d.numBuckets i)
  := by
  have hn := h.numBuckets_eq
  rw [Bucket.ofBucketIndex_eq, Bucket.ofBucketIndex_eq, Bucket.advanceWrapped, h.numSpans]
  change (if i % 128 + 1 = 128 then
    if i / 128 + 1 = d.spans.length then Bucket.mk 0 0 else ⟨i / 128 + 1, 0⟩
    else ⟨i / 128, i % 128 + 1⟩) = _
  unfold next
  split_ifs <;> rw [Bucket.mk.injEq] <;> omega

/-! ### The content of a bucket is changed -/

theorem flatten_put (i : ℕ) (n : Option (Node K V)) :
  (d.put (.ofBucketIndex i) n).spans.flatten = d.spans.flatten.set i n
  := by
  rw [put, Bucket.ofBucketIndex_eq]
  exact Slots.flatten_modify (by decide) h.span_length i n

theorem Layout.put (i : ℕ) (n : Option (Node K V)) :
  (d.put (.ofBucketIndex i) n).Layout
  := by
  refine ⟨?_, ?_, h.numBuckets_pos, h.numBuckets_le⟩
  · exact Slots.length_of_mem_modify h.span_length _ _ n
  · change d.numBuckets = 128 * (d.spans.modify _ _).length
    rw [List.length_modify]
    exact h.numBuckets_eq

theorem entry_put {i : ℕ} (hi : i < d.numBuckets) (n : Option (Node K V)) :
  (d.put (.ofBucketIndex i) n).entry = Function.update d.entry i n
  := by
  funext j
  rw [(h.put i n).entry_eq, flatten_put h]
  by_cases hj : j = i
  · rw [hj, Function.update_self, List.getElem?_set_self (h.length_flatten.symm ▸ hi)]
    rfl
  · rw [Function.update_of_ne hj, List.getElem?_set_ne (Ne.symm hj), ← h.entry_eq]

theorem nodes_store {i : ℕ} (hi : i < d.numBuckets) (hunused : d.entry i = none)
    (n : Node K V) :
  (d.put (.ofBucketIndex i) (some n)).nodes.Perm (n :: d.nodes)
  := by
  rw [nodes, flatten_put h]
  apply Slots.entries_store
  rw [h.getElem?_flatten hi, hunused]

theorem nodes_remove {i : ℕ} (hi : i < d.numBuckets) {n : Node K V}
    (hused : d.entry i = some n) :
  d.nodes.Perm (n :: (d.put (.ofBucketIndex i) none).nodes)
  := by
  rw [nodes, nodes, flatten_put h]
  apply Slots.entries_remove
  rw [h.getElem?_flatten hi, hused]

end Layout

/-! ### Tables in order -/

/-- The bucket that the hash of an entry names. -/
def home (hash : K → ℕ → ℕ) (d : Data K V) (n : Node K V) : ℕ :=
  bucketForHash d.numBuckets (hash n.key d.seed)

structure InOrder (hash : K → ℕ → ℕ) (d : Data K V) : Prop extends Layout d where
  nodup : (d.nodes.map Node.key).Nodup
  probed : Probed d.numBuckets (home hash d) d.entry

variable {hash : K → ℕ → ℕ} {d : Data K V}

theorem Layout.home_lt (h : d.Layout) (n : Node K V) :
  home hash d n < d.numBuckets
  := bucketForHash_lt h.numBuckets_pos _

/-! ### Storing -/

/-- The search for a key has come to a bucket: the buckets from the one its hash names on are
in use for other keys. -/
def Passed (hash : K → ℕ → ℕ) (d : Data K V) (key : K) (i : ℕ) : Prop :=
  ∀ x < d.numBuckets,
    dist d.numBuckets (bucketForHash d.numBuckets (hash key d.seed)) x
      < dist d.numBuckets (bucketForHash d.numBuckets (hash key d.seed)) i →
    ∃ a, d.entry x = some a ∧ a.key ≠ key

/-- The search for a key goes past a bucket that another key uses. -/
theorem Passed.next (h : d.Layout) {key : K} {i : ℕ} (hi : i < d.numBuckets)
    (hpassed : d.Passed hash key i) {a : Node K V} (ha : d.entry i = some a)
    (hkey : a.key ≠ key) :
  d.Passed hash key (next d.numBuckets i)
  := by
  have hhome := bucketForHash_lt h.numBuckets_pos (hash key d.seed)
  intro x hx hlt
  by_cases hstart : LinearProbing.next d.numBuckets i
      = bucketForHash d.numBuckets (hash key d.seed)
  · rw [hstart, dist_self] at hlt
    exact absurd hlt (Nat.not_lt_zero _)
  · rw [dist_next_right hhome hstart, Nat.lt_succ_iff_lt_or_eq] at hlt
    rcases hlt with hlt | heq
    · exact hpassed x hx hlt
    · rw [dist_inj hhome hx hi heq]
      exact ⟨a, ha, hkey⟩

/-- An entry is stored at the bucket that the search for its key ends at. -/
theorem InOrder.store (h : d.InOrder hash) {n : Node K V} {c : ℕ} (hc : c < d.numBuckets)
    (hunused : d.entry c = none) (hpassed : d.Passed hash n.key c)
    (hnew : ∀ a ∈ d.nodes, a.key ≠ n.key) :
  (d.put (.ofBucketIndex c) (some n)).InOrder hash
  := by
  refine ⟨h.toLayout.put c _, ?_, ?_⟩
  · rw [((nodes_store h.toLayout hc hunused n).map Node.key).nodup_iff, List.map_cons,
      List.nodup_cons]
    refine ⟨?_, h.nodup⟩
    rw [List.mem_map]
    rintro ⟨a, ha, heq⟩
    exact hnew a ha heq
  · rw [entry_put h.toLayout hc]
    apply h.probed.store
    intro x hx hlt
    obtain ⟨a, ha, -⟩ := hpassed x hx hlt
    rw [ha]
    rfl

theorem insert_eq {n : Node K V} {b : Bucket} (hunused : d.node b = none) :
  d.insert b n = .ok (d.put b (some n))
  := by
  rw [insert, isUnused, hunused]
  rfl

/-! ### Erasing -/

/-- The inner loop of `erase` tells whether the hole comes first. -/
theorem passes_eq (h : d.Layout) {hole j : ℕ} (hhole : hole < d.numBuckets)
    (hj : j < d.numBuckets) {turns i : ℕ} (hi : i < d.numBuckets)
    (hturns : dist d.numBuckets i j < turns) :
  d.passes (.ofBucketIndex j) (.ofBucketIndex hole) turns (.ofBucketIndex i)
    = .ok (decide (dist d.numBuckets i hole < dist d.numBuckets i j))
  := by
  induction turns generalizing i with
  | zero => exact absurd hturns (Nat.not_lt_zero _)
  | succ turns ih =>
    rw [passes]
    simp only [Bucket.ofBucketIndex_inj]
    by_cases hij : i = j
    · rw [if_pos hij, hij, dist_self]
      rfl
    · rw [if_neg hij]
      by_cases hih : i = hole
      · have hpos : 0 < dist d.numBuckets i j := by
          rw [Nat.pos_iff_ne_zero, Ne, dist_eq_zero hi]
          exact hij
        rw [if_pos hih, ← hih, dist_self, decide_eq_true hpos]
      · have hnext := dist_next hi hj hij
        rw [if_neg hih, h.advanceWrapped hi, ih (next_lt_size hi) (by omega), hnext,
          dist_next hi hhole hih]
        simp only [Nat.add_lt_add_iff_right]

/-- One turn of the outer loop of `erase`. -/
theorem closeHole_succ (h : d.Layout) {hole j : ℕ} (hhole : hole < d.numBuckets)
    (hj : j < d.numBuckets) (turns : ℕ) :
  closeHole hash (turns + 1) (.ofBucketIndex hole) (.ofBucketIndex j) d
    = match d.entry (next d.numBuckets j) with
      | none => .ok d
      | some a =>
        if dist d.numBuckets (home hash d a) hole
            < dist d.numBuckets (home hash d a) (next d.numBuckets j) then
          closeHole hash turns (.ofBucketIndex (next d.numBuckets j))
            (.ofBucketIndex (next d.numBuckets j))
            ((d.put (.ofBucketIndex (next d.numBuckets j)) none).put (.ofBucketIndex hole) (some a))
        else
          closeHole hash turns (.ofBucketIndex hole) (.ofBucketIndex (next d.numBuckets j)) d
  := by
  rw [closeHole, h.advanceWrapped hj]
  cases hentry : d.entry (next d.numBuckets j) with
  | none =>
    have hnode : d.node (.ofBucketIndex (next d.numBuckets j)) = none := hentry
    rw [hnode]
    rfl
  | some a =>
    have hnode : d.node (.ofBucketIndex (next d.numBuckets j)) = some a := hentry
    have hnext := next_lt_size hj
    have hpasses : d.passes (.ofBucketIndex (next d.numBuckets j)) (.ofBucketIndex hole)
        d.numBuckets (.ofBucketIndex (bucketForHash d.numBuckets (hash a.key d.seed))) = _ :=
      passes_eq h hhole hnext (h.home_lt a)
        (dist_lt (bucketForHash_lt h.numBuckets_pos _) hnext)
    rw [hnode]
    dsimp only
    rw [hpasses]
    by_cases hmove : dist d.numBuckets (home hash d a) hole
        < dist d.numBuckets (home hash d a) (next d.numBuckets j)
    · rw [if_pos hmove]
      exact if_pos (decide_eq_true hmove)
    · rw [if_neg hmove]
      exact if_neg (fun h => hmove (of_decide_eq_true h))

/-- The outer loop of `erase` closes the hole. -/
theorem closeHole_ends {hole j u : ℕ} (h : d.Layout)
    (hgap : Gap d.numBuckets (home hash d) d.entry hole (next d.numBuckets j) u)
    (hj : j < d.numBuckets) {turns : ℕ}
    (hturns : dist d.numBuckets (next d.numBuckets j) u < turns) :
  ∃ d' : Data K V, closeHole hash turns (.ofBucketIndex hole) (.ofBucketIndex j) d = .ok d'
    ∧ d'.Layout ∧ Probed d'.numBuckets (home hash d') d'.entry ∧ d'.nodes.Perm d.nodes
    ∧ d.SameHeader d'
  := by
  induction turns generalizing d hole j with
  | zero => exact absurd hturns (Nat.not_lt_zero _)
  | succ turns ih =>
    have hnext : next d.numBuckets j < d.numBuckets := hgap.next_lt
    rw [closeHole_succ h hgap.hole_lt hj]
    cases hentry : d.entry (next d.numBuckets j) with
    | none =>
      use d
      exact ⟨rfl, h, hgap.closed h.home_lt hentry, List.Perm.refl _, SameHeader.refl d⟩
    | some a =>
      have hcloser := dist_next hnext hgap.unused_lt (hgap.used_ne hentry)
      dsimp only
      split
      next hmove =>
        -- The entry is moved into the hole.
        have hlayout := h.put (next d.numBuckets j) none
        have hhole : (d.put (.ofBucketIndex (next d.numBuckets j)) none).entry hole
            = none := by
          rw [entry_put h hnext, Function.update_of_ne hgap.next_ne.symm]
          exact hgap.hole
        have hmoved := hgap.move hentry hmove
        rw [← entry_put h hnext, ← entry_put hlayout hgap.hole_lt] at hmoved
        have hnodes := (nodes_store hlayout hgap.hole_lt hhole a).trans
          (nodes_remove h hnext hentry).symm
        obtain ⟨d', heq, hlayout', hprobed, hperm, hsame⟩ := ih
          (hlayout.put hole (some a)) hmoved hnext (by
            change dist d.numBuckets (next d.numBuckets (next d.numBuckets j)) u < turns
            omega)
        exact ⟨d', heq, hlayout', hprobed, hperm.trans hnodes,
          (put_sameHeader d _ _).trans ((put_sameHeader _ _ _).trans hsame)⟩
      next hmove =>
        exact ih h (hgap.stay hentry (Nat.le_of_not_lt hmove)) hnext (by omega)

/-! ### Searching -/

variable [DecidableEq K]

/-- The search ends as an unused bucket lies ahead. -/
theorem findFrom_ends (h : d.Layout) {key : K} {u : ℕ} (hu : u < d.numBuckets)
    (hunused : d.entry u = none) {turns i : ℕ} (hi : i < d.numBuckets)
    (hturns : dist d.numBuckets i u < turns) (hpassed : d.Passed hash key i) :
  ∃ c < d.numBuckets, d.findFrom key turns (.ofBucketIndex i) = .ok (.ofBucketIndex c)
    ∧ d.Passed hash key c ∧ ∀ a, d.entry c = some a → a.key = key
  := by
  induction turns generalizing i with
  | zero => exact absurd hturns (Nat.not_lt_zero _)
  | succ turns ih =>
    rw [findFrom]
    cases hentry : d.entry i with
    | none =>
      have hnode : d.node (.ofBucketIndex i) = none := hentry
      use i, hi
      rw [hnode]
      refine ⟨rfl, hpassed, ?_⟩
      intro a ha
      rw [hentry] at ha
      cases ha
    | some a =>
      have hnode : d.node (.ofBucketIndex i) = some a := hentry
      rw [hnode]
      dsimp only
      by_cases hkey : a.key = key
      · use i, hi
        rw [if_pos hkey]
        refine ⟨rfl, hpassed, ?_⟩
        intro b hb
        rw [hentry] at hb
        cases hb
        exact hkey
      · rw [if_neg hkey, h.advanceWrapped hi]
        have hiu : i ≠ u := by
          rintro rfl
          rw [hunused] at hentry
          cases hentry
        apply ih (next_lt_size hi)
        · rw [dist_next hi hu hiu] at hturns
          exact Nat.lt_of_succ_lt_succ hturns
        · exact hpassed.next h hi hentry hkey

/-- The search for a key ends at its entry, or at an unused bucket where it has none. -/
theorem InOrder.findBucket (h : d.InOrder hash) (hroom : d.nodes.length < d.numBuckets)
    (key : K) :
  ∃ c < d.numBuckets, d.findBucket hash key = .ok (.ofBucketIndex c)
    ∧ ((∃ a, d.entry c = some a ∧ a.key = key)
      ∨ d.entry c = none ∧ d.Passed hash key c ∧ ∀ a ∈ d.nodes, a.key ≠ key)
  := by
  obtain ⟨u, hu, hunused⟩ := h.exists_unused hroom
  have hhome := bucketForHash_lt h.numBuckets_pos (hash key d.seed)
  have hstart : d.Passed hash key (bucketForHash d.numBuckets (hash key d.seed)) := by
    intro x hx hlt
    rw [dist_self] at hlt
    exact absurd hlt (Nat.not_lt_zero _)
  obtain ⟨c, hc, hfind, hpassed, hkey⟩ :=
    findFrom_ends h.toLayout hu hunused hhome (dist_lt hhome hu) hstart
  refine ⟨c, hc, hfind, ?_⟩
  cases hentry : d.entry c with
  | some a => exact .inl ⟨a, rfl, hkey a hentry⟩
  | none =>
    refine .inr ⟨rfl, hpassed, ?_⟩
    intro a ha heq
    obtain ⟨i, hi, hia⟩ := h.mem_nodes.mp ha
    have hhome_a : home hash d a = bucketForHash d.numBuckets (hash key d.seed) := by
      rw [home, heq]
    rcases Nat.lt_trichotomy (dist d.numBuckets (home hash d a) c)
      (dist d.numBuckets (home hash d a) i) with hlt | hsame | hlt
    · have hsome := h.probed i hi a hia c hc hlt
      rw [hentry] at hsome
      cases hsome
    · rw [dist_inj (h.home_lt a) hc hi hsame, hia] at hentry
      cases hentry
    · rw [hhome_a] at hlt
      obtain ⟨b, hb, hne⟩ := hpassed i hi hlt
      rw [hia] at hb
      cases hb
      exact hne heq

/-! ### Moving into another table -/

/-- The entries of the old buckets are stored in a table that has room for them. -/
theorem InOrder.foldlM_reinsertEntry (h : d.InOrder hash) (slots : List (Option (Node K V)))
    (hnodup : ((slots.reduceOption ++ d.nodes).map Node.key).Nodup)
    (hroom : (slots.reduceOption ++ d.nodes).length < d.numBuckets) :
  ∃ d' : Data K V, slots.foldlM (reinsertEntry hash) d = .ok d' ∧ d'.InOrder hash
    ∧ d'.nodes.Perm (slots.reduceOption ++ d.nodes) ∧ d.SameHeader d'
  := by
  induction slots generalizing d with
  | nil => exact ⟨d, rfl, h, List.Perm.refl _, SameHeader.refl d⟩
  | cons slot slots ih =>
    rw [List.foldlM_cons]
    cases slot with
    | none =>
      rw [List.reduceOption_cons_of_none] at *
      exact ih h hnodup hroom
    | some n =>
      rw [List.reduceOption_cons_of_some, List.cons_append] at *
      have hperm : (slots.reduceOption ++ (n :: d.nodes)).Perm
          (n :: (slots.reduceOption ++ d.nodes)) := List.perm_middle
      have hfits : d.nodes.length < d.numBuckets := by
        rw [List.length_cons, List.length_append] at hroom
        omega
      have hnew : ∀ a ∈ d.nodes, a.key ≠ n.key := by
        intro a ha heq
        rw [List.map_cons, List.nodup_cons] at hnodup
        apply hnodup.1
        rw [← heq]
        exact List.mem_map_of_mem (List.mem_append_right _ ha)
      obtain ⟨c, hc, hfind, ⟨a, ha, hkey⟩ | ⟨hunused, hpassed, -⟩⟩ :=
        h.findBucket hfits n.key
      · exact absurd hkey (hnew a (h.mem_nodes.mpr ⟨c, hc, ha⟩))
      · have hstore := h.store hc hunused hpassed hnew
        have hnodes := nodes_store h.toLayout hc hunused n
        have hall := (hnodes.append_left slots.reduceOption).trans hperm
        have hentry : reinsertEntry hash d (some n)
            = .ok (d.put (.ofBucketIndex c) (some n)) := by
          rw [reinsertEntry, hfind]
          exact insert_eq hunused
        obtain ⟨d', heq, hd', hperm', hsame⟩ := ih hstore
          ((hall.map Node.key).nodup_iff.mpr hnodup) (by rw [hall.length_eq]; exact hroom)
        rw [hentry]
        exact ⟨d', heq, hd', hperm'.trans hall, (put_sameHeader d _ _).trans hsame⟩

/-- The loop over the old buckets goes through the spans one after the other. -/
theorem reinsert_eq (d : Data K V) (spans : List (Span K V)) :
  reinsert hash d spans = spans.flatten.foldlM (reinsertEntry hash) d
  := by
  unfold reinsert
  induction spans generalizing d with
  | nil => rfl
  | cons span spans ih =>
    rw [List.foldlM_cons, List.flatten_cons, List.foldlM_append]
    simp only [ih]

end Data

end QHashPrivate
