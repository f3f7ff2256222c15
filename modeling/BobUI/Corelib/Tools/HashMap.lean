import BobUI.Corelib.Tools.HashProbing

/-!
# The hash is a finite map

A table that is in order, has counted its entries and is at most half full represents the map
that takes the keys of its entries to their values.  Each operation of a hash does to that map
what its name says, and keeps the table so.
-/

namespace QHashPrivate

open SpanConstants GrowthPolicy LinearProbing

/-! ### Growth -/

theorem le_maxBucketCount :
  2 ^ 62 ≤ maxBucketCount
  := by decide

variable {c : ℕ}

theorem bucketsForCapacity_of_le (h : c ≤ 64) :
  bucketsForCapacity c = 128
  := if_pos h

theorem bucketsForCapacity_of_log (h : 64 < c) (hlog : c.log2 ≤ 61) :
  bucketsForCapacity c = 2 ^ (c.log2 + 2)
  := by
  have hcount : countLeadingZeroBits c = 63 - c.log2 := rfl
  rw [bucketsForCapacity, if_neg (by omega), hcount]
  dsimp only
  rw [if_neg (by omega), Nat.shiftLeft_eq, Nat.one_mul]
  congr 1
  omega

theorem bucketsForCapacity_overflow (h : 64 < c) (hlog : 61 < c.log2) :
  bucketsForCapacity c = 2 ^ 64 - 1
  := by
  have hcount : countLeadingZeroBits c = 63 - c.log2 := rfl
  rw [bucketsForCapacity, if_neg (by omega), hcount]
  exact if_pos (by omega)

/-- The buckets that can be allocated for a capacity are spans, and twice as many. -/
theorem bucketsForCapacity_spec (h : bucketsForCapacity c ≤ maxBucketCount) :
  128 ∣ bucketsForCapacity c ∧ 0 < bucketsForCapacity c ∧ 2 * c ≤ bucketsForCapacity c
  := by
  rcases Nat.lt_or_ge 64 c with hc | hc
  · rcases Nat.lt_or_ge 61 c.log2 with hlog | hlog
    · rw [bucketsForCapacity_overflow hc hlog] at h
      exact absurd h (by decide)
    · rw [bucketsForCapacity_of_log hc hlog]
      have hsix : 6 ≤ c.log2 := (Nat.le_log2 (by omega)).mpr (by omega)
      have hlt : c < 2 ^ (c.log2 + 1) := Nat.lt_log2_self
      refine ⟨?_, Nat.two_pow_pos _, ?_⟩
      · exact Nat.pow_dvd_pow 2 (show 7 ≤ c.log2 + 2 by omega)
      · rw [Nat.pow_succ]
        omega
  · rw [bucketsForCapacity_of_le hc]
    omega

theorem bucketsForCapacity_le (h : c < 2 ^ 61) :
  bucketsForCapacity c ≤ maxBucketCount
  := by
  apply Nat.le_trans _ le_maxBucketCount
  rcases Nat.lt_or_ge 64 c with hc | hc
  · have hlog : c.log2 < 61 := (Nat.log2_lt (by omega)).mpr h
    rw [bucketsForCapacity_of_log hc (by omega)]
    exact Nat.pow_le_pow_right (by decide) (by omega)
  · rw [bucketsForCapacity_of_le hc]
    decide

/-- The allocation of buckets for a capacity fails. -/
def NoMemory (capacity : ℕ) (e : Fault) : Prop :=
  e = .badAlloc ∧ 2 ^ 61 ≤ capacity

theorem NoMemory.mono {c' : ℕ} (h : c ≤ c') (e : Fault) (he : NoMemory c e) :
  NoMemory c' e
  := ⟨he.1, Nat.le_trans he.2 h⟩

variable {K V : Type}

/-- Spans are allocated for a capacity, or there is no memory for them. -/
theorem allocateSpans_yields (c : ℕ) :
  Yields (NoMemory c)
    (fun spans => bucketsForCapacity c ≤ maxBucketCount
      ∧ spans = List.replicate (bucketsForCapacity c >>> spanShift) (Span.empty K V))
    (allocateSpans K V (bucketsForCapacity c))
  := by
  unfold allocateSpans
  split
  next h =>
    refine ⟨rfl, ?_⟩
    by_contra hc
    exact absurd (bucketsForCapacity_le (Nat.lt_of_not_le hc)) (Nat.not_le_of_lt h)
  next h => exact ⟨Nat.le_of_not_lt h, rfl⟩

namespace Data

variable {hash : K → ℕ → ℕ} {d : Data K V}

variable {m : K → Option V} {c : ℕ}

/-- A table whose buckets are unused is in order. -/
theorem inOrder_empty (hash : K → ℕ → ℕ) (ref size seed : ℕ)
    (h : bucketsForCapacity c ≤ maxBucketCount) :
  let d : Data K V := ⟨ref, size, bucketsForCapacity c, seed,
    List.replicate (bucketsForCapacity c >>> spanShift) (Span.empty K V)⟩
  d.InOrder hash ∧ d.nodes = []
  := by
  intro d
  obtain ⟨hdvd, hpos, -⟩ := bucketsForCapacity_spec h
  have hlayout : d.Layout := by
    refine ⟨?_, ?_, hpos, h⟩
    · intro span hspan
      rw [List.eq_of_mem_replicate hspan]
      rfl
    · change bucketsForCapacity c = 128 * (List.replicate (bucketsForCapacity c >>> 7) _).length
      rw [List.length_replicate, Nat.shiftRight_eq_div_pow]
      exact (Nat.mul_div_cancel' hdvd).symm
  have hnone : ∀ slot ∈ d.spans.flatten, slot = none := by
    intro slot hslot
    obtain ⟨span, hspan, hslot⟩ := List.mem_flatten.mp hslot
    rw [List.eq_of_mem_replicate hspan] at hslot
    exact List.eq_of_mem_replicate hslot
  have hnodes : d.nodes = [] := by
    rw [List.eq_nil_iff_forall_not_mem]
    intro n hn
    rw [nodes, List.reduceOption_mem_iff] at hn
    cases hnone _ hn
  refine ⟨⟨hlayout, ?_, ?_⟩, hnodes⟩
  · rw [hnodes]
    exact List.nodup_nil
  · intro i hi a ha
    have hmem := hlayout.mem_nodes.mpr ⟨i, hi, ha⟩
    rw [hnodes] at hmem
    cases hmem

/-- A table is in order, has counted its entries, and is at most half full. -/
structure WellFormed (hash : K → ℕ → ℕ) (d : Data K V) : Prop extends InOrder hash d where
  size_eq : d.size = d.nodes.length
  half : 2 * d.size ≤ d.numBuckets

/-- The table represents a map. -/
structure Represents (hash : K → ℕ → ℕ) (d : Data K V) (m : K → Option V) : Prop extends
    WellFormed hash d where
  apply_eq_some : ∀ key value, m key = some value ↔ ⟨key, value⟩ ∈ d.nodes

theorem WellFormed.room (h : d.WellFormed hash) :
  d.nodes.length < d.numBuckets
  := by
  have hhalf := h.half
  have hpos := h.numBuckets_pos
  rw [← h.size_eq]
  omega

/-- Another table with the same entries. -/
theorem Represents.congr {d' : Data K V} (h : d.Represents hash m) (h' : d'.WellFormed hash)
    (hperm : d'.nodes.Perm d.nodes) :
  d'.Represents hash m
  := by
  refine ⟨h', ?_⟩
  intro key value
  rw [h.apply_eq_some, hperm.mem_iff]

/-- The reference count is no matter of the map. -/
theorem Represents.withRef (h : d.Represents hash m) (ref : ℕ) :
  { d with ref := ref }.Represents hash m
  := ⟨⟨⟨⟨h.span_length, h.numBuckets_eq, h.numBuckets_pos, h.numBuckets_le⟩, h.nodup, h.probed⟩,
    h.size_eq, h.half⟩, h.apply_eq_some⟩

theorem Represents.apply_eq_none (h : d.Represents hash m) {key : K} :
  m key = none ↔ ∀ a ∈ d.nodes, a.key ≠ key
  := by
  rw [Option.eq_none_iff_forall_ne_some]
  constructor
  · rintro hnone ⟨k, value⟩ ha rfl
    exact hnone value ((h.apply_eq_some k value).mpr ha)
  · intro hnew value hvalue
    exact hnew _ ((h.apply_eq_some key value).mp hvalue) rfl

variable [DecidableEq K]

/-! ### Moving into another table -/

/-- The entries of a table are moved, or copied, into a new one. -/
theorem WellFormed.reinsert (h : d.WellFormed hash) (ref : ℕ) (hc : d.size ≤ c) :
  Yields (NoMemory c)
    (fun d' => d'.WellFormed hash ∧ d'.nodes.Perm d.nodes ∧ 2 * c ≤ d'.numBuckets
      ∧ d'.size = d.size ∧ d'.seed = d.seed ∧ d'.ref = ref)
    (allocateSpans K V (bucketsForCapacity c) >>= fun spans =>
      Data.reinsert hash ⟨ref, d.size, bucketsForCapacity c, d.seed, spans⟩ d.spans)
  := by
  apply (allocateSpans_yields c).bind
  rintro spans ⟨hle, rfl⟩
  obtain ⟨-, hpos, htwice⟩ := bucketsForCapacity_spec hle
  have hfresh := inOrder_empty (V := V) hash ref d.size d.seed hle
  obtain ⟨horder, hnodes⟩ := hfresh
  have hall := List.append_nil d.spans.flatten.reduceOption
  obtain ⟨d', heq, hd', hperm, hsame⟩ := horder.foldlM_reinsertEntry
    d.spans.flatten (by rw [hnodes, hall]; exact h.nodup) (by
      rw [hnodes, hall]
      change d.nodes.length < bucketsForCapacity c
      rw [← h.size_eq]
      omega)
  rw [hnodes, hall] at hperm
  rw [reinsert_eq, heq]
  have hnumBuckets : d'.numBuckets = bucketsForCapacity c := hsame.numBuckets
  have hsize : d'.size = d.size := hsame.size
  refine ⟨⟨hd', ?_, ?_⟩, hperm, ?_, hsize, hsame.seed, hsame.ref⟩
  · rw [hsize, h.size_eq]
    exact hperm.length_eq.symm
  · rw [hsize, hnumBuckets]
    omega
  · rw [hnumBuckets]
    exact htwice

theorem Represents.rehash (h : d.Represents hash m) (hint : ℕ) (hhint : hint = 0 ∨ d.size ≤ hint) :
  Yields (NoMemory (max hint d.size))
    (fun d' => d'.Represents hash m ∧ d'.size = d.size ∧ d'.seed = d.seed
      ∧ 2 * hint ≤ d'.numBuckets)
    (d.rehash hash hint)
  := by
  have hle : d.size ≤ if hint = 0 then d.size else hint := by
    split
    · exact Nat.le_refl _
    · omega
  apply (h.reinsert d.ref hle).mono
  · apply NoMemory.mono
    split <;> omega
  · rintro d' ⟨hd', hperm, htwice, hsize, hseed, -⟩
    refine ⟨h.congr hd' hperm, hsize, hseed, ?_⟩
    split at htwice <;> omega

theorem Represents.copyReserved (h : d.Represents hash m) (reserved : ℕ) :
  Yields (NoMemory (max d.size reserved))
    (fun d' => d'.Represents hash m ∧ d'.size = d.size ∧ d'.seed = d.seed
      ∧ 2 * reserved ≤ d'.numBuckets)
    (d.copyReserved hash reserved)
  := by
  apply (h.reinsert 1 (Nat.le_max_left d.size reserved)).mono
  · intro e he
    exact he
  · rintro d' ⟨hd', hperm, htwice, hsize, hseed, -⟩
    refine ⟨h.congr hd' hperm, hsize, hseed, ?_⟩
    omega

omit [DecidableEq K] in
theorem Layout.copy (h : d.Layout) :
  d.copy = .ok { d with ref := 1 }
  := by
  have hnot : ¬ maxBucketCount < d.numBuckets := Nat.not_lt_of_le h.numBuckets_le
  rw [Data.copy, allocateSpans, if_neg hnot]
  rfl

omit [DecidableEq K] in
/-- A new table represents the empty map. -/
theorem create_yields (hash : K → ℕ → ℕ) (globalSeed reserve : ℕ) :
  Yields (NoMemory reserve)
    (fun d => d.Represents hash (fun _ => none) ∧ d.size = 0)
    (create K V globalSeed reserve)
  := by
  apply (allocateSpans_yields reserve).bind
  rintro spans ⟨hle, rfl⟩
  have hfresh := inOrder_empty (V := V) hash 1 0 globalSeed hle
  obtain ⟨horder, hnodes⟩ := hfresh
  refine ⟨⟨⟨horder, ?_, Nat.zero_le _⟩, ?_⟩, rfl⟩
  · rw [hnodes]
    rfl
  · intro key value
    rw [hnodes]
    exact ⟨fun h => (nomatch h), fun h => (nomatch h)⟩

/-! ### Searching, storing and erasing -/

theorem Represents.findBucket (h : d.Represents hash m) (key : K) :
  ∃ c < d.numBuckets, d.findBucket hash key = .ok (.ofBucketIndex c)
    ∧ ((∃ value, d.entry c = some ⟨key, value⟩ ∧ m key = some value)
      ∨ d.entry c = none ∧ m key = none ∧ d.Passed hash key c)
  := by
  obtain ⟨c, hc, hfind, ⟨⟨k, value⟩, ha, rfl⟩ | ⟨hunused, hpassed, hnew⟩⟩ :=
    h.toInOrder.findBucket h.room key
  · refine ⟨c, hc, hfind, .inl ⟨value, ha, ?_⟩⟩
    exact (h.apply_eq_some k value).mpr (h.mem_nodes.mpr ⟨c, hc, ha⟩)
  · exact ⟨c, hc, hfind, .inr ⟨hunused, h.apply_eq_none.mpr hnew, hpassed⟩⟩

omit [DecidableEq K] in
theorem Represents.apply_eq_of_entry (h : d.Represents hash m) (hc : c < d.numBuckets)
    {n : Node K V} (hn : d.entry c = some n) :
  m n.key = some n.value
  := (h.apply_eq_some n.key n.value).mpr (h.mem_nodes.mpr ⟨c, hc, hn⟩)

/-- An entry is stored at the bucket that the search for its key has ended at, where there is
room for it. -/
theorem Represents.store (h : d.Represents hash m) {key : K} (hc : c < d.numBuckets)
    (hunused : d.entry c = none) (hpassed : d.Passed hash key c) (hnone : m key = none)
    (hroom : 2 * (d.size + 1) ≤ d.numBuckets) (value : V) :
  { d.put (.ofBucketIndex c) (some ⟨key, value⟩) with size := d.size + 1 }.Represents hash
    (Function.update m key (some value))
  := by
  have hnew := h.apply_eq_none.mp hnone
  have hstore := h.toInOrder.store (n := ⟨key, value⟩) hc hunused hpassed hnew
  have hperm := nodes_store h.toLayout hc hunused ⟨key, value⟩
  refine ⟨⟨⟨⟨hstore.span_length, hstore.numBuckets_eq, hstore.numBuckets_pos,
    hstore.numBuckets_le⟩, hstore.nodup, hstore.probed⟩, ?_, hroom⟩, ?_⟩
  · change d.size + 1 = (d.put (.ofBucketIndex c) (some ⟨key, value⟩)).nodes.length
    rw [hperm.length_eq, List.length_cons, h.size_eq]
  · intro k v
    change _ ↔ _ ∈ (d.put (.ofBucketIndex c) (some ⟨key, value⟩)).nodes
    rw [hperm.mem_iff, List.mem_cons, Node.mk.injEq]
    by_cases hk : k = key
    · rw [hk, Function.update_self, Option.some.injEq]
      constructor
      · intro hv
        exact .inl ⟨rfl, hv.symm⟩
      · rintro (⟨-, hv⟩ | hold)
        · exact hv.symm
        · exact absurd rfl (hnew _ hold)
    · rw [Function.update_of_ne hk, h.apply_eq_some]
      constructor
      · exact .inr
      · rintro (⟨heq, -⟩ | hold)
        · exact absurd heq hk
        · exact hold

omit [DecidableEq K] in
theorem Layout.entry_stored (h : d.Layout) (hc : c < d.numBuckets) (n : Node K V) :
  Data.entry { d.put (.ofBucketIndex c) (some n) with size := d.size + 1 } c = some n
  := by
  change (d.put (.ofBucketIndex c) (some n)).entry c = some n
  rw [entry_put h hc, Function.update_self]

/-- The value of an entry is replaced. -/
theorem Represents.replace (h : d.Represents hash m) {key : K} {old : V} (hc : c < d.numBuckets)
    (hold : d.entry c = some ⟨key, old⟩) (value : V) :
  (d.put (.ofBucketIndex c) (some ⟨key, value⟩)).Represents hash
    (Function.update m key (some value))
  := by
  -- The entry is removed, and stored again with the value.
  have hput : (d.put (.ofBucketIndex c) (some ⟨key, value⟩)).nodes.Perm
      (⟨key, value⟩ :: (d.put (.ofBucketIndex c) none).nodes) := by
    have hhole : (d.put (.ofBucketIndex c) none).entry c = none := by
      rw [entry_put h.toLayout hc, Function.update_self]
    have hstore := nodes_store (h.toLayout.put c none) hc hhole ⟨key, value⟩
    rw [nodes, flatten_put (h.toLayout.put c none), flatten_put h.toLayout, List.set_set,
      ← flatten_put h.toLayout] at hstore
    exact hstore
  have hremove := nodes_remove h.toLayout hc hold
  have hkeys : ((d.put (.ofBucketIndex c) (some ⟨key, value⟩)).nodes.map Node.key).Perm
      (d.nodes.map Node.key) :=
    (hput.map Node.key).trans (hremove.map Node.key).symm
  have hnodup := h.nodup
  rw [(hremove.map Node.key).nodup_iff, List.map_cons, List.nodup_cons] at hnodup
  refine ⟨⟨⟨h.toLayout.put c _, hkeys.nodup_iff.mpr h.nodup, ?_⟩, ?_, h.half⟩, ?_⟩
  · rw [entry_put h.toLayout hc]
    intro i hi a ha x hx hlt
    have hsome : (d.entry x).isSome = true := by
      by_cases hic : i = c
      · rw [hic, Function.update_self] at ha
        cases ha
        exact h.probed c hc _ hold x hx (hic ▸ hlt)
      · rw [Function.update_of_ne hic] at ha
        exact h.probed i hi a ha x hx hlt
    by_cases hxc : x = c
    · rw [hxc, Function.update_self]
      rfl
    · rw [Function.update_of_ne hxc]
      exact hsome
  · change d.size = _
    rw [h.size_eq, hremove.length_eq, hput.length_eq]
    rfl
  · intro k v
    rw [hput.mem_iff, List.mem_cons, Node.mk.injEq]
    by_cases hk : k = key
    · rw [hk, Function.update_self, Option.some.injEq]
      constructor
      · intro hv
        exact .inl ⟨rfl, hv.symm⟩
      · rintro (⟨-, hv⟩ | hrest)
        · exact hv.symm
        · exact absurd (List.mem_map_of_mem hrest) hnodup.1
    · rw [Function.update_of_ne hk, h.apply_eq_some, hremove.mem_iff, List.mem_cons,
        Node.mk.injEq]
      constructor
      · rintro (⟨heq, -⟩ | hrest)
        · exact absurd heq hk
        · exact .inr hrest
      · rintro (⟨heq, -⟩ | hrest)
        · exact absurd heq hk
        · exact .inr hrest

/-- An entry is erased. -/
theorem Represents.erase (h : d.Represents hash m) (hc : c < d.numBuckets) {n : Node K V}
    (hn : d.entry c = some n) :
  ∃ d' : Data K V, d.erase hash (.ofBucketIndex c) = .ok d'
    ∧ d'.Represents hash (Function.update m n.key none) ∧ d'.size + 1 = d.size
    ∧ d'.numBuckets = d.numBuckets
  := by
  have hnode : d.node (.ofBucketIndex c) = some n := hn
  have hremove := nodes_remove h.toLayout hc hn
  have hsize : d.nodes.length = (d.put (.ofBucketIndex c) none).nodes.length + 1 := by
    rw [hremove.length_eq, List.length_cons]
  obtain ⟨u, hu, hunused⟩ := h.exists_unused h.room
  have hcu : c ≠ u := by
    rintro rfl
    rw [hunused] at hn
    cases hn
  have hgap := h.probed.gap hc hu hunused hcu
  rw [← entry_put h.toLayout hc] at hgap
  have hlayout := h.toLayout.put c none
  have hends := closeHole_ends (d := { d.put (.ofBucketIndex c) none with size := d.size - 1 })
    ⟨hlayout.span_length, hlayout.numBuckets_eq, hlayout.numBuckets_pos,
      hlayout.numBuckets_le⟩ hgap hc (dist_lt (next_lt_size hc) hu)
  obtain ⟨d', heq, hlayout', hprobed, hperm, hsame⟩ := hends
  change d'.nodes.Perm (d.put (.ofBucketIndex c) none).nodes at hperm
  have hall : d.nodes.Perm (n :: d'.nodes) := hremove.trans (hperm.symm.cons n)
  have hnodup := h.nodup
  rw [(hall.map Node.key).nodup_iff, List.map_cons, List.nodup_cons] at hnodup
  have hsize' : d'.size = d.size - 1 := hsame.size
  have hcount := hall.length_eq
  rw [List.length_cons, ← h.size_eq] at hcount
  refine ⟨d', ?_, ⟨⟨⟨hlayout', hnodup.2, hprobed⟩, ?_, ?_⟩, ?_⟩, ?_, hsame.numBuckets⟩
  · rw [Data.erase, isUnused, hnode]
    exact heq
  · omega
  · have hhalf := h.half
    rw [hsize', hsame.numBuckets]
    change 2 * (d.size - 1) ≤ d.numBuckets
    omega
  · intro k v
    by_cases hk : k = n.key
    · rw [hk, Function.update_self]
      constructor
      · intro hv
        cases hv
      · intro hmem
        exact absurd (List.mem_map_of_mem hmem) hnodup.1
    · rw [Function.update_of_ne hk, h.apply_eq_some, hall.mem_iff, List.mem_cons]
      constructor
      · rintro (heq | hmem)
        · rw [← heq] at hk
          exact absurd rfl hk
        · exact hmem
      · exact .inr
  · omega

end Data

end QHashPrivate
