import BobUI.Corelib.Tools.SpanStorage
import BobUI.Library.ThreadedLists
import Mathlib.Data.Fintype.EquivFin

/-!
# The free entries of a span

The used offsets are distinct, and the list of free entries visits exactly the others.  Storage is
added where all entries are used.

* `SpanStorage.run_sound`: this holds behind every sequence of operations that respects the
  preconditions, and none of them fails.
-/

namespace QHashPrivate

open SpanConstants ThreadedLists

namespace SpanStorage

variable {N ι : Type} [DecidableEq ι] {s : SpanStorage N}

/-- The entry that a free entry names. -/
def link (entries : List (Entry N)) (e : ℕ) : Option ℕ :=
  (entries[e]?.bind Entry.nextFree?).map UInt8.toNat

/-- These are the free entries, in the order of their list. -/
structure FreeCells (s : SpanStorage N) (cells : List ℕ) : Prop where
  visits : Visits (link s.entries) s.nextFree.toNat cells s.allocated.toNat
  nodup : cells.Nodup
  mem_iff : ∀ e, e ∈ cells ↔ e < s.allocated.toNat ∧ ∀ i, (s.offsets i).toNat ≠ e

/-- What operations keep: the used offsets are distinct and below `allocated`, which is one of the
sizes that `addStorage` chooses, their entries hold nodes, and the list of free entries visits the
others. -/
structure Sound (s : SpanStorage N) : Prop where
  length : s.entries.length = s.allocated.toNat
  sizes : s.allocated.toNat ∈ [0, 48, 80, 96, 112, 128]
  distinct : ∀ i j, s.offsets i ≠ unusedEntry → s.offsets i = s.offsets j → i = j
  below : ∀ i, s.offsets i ≠ unusedEntry → (s.offsets i).toNat < s.allocated.toNat
  used : ∀ i, s.offsets i ≠ unusedEntry → (s.node? i).isSome
  free : ∃ cells, s.FreeCells cells

/-- Storage is added where all entries are used, and there is room for more. -/
def GrowsFull (s : SpanStorage N) : Prop :=
  s.nextFree = s.allocated → (∀ e < s.allocated.toNat, ∃ i, (s.offsets i).toNat = e)
    ∧ ((∃ i, s.offsets i = unusedEntry) → s.allocated.toNat < nEntries)

theorem sound_new : (new N).Sound := by
  constructor
  · rfl
  · exact List.mem_cons_self
  · intro i j h
    exact absurd rfl h
  · intro i h
    exact absurd rfl h
  · intro i h
    exact absurd rfl h
  · use []
    constructor
    · rfl
    · exact List.nodup_nil
    · intro e
      constructor
      · intro h
        cases h
      · rintro ⟨h, -⟩
        cases h

theorem Sound.le (h : s.Sound) :
  s.allocated.toNat ≤ 128
  := by
  have hsizes := h.sizes
  simp only [List.mem_cons, List.not_mem_nil, or_false] at hsizes
  omega

variable {i : Fin nEntries} {alloc : ℕ}

/-- Entries below `allocated` are the offsets of used buckets. -/
theorem Sound.offset_ne (h : s.Sound) {e : ℕ} (he : e < s.allocated.toNat)
    (hoffset : (s.offsets i).toNat = e) :
  s.offsets i ≠ unusedEntry
  := by
  have hle := h.le
  intro hunused
  rw [hunused] at hoffset
  change 255 = e at hoffset
  omega

/-- Where the list of free entries ends at once, all entries are used. -/
theorem Sound.full (h : s.Sound) (hfree : s.nextFree = s.allocated) {e : ℕ}
    (he : e < s.allocated.toNat) :
  ∃ i, (s.offsets i).toNat = e
  := by
  obtain ⟨cells, hvisits, -, hmem⟩ := h.free
  cases cells with
  | nil =>
    by_contra hnone
    rw [not_exists] at hnone
    cases (hmem e).mpr ⟨he, hnone⟩
  | cons cell cells =>
    obtain ⟨hcell, -⟩ := hvisits
    have hlt := ((hmem cell).mp List.mem_cons_self).1
    rw [← hcell, hfree] at hlt
    exact absurd hlt (Nat.lt_irrefl _)

/-- With a bucket that is unused, fewer than 128 entries are used. -/
theorem Sound.room (h : s.Sound) (hfree : s.nextFree = s.allocated)
    (hi : s.offsets i = unusedEntry) :
  s.allocated.toNat < nEntries
  := by
  by_contra hroom
  have hall : ∀ e : Fin nEntries, ∃ j, (s.offsets j).toNat = e := by
    intro e
    apply h.full hfree
    omega
  choose bucket hbucket using hall
  have hinjective : Function.Injective bucket := by
    intro e e' heq
    apply Fin.ext
    rw [← hbucket e, ← hbucket e', heq]
  obtain ⟨e, he⟩ := Finite.injective_iff_surjective.mp hinjective i
  have hoffset := hbucket e
  rw [he] at hoffset
  exact h.offset_ne (by omega) hoffset hi

theorem Sound.growsFull (h : s.Sound) : s.GrowsFull := by
  intro hfree
  use fun e he => h.full hfree he
  rintro ⟨i, hi⟩
  exact h.room hfree hi

/-! ### Storage that is added -/

/-- The sizes of the storage. -/
def grown (allocated : ℕ) : ℕ :=
  if allocated = 0 then nEntries / 8 * 3
  else if allocated = nEntries / 8 * 3 then nEntries / 8 * 5
  else allocated + nEntries / 8

theorem Sound.grown (h : s.Sound) (hroom : s.allocated.toNat < nEntries) :
  s.allocated.toNat < SpanStorage.grown s.allocated.toNat
    ∧ SpanStorage.grown s.allocated.toNat ∈ [0, 48, 80, 96, 112, 128]
  := by
  have hsizes := h.sizes
  simp only [List.mem_cons, List.not_mem_nil, or_false] at hsizes
  rcases hsizes with heq | heq | heq | heq | heq | heq
  · rw [heq]
    decide
  · rw [heq]
    decide
  · rw [heq]
    decide
  · rw [heq]
    decide
  · rw [heq]
    decide
  · rw [heq] at hroom
    exact absurd hroom (Nat.lt_irrefl 128)

/-- Nodes that are all there are moved. -/
theorem mapM_node {entries : List (Entry N)} (h : ∀ entry ∈ entries, entry.node?.isSome) :
  ∃ nodes, entries.mapM Entry.node? = some nodes ∧ nodes.map .used = entries
  := by
  induction entries with
  | nil => exact ⟨[], rfl, rfl⟩
  | cons entry entries ih =>
    obtain ⟨nodes, hnodes, hmap⟩ := ih fun e he => h e (List.mem_cons_of_mem entry he)
    cases entry with
    | free nextFree => cases h _ List.mem_cons_self
    | used node =>
      use node :: nodes
      rw [List.mapM_cons, hnodes, List.map_cons, hmap]
      use rfl

/-- The storage with entries up to `alloc`, each of which names the next one. -/
def extend (s : SpanStorage N) (alloc : ℕ) : SpanStorage N :=
  { s with
    entries := s.entries ++ (List.range' s.allocated.toNat (alloc - s.allocated.toNat)).map
      fun i => .free (UInt8.ofNat (i + 1))
    allocated := UInt8.ofNat alloc }

/-- Where all entries are used, their nodes are moved, and entries are added behind them. -/
theorem Sound.addStorage_eq (h : s.Sound) (hfree : s.nextFree = s.allocated)
    (hroom : s.allocated.toNat < nEntries) :
  s.addStorage = some (s.extend (SpanStorage.grown s.allocated.toNat))
  := by
  have hnodes : ∀ entry ∈ s.entries, entry.node?.isSome := by
    intro entry hentry
    obtain ⟨e, he, rfl⟩ := List.getElem_of_mem hentry
    rw [h.length] at he
    obtain ⟨i, hi⟩ := h.full hfree he
    have hused := h.used i (h.offset_ne he hi)
    rwa [node?, hi, List.getElem?_eq_getElem, Option.bind_some] at hused
  obtain ⟨nodes, hmoved, hmap⟩ := mapM_node hnodes
  have htake : s.entries.take s.allocated.toNat = s.entries := by
    rw [← h.length, List.take_length]
  rw [addStorage, if_pos ⟨hroom, hfree⟩, htake, hmoved]
  dsimp only [Option.bind_eq_bind, Option.bind_some]
  rw [hmap]
  rfl

theorem extend_old {e : ℕ} (h : e < s.entries.length) :
  (s.extend alloc).entries[e]? = s.entries[e]?
  := List.getElem?_append_left h

/-- The nodes are still there. -/
theorem Sound.extend_node (h : s.Sound) (hi : s.offsets i ≠ unusedEntry) :
  (s.extend alloc).node? i = s.node? i
  := by
  have hbelow := h.below i hi
  rw [← h.length] at hbelow
  exact congrArg (·.bind Entry.node?) (extend_old hbelow)

theorem Sound.extend_link (h : s.Sound) {e : ℕ} (halloc : alloc ≤ 128)
    (hold : s.allocated.toNat ≤ e) (he : e < alloc) :
  link (s.extend alloc).entries e = some (e + 1)
  := by
  have hrange : e - s.allocated.toNat < alloc - s.allocated.toNat := by omega
  have hentry : (s.extend alloc).entries[e]? = some (.free (UInt8.ofNat (e + 1))) := by
    rw [extend, List.getElem?_append_right (by rw [h.length]; exact hold), h.length,
      List.getElem?_map, List.getElem?_range' hrange, Option.map_some, Nat.one_mul,
      Nat.add_sub_cancel' hold]
  rw [link, hentry, Option.bind_some, Entry.nextFree?, Option.map_some, UInt8.toNat_ofNat',
    Nat.mod_eq_of_lt (by omega)]

/-- Storage is added behind entries that all hold nodes. -/
theorem Sound.extend (h : s.Sound) (hfree : s.nextFree = s.allocated)
    (hlt : s.allocated.toNat < alloc) (hsizes : alloc ∈ [0, 48, 80, 96, 112, 128]) :
  (s.extend alloc).Sound
  := by
  have halloc : alloc ≤ 128 := by
    simp only [List.mem_cons, List.not_mem_nil, or_false] at hsizes
    omega
  have hallocated : (s.extend alloc).allocated.toNat = alloc := by
    rw [SpanStorage.extend, UInt8.toNat_ofNat', Nat.mod_eq_of_lt (by omega)]
  constructor
  · rw [hallocated, SpanStorage.extend, List.length_append, List.length_map, List.length_range',
      h.length]
    omega
  · rwa [hallocated]
  · exact h.distinct
  · intro i hi
    rw [hallocated]
    exact Nat.lt_trans (h.below i hi) hlt
  · intro i hi
    rw [h.extend_node hi]
    exact h.used i hi
  · use List.range' s.allocated.toNat (alloc - s.allocated.toNat)
    constructor
    · rw [hallocated]
      have hvisits : Visits (link (s.extend alloc).entries) s.allocated.toNat
          (List.range' s.allocated.toNat (alloc - s.allocated.toNat))
          (s.allocated.toNat + (alloc - s.allocated.toNat)) := by
        apply visits_range
        intro e he hend
        exact h.extend_link halloc he (by omega)
      rw [Nat.add_sub_cancel' (Nat.le_of_lt hlt)] at hvisits
      rw [SpanStorage.extend, hfree]
      exact hvisits
    · exact List.nodup_range'
    · intro e
      rw [hallocated, List.mem_range'_1]
      constructor
      · rintro ⟨hold, he⟩
        use by omega
        intro i hi
        rcases em (s.offsets i = unusedEntry) with hunused | hused
        · change (s.offsets i).toNat = e at hi
          rw [hunused] at hi
          change 255 = e at hi
          omega
        · have hbelow := h.below i hused
          change (s.offsets i).toNat = e at hi
          omega
      · rintro ⟨he, hnone⟩
        rcases Nat.lt_or_ge e s.allocated.toNat with hold | hnew
        · obtain ⟨i, hi⟩ := h.full hfree hold
          exact absurd hi (hnone i)
        · omega

/-! ### The operations -/

/-- What storing a node for an unused bucket does: the node is there, and those of the other buckets
are as before. -/
structure Stores (s t : SpanStorage N) (i : Fin nEntries) (node : N) : Prop where
  sound : t.Sound
  new : t.offsets i ≠ unusedEntry ∧ t.node? i = some node
  old : ∀ j, j ≠ i → (t.offsets j = unusedEntry ↔ s.offsets j = unusedEntry)
    ∧ (s.offsets j ≠ unusedEntry → t.node? j = s.node? j)

/-- The first free entry, with the bucket that takes it. -/
def taken (s : SpanStorage N) (i : Fin nEntries) (next : UInt8) : SpanStorage N :=
  { s with nextFree := next, offsets := Function.update s.offsets i s.nextFree }

/-- The first free entry, and those behind it. -/
structure FirstFree (s : SpanStorage N) (next : UInt8) (cells : List ℕ) : Prop where
  below : s.nextFree < s.allocated
  entry : s.entries[s.nextFree.toNat]? = some (.free next)
  free : s.FreeCells (s.nextFree.toNat :: cells)
  visits : Visits (link s.entries) next.toNat cells s.allocated.toNat

/-- The list of free entries has a first one, unless it ends at once. -/
theorem Sound.firstFree (h : s.Sound) (hfree : s.nextFree ≠ s.allocated) :
  ∃ next cells, s.FirstFree next cells
  := by
  obtain ⟨cells, hcells⟩ := h.free
  cases cells with
  | nil => exact absurd (UInt8.toNat_inj.mp hcells.visits) hfree
  | cons cell cells =>
    obtain ⟨rfl, next, hnext, hvisits⟩ := hcells.visits
    rw [link, Option.map_eq_some_iff] at hnext
    obtain ⟨first, hbind, rfl⟩ := hnext
    obtain ⟨entry, hentry, hlink⟩ := Option.bind_eq_some_iff.mp hbind
    cases entry with
    | used node => cases hlink
    | free _ =>
      cases hlink
      use first, cells
      exact ⟨((hcells.mem_iff _).mp List.mem_cons_self).1, hentry, hcells, hvisits⟩

section Taken

variable {i : Fin nEntries} {next : UInt8} {cells : List ℕ}

theorem taken_self (s : SpanStorage N) (i : Fin nEntries) (next : UInt8) :
  (s.taken i next).offsets i = s.nextFree
  := by
  simp [taken]

variable {j : Fin nEntries}

theorem taken_other (s : SpanStorage N) (next : UInt8) (h : j ≠ i) :
  (s.taken i next).offsets j = s.offsets j
  := by
  simp [taken, h]

/-- No bucket has the first free entry. -/
theorem FirstFree.fresh (hfirst : s.FirstFree next cells) (j : Fin nEntries) :
  s.offsets j ≠ s.nextFree
  := by
  intro hj
  apply ((hfirst.free.mem_iff s.nextFree.toNat).mp List.mem_cons_self).2 j
  rw [hj]

theorem FirstFree.store_node (h : s.Sound) (hfirst : s.FirstFree next cells) (node : N) :
  ((s.taken i next).store s.nextFree node).node? i = some node
  := by
  have hentry : s.nextFree.toNat < s.entries.length := by
    rw [h.length]
    exact hfirst.below
  rw [node?, store]
  dsimp only
  rw [taken_self, taken, List.getElem?_set_self hentry, Option.bind_some, Entry.node?]

theorem FirstFree.store_other (hfirst : s.FirstFree next cells) (node : N) (h : j ≠ i) :
  ((s.taken i next).store s.nextFree node).node? j = s.node? j
  := by
  have hne : s.nextFree.toNat ≠ (s.offsets j).toNat := by
    intro heq
    exact hfirst.fresh j (UInt8.toNat_inj.mp heq.symm)
  rw [node?, store]
  dsimp only
  rw [taken_other s next h, taken, List.getElem?_set_ne hne]
  rfl

/-- The entries behind the first one are free. -/
theorem FirstFree.store_cells (h : s.Sound) (hfirst : s.FirstFree next cells)
    (hi : s.offsets i = unusedEntry) (node : N) :
  ((s.taken i next).store s.nextFree node).FreeCells cells
  := by
  obtain ⟨hhead, hnodup⟩ := List.nodup_cons.mp hfirst.free.nodup
  constructor
  · apply hfirst.visits.congr
    intro c hc
    have hne : s.nextFree.toNat ≠ c := by
      rintro rfl
      exact hhead hc
    rw [link, link, store, taken, List.getElem?_set_ne hne]
  · exact hnodup
  · intro e
    change e ∈ cells ↔ e < s.allocated.toNat ∧ ∀ j, ((taken s i next).offsets j).toNat ≠ e
    constructor
    · intro he
      obtain ⟨hbelow, hnone⟩ := (hfirst.free.mem_iff e).mp (List.mem_cons_of_mem _ he)
      use hbelow
      intro j
      rcases eq_or_ne j i with rfl | hj
      · rw [taken_self]
        rintro rfl
        exact hhead he
      · rw [taken_other s next hj]
        exact hnone j
    · rintro ⟨hbelow, hnone⟩
      have hall : ∀ j, (s.offsets j).toNat ≠ e := by
        intro j hj
        rcases eq_or_ne j i with rfl | hji
        · exact h.offset_ne hbelow hj hi
        · apply hnone j
          rw [taken_other s next hji, hj]
      rcases List.mem_cons.mp ((hfirst.free.mem_iff e).mpr ⟨hbelow, hall⟩) with rfl | he
      · exact absurd (congrArg UInt8.toNat (taken_self s i next)) (hnone i)
      · exact he

theorem FirstFree.store_distinct (h : s.Sound) (hfirst : s.FirstFree next cells) {k : Fin nEntries}
    (hj : (s.taken i next).offsets j ≠ unusedEntry)
    (heq : (s.taken i next).offsets j = (s.taken i next).offsets k) :
  j = k
  := by
  rcases eq_or_ne j i with rfl | hji
  · rcases eq_or_ne k j with rfl | hkj
    · rfl
    · rw [taken_self, taken_other s next hkj] at heq
      exact absurd heq.symm (hfirst.fresh k)
  · rw [taken_other s next hji] at heq hj
    rcases eq_or_ne k i with rfl | hki
    · rw [taken_self] at heq
      exact absurd heq (hfirst.fresh j)
    · rw [taken_other s next hki] at heq
      exact h.distinct j k hj heq

/-- The first free entry is that of the bucket from now on. -/
theorem FirstFree.stores (h : s.Sound) (hfirst : s.FirstFree next cells)
    (hi : s.offsets i = unusedEntry) (node : N) :
  Stores s ((s.taken i next).store s.nextFree node) i node
  := by
  have hunused : s.nextFree ≠ unusedEntry := by
    intro heq
    apply hfirst.fresh i
    rw [hi, heq]
  constructor
  · constructor
    · rw [store, List.length_set]
      exact h.length
    · exact h.sizes
    · intro j k hj heq
      exact hfirst.store_distinct h hj heq
    · intro j hj
      change (taken s i next).offsets j ≠ unusedEntry at hj
      change ((taken s i next).offsets j).toNat < s.allocated.toNat
      rcases eq_or_ne j i with rfl | hji
      · rw [taken_self]
        exact hfirst.below
      · rw [taken_other s next hji] at hj ⊢
        exact h.below j hj
    · intro j hj
      change (taken s i next).offsets j ≠ unusedEntry at hj
      rcases eq_or_ne j i with rfl | hji
      · rw [hfirst.store_node h]
        rfl
      · rw [taken_other s next hji] at hj
        rw [hfirst.store_other node hji]
        exact h.used j hj
    · exact ⟨cells, hfirst.store_cells h hi node⟩
  · constructor
    · change (taken s i next).offsets i ≠ unusedEntry
      rwa [taken_self]
    · exact hfirst.store_node h node
  · intro j hj
    constructor
    · change (taken s i next).offsets j = unusedEntry ↔ _
      rw [taken_other s next hj]
    · intro _
      exact hfirst.store_other node hj

end Taken

theorem takeEntry_eq {t : SpanStorage N} {next : UInt8} {cells : List ℕ} (i : Fin nEntries)
    (hstorage : s.withRoom = some t)
    (hfirst : t.FirstFree next cells) :
  s.takeEntry i = some (t.taken i next, t.nextFree)
  := by
  rw [SpanStorage.takeEntry, hstorage]
  dsimp only [Option.bind_eq_bind, Option.bind_some]
  rw [if_pos hfirst.below, hfirst.entry]
  rfl

/-- With storage that is added where need be, an entry is free. -/
theorem Sound.withRoom (h : s.Sound) (hi : s.offsets i = unusedEntry) :
  ∃ t, s.withRoom = some t ∧ t.Sound ∧ t.nextFree ≠ t.allocated ∧ t.offsets = s.offsets
    ∧ ∀ j, s.offsets j ≠ unusedEntry → t.node? j = s.node? j
  := by
  rw [SpanStorage.withRoom]
  split
  next hfree =>
    have hroom := h.room hfree hi
    obtain ⟨hlt, hsizes⟩ := h.grown hroom
    have hextend := h.extend hfree hlt hsizes
    have hle : SpanStorage.grown s.allocated.toNat ≤ 128 := by
      simp only [List.mem_cons, List.not_mem_nil, or_false] at hsizes
      omega
    use s.extend (SpanStorage.grown s.allocated.toNat), h.addStorage_eq hfree hroom, hextend
    constructor
    · intro heq
      have htoNat := congrArg UInt8.toNat heq
      change s.nextFree.toNat = (UInt8.ofNat _).toNat at htoNat
      rw [hfree, UInt8.toNat_ofNat', Nat.mod_eq_of_lt (by omega)] at htoNat
      omega
    · use rfl
      intro j hj
      exact h.extend_node hj
  next hfree =>
    use s, rfl, h, hfree, rfl
    intro j _
    rfl

/-- With storage that is added where need be, a bucket takes an entry. -/
theorem Sound.takeEntry (h : s.Sound) (hi : s.offsets i = unusedEntry) (node : N) :
  ∃ t entry, s.takeEntry i = some (t, entry) ∧ Stores s (t.store entry node) i node
    ∧ ∀ j, j ≠ i → s.offsets j ≠ unusedEntry → t.offsets j = s.offsets j ∧ t.node? j = s.node? j
  := by
  obtain ⟨t, hsome, ht, hne, hoffsets, hnodes⟩ := h.withRoom hi
  obtain ⟨next, cells, hfirst⟩ := ht.firstFree hne
  have htaken : ∀ j, j ≠ i → (t.taken i next).offsets j = s.offsets j := by
    intro j hj
    rw [taken_other t next hj, hoffsets]
  have hstores := hfirst.stores ht (by rwa [hoffsets]) node
  use t.taken i next, t.nextFree, takeEntry_eq i hsome hfirst
  constructor
  · use hstores.sound, hstores.new
    intro j hj
    obtain ⟨hunused, hnode⟩ := hstores.old j hj
    rw [hoffsets] at hunused hnode
    use hunused
    intro hused
    rw [hnode hused, hnodes j hused]
  · intro j hj hused
    use htaken j hj
    rw [← hnodes j hused, node?, node?, htaken j hj, hoffsets]
    rfl

/-- `insert` stores the node. -/
theorem Sound.insert (h : s.Sound) (hi : s.offsets i = unusedEntry) (node : N) :
  ∃ t, s.insert i node = some t ∧ Stores s t i node
  := by
  obtain ⟨t, entry, htake, hstores, -⟩ := h.takeEntry hi node
  use t.store entry node
  rw [SpanStorage.insert, if_pos hi, htake]
  use rfl

/-- The entry of a bucket joins the free ones. -/
theorem Sound.release (h : s.Sound) (hi : s.offsets i ≠ unusedEntry) :
  (s.release i (s.offsets i)).Sound
  := by
  have hself : (s.release i (s.offsets i)).offsets i = unusedEntry := by
    simp [SpanStorage.release]
  have hother : ∀ j, j ≠ i → (s.release i (s.offsets i)).offsets j = s.offsets j := by
    intro j hj
    simp [SpanStorage.release, hj]
  have hold : ∀ j, (s.release i (s.offsets i)).offsets j ≠ unusedEntry →
      j ≠ i ∧ s.offsets j ≠ unusedEntry := by
    intro j hj
    have hne : j ≠ i := by
      rintro rfl
      exact hj hself
    rw [hother j hne] at hj
    exact ⟨hne, hj⟩
  obtain ⟨cells, hvisits, hnodup, hmem⟩ := h.free
  have hentry : (s.offsets i).toNat < s.entries.length := by
    rw [h.length]
    exact h.below i hi
  have hcell : (s.offsets i).toNat ∉ cells := by
    intro hin
    exact ((hmem _).mp hin).2 i rfl
  constructor
  · rw [SpanStorage.release, List.length_set]
    exact h.length
  · exact h.sizes
  · intro j k hj heq
    obtain ⟨hji, hused⟩ := hold j hj
    have hk := hj
    rw [heq] at hk
    rw [hother j hji, hother k (hold k hk).1] at heq
    exact h.distinct j k hused heq
  · intro j hj
    obtain ⟨hji, hused⟩ := hold j hj
    rw [hother j hji]
    exact h.below j hused
  · intro j hj
    obtain ⟨hji, hused⟩ := hold j hj
    have hne : (s.offsets i).toNat ≠ (s.offsets j).toNat := by
      intro heq
      exact hji (h.distinct i j hi (UInt8.toNat_inj.mp heq)).symm
    rw [node?, hother j hji, SpanStorage.release, List.getElem?_set_ne hne]
    exact h.used j hused
  · use (s.offsets i).toNat :: cells
    constructor
    · apply hvisits.push hcell
      · rw [link, SpanStorage.release, List.getElem?_set_self hentry]
        rfl
      · intro c hc
        rw [link, link, SpanStorage.release, List.getElem?_set_ne hc.symm]
    · exact List.nodup_cons.mpr ⟨hcell, hnodup⟩
    · intro e
      change _ ↔ e < s.allocated.toNat ∧ _
      rw [List.mem_cons, hmem e]
      constructor
      · rintro (rfl | ⟨he, hnone⟩)
        · use h.below i hi
          intro j hj
          have hsame := UInt8.toNat_inj.mp hj
          rcases eq_or_ne j i with rfl | hji
          · rw [hself] at hsame
            exact hi hsame.symm
          · rw [hother j hji] at hsame
            exact hji (h.distinct i j hi hsame.symm).symm
        · use he
          intro j hj
          rcases eq_or_ne j i with rfl | hji
          · have hle := h.le
            rw [hself] at hj
            change 255 = e at hj
            omega
          · rw [hother j hji] at hj
            exact hnone j hj
      · rintro ⟨he, hnone⟩
        rcases eq_or_ne e (s.offsets i).toNat with heq | hne
        · left
          exact heq
        · right
          use he
          intro j hj
          rcases eq_or_ne j i with rfl | hji
          · exact hne hj.symm
          · apply hnone j
            rw [hother j hji, hj]

theorem Sound.erase (h : s.Sound) (hi : s.offsets i ≠ unusedEntry) :
  ∃ t, s.erase i = some t ∧ t.Sound
  := by
  obtain ⟨node, hnode⟩ := Option.isSome_iff_exists.mp (h.used i hi)
  use s.release i (s.offsets i)
  rw [SpanStorage.erase, if_pos hi, hnode]
  exact ⟨rfl, h.release hi⟩

/-- The entry of one bucket becomes that of another one. -/
def moved (s : SpanStorage N) (source toIndex : Fin nEntries) : SpanStorage N :=
  { s with
    offsets := Function.update (Function.update s.offsets toIndex (s.offsets source)) source
      unusedEntry }

theorem Sound.moveLocal (h : s.Sound) {source toIndex : Fin nEntries}
    (hsource : s.offsets source ≠ unusedEntry) (hto : s.offsets toIndex = unusedEntry) :
  ∃ t, s.moveLocal source toIndex = some t ∧ t.Sound
  := by
  have hne : source ≠ toIndex := by
    rintro rfl
    exact hsource hto
  use s.moved source toIndex, if_pos ⟨hsource, hto⟩
  have hnew : (s.moved source toIndex).offsets toIndex = s.offsets source := by
    simp [moved, hne.symm]
  have hsame : ∀ j, j ≠ source → j ≠ toIndex →
      (s.moved source toIndex).offsets j = s.offsets j := by
    intro j hj hj'
    simp [moved, hj, hj']
  -- a bucket that is used took its entry from the bucket `old`, which was used
  have hold : ∀ j, (s.moved source toIndex).offsets j ≠ unusedEntry →
      ∃ old, (s.moved source toIndex).offsets j = s.offsets old
        ∧ (old = source ∧ j = toIndex ∨ old = j ∧ j ≠ source ∧ j ≠ toIndex) := by
    intro j hj
    have hj_ne : j ≠ source := by
      rintro rfl
      apply hj
      simp [moved]
    rcases eq_or_ne j toIndex with rfl | hj'
    · exact ⟨source, hnew, .inl ⟨rfl, rfl⟩⟩
    · exact ⟨j, hsame j hj_ne hj', .inr ⟨rfl, hj_ne, hj'⟩⟩
  constructor
  · exact h.length
  · exact h.sizes
  · intro j k hj heq
    have hk := hj
    rw [heq] at hk
    obtain ⟨old, hoffset, hplace⟩ := hold j hj
    obtain ⟨old', hoffset', hplace'⟩ := hold k hk
    rw [hoffset] at hj
    rw [hoffset, hoffset'] at heq
    have holds := h.distinct old old' hj heq
    rcases hplace with ⟨rfl, rfl⟩ | ⟨rfl, h1, h2⟩
    · rcases hplace' with ⟨rfl, rfl⟩ | ⟨rfl, h3, -⟩
      · rfl
      · exact absurd holds.symm h3
    · rcases hplace' with ⟨rfl, rfl⟩ | ⟨rfl, -, -⟩
      · exact absurd holds h1
      · exact holds
  · intro j hj
    obtain ⟨old, hoffset, -⟩ := hold j hj
    rw [hoffset] at hj ⊢
    exact h.below old hj
  · intro j hj
    obtain ⟨old, hoffset, -⟩ := hold j hj
    rw [hoffset] at hj
    rw [node?, hoffset]
    exact h.used old hj
  · obtain ⟨cells, hvisits, hnodup, hmem⟩ := h.free
    use cells
    constructor
    · exact hvisits
    · exact hnodup
    · intro e
      rw [hmem e]
      apply and_congr_right
      intro he
      constructor
      · intro hnone j hj
        have hused : (s.moved source toIndex).offsets j ≠ unusedEntry := by
          intro hunused
          have hle := h.le
          rw [hunused] at hj
          change 255 = e at hj
          omega
        obtain ⟨old, hoffset, -⟩ := hold j hused
        apply hnone old
        rw [← hoffset, hj]
      · intro hnone j hj
        have hused := h.offset_ne he hj
        rcases eq_or_ne j source with rfl | hsource_ne
        · apply hnone toIndex
          rw [hnew, hj]
        · have hto_ne : j ≠ toIndex := by
            rintro rfl
            exact hused hto
          apply hnone j
          rw [hsame j hsource_ne hto_ne, hj]

/-! ### Sequences of operations -/

variable {spans : ι → SpanStorage N}

theorem sound_update (h : ∀ span, (spans span).Sound) (span : ι) {t : SpanStorage N}
    (ht : t.Sound) (other : ι) :
  (Function.update spans span t other).Sound
  := by
  rw [Function.update_apply]
  split
  · exact ht
  · exact h other

/-- Moving is storing in one span and releasing in the other. -/
theorem moveFromSpan_sound (h : ∀ span, (spans span).Sound) {target fromSpan : ι}
    {fromIndex toIndex : Fin nEntries} (hto : (spans target).offsets toIndex = unusedEntry)
    (hfrom : (spans fromSpan).offsets fromIndex ≠ unusedEntry) :
  ∃ next, moveFromSpan spans target fromSpan fromIndex toIndex = some next
    ∧ ∀ span, (next span).Sound
  := by
  obtain ⟨node, hnode⟩ := Option.isSome_iff_exists.mp ((h fromSpan).used fromIndex hfrom)
  obtain ⟨t, toEntry, htake, hstores, hkept⟩ := (h target).takeEntry hto node
  have hmoved : (Function.update spans target t fromSpan).offsets fromIndex
        = (spans fromSpan).offsets fromIndex
      ∧ (Function.update spans target t fromSpan).node? fromIndex = some node := by
    rw [Function.update_apply]
    split
    next halias =>
      subst halias
      have hne : fromIndex ≠ toIndex := by
        rintro rfl
        exact hfrom hto
      obtain ⟨hoffset, hsame⟩ := hkept fromIndex hne hfrom
      exact ⟨hoffset, hsame.trans hnode⟩
    next => exact ⟨rfl, hnode⟩
  have hsound := sound_update h target hstores.sound
  have hstored : (Function.update spans target (t.store toEntry node) fromSpan).offsets fromIndex
      = (spans fromSpan).offsets fromIndex := by
    rw [← hmoved.1, Function.update_apply, Function.update_apply]
    split
    · rfl
    · rfl
  have hrelease := (hsound fromSpan).release (i := fromIndex) (by rwa [hstored])
  rw [moveFromSpan, if_pos ⟨hto, hfrom⟩, htake]
  dsimp only [Option.bind_eq_bind, Option.bind_some]
  rw [hmoved.2, Option.bind_some, Function.update_idem, hmoved.1, ← hstored]
  exact ⟨_, rfl, sound_update hsound fromSpan hrelease⟩

/-- One operation that respects the preconditions does not fail, and keeps the spans sound. -/
theorem apply_sound (h : ∀ span, (spans span).Sound) {operation : Operation N ι}
    (hallowed : Allowed spans operation) :
  ∃ next, apply spans operation = some next ∧ ∀ span, (next span).Sound
  := by
  cases operation with
  | insert span i node =>
    obtain ⟨t, hinsert, hstores⟩ := (h span).insert hallowed node
    use Function.update spans span t
    rw [apply, onSpan, hinsert]
    use rfl, sound_update h span hstores.sound
  | erase span bucket =>
    obtain ⟨t, herase, ht⟩ := (h span).erase hallowed
    use Function.update spans span t
    rw [apply, onSpan, herase]
    use rfl, sound_update h span ht
  | moveLocal span source toIndex =>
    obtain ⟨t, hmove, ht⟩ := (h span).moveLocal hallowed.1 hallowed.2
    use Function.update spans span t
    rw [apply, onSpan, hmove]
    use rfl, sound_update h span ht
  | moveFromSpan target fromSpan fromIndex toIndex =>
    exact moveFromSpan_sound h hallowed.1 hallowed.2

theorem run_of_sound (h : ∀ span, (spans span).Sound) {operations : List (Operation N ι)}
    (hallowed : AllAllowed spans operations) :
  ∃ last, run spans operations = some last ∧ ∀ span, (last span).Sound
  := by
  induction operations generalizing spans with
  | nil => exact ⟨spans, rfl, h⟩
  | cons operation operations ih =>
    obtain ⟨hfirst, hrest⟩ := hallowed
    obtain ⟨next, happly, hnext⟩ := apply_sound h hfirst
    obtain ⟨last, hrun, hlast⟩ := ih hnext (hrest next happly)
    use last
    rw [run, happly]
    use hrun

/-- Behind every sequence of operations that respects the preconditions, each span is sound, and
storage is only added where all entries are used, and never beyond 128. -/
theorem run_sound (operations : List (Operation N ι))
    (h_allowed : AllAllowed (fun _ => new N) operations) :
  ∃ last, run (fun _ => new N) operations = some last
    ∧ ∀ span, (last span).Sound ∧ (last span).GrowsFull
  := by
  obtain ⟨last, h_run, h_last⟩ := run_of_sound (fun _ => sound_new) h_allowed
  use last, h_run
  intro span
  exact ⟨h_last span, (h_last span).growsFull⟩

theorem run_sound_insert_move :
  ∃ last, run (fun _ : Bool => new ℕ)
      [.insert false ⟨0, by decide⟩ 7,
        .moveFromSpan true false ⟨0, by decide⟩ ⟨1, by decide⟩] = some last
    ∧ ∀ span, (last span).Sound ∧ (last span).GrowsFull
  := by
  apply run_sound
  use rfl
  intro next h
  cases h
  refine ⟨⟨rfl, ?_⟩, fun _ _ => trivial⟩
  decide

end SpanStorage

end QHashPrivate
