import BobUI.Library.BoundedFifo
import BobUI.Network.Hpack.Table

/-!
# The layout of the lookup table

The dynamic entries of a lookup table, the newest first, are the fields between its
cursors.  `Layout` says how the chunks and the cursors fit together; prepending a field
puts it in front of the entries, an eviction drops the last one, and both keep the layout.
-/

namespace HPack

/-- The size HPACK gives an entry. -/
def HeaderField.size (f : HeaderField) : ℕ :=
  f.name.length + f.value.length + 32

/-- The size of the entry is an `unsigned`. -/
def HeaderField.Representable (f : HeaderField) : Prop :=
  f.size < 2 ^ 32

instance (f : HeaderField) : Decidable f.Representable :=
  inferInstanceAs (Decidable (_ < _))

theorem entrySize_of_representable {f : HeaderField} (h : f.Representable) :
  entrySize f.name f.value = some f.size
  := by
  simp only [HeaderField.Representable, HeaderField.size] at h
  simp only [entrySize, HeaderField.size]
  rw [if_neg (by omega), if_neg (by omega)]

theorem entrySize_of_not_representable {f : HeaderField} (h : ¬ f.Representable) :
  entrySize f.name f.value = none
  := by
  simp only [HeaderField.Representable, HeaderField.size] at h
  simp only [entrySize]
  split_ifs <;> first | rfl | omega

namespace FieldLookupTable

/-- The dynamic entries, the newest first. -/
def entries (t : FieldLookupTable) : List HeaderField :=
  (List.range t.nDynamic).map fun i => t.fieldAt (t.beginPos + i)

@[simp]
theorem entries_length (t : FieldLookupTable) :
  t.entries.length = t.nDynamic
  := by
  simp [entries]

theorem entries_getElem? (t : FieldLookupTable) {i : ℕ} (h : i < t.nDynamic) :
  t.entries[i]? = some (t.fieldAt (t.beginPos + i))
  := by
  simp [entries, h]

/-- How the chunks and the cursors fit together. -/
structure Layout (t : FieldLookupTable) : Prop where
  chunk_length : ∀ c ∈ t.chunks, c.fields.length = chunkSize
  address : ∀ i c, t.chunks[i]? = some c → c.address + i + 1 = t.nextAddress
  endPos_eq : t.endPos = t.beginPos + t.nDynamic
  beginPos_le : t.beginPos ≤ chunkSize
  endPos_le : t.endPos ≤ chunkSize * t.chunks.length
  chunks_lt : chunkSize * t.chunks.length < t.endPos + chunkSize
  representable : ∀ f ∈ t.entries, f.Representable
  dataSize_eq : t.dataSize = weightOf HeaderField.size t.entries

/-- A table between two operations: an entry, if there is one, begins in the first chunk. -/
structure Settled (t : FieldLookupTable) : Prop extends Layout t where
  beginPos_lt : t.nDynamic ≠ 0 → t.beginPos < chunkSize

variable {t : FieldLookupTable} {f : HeaderField}

/-- The layout does not depend on the search index. -/
theorem Settled.withSearchIndex (h : Settled t) {s : List SearchEntry} :
  Settled { t with searchIndex := s }
  := by
  constructor
  · constructor
    · apply h.chunk_length
    · apply h.address
    · apply h.endPos_eq
    · apply h.beginPos_le
    · apply h.endPos_le
    · apply h.chunks_lt
    · apply h.representable
    · apply h.dataSize_eq
  · apply h.beginPos_lt

/-- The layout does not depend on the limits of the table. -/
theorem Settled.withLimits (h : Settled t) {maxSize capacity : ℕ} :
  Settled { t with maxTableSize := maxSize, tableCapacity := capacity }
  := by
  constructor
  · constructor
    · apply h.chunk_length
    · apply h.address
    · apply h.endPos_eq
    · apply h.beginPos_le
    · apply h.endPos_le
    · apply h.chunks_lt
    · apply h.representable
    · apply h.dataSize_eq
  · apply h.beginPos_lt

/-! ### The new and the cleared table -/

theorem settled_new (maxSize : ℕ) (use : Bool) :
  Settled (new maxSize use)
  := by
  constructor
  · constructor <;> simp [new, entries, chunkSize]
  · simp [new]

theorem settled_clearDynamicTable (t : FieldLookupTable) :
  Settled t.clearDynamicTable
  := by
  constructor
  · constructor <;> simp [clearDynamicTable, entries, chunkSize]
  · simp [clearDynamicTable]

@[simp]
theorem entries_clearDynamicTable (t : FieldLookupTable) :
  t.clearDynamicTable.entries = []
  := by
  simp [clearDynamicTable, entries]

/-! ### Fields in chunks -/

/-- The chunk of a position, and the offset of the position in it. -/
theorem position_split (pos : ℕ) :
  chunkSize * (pos / chunkSize) + pos % chunkSize = pos ∧ pos % chunkSize < chunkSize
  := ⟨Nat.div_add_mod pos chunkSize, Nat.mod_lt pos (by decide)⟩

/-- A new front chunk shifts the fields by the size of a chunk. -/
theorem fieldAt_pushChunk (t : FieldLookupTable) (pos : ℕ) :
  t.pushChunk.fieldAt (pos + chunkSize) = t.fieldAt pos
  := by
  have hpos : 0 < chunkSize := by decide
  simp only [fieldAt, pushChunk, Nat.add_div_right pos hpos, Nat.add_mod_right]
  congr 1

/-- The field put in the slot before the newest one is found there. -/
theorem fieldAt_pushFront_self {size : ℕ} (hbegin : 0 < t.beginPos) (hle : t.beginPos ≤ chunkSize)
    (hchunks : t.chunks ≠ []) (hlength : ∀ c ∈ t.chunks, c.fields.length = chunkSize) :
  (t.pushFront f size).fieldAt (t.beginPos - 1) = f
  := by
  obtain ⟨c, cs, hcs⟩ := List.exists_cons_of_ne_nil hchunks
  have hc : c.fields.length = chunkSize := hlength c (by simp [hcs])
  have hdiv : (t.beginPos - 1) / chunkSize = 0 := Nat.div_eq_of_lt (by omega)
  have hmod : (t.beginPos - 1) % chunkSize = t.beginPos - 1 := Nat.mod_eq_of_lt (by omega)
  simp only [fieldAt, pushFront, hcs, hdiv, hmod]
  simp [hc, show t.beginPos - 1 < chunkSize by omega]

/-- The other fields stay where they are. -/
theorem fieldAt_pushFront_of_ne {size pos : ℕ} (hpos : pos ≠ t.beginPos - 1) :
  (t.pushFront f size).fieldAt pos = t.fieldAt pos
  := by
  cases hcs : t.chunks with
  | nil => simp [fieldAt, pushFront, hcs]
  | cons c cs =>
    obtain ⟨hsplit, -⟩ := position_split pos
    cases hdiv : pos / chunkSize with
    | zero =>
      have hmod : t.beginPos - 1 ≠ pos % chunkSize := by
        rw [hdiv] at hsplit
        omega
      simp [fieldAt, pushFront, hcs, hdiv, List.getElem!_eq_getElem?_getD,
        List.getElem?_set_ne hmod]
    | succ n => simp [fieldAt, pushFront, hcs, hdiv, List.getElem!_eq_getElem?_getD]

/-- Dropping the last chunk keeps the fields of the others. -/
theorem fieldAt_dropLast {pos : ℕ} (hpos : pos / chunkSize + 1 < t.chunks.length) :
  { t with chunks := t.chunks.dropLast }.fieldAt pos = t.fieldAt pos
  := by
  simp only [fieldAt, List.getElem!_eq_getElem?_getD, List.getElem?_dropLast]
  rw [if_pos (by omega)]

/-! ### Prepending -/

theorem entries_pushChunk (hbegin : t.beginPos = 0) :
  t.pushChunk.entries = t.entries
  := by
  apply List.map_congr_left
  intro i _
  rw [show t.pushChunk.beginPos + i = i + chunkSize from Nat.add_comm chunkSize i,
    fieldAt_pushChunk, hbegin, Nat.zero_add]

theorem layout_pushChunk (h : Layout t) (hbegin : t.beginPos = 0) :
  Layout t.pushChunk
  := by
  have hentries := entries_pushChunk hbegin
  constructor
  · intro c hc
    rcases List.mem_cons.mp hc with rfl | hc
    · apply List.length_replicate
    · apply h.chunk_length c hc
  · intro i c hc
    cases i with
    | zero =>
      obtain rfl : _ = c := Option.some.inj hc
      rfl
    | succ i =>
      have := h.address i c hc
      simp only [pushChunk]
      omega
  · have := h.endPos_eq
    simp only [pushChunk]
    omega
  · apply Nat.le_refl
  · have := h.endPos_le
    simp only [pushChunk, List.length_cons, Nat.mul_succ]
    omega
  · have := h.chunks_lt
    simp only [pushChunk, List.length_cons, Nat.mul_succ]
    omega
  · rw [hentries]
    apply h.representable
  · rw [hentries]
    apply h.dataSize_eq

section PushFront

variable {t : FieldLookupTable} (h : Layout t) (hbegin : 0 < t.beginPos) (hchunks : t.chunks ≠ [])
include h hbegin hchunks

theorem entries_pushFront (f : HeaderField) (size : ℕ) :
  (t.pushFront f size).entries = f :: t.entries
  := by
  have hfirst : (t.pushFront f size).fieldAt (t.beginPos - 1) = f :=
    fieldAt_pushFront_self hbegin h.beginPos_le hchunks h.chunk_length
  have hn : (t.pushFront f size).nDynamic = t.nDynamic + 1 := rfl
  rw [entries, hn, List.range_succ_eq_map, List.map_cons, List.map_map]
  congr 1
  apply List.map_congr_left
  intro i _
  have hpos : (t.pushFront f size).beginPos + (i + 1) = t.beginPos + i := by
    simp only [pushFront]
    omega
  rw [Function.comp_apply, Nat.succ_eq_add_one, hpos, fieldAt_pushFront_of_ne (by omega)]

theorem settled_pushFront {f : HeaderField} (hf : f.Representable) :
  Settled (t.pushFront f f.size)
  := by
  have hentries := entries_pushFront h hbegin hchunks f f.size
  have hlength : (t.pushFront f f.size).chunks.length = t.chunks.length := by
    simp [pushFront]
  obtain ⟨c₀, cs, hcs⟩ := List.exists_cons_of_ne_nil hchunks
  constructor
  · constructor
    · intro c hc
      simp only [pushFront, hcs, List.modify_zero_cons, List.mem_cons] at hc
      rcases hc with rfl | hc
      · rw [List.length_set]
        apply h.chunk_length c₀
        simp [hcs]
      · apply h.chunk_length c
        simp [hcs, hc]
    · intro i c hc
      simp only [pushFront, hcs, List.modify_zero_cons] at hc
      cases i with
      | zero =>
        obtain rfl : _ = c := Option.some.inj hc
        apply h.address 0 c₀
        simp [hcs]
      | succ i =>
        apply h.address (i + 1) c
        rw [hcs]
        apply hc
    · have := h.endPos_eq
      simp only [pushFront]
      omega
    · apply Nat.le_trans (Nat.sub_le _ _) h.beginPos_le
    · rw [hlength]
      apply h.endPos_le
    · rw [hlength]
      apply h.chunks_lt
    · rw [hentries]
      intro g hg
      rcases List.mem_cons.mp hg with rfl | hg
      · apply hf
      · apply h.representable g hg
    · rw [hentries, BoundedFifo.weightOf_cons, ← h.dataSize_eq, Nat.add_comm]
      rfl
  · intro _
    apply Nat.lt_of_lt_of_le _ h.beginPos_le
    apply Nat.sub_lt hbegin Nat.one_pos

end PushFront

/-- The table with room for a field before its newest one. -/
def withRoom (t : FieldLookupTable) : FieldLookupTable :=
  if t.beginPos = 0 then t.pushChunk else t

theorem layout_withRoom (h : Layout t) :
  Layout t.withRoom ∧ 0 < t.withRoom.beginPos ∧ t.withRoom.chunks ≠ [] ∧
    t.withRoom.entries = t.entries
  := by
  by_cases hbegin : t.beginPos = 0
  · simp only [withRoom, if_pos hbegin]
    use layout_pushChunk h hbegin, (show 0 < chunkSize by decide), List.cons_ne_nil _ _
    apply entries_pushChunk hbegin
  · have hne : t.chunks ≠ [] := by
      intro hnil
      have h₁ := h.endPos_le
      have h₂ := h.endPos_eq
      rw [hnil] at h₁
      simp only [List.length_nil] at h₁
      omega
    simp only [withRoom, if_neg hbegin]
    use h, Nat.pos_of_ne_zero hbegin, hne

/-! ### Eviction -/

section PopBack

variable {t : FieldLookupTable} (h : Settled t) (hn : t.nDynamic ≠ 0)
include h hn

theorem entries_eq_append_back :
  t.entries = t.entries.dropLast ++ [t.back]
  := by
  obtain ⟨n, hn⟩ := Nat.exists_eq_succ_of_ne_zero hn
  have hpos : t.endPos - 1 = t.beginPos + n := by
    rw [h.endPos_eq]
    omega
  rw [entries, hn, List.range_succ, List.map_append, List.map_singleton, List.dropLast_concat,
    back, hpos]

theorem entries_popBack :
  t.popBack.entries = t.entries.dropLast
  := by
  obtain ⟨n, hn⟩ := Nat.exists_eq_succ_of_ne_zero hn
  have hend := h.endPos_eq
  have hle := h.endPos_le
  have hdrop : t.entries.dropLast = (List.range n).map fun i => t.fieldAt (t.beginPos + i) := by
    rw [entries, hn, List.range_succ, List.map_append, List.map_singleton, List.dropLast_concat]
  rw [hdrop]
  simp only [popBack]
  split_ifs with hempty hedge
  · obtain rfl : n = 0 := by omega
    simp [entries, hn]
  · simp only [entries, hn]
    apply List.map_congr_left
    intro i hi
    have hi := List.mem_range.mp hi
    apply fieldAt_dropLast
    have h₁ := position_split (t.beginPos + i)
    have h₂ := position_split (t.endPos - 1)
    simp only [chunkSize] at *
    omega
  · simp [entries, hn, fieldAt]

/-- The chunks and the cursors after an eviction: the table is empty and keeps its chunk,
or loses a chunk with nothing left in it, or keeps its chunks. -/
theorem popBack_cases :
  let t' := t.popBack
  t'.nDynamic = t.nDynamic - 1 ∧ t'.nextAddress = t.nextAddress ∧
    (t.nDynamic = 1 ∧ t.chunks.length = 1 ∧ t'.chunks = t.chunks ∧ t'.beginPos = 16 ∧
        t'.endPos = 16 ∨
      1 < t.nDynamic ∧ t'.beginPos = t.beginPos ∧ t'.endPos = t.endPos - 1 ∧
        (t'.chunks = t.chunks.dropLast ∧ t.endPos - 1 = 16 * (t.chunks.length - 1) ∨
          t'.chunks = t.chunks ∧ 16 * (t.chunks.length - 1) < t.endPos - 1))
  := by
  have hlt := h.beginPos_lt hn
  have hend := h.endPos_eq
  have hle := h.endPos_le
  have hcount := h.chunks_lt
  simp only [chunkSize] at *
  by_cases hempty : t.endPos - 1 = t.beginPos
  · have hone : t.nDynamic = 1 ∧ t.chunks.length = 1 := by omega
    simp [popBack, chunkSize, hempty, hone]
  · have hmore : 1 < t.nDynamic := by omega
    by_cases hedge : (t.endPos - 1) % 16 = 0
    · have hlast : t.endPos - 1 = 16 * (t.chunks.length - 1) := by omega
      simp [popBack, chunkSize, hempty, hedge, hmore, ← hlast]
    · have hlast : 16 * (t.chunks.length - 1) < t.endPos - 1 := by omega
      simp [popBack, chunkSize, hempty, hedge, hmore, hlast]

theorem dataSize_popBack :
  t.popBack.dataSize = weightOf HeaderField.size t.popBack.entries
  := by
  have hlast := entries_eq_append_back h hn
  have hback : t.back.Representable := by
    apply h.representable
    rw [hlast]
    apply List.mem_append_right _ (List.mem_singleton_self _)
  have hsize : t.popBack.dataSize = t.dataSize - t.back.size := by
    simp only [popBack, entrySize_of_representable hback]
    split_ifs <;> rfl
  rw [hsize, entries_popBack h hn, h.dataSize_eq, hlast]
  simp

theorem settled_popBack :
  Settled t.popBack
  := by
  have hdata := dataSize_popBack h hn
  have hrepresentable : ∀ f ∈ t.popBack.entries, f.Representable := by
    rw [entries_popBack h hn]
    intro f hf
    apply h.representable f (List.mem_of_mem_dropLast hf)
  have hlt := h.beginPos_lt hn
  have hend := h.endPos_eq
  have hle := h.endPos_le
  have hcount := h.chunks_lt
  simp only [chunkSize] at hlt hend hle hcount
  have hsub : t.popBack.chunks.Sublist t.chunks ∧
      ∀ (i : ℕ) c, t.popBack.chunks[i]? = some c → t.chunks[i]? = some c := by
    obtain ⟨-, -, ⟨-, -, hchunks, -⟩ | ⟨-, -, -, ⟨hchunks, -⟩ | ⟨hchunks, -⟩⟩⟩ := popBack_cases h hn
    · rw [hchunks]
      use List.Sublist.refl _
      intro i c hc
      apply hc
    · rw [hchunks]
      use List.dropLast_sublist _
      intro i c hc
      rw [List.getElem?_dropLast] at hc
      split_ifs at hc
      apply hc
    · rw [hchunks]
      use List.Sublist.refl _
      intro i c hc
      apply hc
  obtain ⟨hcount', haddress, hcases⟩ := popBack_cases h hn
  have harith : t.popBack.endPos = t.popBack.beginPos + t.popBack.nDynamic ∧
      t.popBack.beginPos ≤ 16 ∧ t.popBack.endPos ≤ 16 * t.popBack.chunks.length ∧
      16 * t.popBack.chunks.length < t.popBack.endPos + 16 ∧
      (t.popBack.nDynamic ≠ 0 → t.popBack.beginPos < 16) := by
    obtain ⟨h₁, h₂, hchunks, hb, he⟩ | ⟨h₁, hb, he, ⟨hchunks, h₂⟩ | ⟨hchunks, h₂⟩⟩ := hcases
    · rw [hb, he, hcount', hchunks, h₁, h₂]
      omega
    · rw [hb, he, hcount', hchunks, List.length_dropLast]
      omega
    · rw [hb, he, hcount', hchunks]
      omega
  obtain ⟨h₁, h₂, h₃, h₄, h₅⟩ := harith
  constructor
  · constructor
    · intro c hc
      apply h.chunk_length c (hsub.1.subset hc)
    · intro i c hc
      rw [haddress]
      apply h.address i c (hsub.2 i c hc)
    · apply h₁
    · apply h₂
    · apply h₃
    · apply h₄
    · apply hrepresentable
    · apply hdata
  · apply h₅

end PopBack

@[simp]
theorem entries_eraseBackKey (t : FieldLookupTable) :
  t.eraseBackKey.entries = t.entries
  := by
  rw [eraseBackKey]
  split_ifs <;> rfl

@[simp]
theorem entries_insertFrontKey (t : FieldLookupTable) :
  t.insertFrontKey.entries = t.entries
  := by
  rw [insertFrontKey]
  split_ifs <;> rfl

theorem Settled.eraseBackKey (h : Settled t) :
  Settled t.eraseBackKey
  := by
  rw [FieldLookupTable.eraseBackKey]
  split_ifs
  · apply h.withSearchIndex
  · apply h

theorem Settled.insertFrontKey (h : Settled t) :
  Settled t.insertFrontKey
  := by
  rw [FieldLookupTable.insertFrontKey]
  split_ifs
  · apply h.withSearchIndex
  · apply h

/-- `t'` has the limits of `t`, and an index if `t` has one. -/
structure SameLimits (t t' : FieldLookupTable) : Prop where
  tableCapacity_eq : t'.tableCapacity = t.tableCapacity
  maxTableSize_eq : t'.maxTableSize = t.maxTableSize
  useIndex_eq : t'.useIndex = t.useIndex

theorem SameLimits.refl (t : FieldLookupTable) :
  SameLimits t t
  := ⟨rfl, rfl, rfl⟩

theorem SameLimits.trans {t' t'' : FieldLookupTable} (h : SameLimits t t')
    (h' : SameLimits t' t'') :
  SameLimits t t''
  := by
  constructor
  · rw [h'.tableCapacity_eq, h.tableCapacity_eq]
  · rw [h'.maxTableSize_eq, h.maxTableSize_eq]
  · rw [h'.useIndex_eq, h.useIndex_eq]

theorem sameLimits_eraseBackKey (t : FieldLookupTable) :
  SameLimits t t.eraseBackKey
  := by
  rw [eraseBackKey]
  split_ifs
  · constructor <;> rfl
  · apply SameLimits.refl

theorem sameLimits_insertFrontKey (t : FieldLookupTable) :
  SameLimits t t.insertFrontKey
  := by
  rw [insertFrontKey]
  split_ifs
  · constructor <;> rfl
  · apply SameLimits.refl

theorem sameLimits_popBack (t : FieldLookupTable) :
  SameLimits t t.popBack
  := by
  simp only [popBack]
  split_ifs
  · constructor <;> rfl
  · constructor <;> rfl
  · constructor <;> rfl

theorem sameLimits_withRoom (t : FieldLookupTable) :
  SameLimits t t.withRoom
  := by
  rw [withRoom]
  split_ifs
  · constructor <;> rfl
  · apply SameLimits.refl

@[simp]
theorem nDynamic_eraseBackKey (t : FieldLookupTable) :
  t.eraseBackKey.nDynamic = t.nDynamic
  := by
  rw [← entries_length, entries_eraseBackKey, entries_length]

/-- An eviction drops the oldest entry. -/
theorem evictEntry_spec (h : Settled t) (hn : t.nDynamic ≠ 0) :
  Settled t.evictEntry ∧ t.evictEntry.entries = t.entries.dropLast ∧ SameLimits t t.evictEntry
  := by
  have h' := h.eraseBackKey
  have hn' : t.eraseBackKey.nDynamic ≠ 0 := by simpa using hn
  rw [evictEntry, if_neg hn]
  constructor
  · apply settled_popBack h' hn'
  constructor
  · rw [entries_popBack h' hn', entries_eraseBackKey]
  · apply SameLimits.trans (sameLimits_eraseBackKey t) (sameLimits_popBack _)

/-- What evictions keep, the loop of evictions keeps. -/
theorem evictWhile_induction {motive : FieldLookupTable → Prop} (tooFull : FieldLookupTable → Bool)
    (hevict : ∀ t, t.nDynamic ≠ 0 → motive t → motive t.evictEntry) {n : ℕ} (h : motive t) :
  motive (evictWhile tooFull n t)
  := by
  induction n generalizing t with
  | zero => apply h
  | succ n ih =>
    rw [evictWhile]
    split_ifs with hturn
    · apply ih (hevict t hturn.1 h)
    · apply h

/-- A loop of evictions that runs while there are more than `b` octets of entries drops
entries until there are at most `b`. -/
theorem evictWhile_spec (tooFull : FieldLookupTable → Bool) {b n : ℕ} (h : Settled t)
    (hn : t.nDynamic = n)
    (hfull : ∀ t', t'.tableCapacity = t.tableCapacity → t'.dataSize ≤ t.dataSize →
      (tooFull t' = true ↔ b < t'.dataSize)) :
  Settled (evictWhile tooFull n t) ∧
    (evictWhile tooFull n t).entries = BoundedFifo.trim HeaderField.size b t.entries ∧
    SameLimits t (evictWhile tooFull n t)
  := by
  induction n generalizing t with
  | zero =>
    have hnil : t.entries = [] := by
      rw [← List.length_eq_zero_iff, entries_length, hn]
    use h
    simp only [evictWhile, hnil]
    use (BoundedFifo.trim_of_le (Nat.zero_le b)).symm
    apply SameLimits.refl
  | succ n ih =>
    have hne : t.nDynamic ≠ 0 := by omega
    rw [evictWhile]
    split_ifs with hturn
    · obtain ⟨hsettled, hentries, hlimits⟩ := evictEntry_spec h hne
      have hlast := entries_eq_append_back h hne
      have hdata : t.evictEntry.dataSize ≤ t.dataSize := by
        rw [h.dataSize_eq, hlast, hsettled.dataSize_eq, hentries]
        simp
      have hcount : t.evictEntry.nDynamic = n := by
        rw [← entries_length, hentries, List.length_dropLast, entries_length]
        omega
      obtain ⟨h₁, h₂, h₃⟩ := ih hsettled hcount (by
        intro t' hcap hle
        apply hfull t' (by rw [hcap, hlimits.tableCapacity_eq]) (Nat.le_trans hle hdata))
      use h₁
      constructor
      · rw [h₂, hentries]
        conv_rhs => rw [hlast]
        rw [BoundedFifo.trim_concat]
        rw [← hlast, ← h.dataSize_eq]
        apply (hfull t rfl (Nat.le_refl _)).mp hturn.2
      · apply SameLimits.trans hlimits h₃
    · have hfits : t.dataSize ≤ b := by
        rw [← Nat.not_lt, ← hfull t rfl (Nat.le_refl _)]
        intro hbig
        apply hturn ⟨hne, hbig⟩
      use h
      constructor
      · rw [h.dataSize_eq] at hfits
        rw [BoundedFifo.trim_of_le hfits]
      · apply SameLimits.refl

/-! ### The operations -/

/-- A settled table whose entries fit its capacity. -/
structure Wf (t : FieldLookupTable) : Prop extends Settled t where
  fits : t.dataSize ≤ t.tableCapacity

theorem wf_new (maxSize : ℕ) (use : Bool) :
  Wf (new maxSize use)
  := by
  constructor
  · apply settled_new
  · apply Nat.zero_le

theorem Wf.ofEntries (h : Settled t)
    (hfits : weightOf HeaderField.size t.entries ≤ t.tableCapacity) :
  Wf t
  := by
  constructor
  · apply h
  · rw [h.dataSize_eq]
    apply hfits

theorem Wf.clearDynamicTable :
  Wf t.clearDynamicTable
  := by
  constructor
  · apply settled_clearDynamicTable
  · apply Nat.zero_le

/-- A field whose size is not an `unsigned` is refused. -/
theorem prependField_refused (hf : ¬ f.Representable) :
  t.prependField f.name f.value = (false, t)
  := by
  simp only [prependField, entrySize_of_not_representable hf]

/-- A field that exceeds the capacity empties the table. -/
theorem prependField_large (hf : f.Representable) (hlarge : t.tableCapacity < f.size) :
  t.prependField f.name f.value = (true, t.clearDynamicTable)
  := by
  simp only [prependField, entrySize_of_representable hf]
  rw [if_pos hlarge]

/-- The table from which `prependField` has evicted enough to add an entry of size `size`. -/
def evictFor (t : FieldLookupTable) (size : ℕ) : FieldLookupTable :=
  evictWhile (fun t => t.tableCapacity - t.dataSize < size) t.nDynamic t

/-- Any other field is added in front of what fits beside it. -/
theorem prependField_fitting (hf : f.Representable) (hsmall : f.size ≤ t.tableCapacity) :
  t.prependField f.name f.value
    = (true, ((t.evictFor f.size).withRoom.pushFront f f.size).insertFrontKey)
  := by
  simp only [prependField, entrySize_of_representable hf]
  rw [if_neg (Nat.not_lt.mpr hsmall)]
  rfl

theorem evictFor_spec (h : Wf t) {size : ℕ} (hsize : size ≤ t.tableCapacity) :
  Settled (t.evictFor size) ∧
    (t.evictFor size).entries
      = BoundedFifo.trim HeaderField.size (t.tableCapacity - size) t.entries ∧
    SameLimits t (t.evictFor size)
  := by
  apply evictWhile_spec _ h.toSettled rfl
  intro t' hcap hle
  have hfits := h.fits
  rw [decide_eq_true_eq, hcap]
  omega

/-- `prependField` pushes the field on the bounded queue of entries. -/
theorem prependField_spec (h : Wf t) (hf : f.Representable) :
  let t' := (t.prependField f.name f.value).2
  Wf t' ∧ t'.entries = BoundedFifo.trim HeaderField.size t.tableCapacity (f :: t.entries) ∧
    SameLimits t t'
  := by
  intro t'
  by_cases hsmall : f.size ≤ t.tableCapacity
  · obtain ⟨h₁, h₂, h₃⟩ := evictFor_spec h hsmall
    obtain ⟨hlayout, hbegin, hchunks, hsame⟩ := layout_withRoom h₁.toLayout
    have ht' : t' = ((t.evictFor f.size).withRoom.pushFront f f.size).insertFrontKey := by
      simp only [t', prependField_fitting hf hsmall]
    have hentries : t'.entries
        = BoundedFifo.trim HeaderField.size t.tableCapacity (f :: t.entries) := by
      rw [ht', entries_insertFrontKey, entries_pushFront hlayout hbegin hchunks, hsame, h₂,
        BoundedFifo.trim_cons t.entries hsmall]
    have hlimits : SameLimits t t' := by
      rw [ht']
      apply SameLimits.trans (SameLimits.trans h₃ (sameLimits_withRoom _))
      apply SameLimits.trans _ (sameLimits_insertFrontKey _)
      constructor <;> rfl
    have hsettled : Settled t' := by
      rw [ht']
      apply (settled_pushFront hlayout hbegin hchunks hf).insertFrontKey
    constructor
    · apply Wf.ofEntries hsettled
      rw [hentries, hlimits.tableCapacity_eq]
      apply BoundedFifo.weightOf_trim_le
    · use hentries
  · have hlarge := Nat.not_le.mp hsmall
    have ht' : t' = t.clearDynamicTable := by
      simp only [t', prependField_large hf hlarge]
    rw [ht', entries_clearDynamicTable, BoundedFifo.trim_cons_of_lt t.entries hlarge]
    use Wf.clearDynamicTable, rfl
    constructor <;> rfl

theorem prependField_accepted (hf : f.Representable) :
  (t.prependField f.name f.value).1 = true
  := by
  by_cases hsmall : f.size ≤ t.tableCapacity
  · rw [prependField_fitting hf hsmall]
  · rw [prependField_large hf (Nat.not_le.mp hsmall)]

/-- `updateDynamicTableSize` resizes the bounded queue of entries, or is refused. -/
theorem updateDynamicTableSize_spec (h : Wf t) (size : ℕ) :
  let t' := (t.updateDynamicTableSize size).2
  Wf t' ∧ t'.maxTableSize = t.maxTableSize ∧ t'.useIndex = t.useIndex ∧
    ((t.updateDynamicTableSize size).1 = true ∧ (size = 0 ∨ size ≤ t.maxTableSize) ∧
        t'.tableCapacity = size ∧ t'.entries = BoundedFifo.trim HeaderField.size size t.entries ∨
      (t.updateDynamicTableSize size).1 = false ∧ size ≠ 0 ∧ t.maxTableSize < size ∧ t' = t)
  := by
  simp only [updateDynamicTableSize]
  split_ifs with hzero hmax
  · subst hzero
    have hentries : { t.clearDynamicTable with tableCapacity := 0 }.entries = [] := rfl
    have hpos : ∀ f ∈ t.entries, 0 < f.size := by
      intro f _
      simp [HeaderField.size]
    constructor
    · apply Wf.ofEntries (settled_clearDynamicTable t).withLimits
      simp [hentries]
    · use rfl, rfl
      left
      use rfl, (Or.inl rfl), rfl
      rw [hentries, BoundedFifo.trim_zero hpos]
  · use h, rfl, rfl
    right
    use rfl, hzero, hmax
  · have hresized : Settled { t with tableCapacity := size } := h.toSettled.withLimits
    obtain ⟨h₁, h₂, h₃⟩ := evictWhile_spec (b := size)
      (fun t => t.dataSize > t.tableCapacity) hresized rfl (by
        intro t' hcap _
        rw [decide_eq_true_eq, hcap])
    constructor
    · apply Wf.ofEntries h₁
      rw [h₂, h₃.tableCapacity_eq]
      apply BoundedFifo.weightOf_trim_le
    · use h₃.maxTableSize_eq, h₃.useIndex_eq
      left
      use rfl, (Or.inr (Nat.not_lt.mp hmax)), h₃.tableCapacity_eq, h₂

theorem Wf.setMaxDynamicTableSize (h : Wf t) (size : ℕ) :
  Wf (t.setMaxDynamicTableSize size)
  := by
  constructor
  · apply h.toSettled.withLimits
  · apply h.fits

/-- `field` finds the static entries, and then the dynamic ones. -/
theorem field_eq (index : ℕ) :
  t.field (index + 1) = (staticPart ++ t.entries)[index]?
  := by
  simp only [field, indexIsValid, Nat.add_sub_cancel]
  by_cases hstatic : index < staticPart.length
  · rw [List.getElem?_append_left hstatic]
    have : index + 1 ≤ staticPart.length + t.nDynamic := by omega
    simp [hstatic, this]
  · rw [List.getElem?_append_right (Nat.not_lt.mp hstatic)]
    by_cases hdynamic : index - staticPart.length < t.nDynamic
    · have : index + 1 ≤ staticPart.length + t.nDynamic := by omega
      rw [entries_getElem? t hdynamic]
      simp [hstatic, this, Nat.add_comm t.beginPos]
    · have : ¬ index + 1 ≤ staticPart.length + t.nDynamic := by omega
      have hnone : t.entries[index - staticPart.length]? = none := by
        rw [List.getElem?_eq_none_iff, entries_length]
        omega
      rw [hnone]
      simp [this]

end FieldLookupTable

end HPack
