import BobUI.Network.Hpack.TableLayout
import Mathlib.Data.List.Lex
import Mathlib.Data.Prod.Lex
import Mathlib.Order.Lex

/-!
# The search index of the lookup table

`SearchEntry::operator<` compares names, values, and then the places of the chunks, which
change whenever a chunk is pushed in front.  On fields shorter than `2 ^ 31` octets it is
the order of `rank`, which does not change: an entry keeps its rank for as long as it
lives, and the rank of an entry is below the rank of every equal entry added after it.
So the index stays the ordered set of the keys of the dynamic entries.
-/

namespace HPack

/-- The octets of a string as numbers. -/
def text (s : Octets) : List ℕ :=
  s.map UInt8.toNat

theorem text_injective :
  Function.Injective text
  := List.map_injective_iff.mpr fun _ _ => UInt8.toNat_inj.mp

/-- The name and the value are short enough for the difference of two sizes to be an `int`. -/
structure HeaderField.Short (f : HeaderField) : Prop where
  name_lt : f.name.length < 2 ^ 31
  value_lt : f.value.length < 2 ^ 31

instance (f : HeaderField) : Decidable f.Short :=
  decidable_of_iff (f.name.length < 2 ^ 31 ∧ f.value.length < 2 ^ 31)
    ⟨fun h => ⟨h.1, h.2⟩, fun h => ⟨h.1, h.2⟩⟩

/-! ### The comparison of strings -/

/-- `compare` without the conversion to `int`. -/
def difference (lhs rhs : Octets) : ℤ :=
  if memcmp lhs rhs ≠ 0 then memcmp lhs rhs else lhs.length - rhs.length

theorem difference_cons (a b : UInt8) (lhs rhs : Octets) :
  difference (a :: lhs) (b :: rhs)
    = if a = b then difference lhs rhs else (a.toNat : ℤ) - b.toNat
  := by
  simp only [difference, memcmp]
  by_cases hab : a = b
  · simp [hab]
  · have hne : (a.toNat : ℤ) - b.toNat ≠ 0 := by
      intro h
      apply hab
      apply UInt8.toNat_inj.mp
      omega
    simp only [if_neg hab, if_pos hne]

theorem compare_eq_difference {lhs rhs : Octets} (hlhs : lhs.length < 2 ^ 31)
    (hrhs : rhs.length < 2 ^ 31) :
  compare lhs rhs = difference lhs rhs
  := by
  have hsize : toInt32 ((lhs.length : ℤ) - rhs.length) = lhs.length - rhs.length := by
    rw [toInt32, Int.bmod_eq_of_le_mul_two] <;> omega
  simp only [compare, difference, hsize]

theorem difference_eq_zero_iff (lhs rhs : Octets) :
  difference lhs rhs = 0 ↔ lhs = rhs
  := by
  induction lhs generalizing rhs with
  | nil =>
    cases rhs with
    | nil => simp [difference, memcmp]
    | cons b rhs =>
      simp only [difference, memcmp, List.length_nil, List.length_cons]
      simp
      omega
  | cons a lhs ih =>
    cases rhs with
    | nil =>
      simp only [difference, memcmp, List.length_nil, List.length_cons]
      simp
      omega
    | cons b rhs =>
      rw [difference_cons, List.cons.injEq]
      split_ifs with hab
      · rw [ih rhs, and_iff_right hab]
      · have hne := mt UInt8.toNat_inj.mp hab
        simp only [hab, false_and, iff_false]
        omega

theorem difference_neg_iff (lhs rhs : Octets) :
  difference lhs rhs < 0 ↔ text lhs < text rhs
  := by
  induction lhs generalizing rhs with
  | nil =>
    cases rhs with
    | nil => simp [difference, memcmp, text]
    | cons b rhs =>
      simp only [difference, memcmp, text, List.length_nil, List.length_cons]
      simp
      omega
  | cons a lhs ih =>
    cases rhs with
    | nil =>
      simp only [difference, memcmp, text, List.length_nil, List.length_cons]
      simp
      omega
    | cons b rhs =>
      rw [difference_cons, text, text, List.map_cons, List.map_cons, List.cons_lt_cons_iff]
      split_ifs with hab
      · subst hab
        rw [ih rhs, text, text]
        simp
      · have hne := mt UInt8.toNat_inj.mp hab
        simp only [hne, false_and, or_false]
        omega

/-! ### The rank of a key -/

/-- The rank of the place a key points to: the younger the entry, the greater. -/
def SearchEntry.place (k : SearchEntry) : ℕ :=
  match k.chunk with
  | none => 0
  | some address => chunkSize * address + (chunkSize - k.offset)

/-- The rank of a key. -/
def SearchEntry.rank (k : SearchEntry) : List ℕ ×ₗ List ℕ ×ₗ ℕ :=
  toLex (text k.field.name, toLex (text k.field.value, k.place))

/-- The order of the ranks. -/
def rankBelow (lhs rhs : SearchEntry) : Bool :=
  decide (lhs.rank < rhs.rank)

theorem rank_lt_iff (lhs rhs : SearchEntry) :
  lhs.rank < rhs.rank ↔ text lhs.field.name < text rhs.field.name ∨
    lhs.field.name = rhs.field.name ∧ (text lhs.field.value < text rhs.field.value ∨
      lhs.field.value = rhs.field.value ∧ lhs.place < rhs.place)
  := by
  simp only [SearchEntry.rank, Prod.Lex.toLex_lt_toLex, text_injective.eq_iff]

/-- A key that is not below the lookup of a field, but below a key of that field, is a key
of that field. -/
theorem field_eq_of_rank (k k' l : SearchEntry) (hfield : l.field = k'.field)
    (hlt : k.rank < k'.rank) (hnlt : ¬ k.rank < l.rank) :
  k.field = k'.field
  := by
  rw [rank_lt_iff] at hlt
  rw [rank_lt_iff, hfield] at hnlt
  obtain ⟨⟨n, v⟩, c, o⟩ := k
  rcases hlt with h | ⟨hname, h | ⟨hvalue, -⟩⟩
  · cases hnlt (Or.inl h)
  · cases hnlt (Or.inr ⟨hname, Or.inl h⟩)
  · cases hname
    cases hvalue
    rfl

/-- A key of the index: it points to a slot of a chunk. -/
def SearchEntry.Pointed (k : SearchEntry) : Prop :=
  k.chunk.isSome ∧ k.offset < chunkSize

theorem strictOn_rankBelow :
  OrderedSet.StrictOn rankBelow SearchEntry.Pointed
  := by
  apply OrderedSet.StrictOn.ofRank SearchEntry.rank
  · intro a b _ _
    apply decide_eq_true_iff
  · rintro ⟨⟨n, v⟩, c, o⟩ ⟨⟨n', v'⟩, c', o'⟩ ⟨hc, ho⟩ ⟨hc', ho'⟩ h
    obtain ⟨address, rfl⟩ := Option.isSome_iff_exists.mp hc
    obtain ⟨address', rfl⟩ := Option.isSome_iff_exists.mp hc'
    obtain ⟨hname, hrest⟩ := Prod.mk.inj (toLex.injective h)
    obtain ⟨hvalue, hplace⟩ := Prod.mk.inj (toLex.injective hrest)
    obtain rfl := text_injective hname
    obtain rfl := text_injective hvalue
    simp only [SearchEntry.place, chunkSize] at hplace ho ho'
    obtain rfl : address = address' := by omega
    obtain rfl : o = o' := by omega
    rfl

namespace FieldLookupTable

/-- A key that can be compared: its strings are short, and the chunk it points to, if any,
is one of the table's. -/
structure Comparable (t : FieldLookupTable) (k : SearchEntry) : Prop where
  short : k.field.Short
  placed : ∀ address, k.chunk = some address →
    k.offset < chunkSize ∧ ∃ (i : ℕ) (c : Chunk), t.chunks[i]? = some c ∧ c.address = address

variable {t : FieldLookupTable} {f : HeaderField} {i : ℕ}

theorem indexOfChunk_address (h : Layout t) {c : Chunk} (hc : t.chunks[i]? = some c) :
  t.indexOfChunk c.address = i
  := by
  obtain ⟨hi, rfl⟩ := List.getElem?_eq_some_iff.mp hc
  rw [indexOfChunk, List.findIdx_eq hi]
  constructor
  · simp
  · intro j hj
    have h₁ := h.address i _ hc
    have h₂ := h.address j _ (List.getElem?_eq_getElem (Nat.lt_trans hj hi))
    simp only [beq_eq_false_iff_ne]
    omega

/-- The last comparison of `SearchEntry::operator<`, that of the places. -/
def placeBelow (t : FieldLookupTable) (lhs rhs : SearchEntry) : Bool :=
  match lhs.chunk, rhs.chunk with
  | none, chunk => chunk.isSome
  | some _, none => false
  | some left, some right =>
    let leftChunkIndex := t.indexOfChunk left
    let rightChunkIndex := t.indexOfChunk right
    if leftChunkIndex ≠ rightChunkIndex then decide (leftChunkIndex > rightChunkIndex)
    else decide (lhs.offset > rhs.offset)

theorem entryBelow_eq_placeBelow (t : FieldLookupTable) (lhs rhs : SearchEntry) :
  t.entryBelow lhs rhs
    = if compare lhs.field.name rhs.field.name ≠ 0 then
        decide (compare lhs.field.name rhs.field.name < 0)
      else if compare lhs.field.value rhs.field.value ≠ 0 then
        decide (compare lhs.field.value rhs.field.value < 0)
      else t.placeBelow lhs rhs
  := rfl

theorem placeBelow_eq (h : Layout t) {lhs rhs : SearchEntry} (hlhs : t.Comparable lhs)
    (hrhs : t.Comparable rhs) :
  t.placeBelow lhs rhs = decide (lhs.place < rhs.place)
  := by
  cases hl : lhs.chunk with
  | none =>
    cases hr : rhs.chunk with
    | none => simp [placeBelow, SearchEntry.place, hl, hr]
    | some right =>
      have := (hrhs.placed right hr).1
      simp only [placeBelow, SearchEntry.place, hl, hr, Option.isSome_some]
      rw [eq_comm, decide_eq_true_iff]
      omega
  | some left =>
    cases hr : rhs.chunk with
    | none => simp [placeBelow, SearchEntry.place, hl, hr]
    | some right =>
      obtain ⟨ho, i, c, hc, rfl⟩ := hlhs.placed left hl
      obtain ⟨ho', i', c', hc', rfl⟩ := hrhs.placed right hr
      have ha := h.address i c hc
      have ha' := h.address i' c' hc'
      simp only [placeBelow, indexOfChunk_address h hc, indexOfChunk_address h hc',
        SearchEntry.place, hl, hr, chunkSize] at ho ho' ⊢
      split_ifs with hi
      · rw [decide_eq_decide]
        omega
      · rw [decide_eq_decide]
        omega

/-- On comparable keys `SearchEntry::operator<` is the order of the ranks. -/
theorem entryBelow_eq (h : Layout t) {lhs rhs : SearchEntry} (hlhs : t.Comparable lhs)
    (hrhs : t.Comparable rhs) :
  t.entryBelow lhs rhs = rankBelow lhs rhs
  := by
  rw [entryBelow_eq_placeBelow, placeBelow_eq h hlhs hrhs,
    compare_eq_difference hlhs.short.name_lt hrhs.short.name_lt,
    compare_eq_difference hlhs.short.value_lt hrhs.short.value_lt, rankBelow,
    Bool.eq_iff_iff, decide_eq_true_iff, rank_lt_iff]
  have hname := difference_eq_zero_iff lhs.field.name rhs.field.name
  have hvalue := difference_eq_zero_iff lhs.field.value rhs.field.value
  split_ifs with hn hv
  · rw [decide_eq_true_iff, difference_neg_iff]
    simp [mt hname.mpr hn]
  · rw [decide_eq_true_iff, difference_neg_iff]
    simp [mt hvalue.mpr hv, hname.mp (not_not.mp hn)]
  · rw [decide_eq_true_iff]
    simp [hvalue.mp (not_not.mp hv), hname.mp (not_not.mp hn)]

/-! ### The keys of the entries -/

/-- The key of the dynamic entry `f` at index `i`. -/
def keyOf (t : FieldLookupTable) (i : ℕ) (f : HeaderField) : SearchEntry :=
  ⟨f, some (t.nextAddress - 1 - (t.beginPos + i) / chunkSize), (t.beginPos + i) % chunkSize⟩

theorem pointed_keyOf (t : FieldLookupTable) (i : ℕ) (f : HeaderField) :
  (t.keyOf i f).Pointed
  := by
  use rfl
  apply (position_split _).2

/-- The chunk of a position before the end, and its address. -/
theorem chunk_of_position (h : Layout t) (pos : ℕ) (hpos : pos < t.endPos) :
  ∃ c, t.chunks[pos / chunkSize]? = some c ∧ c.address + pos / chunkSize + 1 = t.nextAddress
  := by
  have hle := h.endPos_le
  have hlt : pos / chunkSize < t.chunks.length := by
    apply Nat.div_lt_of_lt_mul
    omega
  use t.chunks[pos / chunkSize], List.getElem?_eq_getElem hlt
  apply h.address _ _ (List.getElem?_eq_getElem hlt)

theorem index_lt (hi : t.entries[i]? = some f) :
  i < t.nDynamic
  := by
  obtain ⟨hlt, -⟩ := List.getElem?_eq_some_iff.mp hi
  rwa [entries_length] at hlt

theorem comparable_keyOf (h : Layout t) (hi : t.entries[i]? = some f) (hf : f.Short) :
  t.Comparable (t.keyOf i f)
  := by
  obtain ⟨c, hc, haddress⟩ := chunk_of_position h (t.beginPos + i) (by
    have := index_lt hi
    rw [h.endPos_eq]
    omega)
  constructor
  · apply hf
  · rintro address ⟨⟩
    use (position_split _).2, (t.beginPos + i) / chunkSize, c, hc
    omega

/-- The places of the entries fall as their indices grow. -/
theorem place_keyOf (h : Layout t) (hi : t.entries[i]? = some f) :
  (t.keyOf i f).place + (t.beginPos + i) = chunkSize * t.nextAddress
  := by
  obtain ⟨c, -, haddress⟩ := chunk_of_position h (t.beginPos + i) (by
    have := index_lt hi
    rw [h.endPos_eq]
    omega)
  obtain ⟨hsplit, hmod⟩ := position_split (t.beginPos + i)
  simp only [SearchEntry.place, keyOf, chunkSize] at *
  omega

theorem keyOf_index_eq (h : Layout t) {j : ℕ} {g : HeaderField} (hi : t.entries[i]? = some f)
    (hj : t.entries[j]? = some g) (heq : t.keyOf i f = t.keyOf j g) :
  i = j
  := by
  have h₁ := place_keyOf h hi
  have h₂ := place_keyOf h hj
  rw [heq] at h₁
  omega

theorem backKey_eq (h : Settled t) (hn : t.nDynamic ≠ 0) :
  t.entries[t.nDynamic - 1]? = some t.back ∧ t.backKey = t.keyOf (t.nDynamic - 1) t.back
  := by
  have hend := h.endPos_eq
  have hpos : t.beginPos + (t.nDynamic - 1) = t.endPos - 1 := by omega
  obtain ⟨c, hc, haddress⟩ := chunk_of_position h.toLayout (t.endPos - 1) (by omega)
  constructor
  · rw [entries_getElem? t (by omega), hpos]
    rfl
  · simp only [backKey, keyOf, hpos, List.getElem!_eq_getElem?_getD, hc, Option.getD_some]
    congr 2
    omega

/-- The search index is the ordered set of the keys of the dynamic entries. -/
structure Indexed (t : FieldLookupTable) : Prop where
  short : ∀ f ∈ t.entries, f.Short
  sorted : OrderedSet.Sorted rankBelow t.searchIndex
  mem_iff : ∀ k, k ∈ t.searchIndex ↔ ∃ i f, t.entries[i]? = some f ∧ k = t.keyOf i f

theorem Indexed.pointed (hi : Indexed t) {k : SearchEntry} (hk : k ∈ t.searchIndex) :
  k.Pointed
  := by
  obtain ⟨i, f, -, rfl⟩ := (hi.mem_iff k).mp hk
  apply pointed_keyOf

theorem Indexed.comparable (hi : Indexed t) (h : Layout t) {k : SearchEntry}
    (hk : k ∈ t.searchIndex) :
  t.Comparable k
  := by
  obtain ⟨i, f, hf, rfl⟩ := (hi.mem_iff k).mp hk
  apply comparable_keyOf h hf (hi.short f (List.mem_of_getElem? hf))

theorem indexed_new (maxSize : ℕ) (use : Bool) :
  Indexed (new maxSize use)
  := by
  constructor
  · simp [new, entries]
  · apply List.Pairwise.nil
  · simp [new, entries]

theorem indexed_clearDynamicTable (t : FieldLookupTable) :
  Indexed t.clearDynamicTable
  := by
  constructor
  · simp
  · apply List.Pairwise.nil
  · intro k
    rw [entries_clearDynamicTable]
    simp [clearDynamicTable]

/-- An eviction removes the key of the oldest entry. -/
theorem Indexed.evictEntry (hi : Indexed t) (h : Settled t) (huse : t.useIndex = true)
    (hn : t.nDynamic ≠ 0) :
  Indexed t.evictEntry
  := by
  obtain ⟨hback, hkey⟩ := backKey_eq h hn
  obtain ⟨-, hentries, -⟩ := evictEntry_spec h hn
  have hmem : t.backKey ∈ t.searchIndex := (hi.mem_iff _).mpr ⟨_, _, hback, hkey⟩
  have herase : OrderedSet.erase t.entryBelow t.searchIndex t.backKey
      = OrderedSet.erase rankBelow t.searchIndex t.backKey := by
    apply OrderedSet.erase_congr
    intro e he
    have hc := hi.comparable h.toLayout he
    have hc' := hi.comparable h.toLayout hmem
    use entryBelow_eq h.toLayout hc hc', entryBelow_eq h.toLayout hc' hc
  have hindex : t.evictEntry.searchIndex = OrderedSet.erase rankBelow t.searchIndex t.backKey := by
    rw [FieldLookupTable.evictEntry, if_neg hn, ← herase]
    simp only [popBack, eraseBackKey, if_pos huse]
    split_ifs
    · rfl
    · rfl
    · rfl
  constructor
  · intro f hf
    apply hi.short
    rw [hentries] at hf
    apply List.mem_of_mem_dropLast hf
  · rw [hindex]
    apply OrderedSet.sorted_erase hi.sorted
  · intro k
    have hkeys : ∀ i f, t.entries[i]? = some f → i ≠ t.nDynamic - 1 →
        t.evictEntry.keyOf i f = t.keyOf i f := by
      intro i f hf hne
      have hlt := index_lt hf
      have hcases := popBack_cases h.eraseBackKey (by simpa using hn)
      rw [FieldLookupTable.evictEntry, if_neg hn]
      obtain ⟨-, haddress, ⟨h₁, -⟩ | ⟨-, hb, -⟩⟩ := hcases
      · rw [nDynamic_eraseBackKey] at h₁
        omega
      · simp only [keyOf, haddress, hb]
        simp only [eraseBackKey, if_pos huse]
    rw [hindex, OrderedSet.mem_erase strictOn_rankBelow (fun e he => hi.pointed he) hi.sorted hmem,
      hi.mem_iff]
    simp only [hentries, List.getElem?_dropLast, entries_length]
    constructor
    · rintro ⟨⟨i, f, hf, rfl⟩, hne⟩
      have hlast : i ≠ t.nDynamic - 1 := by
        rintro rfl
        apply hne
        rw [hkey, Option.some.inj (hf.symm.trans hback)]
      have hlt := index_lt hf
      use i, f
      rw [if_pos (by omega), hkeys i f hf hlast]
      use hf
    · rintro ⟨i, f, hf, rfl⟩
      split_ifs at hf with hlt
      rw [hkeys i f hf (by omega)]
      use ⟨i, f, hf, rfl⟩
      intro heq
      have := keyOf_index_eq h.toLayout hf hback (heq.trans hkey)
      omega

theorem keyOf_withRoom (t : FieldLookupTable) (i : ℕ) (f : HeaderField) :
  t.withRoom.keyOf i f = t.keyOf i f
  := by
  rw [withRoom]
  split_ifs with hbegin
  · have hdiv : (chunkSize + i) / chunkSize = i / chunkSize + 1 := by
      rw [Nat.add_comm, Nat.add_div_right i (by decide)]
    simp only [keyOf, pushChunk, hbegin, hdiv, Nat.add_mod_left, Nat.zero_add]
    congr 2
    omega
  · rfl

/-- Prepending a short field adds its key. -/
theorem Indexed.pushFront (hi : Indexed t) (h : Settled t) (huse : t.useIndex = true)
    (hf : f.Representable) (hshort : f.Short) :
  Indexed (t.withRoom.pushFront f f.size).insertFrontKey
  := by
  obtain ⟨hlayout, hbegin, hchunks, hsame⟩ := layout_withRoom h.toLayout
  generalize hpushed : t.withRoom.pushFront f f.size = p
  have hp : Settled p := by
    rw [← hpushed]
    apply settled_pushFront hlayout hbegin hchunks hf
  have hentries : p.entries = f :: t.entries := by
    rw [← hpushed, entries_pushFront hlayout hbegin hchunks, hsame]
  have hindex : p.searchIndex = t.searchIndex := by
    rw [← hpushed, withRoom]
    split_ifs
    · rfl
    · rfl
  have hkeys : ∀ i g, p.keyOf (i + 1) g = t.keyOf i g := by
    intro i g
    have hpos : t.withRoom.beginPos - 1 + (i + 1) = t.withRoom.beginPos + i := by omega
    rw [← keyOf_withRoom t i g, ← hpushed]
    simp only [keyOf, FieldLookupTable.pushFront, hpos]
  have hfirst : p.entries[0]? = some f := by rw [hentries]; rfl
  have hfront : p.frontKey = p.keyOf 0 f := by
    have hlt : p.beginPos < chunkSize := by
      apply hp.beginPos_lt
      rw [← entries_length, hentries]
      apply Nat.succ_ne_zero
    obtain ⟨c, hc, haddress⟩ := chunk_of_position hp.toLayout p.beginPos (by
      have := index_lt hfirst
      rw [hp.endPos_eq]
      omega)
    rw [entries_getElem? p (index_lt hfirst), Nat.add_zero] at hfirst
    rw [Nat.div_eq_of_lt hlt] at hc haddress
    simp only [fieldAt, Nat.div_eq_of_lt hlt, Nat.mod_eq_of_lt hlt, Option.some.injEq] at hfirst
    simp only [frontKey, front, keyOf, Nat.add_zero, Nat.div_eq_of_lt hlt, Nat.mod_eq_of_lt hlt,
      hfirst]
    congr 2
    rw [List.getElem!_eq_getElem?_getD, hc, Option.getD_some]
    omega
  have hold : ∀ e ∈ p.searchIndex, p.Comparable e ∧ e.Pointed := by
    intro e he
    rw [hindex] at he
    obtain ⟨i, g, hg, rfl⟩ := (hi.mem_iff e).mp he
    rw [← hkeys]
    use comparable_keyOf hp.toLayout (by rw [hentries]; apply hg)
      (hi.short g (List.mem_of_getElem? hg))
    apply pointed_keyOf
  have hcomparable : p.Comparable p.frontKey := by
    rw [hfront]
    apply comparable_keyOf hp.toLayout hfirst hshort
  have hpointed : p.frontKey.Pointed := by
    rw [hfront]
    apply pointed_keyOf
  have huse' : p.useIndex = true := by
    rw [← hpushed, ← huse]
    apply (sameLimits_withRoom t).useIndex_eq
  have hinsert : p.insertFrontKey.searchIndex
      = OrderedSet.insert rankBelow p.searchIndex p.frontKey := by
    rw [insertFrontKey, if_pos huse']
    apply OrderedSet.insert_congr
    intro e he
    use entryBelow_eq hp.toLayout (hold e he).1 hcomparable,
      entryBelow_eq hp.toLayout hcomparable (hold e he).1
  have hsame' : p.insertFrontKey.keyOf = p.keyOf := by
    rw [insertFrontKey, if_pos huse']
    rfl
  constructor
  · rw [entries_insertFrontKey, hentries]
    intro g hg
    rcases List.mem_cons.mp hg with rfl | hg
    · apply hshort
    · apply hi.short g hg
  · rw [hinsert]
    apply OrderedSet.sorted_insert strictOn_rankBelow (fun e he => (hold e he).2) hpointed
    rw [hindex]
    apply hi.sorted
  · intro k
    rw [hinsert, OrderedSet.mem_insert strictOn_rankBelow (fun e he => (hold e he).2) hpointed,
      hindex, hi.mem_iff, entries_insertFrontKey, hentries, hsame', hfront]
    constructor
    · rintro (rfl | ⟨i, g, hg, rfl⟩)
      · use 0, f, rfl
      · use i + 1, g, hg
        rw [hkeys]
    · rintro ⟨i, g, hg, rfl⟩
      cases i with
      | zero =>
        left
        obtain rfl : f = g := Option.some.inj hg
        rfl
      | succ i =>
        right
        use i, g, hg
        rw [hkeys]

/-! ### The operations -/

/-- A table with an index: the index is that of the entries, if the table is to keep one. -/
theorem Indexed.withLimits (hi : Indexed t) {maxSize capacity : ℕ} :
  Indexed { t with maxTableSize := maxSize, tableCapacity := capacity }
  := by
  constructor
  · apply hi.short
  · apply hi.sorted
  · apply hi.mem_iff

theorem Indexed.evictWhile (hi : Indexed t) (h : Settled t) (huse : t.useIndex = true)
    (tooFull : FieldLookupTable → Bool) (n : ℕ) :
  Indexed (evictWhile tooFull n t)
  := by
  have hall := evictWhile_induction (n := n) (t := t)
    (motive := fun t => Settled t ∧ t.useIndex = true ∧ Indexed t) tooFull (by
      rintro t hn ⟨h, huse, hi⟩
      obtain ⟨hsettled, -, hlimits⟩ := evictEntry_spec h hn
      constructor
      · apply hsettled
      constructor
      · apply hlimits.useIndex_eq.trans huse
      · apply hi.evictEntry h huse hn) ⟨h, huse, hi⟩
  apply hall.2.2

theorem Indexed.prependField (hi : Indexed t) (h : Wf t) (huse : t.useIndex = true)
    (hshort : f.Short) :
  Indexed (t.prependField f.name f.value).2
  := by
  by_cases hf : f.Representable
  · by_cases hsmall : f.size ≤ t.tableCapacity
    · obtain ⟨hsettled, -, hlimits⟩ := evictFor_spec h hsmall
      rw [prependField_fitting hf hsmall]
      have hevicted : Indexed (t.evictFor f.size) := hi.evictWhile h.toSettled huse _ _
      apply hevicted.pushFront hsettled (hlimits.useIndex_eq.trans huse) hf hshort
    · rw [prependField_large hf (Nat.not_le.mp hsmall)]
      apply indexed_clearDynamicTable
  · rw [prependField_refused hf]
    apply hi

theorem Indexed.updateDynamicTableSize (hi : Indexed t) (h : Wf t) (huse : t.useIndex = true)
    (size : ℕ) :
  Indexed (t.updateDynamicTableSize size).2
  := by
  simp only [FieldLookupTable.updateDynamicTableSize]
  split_ifs
  · apply (indexed_clearDynamicTable t).withLimits
  · apply hi
  · have hresized : Indexed { t with tableCapacity := size } := hi.withLimits
    apply hresized.evictWhile h.toSettled.withLimits huse

/-! ### Lookup -/

/-- The static part, whose fields are found at their places. -/
def orderedPart :
    { fields : List HeaderField // ∀ i < fields.length,
      (fields[i]?).map (findInStaticPart · .nameAndValue) = some i } :=
  ⟨staticPart, by decide +kernel⟩

/-- Every static field is found, at its place. -/
theorem findInStaticPart_getElem :
  ∀ i < staticPart.length, ∀ f, staticPart[i]? = some f →
    findInStaticPart f .nameAndValue = i
  := by
  intro i hi f hf
  have := orderedPart.property i hi
  rw [orderedPart, hf] at this
  apply Option.some.inj this

theorem indexOf_static (hf : staticPart[i]? = some f) :
  t.indexOf f.name f.value = i + 1
  := by
  obtain ⟨hi, -⟩ := List.getElem?_eq_some_iff.mp hf
  have hpos : findInStaticPart ⟨f.name, f.value⟩ .nameAndValue = i :=
    findInStaticPart_getElem i hi f hf
  simp only [indexOf, hpos, hf, if_pos]

/-- A key that is looked up is below the keys of the equal entries. -/
theorem rankBelow_lookup (t : FieldLookupTable) (i : ℕ) (f : HeaderField) :
  rankBelow (t.keyOf i f) ⟨f, none, 0⟩ = false
  := by
  rw [rankBelow, decide_eq_false_iff_not, rank_lt_iff]
  simp [keyOf, SearchEntry.place]

theorem comparable_lookup (t : FieldLookupTable) (hf : f.Short) :
  t.Comparable ⟨f, none, 0⟩
  := by
  constructor
  · apply hf
  · rintro address ⟨⟩

/-- On short fields the lookup is that in the order of the ranks. -/
theorem Indexed.lowerBound_eq (hi : Indexed t) (h : Layout t) (hf : f.Short) :
  OrderedSet.lowerBound t.entryBelow t.searchIndex ⟨f, none, 0⟩
    = OrderedSet.lowerBound rankBelow t.searchIndex ⟨f, none, 0⟩
  := by
  apply OrderedSet.lowerBound_congr
  intro e he
  rw [entryBelow_eq h (hi.comparable h he) (comparable_lookup t hf)]

theorem keyToIndex_keyOf (h : Layout t) (hi : t.entries[i]? = some f) :
  t.keyToIndex (t.keyOf i f) = staticPart.length + i + 1
  := by
  obtain ⟨c, hc, haddress⟩ := chunk_of_position h (t.beginPos + i) (by
    have := index_lt hi
    rw [h.endPos_eq]
    omega)
  obtain ⟨hsplit, -⟩ := position_split (t.beginPos + i)
  have hchunk : t.nextAddress - 1 - (t.beginPos + i) / chunkSize = c.address := by omega
  simp only [keyToIndex, keyOf, Option.getD_some, hchunk, indexOfChunk_address h hc]
  rw [Nat.mul_comm]
  omega

/-- `indexOf` gives the index of the oldest of the equal dynamic entries. -/
theorem indexOf_dynamic (hi : Indexed t) (h : Layout t) (huse : t.useIndex = true) (hf : f.Short)
    (hstatic : f ∉ staticPart) :
  f ∉ t.entries ∧ t.indexOf f.name f.value = 0 ∨
    ∃ i, t.entries[i]? = some f ∧ (∀ j, t.entries[j]? = some f → j ≤ i) ∧
      t.indexOf f.name f.value = staticPart.length + i + 1
  := by
  have hnot : staticPart[findInStaticPart ⟨f.name, f.value⟩ .nameAndValue]?
      ≠ some ⟨f.name, f.value⟩ := by
    intro hfound
    apply hstatic (List.mem_of_getElem? hfound)
  have habove : ∀ j, t.entries[j]? = some f → t.keyOf j f ∈ t.searchIndex := by
    intro j hj
    apply (hi.mem_iff _).mpr ⟨j, f, hj, rfl⟩
  simp only [indexOf, if_neg hnot, huse, Bool.not_true, Bool.false_eq_true, if_false]
  rw [hi.lowerBound_eq h hf]
  cases hbound : OrderedSet.lowerBound rankBelow t.searchIndex ⟨f, none, 0⟩ with
  | none =>
    left
    use ?_
    intro hmem
    obtain ⟨j, hj⟩ := List.mem_iff_getElem?.mp hmem
    have hbelow := OrderedSet.lowerBound_eq_none hbound (habove j hj)
    rw [rankBelow_lookup] at hbelow
    cases hbelow
  | some key =>
    obtain ⟨hmem, -⟩ := OrderedSet.lowerBound_mem hbound
    obtain ⟨i, g, hg, rfl⟩ := (hi.mem_iff key).mp hmem
    have hleast : ∀ j, t.entries[j]? = some f →
        t.keyOf j f = t.keyOf i g ∨ (t.keyOf i g).rank < (t.keyOf j f).rank := by
      intro j hj
      have := OrderedSet.lowerBound_le hi.sorted hbound (habove j hj) (rankBelow_lookup t j f)
      rwa [rankBelow, decide_eq_true_iff] at this
    by_cases hsame : g = f
    · subst hsame
      right
      use i, hg
      constructor
      · intro j hj
        have h₁ := place_keyOf h hg
        have h₂ := place_keyOf h hj
        rcases hleast j hj with heq | hlt
        · rw [keyOf_index_eq h hj hg heq]
        · simp only [rank_lt_iff, keyOf, lt_irrefl, false_or, true_and] at hlt
          simp only [keyOf] at h₁ h₂
          omega
      · simp only [keyToIndex_keyOf h hg]
        simp [keyOf]
    · left
      constructor
      · intro hmem
        obtain ⟨j, hj⟩ := List.mem_iff_getElem?.mp hmem
        obtain ⟨-, hbelow⟩ := OrderedSet.lowerBound_mem hbound
        rw [rankBelow, decide_eq_false_iff_not] at hbelow
        apply hsame
        rcases hleast j hj with heq | hlt
        · apply (congrArg SearchEntry.field heq).symm
        · apply field_eq_of_rank _ (t.keyOf j f) ⟨f, none, 0⟩ rfl hlt hbelow
      · apply if_neg
        rintro ⟨hname, hvalue⟩
        apply hsame
        cases g
        cases f
        cases hname
        cases hvalue
        rfl

/-- A pair is found at an index that holds it. -/
theorem indexOf_sound (hi : Indexed t) (h : Layout t) (huse : t.useIndex = true) (hf : f.Short) :
  t.indexOf f.name f.value = 0 ∨
    ∃ i, t.indexOf f.name f.value = i + 1 ∧ (staticPart ++ t.entries)[i]? = some f
  := by
  by_cases hstatic : f ∈ staticPart
  · obtain ⟨i, hfound⟩ := List.mem_iff_getElem?.mp hstatic
    obtain ⟨hlt, -⟩ := List.getElem?_eq_some_iff.mp hfound
    right
    use i, indexOf_static hfound
    rw [List.getElem?_append_left hlt, hfound]
  · rcases indexOf_dynamic hi h huse hf hstatic with ⟨-, hzero⟩ | ⟨i, hfound, -, hindex⟩
    · left
      apply hzero
    · right
      use staticPart.length + i, hindex
      rw [List.getElem?_append_right (Nat.le_add_right _ _), Nat.add_sub_cancel_left, hfound]

/-- A name is found at an index of an entry of that name. -/
theorem indexOfName_sound (hi : Indexed t) (h : Layout t) (name : Octets) :
  t.indexOfName name = 0 ∨
    ∃ i f, t.indexOfName name = i + 1 ∧ (staticPart ++ t.entries)[i]? = some f ∧ f.name = name
  := by
  rw [indexOfName]
  split_ifs with hstatic huse
  · obtain ⟨f, hf, hname⟩ := Option.map_eq_some_iff.mp hstatic
    obtain ⟨hlt, -⟩ := List.getElem?_eq_some_iff.mp hf
    right
    use findInStaticPart ⟨name, []⟩ .nameOnly, f, rfl
    rw [List.getElem?_append_left hlt]
    use hf
  · left
    rfl
  · cases hbound : OrderedSet.lowerBound t.entryBelow t.searchIndex ⟨⟨name, []⟩, none, 0⟩ with
    | none =>
      left
      rfl
    | some key =>
      obtain ⟨hmem, -⟩ := OrderedSet.lowerBound_mem hbound
      obtain ⟨i, g, hg, rfl⟩ := (hi.mem_iff key).mp hmem
      by_cases hname : g.name = name
      · right
        use staticPart.length + i, g
        simp only [keyToIndex_keyOf h hg]
        rw [List.getElem?_append_right (Nat.le_add_right _ _), Nat.add_sub_cancel_left]
        use if_pos hname, hg
      · left
        apply if_neg hname

/-- `:method` is found in the static part. -/
theorem indexOfName_method (t : FieldLookupTable) :
  t.indexOfName (octets ":method") = 2
  := by
  have hpos : findInStaticPart ⟨octets ":method", []⟩ .nameOnly = 1 := by decide
  have hfound : (staticPart[1]?).map (·.name) = some (octets ":method") := rfl
  simp only [indexOfName, hpos, hfound, if_pos]

end FieldLookupTable

end HPack
