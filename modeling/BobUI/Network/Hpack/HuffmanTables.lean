import BobUI.Network.Hpack.Huffman

/-!
# The tables of the Huffman decoder

The constructor stores the symbols of a code in the tables, one after the other.  A word walks from
the first table to others: each is the one that the first bits of the word lead to, and the entry
for the next ones refers to the next table.  When all symbols of a complete prefix code are stored,
a word comes to the table where the code ends that it begins with (`Leads`).
-/

namespace HPack

open PrefixCode

theorem PrefixTable.size_eq (table : PrefixTable) :
  table.size = 2 ^ table.indexLength
  := by
  rw [PrefixTable.size, Nat.shiftLeft_eq, Nat.one_mul]

theorem PrefixTable.entryIndex_eq {table : PrefixTable} (h : table.codedLength ≤ 32) (x : ℕ) :
  table.entryIndex x = index 32 table.prefixLength table.indexLength x
  := shift_eq_index h

theorem PrefixTable.entryIndex_lt {table : PrefixTable} (h : table.codedLength ≤ 32) (x : ℕ) :
  table.entryIndex x < table.size
  := by
  rw [table.size_eq, entryIndex_eq h]
  apply index_lt

namespace HuffmanDecoder

/-! ### The entries of the tables -/

/-- An entry of a table, by the number of the table. -/
def cell (d : HuffmanDecoder) (t i : ℕ) : Option PrefixTableEntry := do
  d.tableEntry (← d.prefixTables[t]?) i

/-- The entries of the tables lie one behind the other. -/
structure Layout (d : HuffmanDecoder) : Prop where
  apart : d.prefixTables.Pairwise fun a b => a.offset + a.size ≤ b.offset
  inside : ∀ table ∈ d.prefixTables, table.offset + table.size ≤ d.tableData.length

variable {d d' : HuffmanDecoder} {t t' i j : ℕ} {table table' : PrefixTable}

theorem cell_eq (h : d.prefixTables[t]? = some table) (i : ℕ) :
  d.cell t i = d.tableEntry table i
  := by
  rw [cell, h]
  rfl

/-- Two entries of tables are one only if the tables are, and the indexes. -/
theorem Layout.place_inj (h : d.Layout) (ht : d.prefixTables[t]? = some table)
    (ht' : d.prefixTables[t']? = some table') (hi : i < table.size) (hj : j < table'.size)
    (heq : table.offset + i = table'.offset + j) :
  t = t' ∧ i = j
  := by
  obtain ⟨hlt, rfl⟩ := List.getElem?_eq_some_iff.mp ht
  obtain ⟨hlt', rfl⟩ := List.getElem?_eq_some_iff.mp ht'
  have hapart := List.pairwise_iff_getElem.mp h.apart
  rcases Nat.lt_trichotomy t t' with htt | rfl | htt
  · have hle := hapart t t' hlt hlt' htt
    omega
  · exact ⟨rfl, by omega⟩
  · have hle := hapart t' t hlt' hlt htt
    omega

theorem Layout.exists_cell (h : d.Layout) (ht : d.prefixTables[t]? = some table)
    (hi : i < table.size) :
  ∃ entry, d.cell t i = some entry
  := by
  have hinside := h.inside table (List.mem_of_getElem? ht)
  rw [cell_eq ht, tableEntry, if_pos hi, List.getElem?_eq_getElem (by omega)]
  exact ⟨_, rfl⟩

/-- An entry is set. -/
theorem Layout.setTableEntry (h : d.Layout) (ht : d.prefixTables[t]? = some table)
    (hi : i < table.size) (entry : PrefixTableEntry) :
  ∃ d', d.setTableEntry table i entry = some d' ∧ d'.Layout
    ∧ d'.prefixTables = d.prefixTables ∧ d'.minCodeLength = d.minCodeLength
    ∧ d'.cell t i = some entry ∧ ∀ t' j, (t', j) ≠ (t, i) → d'.cell t' j = d.cell t' j
  := by
  have hinside := h.inside table (List.mem_of_getElem? ht)
  have hplace : table.offset + i < d.tableData.length := by omega
  refine ⟨{ d with tableData := d.tableData.set (table.offset + i) entry }, ?_, ?_, rfl, rfl,
    ?_, ?_⟩
  · rw [HuffmanDecoder.setTableEntry, if_pos ⟨hi, hplace⟩]
  · refine ⟨h.apart, ?_⟩
    intro table' htable'
    rw [List.length_set]
    exact h.inside table' htable'
  · rw [cell_eq (d := { d with tableData := d.tableData.set (table.offset + i) entry }) ht,
      tableEntry, if_pos hi]
    exact List.getElem?_set_self hplace
  · intro t' j hne
    cases ht' : d.prefixTables[t']? with
    | none =>
      rw [cell, cell, ht']
      rfl
    | some table' =>
      rw [cell_eq (d := { d with tableData := d.tableData.set (table.offset + i) entry }) ht',
        cell_eq ht', tableEntry, tableEntry]
      split
      next hj =>
        apply List.getElem?_set_ne
        intro heq
        obtain ⟨rfl, rfl⟩ := h.place_inj ht ht' hi hj heq
        exact hne rfl
      next => rfl

/-- A table is added, with unused entries. -/
theorem Layout.addTable (h : d.Layout) (pre index : ℕ) :
  (d.addTable pre index).2.Layout
    ∧ (d.addTable pre index).2.prefixTables
      = d.prefixTables ++ [⟨pre, index, d.tableData.length⟩]
    ∧ (∀ t i, t < d.prefixTables.length → (d.addTable pre index).2.cell t i = d.cell t i)
    ∧ ∀ i < 2 ^ index, (d.addTable pre index).2.cell d.prefixTables.length i = some {}
  := by
  have hsize : (⟨pre, index, d.tableData.length⟩ : PrefixTable).size = 2 ^ index :=
    PrefixTable.size_eq _
  refine ⟨⟨?_, ?_⟩, rfl, ?_, ?_⟩
  · change (d.prefixTables ++ [_]).Pairwise _
    rw [List.pairwise_append]
    refine ⟨h.apart, List.pairwise_singleton _ _, ?_⟩
    intro table htable table' htable'
    rw [List.mem_singleton] at htable'
    rw [htable']
    exact h.inside table htable
  · intro table htable
    change table ∈ d.prefixTables ++ [_] at htable
    change _ ≤ (d.tableData ++ List.replicate _ _).length
    rw [List.length_append, List.length_replicate]
    rcases List.mem_append.mp htable with htable | htable
    · exact Nat.le_add_right_of_le (h.inside table htable)
    · rw [List.mem_singleton] at htable
      rw [htable]
  · intro t i ht
    have htable : (d.prefixTables ++ [⟨pre, index, d.tableData.length⟩])[t]?
        = d.prefixTables[t]? := List.getElem?_append_left ht
    have hold := List.getElem?_eq_getElem ht
    have hinside := h.inside _ (List.mem_of_getElem? hold)
    rw [cell_eq (htable.trans hold), cell_eq hold, tableEntry, tableEntry]
    split
    next hi =>
      apply List.getElem?_append_left
      omega
    next => rfl
  · intro i hi
    have htable : (d.prefixTables ++ [⟨pre, index, d.tableData.length⟩])[d.prefixTables.length]?
        = some ⟨pre, index, d.tableData.length⟩ := List.getElem?_concat_length
    rw [cell_eq htable, tableEntry, hsize, if_pos hi]
    change (d.tableData ++ List.replicate _ _)[d.tableData.length + i]? = _
    rw [List.getElem?_append_right (Nat.le_add_right _ _), Nat.add_sub_cancel_left,
      List.getElem?_replicate, hsize, if_pos hi]

/-! ### The walk of a word -/

/-- The table that a word comes to from the first one after some steps. -/
def walk (d : HuffmanDecoder) (x : ℕ) : ℕ → Option ℕ
  | 0 => some 0
  | n + 1 => do
    let t ← walk d x n
    let table ← d.prefixTables[t]?
    let entry ← d.cell t (table.entryIndex x)
    if entry.bitLength = 0 ∨ entry.nextTable = t then none else some entry.nextTable

variable {x : ℕ} {s : CodeEntry} {n : ℕ}

theorem walk_succ_iff :
  d.walk x (n + 1) = some t' ↔ ∃ t table entry, d.walk x n = some t
    ∧ d.prefixTables[t]? = some table ∧ d.cell t (table.entryIndex x) = some entry
    ∧ entry.bitLength ≠ 0 ∧ entry.nextTable ≠ t ∧ entry.nextTable = t'
  := by
  rw [walk]
  constructor
  · intro h
    simp only [Option.bind_eq_bind, Option.bind_eq_some_iff] at h
    obtain ⟨t, hwalk, table, htable, entry, hentry, hnext⟩ := h
    split at hnext
    next => cases hnext
    next hused =>
      rw [not_or] at hused
      exact ⟨t, table, entry, hwalk, htable, hentry, hused.1, hused.2,
        Option.some.inj hnext⟩
  · rintro ⟨t, table, entry, hwalk, htable, hentry, hused, hne, hnext⟩
    simp only [hwalk, htable, hentry, Option.bind_eq_bind, Option.bind_some]
    rw [if_neg (not_or.mpr ⟨hused, hne⟩), hnext]

/-- The tables stay, and their entries that are in use. -/
structure Grows (d d' : HuffmanDecoder) : Prop where
  tables : ∀ (t : ℕ) table, d.prefixTables[t]? = some table → d'.prefixTables[t]? = some table
  cells : ∀ t i entry, d.cell t i = some entry → entry.bitLength ≠ 0 → d'.cell t i = some entry

theorem Grows.walk (h : d.Grows d') (hwalk : d.walk x n = some t) :
  d'.walk x n = some t
  := by
  induction n generalizing t with
  | zero => exact hwalk
  | succ n ih =>
    obtain ⟨t₀, table, entry, ht₀, htable, hentry, hused, hnext⟩ := walk_succ_iff.mp hwalk
    exact walk_succ_iff.mpr ⟨t₀, table, entry, ih ht₀, h.tables _ _ htable,
      h.cells _ _ _ hentry hused, hused, hnext⟩

/-! ### The tables of a code -/

/-- A word begins with the code of a symbol. -/
abbrev Starts (x : ℕ) (s : CodeEntry) : Prop :=
  Begins 32 CodeEntry.huffmanCode CodeEntry.bitLength x s

abbrev CompleteCodes (codes : List CodeEntry) : Prop :=
  Complete 32 CodeEntry.huffmanCode CodeEntry.bitLength codes

/-- The first bits of a word are those that lead to a table. -/
def On (path : ℕ → ℕ) (t : ℕ) (table : PrefixTable) (x : ℕ) : Prop :=
  top 32 table.prefixLength x = top 32 table.prefixLength (path t)

/-- What an entry of a table stands for: it is not in use, or a symbol has it as the index of its
code, or it refers to the table that the bits of its index lead to. -/
inductive Fits (codes : List CodeEntry) (d : HuffmanDecoder) (path : ℕ → ℕ) (t : ℕ)
    (table : PrefixTable) (i : ℕ) : PrefixTableEntry → Prop where
  | unused : Fits codes d path t table i {}
  | symbol {s : CodeEntry} (h_s : s ∈ codes) (h_on : On path t table s.huffmanCode)
    (h_low : table.prefixLength < s.bitLength) (h_high : s.bitLength ≤ table.codedLength)
    (h_index : table.entryIndex s.huffmanCode = i) :
    Fits codes d path t table i ⟨s.bitLength, t, s.byteValue⟩
  | next {t' : ℕ} {table' : PrefixTable} {bitLength byteValue : ℕ} (h_lt : t < t')
    (h_table' : d.prefixTables[t']? = some table')
    (h_behind : table'.prefixLength = table.codedLength) (h_long : table.codedLength < bitLength)
    (h_on : On path t table (path t')) (h_index : table.entryIndex (path t') = i) :
    Fits codes d path t table i ⟨bitLength, t', byteValue⟩

/-- The tables hold codes of a code: `path t` is a word whose first bits lead to the table `t`. -/
structure Holds (codes : List CodeEntry) (d : HuffmanDecoder) (path : ℕ → ℕ) : Prop where
  layout : d.Layout
  root : ∃ table, d.prefixTables[0]? = some table ∧ table.prefixLength = 0
  coded : ∀ (t : ℕ) table, d.prefixTables[t]? = some table →
    0 < table.indexLength ∧ table.codedLength ≤ 32
  path_lt : ∀ t, path t < 2 ^ 32
  deep : ∀ (t : ℕ) table, d.prefixTables[t]? = some table → ∀ x, On path t table x →
    ∀ s ∈ codes, Starts x s → table.prefixLength < s.bitLength
  fits : ∀ (t : ℕ) table i entry, d.prefixTables[t]? = some table → d.cell t i = some entry →
    Fits codes d path t table i entry

/-- Every table is come to by the words that lead to it. -/
def Reached (d : HuffmanDecoder) (path : ℕ → ℕ) : Prop :=
  ∀ (t : ℕ) table, d.prefixTables[t]? = some table → ∀ x, On path t table x →
    ∃ n, d.walk x n = some t

/-- The entry of a symbol is found. -/
def Stores (d : HuffmanDecoder) (s : CodeEntry) : Prop :=
  ∃ n t table, d.walk s.huffmanCode n = some t ∧ d.prefixTables[t]? = some table
    ∧ d.cell t (table.entryIndex s.huffmanCode) = some ⟨s.bitLength, t, s.byteValue⟩

variable {codes : List CodeEntry} {path : ℕ → ℕ}

theorem Grows.stores (h : d.Grows d') (hs : d.Stores s) (hpos : 0 < s.bitLength) :
  d'.Stores s
  := by
  obtain ⟨n, t, table, hwalk, htable, hcell⟩ := hs
  exact ⟨n, t, table, h.walk hwalk, h.tables _ _ htable,
    h.cells _ _ _ hcell (Nat.pos_iff_ne_zero.mp hpos)⟩

/-- Words that lead to a table and have the same index in it share the bits coded by it. -/
theorem on_and_index_iff {y : ℕ} (h : table.codedLength ≤ 32) :
  top 32 table.codedLength x = top 32 table.codedLength y
    ↔ top 32 table.prefixLength x = top 32 table.prefixLength y
      ∧ table.entryIndex x = table.entryIndex y
  := by
  rw [PrefixTable.entryIndex_eq h, PrefixTable.entryIndex_eq h]
  exact top_add_eq_iff h

/-- A symbol whose code ends in front of the bits that two words share starts both. -/
theorem starts_congr {y m : ℕ} (hle : s.bitLength ≤ m) (hm : m ≤ 32)
    (h : top 32 m x = top 32 m y) :
  Starts x s ↔ Starts y s
  := by
  rw [Starts, Starts, Begins, Begins, top_congr hle hm h]

theorem starts_self (s : CodeEntry) :
  Starts s.huffmanCode s
  := rfl

/-! ### A symbol is added -/

theorem Fits.grows (h : d.Grows d') {entry : PrefixTableEntry}
    (hfits : Fits codes d path t table i entry) :
  Fits codes d' path t table i entry
  := by
  cases hfits with
  | unused => exact .unused
  | symbol hs hon hlow hhigh hindex => exact .symbol hs hon hlow hhigh hindex
  | next hlt htable' hbehind hlong hon hindex =>
    exact .next hlt (h.tables _ _ htable') hbehind hlong hon hindex

/-- An entry in use is set that fits. -/
theorem Holds.setTableEntry (h : Holds codes d path) (ht : d.prefixTables[t]? = some table)
    (hi : i < table.size) {entry : PrefixTableEntry} (hfits : Fits codes d path t table i entry)
    (hold : ∀ old, d.cell t i = some old → old.bitLength = 0 ∨ old = entry) :
  ∃ d', d.setTableEntry table i entry = some d' ∧ Holds codes d' path ∧ d.Grows d'
    ∧ d'.prefixTables = d.prefixTables ∧ d'.minCodeLength = d.minCodeLength
    ∧ d'.cell t i = some entry
  := by
  obtain ⟨d', heq, hlayout, htables, hmin, hcell, hcells⟩ :=
    h.layout.setTableEntry ht hi entry
  have hgrows : d.Grows d' := by
    constructor
    · intro t' table' ht'
      rw [htables]
      exact ht'
    · intro t' j old hj hused
      by_cases hplace : (t', j) = (t, i)
      · cases hplace
        rcases hold old hj with hunused | rfl
        · exact absurd hunused hused
        · exact hcell
      · rw [hcells t' j hplace]
        exact hj
  refine ⟨d', heq, ⟨hlayout, ?_, ?_, h.path_lt, ?_, ?_⟩, hgrows, htables, hmin, hcell⟩
  · rw [htables]
    exact h.root
  · rw [htables]
    exact h.coded
  · rw [htables]
    exact h.deep
  · intro t' table' j new ht' hnew
    rw [htables] at ht'
    by_cases hplace : (t', j) = (t, i)
    · cases hplace
      rw [ht] at ht'
      cases ht'
      rw [hcell] at hnew
      cases hnew
      exact hfits.grows hgrows
    · rw [hcells t' j hplace] at hnew
      exact (h.fits t' table' j new ht' hnew).grows hgrows

theorem on_update_of_ne {word : ℕ} (h : t ≠ n) :
  On (Function.update path n word) t table x ↔ On path t table x
  := by
  rw [On, On, Function.update_of_ne h]

/-- A table is added, which the code of a symbol leads to. -/
theorem Holds.addTable (hcodes : CompleteCodes codes) (h : Holds codes d path) (hs : s ∈ codes)
    {pre index : ℕ} (hpre : pre < s.bitLength) (hindex : 0 < index) (hle : pre + index ≤ 32) :
  Holds codes (d.addTable pre index).2
      (Function.update path d.prefixTables.length s.huffmanCode)
    ∧ d.Grows (d.addTable pre index).2
  := by
  obtain ⟨hlayout, htables, hold, hnew⟩ := h.layout.addTable pre index
  have hlength : ∀ (t : ℕ) table, d.prefixTables[t]? = some table → t < d.prefixTables.length :=
    fun t table ht => (List.getElem?_eq_some_iff.mp ht).1
  have htable : ∀ (t : ℕ) table, (d.addTable pre index).2.prefixTables[t]? = some table →
      d.prefixTables[t]? = some table
        ∨ t = d.prefixTables.length ∧ table = ⟨pre, index, d.tableData.length⟩ := by
    intro t table ht
    rw [htables] at ht
    rcases Nat.lt_trichotomy t d.prefixTables.length with hlt | rfl | hgt
    · rw [List.getElem?_append_left hlt] at ht
      exact .inl ht
    · rw [List.getElem?_concat_length] at ht
      exact .inr ⟨rfl, (Option.some.inj ht).symm⟩
    · rw [List.getElem?_eq_none (by rw [List.length_append, List.length_singleton]; omega)] at ht
      cases ht
  have hgrows : d.Grows (d.addTable pre index).2 := by
    constructor
    · intro t table ht
      rw [htables, List.getElem?_append_left (hlength t table ht)]
      exact ht
    · intro t i entry hentry hused
      rw [hold t i]
      · exact hentry
      · cases ht : d.prefixTables[t]? with
        | none =>
          rw [cell, ht] at hentry
          cases hentry
        | some table => exact hlength t table ht
  refine ⟨⟨hlayout, ?_, ?_, ?_, ?_, ?_⟩, hgrows⟩
  · obtain ⟨table, hroot, hzero⟩ := h.root
    exact ⟨table, hgrows.tables 0 table hroot, hzero⟩
  · intro t table ht
    rcases htable t table ht with ht | ⟨-, rfl⟩
    · exact h.coded t table ht
    · exact ⟨hindex, hle⟩
  · intro t
    by_cases ht : t = d.prefixTables.length
    · rw [ht, Function.update_self]
      exact hcodes.code_lt s hs
    · rw [Function.update_of_ne ht]
      exact h.path_lt t
  · intro t table ht x hx s' hs' hstarts
    rcases htable t table ht with ht | ⟨rfl, rfl⟩
    · rw [on_update_of_ne (Nat.ne_of_lt (hlength t table ht))] at hx
      exact h.deep t table ht x hx s' hs' hstarts
    · rw [On, Function.update_self] at hx
      by_contra hshort
      have hpre' : pre ≤ 32 := by omega
      rw [starts_congr (Nat.le_of_not_lt hshort) hpre' hx] at hstarts
      rw [hcodes.unique _ s' hs' s hs hstarts (starts_self s)] at hshort
      exact hshort hpre
  · intro t table i entry ht hentry
    rcases htable t table ht with ht | ⟨rfl, rfl⟩
    · have hlt := hlength t table ht
      rw [hold t i hlt] at hentry
      cases h.fits t table i entry ht hentry with
      | unused => exact .unused
      | symbol hs hon hlow hhigh hindex =>
        exact .symbol hs ((on_update_of_ne (Nat.ne_of_lt hlt)).mpr hon) hlow hhigh hindex
      | @next t' table' _ _ htt htable' hbehind hlong hon hindex =>
        have hlt' := Nat.ne_of_lt (hlength t' table' htable')
        apply Fits.next htt (hgrows.tables _ _ htable') hbehind hlong
        · rw [Function.update_of_ne hlt', on_update_of_ne (Nat.ne_of_lt hlt)]
          exact hon
        · rw [Function.update_of_ne hlt']
          exact hindex
    · have hi : i < 2 ^ index := by
        rw [cell_eq ht, tableEntry] at hentry
        split at hentry
        next hi =>
          rw [PrefixTable.size_eq] at hi
          exact hi
        next => cases hentry
      rw [hnew i hi] at hentry
      cases hentry
      exact .unused

theorem Grows.trans {d'' : HuffmanDecoder} (h : d.Grows d') (h' : d'.Grows d'') :
  d.Grows d''
  where
  tables t table ht := h'.tables t table (h.tables t table ht)
  cells t i entry hentry hused :=
    h'.cells t i entry (h.cells t i entry hentry hused) hused

/-- A table is added for the rest of a code, and an entry that refers to it. -/
theorem Holds.addNext (hcodes : CompleteCodes codes) (h : Holds codes d path)
    (hreached : d.Reached path) (hs : s ∈ codes) (ht : d.prefixTables[t]? = some table)
    (hon : On path t table s.huffmanCode) (hnext : table.codedLength < s.bitLength)
    (hentry : d.cell t (table.entryIndex s.huffmanCode) = some {}) {index : ℕ}
    (hindex : 0 < index) (hle : table.codedLength + index ≤ 32) :
  ∃ d', (d.addTable table.codedLength index).2.setTableEntry table
      (table.entryIndex s.huffmanCode) ⟨s.bitLength, d.prefixTables.length, s.byteValue⟩ = some d'
    ∧ Holds codes d' (Function.update path d.prefixTables.length s.huffmanCode)
    ∧ d'.Reached (Function.update path d.prefixTables.length s.huffmanCode)
    ∧ d.Grows d' ∧ d'.minCodeLength = d.minCodeLength
    ∧ d'.prefixTables[d.prefixTables.length]?
      = some ⟨table.codedLength, index, d.tableData.length⟩
  := by
  obtain ⟨hadded, hgrows⟩ := h.addTable hcodes hs hnext hindex hle
  obtain ⟨-, htables, hold, -⟩ := h.layout.addTable table.codedLength index
  have hlt : t < d.prefixTables.length := (List.getElem?_eq_some_iff.mp ht).1
  have hcoded := (h.coded t table ht).2
  have hnew : (d.addTable table.codedLength index).2.prefixTables[d.prefixTables.length]?
      = some ⟨table.codedLength, index, d.tableData.length⟩ := by
    rw [htables, List.getElem?_concat_length]
  have hfits : Fits codes (d.addTable table.codedLength index).2
      (Function.update path d.prefixTables.length s.huffmanCode) t table
      (table.entryIndex s.huffmanCode) ⟨s.bitLength, d.prefixTables.length, s.byteValue⟩ := by
    apply Fits.next hlt hnew rfl hnext
    · rw [Function.update_self, on_update_of_ne (Nat.ne_of_lt hlt)]
      exact hon
    · rw [Function.update_self]
  obtain ⟨d', heq, hholds, hgrows', htables', hmin, hcell⟩ :=
    hadded.setTableEntry (hgrows.tables t table ht)
      (PrefixTable.entryIndex_lt hcoded s.huffmanCode) hfits (by
        intro old heq
        rw [hold t _ hlt, hentry] at heq
        cases heq
        exact .inl rfl)
  have hall := hgrows.trans hgrows'
  refine ⟨d', heq, hholds, ?_, hall, hmin, hgrows'.tables _ _ hnew⟩
  intro t' table' ht' x hx
  rw [htables'] at ht'
  by_cases htt : t' = d.prefixTables.length
  · -- The words that lead to the new table come to it behind the entry.
    subst htt
    rw [hnew] at ht'
    cases ht'
    rw [On, Function.update_self] at hx
    obtain ⟨hx, hindex⟩ := (on_and_index_iff hcoded).mp hx
    obtain ⟨n, hwalk⟩ := hreached t table ht x (hx.trans hon)
    refine ⟨n + 1, walk_succ_iff.mpr ⟨t, table,
      ⟨s.bitLength, d.prefixTables.length, s.byteValue⟩, hall.walk hwalk,
      hall.tables t table ht, ?_, ?_, ?_, rfl⟩⟩
    · rw [hindex]
      exact hcell
    · exact Nat.ne_of_gt (Nat.lt_of_le_of_lt (Nat.zero_le _) hnext)
    · exact Nat.ne_of_gt hlt
  · have ht'' : d.prefixTables[t']? = some table' := by
      have hbound := (List.getElem?_eq_some_iff.mp ht').1
      rw [htables, List.length_append, List.length_singleton] at hbound
      rw [htables, List.getElem?_append_left (by omega)] at ht'
      exact ht'
    obtain ⟨n, hwalk⟩ := hreached t' table' ht'' x ((on_update_of_ne htt).mp hx)
    exact ⟨n, hall.walk hwalk⟩

/-- The loop of the constructor stores a symbol, and those before it stay. -/
theorem Holds.addSymbol (hcodes : CompleteCodes codes) (h : Holds codes d path)
    (hreached : d.Reached path) (hs : s ∈ codes) (ht : d.prefixTables[t]? = some table)
    (hon : On path t table s.huffmanCode) {turns : ℕ}
    (hturns : s.bitLength ≤ table.prefixLength + turns) :
  ∃ d' path', addSymbol s turns t d = some d' ∧ Holds codes d' path' ∧ d'.Reached path'
    ∧ d.Grows d' ∧ d'.minCodeLength = d.minCodeLength ∧ d'.Stores s
  := by
  induction turns generalizing d path t table with
  | zero =>
    have hdeep := h.deep t table ht _ hon s hs (starts_self s)
    omega
  | succ turns ih =>
    obtain ⟨hindex, hcoded⟩ := h.coded t table ht
    have hlow := h.deep t table ht _ hon s hs (starts_self s)
    have hi := PrefixTable.entryIndex_lt hcoded s.huffmanCode
    have hlong := hcodes.len_le s hs
    obtain ⟨n, hwalk⟩ := hreached t table ht _ hon
    obtain ⟨entry, hentry⟩ := h.layout.exists_cell ht hi
    have hfits := h.fits t table _ entry ht hentry
    rw [HuffmanDecoder.addSymbol, ht]
    dsimp only [Option.bind_eq_bind, Option.bind_some]
    rw [← cell_eq ht, hentry]
    dsimp only [Option.bind_some]
    have hbehind : table.prefixLength < table.codedLength := Nat.lt_add_of_pos_right hindex
    by_cases hnext : table.codedLength < s.bitLength
    · rw [if_pos hnext]
      cases hfits with
      | unused =>
        -- The rest of the code goes to a new table.
        rw [if_pos rfl]
        obtain ⟨d₁, hset, hholds, hreached', hgrows, hmin, hnew⟩ :=
          h.addNext hcodes hreached hs ht hon hnext hentry
            (Nat.lt_min.mpr ⟨by decide, by omega⟩ :
              0 < min childPrefix (s.bitLength - table.codedLength)) (by omega)
        obtain ⟨d', path', heq, hholds', hreached'', hgrows', hmin', hstores⟩ :=
          ih hholds hreached' hnew (by rw [On, Function.update_self]) (by
            change s.bitLength ≤ table.codedLength + turns
            omega)
        refine ⟨d', path', ?_, hholds', hreached'', hgrows.trans hgrows',
          hmin'.trans hmin, hstores⟩
        rw [← heq]
        change (HuffmanDecoder.setTableEntry (d.addTable _ _).2 table _
          ⟨s.bitLength, d.prefixTables.length, s.byteValue⟩ >>= _) = _
        rw [hset]
        rfl
      | @symbol s' hs' hon' hlow' hhigh hindex' =>
        -- A code does not go on behind another one.
        exfalso
        have htop := (on_and_index_iff hcoded).mpr ⟨hon'.trans hon.symm, hindex'⟩
        have hstarts := (starts_congr hhigh hcoded htop).mp (starts_self s')
        rw [hcodes.unique _ s' hs' s hs hstarts (starts_self s)] at hhigh
        omega
      | @next t' table' bitLength _ htt htable' hbehind' hlonger hon' hindex' =>
        have hused : bitLength ≠ 0 := by omega
        rw [if_neg hused]
        apply ih h hreached htable'
        · rw [On, hbehind']
          exact (on_and_index_iff hcoded).mpr ⟨hon.trans hon'.symm, hindex'.symm⟩
        · omega
    · rw [if_neg hnext]
      have hhigh := Nat.le_of_not_lt hnext
      have hold : ∀ old, d.cell t (table.entryIndex s.huffmanCode) = some old →
          old.bitLength = 0 ∨ old = ⟨s.bitLength, t, s.byteValue⟩ := by
        intro old heq
        rw [hentry] at heq
        cases heq
        cases hfits with
        | unused => exact .inl rfl
        | @symbol s' hs' hon' hlow' hhigh' hindex' =>
          have htop := (on_and_index_iff hcoded).mpr ⟨hon'.trans hon.symm, hindex'⟩
          have hstarts := (starts_congr hhigh' hcoded htop).mp (starts_self s')
          rw [hcodes.unique _ s' hs' s hs hstarts (starts_self s)]
          exact .inr rfl
        | @next t' table' _ _ htt htable' hbehind' _ hon' hindex' =>
          exfalso
          have hon'' : On path t' table' s.huffmanCode := by
            rw [On, hbehind']
            exact (on_and_index_iff hcoded).mpr ⟨hon.trans hon'.symm, hindex'.symm⟩
          have hdeep := h.deep t' table' htable' _ hon'' s hs (starts_self s)
          omega
      obtain ⟨d', heq, hholds, hgrows, htables, hmin, hcell⟩ :=
        h.setTableEntry ht hi (.symbol hs hon hlow hhigh rfl) hold
      refine ⟨d', path, heq, hholds, ?_, hgrows, hmin, n, t, table, hgrows.walk hwalk,
        hgrows.tables _ _ ht, hcell⟩
      intro t' table' ht' x hx
      rw [htables] at ht'
      obtain ⟨n', hwalk'⟩ := hreached t' table' ht' x hx
      exact ⟨n', hgrows.walk hwalk'⟩

theorem Holds.addSymbols (hcodes : CompleteCodes codes) (h : Holds codes d path)
    (hreached : d.Reached path) {symbols : List CodeEntry} (hsymbols : ∀ s ∈ symbols, s ∈ codes) :
  ∃ d' path', symbols.foldlM (fun d s => HuffmanDecoder.addSymbol s s.bitLength 0 d) d = some d'
    ∧ Holds codes d' path' ∧ d'.Reached path' ∧ d.Grows d'
    ∧ d'.minCodeLength = d.minCodeLength ∧ ∀ s ∈ symbols, d'.Stores s
  := by
  induction symbols generalizing d path with
  | nil =>
    exact ⟨d, path, rfl, h, hreached, ⟨fun _ _ h => h, fun _ _ _ h _ => h⟩, rfl,
      fun s hs => nomatch hs⟩
  | cons s symbols ih =>
    have hs := hsymbols s List.mem_cons_self
    obtain ⟨table, hroot, hzero⟩ := h.root
    have hon : On path 0 table s.huffmanCode := by
      rw [On, hzero, top_zero (hcodes.code_lt s hs), top_zero (h.path_lt 0)]
    obtain ⟨d₁, path₁, heq, hholds, hreached₁, hgrows, hmin, hstores⟩ :=
      h.addSymbol hcodes hreached hs hroot hon (Nat.le_add_left s.bitLength _)
    obtain ⟨d', path', heq', hholds', hreached', hgrows', hmin', hstores'⟩ :=
      ih hholds hreached₁ fun s' hs' => hsymbols s' (List.mem_cons_of_mem s hs')
    refine ⟨d', path', ?_, hholds', hreached', hgrows.trans hgrows', hmin'.trans hmin, ?_⟩
    · rw [List.foldlM_cons, heq]
      exact heq'
    · intro s' hs'
      rcases List.mem_cons.mp hs' with rfl | hs'
      · exact hgrows'.stores hstores (hcodes.len_pos s' hs)
      · exact hstores' s' hs'

/-- The first table, without entries in use. -/
theorem holds_root (hcodes : CompleteCodes codes) (minCodeLength : ℕ) :
  Holds codes (HuffmanDecoder.addTable ⟨[], [], minCodeLength⟩ 0 rootPrefix).2 (fun _ => 0)
    ∧ (HuffmanDecoder.addTable ⟨[], [], minCodeLength⟩ 0 rootPrefix).2.Reached (fun _ => 0)
  := by
  have hempty : Layout ⟨[], [], minCodeLength⟩ :=
    ⟨List.Pairwise.nil, fun table htable => nomatch htable⟩
  obtain ⟨hlayout, htables, -, hcells⟩ := hempty.addTable 0 rootPrefix
  have htable : ∀ (t : ℕ) table,
      (HuffmanDecoder.addTable ⟨[], [], minCodeLength⟩ 0 rootPrefix).2.prefixTables[t]?
        = some table → t = 0 ∧ table = ⟨0, rootPrefix, 0⟩ := by
    intro t table ht
    cases t with
    | zero => exact ⟨rfl, (Option.some.inj ht).symm⟩
    | succ t => cases ht
  refine ⟨⟨hlayout, ⟨_, rfl, rfl⟩, ?_, fun _ => by decide, ?_, ?_⟩, ?_⟩
  · intro t table ht
    obtain ⟨-, rfl⟩ := htable t table ht
    exact ⟨by decide, by decide⟩
  · intro t table ht x _ s hs _
    obtain ⟨-, rfl⟩ := htable t table ht
    exact hcodes.len_pos s hs
  · intro t table i entry ht hentry
    obtain ⟨rfl, rfl⟩ := htable t table ht
    have hi : i < 2 ^ rootPrefix := by
      rw [cell_eq ht, tableEntry] at hentry
      split at hentry
      next hi =>
        rw [PrefixTable.size_eq] at hi
        exact hi
      next => cases hentry
    have hunused := (hcells i hi).symm.trans hentry
    cases hunused
    exact .unused
  · intro t table ht x _
    obtain ⟨rfl, -⟩ := htable t table ht
    exact ⟨0, rfl⟩

/-! ### Where a word leads -/

/-- Where a word leads from a table that it comes to: to the symbol whose code it begins with, at
the index of the code, or by its own index to the next table. -/
structure Leads (codes : List CodeEntry) (d : HuffmanDecoder) (path : ℕ → ℕ) : Prop where
  layout : d.Layout
  root : ∃ table, d.prefixTables[0]? = some table ∧ table.prefixLength = 0
  coded : ∀ (t : ℕ) table, d.prefixTables[t]? = some table → table.codedLength ≤ 32
  path_lt : ∀ t, path t < 2 ^ 32
  deep : ∀ (t : ℕ) table, d.prefixTables[t]? = some table → ∀ x, On path t table x →
    ∀ s ∈ codes, Starts x s → table.prefixLength < s.bitLength
  symbol : ∀ (t : ℕ) table, d.prefixTables[t]? = some table → ∀ x, On path t table x →
    ∀ s ∈ codes, Starts x s → s.bitLength ≤ table.codedLength →
      d.cell t (table.entryIndex s.huffmanCode) = some ⟨s.bitLength, t, s.byteValue⟩
  next : ∀ (t : ℕ) table, d.prefixTables[t]? = some table → ∀ x, On path t table x →
    ∀ s ∈ codes, Starts x s → table.codedLength < s.bitLength →
      ∃ t' table' n v, d.cell t (table.entryIndex x) = some ⟨n, t', v⟩ ∧ t < t'
        ∧ table.codedLength < n ∧ d.prefixTables[t']? = some table' ∧ On path t' table' x

theorem walk_isSome {m : ℕ} (h : n ≤ m) (hm : (d.walk x m).isSome = true) :
  (d.walk x n).isSome = true
  := by
  induction h with
  | refl => exact hm
  | @step m h ih =>
    apply ih
    obtain ⟨t', ht'⟩ := Option.isSome_iff_exists.mp hm
    obtain ⟨t, -, -, ht, -⟩ := walk_succ_iff.mp ht'
    rw [ht]
    rfl

/-- From a table that is not the last one of a walk an entry refers to another table. -/
theorem entry_of_walk {m : ℕ} (h : n < m) (hn : d.walk x n = some t)
    (hm : (d.walk x m).isSome = true) (ht : d.prefixTables[t]? = some table) :
  ∃ entry, d.cell t (table.entryIndex x) = some entry ∧ entry.bitLength ≠ 0 ∧ entry.nextTable ≠ t
  := by
  obtain ⟨t', ht'⟩ := Option.isSome_iff_exists.mp (walk_isSome (Nat.succ_le_of_lt h) hm)
  obtain ⟨t₀, table₀, entry, ht₀, htable₀, hentry, hused, hne, -⟩ := walk_succ_iff.mp ht'
  rw [hn] at ht₀
  cases ht₀
  rw [ht] at htable₀
  cases htable₀
  exact ⟨entry, hentry, hused, hne⟩

/-- Tables that hold a code and store all its symbols lead every word to its symbol. -/
theorem Holds.entry (hcodes : CompleteCodes codes) (h : Holds codes d path)
    (hreached : d.Reached path) (hstores : ∀ s ∈ codes, d.Stores s)
    (ht : d.prefixTables[t]? = some table) (hs : s ∈ codes)
    (hon : On path t table s.huffmanCode) :
  (s.bitLength ≤ table.codedLength →
    d.cell t (table.entryIndex s.huffmanCode) = some ⟨s.bitLength, t, s.byteValue⟩)
  ∧ (table.codedLength < s.bitLength →
    ∃ t' table' n v, d.cell t (table.entryIndex s.huffmanCode) = some ⟨n, t', v⟩ ∧ t < t'
      ∧ table.codedLength < n ∧ d.prefixTables[t']? = some table'
      ∧ table'.prefixLength = table.codedLength ∧ On path t' table' s.huffmanCode)
  := by
  have hcoded := (h.coded t table ht).2
  obtain ⟨n, hn⟩ := hreached t table ht _ hon
  obtain ⟨m, t_s, table_s, hm, hts, hcell⟩ := hstores s hs
  rcases Nat.lt_trichotomy n m with hnm | rfl | hmn
  · -- The walk to the symbol goes on from the table.
    obtain ⟨entry, hentry, hused, hne⟩ := entry_of_walk hnm hn (by rw [hm]; rfl) ht
    cases h.fits t table _ entry ht hentry with
    | unused => exact absurd rfl hused
    | symbol => exact absurd rfl hne
    | @next t' table' n v hlt htable' hbehind hlong hon' hindex =>
      have hon'' : On path t' table' s.huffmanCode := by
        rw [On, hbehind]
        exact (on_and_index_iff hcoded).mpr ⟨hon.trans hon'.symm, hindex.symm⟩
      have hdeep := h.deep t' table' htable' _ hon'' s hs (starts_self s)
      constructor
      · intro hshort
        omega
      · intro _
        exact ⟨t', table', n, v, hentry, hlt, hlong, htable', hbehind, hon''⟩
  · rw [hn] at hm
    cases hm
    rw [ht] at hts
    cases hts
    refine ⟨fun _ => hcell, fun hlong => ?_⟩
    have hfits := h.fits t table _ _ ht hcell
    generalize heq : (⟨s.bitLength, t, s.byteValue⟩ : PrefixTableEntry) = entry at hfits
    cases hfits with
    | unused =>
      obtain ⟨hzero, -, -⟩ := PrefixTableEntry.mk.inj heq
      exact absurd hzero (Nat.ne_of_gt (hcodes.len_pos s hs))
    | @symbol s' hs' _ _ hhigh =>
      obtain ⟨hlength, -, -⟩ := PrefixTableEntry.mk.inj heq
      rw [hlength] at hlong
      exact absurd hhigh (Nat.not_le_of_lt hlong)
    | next hlt =>
      obtain ⟨-, hself, -⟩ := PrefixTableEntry.mk.inj heq
      exact absurd hself (Nat.ne_of_lt hlt)
  · obtain ⟨entry, hentry, -, hne⟩ := entry_of_walk hmn hm (by rw [hn]; rfl) hts
    rw [hcell] at hentry
    cases hentry
    exact absurd rfl hne

theorem Holds.leads (hcodes : CompleteCodes codes) (h : Holds codes d path)
    (hreached : d.Reached path) (hstores : ∀ s ∈ codes, d.Stores s) :
  Leads codes d path
  := by
  have hon : ∀ (t : ℕ) table, d.prefixTables[t]? = some table → ∀ x, On path t table x →
      ∀ s ∈ codes, Starts x s → On path t table s.huffmanCode := by
    intro t table ht x hx s hs hstarts
    have hlow := h.deep t table ht x hx s hs hstarts
    exact (top_congr (Nat.le_of_lt hlow) (hcodes.len_le s hs) hstarts).symm.trans hx
  refine ⟨h.layout, h.root, fun t table ht => (h.coded t table ht).2, h.path_lt, h.deep, ?_, ?_⟩
  · intro t table ht x hx s hs hstarts hshort
    exact (h.entry hcodes hreached hstores ht hs (hon t table ht x hx s hs hstarts)).1
      hshort
  · intro t table ht x hx s hs hstarts hlong
    obtain ⟨t', table', n, v, hcell, hlt, hn, htable', hbehind, hon'⟩ :=
      (h.entry hcodes hreached hstores ht hs (hon t table ht x hx s hs hstarts)).2 hlong
    have htop : top 32 table.codedLength x = top 32 table.codedLength s.huffmanCode :=
      top_congr (Nat.le_of_lt hlong) (hcodes.len_le s hs) hstarts
    rw [← ((on_and_index_iff (h.coded t table ht).2).mp htop).2] at hcell
    refine ⟨t', table', n, v, hcell, hlt, hn, htable', ?_⟩
    rw [On, hbehind] at hon' ⊢
    exact htop.trans hon'

end HuffmanDecoder

end HPack
