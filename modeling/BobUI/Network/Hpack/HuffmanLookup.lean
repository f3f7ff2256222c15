import BobUI.Network.Hpack.HuffmanTables

/-!
# Looking codes up

A code that ends before the bits of a table do is stored at the first of the indexes that begin
with its rest.  The constructor fills the others with the same symbol, and skips them, since a
prefix code has no other symbol there.  The lookup of a word finds then the symbol whose code the
word begins with, from the first table on.
-/

namespace HPack

open PrefixCode

open HuffmanDecoder (CompleteCodes)

namespace HuffmanDecoder

variable {codes : List CodeEntry} {d d' : HuffmanDecoder} {path : ℕ → ℕ} {t t' i j : ℕ}
  {table table' : PrefixTable}

/-! ### The holes of a table -/

/-- Every word that comes to a table and begins with a code that ends in it finds the symbol. -/
def Filled (codes : List CodeEntry) (d : HuffmanDecoder) (path : ℕ → ℕ) (t : ℕ)
    (table : PrefixTable) : Prop :=
  ∀ x, On path t table x → ∀ s ∈ codes, Starts x s → s.bitLength ≤ table.codedLength →
    d.cell t (table.entryIndex x) = some ⟨s.bitLength, t, s.byteValue⟩

/-- An entry is set at some indexes. -/
theorem Layout.setTableEntries (h : d.Layout) (ht : d.prefixTables[t]? = some table)
    (entry : PrefixTableEntry) {ks : List ℕ} (hks : ∀ k ∈ ks, j + k < table.size) :
  ∃ d', ks.foldlM (fun d k => HuffmanDecoder.setTableEntry d table (j + k) entry) d = some d'
    ∧ d'.Layout ∧ d'.prefixTables = d.prefixTables ∧ d'.minCodeLength = d.minCodeLength
    ∧ (∀ k ∈ ks, d'.cell t (j + k) = some entry)
    ∧ ∀ t' i, (t' = t → ∀ k ∈ ks, i ≠ j + k) → d'.cell t' i = d.cell t' i
  := by
  induction ks generalizing d with
  | nil => exact ⟨d, rfl, h, rfl, rfl, (fun k hk => nomatch hk), fun _ _ _ => rfl⟩
  | cons k ks ih =>
    obtain ⟨d₁, heq, hlayout, htables, hmin, hcell, hcells⟩ :=
      h.setTableEntry ht (hks k List.mem_cons_self) entry
    obtain ⟨d', heq', hlayout', htables', hmin', hset, hkept⟩ :=
      ih hlayout (htables.symm ▸ ht) fun k' hk' => hks k' (List.mem_cons_of_mem k hk')
    refine ⟨d', ?_, hlayout', htables'.trans htables, hmin'.trans hmin, ?_, ?_⟩
    · rw [List.foldlM_cons, heq]
      exact heq'
    · intro k' hk'
      rcases List.mem_cons.mp hk' with rfl | hk'
      · by_cases hagain : k' ∈ ks
        · exact hset k' hagain
        · rw [hkept t (j + k') fun _ k hk heq => hagain (Nat.add_left_cancel heq ▸ hk)]
          exact hcell
      · exact hset k' hk'
    · intro t' i hne
      rw [hkept t' i fun htt k' hk' => hne htt k' (List.mem_cons_of_mem k hk')]
      apply hcells
      intro hplace
      cases hplace
      exact hne rfl k List.mem_cons_self rfl

variable {s : CodeEntry}

/-- The words that lead to a table and begin with a code that ends in it are those with the index
of the code, or one of the next ones. -/
theorem starts_iff (hcodes : CompleteCodes codes) (hcoded : table.codedLength ≤ 32)
    (hs : s ∈ codes) (hlow : table.prefixLength < s.bitLength)
    (hhigh : s.bitLength ≤ table.codedLength) {x : ℕ}
    (htop : top 32 table.prefixLength x = top 32 table.prefixLength s.huffmanCode) :
  (Starts x s ↔ table.entryIndex s.huffmanCode ≤ table.entryIndex x
      ∧ table.entryIndex x
        < table.entryIndex s.huffmanCode + 2 ^ (table.codedLength - s.bitLength))
    ∧ table.entryIndex s.huffmanCode + 2 ^ (table.codedLength - s.bitLength) ≤ table.size
  := by
  rw [PrefixTable.entryIndex_eq hcoded, PrefixTable.entryIndex_eq hcoded, table.size_eq]
  exact begins_iff_index hlow hhigh hcoded (hcodes.aligned s hs) htop

/-- A symbol that a word which leads to a table begins with: its code leads to the table, too. -/
theorem Leads.on_code (hcodes : CompleteCodes codes) (h : Leads codes d path)
    (ht : d.prefixTables[t]? = some table) {x : ℕ} (hx : On path t table x) (hs : s ∈ codes)
    (hstarts : Starts x s) :
  On path t table s.huffmanCode
  := by
  have hlow := h.deep t table ht x hx s hs hstarts
  exact (top_congr (Nat.le_of_lt hlow) (hcodes.len_le s hs) hstarts).symm.trans hx

/-- Where holes are filled with the symbol that the words with their indexes begin with, words
lead where they have led. -/
theorem Leads.fill (hcodes : CompleteCodes codes) (h : Leads codes d path)
    (ht : d.prefixTables[t]? = some table) (hs : s ∈ codes) (hon : On path t table s.huffmanCode)
    (hshort : s.bitLength ≤ table.codedLength) (hlayout : d'.Layout)
    (htables : d'.prefixTables = d.prefixTables)
    (hkept : ∀ t' i, (t' = t → i ≤ table.entryIndex s.huffmanCode
        ∨ table.entryIndex s.huffmanCode + 2 ^ (table.codedLength - s.bitLength) ≤ i) →
      d'.cell t' i = d.cell t' i) :
  Leads codes d' path
  := by
  have hcoded := h.coded t table ht
  have hlow := h.deep t table ht _ hon s hs (starts_self s)
  refine ⟨hlayout, ?_, ?_, h.path_lt, ?_, ?_, ?_⟩
  · rw [htables]
    exact h.root
  · rw [htables]
    exact h.coded
  · rw [htables]
    exact h.deep
  · intro t' table' ht' x hx s' hs' hstarts hshort'
    rw [htables] at ht'
    have hcell := h.symbol t' table' ht' x hx s' hs' hstarts hshort'
    rw [hkept, hcell]
    rintro rfl
    rw [ht] at ht'
    cases ht'
    by_contra hinside
    rw [not_or] at hinside
    have hon' := h.on_code hcodes ht hx hs' hstarts
    have hrange := (starts_iff hcodes hcoded hs hlow hshort (hon'.trans hon.symm)).1
    have hboth := hrange.mpr ⟨by omega, by omega⟩
    rw [hcodes.unique _ s' hs' s hs (starts_self s') hboth] at hinside
    omega
  · intro t' table' ht' x hx s' hs' hstarts hlong
    rw [htables] at ht'
    obtain ⟨t'', table'', n, v, hcell, hlt, hn, htable'', hon''⟩ :=
      h.next t' table' ht' x hx s' hs' hstarts hlong
    refine ⟨t'', table'', n, v, ?_, hlt, hn, htables.symm ▸ htable'', hon''⟩
    rw [hkept, hcell]
    rintro rfl
    rw [ht] at ht'
    cases ht'
    by_contra hinside
    rw [not_or] at hinside
    have hrange := (starts_iff hcodes hcoded hs hlow hshort (hx.trans hon.symm)).1
    have hboth := hrange.mpr ⟨by omega, by omega⟩
    rw [hcodes.unique _ s' hs' s hs hstarts hboth] at hlong
    omega

/-- There is a word for every index of a table. -/
theorem Leads.exists_word (h : Leads codes d path) (ht : d.prefixTables[t]? = some table)
    (hi : i < table.size) :
  ∃ x < 2 ^ 32, On path t table x ∧ table.entryIndex x = i
  := by
  have hcoded := h.coded t table ht
  rw [table.size_eq] at hi
  obtain ⟨x, hx, htop, hindex⟩ := exists_index hcoded (h.path_lt t) hi
  refine ⟨x, hx, htop, ?_⟩
  rw [PrefixTable.entryIndex_eq hcoded]
  exact hindex

/-- One turn of the loop that fills holes: up to the next code, or the next entry that refers to
another table, the words find their symbols. -/
theorem Leads.fillStep (hcodes : CompleteCodes codes) (h : Leads codes d path)
    (ht : d.prefixTables[t]? = some table) (hj : j < table.size)
    (hstart : ∀ x, On path t table x → table.entryIndex x = j → ∀ s ∈ codes, Starts x s →
      s.bitLength ≤ table.codedLength → table.entryIndex s.huffmanCode = j) (turns : ℕ) :
  ∃ range d', 0 < range ∧ fillHoles table (turns + 1) j d = fillHoles table turns (j + range) d'
    ∧ Leads codes d' path ∧ d'.prefixTables = d.prefixTables
    ∧ d'.minCodeLength = d.minCodeLength
    ∧ (∀ t' i, (t' = t → i < j) → d'.cell t' i = d.cell t' i)
    ∧ (∀ x, On path t table x → j ≤ table.entryIndex x → table.entryIndex x < j + range →
      ∀ s ∈ codes, Starts x s → s.bitLength ≤ table.codedLength →
        d'.cell t (table.entryIndex x) = some ⟨s.bitLength, t, s.byteValue⟩)
    ∧ ∀ x, On path t table x → table.entryIndex x = j + range → ∀ s ∈ codes, Starts x s →
      s.bitLength ≤ table.codedLength → table.entryIndex s.huffmanCode = j + range
  := by
  have hcoded := h.coded t table ht
  obtain ⟨x₀, hx₀, hon₀, hindex₀⟩ := h.exists_word ht hj
  obtain ⟨s₀, hs₀, hstarts₀⟩ := hcodes.begins x₀ hx₀
  have hlow₀ := h.deep t table ht x₀ hon₀ s₀ hs₀ hstarts₀
  have hcode₀ := h.on_code hcodes ht hon₀ hs₀ hstarts₀
  -- A symbol that starts two words starts those between them.
  have hbetween : ∀ x y, On path t table x → On path t table y → ∀ s ∈ codes, Starts x s →
      s.bitLength ≤ table.codedLength → table.entryIndex s.huffmanCode ≤ table.entryIndex y →
      table.entryIndex y ≤ table.entryIndex x → Starts y s := by
    intro x y hx hy s hs hstarts hshort hle hle'
    have hlow := h.deep t table ht x hx s hs hstarts
    have hcode := h.on_code hcodes ht hx hs hstarts
    have hrange := ((starts_iff hcodes hcoded hs hlow hshort (hx.trans hcode.symm)).1).mp
      hstarts
    apply ((starts_iff hcodes hcoded hs hlow hshort (hy.trans hcode.symm)).1).mpr
    exact ⟨hle, by omega⟩
  have hle : ∀ x, On path t table x → ∀ s ∈ codes, Starts x s →
      s.bitLength ≤ table.codedLength →
        table.entryIndex s.huffmanCode ≤ table.entryIndex x := by
    intro x hx s hs hstarts hshort
    have hlow := h.deep t table ht x hx s hs hstarts
    have hcode := h.on_code hcodes ht hx hs hstarts
    exact (((starts_iff hcodes hcoded hs hlow hshort (hx.trans hcode.symm)).1).mp
      hstarts).1
  by_cases hshort₀ : s₀.bitLength ≤ table.codedLength
  · -- The entry is that of a symbol, and those behind it are the holes for its other words.
    have hcode : table.entryIndex s₀.huffmanCode = j :=
      hstart x₀ hon₀ hindex₀ s₀ hs₀ hstarts₀ hshort₀
    have hcell := h.symbol t table ht x₀ hon₀ s₀ hs₀ hstarts₀ hshort₀
    have hrange : ∀ x, On path t table x → (Starts x s₀ ↔ j ≤ table.entryIndex x
        ∧ table.entryIndex x < j + 2 ^ (table.codedLength - s₀.bitLength)) := by
      intro x hx
      rw [← hcode]
      exact (starts_iff hcodes hcoded hs₀ hlow₀ hshort₀ (hx.trans hcode₀.symm)).1
    have hsize := (starts_iff hcodes hcoded hs₀ hlow₀ hshort₀ (hon₀.trans hcode₀.symm)).2
    have hpos : 0 < 2 ^ (table.codedLength - s₀.bitLength) := Nat.two_pow_pos _
    have hnext : ∀ x, On path t table x →
        table.entryIndex x = j + 2 ^ (table.codedLength - s₀.bitLength) → ∀ s ∈ codes, Starts x s →
        s.bitLength ≤ table.codedLength →
          table.entryIndex s.huffmanCode = j + 2 ^ (table.codedLength - s₀.bitLength) := by
      intro x hx hindex s hs hstarts hshort
      have hcode' := hle x hx s hs hstarts hshort
      by_contra hbefore
      obtain ⟨y, -, hy, hlast⟩ := h.exists_word ht
        (by omega : j + 2 ^ (table.codedLength - s₀.bitLength) - 1 < table.size)
      have hstarts' := hbetween x y hx hy s hs hstarts hshort (by omega) (by omega)
      have hstarts'' := (hrange y hy).mpr ⟨by omega, by omega⟩
      rw [hcodes.unique _ s hs s₀ hs₀ hstarts' hstarts'', hrange x hx] at hstarts
      omega
    rw [hcode, cell_eq ht] at hcell
    by_cases hhole : s₀.bitLength < table.codedLength
    · have hks : ∀ k ∈ List.range' 1 (2 ^ (table.codedLength - s₀.bitLength) - 1),
          j + k < table.size := by
        intro k hk
        rw [List.mem_range'_1] at hk
        omega
      obtain ⟨d', hfold, hlayout, htables, hmin, hset, hkept⟩ :=
        h.layout.setTableEntries ht ⟨s₀.bitLength, t, s₀.byteValue⟩ hks
      have hothers : ∀ t' i, (t' = t → i ≤ j ∨ j + 2 ^ (table.codedLength - s₀.bitLength) ≤ i) →
          d'.cell t' i = d.cell t' i := by
        intro t' i hi
        apply hkept
        intro htt k hk
        have hi' := hi htt
        rw [List.mem_range'_1] at hk
        omega
      refine ⟨_, d', hpos, ?_, h.fill hcodes ht hs₀ hcode₀ hshort₀ hlayout htables
        (hcode.symm ▸ hothers), htables, hmin, ?_, ?_, hnext⟩
      · have hused := Nat.ne_of_gt (hcodes.len_pos s₀ hs₀)
        rw [fillHoles, if_pos hj, hcell]
        dsimp only [Option.bind_eq_bind, Option.bind_some]
        rw [if_pos ⟨hused, hhole⟩, Nat.shiftLeft_eq, Nat.one_mul, hfold]
        rfl
      · intro t' i hi
        exact hothers t' i fun htt => .inl (Nat.le_of_lt (hi htt))
      · intro x hx hfrom hto s hs hstarts hshort
        rw [hcodes.unique _ s hs s₀ hs₀ hstarts ((hrange x hx).mpr ⟨hfrom, hto⟩)]
        rcases Nat.eq_or_lt_of_le hfrom with heq | hlt
        · rw [← heq, hothers t j fun _ => .inl (Nat.le_refl j), cell_eq ht]
          exact hcell
        · have hk := hset (table.entryIndex x - j) (by rw [List.mem_range'_1]; omega)
          rw [Nat.add_sub_cancel' hfrom] at hk
          exact hk
    · have hexact : table.codedLength - s₀.bitLength = 0 := by omega
      rw [hexact, Nat.pow_zero] at hnext hrange
      refine ⟨1, d, Nat.one_pos, ?_, h, rfl, rfl, fun _ _ _ => rfl, ?_, hnext⟩
      · rw [fillHoles, if_pos hj, hcell]
        exact if_neg (fun h => hhole h.2)
      · intro x hx hfrom hto s hs hstarts hshort
        rw [hcodes.unique _ s hs s₀ hs₀ hstarts ((hrange x hx).mpr ⟨hfrom, hto⟩),
          (by omega : table.entryIndex x = j), cell_eq ht]
        exact hcell
  · -- The entry refers to another table.
    obtain ⟨t', table', n, v, hcell, -, hn, -, -⟩ :=
      h.next t table ht x₀ hon₀ s₀ hs₀ hstarts₀ (Nat.lt_of_not_le hshort₀)
    rw [hindex₀, cell_eq ht] at hcell
    refine ⟨1, d, Nat.one_pos, ?_, h, rfl, rfl, fun _ _ _ => rfl, ?_, ?_⟩
    · rw [fillHoles, if_pos hj, hcell]
      exact if_neg (fun hhole => Nat.not_lt_of_lt hn hhole.2)
    · intro x hx hfrom hto s hs hstarts hshort
      exfalso
      have hstarts' := hbetween x x₀ hx hon₀ s hs hstarts hshort
        (by have hcode := hle x hx s hs hstarts hshort; omega) (by omega)
      rw [hcodes.unique _ s hs s₀ hs₀ hstarts' hstarts₀] at hshort
      exact hshort₀ hshort
    · intro x hx hindex s hs hstarts hshort
      have hcode := hle x hx s hs hstarts hshort
      by_contra hbefore
      have hstarts' := hbetween x x₀ hx hon₀ s hs hstarts hshort (by omega) (by omega)
      rw [hcodes.unique _ s hs s₀ hs₀ hstarts' hstarts₀] at hshort
      exact hshort₀ hshort

/-- The loop fills the holes of a table, and leaves the other ones alone. -/
theorem Leads.fillHoles (turns : ℕ) (hcodes : CompleteCodes codes) (h : Leads codes d path)
    (ht : d.prefixTables[t]? = some table)
    (hfilled : ∀ x, On path t table x → table.entryIndex x < j → ∀ s ∈ codes, Starts x s →
      s.bitLength ≤ table.codedLength →
        d.cell t (table.entryIndex x) = some ⟨s.bitLength, t, s.byteValue⟩)
    (hstart : ∀ x, On path t table x → table.entryIndex x = j → ∀ s ∈ codes, Starts x s →
      s.bitLength ≤ table.codedLength → table.entryIndex s.huffmanCode = j)
    (hturns : table.size ≤ j + turns) :
  ∃ d', HuffmanDecoder.fillHoles table turns j d = some d' ∧ Leads codes d' path
    ∧ d'.prefixTables = d.prefixTables ∧ d'.minCodeLength = d.minCodeLength
    ∧ Filled codes d' path t table ∧ ∀ t' i, t' ≠ t → d'.cell t' i = d.cell t' i
  := by
  have hend : table.size ≤ j → Filled codes d path t table := by
    intro hle x hx
    have hindex := PrefixTable.entryIndex_lt (h.coded t table ht) x
    exact hfilled x hx (by omega)
  induction turns generalizing d j with
  | zero =>
    refine ⟨d, ?_, h, rfl, rfl, hend hturns, fun _ _ _ => rfl⟩
    exact if_neg (Nat.not_lt_of_le hturns)
  | succ turns ih =>
    rcases Nat.lt_or_ge j table.size with hj | hj
    · obtain ⟨range, d₁, hpos, heq, hleads, htables, hmin, hkept, hfound, hnext⟩ :=
        h.fillStep hcodes ht hj hstart turns
      have hfilled₁ : ∀ x, On path t table x → table.entryIndex x < j + range → ∀ s ∈ codes,
          Starts x s → s.bitLength ≤ table.codedLength →
            d₁.cell t (table.entryIndex x) = some ⟨s.bitLength, t, s.byteValue⟩ := by
        intro x hx hindex s hs hstarts hshort
        rcases Nat.lt_or_ge (table.entryIndex x) j with hbefore | hfrom
        · rw [hkept t _ fun _ => hbefore]
          exact hfilled x hx hbefore s hs hstarts hshort
        · exact hfound x hx hfrom hindex s hs hstarts hshort
      obtain ⟨d', heq', hleads', htables', hmin', hall, hothers⟩ :=
        ih hleads (htables.symm ▸ ht) hfilled₁ hnext (by omega) (by
          intro hle x hx
          have hindex := PrefixTable.entryIndex_lt (h.coded t table ht) x
          exact hfilled₁ x hx (by omega))
      refine ⟨d', heq.trans heq', hleads', htables'.trans htables, hmin'.trans hmin,
        hall, ?_⟩
      intro t' i hne
      rw [hothers t' i hne, hkept t' i fun heq => absurd heq hne]
    · refine ⟨d, ?_, h, rfl, rfl, hend hj, fun _ _ _ => rfl⟩
      rw [HuffmanDecoder.fillHoles, if_neg (Nat.not_lt_of_le hj)]

/-- The holes of several tables are filled. -/
theorem Leads.fillTables (hcodes : CompleteCodes codes) (h : Leads codes d path)
    (tables : List PrefixTable) (htables : ∀ table ∈ tables, table ∈ d.prefixTables) :
  ∃ d', tables.foldlM (fun d table => HuffmanDecoder.fillHoles table table.size 0 d) d = some d'
    ∧ Leads codes d' path ∧ d'.prefixTables = d.prefixTables
    ∧ d'.minCodeLength = d.minCodeLength
    ∧ ∀ (t : ℕ) table, d.prefixTables[t]? = some table →
      table ∈ tables ∨ Filled codes d path t table → Filled codes d' path t table
  := by
  induction tables generalizing d with
  | nil =>
    refine ⟨d, rfl, h, rfl, rfl, ?_⟩
    rintro t table - (hmem | hfilled)
    · cases hmem
    · exact hfilled
  | cons table tables ih =>
    obtain ⟨t, ht⟩ := List.mem_iff_getElem?.mp (htables table List.mem_cons_self)
    have hcoded := h.coded t table ht
    obtain ⟨d₁, heq, hleads, hsame, hmin, hfilled, hothers⟩ :=
      h.fillHoles table.size hcodes ht (j := 0)
        (fun x _ hindex => absurd hindex (Nat.not_lt_zero _))
        (by
          intro x hx hindex s hs hstarts hshort
          have hlow := h.deep t table ht x hx s hs hstarts
          have hon := h.on_code hcodes ht hx hs hstarts
          have hrange := ((starts_iff hcodes hcoded hs hlow hshort
            (hx.trans hon.symm)).1).mp hstarts
          omega)
        (Nat.le_add_left _ 0)
    obtain ⟨d', heq', hleads', hsame', hmin', hall⟩ := ih hleads fun table' htable' =>
      hsame.symm ▸ htables table' (List.mem_cons_of_mem table htable')
    refine ⟨d', ?_, hleads', hsame'.trans hsame, hmin'.trans hmin, ?_⟩
    · rw [List.foldlM_cons, heq]
      exact heq'
    · intro t' table' ht' hor
      apply hall t' table' (hsame.symm ▸ ht')
      by_cases htt : t' = t
      · rw [htt, ht] at ht'
        cases ht'
        rw [htt]
        exact .inr hfilled
      · rcases hor with hmem | hfilled'
        · rcases List.mem_cons.mp hmem with rfl | hmem
          · -- A table has one number only.
            exfalso
            have hpos : 0 < table'.size := by
              rw [table'.size_eq]
              exact Nat.two_pow_pos _
            exact htt (h.layout.place_inj ht' ht hpos hpos rfl).1
          · exact .inl hmem
        · right
          intro x hx s hs hstarts hshort
          rw [hothers t' _ htt]
          exact hfilled' x hx s hs hstarts hshort

/-! ### The constructor -/

theorem not_sortsBefore_iff {code1 code2 : CodeEntry} :
  (!sortsBefore code2 code1) = true ↔ code2.bitLength < code1.bitLength
    ∨ code2.bitLength = code1.bitLength ∧ code2.byteValue ≤ code1.byteValue
  := by
  rw [sortsBefore, Bool.not_eq_true']
  split_ifs with hlength
  · rw [decide_eq_false_iff_not]
    omega
  · rw [decide_eq_false_iff_not]
    omega

/-- The symbols are sorted: the last one has the shortest code. -/
theorem le_of_getLast {shortest : CodeEntry}
    (h : (codes.mergeSort fun code1 code2 => !sortsBefore code2 code1).getLast? = some shortest) :
  ∀ s ∈ codes, shortest.bitLength ≤ s.bitLength
  := by
  have hsorted := @List.pairwise_mergeSort _ (fun code1 code2 => !sortsBefore code2 code1)
    (by
      intro code1 code2 code3 h₁ h₂
      rw [not_sortsBefore_iff] at *
      omega)
    (by
      intro code1 code2
      rw [Bool.or_eq_true, not_sortsBefore_iff, not_sortsBefore_iff]
      omega) codes
  obtain ⟨before, hbefore⟩ := List.getLast?_eq_some_iff.mp h
  rw [hbefore, List.pairwise_append] at hsorted
  intro s hs
  rw [← (List.mergeSort_perm codes _).mem_iff, hbefore, List.mem_append, List.mem_singleton] at hs
  rcases hs with hs | rfl
  · have hle := hsorted.2.2 s hs shortest (List.mem_singleton_self shortest)
    rw [not_sortsBefore_iff] at hle
    omega
  · exact Nat.le_refl _

/-- What the constructor makes of the codes of a code: tables that lead every word to its symbol. -/
structure Decodes (codes : List CodeEntry) (d : HuffmanDecoder) (path : ℕ → ℕ) : Prop
    extends Leads codes d path where
  filled : ∀ (t : ℕ) table, d.prefixTables[t]? = some table → Filled codes d path t table
  minCodeLength_le : ∀ s ∈ codes, d.minCodeLength ≤ s.bitLength

theorem build_ends (hcodes : CompleteCodes codes) :
  ∃ d path, build codes = some d ∧ Decodes codes d path
  := by
  have hperm := List.mergeSort_perm codes fun code1 code2 => !sortsBefore code2 code1
  have hshortest := @le_of_getLast codes
  rw [build]
  generalize codes.mergeSort (fun code1 code2 => !sortsBefore code2 code1) = symbols
    at hperm hshortest ⊢
  cases hlast : symbols.getLast? with
  | none =>
    -- Some word begins with a code.
    obtain ⟨s, hs, -⟩ := hcodes.begins 0 (by decide)
    rw [List.getLast?_eq_none_iff.mp hlast] at hperm
    rw [← hperm.mem_iff] at hs
    cases hs
  | some shortest =>
    obtain ⟨hroot, hreached⟩ := holds_root hcodes shortest.bitLength
    obtain ⟨d₁, path, heq₁, hholds, hreached₁, -, hmin₁, hstores⟩ :=
      hroot.addSymbols hcodes hreached fun s hs => hperm.mem_iff.mp hs
    have hleads := hholds.leads hcodes hreached₁ fun s hs =>
      hstores s (hperm.mem_iff.mpr hs)
    obtain ⟨d, heq, hleads', htables, hmin, hfilled⟩ :=
      hleads.fillTables hcodes d₁.prefixTables fun table htable => htable
    refine ⟨d, path, ?_, hleads', ?_, ?_⟩
    · dsimp only [Option.bind_eq_bind, Option.bind_some]
      rw [heq₁]
      exact heq
    · intro t table ht
      rw [htables] at ht
      exact hfilled t table ht (.inl (List.mem_of_getElem? ht))
    · intro s hs
      rw [hmin, hmin₁]
      exact hshortest hlast s hs

/-- A word is looked up from a table that it comes to: the symbol whose code it begins with is
found. -/
theorem Decodes.lookUp (h : Decodes codes d path) {x : ℕ} (ht : d.prefixTables[t]? = some table)
    (hx : On path t table x) (hs : s ∈ codes) (hstarts : Starts x s) {turns : ℕ}
    (hturns : d.prefixTables.length ≤ t + turns) {entry : PrefixTableEntry}
    (hentry : d.cell t (table.entryIndex x) = some entry) :
  ∃ t', d.lookUp x turns t entry = some ⟨s.bitLength, t', s.byteValue⟩
  := by
  induction turns generalizing t table entry with
  | zero =>
    have hlt := (List.getElem?_eq_some_iff.mp ht).1
    omega
  | succ turns ih =>
    rw [HuffmanDecoder.lookUp]
    by_cases hshort : s.bitLength ≤ table.codedLength
    · have hcell := h.filled t table ht x hx s hs hstarts hshort
      rw [hentry] at hcell
      cases hcell
      exact ⟨t, if_pos rfl⟩
    · obtain ⟨t', table', n, v, hcell, hlt, -, ht', hx'⟩ :=
        h.next t table ht x hx s hs hstarts (Nat.lt_of_not_le hshort)
      rw [hentry] at hcell
      cases hcell
      have hcoded := h.coded t' table' ht'
      obtain ⟨entry', hentry'⟩ := h.layout.exists_cell ht' (PrefixTable.entryIndex_lt hcoded x)
      obtain ⟨t'', hfound⟩ := ih ht' hx' (by omega) hentry'
      refine ⟨t'', ?_⟩
      rw [if_neg (Nat.ne_of_gt hlt), ht']
      dsimp only [Option.bind_eq_bind, Option.bind_some]
      rw [← cell_eq ht', hentry']
      exact hfound

end HuffmanDecoder

/-! ### The codes of the octets -/

/-- The entries, those with shorter codes first: each code begins where the words that begin with
the last one end. -/
def CodeEntry.byLength :
    { symbols : List CodeEntry //
      Tiles 32 CodeEntry.huffmanCode CodeEntry.bitLength 0 symbols } :=
  ⟨(List.range' 5 26).flatMap fun n => staticHuffmanCodeTable.filter (·.bitLength = n),
    by decide +kernel⟩

theorem CodeEntry.mem_byLength (s : CodeEntry) :
  s ∈ staticHuffmanCodeTable ↔ s ∈ CodeEntry.byLength.val
  := by
  have hlength :
      (staticHuffmanCodeTable.all fun s => 5 ≤ s.bitLength && s.bitLength ≤ 30) = true := by
    set_option maxRecDepth 10000 in
    decide
  simp only [CodeEntry.byLength, List.mem_flatMap, List.mem_range'_1, List.mem_filter,
    decide_eq_true_eq]
  constructor
  · intro hs
    have hs_length := List.all_eq_true.mp hlength s hs
    rw [Bool.and_eq_true, decide_eq_true_eq, decide_eq_true_eq] at hs_length
    use s.bitLength, ⟨hs_length.1, by omega⟩, hs
  · rintro ⟨-, -, hs, -⟩
    exact hs

theorem completeCodes :
  CompleteCodes staticHuffmanCodeTable
  := CodeEntry.byLength.property.complete.of_mem_iff CodeEntry.mem_byLength

theorem HuffmanDecoder.new_ends :
  ∃ d path, HuffmanDecoder.new = some d ∧ Decodes staticHuffmanCodeTable d path
  := build_ends completeCodes

end HPack
