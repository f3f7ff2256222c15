import BobUI.Network.Hpack.SearchIndex
import Mathlib.Data.List.NodupEquivFin

/-!
# The lookup table refines a bounded queue

A lookup table, seen from outside, is a queue of header fields whose sizes add up to at
most its capacity, together with a limit on the capacity.  Every sequence of calls acts on
`FieldLookupTable` as it does on `BoundedTable`.  The search index finds every pair the
table holds; among equal dynamic entries it finds the oldest.
-/

namespace HPack

/-- A call that changes a lookup table. -/
inductive TableCall where
  | prependField (name value : Octets)
  | updateDynamicTableSize (size : UInt32)
  | setMaxDynamicTableSize (size : UInt32)
  | clearDynamicTable

/-- The strings of the call are short. -/
def TableCall.Short : TableCall → Prop
  | .prependField name value => HeaderField.Short ⟨name, value⟩
  | _ => True

instance : DecidablePred TableCall.Short
  | .prependField name value => inferInstanceAs (Decidable (HeaderField.Short ⟨name, value⟩))
  | .updateDynamicTableSize _ => inferInstanceAs (Decidable True)
  | .setMaxDynamicTableSize _ => inferInstanceAs (Decidable True)
  | .clearDynamicTable => inferInstanceAs (Decidable True)

namespace FieldLookupTable

/-- The effect of a call on a table. -/
def call (t : FieldLookupTable) : TableCall → FieldLookupTable
  | .prependField name value => (t.prependField name value).2
  | .updateDynamicTableSize size => (t.updateDynamicTableSize size.toNat).2
  | .setMaxDynamicTableSize size => t.setMaxDynamicTableSize size.toNat
  | .clearDynamicTable => t.clearDynamicTable

/-- The table after a sequence of calls. -/
def run (t : FieldLookupTable) (calls : List TableCall) : FieldLookupTable :=
  calls.foldl call t

/-- `index` is the smallest one at which the table holds `f`, or 0 if it holds no `f`. -/
def HoldsFirst (t : FieldLookupTable) (f : HeaderField) (index : ℕ) : Prop :=
  index = 0 ∧ (∀ i, t.field i ≠ some f) ∨
    t.field index = some f ∧ ∀ i, t.field i = some f → index ≤ i

end FieldLookupTable

/-- A bounded queue of header fields, and a limit on its capacity. -/
structure BoundedTable where
  maxCapacity : ℕ
  queue : BoundedFifo HeaderField.size

namespace BoundedTable

/-- The new table of a given size. -/
def new (maxSize : ℕ) : BoundedTable :=
  ⟨maxSize, BoundedFifo.empty HeaderField.size maxSize⟩

/-- The effect of a call: a field is pushed unless it is refused, a change of size resizes
the queue unless it is refused. -/
def call (s : BoundedTable) : TableCall → BoundedTable
  | .prependField name value =>
    if HeaderField.Representable ⟨name, value⟩ then
      { s with queue := s.queue.push ⟨name, value⟩ }
    else s
  | .updateDynamicTableSize size =>
    if size.toNat = 0 ∨ size.toNat ≤ s.maxCapacity then
      { s with queue := s.queue.resize size.toNat }
    else s
  | .setMaxDynamicTableSize size => { s with maxCapacity := size.toNat }
  | .clearDynamicTable => { s with queue := s.queue.clear }

/-- The queue after a sequence of calls. -/
def run (s : BoundedTable) (calls : List TableCall) : BoundedTable :=
  calls.foldl call s

end BoundedTable

namespace FieldLookupTable

/-- The table `t` holds the fields of the queue `s`, under the same limits. -/
structure Refines (t : FieldLookupTable) (s : BoundedTable) : Prop where
  wf : Wf t
  entries_eq : t.entries = s.queue.entries
  capacity_eq : t.tableCapacity = s.queue.capacity
  max_eq : t.maxTableSize = s.maxCapacity

theorem refines_new (maxSize : ℕ) (use : Bool) :
  Refines (new maxSize use) (BoundedTable.new maxSize)
  := by
  constructor
  · apply wf_new
  · rfl
  · rfl
  · rfl

variable {t : FieldLookupTable} {s : BoundedTable} {f : HeaderField}

/-- A call acts on the table as it does on the queue. -/
theorem Refines.call (h : Refines t s) (c : TableCall) :
  Refines (t.call c) (s.call c) ∧ (t.call c).useIndex = t.useIndex
  := by
  cases c with
  | prependField name value =>
    simp only [FieldLookupTable.call, BoundedTable.call]
    split_ifs with hf
    · obtain ⟨hwf, hentries, hlimits⟩ := prependField_spec h.wf hf
      constructor
      · constructor
        · apply hwf
        · rw [hentries, h.entries_eq, h.capacity_eq]
          rfl
        · rw [hlimits.tableCapacity_eq, h.capacity_eq]
          rfl
        · rw [hlimits.maxTableSize_eq, h.max_eq]
      · apply hlimits.useIndex_eq
    · have hrefused : t.prependField name value = (false, t) := prependField_refused hf
      rw [hrefused]
      use h
  | updateDynamicTableSize size =>
    obtain ⟨hwf, hmax, huse, hcases⟩ := updateDynamicTableSize_spec h.wf size.toNat
    simp only [FieldLookupTable.call, BoundedTable.call, ← h.max_eq]
    rcases hcases with ⟨-, haccepted, hcapacity, hentries⟩ | ⟨-, hne, hlarge, heq⟩
    · rw [if_pos haccepted]
      constructor
      · constructor
        · apply hwf
        · rw [hentries, h.entries_eq]
          rfl
        · apply hcapacity
        · rw [hmax, h.max_eq]
      · apply huse
    · rw [if_neg (by omega), heq]
      use h
  | setMaxDynamicTableSize size =>
    constructor
    · constructor
      · apply h.wf.setMaxDynamicTableSize
      · apply h.entries_eq
      · apply h.capacity_eq
      · rfl
    · rfl
  | clearDynamicTable =>
    constructor
    · constructor
      · apply Wf.clearDynamicTable
      · apply entries_clearDynamicTable
      · apply h.capacity_eq
      · apply h.max_eq
    · rfl

theorem Refines.run (h : Refines t s) (calls : List TableCall) :
  Refines (t.run calls) (s.run calls) ∧ (t.run calls).useIndex = t.useIndex
  := by
  induction calls generalizing t s with
  | nil => apply And.intro h rfl
  | cons c calls ih =>
    obtain ⟨h₁, huse₁⟩ := h.call c
    obtain ⟨h₂, huse₂⟩ := ih h₁
    use h₂
    apply huse₂.trans huse₁

/-- A call with short strings keeps the search index right. -/
theorem Indexed.call (hi : Indexed t) (h : Wf t) (huse : t.useIndex = true) {c : TableCall}
    (hc : c.Short) :
  Indexed (t.call c)
  := by
  cases c with
  | prependField name value => apply hi.prependField h huse hc
  | updateDynamicTableSize size => apply hi.updateDynamicTableSize h huse
  | setMaxDynamicTableSize size => apply hi.withLimits
  | clearDynamicTable => apply indexed_clearDynamicTable

theorem Indexed.run (hi : Indexed t) (h : Refines t s) (huse : t.useIndex = true)
    {calls : List TableCall} (hcalls : ∀ c ∈ calls, c.Short) :
  Indexed (t.run calls)
  := by
  induction calls generalizing t s with
  | nil => apply hi
  | cons c calls ih =>
    obtain ⟨hc, hcalls⟩ := List.forall_mem_cons.mp hcalls
    obtain ⟨h', huse'⟩ := h.call c
    apply ih (hi.call h.wf huse hc) h' (huse'.trans huse) hcalls

/-- A list holds `f` once at most if all its occurrences are at one index. -/
theorem count_le_one_iff {l : List HeaderField} :
  l.count f ≤ 1 ↔ ∀ i j : ℕ, l[i]? = some f → l[j]? = some f → i = j
  := by
  rw [← Nat.not_lt, ← Nat.succ_le_iff, ← List.duplicate_iff_two_le_count,
    List.duplicate_iff_exists_distinct_get]
  constructor
  · intro h i j hi hj
    obtain ⟨hi', rfl⟩ := List.getElem?_eq_some_iff.mp hi
    obtain ⟨hj', heq⟩ := List.getElem?_eq_some_iff.mp hj
    by_contra hne
    apply h
    rcases Nat.lt_or_gt_of_ne hne with hlt | hlt
    · use ⟨i, hi'⟩, ⟨j, hj'⟩, hlt, rfl
      apply heq.symm
    · use ⟨j, hj'⟩, ⟨i, hi'⟩, hlt, heq.symm
      rfl
  · rintro h ⟨⟨i, hi⟩, ⟨j, hj⟩, hlt, hfi, hfj⟩
    apply Nat.ne_of_lt hlt
    apply h i j
    · rw [hfi]
      apply List.getElem?_eq_getElem hi
    · rw [hfj]
      apply List.getElem?_eq_getElem hj

/-- Where the table holds a field: in its static part, or among its entries. -/
theorem field_eq_some_iff (index : ℕ) :
  t.field index = some f ↔
    ∃ i, index = i + 1 ∧ staticPart[i]? = some f ∨
      index = staticPart.length + i + 1 ∧ t.entries[i]? = some f
  := by
  cases index with
  | zero => simp [field, indexIsValid]
  | succ index =>
    rw [field_eq]
    by_cases hlt : index < staticPart.length
    · rw [List.getElem?_append_left hlt]
      constructor
      · intro h
        use index
        left
        use rfl
      · rintro ⟨i, ⟨heq, h⟩ | ⟨heq, -⟩⟩
        · obtain rfl : index = i := by omega
          apply h
        · omega
    · rw [List.getElem?_append_right (Nat.not_lt.mp hlt)]
      constructor
      · intro h
        use index - staticPart.length
        right
        use (by omega)
      · rintro ⟨i, ⟨heq, h⟩ | ⟨heq, h⟩⟩
        · obtain ⟨hi, -⟩ := List.getElem?_eq_some_iff.mp h
          omega
        · obtain rfl : i = index - staticPart.length := by omega
          apply h

/-- `indexOf` finds the smallest index of a pair, unless dynamic entries repeat it. -/
theorem indexOf_holdsFirst_iff (hi : Indexed t) (h : Layout t) (huse : t.useIndex = true)
    (hf : f.Short) :
  t.HoldsFirst f (t.indexOf f.name f.value) ↔ f ∈ staticPart ∨ t.entries.count f ≤ 1
  := by
  by_cases hstatic : f ∈ staticPart
  · obtain ⟨i, hi⟩ := List.mem_iff_getElem?.mp hstatic
    obtain ⟨hlt, -⟩ := List.getElem?_eq_some_iff.mp hi
    simp only [hstatic, true_or, iff_true]
    rw [indexOf_static hi]
    right
    constructor
    · apply (field_eq_some_iff _).mpr
      use i, Or.inl ⟨rfl, hi⟩
    · intro index hindex
      obtain ⟨j, ⟨rfl, hj⟩ | ⟨rfl, -⟩⟩ := (field_eq_some_iff _).mp hindex
      · obtain ⟨hlt', -⟩ := List.getElem?_eq_some_iff.mp hj
        rw [← findInStaticPart_getElem i hlt f hi, findInStaticPart_getElem j hlt' f hj]
      · omega
  · have hnone : ∀ i : ℕ, staticPart[i]? ≠ some f := by
      intro i hi
      apply hstatic (List.mem_of_getElem? hi)
    simp only [hstatic, false_or]
    rcases indexOf_dynamic hi h huse hf hstatic with ⟨habsent, hzero⟩ | ⟨i, hi, hlast, hindex⟩
    · rw [hzero, List.count_eq_zero.mpr habsent]
      simp only [Nat.zero_le, iff_true]
      left
      use rfl
      intro index hindex
      obtain ⟨j, ⟨-, hj⟩ | ⟨-, hj⟩⟩ := (field_eq_some_iff _).mp hindex
      · apply hnone j hj
      · apply habsent (List.mem_of_getElem? hj)
    · rw [hindex, count_le_one_iff]
      constructor
      · rintro (⟨hzero, -⟩ | ⟨-, hfirst⟩)
        · omega
        · have hat : ∀ j, t.entries[j]? = some f → i = j := by
            intro j hj
            have hle := hlast j hj
            have := hfirst (staticPart.length + j + 1) ((field_eq_some_iff _).mpr
              ⟨j, Or.inr ⟨rfl, hj⟩⟩)
            omega
          intro j k hj hk
          rw [← hat j hj, ← hat k hk]
      · intro honce
        right
        constructor
        · apply (field_eq_some_iff _).mpr
          use i, Or.inr ⟨rfl, hi⟩
        · intro index hindex
          obtain ⟨j, ⟨-, hj⟩ | ⟨rfl, hj⟩⟩ := (field_eq_some_iff _).mp hindex
          · cases hnone j hj
          · rw [honce i j hi hj]

/-- After every sequence of calls the dynamic part is the bounded queue the calls make,
`field` finds the entries of the queue past the static part, and the size kept is the exact
sum of theirs, within the capacity.  With an index, and strings short enough for their
sizes to be compared, `indexOf` gives the smallest index of a pair if and only if the pair
is in the static part or is not repeated in the queue. -/
theorem run_refines_boundedTable (maxSize : UInt32) (use : Bool) (calls : List TableCall) :
  let t := (new maxSize.toNat use).run calls
  let s := (BoundedTable.new maxSize.toNat).run calls
  t.entries = s.queue.entries ∧ t.tableCapacity = s.queue.capacity ∧
    (∀ i, t.field (staticPart.length + i + 1) = s.queue.entries[i]?) ∧
    t.dataSize = weightOf HeaderField.size s.queue.entries ∧ t.dataSize ≤ t.tableCapacity ∧
    (use = true → (∀ c ∈ calls, c.Short) → ∀ f, f.Short →
      (t.HoldsFirst f (t.indexOf f.name f.value) ↔
        f ∈ staticPart ∨ s.queue.entries.count f ≤ 1))
  := by
  intro t s
  obtain ⟨h, huse⟩ := (refines_new maxSize.toNat use).run calls
  use h.entries_eq, h.capacity_eq
  constructor
  · intro i
    rw [field_eq, ← h.entries_eq, List.getElem?_append_right (Nat.le_add_right _ _),
      Nat.add_sub_cancel_left]
  constructor
  · rw [← h.entries_eq]
    apply h.wf.dataSize_eq
  constructor
  · apply h.wf.fits
  · intro hindex hcalls f hf
    rw [← h.entries_eq]
    apply indexOf_holdsFirst_iff _ h.wf.toLayout (huse.trans hindex) hf
    apply (indexed_new _ _).run (refines_new _ _) hindex hcalls

/-- A pair that was prepended once is found at its smallest index. -/
theorem run_refines_boundedTable_once :
  let t := (new 4096 true).run [.prependField (octets "a") (octets "b")]
  t.HoldsFirst ⟨octets "a", octets "b"⟩ (t.indexOf (octets "a") (octets "b"))
  := by
  apply ((run_refines_boundedTable 4096 true
    [.prependField (octets "a") (octets "b")]).2.2.2.2.2 rfl (by decide)
      ⟨octets "a", octets "b"⟩ (by decide)).mpr
  decide +kernel

/-- Of a pair that was prepended twice `indexOf` gives the older index, 63, though the
newer, 62, holds the pair too. -/
theorem indexOf_repeated_not_holdsFirst :
  let t := (new 4096 true).run
    [.prependField (octets "a") (octets "b"), .prependField (octets "a") (octets "b")]
  ¬ t.HoldsFirst ⟨octets "a", octets "b"⟩ (t.indexOf (octets "a") (octets "b"))
  := by
  intro t
  have hindex : t.indexOf (octets "a") (octets "b") = 63 := by decide
  have hfield : t.field 62 = some ⟨octets "a", octets "b"⟩ := by decide
  rw [hindex]
  rintro (⟨hzero, -⟩ | ⟨-, hfirst⟩)
  · cases hzero
  · have := hfirst 62 hfield
    omega

end FieldLookupTable

end HPack
