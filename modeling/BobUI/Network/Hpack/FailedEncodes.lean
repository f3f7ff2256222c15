import BobUI.Network.Hpack.Synchrony

/-!
# Failed encodes

`encodeRequest` and `encodeResponse` insert the pseudo-header fields into the dynamic table while
they check them.  A call that fails on a later field, or for want of a field, leaves those in the
table that it had inserted before: exactly then does the table of the encoder come to differ from
that of its peer, which is sent no block.
-/

namespace HPack

/-! ### What a table is looked up for -/

namespace FieldLookupTable

/-- A pair with a string too long for the table is not found. -/
theorem indexOf_of_not_short {t : FieldLookupTable} (hi : Indexed t) {f : HeaderField}
    (hf : ¬ f.Short) :
  t.indexOf f.name f.value = 0
  := by
  have hstatic : staticPart[findInStaticPart ⟨f.name, f.value⟩ .nameAndValue]?
      ≠ some ⟨f.name, f.value⟩ := by
    intro hfound
    apply hf
    have hall : ∀ g ∈ staticPart, g.Short := by decide
    apply hall f (List.mem_of_getElem? hfound)
  rw [indexOf, if_neg hstatic]
  split_ifs
  · rfl
  · cases hbound : OrderedSet.lowerBound t.entryBelow t.searchIndex
      ⟨⟨f.name, f.value⟩, none, 0⟩ with
    | none => rfl
    | some key =>
      obtain ⟨hmem, -⟩ := OrderedSet.lowerBound_mem hbound
      obtain ⟨i, g, hg, rfl⟩ := (hi.mem_iff key).mp hmem
      apply if_neg
      rintro ⟨hname, hvalue⟩
      apply hf
      have hshort := hi.short g (List.mem_of_getElem? hg)
      constructor
      · rw [← hname]
        apply hshort.name_lt
      · rw [← hvalue]
        apply hshort.value_lt

/-- A pair is found where the table has it. -/
theorem indexOf_ne_zero_iff {t : FieldLookupTable} (hi : Indexed t) (h : Layout t)
    (huse : t.useIndex = true) (f : HeaderField) :
  t.indexOf f.name f.value ≠ 0 ↔ f ∈ staticPart ∨ f ∈ t.entries
  := by
  by_cases hshort : f.Short
  · by_cases hstatic : f ∈ staticPart
    · obtain ⟨i, h_i⟩ := List.mem_iff_getElem?.mp hstatic
      rw [indexOf_static h_i]
      simp [hstatic]
    · rcases indexOf_dynamic hi h huse hshort hstatic with ⟨habsent, hzero⟩ |
        ⟨i, hfound, -, hindex⟩
      · simp [hstatic, habsent, hzero]
      · simp [hindex, List.mem_of_getElem? hfound]
  · have hstatic : ∀ g ∈ staticPart, g.Short := by decide
    have hzero := indexOf_of_not_short hi hshort
    constructor
    · intro hne
      cases hne hzero
    · rintro (hmem | hmem)
      · cases hshort (hstatic f hmem)
      · cases hshort (hi.short f hmem)

end FieldLookupTable

/-! ### One field -/

/-- The queue with a field pushed, which the table does not have and whose size is an
`unsigned`. -/
def BoundedTable.addMissing (s : BoundedTable) (f : HeaderField) : BoundedTable :=
  if f ∉ staticPart ∧ f.Representable then { s with queue := s.queue.pushMissing f } else s

namespace BitOStream

theorem aligned_writeInteger (o : BitOStream) (v : ℕ) :
  (o.writeInteger v).bitsSet % 8 = 0
  := by
  simp only [writeInteger]
  split_ifs
  · simp only [writeBits]
    omega
  · simp only [writeBits]
    omega

theorem aligned_writeString (huffman : Huffman) (o : BitOStream) (src : Octets)
    (compressed : Bool) :
  (o.writeString huffman src compressed).bitsSet % 8 = 0
  := by
  simp only [writeString]
  split_ifs
  · have hlength := aligned_writeInteger (o.writeBits 1 1)
      ((huffman.encodedBitLength src + 7) / 8 % 2 ^ 32)
    omega
  · have hlength := aligned_writeInteger (o.writeBits 1 1)
      ((huffman.encodedBitLength src + 7) / 8 % 2 ^ 32)
    omega
  · have hlength := aligned_writeInteger (o.writeBits 0 1) (src.length % 2 ^ 32)
    omega
  · have hlength := aligned_writeInteger (o.writeBits 0 1) (src.length % 2 ^ 32)
    omega

end BitOStream

namespace Encoder

/-- The encoder's table holds the fields of `s`, in less than `2 ^ 31` octets. -/
structure Keeps (e : Encoder) (s : BoundedTable) : Prop extends e.Leads s where
  small : s.queue.capacity < 2 ^ 31
  max_small : s.maxCapacity < 2 ^ 31

/-- A field too long for the search index is too long for the table. -/
theorem Keeps.prepend {e : Encoder} {s : BoundedTable} (h : e.Keeps s) (f : HeaderField) :
  Keeps (e.prependLiteral .literalIncrementalIndexing f.name f.value)
    (if f.Representable then { s with queue := s.queue.push f } else s)
  := by
  have hcall : ∀ {t : FieldLookupTable}, t = e.lookupTable.call (.prependField f.name f.value) →
      t.Refines (if f.Representable then { s with queue := s.queue.push f } else s) ∧
        t.useIndex = true := by
    rintro t rfl
    obtain ⟨hrefines, huse⟩ := h.refines.call (.prependField f.name f.value)
    constructor
    · apply hrefines
    · apply huse.trans h.useIndex_eq
  obtain ⟨hrefines, huse⟩ := hcall rfl
  have hlimits : ∀ b, b = (if f.Representable then { s with queue := s.queue.push f } else s) →
      b.queue.capacity = s.queue.capacity ∧ b.maxCapacity = s.maxCapacity := by
    rintro b rfl
    split_ifs
    · constructor
      · rfl
      · rfl
    · constructor
      · rfl
      · rfl
  obtain ⟨hcapacity, hmax⟩ := hlimits _ rfl
  rw [prependLiteral, if_pos rfl]
  constructor
  · constructor
    · apply hrefines
    · by_cases hshort : f.Short
      · apply h.indexed.call (c := .prependField f.name f.value) h.refines.wf h.useIndex_eq hshort
      · by_cases hsize : f.Representable
        · have hlarge : e.lookupTable.tableCapacity < f.size := by
            have hsmall := h.small
            rw [h.refines.capacity_eq, HeaderField.size]
            by_contra hfits
            apply hshort
            constructor
            · omega
            · omega
          rw [FieldLookupTable.prependField_large hsize hlarge]
          apply FieldLookupTable.indexed_clearDynamicTable
        · rw [FieldLookupTable.prependField_refused hsize]
          apply h.indexed
    · apply huse
    · rw [hcapacity]
      apply h.capacity_lt
  · rw [hcapacity]
    apply h.small
  · rw [hmax]
    apply h.max_small

variable (huffman : Huffman)

/-- A field is encoded in any case; what is missing in the table is added to it. -/
theorem Keeps.encodeHeaderField {e : Encoder} {s : BoundedTable} (h : e.Keeps s) {o : BitOStream}
    (ho : o.bitsSet % 8 = 0) (f : HeaderField) :
  ∃ e' o', e.encodeHeaderField huffman o f = (true, e', o') ∧ e'.Keeps (s.addMissing f) ∧
    o'.bitsSet % 8 = 0
  := by
  have hlayout := h.refines.wf.toLayout
  by_cases hfound : e.lookupTable.indexOf f.name f.value = 0
  · have habsent : ¬ (f ∈ staticPart ∨ f ∈ e.lookupTable.entries) := by
      rw [← FieldLookupTable.indexOf_ne_zero_iff h.indexed hlayout h.useIndex_eq]
      apply not_not.mpr hfound
    have hadd : s.addMissing f
        = if f.Representable then { s with queue := s.queue.push f } else s := by
      rw [not_or, h.refines.entries_eq] at habsent
      rw [BoundedTable.addMissing, BoundedFifo.pushMissing, if_neg habsent.2]
      simp [habsent.1]
    rw [hadd]
    rcases FieldLookupTable.indexOfName_sound h.indexed hlayout f.name with hzero |
      ⟨i, g, hindex, hfield, hname⟩
    · have haligned : o.bitLength % 8 = 0 := ho
      simp only [Encoder.encodeHeaderField, hfound, hzero, ne_eq, not_true_eq_false, if_false,
        encodeLiteralField, haligned]
      refine ⟨_, _, rfl, h.prepend f, ?_⟩
      apply BitOStream.aligned_writeString
    · have hget : (e.lookupTable.fieldName (i + 1)).getD [] = f.name := by
        rw [FieldLookupTable.fieldName, FieldLookupTable.field_eq, hfield, Option.map_some,
          Option.getD_some, hname]
      simp only [Encoder.encodeHeaderField, hfound, hindex, ne_eq, not_true_eq_false, if_false,
        Nat.succ_ne_zero, not_false_eq_true, if_true, encodeLiteralFieldIndexed, hget]
      refine ⟨_, _, rfl, h.prepend f, ?_⟩
      apply BitOStream.aligned_writeString
  · have hpresent := (FieldLookupTable.indexOf_ne_zero_iff h.indexed hlayout h.useIndex_eq f).mp
      hfound
    have hsame : s.addMissing f = s := by
      rw [h.refines.entries_eq] at hpresent
      rw [BoundedTable.addMissing, BoundedFifo.pushMissing]
      rcases hpresent with hstatic | hdynamic
      · simp [hstatic]
      · simp [hdynamic]
    rw [hsame]
    simp only [Encoder.encodeHeaderField, if_pos hfound, encodeIndexedField]
    refine ⟨_, _, rfl, h, ?_⟩
    apply BitOStream.aligned_writeInteger

/-! ### Pseudo-header fields -/

end Encoder

/-- The fields that are encoded while the pseudo-header fields are checked: those with a wanted
name, up to a field whose name is refused or has been there. -/
def leadingFields (wanted refused : Octets → Bool) (seen : List Octets) :
    HttpHeader → List HeaderField
  | [] => []
  | f :: header =>
    if refused f.name || f.name ∈ seen then []
    else if wanted f.name then f :: leadingFields wanted refused (f.name :: seen) header
    else leadingFields wanted refused seen header

/-- The names of the wanted fields. -/
def wantedNames (wanted : Octets → Bool) (header : HttpHeader) : List Octets :=
  (header.map HeaderField.name).filter wanted

/-- No name is refused, and no wanted name is there twice, nor has been there. -/
structure Passes (wanted refused : Octets → Bool) (seen : List Octets) (header : HttpHeader) :
    Prop where
  not_refused : ∀ f ∈ header, refused f.name = false
  nodup : (wantedNames wanted header).Nodup
  not_seen : ∀ name ∈ wantedNames wanted header, name ∉ seen

/-- A request has no `:status`, one `:method`, `:scheme` and `:path`, and at most one
`:authority`. -/
structure ValidRequest (header : HttpHeader) : Prop extends
    Passes isRequestPseudoHeader (· = octets ":status") [] header where
  method : octets ":method" ∈ wantedNames isRequestPseudoHeader header
  scheme : octets ":scheme" ∈ wantedNames isRequestPseudoHeader header
  path : octets ":path" ∈ wantedNames isRequestPseudoHeader header

/-- A response has one `:status` and no pseudo-header field of a request. -/
structure ValidResponse (header : HttpHeader) : Prop extends
    Passes (· = octets ":status") isRequestPseudoHeader [] header where
  status : octets ":status" ∈ wantedNames (· = octets ":status") header

section Passes

variable {wanted refused : Octets → Bool} {seen : List Octets} {f : HeaderField}
  {header : HttpHeader}

theorem wantedNames_cons (h : wanted f.name = true) :
  wantedNames wanted (f :: header) = f.name :: wantedNames wanted header
  := by
  rw [wantedNames, List.map_cons, List.filter_cons_of_pos h]
  rfl

theorem wantedNames_cons_of_not (h : wanted f.name = false) :
  wantedNames wanted (f :: header) = wantedNames wanted header
  := by
  rw [wantedNames, List.map_cons, List.filter_cons_of_neg (by simp [h])]
  rfl

theorem passes_cons (h : wanted f.name = true) (hrefused : refused f.name = false)
    (hseen : f.name ∉ seen) :
  Passes wanted refused seen (f :: header) ↔ Passes wanted refused (f.name :: seen) header
  := by
  constructor
  · intro hpasses
    have hnodup := hpasses.nodup
    have hnot := hpasses.not_seen
    rw [wantedNames_cons h, List.nodup_cons] at hnodup
    rw [wantedNames_cons h, List.forall_mem_cons] at hnot
    constructor
    · apply (List.forall_mem_cons.mp hpasses.not_refused).2
    · apply hnodup.2
    · intro name hname hmem
      rcases List.mem_cons.mp hmem with rfl | hmem
      · apply hnodup.1 hname
      · apply hnot.2 name hname hmem
  · intro hpasses
    constructor
    · rw [List.forall_mem_cons]
      use hrefused, hpasses.not_refused
    · rw [wantedNames_cons h, List.nodup_cons]
      constructor
      · intro hname
        apply hpasses.not_seen _ hname List.mem_cons_self
      · apply hpasses.nodup
    · rw [wantedNames_cons h, List.forall_mem_cons]
      use hseen
      intro name hname hmem
      apply hpasses.not_seen name hname (List.mem_cons_of_mem _ hmem)

theorem passes_cons_of_not (h : wanted f.name = false) (hrefused : refused f.name = false) :
  Passes wanted refused seen (f :: header) ↔ Passes wanted refused seen header
  := by
  constructor
  · intro hpasses
    constructor
    · apply (List.forall_mem_cons.mp hpasses.not_refused).2
    · rw [← wantedNames_cons_of_not h]
      apply hpasses.nodup
    · rw [← wantedNames_cons_of_not h]
      apply hpasses.not_seen
  · intro hpasses
    constructor
    · rw [List.forall_mem_cons]
      use hrefused, hpasses.not_refused
    · rw [wantedNames_cons_of_not h]
      apply hpasses.nodup
    · rw [wantedNames_cons_of_not h]
      apply hpasses.not_seen

/-- The names of the fields that are encoded are different. -/
theorem leadingFields_names (wanted refused : Octets → Bool) (seen : List Octets)
    (header : HttpHeader) :
  (∀ g ∈ leadingFields wanted refused seen header, g.name ∉ seen) ∧
    (leadingFields wanted refused seen header).Nodup
  := by
  induction header generalizing seen with
  | nil =>
    constructor
    · intro g hg
      cases hg
    · apply List.nodup_nil
  | cons f header ih =>
    rw [leadingFields]
    split_ifs with hstop hwanted
    · constructor
      · intro g hg
        cases hg
      · apply List.nodup_nil
    · obtain ⟨hnames, hnodup⟩ := ih (f.name :: seen)
      have hseen : f.name ∉ seen := by
        intro hmem
        apply hstop
        simp [hmem]
      constructor
      · rw [List.forall_mem_cons]
        use hseen
        intro g hg hmem
        apply hnames g hg (List.mem_cons_of_mem _ hmem)
      · apply List.nodup_cons.mpr
        constructor
        · intro hf
          apply hnames f hf List.mem_cons_self
        · apply hnodup
    · apply ih

end Passes

namespace Encoder

variable {huffman : Huffman}

/-- The queue with what is missing of some fields pushed. -/
def addAll (s : BoundedTable) (fields : List HeaderField) : BoundedTable :=
  fields.foldl BoundedTable.addMissing s

variable {header : HttpHeader} {e : Encoder} {s : BoundedTable} {o : BitOStream} {name : Octets}

theorem isRequestPseudoHeader_of_index {j : ℕ} (h : headerName.findIdx? (· == name) = some j) :
  isRequestPseudoHeader name = true ∧ headerName[j]? = some name
  := by
  obtain ⟨hj, heq, -⟩ := List.findIdx?_eq_some_iff_getElem.mp h
  have hget : headerName[j]? = some name := by
    rw [List.getElem?_eq_getElem hj, eq_of_beq heq]
  constructor
  · apply (isRequestPseudoHeader_iff _).mpr
    right
    apply List.mem_of_getElem? hget
  · apply hget

theorem not_isRequestPseudoHeader (hmethod : name ≠ octets ":method")
    (h : headerName.findIdx? (· == name) = none) :
  isRequestPseudoHeader name = false
  := by
  rw [← Bool.not_eq_true, isRequestPseudoHeader_iff]
  rintro (heq | hmem)
  · apply hmethod heq
  · have hother := List.findIdx?_eq_none_iff.mp h _ hmem
    simp at hother

/-- Which of the names have been there. -/
def found (seen : List Octets) : List Bool :=
  headerName.map fun name => decide (name ∈ seen)

theorem found_set {j : ℕ} (seen : List Octets) (h : headerName[j]? = some name) :
  (found seen).set j true = found (name :: seen)
  := by
  apply List.ext_getElem?
  intro i
  rw [List.getElem?_set, found, found, List.length_map, List.getElem?_map, List.getElem?_map]
  obtain ⟨hj, hget⟩ := List.getElem?_eq_some_iff.mp h
  by_cases hi : j = i
  · subst hi
    rw [if_pos rfl, if_pos hj, h]
    simp
  · rw [if_neg hi]
    cases hother : headerName[i]? with
    | none => rfl
    | some other =>
      have hne : other ≠ name := by
        rintro rfl
        apply hi
        have hnodup : headerName.Nodup := by decide
        apply (List.getElem?_inj hj hnodup).mp (h.trans hother.symm)
      simp [hne]

/-- What a loop over the pseudo-header fields comes to: it has encoded the leading fields, and gives
what it has found, unless a field does not pass. -/
structure Outcome {β : Type} (wanted refused : Octets → Bool) (summary : List Octets → β)
    (s : BoundedTable) (seen : List Octets) (header : HttpHeader)
    (r : Option β × Encoder × BitOStream) : Prop where
  keeps : r.2.1.Keeps (addAll s (leadingFields wanted refused seen header))
  aligned : r.2.2.bitsSet % 8 = 0
  result : ¬ Passes wanted refused seen header ∧ r.1 = none ∨
    Passes wanted refused seen header ∧ ∃ seen',
      (∀ name, name ∈ seen' ↔ name ∈ seen ∨ name ∈ wantedNames wanted header) ∧
      r.1 = some (summary seen')

section Outcome

variable {β : Type} {wanted refused : Octets → Bool} {summary : List Octets → β}
  {s : BoundedTable} {seen : List Octets} {f : HeaderField} {header : HttpHeader} {e : Encoder}
  {o : BitOStream} {r : Option β × Encoder × BitOStream}

theorem outcome_nil (h : e.Keeps s) (ho : o.bitsSet % 8 = 0) :
  Outcome wanted refused summary s seen [] (some (summary seen), e, o)
  := by
  constructor
  · apply h
  · apply ho
  · right
    constructor
    · constructor
      · intro g hg
        cases hg
      · apply List.nodup_nil
      · intro name hname
        cases hname
    · use seen
      simp [wantedNames]

theorem outcome_stop (h : e.Keeps s) (ho : o.bitsSet % 8 = 0)
    (hstop : refused f.name = true ∨ wanted f.name = true ∧ f.name ∈ seen) :
  Outcome wanted refused summary s seen (f :: header) (none, e, o)
  := by
  have hleading : leadingFields wanted refused seen (f :: header) = [] := by
    rw [leadingFields, if_pos]
    rcases hstop with hrefused | ⟨-, hseen⟩
    · simp [hrefused]
    · simp [hseen]
  constructor
  · rw [hleading]
    apply h
  · apply ho
  · left
    constructor
    · intro hpasses
      rcases hstop with hrefused | ⟨hwanted, hseen⟩
      · have hnot := hpasses.not_refused f List.mem_cons_self
        rw [hrefused] at hnot
        cases hnot
      · apply hpasses.not_seen f.name _ hseen
        rw [wantedNames_cons hwanted]
        apply List.mem_cons_self
    · rfl

theorem outcome_skip (hrefused : refused f.name = false) (hwanted : wanted f.name = false)
    (hseen : f.name ∉ seen) (h : Outcome wanted refused summary s seen header r) :
  Outcome wanted refused summary s seen (f :: header) r
  := by
  have hleading : leadingFields wanted refused seen (f :: header)
      = leadingFields wanted refused seen header := by
    rw [leadingFields, if_neg (by simp [hrefused, hseen]), if_neg (by simp [hwanted])]
  constructor
  · rw [hleading]
    apply h.keeps
  · apply h.aligned
  · rw [passes_cons_of_not hwanted hrefused, wantedNames_cons_of_not hwanted]
    apply h.result

theorem outcome_wanted (hrefused : refused f.name = false) (hwanted : wanted f.name = true)
    (hseen : f.name ∉ seen)
    (h : Outcome wanted refused summary (s.addMissing f) (f.name :: seen) header r) :
  Outcome wanted refused summary s seen (f :: header) r
  := by
  have hleading : leadingFields wanted refused seen (f :: header)
      = f :: leadingFields wanted refused (f.name :: seen) header := by
    rw [leadingFields, if_neg (by simp [hrefused, hseen]), if_pos hwanted]
  constructor
  · rw [hleading]
    apply h.keeps
  · apply h.aligned
  · rw [passes_cons hwanted hrefused hseen, wantedNames_cons hwanted]
    rcases h.result with hnone | ⟨hpasses, seen', hseen', hsome⟩
    · left
      apply hnone
    · right
      use hpasses, seen'
      constructor
      · intro name
        rw [hseen' name, List.mem_cons, List.mem_cons, or_assoc, or_left_comm]
      · apply hsome

end Outcome

/-- What the loop of a request looks up. -/
def requestSummary (seen : List Octets) : Bool × List Bool :=
  (decide (octets ":method" ∈ seen), found seen)

theorem found_getElem! {j : ℕ} (seen : List Octets) (h : headerName[j]? = some name) :
  (found seen)[j]! = decide (name ∈ seen)
  := by
  rw [found, List.getElem!_eq_getElem?_getD, List.getElem?_map, h]
  rfl

theorem found_method (seen : List Octets) :
  found (octets ":method" :: seen) = found seen
  := by
  apply List.map_congr_left
  intro name hname
  have hne : ∀ name ∈ headerName, name ≠ octets ":method" := by decide
  simp [hne name hname]

/-- The loop over the pseudo-header fields of a request. -/
theorem Keeps.encodeRequestPseudoFields (seen : List Octets) (h : e.Keeps s)
    (ho : o.bitsSet % 8 = 0) (hseen : ∀ name ∈ seen, isRequestPseudoHeader name = true) :
  Outcome isRequestPseudoHeader (· = octets ":status") requestSummary s seen header
    (encodeRequestPseudoFields huffman header (decide (octets ":method" ∈ seen)) (found seen) e o)
  := by
  induction header generalizing seen e s o with
  | nil => apply outcome_nil h ho
  | cons f header ih =>
    have hskip : isRequestPseudoHeader f.name = false → f.name ∉ seen := by
      intro hnot hmem
      rw [hseen f.name hmem] at hnot
      cases hnot
    rw [Encoder.encodeRequestPseudoFields]
    by_cases hstatus : f.name = octets ":status"
    · rw [if_pos hstatus]
      apply outcome_stop h ho
      left
      simp [hstatus]
    rw [if_neg hstatus]
    have hrefused : decide (f.name = octets ":status") = false := by simp [hstatus]
    by_cases hmethod : f.name = octets ":method"
    · have hwanted : isRequestPseudoHeader f.name = true := by
        rw [isRequestPseudoHeader_iff]
        left
        apply hmethod
      rw [if_pos hmethod]
      by_cases hthere : octets ":method" ∈ seen
      · rw [if_pos (by simp [hthere])]
        apply outcome_stop h ho
        right
        use hwanted
        rwa [hmethod]
      · obtain ⟨e', o', heq, h', ho'⟩ := h.encodeHeaderField huffman ho f
        rw [if_neg (by simp [hthere]), encodeMethod_eq hmethod, heq]
        apply outcome_wanted hrefused hwanted (by rwa [hmethod])
        have hrest := ih (f.name :: seen) h' ho' (by
          rw [List.forall_mem_cons]
          use hwanted)
        rw [hmethod, found_method] at hrest
        rw [hmethod]
        simpa using hrest
    rw [if_neg hmethod]
    by_cases hcookie : f.name = octets "cookie"
    · have hnot : isRequestPseudoHeader f.name = false := by
        rw [hcookie]
        decide
      rw [if_pos hcookie]
      apply outcome_skip hrefused hnot (hskip hnot)
      apply ih seen h ho hseen
    rw [if_neg hcookie]
    cases hj : headerName.findIdx? (· == f.name) with
    | none =>
      have hnot := not_isRequestPseudoHeader hmethod hj
      apply outcome_skip hrefused hnot (hskip hnot)
      apply ih seen h ho hseen
    | some j =>
      obtain ⟨hwanted, hname⟩ := isRequestPseudoHeader_of_index hj
      dsimp only
      rw [found_getElem! seen hname]
      by_cases hthere : f.name ∈ seen
      · rw [if_pos (by simp [hthere])]
        apply outcome_stop h ho
        right
        use hwanted
      · obtain ⟨e', o', heq, h', ho'⟩ := h.encodeHeaderField huffman ho f
        rw [if_neg (by simp [hthere]), heq]
        apply outcome_wanted hrefused hwanted hthere
        have hrest := ih (f.name :: seen) h' ho' (by
          rw [List.forall_mem_cons]
          use hwanted)
        rw [found_set seen hname]
        have hsame : decide (octets ":method" ∈ f.name :: seen)
            = decide (octets ":method" ∈ seen) := by
          simp [Ne.symm hmethod]
        rw [hsame] at hrest
        apply hrest

/-- The loop over the pseudo-header fields of a response. -/
theorem Keeps.encodeResponsePseudoFields (seen : List Octets) (h : e.Keeps s)
    (ho : o.bitsSet % 8 = 0) (hseen : ∀ name ∈ seen, name = octets ":status") :
  Outcome (· = octets ":status") isRequestPseudoHeader
    (fun seen => decide (octets ":status" ∈ seen)) s seen header
    (encodeResponsePseudoFields huffman header (decide (octets ":status" ∈ seen)) e o)
  := by
  induction header generalizing seen e s o with
  | nil => apply outcome_nil h ho
  | cons f header ih =>
    rw [Encoder.encodeResponsePseudoFields]
    by_cases hpseudo : isRequestPseudoHeader f.name = true
    · rw [if_pos hpseudo]
      apply outcome_stop h ho
      left
      apply hpseudo
    rw [if_neg hpseudo]
    have hrefused : isRequestPseudoHeader f.name = false := by simpa using hpseudo
    by_cases hstatus : f.name = octets ":status"
    · have hwanted : decide (f.name = octets ":status") = true := by simp [hstatus]
      rw [if_pos hstatus]
      by_cases hthere : octets ":status" ∈ seen
      · rw [if_pos (by simp [hthere])]
        apply outcome_stop h ho
        right
        use hwanted
        rwa [hstatus]
      · obtain ⟨e', o', heq, h', ho'⟩ := h.encodeHeaderField huffman ho f
        rw [if_neg (by simp [hthere]), heq]
        apply outcome_wanted hrefused hwanted (by rwa [hstatus])
        have hrest := ih (f.name :: seen) h' ho' (by
          rw [List.forall_mem_cons]
          use hstatus)
        rw [hstatus] at hrest ⊢
        simpa using hrest
    · rw [if_neg hstatus]
      apply outcome_skip hrefused (by simp [hstatus]) _ (ih seen h ho hseen)
      intro hmem
      apply hstatus (hseen f.name hmem)

/-- The loop over the other fields does not fail. -/
theorem Keeps.encodeFields (huffman : Huffman) (skip : Octets → Bool) (header : HttpHeader)
    (h : e.Keeps s) (ho : o.bitsSet % 8 = 0) :
  ∃ e' o' s', encodeFields huffman skip header e o = (true, e', o') ∧ e'.Keeps s'
  := by
  induction header generalizing e s o with
  | nil => exact ⟨e, o, s, rfl, h⟩
  | cons f header ih =>
    rw [Encoder.encodeFields]
    split_ifs with hskip
    · apply ih h ho
    · obtain ⟨e', o', heq, h', ho'⟩ := h.encodeHeaderField huffman ho f
      rw [heq]
      apply ih h' ho'

/-- A call succeeds on the headers of a kind, and otherwise has encoded the leading fields. -/
structure Encoded (wanted refused : Octets → Bool) (valid : Prop) (s : BoundedTable)
    (header : HttpHeader) (r : Bool × Encoder × BitOStream) : Prop where
  keeps : ∃ s', r.2.1.Keeps s'
  succeeds_iff : r.1 = true ↔ valid
  failed : r.1 = false → r.2.1.Keeps (addAll s (leadingFields wanted refused [] header))

/-- A pass succeeds where the mandatory pseudo-header fields have been found. -/
theorem mandatory_iff {seen : List Octets}
    (h : Passes isRequestPseudoHeader (· = octets ":status") [] header)
    (hseen : ∀ name, name ∈ seen ↔ name ∈ [] ∨ name ∈ wantedNames isRequestPseudoHeader header) :
  (decide (octets ":method" ∈ seen) && ((found seen).drop 1).all id) = true ↔ ValidRequest header
  := by
  have hdrop : (found seen).drop 1
      = [decide (octets ":scheme" ∈ seen), decide (octets ":path" ∈ seen)] := rfl
  simp only [hdrop, hseen, List.not_mem_nil, false_or, List.all_cons, List.all_nil,
    Bool.and_true, id, Bool.and_eq_true, decide_eq_true_eq]
  constructor
  · rintro ⟨hmethod, hscheme, hpath⟩
    use h
  · intro hvalid
    use hvalid.method, hvalid.scheme, hvalid.path

/-- A request is encoded where it is valid. -/
theorem Keeps.encodeRequest (h : e.Keeps s) (ho : o.bitsSet % 8 = 0) :
  Encoded isRequestPseudoHeader (· = octets ":status") (ValidRequest header) s header
    (e.encodeRequest huffman o header)
  := by
  rw [Encoder.encodeRequest]
  by_cases hnil : header = []
  · rw [if_pos hnil]
    constructor
    · use s
    · apply iff_of_false Bool.false_ne_true
      intro hvalid
      have hmethod := hvalid.method
      rw [hnil] at hmethod
      cases hmethod
    · intro _
      rw [hnil]
      apply h
  rw [if_neg hnil, encodeRequestPseudoHeaders]
  have houtcome : Outcome isRequestPseudoHeader (· = octets ":status") requestSummary s [] header
      (Encoder.encodeRequestPseudoFields huffman header false [false, false, false] e o) := by
    apply h.encodeRequestPseudoFields [] ho
    intro name hname
    cases hname
  generalize Encoder.encodeRequestPseudoFields huffman header false [false, false, false] e o = r
    at houtcome ⊢
  obtain ⟨result, e', o'⟩ := r
  have hkeeps : e'.Keeps _ := houtcome.keeps
  rcases houtcome.result with ⟨hnot, hnone⟩ | ⟨hpasses, seen', hseen', hsome⟩
  · cases hnone
    constructor
    · exact ⟨_, hkeeps⟩
    · apply iff_of_false Bool.false_ne_true
      intro hvalid
      apply hnot hvalid.toPasses
    · intro _
      apply hkeeps
  · cases hsome
    have hmandatory := mandatory_iff hpasses hseen'
    dsimp only [requestSummary]
    cases hall : decide (octets ":method" ∈ seen') && ((found seen').drop 1).all id with
    | false =>
      rw [hall] at hmandatory
      constructor
      · exact ⟨_, hkeeps⟩
      · apply hmandatory
      · intro _
        apply hkeeps
    | true =>
      rw [hall] at hmandatory
      obtain ⟨e'', o'', s'', heq, hkeeps''⟩ := hkeeps.encodeFields huffman
        isRequestPseudoHeader header houtcome.aligned
      dsimp only at heq ⊢
      rw [heq]
      constructor
      · use s''
      · apply hmandatory
      · intro hfalse
        cases hfalse

/-- A response is encoded where it is valid. -/
theorem Keeps.encodeResponse (h : e.Keeps s) (ho : o.bitsSet % 8 = 0) :
  Encoded (· = octets ":status") isRequestPseudoHeader (ValidResponse header) s header
    (e.encodeResponse huffman o header)
  := by
  rw [Encoder.encodeResponse]
  by_cases hnil : header = []
  · rw [if_pos hnil]
    constructor
    · use s
    · apply iff_of_false Bool.false_ne_true
      intro hvalid
      have hstatus := hvalid.status
      rw [hnil] at hstatus
      cases hstatus
    · intro _
      rw [hnil]
      apply h
  rw [if_neg hnil, encodeResponsePseudoHeaders]
  have houtcome : Outcome (· = octets ":status") isRequestPseudoHeader
      (fun seen => decide (octets ":status" ∈ seen)) s [] header
      (Encoder.encodeResponsePseudoFields huffman header false e o) := by
    apply h.encodeResponsePseudoFields [] ho
    intro name hname
    cases hname
  generalize Encoder.encodeResponsePseudoFields huffman header false e o = r at houtcome ⊢
  obtain ⟨result, e', o'⟩ := r
  have hkeeps : e'.Keeps _ := houtcome.keeps
  rcases houtcome.result with ⟨hnot, hnone⟩ | ⟨hpasses, seen', hseen', hsome⟩
  · cases hnone
    constructor
    · exact ⟨_, hkeeps⟩
    · apply iff_of_false Bool.false_ne_true
      intro hvalid
      apply hnot hvalid.toPasses
    · intro _
      apply hkeeps
  · cases hsome
    have hmandatory : decide (octets ":status" ∈ seen') = true ↔ ValidResponse header := by
      rw [decide_eq_true_eq, hseen']
      constructor
      · rintro (hmem | hstatus)
        · cases hmem
        · use hpasses
      · intro hvalid
        right
        apply hvalid.status
    dsimp only
    cases hfound : decide (octets ":status" ∈ seen') with
    | false =>
      rw [hfound] at hmandatory
      constructor
      · exact ⟨_, hkeeps⟩
      · apply hmandatory
      · intro _
        apply hkeeps
    | true =>
      rw [hfound] at hmandatory
      obtain ⟨e'', o'', s'', heq, hkeeps''⟩ := hkeeps.encodeFields huffman
        (fun name => name = octets ":status") header houtcome.aligned
      dsimp only at heq ⊢
      rw [heq]
      constructor
      · use s''
      · apply hmandatory
      · intro hfalse
        cases hfalse

/-! ### The runs of an encoder -/

end Encoder

/-- A call on an encoder; a block has begun with the octets of `buffer`.  The sizes of tables are
small: those of the callers do not exceed 64 KiB. -/
inductive EncoderCall where
  | block (buffer : Octets) (c : BlockCall)
  | setMaxDynamicTableSize (size : Fin (2 ^ 31))
  | setCompressStrings (compress : Bool)

namespace Encoder

/-- The effect of a call, whether it succeeds or fails. -/
def step (huffman : Huffman) (e : Encoder) : EncoderCall → Encoder
  | .block buffer c => (e.call huffman (.new buffer) c).2.1
  | .setMaxDynamicTableSize size => e.setMaxDynamicTableSize size
  | .setCompressStrings compress => e.setCompressStrings compress

/-- The encoder after a sequence of calls. -/
def run (huffman : Huffman) (e : Encoder) (calls : List EncoderCall) : Encoder :=
  calls.foldl (step huffman) e

theorem keeps_new (size : Fin (2 ^ 31)) (compress : Bool) :
  Keeps (.new size compress) (.new size)
  := by
  constructor
  · constructor
    · apply FieldLookupTable.refines_new
    · apply FieldLookupTable.indexed_new
    · rfl
    · change size.val < 2 ^ 32
      omega
  · apply size.isLt
  · apply size.isLt

variable {s : BoundedTable}

theorem Keeps.encodeSizeUpdate {e : Encoder} (h : e.Keeps s) (o : BitOStream) (newSize : UInt32) :
  ∃ s', Keeps (e.encodeSizeUpdate o newSize.toNat).2.1 s'
  := by
  have hcall := h.toLeads.call (c := .updateDynamicTableSize newSize) trivial
  rw [FieldLookupTable.call] at hcall
  have hlimits : ∀ b, b = s.call (.updateDynamicTableSize newSize) →
      b.queue.capacity < 2 ^ 31 ∧ b.maxCapacity = s.maxCapacity := by
    rintro b rfl
    have hsmall := h.small
    have hmax := h.max_small
    rw [BoundedTable.call]
    split_ifs with haccepted
    · constructor
      · change newSize.toNat < 2 ^ 31
        omega
      · rfl
    · constructor
      · apply hsmall
      · rfl
  obtain ⟨hsmall, hmax⟩ := hlimits _ rfl
  rw [Encoder.encodeSizeUpdate]
  rcases hupdate : e.lookupTable.updateDynamicTableSize newSize.toNat with ⟨_ | _, t⟩
  · use s
  · rw [hupdate] at hcall
    use s.call (.updateDynamicTableSize newSize), hcall, hsmall
    rw [hmax]
    apply h.max_small

/-- A call keeps the encoder's table a bounded queue. -/
theorem Keeps.step {e : Encoder} (huffman : Huffman) (h : e.Keeps s) (c : EncoderCall) :
  ∃ s', Keeps (e.step huffman c) s'
  := by
  cases c with
  | block buffer c =>
    have hnew : (BitOStream.new buffer).bitsSet % 8 = 0 := Nat.mul_mod_right 8 _
    cases c with
    | sizeUpdate newSize => apply h.encodeSizeUpdate
    | request header => apply (h.encodeRequest hnew).keeps
    | response header => apply (h.encodeResponse hnew).keeps
  | setMaxDynamicTableSize size =>
    use { s with maxCapacity := size }
    constructor
    · have hsize : (UInt32.ofNat size.val).toNat = size.val := by
        apply UInt32.toNat_ofNat_of_lt
        apply Nat.lt_trans size.isLt
        decide
      have hcall := h.toLeads.call (c := .setMaxDynamicTableSize (UInt32.ofNat size.val)) trivial
      rw [FieldLookupTable.call, BoundedTable.call, hsize] at hcall
      apply hcall
    · apply h.small
    · apply size.isLt
  | setCompressStrings compress =>
    use s
    constructor
    · constructor
      · apply h.refines
      · apply h.indexed
      · apply h.useIndex_eq
      · apply h.capacity_lt
    · apply h.small
    · apply h.max_small

theorem Keeps.run {e : Encoder} (huffman : Huffman) (h : e.Keeps s) (calls : List EncoderCall) :
  ∃ s', Keeps (e.run huffman calls) s'
  := by
  induction calls generalizing e s with
  | nil => exact ⟨s, h⟩
  | cons c calls ih =>
    obtain ⟨s', h'⟩ := h.step huffman c
    apply ih h'

/-! ### Failure -/

/-- A failed call has left the dynamic table as it was. -/
def Intact (e : Encoder) (r : Bool × Encoder × BitOStream) : Prop :=
  r.1 = false → SameDynamicPart r.2.1.lookupTable e.lookupTable

end Encoder

/-- The leading fields that can be inserted into a dynamic table. -/
def insertable (wanted refused : Octets → Bool) (header : HttpHeader) : List HeaderField :=
  (leadingFields wanted refused [] header).filter fun f => f ∉ staticPart ∧ f.Representable

/-- The insertion of `fields`, as far as they are missing, gives the table back: none is missing, or
the last of them are those of the table in the order of their insertion, and the one before them
has evicted these. -/
def FieldLookupTable.Absorbs (t : FieldLookupTable) (fields : List HeaderField) : Prop :=
  (∀ f ∈ fields, f ∈ t.entries) ∨
    ∃ before f, fields = before ++ f :: t.entries.reverse ∧
      t.tableCapacity < t.dataSize + f.size

namespace Encoder

theorem addAll_eq (s : BoundedTable) (fields : List HeaderField) :
  addAll s fields = { s with
    queue := (fields.filter fun f => f ∉ staticPart ∧ f.Representable).foldl
      BoundedFifo.pushMissing s.queue }
  := by
  induction fields generalizing s with
  | nil => rfl
  | cons f fields ih =>
    rw [addAll, List.foldl_cons]
    change addAll (s.addMissing f) fields = _
    rw [ih, BoundedTable.addMissing]
    split_ifs with hf
    · rw [List.filter_cons_of_pos (by simpa using hf)]
      rfl
    · rw [List.filter_cons_of_neg (by simpa using hf)]

/-- A call leaves the table intact where it succeeds, or where the table absorbs what it has
inserted. -/
theorem Encoded.intact_iff {wanted refused : Octets → Bool} {valid : Prop} {e : Encoder}
    {s : BoundedTable} {header : HttpHeader} {r : Bool × Encoder × BitOStream} (h : e.Keeps s)
    (hencoded : Encoded wanted refused valid s header r) :
  Intact e r ↔ valid ∨ e.lookupTable.Absorbs (insertable wanted refused header)
  := by
  by_cases hvalid : valid
  · constructor
    · intro _
      left
      apply hvalid
    · intro _ hfailed
      rw [hencoded.succeeds_iff.mpr hvalid] at hfailed
      cases hfailed
  have hfailed : r.1 = false := by
    rw [← Bool.not_eq_true, hencoded.succeeds_iff]
    apply hvalid
  have hkeeps := hencoded.failed hfailed
  rw [addAll_eq] at hkeeps
  have hnodup : (insertable wanted refused header).Nodup :=
    (leadingFields_names wanted refused [] header).2.filter _
  have hentries : r.2.1.lookupTable.entries = e.lookupTable.entries ↔
      e.lookupTable.Absorbs (insertable wanted refused header) := by
    rw [FieldLookupTable.Absorbs, hkeeps.refines.entries_eq, h.refines.wf.dataSize_eq,
      h.refines.entries_eq, h.refines.capacity_eq]
    apply BoundedFifo.foldl_pushMissing_entries_eq_iff s.queue hnodup
  rw [or_iff_right hvalid, ← hentries]
  constructor
  · intro hintact
    apply (hintact hfailed).entries_eq
  · intro hsame _
    constructor
    · apply hsame
    · rw [hkeeps.refines.wf.dataSize_eq, h.refines.wf.dataSize_eq, hsame]
    · rw [hkeeps.refines.capacity_eq, h.refines.capacity_eq]
      apply BoundedFifo.foldl_pushMissing_capacity

/-- In every state an encoder reaches, `encodeRequest` and `encodeResponse` leave the dynamic table
intact where they succeed, and otherwise where the table absorbs the leading fields. -/
theorem intact_exact_iff (huffman : Huffman) (size : Fin (2 ^ 31)) (compress : Bool)
    (calls : List EncoderCall) (buffer : Octets) (header : HttpHeader) :
  let e := run huffman (.new size compress) calls
  (Intact e (e.encodeRequest huffman (.new buffer) header) ↔
    ValidRequest header ∨ e.lookupTable.Absorbs
      (insertable isRequestPseudoHeader (· = octets ":status") header)) ∧
  (Intact e (e.encodeResponse huffman (.new buffer) header) ↔
    ValidResponse header ∨ e.lookupTable.Absorbs
      (insertable (· = octets ":status") isRequestPseudoHeader header))
  := by
  intro e
  obtain ⟨s, h⟩ := (keeps_new size compress).run huffman calls
  have h_new : (BitOStream.new buffer).bitsSet % 8 = 0 := Nat.mul_mod_right 8 _
  constructor
  · apply Encoded.intact_iff h (h.encodeRequest h_new)
  · apply Encoded.intact_iff h (h.encodeResponse h_new)

/-- A request without `:path`, whose `:method` is not in the table. -/
theorem encodeRequest_not_intact :
  ¬ Intact (.new 4096 false) (encodeRequest ⟨fun s => 8 * s.length, id, some⟩ (.new 4096 false)
    (.new []) [⟨octets ":method", octets "PUT"⟩, ⟨octets ":scheme", octets "https"⟩])
  := by
  intro h_intact
  have h_same := (h_intact (by decide)).entries_eq
  revert h_same
  decide

end Encoder

end HPack
