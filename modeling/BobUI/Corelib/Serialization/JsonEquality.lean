import BobUI.Library.StableSort
import BobUI.Corelib.Serialization.JsonRoundTrip
import BobUI.Corelib.Serialization.JsonKeys
import Mathlib.Data.List.Sort

/-!
# JSON values that round trip

The value that the parser makes of a text is equal to the one that was written unless one of
three things happens: a double in a container comes back as an integer, the members of an object
come back in another order, or a string loses its byte order mark.
-/

open JsonParser StableSort

/-- The elements of containers that come back equal: the doubles are not integers in the range of
`qint64`, and the keys of each object are in the parser's order, too. -/
inductive JsonValue.Kept {D : Type} (F : DoubleText D) : JsonValue D → Prop where
  | null : Kept F .null
  | bool (b : Bool) : Kept F (.bool b)
  | integer (n : ℤ) : Kept F (.integer n)
  | double (d : D) : F.convertDoubleTo d true = none → Kept F (.double d)
  | string (s : JsonString) : Kept F (.string s)
  | array (elements : List (JsonValue D)) : (∀ v ∈ elements, Kept F v) → Kept F (.array elements)
  | object (members : List (JsonString × JsonValue D)) :
    members.Pairwise (fun m n => parsedBefore m.1.toString n.1.toString) →
    (∀ m ∈ members, Kept F m.2) → Kept F (.object members)

/-- The values that come back equal. -/
def JsonValue.ReadsBack {D : Type} (F : DoubleText D) : JsonValue D → Prop
  | .string s => ¬ StartsWithMark s.toString
  | .double _ => True
  | v => v.Kept F

namespace JsonParser

variable {D : Type}

/-! ### The members of an object -/

theorem keyLess_iff (m n : Member D) :
  keyLess m n = true ↔ JsonString.compareKeys m.1 n.1 < 0
  := decide_eq_true_iff

theorem keyLess_swap {m n : Member D} (h : keyLess m n = true) :
  keyLess n m = false
  := by
  rw [keyLess_iff] at h
  rw [← Bool.not_eq_true, keyLess_iff, JsonString.compareKeys_swap]
  omega

theorem keyLess_self (m : Member D) :
  keyLess m m = false
  := by
  rw [← Bool.not_eq_true, keyLess_iff, JsonString.compareKeys_self]
  omega

theorem uniqueLast_eq {members : List (Member D)}
    (h : members.Pairwise fun m n => keyLess m n = true) :
  uniqueLast members = members
  := by
  induction members with
  | nil => rfl
  | cons m members ih =>
    cases members with
    | nil => rfl
    | cons n members =>
      rw [List.pairwise_cons] at h
      have hless := (keyLess_iff m n).mp (h.1 n List.mem_cons_self)
      rw [uniqueLast, if_neg (by omega), ih h.2]

theorem uniqueLast_length (members : List (Member D)) :
  (uniqueLast members).length ≤ members.length
  := by
  induction members with
  | nil => exact Nat.le_refl _
  | cons m members ih =>
    cases members with
    | nil => exact Nat.le_refl _
    | cons n members =>
      rw [uniqueLast]
      split
      · exact Nat.le_succ_of_le ih
      · exact Nat.succ_le_succ ih

variable {p : JsonValue D → JsonValue D} {members : List (QString × JsonValue D)}
  {stableSort : (Member D → Member D → Bool) → List (Member D) → List (Member D)}

/-- Members in the parser's order stay as they are. -/
theorem sortContainer_eq (hsort : IsStableSort stableSort) {members : List (Member D)}
    (h : members.Pairwise fun m n => keyLess m n = true) :
  sortContainer stableSort members = members
  := by
  have hboth : members.Pairwise fun m n => keyLess m n = true ∧ keyLess n m = false :=
    h.imp fun hless => ⟨hless, keyLess_swap hless⟩
  rw [sortContainer, hsort.sort_eq (fun m _ => keyLess_self m) hboth, uniqueLast_eq h]

/-- Sorted members of which none is dropped have different keys. -/
theorem pairwise_of_uniqueLast {members : List (Member D)}
    (horder : StrictWeakOrderOn keyLess members) (h : Sorted keyLess members)
    (hlength : (uniqueLast members).length = members.length) :
  uniqueLast members = members ∧ members.Pairwise fun m n => keyLess m n = true
  := by
  induction members with
  | nil => exact ⟨rfl, List.Pairwise.nil⟩
  | cons m members ih =>
    cases members with
    | nil => exact ⟨rfl, List.pairwise_singleton _ _⟩
    | cons n members =>
      have hunique := uniqueLast_length (n :: members)
      rw [uniqueLast] at hlength ⊢
      split at hlength
      next =>
        rw [List.length_cons] at hlength
        omega
      next hne =>
        obtain ⟨hm, hrest⟩ := List.pairwise_cons.mp h
        obtain ⟨heq, hpairwise⟩ := ih (horder.mono fun a ha => List.mem_cons_of_mem _ ha)
          hrest (Nat.succ.inj hlength)
        have hmn : keyLess m n = true := by
          have hnm := hm n List.mem_cons_self
          rw [← Bool.not_eq_true, keyLess_iff, JsonString.compareKeys_swap] at hnm
          rw [keyLess_iff]
          omega
        rw [if_neg hne, heq]
        refine ⟨rfl, List.pairwise_cons.mpr ⟨fun c hc => ?_, hpairwise⟩⟩
        rcases List.mem_cons.mp hc with rfl | hc
        · exact hmn
        · have hcn := (List.pairwise_cons.mp hrest).1 c hc
          have hsplit := horder.split m List.mem_cons_self c
            (List.mem_cons_of_mem _ (List.mem_cons_of_mem _ hc)) n
            (List.mem_cons_of_mem _ List.mem_cons_self) hmn
          rw [hcn] at hsplit
          exact hsplit.resolve_right Bool.false_ne_true

/-! ### The equality of containers -/

variable [DecidableEq D]

open JsonValue (equalElement equalElements equalMembers equalMember)

theorem equalElements_map (elements : List (JsonValue D)) (p : JsonValue D → JsonValue D) :
  equalElements elements (elements.map p) = true ↔ ∀ v ∈ elements, equalElement v (p v) = true
  := by
  induction elements with
  | nil => exact iff_of_true rfl (fun v hv => absurd hv List.not_mem_nil)
  | cons v elements ih =>
    rw [List.map_cons, equalElements, Bool.and_eq_true, ih, List.forall_mem_cons]

/-- Members are equal one by one. -/
def MemberEqual (m n : Member D) : Prop :=
  m.1.equal n.1 = true ∧ equalElement m.2 n.2 = true

theorem equalMembers_iff (as bs : List (Member D)) :
  equalMembers as bs = true ↔ List.Forall₂ MemberEqual as bs
  := by
  induction as generalizing bs with
  | nil =>
    cases bs with
    | nil => exact iff_of_true rfl List.Forall₂.nil
    | cons b bs => exact iff_of_false Bool.false_ne_true (fun h => nomatch h)
  | cons a as ih =>
    cases bs with
    | nil => exact iff_of_false Bool.false_ne_true (fun h => nomatch h)
    | cons b bs =>
      rw [equalMembers, Bool.and_eq_true, ih, List.forall₂_cons, equalMember, Bool.and_eq_true]
      rfl

/-- The members of an object with keys `m.1`, as the object keeps them. -/
def storedMembers (members : List (QString × JsonValue D)) : List (Member D) :=
  members.map fun m => (.ofString m.1, m.2)

/-- The members that the parser reads, before it sorts them. -/
def readMembers (p : JsonValue D → JsonValue D) (members : List (QString × JsonValue D)) :
    List (Member D) :=
  members.map fun m => (parsedString m.1, p m.2)

omit [DecidableEq D] in
theorem keyLess_readMembers :
  (readMembers p members).Pairwise (fun m n => keyLess m n = true)
    ↔ members.Pairwise fun m n => parsedBefore m.1 n.1
  := by
  rw [readMembers, List.pairwise_map]
  simp only [keyLess_iff, parsedBefore]

/-- Where the keys are in the parser's order, the members come back equal if their values do. -/
theorem equalMembers_of_ordered (hsort : IsStableSort stableSort)
    (h : members.Pairwise fun m n => parsedBefore m.1 n.1) :
  equalMembers (storedMembers members) (sortedMembers stableSort (readMembers p members)) = true
    ↔ ∀ m ∈ members, equalElement m.2 (p m.2) = true
  := by
  have hsorted : sortedMembers stableSort (readMembers p members) = readMembers p members := by
    have heq := sortContainer_eq hsort (keyLess_readMembers (p := p).mpr h)
    cases hread : readMembers p members with
    | nil => rfl
    | cons m rest => rw [hread] at heq; exact heq
  rw [hsorted, equalMembers_iff, storedMembers, readMembers, List.forall₂_map_left_iff,
    List.forall₂_map_right_iff, List.forall₂_same]
  simp only [MemberEqual, equal_parsedString, true_and]

omit [DecidableEq D] in
theorem exists_of_perm_readMembers {l : List (Member D)} (h : l.Perm (readMembers p members)) :
  ∃ sorted, l = readMembers p sorted ∧ sorted.Perm members
  := by
  have hread : List.Forall₂ (fun n m => n = (parsedString m.1, p m.2)) (readMembers p members)
      members := by
    rw [readMembers, List.forall₂_map_left_iff, List.forall₂_same]
    exact fun _ _ => rfl
  obtain ⟨sorted, hsorted, hperm⟩ := List.perm_comp_forall₂ h hread
  refine ⟨sorted, ?_, hperm⟩
  rw [readMembers, ← List.forall₂_eq_eq_eq, List.forall₂_map_right_iff]
  exact hsorted

/-- Where the members come back equal from every sort, the keys are in the parser's order. -/
theorem ordered_of_equalMembers (hkeys : members.Pairwise fun m n => keyBefore m.1 n.1)
    (h : equalMembers (storedMembers members) (sortedMembers leastSort (readMembers p members))
      = true) :
  members.Pairwise fun m n => parsedBefore m.1 n.1
  := by
  cases hmembers : members with
  | nil => exact List.Pairwise.nil
  | cons m rest =>
    have hsorted : sortedMembers leastSort (readMembers p members)
        = uniqueLast (leastSort keyLess (readMembers p members)) := by
      rw [hmembers]
      rfl
    rw [← hmembers]
    rw [hsorted] at h
    by_cases horder : StrictWeakOrderOn keyLess (readMembers p members)
    · have hperm := isStableSort_leastSort.perm _ _ horder
      have hequal := (equalMembers_iff _ _).mp h
      have hlength : (uniqueLast (leastSort keyLess (readMembers p members))).length
          = (leastSort keyLess (readMembers p members)).length := by
        rw [← hequal.length_eq, hperm.length_eq, storedMembers, readMembers, List.length_map,
          List.length_map]
      obtain ⟨hunique, hless⟩ := pairwise_of_uniqueLast
        (horder.mono fun a ha => hperm.mem_iff.mp ha)
        (isStableSort_leastSort.sorted _ _ horder) hlength
      obtain ⟨sorted, hread, hmembers'⟩ := exists_of_perm_readMembers hperm
      rw [hunique, hread] at hequal
      rw [hread, keyLess_readMembers] at hless
      have hkeys_eq : sorted.map Prod.fst = members.map Prod.fst := by
        apply eq_of_equal_keys (List.pairwise_map.mpr hkeys) (hmembers'.map Prod.fst)
        · exact List.pairwise_map.mpr (hless.imp fun hbefore => parsedBefore_asymm hbefore)
        · rw [storedMembers, readMembers, List.forall₂_map_left_iff,
            List.forall₂_map_right_iff] at hequal
          rw [List.forall₂_map_left_iff, List.forall₂_map_right_iff]
          exact hequal.imp fun _ _ hboth => hboth.1
      have hbefore : (sorted.map Prod.fst).Pairwise parsedBefore := List.pairwise_map.mpr hless
      rw [hkeys_eq] at hbefore
      exact List.pairwise_map.mp hbefore
    · rw [leastSort_of_not horder, hmembers] at h
      cases h

/-! ### The equality of values -/

variable {F : DoubleText D}

omit [DecidableEq D] in
theorem parsedMembers_storedMembers (stableSort : (Member D → Member D → Bool) → List (Member D) →
    List (Member D)) (members : List (QString × JsonValue D)) :
  parsedMembers F stableSort (storedMembers members)
    = readMembers (parsedValue F stableSort) members
  := by
  rw [parsedMembers_eq, storedMembers, readMembers, List.map_map]
  simp only [Function.comp_def, toString_ofString]

omit [DecidableEq D] in
theorem kept_object_iff (members : List (QString × JsonValue D)) :
  (JsonValue.object (storedMembers members)).Kept F
    ↔ members.Pairwise (fun m n => parsedBefore m.1 n.1) ∧ ∀ m ∈ members, m.2.Kept F
  := by
  have horder : (storedMembers members).Pairwise
        (fun m n => parsedBefore m.1.toString n.1.toString)
      ↔ members.Pairwise fun m n => parsedBefore m.1 n.1 := by
    rw [storedMembers, List.pairwise_map]
    simp only [toString_ofString]
  have hvalues : (∀ m ∈ storedMembers members, m.2.Kept F) ↔ ∀ m ∈ members, m.2.Kept F := by
    rw [storedMembers, List.forall_mem_map]
  constructor
  · intro h
    cases h with
    | object _ hkeys hmembers => exact ⟨horder.mp hkeys, hvalues.mp hmembers⟩
  · rintro ⟨hkeys, hmembers⟩
    exact .object _ (horder.mpr hkeys) (hvalues.mpr hmembers)

/-- When an element of a container comes back equal. -/
theorem equalElement_iff (hF : F.Exact) {depth : ℕ} {v : JsonValue D} (h : v.Built F depth) :
  (∀ stableSort, IsStableSort stableSort → equalElement v (parsedValue F stableSort v) = true)
    ↔ v.Kept F
  := by
  induction h with
  | null depth => exact iff_of_true (fun _ _ => rfl) .null
  | bool depth b => exact iff_of_true (fun _ _ => decide_eq_true rfl) (.bool b)
  | integer depth n => exact iff_of_true (fun _ _ => decide_eq_true rfl) (.integer n)
  | double depth d hd =>
    rcases parsedDouble_eq hF hd with ⟨hnone, heq⟩ | ⟨hsome, n, heq, -⟩
    · apply iff_of_true _ (.double d hnone)
      intro stableSort hsort
      rw [parsedValue, heq]
      exact decide_eq_true rfl
    · apply iff_of_false
      · intro hall
        have hequal := hall leastSort isStableSort_leastSort
        rw [parsedValue, heq] at hequal
        cases hequal
      · intro hkept
        cases hkept with
        | double _ hnone => rw [hnone] at hsome; cases hsome
  | string depth s =>
    apply iff_of_true _ (.string _)
    intro stableSort hsort
    rw [parsedValue, toString_ofString]
    exact equal_parsedString s
  | array depth elements helements ih =>
    constructor
    · intro hall
      refine .array elements fun v hv => (ih v hv).mp fun stableSort hsort => ?_
      have hequal := hall stableSort hsort
      rw [parsedValue, parsedElements_eq] at hequal
      exact (equalElements_map _ _).mp hequal v hv
    · intro hkept stableSort hsort
      cases hkept with
      | array _ hvalues =>
        rw [parsedValue, parsedElements_eq]
        exact (equalElements_map _ _).mpr fun v hv =>
          (ih v hv).mpr (hvalues v hv) stableSort hsort
  | object depth members hkeys hmembers ih =>
    have hequal : ∀ stableSort, equalElement (.object (storedMembers members))
          (parsedValue F stableSort (.object (storedMembers members)))
        = equalMembers (storedMembers members)
          (sortedMembers stableSort (readMembers (parsedValue F stableSort) members)) := by
      intro stableSort
      rw [parsedValue, parsedMembers_storedMembers, equalElement]
    rw [← storedMembers, kept_object_iff]
    simp only [hequal]
    constructor
    · intro hall
      have hordered := ordered_of_equalMembers hkeys (hall leastSort isStableSort_leastSort)
      refine ⟨hordered, fun m hm => (ih m hm).mp fun stableSort hsort => ?_⟩
      exact (equalMembers_of_ordered hsort hordered).mp (hall stableSort hsort) m hm
    · rintro ⟨hordered, hvalues⟩ stableSort hsort
      exact (equalMembers_of_ordered hsort hordered).mpr fun m hm =>
        (ih m hm).mpr (hvalues m hm) stableSort hsort

/-! ### The round trip -/

/-- The text of a value is parsed to a value equal to it. -/
def RoundTrips (F : DoubleText D)
    (stableSort : (Member D → Member D → Bool) → List (Member D) → List (Member D))
    (compact : Bool) (v : JsonValue D) : Prop :=
  ∃ w, parse F stableSort (JsonWriter.valueToJson F compact v 0) = .ok w ∧ v.equal F w = true

/-- A value that is nested no deeper than the parser admits comes back equal, whatever the sort
does beyond its promise, if and only if it is one of those that read back. -/
theorem roundTrips_iff (h_F : F.Exact) {v : JsonValue D} (h : v.Built F nestingLimit)
    (compact : Bool) :
  (∀ stableSort, IsStableSort stableSort → RoundTrips F stableSort compact v) ↔ v.ReadsBack F
  := by
  have h_trip : ∀ stableSort, RoundTrips F stableSort compact v
      ↔ v.equal F (parsedValue F stableSort v) = true := by
    intro stableSort
    have h_parse := parse_valueToJson stableSort compact h_F h
    constructor
    · rintro ⟨w, h_w, h_equal⟩
      rw [h_parse] at h_w
      cases h_w
      exact h_equal
    · intro h_equal
      exact ⟨_, h_parse, h_equal⟩
  simp only [h_trip]
  have h_elements := equalElement_iff h_F h
  cases h with
  | null _ => exact h_elements
  | bool _ b => exact h_elements
  | integer _ n => exact h_elements
  | double _ d h_d =>
    apply iff_of_true _ trivial
    intro stableSort h_sort
    rw [parsedValue]
    rcases parsedDouble_eq h_F h_d with ⟨-, h_eq⟩ | ⟨-, n, h_eq, h_equal⟩
    · rw [h_eq]
      exact h_F.eq_self d h_d
    · rw [h_eq]
      exact h_equal
  | string _ s =>
    have h_string : ∀ stableSort, (JsonValue.string (D := D) (.ofString s)).equal F
        (parsedValue F stableSort (.string (.ofString s))) = true ↔ ¬ StartsWithMark s := by
      intro stableSort
      rw [parsedValue, JsonValue.equal, toString_ofString, decide_eq_true_eq,
        eq_comm, toString_parsedString]
    simp only [h_string, JsonValue.ReadsBack, toString_ofString]
    exact ⟨fun h_all => h_all leastSort isStableSort_leastSort, fun h_not _ _ => h_not⟩
  | array _ elements => exact h_elements
  | object _ members => exact h_elements

/-! ### One double -/

/-- Floating point with the number 0.5 alone. -/
def oneHalf : DoubleText Unit where
  isFinite _ := true
  number _ := [0x30, 0x2e, 0x35]
  toDouble text := if text = [0x30, 0x2e, 0x35] then some () else none
  convertDoubleTo _ _ := none
  ofInteger _ := ()
  eq _ _ := true

theorem oneHalf_exact :
  oneHalf.Exact
  where
  number_text _ _ := by
    refine ⟨[], [0x30], [0x2e, 0x35], [], ?_, rfl⟩
    exact ⟨.inl rfl, .inl rfl, .inr ⟨[0x35], rfl, rfl⟩, .inl rfl⟩
  toDouble_number _ _ := rfl
  toLongLong_number _ n _ h := by cases h
  convertDoubleTo _ n h := by cases h
  eq_self _ _ := rfl

/-- The number 0.5, and a string with half of a surrogate pair and a line feed. -/
theorem roundTrips_iff_oneHalf :
  (∀ stableSort, IsStableSort stableSort → RoundTrips oneHalf stableSort false
      (.array [.double (), .string (.ofString [0xd800, 0x0a])]))
    ↔ (JsonValue.array [.double (), .string (.ofString [0xd800, 0x0a])]).ReadsBack oneHalf
  := by
  apply roundTrips_iff oneHalf_exact
  apply JsonValue.Built.array
  intro v h_v
  rcases List.mem_cons.mp h_v with rfl | h_v
  · exact .double _ () rfl rfl
  · rw [List.mem_singleton.mp h_v]
    exact .string _ _

/-- An object with the keys U+10000 and U+FFFD, in the order of their code units. -/
def twoKeys : JsonValue Unit :=
  .object [(.ofString [0xd800, 0xdc00], .null), (.ofString [0xfffd], .null)]

/-- The two keys come back in the order of their code points. -/
theorem twoKeys_not_roundTrips :
  ¬ RoundTrips oneHalf (fun less => List.insertionSort fun a b => less b a = false) true twoKeys
  := by
  rintro ⟨w, h_w, h_equal⟩
  have h_parsed : (match parse oneHalf
      (fun less => List.insertionSort fun a b => less b a = false)
      (JsonWriter.valueToJson oneHalf true twoKeys 0) with
      | .ok w => twoKeys.equal oneHalf w
      | .error _ => true) = false := by
    decide +kernel
  rw [h_w] at h_parsed
  dsimp only at h_parsed
  rw [h_equal] at h_parsed
  cases h_parsed

end JsonParser
