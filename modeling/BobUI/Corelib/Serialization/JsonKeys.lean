import BobUI.Corelib.Serialization.JsonStrings
import Mathlib.Data.List.Forall2

/-!
# The keys of an object

An object keeps its members in the order of the code units of their keys; the parser sorts them
by the keys as it keeps these.  The comparison of two strings for equality ignores surrogates
that are not part of a pair where only one of the strings is UTF-16, but no other order of the
keys is equal to the one of the object.
-/

namespace JsonString

/-! ### The order of keys -/

theorem compareData_swap (as bs : List ℕ) :
  compareData bs as = -compareData as bs
  := by
  induction as generalizing bs with
  | nil => cases bs <;> rfl
  | cons a as ih =>
    cases bs with
    | nil => rfl
    | cons b bs =>
      by_cases h : a = b
      · rw [compareData, compareData, if_pos h, if_pos h.symm, ih]
      · rw [compareData, compareData, if_neg h, if_neg (Ne.symm h), Int.neg_sub]

theorem compareData_self (as : List ℕ) :
  compareData as as = 0
  := by
  induction as with
  | nil => rfl
  | cons a as ih => rw [compareData, if_pos rfl, ih]

theorem compareKeys_swap (a b : JsonString) :
  compareKeys b a = -compareKeys a b
  := by
  cases a with
  | ascii a =>
    cases b with
    | ascii b => exact compareData_swap _ _
    | utf8 b => exact compareData_swap _ _
    | utf16 b => rfl
  | utf8 a =>
    cases b with
    | ascii b => exact compareData_swap _ _
    | utf8 b => exact compareData_swap _ _
    | utf16 b => rfl
  | utf16 a =>
    cases b with
    | ascii b => exact (Int.neg_neg _).symm
    | utf8 b => exact (Int.neg_neg _).symm
    | utf16 b => exact compareData_swap _ _

theorem compareKeys_self (a : JsonString) :
  compareKeys a a = 0
  := by
  cases a <;> exact compareData_self _

/-! ### The octets of a string -/

/-- The octets of a string, without those of surrogates that are not part of a pair. -/
def encode : QString → QByteArray
  | [] => []
  | u :: units =>
    match _h : QUtf8.toUtf8 u units with
    | none => encode units
    | some (octets, rest) => octets ++ encode rest
termination_by units => units.length
decreasing_by
  · exact Nat.lt_succ_self _
  · exact Nat.lt_succ_of_le (QUtf8.toUtf8_length _h)

theorem encode_some {u : UInt16} {units rest : QString} {octets : QByteArray}
    (h : QUtf8.toUtf8 u units = some (octets, rest)) :
  encode (u :: units) = octets ++ encode rest
  := by
  rw [encode]
  split
  next hnone => rw [h] at hnone; cases hnone
  next hsome => rw [h] at hsome; cases hsome; rfl

theorem encode_none {u : UInt16} {units : QString} (h : QUtf8.toUtf8 u units = none) :
  encode (u :: units) = encode units
  := by
  rw [encode]
  split
  next => rfl
  next hsome => rw [h] at hsome; cases hsome

/-- Strings that are found equal have the same octets. -/
theorem encode_of_equalInUtf8 {bytes : QByteArray} {units : QString}
    (h : equalInUtf8 bytes units = true) :
  encode units = bytes
  := by
  fun_induction equalInUtf8 bytes units with
  | case1 bytes =>
    rw [encode]
    exact (List.isEmpty_iff.mp h).symm
  | case2 => cases h
  | case3 bytes u units hbytes hutf8 ih =>
    rw [encode_none hutf8]
    exact ih h
  | case4 bytes u units hbytes octets rest hutf8 hprefix ih =>
    rw [encode_some hutf8, ih h]
    exact List.prefix_iff_eq_append.mp (List.isPrefixOf_iff_prefix.mp hprefix)
  | case5 => cases h

theorem encode_ascii {s : QString} (h : s.all (· < 0x80) = true) :
  encode s = s.map UInt16.toUInt8
  := by
  induction s with
  | nil => rw [encode, List.map_nil]
  | cons u s ih =>
    rw [List.all_cons, Bool.and_eq_true] at h
    rw [encode_some (QUtf8.toUtf8_ascii (of_decide_eq_true h.1) s), ih h.2]
    rfl

/-- The octets of a character in US-ASCII are read as its code unit. -/
theorem nextUcs4FromUtf8_ascii {u : UInt16} (h : u < 0x80) (src : QByteArray) :
  nextUcs4FromUtf8 0xfffd u.toUInt8 src = (u.toNat, src)
  := by
  have hlt := UInt16.lt_iff_toNat_lt.mp h
  have hoctet : u.toUInt8 < 0x80 := by
    rw [UInt8.lt_iff_toNat_lt, UInt16.toNat_toUInt8]
    exact Nat.lt_of_le_of_lt (Nat.mod_le _ _) hlt
  rw [nextUcs4FromUtf8, QUtf8.fromUtf8, if_pos hoctet, JsonParser.toUInt16_toUInt8 h]
  rfl

theorem compareUtf8_ascii {a b : UInt16} (h : a < 0x80) (as : QByteArray) (bs : QString) :
  compareUtf8 (a.toUInt8 :: as) (b :: bs)
    = if a ≠ b then (a.toNat : ℤ) - b.toNat else compareUtf8 as bs
  := by
  have hlt : ¬ 0x80 ≤ a.toNat := Nat.not_le_of_lt (UInt16.lt_iff_toNat_lt.mp h)
  rw [compareUtf8, nextUcs4FromUtf8_ascii h]
  dsimp only
  rw [if_neg hlt]
  simp only [ne_eq, UInt16.toNat_inj]

/-- A string in US-ASCII is before every other string with its octets. -/
theorem ascii_before {w u : QString} (hw : w.all (· < 0x80) = true)
    (h : encode u = w.map UInt16.toUInt8) (hne : u ≠ w) :
  compareData (w.map UInt16.toNat) (u.map UInt16.toNat) < 0
    ∧ compareUtf8 (w.map UInt16.toUInt8) u < 0
  := by
  induction u generalizing w with
  | nil =>
    rw [encode] at h
    exact absurd (List.map_eq_nil_iff.mp h.symm).symm hne
  | cons x src ih =>
    cases w with
    | nil =>
      rw [List.map_nil, List.map_nil, List.map_cons, compareData, compareUtf8]
      exact ⟨by decide, by decide⟩
    | cons y w =>
      rw [List.all_cons, Bool.and_eq_true, decide_eq_true_eq] at hw
      have hy := UInt16.lt_iff_toNat_lt.mp hw.1
      rw [List.map_cons, List.map_cons, List.map_cons, compareData, compareUtf8_ascii hw.1]
      by_cases hx : x < 0x80
      · rw [encode_some (QUtf8.toUtf8_ascii hx src), List.map_cons] at h
        obtain ⟨hfirst, hrest⟩ := List.cons.inj h
        have heq : x = y := by
          rw [← JsonParser.toUInt16_toUInt8 hx, hfirst, JsonParser.toUInt16_toUInt8 hw.1]
        subst heq
        rw [if_pos rfl, if_neg (fun hx => hx rfl)]
        exact ih hw.2 hrest (fun hsrc => hne (by rw [hsrc]))
      · have hlt : (y.toNat : ℤ) - x.toNat < 0 := by
          rw [UInt16.not_lt, UInt16.le_iff_toNat_le] at hx
          have hbound : (0x80 : UInt16).toNat = 0x80 := rfl
          omega
        have htoNat : y.toNat ≠ x.toNat := by omega
        rw [if_neg htoNat, if_pos (fun heq => htoNat (congrArg UInt16.toNat heq))]
        exact ⟨hlt, hlt⟩

end JsonString

namespace JsonParser

open JsonWriter (escapedString)
open JsonString (encode compareData compareKeys ofString)

/-! ### The order of the keys that are read -/

theorem encode_escapedString {s : QString} (h : backslash ∉ escapedString s) :
  encode s = escapedString s
  := JsonString.encode_of_equalInUtf8 (equalInUtf8_escapedString s h)

theorem escapedString_injective {s t : QString} (hs : backslash ∉ escapedString s)
    (ht : backslash ∉ escapedString t) (h : escapedString s = escapedString t) :
  s = t
  := by
  have hdecode := decode_escapedString s hs
  rw [h, decode_escapedString t ht] at hdecode
  exact (congrArg QUtf8.Decoded.units hdecode).symm

/-- When a key is equal to a key that is read, though that need not be the same. -/
theorem equal_cases {a c : QString} (h : (ofString a).equal (parsedString c) = true) :
  a = c ∨ backslash ∉ escapedString c ∧ encode a = escapedString c
    ∨ a.all (· < 0x80) = true ∧ backslash ∈ escapedString c ∧ encode c = a.map UInt16.toUInt8
  := by
  unfold ofString parsedString at h
  split at h
  next hascii =>
    split at h
    next hescape =>
      rw [JsonString.equal, equalInUtf8_mixed] at h
      exact .inr (.inr ⟨hascii, hescape, JsonString.encode_of_equalInUtf8 h⟩)
    next hescape =>
      refine .inr (.inl ⟨hescape, ?_⟩)
      rw [JsonString.encode_ascii hascii]
      split at h
      next => exact of_decide_eq_true h
      next => exact of_decide_eq_true h
  next =>
    split at h
    next => exact .inl (of_decide_eq_true h)
    next hescape =>
      refine .inr (.inl ⟨hescape, JsonString.encode_of_equalInUtf8 ?_⟩)
      rw [← equalInUtf8_mixed]
      split at h
      next => exact h
      next => exact h

/-- The order of the keys of an object. -/
def keyBefore (a b : QString) : Prop :=
  compareData (a.map UInt16.toNat) (b.map UInt16.toNat) < 0

/-- The order of the keys that are read. -/
def parsedBefore (a b : QString) : Prop :=
  compareKeys (parsedString a) (parsedString b) < 0

theorem keyBefore_asymm {a b : QString} (h : keyBefore a b) :
  ¬ keyBefore b a
  := by
  unfold keyBefore at h ⊢
  rw [JsonString.compareData_swap]
  omega

theorem parsedBefore_asymm {a b : QString} (h : parsedBefore a b) :
  ¬ parsedBefore b a
  := by
  unfold parsedBefore at h ⊢
  rw [JsonString.compareKeys_swap]
  omega

theorem keyBefore_irrefl (a : QString) :
  ¬ keyBefore a a
  := by
  rw [keyBefore, JsonString.compareData_self]
  exact Int.lt_irrefl 0

theorem nodup_of_keyBefore {as : List QString} (h : as.Pairwise keyBefore) :
  as.Nodup
  := by
  apply h.imp
  rintro a b hlt rfl
  exact keyBefore_irrefl a hlt

/-- A key in US-ASCII is read before every other key with its octets. -/
theorem parsedBefore_ascii {w u : QString} (hw : w.all (· < 0x80) = true)
    (hu : backslash ∈ escapedString u) (h : encode u = w.map UInt16.toUInt8) (hne : u ≠ w) :
  parsedBefore w u
  := by
  obtain ⟨hdata, hutf8⟩ := JsonString.ascii_before hw h hne
  rw [parsedBefore, parsedString, parsedString, if_pos hu]
  split
  next => exact hdata
  next hescape =>
    rw [escapedString_of_ascii w hw hescape]
    split
    next => exact hutf8
    next => exact hutf8

theorem exists_of_forall₂ {R : QString → QString → Prop} {as cs : List QString}
    (h : List.Forall₂ R as cs) {a : QString} (ha : a ∈ as) :
  ∃ c ∈ cs, R a c
  := by
  induction h with
  | nil => exact absurd ha List.not_mem_nil
  | @cons b c as cs hbc hrest ih =>
    rcases List.mem_cons.mp ha with rfl | ha
    · exact ⟨c, List.mem_cons_self, hbc⟩
    · obtain ⟨d, hd, had⟩ := ih ha
      exact ⟨d, List.mem_cons_of_mem _ hd, had⟩

/-- The keys that are read, in the parser's order, are equal to those of an object only where
they are in the order of the object. -/
theorem eq_of_equal_keys {as cs : List QString} (has : as.Pairwise keyBefore) (hperm : cs.Perm as)
    (hcs : cs.Pairwise fun c d => ¬ parsedBefore d c)
    (h : List.Forall₂ (fun a c => (ofString a).equal (parsedString c) = true) as cs) :
  cs = as
  := by
  induction h with
  | nil => rfl
  | @cons a c as cs hequal hrest ih =>
    rw [List.pairwise_cons] at has hcs
    have hfirst : c = a := by
      by_contra hne
      rcases equal_cases hequal with heq | ⟨hescape, hoctets⟩ | ⟨hascii, hescape, hoctets⟩
      · exact hne heq.symm
      · -- The key `c` is behind `a` in the object, and some key that is read is equal to it.
        have hc : c ∈ as := by
          have hmem := hperm.mem_iff.mp List.mem_cons_self
          exact (List.mem_cons.mp hmem).resolve_left hne
        obtain ⟨d, hd, hequal'⟩ := exists_of_forall₂ hrest hc
        have hnodup := hperm.symm.nodup (nodup_of_keyBefore (List.pairwise_cons.mpr has))
        have hcd : c ≠ d := by
          rintro rfl
          exact (List.nodup_cons.mp hnodup).1 hd
        rcases equal_cases hequal' with heq | ⟨hescape', hoctets'⟩ | ⟨hascii, -⟩
        · exact hcd heq
        · rw [encode_escapedString hescape] at hoctets'
          exact hcd (escapedString_injective hescape hescape' hoctets')
        · rw [escapedString_of_ascii c hascii hescape] at hoctets
          have hbefore := (JsonString.ascii_before hascii hoctets (Ne.symm hne)).1
          exact keyBefore_asymm (has.1 c hc) hbefore
      · -- The key `a` is read before `c`, and is behind it among the keys that are read.
        have ha : a ∈ cs := by
          have hmem := hperm.mem_iff.mpr (List.mem_cons_self (a := a) (l := as))
          exact (List.mem_cons.mp hmem).resolve_left (Ne.symm hne)
        exact hcs.1 a ha (parsedBefore_ascii hascii hescape hoctets hne)
    subst hfirst
    rw [ih has.2 (List.Perm.cons_inv hperm) hcs.2]

end JsonParser
