import BobUI.Corelib.Io.SettingsLists

/-!
# Values that are strings

What `stringToVariant` reads of a string value that `variantToString` wrote.
-/

namespace QSettings

theorem paired_append {a b : QString} (ha : QUtf8.paired a = true) (hb : QUtf8.paired b = true) :
  QUtf8.paired (a ++ b) = true
  := by
  induction hlength : a.length using Nat.strong_induction_on generalizing a with
  | _ n ih =>
    cases a with
    | nil => exact hb
    | cons ch a =>
      rw [List.length_cons] at hlength
      cases hhigh : QUtf8.isHighSurrogate ch with
      | true =>
        obtain ⟨low, rest, rfl, hlow⟩ := QUtf8.low_of_paired ha hhigh
        rw [QUtf8.paired_pair hhigh, Bool.and_eq_true] at ha
        rw [List.length_cons] at hlength
        rw [List.cons_append, List.cons_append, QUtf8.paired_pair hhigh, hlow,
          ih _ (by omega) ha.2 rfl]
        rfl
      | false =>
        have hsingle := QUtf8.not_isSurrogate_of_paired ha hhigh
        rw [QUtf8.paired_cons hsingle] at ha
        rw [List.cons_append, QUtf8.paired_cons hsingle]
        exact ih _ (by omega) ha rfl

/-- Where the text of a string has an '@' in front. -/
theorem variantToString_string (v : QString) :
  v.contains 0 = true ∧ variantToString (.string v) = atString ++ v ++ [0x29]
    ∨ v.contains 0 = false ∧ v.head? = some 0x40 ∧ variantToString (.string v) = 0x40 :: v
    ∨ v.contains 0 = false ∧ v.head? ≠ some 0x40 ∧ variantToString (.string v) = v
  := by
  rw [variantToString]
  cases hnull : v.contains 0 with
  | true => exact .inl ⟨rfl, if_pos rfl⟩
  | false =>
    rw [if_neg Bool.false_ne_true]
    by_cases hhead : v.head? = some 0x40
    · exact .inr (.inl ⟨rfl, hhead, if_pos hhead⟩)
    · exact .inr (.inr ⟨rfl, hhead, if_neg hhead⟩)

theorem paired_variantToString {v : QString} (h : QUtf8.paired v = true) :
  QUtf8.paired (variantToString (.string v)) = true
  := by
  rcases variantToString_string v with ⟨-, heq⟩ | ⟨-, -, heq⟩ | ⟨-, -, heq⟩
  · rw [heq]
    exact paired_append (paired_append (by decide) h) (by decide)
  · rw [heq]
    exact @paired_append [0x40] v (by decide) h
  · rwa [heq]

theorem useCodec_at {c : UInt16} (hbyteArray : c ≠ 0x42) (hvariant : c ≠ 0x56)
    (hdateTime : c ≠ 0x44) (str : QString) :
  useCodec (0x40 :: c :: str) = true
  := by
  have hnot : ∀ {d : UInt16}, c ≠ d →
      ∀ name, List.isPrefixOf (0x40 :: d :: name) (0x40 :: c :: str) = false := by
    intro d h name
    change (true && (d == c && _)) = false
    rw [beq_eq_false_iff_ne.mpr h.symm]
    rfl
  rw [useCodec, atByteArray, atVariant, atDateTime, hnot hbyteArray, hnot hvariant,
    hnot hdateTime]
  rfl

theorem useCodec_variantToString (v : QString) :
  useCodec (variantToString (.string v)) = true
  := by
  rcases variantToString_string v with ⟨-, heq⟩ | ⟨-, hhead, heq⟩ | ⟨-, hhead, heq⟩
  · rw [heq]
    exact useCodec_at (by decide) (by decide) (by decide) _
  · rw [heq]
    cases v with
    | nil => cases hhead
    | cons c v =>
      cases hhead
      exact useCodec_at (by decide) (by decide) (by decide) _
  · rw [heq]
    exact useCodec_of_head hhead

theorem typedVariant_at (s : QString) :
  typedVariant (0x40 :: 0x40 :: s) = none
  := by
  have hnot : ∀ {c : UInt16} {name : QString}, c ≠ 0x40 →
      ¬ List.isPrefixOf (0x40 :: c :: name) (0x40 :: 0x40 :: s) = true := by
    intro c name hc h
    change (true && (c == 0x40 && _)) = true at h
    rw [Bool.true_and, Bool.and_eq_true, beq_iff_eq] at h
    exact hc h.1
  rw [typedVariant, atByteArray, atString, atVariant, atDateTime, atRect, atSize, atPoint,
    atInvalid, if_neg (hnot (by decide)), if_neg (hnot (by decide)), if_neg (hnot (by decide)),
    if_neg (hnot (by decide)), if_neg (hnot (by decide)), if_neg (hnot (by decide)),
    if_neg (hnot (by decide)), if_neg]
  intro h
  cases h

theorem typedVariant_string (v : QString) :
  typedVariant (atString ++ v ++ [0x29]) = some (.string v)
  := by
  have hbyteArray : ¬ atByteArray.isPrefixOf (atString ++ v ++ [0x29]) = true := by
    intro h
    cases h
  have hstring : atString.isPrefixOf (atString ++ v ++ [0x29]) = true := by
    rw [List.isPrefixOf_iff_prefix, List.append_assoc]
    exact List.prefix_append ..
  have hdrop : (atString ++ v ++ [0x29]).drop 8 = v ++ [0x29] := rfl
  rw [typedVariant, if_neg hbyteArray, if_pos hstring, hdrop, List.dropLast_concat]

theorem stringToVariant_plain {s : QString} (h : s.head? ≠ some 0x40) :
  stringToVariant s = .string s
  := if_neg h

theorem stringToVariant_at {v : QString} (h : v.head? = some 0x40) :
  stringToVariant (0x40 :: v) = .string v
  := by
  have htyped : typedVariant (0x40 :: v) = none := by
    cases v with
    | nil => cases h
    | cons c v =>
      cases h
      exact typedVariant_at v
  rw [stringToVariant, if_pos (by rfl), htyped, ite_self]
  exact if_pos h

theorem stringToVariant_typed {s : QString} {v : QVariant} (hhead : s.head? = some 0x40)
    (hlast : s.getLast? = some 0x29) (h : typedVariant s = some v) :
  stringToVariant s = v
  := by
  rw [stringToVariant, if_pos hhead, if_pos hlast, h]

/-- Not a string of more than `n` characters. -/
def Within (n : ℕ) (v : QVariant) : Prop :=
  ∀ t, v = .string t → t.length ≤ n

theorem within_typedVariant (s : QString) :
  ∀ v ∈ typedVariant s, Within s.length v
  := by
  have hother : ∀ {v : QVariant}, (∀ t, v ≠ .string t) → ∀ w ∈ some v, Within s.length w := by
    rintro v h w ⟨⟩ t ht
    exact absurd ht (h t)
  have hnone : ∀ w ∈ (none : Option QVariant), Within s.length w := by
    rintro w ⟨⟩
  unfold typedVariant
  split_ifs
  · exact hother fun t => QVariant.noConfusion
  · rintro w ⟨⟩ t ⟨⟩
    rw [List.length_dropLast, List.length_drop]
    omega
  · exact hother fun t => QVariant.noConfusion
  · exact hother fun t => QVariant.noConfusion
  · split
    · exact hother fun t => QVariant.noConfusion
    · exact hnone
  · split
    · exact hother fun t => QVariant.noConfusion
    · exact hnone
  · split
    · exact hother fun t => QVariant.noConfusion
    · exact hnone
  · exact hother fun t => QVariant.noConfusion
  · exact hnone

/-- A string value is no longer than its text. -/
theorem within_stringToVariant (s : QString) :
  Within s.length (stringToVariant s)
  := by
  have hsame : Within s.length (.string s) := by
    rintro t ⟨⟩
    exact le_refl _
  unfold stringToVariant
  split
  next =>
    split
    next v htyped =>
      split at htyped
      next => exact within_typedVariant s v htyped
      next => cases htyped
    next =>
      split
      next =>
        rintro t ⟨⟩
        rw [List.length_tail]
        omega
      next => exact hsame
  next => exact hsame

/-- A string that is read as it was written: with U+0000 in it its text begins with a name. -/
def keepsMark (v : QString) : Bool :=
  v.contains 0 || firstPlain false v ≠ some 0xfeff

theorem stringToVariant_variantToString (v : QString) :
  stringToVariant (dropMark false (variantToString (.string v))) = .string v
    ↔ keepsMark v = true
  := by
  have hat : ∀ s : QString, dropMark false (0x40 :: s) = 0x40 :: s := fun _ => rfl
  rcases variantToString_string v with ⟨hnull, heq⟩ | ⟨hnull, hhead, heq⟩
    | ⟨hnull, hhead, heq⟩
  · have hmark : dropMark false (atString ++ v ++ [0x29]) = atString ++ v ++ [0x29] := hat _
    rw [keepsMark, hnull, Bool.true_or, heq, hmark,
      stringToVariant_typed rfl List.getLast?_concat (typedVariant_string v)]
    exact iff_of_true rfl rfl
  · have hplain : firstPlain false v = some 0x40 := by
      cases v with
      | nil => cases hhead
      | cons c v =>
        cases hhead
        rfl
    rw [keepsMark, hnull, hplain, heq, hat, stringToVariant_at hhead]
    exact iff_of_true rfl rfl
  · rw [keepsMark, hnull, Bool.false_or, decide_eq_true_eq, heq]
    constructor
    · intro h hfirst
      have hlength := within_stringToVariant _ v h
      have hshorter := length_dropMark hfirst
      omega
    · intro h
      rw [dropMark_eq h, stringToVariant_plain hhead]

/-- A string value is read back where its first character that is not escaped is not U+FEFF, or
where it holds U+0000. -/
theorem readValue_writtenValue (stream : List QVariant → QByteArray) {v : QString}
    (h : QUtf8.paired v = true) :
  readValue (writtenValue stream (.single (.string v))) = .single (.string v) ↔ keepsMark v = true
  := by
  have hread := iniUnescapedStringList_iniEscapedString (paired_variantToString h)
  rw [writtenValue, readValue, hread, ← stringToVariant_variantToString]
  dsimp only
  rw [if_neg Bool.false_ne_true, Value.single.injEq]

end QSettings
