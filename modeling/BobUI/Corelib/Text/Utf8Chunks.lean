import BobUI.Corelib.Text.Utf8

/-!
# Decoding UTF-8 in chunks

Decoding a concatenation is decoding its first part and then, behind the octets that this
leaves unfinished, the second part.  The calls on one state follow this as long as no call
breaks a sequence that the calls before it left unfinished.

* `convertChunks_iff`: the calls yield what a single call yields if and only if none of them
  breaks an unfinished sequence.
-/

namespace QUtf8

/-! ### One character -/

variable {s : State} {input : QByteArray} {s' : State} {headerDone : Bool}
  {charsNeeded minUc count : ℕ} {before : QString}

theorem continuation_append {uc : ℕ} {src : QByteArray}
    (h : continuation charsNeeded minUc count uc src ≠ .endOfString) (rest : QByteArray) :
  continuation charsNeeded minUc count uc (src ++ rest) =
    continuation charsNeeded minUc count uc src
  := by
  induction count generalizing uc src with
  | zero => rfl
  | succ count ih =>
    cases src with
    | nil => exact absurd rfl h
    | cons b src =>
      simp only [List.cons_append, continuation] at h ⊢
      split
      · rfl
      · rename_i hb
        rw [if_neg hb] at h
        exact ih h

theorem continuation_take {uc k : ℕ} (h : count ≤ k) (src : QByteArray) :
  continuation charsNeeded minUc count uc (src.take k) =
    continuation charsNeeded minUc count uc src
  := by
  induction count generalizing uc k src with
  | zero => rfl
  | succ count ih =>
    obtain ⟨k, rfl⟩ := Nat.exists_eq_add_of_lt (Nat.lt_of_lt_of_le (Nat.zero_lt_succ count) h)
    cases src with
    | nil => rw [List.take_nil]
    | cons b src =>
      rw [Nat.zero_add, List.take_succ_cons, continuation, continuation, ih (by omega)]

theorem finish_ne_endOfString (charsNeeded minUc uc : ℕ) :
  finish charsNeeded minUc uc ≠ .endOfString
  := by
  unfold finish
  split
  · simp
  · split <;> simp

theorem appendUcs4_ne_nil (uc : ℕ) :
  appendUcs4 uc ≠ []
  := by
  unfold appendUcs4
  split <;> simp

/-- A sequence is unfinished where there are too few continuation octets. -/
theorem continuation_endOfString {uc : ℕ} {src : QByteArray}
    (h : continuation charsNeeded minUc count uc src = .endOfString) :
  src.length < count ∧ ∀ b ∈ src, isContinuationByte b = true
  := by
  induction count generalizing uc src with
  | zero => exact absurd h (finish_ne_endOfString charsNeeded minUc uc)
  | succ count ih =>
    cases src with
    | nil => simp
    | cons b src =>
      rw [continuation] at h
      split at h
      · cases h
      · rename_i hb
        obtain ⟨hlength, hsrc⟩ := ih h
        refine ⟨Nat.succ_lt_succ hlength, ?_⟩
        rw [List.forall_mem_cons]
        exact ⟨by simpa using hb, hsrc⟩

theorem continuation_char {uc length : ℕ} {src : QByteArray} {units : QString}
    (h : continuation charsNeeded minUc count uc src = .char units length) :
  count ≤ src.length ∧ length = charsNeeded ∧ units ≠ []
  := by
  induction count generalizing uc src with
  | zero =>
    rw [continuation, finish] at h
    split at h
    · cases h
    · split at h
      · cases h
      · cases h
        exact ⟨Nat.zero_le _, rfl, appendUcs4_ne_nil uc⟩
  | succ count ih =>
    cases src with
    | nil => cases h
    | cons b src =>
      rw [continuation] at h
      split at h
      · cases h
      · obtain ⟨hlength, heq⟩ := ih h
        exact ⟨Nat.succ_le_succ hlength, heq⟩

/-- The first octet decides how many octets `fromUtf8` looks at. -/
theorem fromUtf8_cases (b : UInt8) :
  (∀ src, fromUtf8 b src = .char [b.toUInt16] 1) ∨ (∀ src, fromUtf8 b src = .error) ∨
    ∃ count minUc uc, 1 ≤ count ∧ count ≤ 3 ∧
      ∀ src, fromUtf8 b src = continuation (count + 1) minUc count uc src
  := by
  unfold fromUtf8
  split
  · exact .inl fun _ => rfl
  · split
    · exact .inr (.inl fun _ => rfl)
    · split
      · exact .inr (.inr ⟨1, _, _, Nat.le_refl _, by decide, fun _ => rfl⟩)
      · split
        · exact .inr (.inr ⟨2, _, _, by decide, by decide, fun _ => rfl⟩)
        · split
          · exact .inr (.inr ⟨3, _, _, by decide, Nat.le_refl _, fun _ => rfl⟩)
          · exact .inr (.inl fun _ => rfl)

variable {b : UInt8} {src rest : QByteArray} {units : QString} {length : ℕ}

theorem fromUtf8_append (h : fromUtf8 b src ≠ .endOfString) (rest : QByteArray) :
  fromUtf8 b (src ++ rest) = fromUtf8 b src
  := by
  obtain hb | hb | ⟨count, minUc, uc, -, -, hb⟩ := fromUtf8_cases b
  · rw [hb, hb]
  · rw [hb, hb]
  · rw [hb] at h ⊢
    rw [hb, continuation_append h]

theorem fromUtf8_take (b : UInt8) (src : QByteArray) :
  fromUtf8 b (src.take 3) = fromUtf8 b src
  := by
  obtain hb | hb | ⟨count, minUc, uc, -, hcount, hb⟩ := fromUtf8_cases b
  · rw [hb, hb]
  · rw [hb, hb]
  · rw [hb, hb, continuation_take hcount]

theorem fromUtf8_char (h : fromUtf8 b src = .char units length) :
  1 ≤ length ∧ length ≤ src.length + 1 ∧ units ≠ []
  := by
  obtain hb | hb | ⟨count, minUc, uc, -, -, hb⟩ := fromUtf8_cases b
  · rw [hb] at h
    cases h
    simp
  · rw [hb] at h
    cases h
  · rw [hb] at h
    obtain ⟨hlength, rfl, hunits⟩ := continuation_char h
    exact ⟨by omega, by omega, hunits⟩

theorem fromUtf8_endOfString (h : fromUtf8 b src = .endOfString) :
  src.length < 3 ∧ ∀ c ∈ src, isContinuationByte c = true
  := by
  obtain hb | hb | ⟨count, minUc, uc, -, hcount, hb⟩ := fromUtf8_cases b
  · rw [hb] at h
    cases h
  · rw [hb] at h
    cases h
  · rw [hb] at h
    obtain ⟨hlength, hsrc⟩ := continuation_endOfString h
    exact ⟨by omega, hsrc⟩

/-- A character that more octets complete ends among these octets. -/
theorem fromUtf8_completed (hsrc : fromUtf8 b src = .endOfString)
    (h : fromUtf8 b (src ++ rest) = .char units length) :
  src.length + 1 < length
  := by
  obtain hb | hb | ⟨count, minUc, uc, -, hcount, hb⟩ := fromUtf8_cases b
  · rw [hb] at hsrc
    cases hsrc
  · rw [hb] at h
    cases h
  · rw [hb] at h hsrc
    obtain ⟨-, rfl, -⟩ := continuation_char h
    have hshort := (continuation_endOfString hsrc).1
    omega

theorem fromUtf8_of_continuation (h : isContinuationByte b = true) (src : QByteArray) :
  fromUtf8 b src = .error
  := by
  have hoctets : ∀ n : Fin 256, n.val &&& 0xc0 = 0x80 → ¬n.val < 0x80 ∧ n.val ≤ 0xc1 := by
    set_option maxRecDepth 10000 in
    decide
  rw [isContinuationByte, decide_eq_true_eq, ← UInt8.toNat_inj, UInt8.toNat_and] at h
  obtain ⟨hascii, hle⟩ := hoctets ⟨b.toNat, UInt8.toNat_lt b⟩ h
  rw [fromUtf8, if_neg (fun h => hascii (UInt8.lt_iff_toNat_lt.mp h)),
    if_pos (UInt8.le_iff_toNat_le.mpr hle)]

/-- The octet behind an unfinished sequence is a continuation octet, or it breaks the
sequence. -/
theorem fromUtf8_snoc (hsrc : fromUtf8 b src = .endOfString) {c : UInt8}
    (h : fromUtf8 b (src ++ [c]) ≠ .error) :
  isContinuationByte c = true
  := by
  obtain hb | hb | ⟨count, minUc, uc, -, hcount, hb⟩ := fromUtf8_cases b
  · rw [hb] at hsrc
    cases hsrc
  · rw [hb] at hsrc
    cases hsrc
  · rw [hb] at h hsrc
    clear hb hcount
    generalize count + 1 = charsNeeded at h hsrc
    induction count generalizing uc src with
    | zero => exact absurd hsrc (finish_ne_endOfString charsNeeded minUc uc)
    | succ count ih =>
      cases src with
      | nil =>
        simp only [List.nil_append, continuation] at h
        by_contra hc
        simp [hc] at h
      | cons d src =>
        simp only [List.cons_append, continuation] at h hsrc
        split at hsrc
        · cases hsrc
        · rename_i hd
          rw [if_neg hd] at h
          exact ih _ h hsrc

/-! ### Decoding a concatenation -/

namespace Decoded

/-- What two parts yield, the second decoded behind the octets the first leaves. -/
def andThen (d e : Decoded) : Decoded :=
  ⟨d.units ++ e.units, e.unfinished, d.invalidChars + e.invalidChars⟩

theorem andThen_assoc (d e f : Decoded) :
  (d.andThen e).andThen f = d.andThen (e.andThen f)
  := by
  simp only [andThen, List.append_assoc, Nat.add_assoc]

@[simp]
theorem nil_andThen (p : QByteArray) (d : Decoded) :
  andThen ⟨[], p, 0⟩ d = d
  := by
  simp only [andThen, List.nil_append, Nat.zero_add]

end Decoded

/-- The octets of a sequence that more octets may complete. -/
def Unfinished : QByteArray → Prop
  | [] => True
  | b :: src => fromUtf8 b src = .endOfString

variable {r : UInt16} {p : QByteArray}

theorem decode_of_error (h : fromUtf8 b src = .error) :
  decode r (b :: src) = Decoded.andThen ⟨[r], [], 1⟩ (decode r src)
  := by
  rw [decode, h]
  simp [Decoded.andThen, Nat.add_comm]

theorem decode_of_char (h : fromUtf8 b src = .char units length) :
  decode r (b :: src) = Decoded.andThen ⟨units, [], 0⟩ (decode r (src.drop (length - 1)))
  := by
  rw [decode, h]
  simp [Decoded.andThen]

theorem decode_unfinished (h : Unfinished p) :
  decode r p = ⟨[], p, 0⟩
  := by
  cases p with
  | nil => rw [decode]
  | cons b src => rw [decode, show fromUtf8 b src = .endOfString from h]

theorem unfinished_decode (r : UInt16) (bytes : QByteArray) :
  Unfinished (decode r bytes).unfinished
  := by
  fun_induction decode r bytes with
  | case1 => trivial
  | case2 b src h rest ih => exact ih
  | case3 b src h => exact h
  | case4 b src units length h rest ih => exact ih

/-- The unfinished octets do not depend on what replaces malformed input. -/
theorem decode_unfinished_eq (r r' : UInt16) (bytes : QByteArray) :
  (decode r bytes).unfinished = (decode r' bytes).unfinished
  := by
  fun_induction decode r bytes with
  | case1 => rw [decode]
  | case2 b src h rest ih => rw [decode_of_error h, Decoded.andThen, ← ih]
  | case3 b src h => rw [decode_unfinished (p := b :: src) h]
  | case4 b src units length h rest ih => rw [decode_of_char h, Decoded.andThen, ← ih]

theorem decode_append (r : UInt16) (bytes rest : QByteArray) :
  decode r (bytes ++ rest) =
    (decode r bytes).andThen (decode r ((decode r bytes).unfinished ++ rest))
  := by
  fun_induction decode r bytes with
  | case1 => simp
  | case2 b src h tail ih =>
    rw [List.cons_append, decode_of_error (by rw [fromUtf8_append (by simp [h]), h]), ih]
    simp [Decoded.andThen, tail, Nat.add_comm, Nat.add_assoc]
  | case3 b src h => simp
  | case4 b src units length h tail ih =>
    have hlength := (fromUtf8_char h).2.1
    rw [List.cons_append, decode_of_char (by rw [fromUtf8_append (by simp [h]), h]),
      List.drop_append_of_le_length (by omega), ih]
    simp [Decoded.andThen, tail]

/-- Continuation octets that continue nothing are errors. -/
theorem decode_continuations (h : ∀ c ∈ src, isContinuationByte c = true) (rest : QByteArray) :
  decode r (src ++ rest) =
    Decoded.andThen ⟨List.replicate src.length r, [], src.length⟩ (decode r rest)
  := by
  induction src with
  | nil => simp
  | cons c src ih =>
    rw [List.forall_mem_cons] at h
    rw [List.cons_append, decode_of_error (fromUtf8_of_continuation h.1 _), ih h.2]
    simp [Decoded.andThen, List.replicate_succ]
    omega

/-- A sequence that is broken is replaced octet by octet. -/
theorem decode_broken (h : Unfinished p) (hp : p ≠ []) {x : QByteArray}
    (hbroken : ∀ b src, p = b :: src → fromUtf8 b (src ++ x) = .error) :
  decode r (p ++ x) = Decoded.andThen ⟨List.replicate p.length r, [], p.length⟩ (decode r x)
  := by
  cases p with
  | nil => exact absurd rfl hp
  | cons b src =>
    rw [List.cons_append, decode_of_error (hbroken b src rfl),
      decode_continuations (fromUtf8_endOfString h).2]
    simp [Decoded.andThen, List.replicate_succ]
    omega

/-! ### One call -/

/-- Decoding from the start: a byte order mark in front is left out, unless the header is
done. -/
def decodeFrom (headerDone : Bool) (r : UInt16) (bytes : QByteArray) : Decoded :=
  match bytes with
  | [] => ⟨[], [], 0⟩
  | b :: src =>
    match fromUtf8 b src with
    | .char units length =>
      Decoded.andThen ⟨if headerDone then units else eatBom units, [], 0⟩
        (decode r (src.drop (length - 1)))
    | _ => decode r (b :: src)

/-- Octets break the sequence that is unfinished in front of them. -/
def Breaks (p input : QByteArray) : Prop :=
  match p with
  | [] => False
  | b :: src => fromUtf8 b (src ++ input) = .error

instance (p input : QByteArray) : Decidable (Breaks p input) :=
  match p with
  | [] => inferInstanceAs (Decidable False)
  | b :: src => inferInstanceAs (Decidable (fromUtf8 b (src ++ input) = .error))

theorem decodeFrom_true (r : UInt16) (bytes : QByteArray) :
  decodeFrom true r bytes = decode r bytes
  := by
  unfold decodeFrom
  split
  · rw [decode]
  · split
    · rename_i h
      rw [decode_of_char h]
      rfl
    · rfl

theorem decodeFrom_unfinished (h : Unfinished p) :
  decodeFrom headerDone r p = ⟨[], p, 0⟩
  := by
  unfold decodeFrom
  split
  · rfl
  · rename_i b src
    rw [show fromUtf8 b src = .endOfString from h]
    exact decode_unfinished h

/-- What the calls on a state have yielded, with the code units so far. -/
def State.decoded (s : State) (units : QString) : Decoded :=
  ⟨units, s.stateData, s.invalidChars⟩

/-- The header is done, or the byte order mark is to be kept. -/
def State.bomDone (s : State) : Bool :=
  s.headerDone || s.flags.convertInitialBom

/-- A state after octets have been decoded. -/
def State.after (s : State) (d : Decoded) : State :=
  { s with stateData := d.unfinished, invalidChars := s.invalidChars + d.invalidChars }

theorem State.decoded_after (s : State) (d : Decoded) (before : QString) :
  (s.after d).decoded (before ++ d.units) = (s.decoded before).andThen d
  := rfl

theorem decodeRest_eq (h : s.flags.stateless = false) (src : QByteArray) :
  s.decodeRest src = ((decode s.replacement src).units, s.after (decode s.replacement src))
  := by
  simp [State.decodeRest, h, State.after]

theorem Unfinished.length_le (h : Unfinished p) :
  p.length ≤ 3
  := by
  cases p with
  | nil => simp
  | cons b src => exact (fromUtf8_endOfString h).1

/-- A call with nothing unfinished and the header done. -/
theorem convertToUnicode_of_nil (h : s.flags.stateless = false) (hdata : s.stateData = [])
    (hdone : s.bomDone = true) :
  convertToUnicode input s = s.decodeRest input
  := by
  rw [State.bomDone] at hdone
  by_cases hinput : input = []
  · subst hinput
    rw [convertToUnicode, if_pos rfl, decodeRest_eq h, decode, State.after, Nat.add_zero, ← hdata]
  · unfold convertToUnicode
    simp only [if_neg hinput, h, hdone, hdata, Bool.false_eq_true, ↓reduceIte, decide_true,
      Bool.and_self]
    split <;> rfl

/-- A call that has octets to handle first. -/
theorem convertToUnicode_of_cons (h : s.flags.stateless = false) (hinput : input ≠ [])
    (hpending : s.stateData ≠ [] ∨ s.bomDone = false) (hdata : Unfinished s.stateData)
    (heq : s.stateData ++ input = b :: src) :
  convertToUnicode input s =
    match fromUtf8 b src with
    | .error =>
      let (units, s') := State.decodeRest
        { s with headerDone := true, invalidChars := s.invalidChars + 1 } (input.drop 1)
      (s.replacement :: units, s')
    | .endOfString => ([], { s with stateData := b :: src })
    | .char units length =>
      let (rest, s') := State.decodeRest { s with headerDone := true }
        (input.drop (length - s.stateData.length))
      ((if s.bomDone then units else eatBom units) ++ rest, s')
  := by
  have htake : s.stateData ++ input.take (4 - s.stateData.length) = b :: src.take 3 := by
    rw [← List.take_succ_cons, ← heq, List.take_append,
      List.take_of_length_le (Nat.le_succ_of_le hdata.length_le)]
  have hnot : ¬(decide (s.stateData = []) && s.bomDone) = true := by
    rcases hpending with hpending | hpending <;> simp [hpending]
  unfold convertToUnicode
  rw [State.bomDone] at hnot
  simp only [if_neg hinput, h, Bool.false_eq_true, ↓reduceIte, htake, if_neg hnot,
    fromUtf8_take]
  cases hend : fromUtf8 b src with
  | error => rfl
  | endOfString => rw [List.take_of_length_le (Nat.le_of_lt (fromUtf8_endOfString hend).1)]
  | char units length => rfl

theorem decodeFrom_of_error (h : fromUtf8 b src = .error) :
  decodeFrom headerDone r (b :: src) = decode r (b :: src)
  := by
  rw [decodeFrom, h]

theorem decodeFrom_of_char (h : fromUtf8 b src = .char units length) :
  decodeFrom headerDone r (b :: src) =
    Decoded.andThen ⟨if headerDone then units else eatBom units, [], 0⟩
      (decode r (src.drop (length - 1)))
  := by
  rw [decodeFrom, h]

/-- A call that breaks no sequence goes on with the octets that are unfinished. -/
theorem convertToUnicode_resumes (h : s.flags.stateless = false) (hdata : Unfinished s.stateData)
    (hbreaks : ¬Breaks s.stateData input) (hcall : convertToUnicode input s = (units, s')) :
  s'.flags = s.flags ∧ (s.bomDone = true → s'.bomDone = true) ∧ Unfinished s'.stateData ∧
    ∀ (before : QString) (rest : QByteArray), (s.decoded before).andThen
        (decodeFrom s.bomDone s.replacement (s.stateData ++ input ++ rest)) =
      (s'.decoded (before ++ units)).andThen
        (decodeFrom s'.bomDone s.replacement (s'.stateData ++ rest))
  := by
  by_cases hinput : input = []
  · subst hinput
    rw [convertToUnicode, if_pos rfl] at hcall
    cases hcall
    exact ⟨rfl, id, hdata, fun before rest => by rw [List.append_nil, List.append_nil]⟩
  by_cases hnil : s.stateData = [] ∧ s.bomDone = true
  · rw [convertToUnicode_of_nil h hnil.1 hnil.2, decodeRest_eq h] at hcall
    cases hcall
    refine ⟨rfl, id, unfinished_decode _ _, fun before rest => ?_⟩
    rw [show (s.after _).bomDone = s.bomDone from rfl, hnil.2, decodeFrom_true, decodeFrom_true,
      hnil.1, List.nil_append, decode_append, State.decoded_after, Decoded.andThen_assoc]
    rfl
  · rw [not_and_or, Bool.not_eq_true] at hnil
    obtain ⟨b, src, heq⟩ := List.exists_cons_of_ne_nil
      (show s.stateData ++ input ≠ [] by simp [hinput])
    rw [convertToUnicode_of_cons h hinput hnil hdata heq] at hcall
    rw [heq]
    cases hfirst : fromUtf8 b src with
    | error =>
      have hempty : s.stateData = [] := by
        by_contra hne
        obtain ⟨c, data, hcons⟩ := List.exists_cons_of_ne_nil hne
        rw [hcons, List.cons_append] at heq
        cases heq
        rw [hcons] at hbreaks
        exact hbreaks hfirst
      rw [hempty, List.nil_append] at heq
      subst heq
      rw [hfirst] at hcall
      dsimp only at hcall
      rw [decodeRest_eq (by exact h)] at hcall
      cases hcall
      refine ⟨rfl, fun _ => rfl, unfinished_decode _ _, fun before rest => ?_⟩
      rw [List.cons_append, decodeFrom_of_error (by rw [fromUtf8_append (by simp [hfirst]), hfirst]),
        decode_of_error (by rw [fromUtf8_append (by simp [hfirst]), hfirst]),
        show (State.after _ _).bomDone = true from rfl, decodeFrom_true, List.drop_one,
        List.tail_cons, decode_append]
      simp [Decoded.andThen, State.decoded, State.replacement, State.after, Nat.add_assoc]
    | endOfString =>
      rw [hfirst] at hcall
      cases hcall
      refine ⟨rfl, id, hfirst, fun before rest => ?_⟩
      rw [List.append_nil]
      rfl
    | char units length =>
      have hlength := fromUtf8_char hfirst
      have hdata_length : s.stateData.length ≤ length := by
        cases hcons : s.stateData with
        | nil => exact Nat.zero_le _
        | cons c data =>
          rw [hcons] at heq hdata
          cases heq
          exact Nat.le_of_lt (fromUtf8_completed hdata hfirst)
      have hdrop : input.drop (length - s.stateData.length) = src.drop (length - 1) := by
        obtain ⟨n, rfl⟩ := Nat.exists_eq_add_of_le' hlength.1
        have hdrop := congrArg (List.drop (n + 1)) heq
        rw [List.drop_append, List.drop_of_length_le hdata_length, List.nil_append,
          List.drop_succ_cons] at hdrop
        exact hdrop
      rw [hfirst] at hcall
      dsimp only at hcall
      rw [hdrop, decodeRest_eq (by exact h)] at hcall
      cases hcall
      refine ⟨rfl, fun _ => rfl, unfinished_decode _ _, fun before rest => ?_⟩
      rw [List.cons_append, decodeFrom_of_char (by rw [fromUtf8_append (by simp [hfirst]), hfirst]),
        List.drop_append_of_le_length (by omega),
        show (State.after _ _).bomDone = true from rfl, decodeFrom_true, decode_append]
      simp [Decoded.andThen, State.decoded, State.replacement, State.after, Nat.add_assoc]

/-- A call that breaks a sequence replaces it by one code unit, and drops its own first
octet. -/
theorem convertToUnicode_breaks (h : s.flags.stateless = false) (hdata : Unfinished s.stateData)
    {x : UInt8} {xs : QByteArray} (hbreaks : Breaks s.stateData (x :: xs))
    (hcall : convertToUnicode (x :: xs) s = (units, s')) :
  s'.flags = s.flags ∧ s'.headerDone = true ∧ ∀ before : QString,
    s'.decoded (before ++ units) =
      Decoded.andThen ⟨before ++ [s.replacement], [], s.invalidChars + 1⟩
        (decode s.replacement xs)
  := by
  cases hcons : s.stateData with
  | nil =>
    rw [hcons] at hbreaks
    exact absurd hbreaks id
  | cons b src =>
    rw [hcons] at hbreaks
    have heq : s.stateData ++ x :: xs = b :: (src ++ x :: xs) := by
      rw [hcons, List.cons_append]
    rw [convertToUnicode_of_cons h (List.cons_ne_nil x xs) (.inl (by simp [hcons])) hdata heq,
      show fromUtf8 b (src ++ x :: xs) = .error from hbreaks] at hcall
    dsimp only at hcall
    rw [List.drop_one, List.tail_cons, decodeRest_eq (by exact h)] at hcall
    cases hcall
    refine ⟨rfl, rfl, fun before => ?_⟩
    simp [Decoded.andThen, State.decoded, State.replacement, State.after]

/-! ### Falling behind

Once a sequence has been broken, the calls have yielded less than a single call: fewer
characters, or the same number of them and fewer errors, or they have passed over the first
octet of a sequence that a single call has unfinished. -/

namespace Decoded

/-- `d` has fewer characters than `e`, or as many of them and at most as many errors. -/
def NotAhead (d e : Decoded) : Prop :=
  d.units.length + e.invalidChars < e.units.length + d.invalidChars ∨
    d.units.length + e.invalidChars = e.units.length + d.invalidChars ∧
      d.invalidChars ≤ e.invalidChars

/-- `d` has fewer characters than `e`, or as many of them and fewer errors than `e` and the
octets that `e` alone has unfinished make up. -/
def Behind (d e : Decoded) : Prop :=
  (Unfinished e.unfinished ∧ (d.unfinished = e.unfinished ∨ d.unfinished = [])) ∧
    (d.units.length + e.invalidChars < e.units.length + d.invalidChars ∨
      d.units.length + e.invalidChars = e.units.length + d.invalidChars ∧
        d.invalidChars + d.unfinished.length < e.invalidChars + e.unfinished.length)

variable {d e : Decoded}

theorem Behind.ne (h : d.Behind e) :
  d ≠ e
  := by
  rintro rfl
  obtain ⟨-, h | h⟩ := h <;> omega

/-- The octet at which the calls go on is passed over by them and not by a single call. -/
theorem NotAhead.behind (h : d.NotAhead e) (hne : p ≠ []) (x : UInt8) :
  Behind ⟨d.units ++ [r], [], d.invalidChars + 1⟩
    (e.andThen (Decoded.andThen ⟨List.replicate p.length r, [], p.length⟩ (decode r [x])))
  := by
  have hlength := List.length_pos_iff.mpr hne
  refine ⟨⟨unfinished_decode _ _, .inr rfl⟩, ?_⟩
  unfold NotAhead at h
  cases hx : fromUtf8 x [] with
  | error =>
    simp only [andThen, decode_of_error hx, decode, List.length_append, List.length_replicate,
      List.length_nil, List.length_singleton]
    omega
  | endOfString =>
    simp only [andThen, decode_unfinished (p := [x]) hx, List.length_append,
      List.length_replicate, List.length_nil, List.length_singleton]
    omega
  | char units length =>
    have hunits := List.length_pos_iff.mpr (fromUtf8_char hx).2.2
    simp only [andThen, decode_of_char hx, List.drop_nil, decode, List.length_append,
      List.length_replicate, List.length_nil, List.length_singleton]
    omega

/-- One octet later `d` is still behind `e`. -/
theorem Behind.octet (h : d.Behind e) (x : UInt8) :
  (d.andThen (decode r (d.unfinished ++ [x]))).Behind
    (e.andThen (decode r (e.unfinished ++ [x])))
  := by
  obtain ⟨⟨he, heq | hnil⟩, h⟩ := h
  · rw [heq]
    refine ⟨⟨unfinished_decode _ _, .inl rfl⟩, ?_⟩
    rw [heq] at h
    simp only [andThen, List.length_append]
    omega
  · cases hcons : e.unfinished with
    | nil =>
      rw [hnil]
      refine ⟨⟨unfinished_decode _ _, .inl rfl⟩, ?_⟩
      rw [hnil, hcons] at h
      simp only [andThen, List.length_append]
      omega
    | cons b src =>
      rw [hnil, hcons] at h
      rw [hcons] at he
      rw [hnil, List.nil_append]
      cases hfirst : fromUtf8 b (src ++ [x]) with
      | error =>
        -- The sequence is broken, and both go on at `x`.
        have hbroken := decode_broken (r := r) he (List.cons_ne_nil b src) (x := [x])
          (by
            rintro c data heq
            cases heq
            exact hfirst)
        rw [hbroken]
        refine ⟨⟨unfinished_decode _ _, .inl rfl⟩, ?_⟩
        simp only [andThen, List.length_append, List.length_replicate, List.length_cons,
          List.length_nil] at h ⊢
        omega
      | endOfString =>
        have hx := fromUtf8_of_continuation (fromUtf8_snoc (c := x) he (by simp [hfirst])) []
        rw [decode_of_error hx, List.cons_append, decode_unfinished (p := b :: (src ++ [x])) hfirst]
        refine ⟨⟨hfirst, .inr (by simp [andThen, decode])⟩, ?_⟩
        simp only [andThen, decode, List.length_append, List.length_cons, List.length_nil] at h ⊢
        omega
      | char units length =>
        have hx := fromUtf8_of_continuation (fromUtf8_snoc (c := x) he (by simp [hfirst])) []
        have hunits := List.length_pos_iff.mpr (fromUtf8_char hfirst).2.2
        have hlength := fromUtf8_completed he hfirst
        rw [decode_of_error hx, List.cons_append, decode_of_char hfirst,
          List.drop_of_length_le (by simp; omega)]
        refine ⟨⟨unfinished_decode _ _, .inl (by simp [andThen, decode])⟩, ?_⟩
        simp only [andThen, decode, List.length_append, List.length_cons, List.length_nil] at h ⊢
        omega

theorem Behind.octets (h : d.Behind e) (hd : Unfinished d.unfinished) (bytes : QByteArray) :
  (d.andThen (decode r (d.unfinished ++ bytes))).Behind
    (e.andThen (decode r (e.unfinished ++ bytes)))
  := by
  induction bytes generalizing d e with
  | nil =>
    rw [List.append_nil, List.append_nil, decode_unfinished hd, decode_unfinished h.1.1]
    simpa [andThen] using h
  | cons x bytes ih =>
    have hnext := ih (h.octet (r := r) x) (unfinished_decode _ _)
    rw [andThen_assoc, andThen_assoc] at hnext
    rw [List.append_cons d.unfinished, List.append_cons e.unfinished, decode_append,
      decode_append r (e.unfinished ++ [x])]
    exact hnext

end Decoded

/-! ### Successive calls -/

/-- The octets of the sequence that is unfinished at the end. -/
def unfinished (bytes : QByteArray) : QByteArray :=
  (decode 0xfffd bytes).unfinished

/-- No call breaks the sequence that is unfinished where it starts. -/
def ResumesAlways (chunks : List QByteArray) : Prop :=
  ∀ before input after, chunks = before ++ input :: after →
    ¬Breaks (unfinished before.flatten) input

theorem State.andThen_stateData (s : State) (before : QString) :
  (s.decoded before).andThen ⟨[], s.stateData, 0⟩ = s.decoded before
  := by
  simp [Decoded.andThen, State.decoded]

/-- A call that breaks a sequence falls behind. -/
theorem convertToUnicode_falls_behind (h : s.flags.stateless = false)
    (hdata : Unfinished s.stateData) {e : Decoded} (hahead : (s.decoded before).NotAhead e)
    (hsame : s.stateData = e.unfinished) (hbreaks : Breaks s.stateData input)
    (hcall : convertToUnicode input s = (units, s')) :
  s'.flags = s.flags ∧ s'.bomDone = true ∧ Unfinished s'.stateData ∧
    (s'.decoded (before ++ units)).Behind
      (e.andThen (decode s.replacement (e.unfinished ++ input)))
  := by
  have hne : s.stateData ≠ [] := by
    intro hnil
    rw [hnil] at hbreaks
    exact hbreaks
  cases input with
  | nil =>
    cases hcons : s.stateData with
    | nil => exact absurd hcons hne
    | cons b src =>
      rw [hcons] at hbreaks hdata
      rw [Breaks, List.append_nil, show fromUtf8 b src = .endOfString from hdata] at hbreaks
      cases hbreaks
  | cons x xs =>
    obtain ⟨hflags, hheader, heq⟩ := convertToUnicode_breaks h hdata hbreaks hcall
    have hbroken : decode s.replacement (s.stateData ++ x :: xs) =
        Decoded.andThen ⟨List.replicate s.stateData.length s.replacement, [], s.stateData.length⟩
          (decode s.replacement (x :: xs)) := by
      apply decode_broken hdata hne
      intro b src hcons
      rw [hcons] at hbreaks
      exact hbreaks
    refine ⟨hflags, by simp [State.bomDone, hheader], ?_, ?_⟩
    · have hunfinished := congrArg Decoded.unfinished (heq before)
      change s'.stateData = _ at hunfinished
      rw [hunfinished]
      exact unfinished_decode _ _
    · have hbehind := hahead.behind (r := s.replacement) hne x
      have hnext := hbehind.octets (r := s.replacement) trivial xs
      rw [heq, ← hsame, hbroken, show x :: xs = [x] ++ xs from rfl, decode_append _ [x]]
      rw [Decoded.andThen_assoc, Decoded.andThen_assoc] at hnext
      exact hnext

/-- Where the calls are behind, they stay behind. -/
theorem convertToUnicode_behind (h : s.flags.stateless = false) (hdone : s.bomDone = true)
    (hdata : Unfinished s.stateData) {e : Decoded} (hbehind : (s.decoded before).Behind e)
    (hcall : convertToUnicode input s = (units, s')) :
  s'.flags = s.flags ∧ s'.bomDone = true ∧ Unfinished s'.stateData ∧
    (s'.decoded (before ++ units)).Behind
      (e.andThen (decode s.replacement (e.unfinished ++ input)))
  := by
  by_cases hbreaks : Breaks s.stateData input
  · have hsame : s.stateData = e.unfinished := by
      refine hbehind.1.2.resolve_right fun hnil => ?_
      rw [show s.stateData = [] from hnil] at hbreaks
      exact hbreaks
    refine convertToUnicode_falls_behind h hdata (hbehind.2.imp_right fun heq => ?_) hsame
      hbreaks hcall
    rw [show (s.decoded before).unfinished = e.unfinished from hsame] at heq
    exact ⟨heq.1, by omega⟩
  · obtain ⟨hflags, hbom, hunfinished, heq⟩ :=
      convertToUnicode_resumes h hdata hbreaks hcall
    refine ⟨hflags, hbom hdone, hunfinished, ?_⟩
    have hnext := heq before []
    rw [List.append_nil, List.append_nil, hdone, decodeFrom_true,
      decodeFrom_unfinished hunfinished, State.andThen_stateData] at hnext
    rw [← hnext]
    exact hbehind.octets hdata input

theorem convertChunks_behind {chunks : List QByteArray} (h : s.flags.stateless = false)
    (hdone : s.bomDone = true) (hdata : Unfinished s.stateData) {e : Decoded}
    (hbehind : (s.decoded before).Behind e) (hcalls : convertChunks chunks s = (units, s')) :
  (s'.decoded (before ++ units)).Behind
    (e.andThen (decode s.replacement (e.unfinished ++ chunks.flatten)))
  := by
  induction chunks generalizing s before e units with
  | nil =>
    cases hcalls
    rw [List.flatten_nil, List.append_nil, List.append_nil, decode_unfinished hbehind.1.1]
    simpa [Decoded.andThen] using hbehind
  | cons input chunks ih =>
    rcases hcall : convertToUnicode input s with ⟨first, s₁⟩
    rcases hrest : convertChunks chunks s₁ with ⟨rest, s₂⟩
    simp only [convertChunks, hcall, hrest, Prod.mk.injEq] at hcalls
    obtain ⟨rfl, rfl⟩ := hcalls
    obtain ⟨hflags, hdone₁, hdata₁, hbehind₁⟩ :=
      convertToUnicode_behind h hdone hdata hbehind hcall
    have hnext := ih (hflags ▸ h) hdone₁ hdata₁ hbehind₁ hrest
    rw [show s₁.replacement = s.replacement by rw [State.replacement, hflags, State.replacement],
      Decoded.andThen_assoc] at hnext
    rw [List.flatten_cons, ← List.append_assoc before, ← List.append_assoc e.unfinished,
      decode_append _ (e.unfinished ++ input)]
    exact hnext

theorem decodeFrom_unfinished_eq (headerDone : Bool) (r : UInt16) (bytes : QByteArray) :
  (decodeFrom headerDone r bytes).unfinished = unfinished bytes
  := by
  rw [unfinished, decode_unfinished_eq _ r]
  unfold decodeFrom
  split
  · rw [decode]
  · split
    · rename_i h
      rw [decode_of_char h]
      rfl
    · rfl

theorem decodeFrom_of_breaks (h : Breaks p input) (rest : QByteArray) :
  decodeFrom headerDone r (p ++ (input ++ rest)) = decode r (p ++ (input ++ rest))
  := by
  cases p with
  | nil => exact absurd h id
  | cons b src =>
    rw [Breaks] at h
    rw [List.cons_append, ← List.append_assoc,
      decodeFrom_of_error (by rw [fromUtf8_append (by simp [h]), h])]

/-- A call that breaks nothing follows a single call on all the octets; one that breaks a
sequence falls behind for good. -/
theorem convertChunks_decoded {chunks : List QByteArray} (h : s.flags.stateless = false)
    (hdata : Unfinished s.stateData) {done : QByteArray}
    (hfollows : ∀ rest, decodeFrom headerDone s.replacement (done ++ rest) =
      (s.decoded before).andThen (decodeFrom s.bomDone s.replacement (s.stateData ++ rest)))
    (hcalls : convertChunks chunks s = (units, s')) :
  ((∀ first input after, chunks = first ++ input :: after →
      ¬Breaks (unfinished (done ++ first.flatten)) input) ∧
    s'.decoded (before ++ units) = decodeFrom headerDone s.replacement (done ++ chunks.flatten)) ∨
  ((∃ first input after, chunks = first ++ input :: after ∧
      Breaks (unfinished (done ++ first.flatten)) input) ∧
    (s'.decoded (before ++ units)).Behind
      (decodeFrom headerDone s.replacement (done ++ chunks.flatten)))
  := by
  induction chunks generalizing s done before units with
  | nil =>
    cases hcalls
    refine .inl ⟨by simp, ?_⟩
    rw [List.flatten_nil, hfollows [], List.append_nil, List.append_nil,
      decodeFrom_unfinished hdata, State.andThen_stateData]
  | cons input chunks ih =>
    rcases hcall : convertToUnicode input s with ⟨first, s₁⟩
    rcases hrest : convertChunks chunks s₁ with ⟨rest, s₂⟩
    simp only [convertChunks, hcall, hrest, Prod.mk.injEq] at hcalls
    obtain ⟨rfl, rfl⟩ := hcalls
    have hdone := hfollows []
    rw [List.append_nil, List.append_nil, decodeFrom_unfinished hdata, State.andThen_stateData]
      at hdone
    have hunfinished : s.stateData = unfinished done := by
      rw [← decodeFrom_unfinished_eq headerDone s.replacement, hdone]
      rfl
    rw [← List.append_assoc]
    by_cases hbreaks : Breaks s.stateData input
    · right
      refine ⟨⟨[], input, chunks, rfl, ?_⟩, ?_⟩
      · rw [List.flatten_nil, List.append_nil, ← hunfinished]
        exact hbreaks
      · obtain ⟨hflags, hdone₁, hdata₁, hbehind⟩ := convertToUnicode_falls_behind h hdata
          (.inr ⟨rfl, Nat.le_refl _⟩) rfl hbreaks hcall (e := s.decoded before)
        have hnext := convertChunks_behind (hflags ▸ h) hdone₁ hdata₁ hbehind hrest
        rw [show s₁.replacement = s.replacement by
          rw [State.replacement, hflags, State.replacement], Decoded.andThen_assoc] at hnext
        rw [List.flatten_cons, hfollows, decodeFrom_of_breaks hbreaks, ← List.append_assoc,
          decode_append]
        exact hnext
    · obtain ⟨hflags, -, hdata₁, heq⟩ := convertToUnicode_resumes h hdata hbreaks hcall
      have hreplacement : s₁.replacement = s.replacement := by
        rw [State.replacement, hflags, State.replacement]
      have hfollows₁ : ∀ rest, decodeFrom headerDone s₁.replacement ((done ++ input) ++ rest) =
          (s₁.decoded (before ++ first)).andThen
            (decodeFrom s₁.bomDone s₁.replacement (s₁.stateData ++ rest)) := by
        intro rest
        rw [hreplacement, ← heq, List.append_assoc, hfollows, List.append_assoc]
      have hnext := ih (hflags ▸ h) hdata₁ hfollows₁ hrest
      rw [hreplacement, List.append_assoc done, ← List.flatten_cons] at hnext
      rcases hnext with ⟨halways, houtcome⟩ | ⟨⟨pre, c, post, hsplit, hc⟩, hbehind⟩
      · refine .inl ⟨?_, houtcome⟩
        intro pre c post hsplit
        cases pre with
        | nil =>
          cases hsplit
          rw [List.flatten_nil, List.append_nil, ← hunfinished]
          exact hbreaks
        | cons d pre =>
          cases hsplit
          rw [List.flatten_cons, ← List.append_assoc]
          exact halways pre c post rfl
      · refine .inr ⟨⟨input :: pre, c, post, by rw [hsplit, List.cons_append], ?_⟩, hbehind⟩
        rw [List.flatten_cons, ← List.append_assoc]
        exact hc

/-- What calls on a new state have yielded. -/
def outcome (result : QString × State) : Decoded :=
  result.2.decoded result.1

/-- The calls on one state yield what a single call yields if and only if no call breaks the
sequence that is unfinished where it starts. -/
theorem convertChunks_iff (flags : Flags) (h : flags.stateless = false)
    (chunks : List QByteArray) :
  outcome (convertChunks chunks (.new flags)) =
      outcome (convertToUnicode chunks.flatten (.new flags)) ↔
    ResumesAlways chunks
  := by
  have h_new : ∀ rest, decodeFrom (State.new flags).bomDone (State.new flags).replacement
      ([] ++ rest) = ((State.new flags).decoded []).andThen
        (decodeFrom (State.new flags).bomDone (State.new flags).replacement
          ((State.new flags).stateData ++ rest)) :=
    fun rest => (Decoded.nil_andThen _ _).symm
  rcases h_call : convertToUnicode chunks.flatten (.new flags) with ⟨units, s⟩
  rcases h_calls : convertChunks chunks (.new flags) with ⟨units', s'⟩
  have h_single : s.decoded units =
      decodeFrom (State.new flags).bomDone (State.new flags).replacement chunks.flatten := by
    obtain ⟨-, -, h_data, h_eq⟩ := convertToUnicode_resumes (s := .new flags) h trivial id h_call
    have h_outcome := h_eq [] []
    rw [List.append_nil, List.append_nil s.stateData, decodeFrom_unfinished h_data,
      State.andThen_stateData] at h_outcome
    exact h_outcome.symm.trans (Decoded.nil_andThen [] _)
  rw [outcome, outcome, h_single]
  rcases convertChunks_decoded (s := .new flags) h trivial h_new h_calls with
    ⟨h_always, h_outcome⟩ | ⟨⟨first, input, after, h_split, h_breaks⟩, h_behind⟩
  · exact ⟨fun _ => h_always, fun _ => h_outcome⟩
  · exact ⟨fun h_eq => absurd h_eq h_behind.ne,
      fun h_always => absurd h_breaks (h_always first input after h_split)⟩

/-- A chunk that ends inside a sequence and one that goes on within it. -/
theorem convertChunks_iff_split :
  outcome (convertChunks [[0xe2, 0x82], [0xac]] (.new ⟨false, false, false⟩)) =
      outcome (convertToUnicode [0xe2, 0x82, 0xac] (.new ⟨false, false, false⟩)) ↔
    ResumesAlways [[0xe2, 0x82], [0xac]]
  := convertChunks_iff ⟨false, false, false⟩ rfl [[0xe2, 0x82], [0xac]]

/-- An unfinished sequence in front of a letter: the calls lose the letter. -/
theorem convertChunks_loses_letter :
  outcome (convertChunks [[0xe2, 0x82], [0x41]] (.new ⟨false, false, false⟩)) ≠
    outcome (convertToUnicode [0xe2, 0x82, 0x41] (.new ⟨false, false, false⟩))
  := by
  have h_first : fromUtf8 0xe2 [0x82] = .endOfString := by decide
  have h_error : fromUtf8 0xe2 [0x82, 0x41] = .error := by decide
  have h_letter : fromUtf8 0x41 [] = .char [0x41] 1 := by decide
  have h_octet : fromUtf8 0x82 [0x41] = .error := by decide
  simp [outcome, State.decoded, convertChunks, convertToUnicode, State.new, State.decodeRest,
    State.replacement, decode, h_first, h_error, h_letter, h_octet]

end QUtf8
