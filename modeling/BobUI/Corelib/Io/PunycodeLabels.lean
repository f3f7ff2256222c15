import BobUI.Corelib.Io.PunycodeEncoder
import BobUI.Corelib.Text.CodePoints

/-!
# Labels in Punycode

The decoder returns the label that was encoded.  A label that it decodes is what the encoder writes
for the result if it is made of whole integers, of at least one, and has no hyphen without basic
characters before it.
-/

namespace QUrlIdna

open InsertionCode QString Utf8

/-- The characters of a label that are copied. -/
def basicOf (points : List ℕ) : QString :=
  (points.filter (· < initial_n)).map UInt16.ofNat

/-- The hyphen behind the basic characters, if there are any. -/
def delimiter (basic : QString) : QString :=
  if 0 < basic.length then [0x2d] else []

/-- The list of the basic characters, before the first insertion. -/
def initial (basic : List ℕ) : State :=
  ⟨initial_n, 0, basic⟩

variable {points basic deltas : List ℕ} {s : Decoder} {text output label : QString}

/-! ### Encoded labels -/

theorem not_all_basic (h : ∀ c ∈ points, Scalar c) (hsome : ∃ c ∈ points, 0x80 ≤ c) :
  ¬ (units points).all (· < 0x80) = true
  := by
  intro hall
  have hfilter : (units points).filter (· < 0x80) = units points :=
    List.filter_eq_self.mpr (List.all_eq_true.mp hall)
  have hlength := congrArg List.length (filter_units h)
  rw [hfilter, List.length_map] at hlength
  have hunits := length_le_units points
  have hle := List.length_filter_le (fun c => decide (c < 0x80)) points
  have hpoints := List.length_filter_eq_length_iff.mp (Nat.le_antisymm hle (by omega))
  obtain ⟨c, hc, hhigh⟩ := hsome
  have hlow := of_decide_eq_true (hpoints c hc)
  omega

/-- The encoder writes the insertion code of the characters. -/
theorem encoder_units (h : ∀ c ∈ points, Scalar c) (hsome : ∃ c ∈ points, 0x80 ≤ c)
    (hlength : (units points).length ≤ MaxDomainLabelLength * 2) (output : QString) :
  ∃ deltas, qt_punycodeEncoder (units points) output
      = output ++ (acePrefix ++ (basicOf points ++ delimiter (basicOf points)
        ++ integers true initial_bias ((basicOf points).length + 1) deltas))
    ∧ ((initial (points.filter (· < initial_n))).build deltas).output = points
  := by
  have hbasic : (units points).filter (· < 0x80) = basicOf points := filter_units h
  have hvalid : maxUint ∉ points := by
    intro hmem
    have huint : maxUint = 4294967295 := rfl
    rcases h _ hmem with hc | hc
    · omega
    · omega
  have hsmall : Encoder.Small points := by
    refine ⟨?_, Nat.le_trans (length_le_units points) hlength⟩
    intro c hc
    rcases h c hc with hlow | hhigh
    · omega
    · exact hhigh.2
  have hbasic_length : (points.filter (· < initial_n)).length = (basicOf points).length :=
    (List.length_map _).symm
  have hholds : Encoder.Holds (basicOf points).length
      ⟨initial_n, 0, initial_bias, (basicOf points).length,
        output ++ basicOf points ++ delimiter (basicOf points)⟩
      (initial (points.filter (· < initial_n))) :=
    ⟨hbasic_length, by rw [beq_self_eq_true]; rfl, Nat.le_refl _⟩
  have hat : (initial (points.filter (· < initial_n))).At initial_n [] points 0 := by
    refine ⟨rfl, ?_, Nat.le_refl _⟩
    change 0 + 0 = (initial_n - initial_n) * _ + 0
    rw [Nat.sub_self, Nat.zero_mul]
  obtain ⟨s, st, hrun, houtput, deltas, text, hbuild, htext, hintegers⟩ :=
    Encoder.run_spec hholds hat hsmall (Nat.le_add_left _ _)
  use deltas
  have hcode : text = integers true initial_bias ((basicOf points).length + 1) deltas := by
    have hnil := hintegers []
    rw [List.append_nil] at hnil
    exact ((List.append_nil _).symm.trans hnil.symm)
  constructor
  · unfold qt_punycodeEncoder
    dsimp only
    rw [if_neg (Nat.not_lt_of_le hlength), hbasic, if_neg (not_all_basic h hsome),
      codePoints_units h, if_neg hvalid, codePointsUnchecked_units h]
    unfold delimiter at hrun
    rw [hrun]
    dsimp only
    have hsplit : s.output = output ++ (basicOf points ++ delimiter (basicOf points)
        ++ integers true initial_bias ((basicOf points).length + 1) deltas) := by
      rw [htext, hcode]
      simp only [List.append_assoc]
    rw [hsplit, List.take_left, List.drop_left, List.append_assoc]
  · rw [← hbuild, houtput]

/-! ### Decoded labels -/

/-- The list that the decoder has built. -/
def Decoder.state (s : Decoder) : State :=
  ⟨s.n, s.i, s.output⟩

/-- The decoder before the first insertion. -/
def Decoder.new (basic : List ℕ) : Decoder :=
  ⟨initial_n, 0, initial_bias, basic⟩

/-- The decoder behind an insertion. -/
def Decoder.next (s : Decoder) (delta : ℕ) : Decoder where
  n := (s.state.insert delta).n
  i := (s.state.insert delta).i
  bias := adapt delta (s.output.length + 1) (s.i == 0)
  output := (s.state.insert delta).output

/-- The integers that the decoder is to read. -/
def Decoder.code (s : Decoder) (deltas : List ℕ) : QString :=
  integers (s.i == 0) s.bias (s.output.length + 1) deltas

theorem length_next (s : Decoder) (delta : ℕ) :
  (s.next delta).output.length = s.output.length + 1
  := State.length_insert s.state delta

theorem code_cons (s : Decoder) (delta : ℕ) (deltas : List ℕ) :
  s.code (delta :: deltas)
    = (integer s.bias delta).map encodeDigit ++ (s.next delta).code deltas
  := by
  have hi : ((s.next delta).i == 0) = false := rfl
  rw [Decoder.code, Decoder.code, integers, appendEncode_nil, length_next, hi]
  rfl

theorem code_ne_nil (s : Decoder) (delta : ℕ) (deltas : List ℕ) :
  s.code (delta :: deltas) ≠ []
  := by
  rw [code_cons]
  apply List.append_ne_nil_of_left_ne_nil
  rw [ne_eq, List.map_eq_nil_iff]
  exact integer_ne_nil _ _

theorem length_code_lt (s : Decoder) (delta : ℕ) (deltas : List ℕ) :
  ((s.next delta).code deltas).length < (s.code (delta :: deltas)).length
  := by
  have hpos : 0 < (integer s.bias delta).length :=
    List.length_pos_of_ne_nil (integer_ne_nil _ _)
  rw [code_cons, List.length_append, List.length_map]
  omega

/-- A character is inserted, or its number is none that a character may have. -/
theorem insert_cases (h : initial_n ≤ s.n) (delta : ℕ) :
  (s.insert (s.i + delta) = none ∧ ¬ Scalar (s.state.value delta))
    ∨ s.insert (s.i + delta) = some (s.next delta)
  := by
  have hvalue : s.n + (s.i + delta) / (s.output.length + 1) = s.state.value delta := rfl
  have hle : initial_n ≤ s.state.value delta := Nat.le_trans h (Nat.le_add_right _ _)
  have huint : maxUint = 4294967295 := rfl
  unfold Decoder.insert qAddOverflow
  dsimp only
  rw [hvalue, Nat.add_sub_cancel_left]
  by_cases hmax : s.state.value delta ≤ maxUint
  · rw [if_pos hmax]
    change (if s.state.value delta < initial_n then _ else _) = _ ∧ _ ∨ (if _ then _ else _) = _
    rw [if_neg (Nat.not_lt_of_le hle)]
    by_cases hrefused : (QUtf8.isSurrogate (s.state.value delta)
        || decide (0x10ffff < s.state.value delta)) = true
    · left
      refine ⟨if_pos hrefused, ?_⟩
      rw [Bool.or_eq_true, QUtf8.isSurrogate_iff, decide_eq_true_iff] at hrefused
      rintro (hlow | hhigh)
      · omega
      · omega
    · right
      exact if_neg hrefused
  · left
    rw [if_neg hmax]
    refine ⟨rfl, ?_⟩
    rintro (hlow | hhigh)
    · omega
    · omega

/-- An integer cannot be read, or the character is inserted or refused. -/
theorem run_cons (fuel : ℕ) (s : Decoder) (delta : ℕ) (deltas : List ℕ) :
  Decoder.run (fuel + 1) s (s.code (delta :: deltas))
    = (readInteger s.bias base 1 s.i (s.code (delta :: deltas))).bind fun read =>
      (s.insert read.1).bind fun s => Decoder.run fuel s read.2
  := by
  rw [Decoder.run, if_neg (code_ne_nil s delta deltas)]
  rfl

/-- Integers in a row are decoded, or a number overflows or is refused. -/
theorem run_integers {fuel : ℕ} (h : initial_n ≤ s.n) (hfuel : (s.code deltas).length ≤ fuel) :
  Decoder.run fuel s (s.code deltas) = none
    ∨ Decoder.run fuel s (s.code deltas) = some (s.state.build deltas).output
  := by
  induction deltas generalizing fuel s with
  | nil =>
    right
    cases fuel with
    | zero => rfl
    | succ fuel => exact if_pos rfl
  | cons delta deltas ih =>
    have hlt := length_code_lt s delta deltas
    obtain ⟨fuel, rfl⟩ : ∃ n, fuel = n + 1 := ⟨fuel - 1, by omega⟩
    rw [run_cons, code_cons]
    rcases readInteger_integer s.bias s.i delta ((s.next delta).code deltas) with hread | hread
    · left
      rw [hread]
      rfl
    · rw [hread]
      rcases insert_cases h delta with ⟨hinsert, -⟩ | hinsert
      · left
        change (s.insert (s.i + delta)).bind _ = none
        rw [hinsert]
        rfl
      · have hn : initial_n ≤ (s.next delta).n :=
          Nat.le_trans h (State.n_le_value s.state delta)
        change (s.insert (s.i + delta)).bind _ = none ∨ (s.insert (s.i + delta)).bind _ = _
        rw [hinsert]
        exact ih hn (by omega)

/-- Characters that are in the list stay there. -/
theorem mem_build {c : ℕ} {st : State} (h : c ∈ st.output) (deltas : List ℕ) :
  c ∈ (st.build deltas).output
  := by
  induction deltas generalizing st with
  | nil => exact h
  | cons delta deltas ih =>
    apply ih
    rw [State.output_insert, List.mem_append, List.mem_cons]
    rw [← List.take_append_drop (st.place delta) st.output, List.mem_append] at h
    rcases h with h | h
    · exact Or.inl h
    · exact Or.inr (Or.inr h)

/-- Integers in a row are decoded if the characters are Unicode characters and no more than a label
has. -/
theorem run_small {fuel : ℕ} (h : initial_n ≤ s.n) (hfuel : (s.code deltas).length ≤ fuel)
    (hpoints : ∀ c ∈ (s.state.build deltas).output, Scalar c)
    (hlength : s.output.length + deltas.length ≤ MaxDomainLabelLength) :
  Decoder.run fuel s (s.code deltas) = some (s.state.build deltas).output
  := by
  induction deltas generalizing fuel s with
  | nil =>
    cases fuel with
    | zero => rfl
    | succ fuel => exact if_pos rfl
  | cons delta deltas ih =>
    have hlt := length_code_lt s delta deltas
    obtain ⟨fuel, rfl⟩ : ∃ n, fuel = n + 1 := ⟨fuel - 1, by omega⟩
    rw [List.length_cons] at hlength
    have hmax : MaxDomainLabelLength = 63 := rfl
    have huint : maxUint = 4294967295 := rfl
    have hvalue : Scalar (s.state.value delta) := by
      have hmem : s.state.value delta ∈ ((s.state.insert delta).build deltas).output := by
        apply mem_build
        rw [State.output_insert]
        exact List.mem_append_right _ List.mem_cons_self
      exact hpoints _ hmem
    -- The number of the character bounds the integer.
    have hle : s.i + delta ≤ 0x110000 * 63 := by
      have hdiv : (s.i + delta) / (s.output.length + 1) < 0x110000 := by
        have heq : s.state.value delta = s.n + (s.i + delta) / (s.output.length + 1) := rfl
        rcases hvalue with hlow | hhigh
        · omega
        · omega
      rw [Nat.div_lt_iff_lt_mul (Nat.succ_pos _)] at hdiv
      apply Nat.le_trans (Nat.le_of_lt hdiv)
      apply Nat.mul_le_mul_left
      omega
    have hread : readInteger s.bias base 1 s.i (s.code (delta :: deltas))
        = some (s.i + delta, (s.next delta).code deltas) := by
      rw [code_cons]
      apply readInteger_integer_small (m := 0x110000 * 63)
      · omega
      · decide
      · omega
    have hinsert := (insert_cases h delta).resolve_left fun hnone => hnone.2 hvalue
    have hnext := length_next s delta
    have hn : initial_n ≤ (s.next delta).n := Nat.le_trans h (State.n_le_value s.state delta)
    rw [run_cons, hread]
    change (s.insert (s.i + delta)).bind _ = _
    rw [hinsert]
    exact ih hn (by omega) hpoints (by omega)

/-- Reading an integer takes digits away. -/
theorem length_readInteger {bias k w i i' : ℕ} {rest : QString}
    (h : readInteger bias k w i text = some (i', rest)) :
  rest.length ≤ text.length - 1
  := by
  induction text generalizing k w i with
  | nil =>
    rw [readInteger, Option.some.injEq, Prod.mk.injEq] at h
    rw [← h.2]
    exact Nat.le_refl _
  | cons c text ih =>
    rw [readInteger] at h
    split_ifs at h
    obtain ⟨tmp, -, h⟩ := Option.bind_eq_some_iff.mp h
    obtain ⟨i, -, h⟩ := Option.bind_eq_some_iff.mp h
    dsimp only at h
    split_ifs at h
    · rw [Option.some.injEq, Prod.mk.injEq] at h
      rw [← h.2]
      exact Nat.le_refl _
    · obtain ⟨w, -, h⟩ := Option.bind_eq_some_iff.mp h
      exact Nat.le_trans (ih h) (Nat.sub_le _ _)

/-- A character that is inserted is a Unicode character. -/
theorem insert_scalar {s' : Decoder} {i : ℕ} (h : s.insert i = some s') :
  (∀ c ∈ s'.output, c ∈ s.output ∨ Scalar c) ∧ s'.output.length = s.output.length + 1
  := by
  unfold Decoder.insert at h
  obtain ⟨n, -, h⟩ := Option.bind_eq_some_iff.mp h
  split_ifs at h with hn hrefused
  have hplace : i % (s.output.length + 1) ≤ s.output.length :=
    Nat.lt_succ_iff.mp (Nat.mod_lt _ (Nat.succ_pos _))
  rw [Option.some.injEq] at h
  rw [← h]
  constructor
  · intro c hc
    rcases (List.mem_insertIdx hplace).mp hc with rfl | hc
    · right
      rw [Bool.or_eq_true, QUtf8.isSurrogate_iff, decide_eq_true_iff] at hrefused
      rw [Scalar]
      omega
    · exact Or.inl hc
  · exact List.length_insertIdx_of_le_length hplace n

/-- The characters that are decoded are Unicode characters, each from a character of the label. -/
theorem run_scalar {fuel : ℕ} {points : List ℕ} (h : Decoder.run fuel s text = some points)
    (houtput : ∀ c ∈ s.output, Scalar c) :
  (∀ c ∈ points, Scalar c) ∧ points.length ≤ s.output.length + text.length
  := by
  induction fuel generalizing s text with
  | zero =>
    obtain rfl := Option.some.inj h
    exact ⟨houtput, Nat.le_add_right _ _⟩
  | succ fuel ih =>
    rw [Decoder.run] at h
    split_ifs at h with htext
    · obtain rfl := Option.some.inj h
      exact ⟨houtput, Nat.le_add_right _ _⟩
    · obtain ⟨⟨i, rest⟩, hread, h⟩ := Option.bind_eq_some_iff.mp h
      obtain ⟨s', hinsert, h⟩ := Option.bind_eq_some_iff.mp h
      have hpos := List.length_pos_of_ne_nil htext
      obtain ⟨hinserted, hlength⟩ := insert_scalar hinsert
      have hrest := length_readInteger hread
      obtain ⟨hpoints, hle⟩ := ih h fun c hc => (hinserted c hc).elim (houtput c) id
      exact ⟨hpoints, by omega⟩

/-! ### The parts of a label -/

theorem lastIndexOf_last (before : QString) {rest : QString} {c : UInt16} (h : c ∉ rest) :
  (before ++ c :: rest).lastIndexOf c ((before ++ c :: rest).length - 1) = some before.length
  := by
  have hlength : (before ++ c :: rest).length - 1 = before.length + rest.length := by
    rw [List.length_append, List.length_cons]
    omega
  have hlast : (before ++ c :: (rest ++ [])).lastIndexOf c (before.length + rest.length)
      = some before.length := QString.lastIndexOf_append h
  rw [List.append_nil] at hlast
  rw [hlength, hlast]

/-- The result of a run of the decoder. -/
def decoded (length : ℕ) (basic code : QString) : QString :=
  match Decoder.run length (Decoder.new (QStringIterator.codePoints 0xfffd basic)) code with
  | none => []
  | some output => units output

/-- A label without another hyphen is decoded behind the prefix. -/
theorem decoder_plain {code : QString} (h : (0x2d : UInt16) ∉ code)
    (hlength : (acePrefix ++ code).length ≤ MaxDomainLabelLength) :
  qt_punycodeDecoder (acePrefix ++ code) = decoded (acePrefix ++ code).length [] code
  := by
  have hstarts : acePrefix <+: acePrefix ++ code := List.prefix_append _ _
  have hpos : (acePrefix ++ code).lastIndexOf 0x2d ((acePrefix ++ code).length - 1) = some 3 :=
    lastIndexOf_last [0x78, 0x6e, 0x2d] h
  unfold qt_punycodeDecoder decoded
  dsimp only
  rw [if_neg (Nat.not_lt_of_le hlength), if_neg (not_not.mpr hstarts), hpos,
    QStringIterator.codePoints]
  rfl

/-- A label is decoded behind its last hyphen. -/
theorem decoder_hyphen {basic code : QString} (h : (0x2d : UInt16) ∉ code)
    (hlength : (acePrefix ++ (basic ++ 0x2d :: code)).length ≤ MaxDomainLabelLength) :
  qt_punycodeDecoder (acePrefix ++ (basic ++ 0x2d :: code))
    = decoded (acePrefix ++ (basic ++ 0x2d :: code)).length basic code
  := by
  have hstarts : acePrefix <+: acePrefix ++ (basic ++ 0x2d :: code) := List.prefix_append _ _
  have hfour : (acePrefix ++ basic).length = 4 + basic.length := List.length_append
  have hpos : (acePrefix ++ (basic ++ 0x2d :: code)).lastIndexOf 0x2d
      ((acePrefix ++ (basic ++ 0x2d :: code)).length - 1) = some (4 + basic.length) := by
    rw [← List.append_assoc, lastIndexOf_last _ h, hfour]
  have hbetween : (acePrefix ++ (basic ++ 0x2d :: code)).between 4 (4 + basic.length) = basic :=
    QString.between_append
  have hdrop : (acePrefix ++ (basic ++ 0x2d :: code)).drop (4 + basic.length + 1) = code := by
    have hfive : (acePrefix ++ basic ++ [0x2d]).length = 4 + basic.length + 1 := by
      rw [List.length_append, hfour]
      rfl
    rw [← List.append_assoc, List.append_cons, ← hfive, List.drop_left]
  unfold qt_punycodeDecoder decoded
  dsimp only
  rw [if_neg (Nat.not_lt_of_le hlength), if_neg (not_not.mpr hstarts), hpos]
  dsimp only
  rw [if_neg (Nat.not_lt_of_le (Nat.le_add_right _ _)), hbetween, hdrop]
  rfl

theorem decoder_label {basic code : QString} (h : (0x2d : UInt16) ∉ code)
    (hlength : (acePrefix ++ (basic ++ delimiter basic ++ code)).length ≤ MaxDomainLabelLength) :
  qt_punycodeDecoder (acePrefix ++ (basic ++ delimiter basic ++ code))
    = decoded (acePrefix ++ (basic ++ delimiter basic ++ code)).length basic code
  := by
  cases basic with
  | nil => exact decoder_plain h hlength
  | cons c basic =>
    have hlabel : c :: basic ++ delimiter (c :: basic) ++ code = c :: basic ++ 0x2d :: code :=
      (List.append_cons _ _ _).symm
    rw [hlabel] at hlength ⊢
    exact decoder_hyphen h hlength

/-- The parts before and behind the last hyphen. -/
theorem exists_parts {label : QString} (h : acePrefix <+: label) :
  ∃ basic code, (0x2d : UInt16) ∉ code
    ∧ (basic = [] ∧ label = acePrefix ++ code ∨ label = acePrefix ++ (basic ++ 0x2d :: code))
  := by
  obtain ⟨rest, rfl⟩ := h
  induction rest using List.reverseRecOn with
  | nil => exact ⟨[], [], List.not_mem_nil, Or.inl ⟨rfl, rfl⟩⟩
  | append_singleton rest c ih =>
    by_cases hc : c = 0x2d
    · exact ⟨rest, [], List.not_mem_nil, Or.inr (by rw [hc])⟩
    · obtain ⟨basic, code, hcode, hlabel⟩ := ih
      use basic, code ++ [c]
      constructor
      · rw [List.mem_append, List.mem_singleton, not_or]
        exact ⟨hcode, fun heq => hc heq.symm⟩
      · rcases hlabel with ⟨hbasic, heq⟩ | heq
        · left
          rw [List.append_cancel_left heq]
          exact ⟨hbasic, rfl⟩
        · right
          rw [List.append_cancel_left heq, List.append_assoc, List.cons_append]

/-! ### The round trips -/

theorem units_basic (h : ∀ c ∈ points, c < 0x80) :
  units points = points.map UInt16.ofNat
  := by
  induction points with
  | nil => rfl
  | cons c points ih =>
    have hc := h c List.mem_cons_self
    have hunit : QUtf8.appendUcs4 c = [UInt16.ofNat c] := if_pos (by omega)
    rw [units_cons, hunit, List.map_cons, ih fun d hd => h d (List.mem_cons_of_mem c hd)]
    rfl

theorem codePoints_basicOf (points : List ℕ) :
  QStringIterator.codePoints 0xfffd (basicOf points) = points.filter (· < initial_n)
  := by
  have hbasic : ∀ c ∈ points.filter (· < initial_n), c < 0x80 := by
    intro c hc
    exact of_decide_eq_true (List.mem_filter.mp hc).2
  rw [basicOf, ← units_basic hbasic]
  apply codePoints_units
  intro c hc
  have hlt := hbasic c hc
  left
  omega

theorem exists_high (h : ∃ u ∈ units points, (0x80 : UInt16) ≤ u) :
  ∃ c ∈ points, 0x80 ≤ c
  := by
  by_contra hnone
  have hbasic : ∀ c ∈ points, c < 0x80 :=
    fun c hc => Nat.lt_of_not_le fun hle => hnone ⟨c, hc, hle⟩
  obtain ⟨u, hu, hhigh⟩ := h
  rw [units_basic hbasic, List.mem_map] at hu
  obtain ⟨c, hc, rfl⟩ := hu
  have hlt := hbasic c hc
  rw [UInt16.le_iff_toNat_le, UInt16.toNat_ofNat'] at hhigh
  change 0x80 ≤ _ at hhigh
  omega

theorem hyphen_not_mem {firsttime : Bool} {bias numpoints : ℕ} :
  (0x2d : UInt16) ∉ integers firsttime bias numpoints deltas
  := fun hmem => (mem_integers hmem).1 rfl

/-- A label that is encoded is what its encoding is decoded to. -/
theorem decoder_encoder {label output ace : QString} (h : QUtf8.paired label = true)
    (h_some : ∃ u ∈ label, (0x80 : UInt16) ≤ u)
    (h_encode : qt_punycodeEncoder label output = output ++ ace) (h_ace : ace ≠ [])
    (h_length : ace.length ≤ MaxDomainLabelLength) :
  qt_punycodeDecoder ace = label
  := by
  obtain ⟨points, h_points, rfl⟩ := exists_points h
  have h_short : (units points).length ≤ MaxDomainLabelLength * 2 := by
    by_contra h_long
    rw [qt_punycodeEncoder, if_pos (Nat.lt_of_not_le h_long)] at h_encode
    exact h_ace (List.self_eq_append_right.mp h_encode)
  obtain ⟨deltas, h_encoded, h_build⟩ :=
    encoder_units h_points (exists_high h_some) h_short output
  obtain rfl := List.append_cancel_left (h_encoded.symm.trans h_encode)
  have h_basic : (points.filter (· < initial_n)).length = (basicOf points).length :=
    (List.length_map _).symm
  have h_deltas := length_integers true initial_bias ((basicOf points).length + 1) deltas
  have h_code : integers true initial_bias ((basicOf points).length + 1) deltas
      = (Decoder.new (points.filter (· < initial_n))).code deltas := by
    rw [← h_basic]
    rfl
  have h_parts := h_length
  rw [List.length_append, List.length_append, List.length_append] at h_parts
  have h_run (fuel : ℕ) (h_fuel : (integers true initial_bias ((basicOf points).length + 1)
      deltas).length ≤ fuel) :
      Decoder.run fuel (Decoder.new (points.filter (· < initial_n)))
        (integers true initial_bias ((basicOf points).length + 1) deltas) = some points := by
    have h_list : ((Decoder.new (points.filter (· < initial_n))).state.build deltas).output
        = points := h_build
    have h_number : (Decoder.new (points.filter (· < initial_n))).output.length + deltas.length
        ≤ MaxDomainLabelLength := by
      change (points.filter (· < initial_n)).length + _ ≤ _
      omega
    rw [h_code] at h_fuel ⊢
    rw [run_small (Nat.le_refl _) h_fuel _ h_number, h_list]
    rw [h_list]
    exact h_points
  rw [decoder_label hyphen_not_mem h_length, decoded, codePoints_basicOf, h_run]
  rw [List.length_append, List.length_append, List.length_append]
  omega

theorem encoder_letter :
  qt_punycodeEncoder [0xfc] [] = acePrefix ++ [0x74, 0x64, 0x61]
  := by
  have hscalar : ∀ c ∈ [0xfc], Scalar c := by
    intro c hc
    rw [List.mem_singleton.mp hc]
    exact Or.inl (by decide)
  have hpoints : QStringIterator.codePoints maxUint [0xfc] = [0xfc] :=
    codePoints_units hscalar maxUint
  unfold qt_punycodeEncoder
  rw [hpoints]
  decide

/-- The label "ü" is encoded to "xn--tda", and this is decoded to it. -/
theorem decoder_encoder_letter :
  qt_punycodeDecoder (acePrefix ++ [0x74, 0x64, 0x61]) = [0xfc]
  := decoder_encoder (by decide) (by decide) (encoder_letter.trans (List.nil_append _).symm)
    (by decide) (by decide)

/-- The label is made of basic characters with a hyphen behind them, if there are any, and of one or
more whole integers. -/
def Canonical (label : QString) : Prop :=
  ∃ basic deltas, deltas ≠ []
    ∧ label = acePrefix ++ (basic ++ delimiter basic
      ++ integers true initial_bias (basic.length + 1) deltas)

theorem toNat_basic {basic : QString} (h : ∀ c ∈ basic, c < 0x80) :
  (∀ c ∈ basic.map UInt16.toNat, c < 0x80) ∧ (basic.map UInt16.toNat).map UInt16.ofNat = basic
    ∧ QStringIterator.codePoints 0xfffd basic = basic.map UInt16.toNat
  := by
  have hbasic : ∀ c ∈ basic.map UInt16.toNat, c < 0x80 := by
    intro c hc
    obtain ⟨u, hu, rfl⟩ := List.mem_map.mp hc
    exact UInt16.lt_iff_toNat_lt.mp (h u hu)
  have hsame : (basic.map UInt16.toNat).map UInt16.ofNat = basic := by
    rw [List.map_map]
    apply List.map_id''
    intro u
    exact UInt16.ofNat_toNat
  have hpoints : QStringIterator.codePoints 0xfffd (units (basic.map UInt16.toNat))
      = basic.map UInt16.toNat :=
    codePoints_units (fun c hc => Or.inl (Nat.lt_trans (hbasic c hc) (by decide))) 0xfffd
  rw [units_basic hbasic, hsame] at hpoints
  exact ⟨hbasic, hsame, hpoints⟩

/-- The characters that a label is decoded to. -/
theorem decoded_scalar {length : ℕ} {basic code : QString} (h : ∀ c ∈ basic, c < 0x80)
    (hdecoded : decoded length basic code ≠ []) :
  ∃ points, Decoder.run length (Decoder.new (basic.map UInt16.toNat)) code = some points
    ∧ decoded length basic code = units points ∧ (∀ c ∈ points, Scalar c)
    ∧ points.length ≤ basic.length + code.length
  := by
  obtain ⟨hbasic, -, hpoints⟩ := toNat_basic h
  unfold decoded at hdecoded ⊢
  rw [hpoints] at hdecoded ⊢
  cases hrun : Decoder.run length (Decoder.new (basic.map UInt16.toNat)) code with
  | none =>
    rw [hrun] at hdecoded
    exact absurd rfl hdecoded
  | some points =>
    obtain ⟨hscalar, hle⟩ := run_scalar hrun
      fun c hc => Or.inl (Nat.lt_trans (hbasic c hc) (by decide))
    have hlength : (Decoder.new (basic.map UInt16.toNat)).output.length = basic.length :=
      List.length_map _
    rw [hlength] at hle
    exact ⟨points, rfl, rfl, hscalar, hle⟩

theorem length_units_le (points : List ℕ) :
  (units points).length ≤ 2 * points.length
  := by
  induction points with
  | nil => exact Nat.le_refl _
  | cons c points ih =>
    have hc : (QUtf8.appendUcs4 c).length ≤ 2 := by
      rw [QUtf8.appendUcs4]
      split_ifs
      · exact Nat.le_succ 1
      · exact Nat.le_refl 2
    rw [units_cons, List.length_append, List.length_cons]
    omega

/-- A label of basic characters is not encoded. -/
theorem length_encoder_basic {input : QString} (h : ¬ ∃ u ∈ input, (0x80 : UInt16) ≤ u) :
  (qt_punycodeEncoder input []).length ≤ input.length
  := by
  have hall : input.all (· < 0x80) = true := by
    rw [List.all_eq_true]
    intro u hu
    apply decide_eq_true
    rw [← UInt16.not_le]
    exact fun hle => h ⟨u, hu, hle⟩
  unfold qt_punycodeEncoder
  dsimp only
  split_ifs
  · exact Nat.zero_le _
  · rw [List.nil_append]
    exact List.length_filter_le _ _

/-- The result for a label is decoded from the parts before and behind the last hyphen. -/
theorem exists_decoded {label : QString} (h : ∀ c ∈ label, c < 0x80)
    (hstarts : acePrefix <+: label) (hdecoded : qt_punycodeDecoder label ≠ []) :
  ∃ points, qt_punycodeDecoder label = units points ∧ (∀ c ∈ points, Scalar c)
    ∧ points.length + 4 ≤ label.length ∧ label.length ≤ MaxDomainLabelLength
  := by
  have hlength : label.length ≤ MaxDomainLabelLength := by
    by_contra hlong
    rw [qt_punycodeDecoder, if_pos (Nat.lt_of_not_le hlong)] at hdecoded
    exact hdecoded rfl
  have hfour : acePrefix.length = 4 := rfl
  obtain ⟨basic, code, hcode, ⟨-, rfl⟩ | rfl⟩ := exists_parts hstarts
  · rw [decoder_plain hcode hlength] at hdecoded ⊢
    obtain ⟨points, -, hpoints, hscalar, hle⟩ :=
      decoded_scalar (fun c hc => absurd hc List.not_mem_nil) hdecoded
    refine ⟨points, hpoints, hscalar, ?_, hlength⟩
    rw [List.length_append]
    rw [List.length_nil] at hle
    omega
  · rw [decoder_hyphen hcode hlength] at hdecoded ⊢
    have hbasic : ∀ c ∈ basic, c < 0x80 := by
      intro c hc
      exact h c (List.mem_append_right _ (List.mem_append_left _ hc))
    obtain ⟨points, -, hpoints, hscalar, hle⟩ := decoded_scalar hbasic hdecoded
    refine ⟨points, hpoints, hscalar, ?_, hlength⟩
    rw [List.length_append, List.length_append, List.length_cons]
    omega

/-- A canonical label is what the encoder writes for the characters that it is decoded to. -/
theorem encoder_canonical {basic : QString} (h : ∀ c ∈ basic, c < 0x80) (hdeltas : deltas ≠ [])
    (hlength : (acePrefix ++ (basic ++ delimiter basic
      ++ integers true initial_bias (basic.length + 1) deltas)).length ≤ MaxDomainLabelLength)
    (hdecoded : qt_punycodeDecoder (acePrefix ++ (basic ++ delimiter basic
      ++ integers true initial_bias (basic.length + 1) deltas)) ≠ []) :
  qt_punycodeEncoder (qt_punycodeDecoder (acePrefix ++ (basic ++ delimiter basic
      ++ integers true initial_bias (basic.length + 1) deltas))) []
    = acePrefix ++ (basic ++ delimiter basic
      ++ integers true initial_bias (basic.length + 1) deltas)
  := by
  obtain ⟨hbasic, hsame, -⟩ := toNat_basic h
  rw [decoder_label hyphen_not_mem hlength] at hdecoded ⊢
  obtain ⟨points, hrun, hpoints, hscalar, hnumber⟩ := decoded_scalar h hdecoded
  have hcode : integers true initial_bias (basic.length + 1) deltas
      = (Decoder.new (basic.map UInt16.toNat)).code deltas := by
    rw [← List.length_map UInt16.toNat]
    rfl
  have hparts := hlength
  rw [List.length_append, List.length_append, List.length_append] at hparts
  have hbuild : ((initial (basic.map UInt16.toNat)).build deltas).output = points := by
    have hcases (fuel : ℕ) (hfuel : ((Decoder.new (basic.map UInt16.toNat)).code deltas).length
        ≤ fuel) := run_integers (s := Decoder.new (basic.map UInt16.toNat)) (Nat.le_refl _) hfuel
    rw [← hcode] at hcases
    have hfuel : (integers true initial_bias (basic.length + 1) deltas).length
        ≤ (acePrefix ++ (basic ++ delimiter basic
          ++ integers true initial_bias (basic.length + 1) deltas)).length := by
      rw [List.length_append, List.length_append, List.length_append]
      omega
    rcases hcases _ hfuel with hnone | hsome
    · rw [hrun] at hnone
      cases hnone
    · rw [hrun] at hsome
      exact (Option.some.inj hsome).symm
  have hsome : ∃ c ∈ points, 0x80 ≤ c := by
    obtain ⟨delta, others, rfl⟩ := List.exists_cons_of_ne_nil hdeltas
    use (initial (basic.map UInt16.toNat)).value delta
    constructor
    · have hmem : (initial (basic.map UInt16.toNat)).value delta
          ∈ (((initial (basic.map UInt16.toNat)).insert delta).build others).output := by
        apply mem_build
        rw [State.output_insert]
        exact List.mem_append_right _ List.mem_cons_self
      rw [← hbuild]
      exact hmem
    · have hvalue := State.n_le_value (initial (basic.map UInt16.toNat)) delta
      exact hvalue
  have hmax : MaxDomainLabelLength = 63 := rfl
  have hunits := length_units_le points
  obtain ⟨deltas', hencoded, hbuild'⟩ := encoder_units hscalar hsome (by omega) []
  have hfilter : points.filter (· < initial_n) = basic.map UInt16.toNat := by
    have hkept := State.filter_build (initial (basic.map UInt16.toNat)) deltas
      (Nat.le_refl initial_n)
    rw [hbuild] at hkept
    rw [hkept]
    exact List.filter_eq_self.mpr fun c hc => decide_eq_true (hbasic c hc)
  have hsorted : (initial (basic.map UInt16.toNat)).Sorted := by
    constructor
    · intro c hc
      exact Nat.le_of_lt (hbasic c hc)
    · intro c hc
      exact hbasic c hc
  rw [hfilter] at hbuild'
  obtain rfl : deltas' = deltas := State.build_injective hsorted (hbuild'.trans hbuild.symm)
  have hbasicOf : basicOf points = basic := by
    rw [basicOf, hfilter, hsame]
  rw [hpoints, hencoded, hbasicOf]
  rfl

/-- An ASCII label that is decoded is what the encoder writes for the result if and only if it is
canonical. -/
theorem encoder_decoder_iff {label : QString} (h : ∀ c ∈ label, c < 0x80)
    (h_starts : acePrefix <+: label) (h_decoded : qt_punycodeDecoder label ≠ []) :
  qt_punycodeEncoder (qt_punycodeDecoder label) [] = label ↔ Canonical label
  := by
  obtain ⟨points, h_points, h_scalar, h_number, h_length⟩ := exists_decoded h h_starts h_decoded
  have h_max : MaxDomainLabelLength = 63 := rfl
  have h_units := length_units_le points
  have h_short : (units points).length ≤ MaxDomainLabelLength * 2 := by omega
  rw [h_points]
  constructor
  · intro h_encode
    by_cases h_some : ∃ u ∈ units points, (0x80 : UInt16) ≤ u
    · obtain ⟨deltas, h_encoded, h_build⟩ :=
        encoder_units h_scalar (exists_high h_some) h_short []
      use basicOf points, deltas
      constructor
      · rintro rfl
        obtain ⟨c, h_c, h_high⟩ := exists_high h_some
        have h_low : points.filter (· < initial_n) = points := h_build
        rw [← h_low, List.mem_filter] at h_c
        have h_lt : c < 0x80 := of_decide_eq_true h_c.2
        omega
      · rw [← h_encode, h_encoded, List.nil_append]
    · exfalso
      have h_le := length_encoder_basic h_some
      have h_filter : (units points).filter (· < 0x80) = units points := by
        rw [List.filter_eq_self]
        intro u h_u
        apply decide_eq_true
        rw [← UInt16.not_le]
        exact fun h_high => h_some ⟨u, h_u, h_high⟩
      have h_basic := congrArg List.length (filter_units h_scalar)
      have h_fewer := List.length_filter_le (fun c => decide (c < 0x80)) points
      rw [h_filter, List.length_map] at h_basic
      rw [h_encode] at h_le
      omega
  · rintro ⟨basic, deltas, h_deltas, rfl⟩
    have h_ascii : ∀ c ∈ basic, c < 0x80 := by
      intro c h_c
      exact h c (List.mem_append_right _ (List.mem_append_left _ (List.mem_append_left _ h_c)))
    rw [← h_points]
    exact encoder_canonical h_ascii h_deltas h_length h_decoded

theorem encoder_decoder_iff_letter :
  qt_punycodeEncoder (qt_punycodeDecoder (acePrefix ++ [0x74, 0x64, 0x61])) []
      = acePrefix ++ [0x74, 0x64, 0x61]
    ↔ Canonical (acePrefix ++ [0x74, 0x64, 0x61])
  := by
  have h_plain : qt_punycodeDecoder (acePrefix ++ [0x74, 0x64, 0x61])
      = decoded 7 [] [0x74, 0x64, 0x61] := decoder_plain (by decide) (by decide)
  have h_decoded : qt_punycodeDecoder (acePrefix ++ [0x74, 0x64, 0x61]) ≠ [] := by
    rw [h_plain, decoded, QStringIterator.codePoints]
    decide
  have h_all : (acePrefix ++ [0x74, 0x64, 0x61] : QString).all (· < 0x80) = true := by decide
  exact encoder_decoder_iff (fun c h_c => of_decide_eq_true (List.all_eq_true.mp h_all c h_c))
    (by decide) h_decoded

/-- The labels "xn---tda" and "xn--tda" are decoded to the same one. -/
theorem decoder_two_labels :
  qt_punycodeDecoder (acePrefix ++ [0x2d, 0x74, 0x64, 0x61]) = [0xfc]
    ∧ qt_punycodeDecoder (acePrefix ++ [0x74, 0x64, 0x61]) = [0xfc]
    ∧ qt_punycodeEncoder [0xfc] [] = acePrefix ++ [0x74, 0x64, 0x61]
  := by
  have h_hyphen : qt_punycodeDecoder (acePrefix ++ [0x2d, 0x74, 0x64, 0x61])
      = decoded 8 [] [0x74, 0x64, 0x61] := @decoder_hyphen [] _ (by decide) (by decide)
  have h_plain : qt_punycodeDecoder (acePrefix ++ [0x74, 0x64, 0x61])
      = decoded 7 [] [0x74, 0x64, 0x61] := decoder_plain (by decide) (by decide)
  rw [decoded, QStringIterator.codePoints] at h_hyphen h_plain
  refine ⟨h_hyphen.trans ?_, h_plain.trans ?_, encoder_letter⟩
  · decide
  · decide

end QUrlIdna
