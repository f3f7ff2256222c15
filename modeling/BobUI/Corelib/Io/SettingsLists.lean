import BobUI.Corelib.Io.SettingsReads

/-!
# Lists of strings

What `iniUnescapedStringList` reads of the texts that `iniEscapedString` and `iniEscapedStringList`
write, also of a string that does not go through the encoder.  One decoder reads a whole text, so
that at most one character is taken for a byte order mark: the first one of the list that is not
escaped.
-/

namespace QSettings

/-! ### Strings that do not go through the encoder -/

/-- The number of a code unit is read back. -/
theorem hexNumber_spec {n : ℕ} (h : n < 0x10000) :
  hexNumber n ≠ [] ∧ (∀ d ∈ hexNumber n, isDigit d = true)
    ∧ Unescaping.escapeVal fromHex 4 (hexNumber n) = UInt16.ofNat n
  := by
  have hdigit : ∀ d : Fin 16, isDigit (UInt8.ofNat (Nat.digitChar d.val).toNat) = true
      ∧ (fromHex (UInt8.ofNat (Nat.digitChar d.val).toNat)).getD 0 = UInt16.ofNat d.val := by
    decide
  induction n using Nat.strong_induction_on with
  | _ n ih =>
    obtain ⟨hisDigit, hvalue⟩ := hdigit ⟨n % 16, Nat.mod_lt _ (by decide)⟩
    dsimp only at hisDigit hvalue
    rw [hexNumber, Nat.toDigits_eq_if (by decide)]
    split
    next hlt =>
      rw [Nat.mod_eq_of_lt hlt] at hisDigit hvalue
      refine ⟨List.cons_ne_nil _ _, ?_, ?_⟩
      · rw [List.map_singleton, List.forall_mem_singleton]
        exact hisDigit
      · rw [List.map_singleton, Unescaping.escapeVal, List.foldl_cons, List.foldl_nil, hvalue]
        exact UInt16.zero_add _
    next hle =>
      obtain ⟨-, hdigits, hhigh⟩ := ih (n / 16) (by omega) (by omega)
      rw [hexNumber] at hdigits hhigh
      rw [List.map_append, List.map_singleton]
      refine ⟨List.append_ne_nil_of_right_ne_nil _ (List.cons_ne_nil _ _), ?_, ?_⟩
      · rw [List.forall_mem_append, List.forall_mem_singleton]
        exact ⟨hdigits, hisDigit⟩
      · rw [Unescaping.escapeVal, List.foldl_append, List.foldl_cons, List.foldl_nil, hvalue]
        change Unescaping.escapeVal fromHex 4 _ <<< 4 + _ = _
        rw [hhigh, ← UInt16.toNat_inj, UInt16.toNat_add, UInt16.toNat_shiftLeft]
        simp only [UInt16.toNat_ofNat', Nat.shiftLeft_eq]
        change ((n / 16 % 2 ^ 16) * 2 ^ 4 % 2 ^ 16 + n % 16 % 2 ^ 16) % 2 ^ 16 = _
        omega

/-- An escaped character is written in the same way without the encoder. -/
theorem escapedChar_useCodec {next : Bool} {ch : UInt16} (h : isEscaped next ch = true)
    (useCodec : Bool) (toUtf8 : Option UInt16) :
  escapedChar useCodec next toUtf8 ch = escapedChar true next toUtf8 ch
  := by
  simp only [isEscaped, Bool.or_eq_true, decide_eq_true_eq] at h
  unfold escapedChar
  rcases h with ((h | h) | h) | h
  · rw [if_pos h, if_pos h]
  · have hcontrol : ∀ b : Bool, (decide (ch ≤ 0x1f) || b) = true := by
      intro b
      rw [decide_eq_true h]
      rfl
    rw [if_pos (hcontrol _), if_pos (hcontrol _)]
  · subst h
    rfl
  · subst h
    rfl

/-- Without the encoder a character that is not escaped is an octet, or else a number. -/
theorem escapedChar_uncoded {next : Bool} {ch : UInt16} (h : isEscaped next ch = false)
    (toUtf8 : Option UInt16) :
  escapedChar false next toUtf8 ch
    = if 0x7f ≤ ch then ([0x5c, 0x78] ++ hexNumber ch.toNat, true, toUtf8)
      else ([ch.toUInt8], false, toUtf8)
  := by
  rw [isEscaped, Bool.or_eq_false_iff, Bool.or_eq_false_iff, Bool.or_eq_false_iff,
    decide_eq_false_iff_not, decide_eq_false_iff_not, decide_eq_false_iff_not] at h
  obtain ⟨⟨⟨hdigit, hcontrol⟩, hquote⟩, hbackslash⟩ := h
  have hne : ∀ c : UInt16, c ≤ 0x1f → ch ≠ c := by
    rintro c hc rfl
    exact hcontrol hc
  unfold escapedChar
  rw [hdigit, if_neg Bool.false_ne_true, if_neg (hne 0x00 (by decide)),
    if_neg (hne 0x07 (by decide)), if_neg (hne 0x08 (by decide)), if_neg (hne 0x0c (by decide)),
    if_neg (hne 0x0a (by decide)), if_neg (hne 0x0d (by decide)), if_neg (hne 0x09 (by decide)),
    if_neg (hne 0x0b (by decide)), if_neg (by simp [hquote, hbackslash])]
  simp [hcontrol]

/-- The text of a string that does not go through the encoder: escapes and octets. -/
inductive Uncoded : Bool → QString → QByteArray → Prop
  | nil (next : Bool) : Uncoded next [] []
  | escape {next flag : Bool} {ch : UInt16} {octets : QByteArray} {str : QString}
    {text : QByteArray} (h_ne : ch ≠ 0x20) (h_octets : Escape ch octets flag)
    (h : Uncoded flag str text) : Uncoded next (ch :: str) (octets ++ text)
  | ascii {next : Bool} {ch : UInt16} {str : QString} {text : QByteArray}
    (h_ch : isEscaped next ch = false) (h_ascii : ch < 0x80)
    (h : Uncoded false str text) : Uncoded next (ch :: str) (ch.toUInt8 :: text)

theorem uncoded (next : Bool) (str : QString) :
  Uncoded next str (escapedText false next none str)
  := by
  induction str generalizing next with
  | nil => exact .nil next
  | cons ch str ih =>
    change Uncoded next (ch :: str) ((escapedChar false next none ch).1
      ++ escapedText false (escapedChar false next none ch).2.1
        (escapedChar false next none ch).2.2 str)
    cases hch : isEscaped next ch with
    | true =>
      have hne : ch ≠ 0x20 := by
        rintro rfl
        cases next with
        | true => cases hch
        | false => cases hch
      obtain ⟨hescape, hstate⟩ := escapedChar_escape hch
      rw [escapedChar_useCodec hch, hstate]
      exact .escape hne hescape (ih _)
    | false =>
      rw [escapedChar_uncoded hch]
      split
      next hhigh =>
        have hne : ch ≠ 0x20 := by
          rintro rfl
          exact absurd hhigh (by decide)
        obtain ⟨hdigits, hisDigit, hvalue⟩ := hexNumber_spec ch.toNat_lt
        rw [UInt16.ofNat_toNat] at hvalue
        exact .escape hne (.number hdigits hisDigit hvalue) (ih true)
      next hlow =>
        apply Uncoded.ascii hch _ (ih false)
        rw [UInt16.not_le] at hlow
        exact UInt16.lt_trans hlow (by decide)

namespace Uncoded

/-- What follows a number does not go on with its digits. -/
theorem head {str : QString} {text : QByteArray} (h : Uncoded true str text) {rest : QByteArray}
    (hrest : ∀ b, rest.head? = some b → isDigit b = false) :
  ∀ b, (text ++ rest).head? = some b → isDigit b = false
  := by
  intro b hb
  cases h with
  | nil => exact hrest b hb
  | escape _ hescape h =>
    rw [List.append_assoc] at hb
    cases hescape with
    | code =>
      cases hb
      rfl
    | number =>
      cases hb
      rfl
    | null =>
      cases hb
      rfl
  | ascii hch hascii h =>
    cases hb
    exact isDigit_ascii hascii hch

theorem getLast {next : Bool} {str : QString} {text : QByteArray} (h : Uncoded next str text)
    (hlast : str.getLast? = some 0x20) :
  text.getLast? = some 0x20
  := by
  induction h with
  | nil => cases hlast
  | @escape _ _ ch octets str text hne _ _ ih =>
    cases str with
    | nil => exact absurd (Option.some.inj hlast) hne
    | cons c str =>
      rw [List.getLast?_append, ih hlast]
      rfl
  | @ascii _ ch str _ _ _ h ih =>
    cases str with
    | nil =>
      cases h
      cases hlast
      rfl
    | cons c str =>
      rw [List.getLast?_cons, ih hlast]
      rfl

end Uncoded

/-! ### Reading a string -/

/-- A string that does not go through the encoder begins with '@'. -/
theorem head_of_uncoded {str : QString} (h : useCodec str = false) :
  ∃ rest, str = 0x40 :: rest
  := by
  have hhead : str.head? = some 0x40 := by
    by_contra hnot
    rw [useCodec_of_head hnot] at h
    cases h
  cases str with
  | nil => cases hhead
  | cons c rest =>
    cases hhead
    exact ⟨rest, rfl⟩

theorem octets_ascii {ch : UInt16} (h : ch < 0x80) :
  Octets [ch.toUInt8] [ch]
  := by
  refine ⟨ch.toUInt8, [], rfl, ?_⟩
  intro rest
  have hoctet : ch.toUInt8 < 0x80 := by
    rw [UInt8.lt_iff_toNat_lt, UInt16.toNat_toUInt8]
    rw [UInt16.lt_iff_toNat_lt] at h
    change _ < 0x80 at h
    change _ < 0x80
    omega
  rw [QUtf8.fromUtf8, if_pos hoctet, toUInt16_ascii h]
  rfl

/-- What is read of a string: without a byte order mark where nothing was decoded before it. -/
def readString (headerDone : Bool) (str : QString) : QString :=
  if headerDone then str else dropMark false str

namespace Unescaping

/-- The variables after the text of a string, where nothing could be cut off before it. -/
structure Reads (s s' : Unescaping) (str : QString) : Prop where
  isStringList : s'.isStringList = s.isStringList
  inQuotedString : s'.inQuotedString = s.inQuotedString
  currentValueIsQuoted : s'.currentValueIsQuoted = s.currentValueIsQuoted
  stringListResult : s'.stringListResult = s.stringListResult
  ready : Ready s'.fromUtf8
  headerDone : s'.fromUtf8.headerDone = (s.fromUtf8.headerDone || (firstPlain false str).isSome)
  stringResult : s'.stringResult = s.stringResult ++ readString s.fromUtf8.headerDone str
  kept : str.getLast? ≠ some 0x20 → Kept s'

theorem fromUtf8_readText {s : Unescaping} (hready : Ready s.fromUtf8) (next : Bool)
    (str : QString) :
  Ready (s.readText next str).fromUtf8
    ∧ (s.readText next str).fromUtf8.headerDone
      = (s.fromUtf8.headerDone || (firstPlain next str).isSome)
  := by
  induction str generalizing s next with
  | nil => exact ⟨hready, (Bool.or_false _).symm⟩
  | cons ch str ih =>
    cases hch : isEscaped next ch with
    | true =>
      rw [readText_escaped s hch, firstPlain, if_pos hch]
      exact @ih (s.append [ch]).normal hready _
    | false =>
      obtain ⟨htext, hdone⟩ := ih (ready_readChar hready [ch]) false
      rw [readText_plain s hch, firstPlain, hch, if_neg Bool.false_ne_true]
      refine ⟨htext, hdone.trans ?_⟩
      rw [Option.isSome_some, Bool.or_true]
      exact Bool.true_or _

theorem reads_readText {s : Unescaping} (hready : Ready s.fromUtf8)
    (hlimit : s.chopLimit = s.stringResult.length) (str : QString) :
  Reads s (s.readText false str) str
  := by
  obtain ⟨hisList, hquoted, hisQuoted, hlistResult⟩ := readText_frame s false str
  obtain ⟨hready', hdone⟩ := fromUtf8_readText hready false str
  exact ⟨hisList, hquoted, hisQuoted, hlistResult, hready', hdone,
    stringResult_readText s false str, kept_readText (fun _ => .inl hlimit) (fun _ => hlimit)⟩

/-- The variables after more characters, where something was decoded before them. -/
structure GoesOn (s s' : Unescaping) (str : QString) : Prop where
  isStringList : s'.isStringList = s.isStringList
  inQuotedString : s'.inQuotedString = s.inQuotedString
  currentValueIsQuoted : s'.currentValueIsQuoted = s.currentValueIsQuoted
  stringListResult : s'.stringListResult = s.stringListResult
  fromUtf8 : s'.fromUtf8 = s.fromUtf8
  stringResult : s'.stringResult = s.stringResult ++ str
  kept : (str = [] → Kept s) → str.getLast? ≠ some 0x20 → Kept s'

theorem GoesOn.cons {s t s' : Unescaping} {ch : UInt16} {str : QString} (h : GoesOn s t [ch])
    (h' : GoesOn t s' str) :
  GoesOn s s' (ch :: str)
  := by
  refine ⟨h'.isStringList.trans h.isStringList, h'.inQuotedString.trans h.inQuotedString,
    h'.currentValueIsQuoted.trans h.currentValueIsQuoted,
    h'.stringListResult.trans h.stringListResult, h'.fromUtf8.trans h.fromUtf8, ?_, ?_⟩
  · rw [h'.stringResult, h.stringResult, List.append_assoc]
    rfl
  · intro _ hlast
    apply h'.kept
    · rintro rfl
      exact h.kept (fun hnil => nomatch hnil) hlast
    · cases str with
      | nil => exact Option.some_ne_none _ ∘ Eq.symm
      | cons c str => rwa [List.getLast?_cons_cons] at hlast

theorem goesOn_escape (s : Unescaping) (ch : UInt16) :
  GoesOn s (s.append [ch]).normal [ch]
  := ⟨rfl, rfl, rfl, rfl, rfl, rfl, fun _ _ => .inl rfl⟩

theorem goesOn_readChar {s : Unescaping} (hdone : s.fromUtf8.headerDone = true) {next : Bool}
    {ch : UInt16} (hch : isEscaped next ch = false) :
  GoesOn s (s.readChar [ch]) [ch]
  := by
  have hstate : ({ s.fromUtf8 with headerDone := true } : QUtf8.State) = s.fromUtf8 := by
    rw [← hdone]
  refine ⟨rfl, rfl, rfl, rfl, hstate, ?_, ?_⟩
  · rw [readChar, hdone]
    rfl
  · intro _ hlast
    apply kept_readChar hch
    · rintro rfl
      exact hlast rfl
    · rw [hdone]
      rintro ⟨⟩

/-- The text of more characters is read, where no digit follows it. -/
theorem unescape_uncoded {next : Bool} {str : QString} {text : QByteArray}
    (h : Uncoded next str text) {s : Unescaping} (hready : Ready s.fromUtf8)
    (hdone : s.fromUtf8.headerDone = true) (hcomma : s.inQuotedString = true ∨ 0x2c ∉ str) :
  ∃ s', GoesOn s s' str ∧ ∀ rest : QByteArray,
    (∀ b, rest.head? = some b → isDigit b = false) → s.unescape (text ++ rest) = s'.unescape rest
  := by
  induction h generalizing s with
  | nil =>
    refine ⟨s, ⟨rfl, rfl, rfl, rfl, rfl, (List.append_nil _).symm, fun h _ => h rfl⟩, ?_⟩
    exact fun _ _ => rfl
  | @escape _ flag ch octets str text _ hescape htext ih =>
    obtain ⟨s', hs', hread⟩ := @ih (s.append [ch]).normal hready hdone
      (hcomma.imp_right List.not_mem_of_not_mem_cons)
    refine ⟨s', (goesOn_escape s ch).cons hs', ?_⟩
    intro rest hrest
    rw [List.append_assoc, unescape_escape hescape, hread rest hrest]
    intro hflag
    rw [hflag] at htext
    exact htext.head hrest
  | @ascii next ch str text hch hascii _ ih =>
    have hchar := goesOn_readChar hdone hch
    obtain ⟨s', hs', hread⟩ := @ih (s.readChar [ch]) (ready_readChar hready _) rfl
      (hcomma.imp_right List.not_mem_of_not_mem_cons)
    refine ⟨s', hchar.cons hs', ?_⟩
    intro rest hrest
    change s.unescape ([ch.toUInt8] ++ (text ++ rest)) = _
    rw [unescape_char hready (octets_ascii hascii), hread rest hrest]
    exact ordinary_ascii hch hascii hcomma

/-- The text of a string is read, where no digit follows it. -/
theorem unescape_text {str : QString} (h : QUtf8.paired str = true) {s : Unescaping}
    (hready : Ready s.fromUtf8) (hlimit : s.chopLimit = s.stringResult.length)
    (hcomma : s.inQuotedString = true ∨ 0x2c ∉ str) :
  ∃ s', Reads s s' str ∧ ∀ rest : QByteArray,
    (∀ b, rest.head? = some b → isDigit b = false) →
    s.unescape (escapedText (useCodec str) false none str ++ rest) = s'.unescape rest
  := by
  cases hcodec : useCodec str with
  | true =>
    refine ⟨s.readText false str, reads_readText hready hlimit str, ?_⟩
    exact fun rest hrest => unescape_spelled (spelled false h) hready hcomma hrest
  | false =>
    obtain ⟨str, rfl⟩ := head_of_uncoded hcodec
    obtain ⟨s', hs', hread⟩ := @unescape_uncoded false str _ (uncoded false str)
      (s.readChar [0x40]) (ready_readChar hready _) rfl
      (hcomma.imp_right List.not_mem_of_not_mem_cons)
    have hat : ∀ done : Bool, (if done then [0x40] else QUtf8.eatBom [0x40]) ++ str
        = readString done (0x40 :: str) := by
      intro done
      cases done with
      | true => rfl
      | false => rfl
    refine ⟨s', ⟨hs'.isStringList, hs'.inQuotedString, hs'.currentValueIsQuoted,
      hs'.stringListResult, ?_, ?_, ?_, ?_⟩, ?_⟩
    · rw [hs'.fromUtf8]
      exact ready_readChar hready _
    · rw [hs'.fromUtf8]
      exact (Bool.or_true _).symm
    · rw [hs'.stringResult, ← hat, ← List.append_assoc]
      rfl
    · intro hlast
      apply hs'.kept
      · rintro rfl
        exact @kept_readChar false s 0x40 rfl (by decide) fun _ => hlimit
      · cases str with
        | nil => exact Option.some_ne_none _ ∘ Eq.symm
        | cons c str => rwa [List.getLast?_cons_cons] at hlast
    · intro rest hrest
      rw [← hread rest hrest]
      exact unescape_char hready (@octets_ascii 0x40 (by decide))
        (.inl (List.forall_mem_singleton.mpr rfl)) _

/-! ### Strings of a list -/

/-- The variables where a string of a list begins. -/
structure Begins (s : Unescaping) : Prop where
  inQuotedString : s.inQuotedString = false
  currentValueIsQuoted : s.currentValueIsQuoted = false
  chopLimit : s.chopLimit = 0
  stringResult : s.stringResult = []
  ready : Ready s.fromUtf8

theorem begins_new :
  Begins new.normal
  := ⟨rfl, rfl, rfl, rfl, ⟨rfl, rfl⟩⟩

/-- The variables where a string of a list ends. -/
structure Ends (s s' : Unescaping) (str : QString) : Prop where
  isStringList : s'.isStringList = s.isStringList
  inQuotedString : s'.inQuotedString = false
  stringListResult : s'.stringListResult = s.stringListResult
  ready : Ready s'.fromUtf8
  headerDone : s'.fromUtf8.headerDone = (s.fromUtf8.headerDone || (firstPlain false str).isSome)
  stringResult : s'.stringResult = readString s.fromUtf8.headerDone str
  settled : (if s'.currentValueIsQuoted then s' else s'.chopTrailingSpaces) = s'

/-- What follows a string of a list: nothing, or a comma. -/
def Follows (rest : QByteArray) : Prop :=
  ∀ b, rest.head? = some b → b = 0x2c

theorem drop_blanks {octets : QByteArray} (h : ∀ b, octets.head? = some b → isBlank b = false) :
  octets.drop (octets.takeWhile isBlank).length = octets
  := by
  cases octets with
  | nil => rfl
  | cons b octets =>
    rw [List.takeWhile_cons_of_neg (by simp [h b rfl]), List.length_nil, List.drop_zero]

/-- A string of a list is read. -/
theorem unescape_string {str : QString} (h : QUtf8.paired str = true) {s : Unescaping}
    (hbegins : Begins s) {rest : QByteArray} (hrest : Follows rest) :
  ∃ s', Ends s s' str ∧ s.unescape (iniEscapedString str ++ rest) = s'.unescape rest
  := by
  have hlimit : s.chopLimit = s.stringResult.length := by
    rw [hbegins.chopLimit, hbegins.stringResult]
    rfl
  rcases iniEscapedString_eq str with heq | ⟨heq, hplain, -, hlast⟩
  · obtain ⟨t, ht, hread⟩ := @unescape_text str h s.quoted hbegins.ready hlimit (.inl rfl)
    have hblank : ∀ b, rest.head? = some b → isBlank b = false := by
      intro b hb
      rw [hrest b hb]
      rfl
    refine ⟨{ t with currentValueIsQuoted := true, inQuotedString := false }.normal,
      ⟨ht.isStringList, rfl, ht.stringListResult, ht.ready, ht.headerDone, ?_, rfl⟩, ?_⟩
    · change t.stringResult = _
      rw [ht.stringResult]
      change s.stringResult ++ _ = _
      rw [hbegins.stringResult]
      rfl
    · rw [heq, List.cons_append, List.cons_append, unescape_openingQuote hbegins.inQuotedString,
        List.append_assoc, List.singleton_append, hread (0x22 :: rest) (by rintro b ⟨⟩; rfl),
        unescape_closingQuote ht.inQuotedString, drop_blanks hblank]
  · obtain ⟨t, ht, hread⟩ := unescape_text h hbegins.ready hlimit
      (.inr fun hmem => (hplain _ hmem).2.1 rfl)
    have hdigit : ∀ b, rest.head? = some b → isDigit b = false := by
      intro b hb
      rw [hrest b hb]
      rfl
    have hstr : str.getLast? ≠ some 0x20 := by
      cases hcodec : useCodec str with
      | true =>
        rw [hcodec] at hlast
        exact mt (spelled false h).getLast hlast
      | false =>
        rw [hcodec] at hlast
        exact mt (uncoded false str).getLast hlast
    refine ⟨t, ⟨ht.isStringList, ht.inQuotedString.trans hbegins.inQuotedString,
      ht.stringListResult, ht.ready, ht.headerDone, ?_, ?_⟩, ?_⟩
    · rw [ht.stringResult, hbegins.stringResult]
      rfl
    · rw [chopTrailingSpaces_kept (ht.kept hstr), ite_self]
    · rw [heq, hread rest hdigit]

/-- The text of a string does not begin with a blank. -/
theorem head_iniEscapedString {str : QString} (h : QUtf8.paired str = true) {rest : QByteArray}
    (hrest : Follows rest) :
  ∀ b, (iniEscapedString str ++ rest).head? = some b → isBlank b = false
  := by
  have htab : (escapedText (useCodec str) false none str).head? ≠ some 0x09 := by
    cases hcodec : useCodec str with
    | true =>
      intro hhead
      exact absurd ((spelled false h).printable _ (List.mem_of_mem_head? hhead)) (by decide)
    | false =>
      obtain ⟨str, rfl⟩ := head_of_uncoded hcodec
      exact fun hhead => nomatch hhead
  intro b hb
  rcases iniEscapedString_eq str with heq | ⟨heq, -, hspace, -⟩
  · rw [heq] at hb
    cases hb
    rfl
  · rw [heq] at hb
    cases htext : escapedText (useCodec str) false none str with
    | nil =>
      rw [htext] at hb
      rw [hrest b hb]
      rfl
    | cons c text =>
      rw [htext] at hb hspace htab
      cases hb
      rw [isBlank, decide_eq_false (mt (congrArg some) hspace),
        decide_eq_false (mt (congrArg some) htab)]
      rfl

theorem Ends.unescape_nil {s s' : Unescaping} {str : QString} (h : Ends s s' str) :
  s'.unescape [] = s'.finish
  := by
  rw [unescape, h.settled]

/-- A comma ends a string, and another one begins. -/
theorem Ends.unescape_comma {s s' : Unescaping} {str : QString} (h : Ends s s' str)
    {rest : QByteArray} (hrest : ∀ b, rest.head? = some b → isBlank b = false) :
  ∃ t, Begins t ∧ t.isStringList = true
    ∧ t.stringListResult = (if s.isStringList then s.stringListResult else [])
      ++ [readString s.fromUtf8.headerDone str]
    ∧ t.fromUtf8.headerDone = (s.fromUtf8.headerDone || (firstPlain false str).isSome)
    ∧ s'.unescape (0x2c :: 0x20 :: rest) = t.unescape rest
  := by
  have hend : s'.endString = { s' with
      isStringList := true
      stringListResult := (if s'.isStringList then s'.stringListResult else []) ++ [s'.stringResult]
      stringResult := []
      currentValueIsQuoted := false } := by
    rw [endString, h.settled]
  have hcomma : (decide ((0x2c : UInt8) = 0x2c) && !s'.inQuotedString) = true := by
    rw [h.inQuotedString]
    rfl
  have hdrop : ((0x20 : UInt8) :: rest).drop (((0x20 : UInt8) :: rest).takeWhile isBlank).length
      = rest := by
    rw [List.takeWhile_cons_of_pos (by decide), List.length_cons, List.drop_succ_cons,
      drop_blanks hrest]
  refine ⟨s'.endString.normal, ?_, ?_, ?_, ?_, ?_⟩
  · rw [hend]
    exact ⟨h.inQuotedString, rfl, rfl, rfl, h.ready⟩
  · rw [hend]
    rfl
  · rw [hend, ← h.isStringList, ← h.stringListResult, ← h.stringResult]
    rfl
  · rw [hend, ← h.headerDone]
    rfl
  · rw [unescape.eq_def]
    dsimp only
    rw [if_neg (by decide), if_neg (by decide), if_pos hcomma, hdrop]

end Unescaping

/-! ### Lists -/

/-- What is read of the strings of a list. -/
def readStrings (headerDone : Bool) : List QString → List QString
  | [] => []
  | str :: strs =>
    readString headerDone str :: readStrings (headerDone || (firstPlain false str).isSome) strs

theorem readStrings_done (strs : List QString) :
  readStrings true strs = strs
  := by
  induction strs with
  | nil => rfl
  | cons str strs ih =>
    change str :: readStrings true strs = _
    rw [ih]

theorem dropMark_eq_iff (str : QString) :
  dropMark false str = str ↔ firstPlain false str ≠ some 0xfeff
  := by
  constructor
  · intro h hmark
    have hlength := length_dropMark hmark
    rw [h] at hlength
    exact lt_irrefl _ hlength
  · exact dropMark_eq

/-- A list is read as it was written where its first character that is not escaped is not
U+FEFF. -/
theorem readStrings_eq_iff (strs : List QString) :
  readStrings false strs = strs ↔ strs.findSome? (firstPlain false) ≠ some 0xfeff
  := by
  induction strs with
  | nil => exact iff_of_true rfl (fun h => nomatch h)
  | cons str strs ih =>
    rw [readStrings, List.cons.injEq, List.findSome?_cons]
    change dropMark false str = str ∧ _ ↔ _
    rw [dropMark_eq_iff, Bool.false_or]
    cases firstPlain false str with
    | none => exact (and_iff_right (fun h => nomatch h)).trans ih
    | some ch => exact and_iff_left (readStrings_done strs)

/-- The strings of a list after the first one. -/
def following (strs : List QString) : QByteArray :=
  strs.flatMap fun str => 0x2c :: 0x20 :: iniEscapedString str

theorem following_cons (str : QString) (strs : List QString) :
  following (str :: strs) = 0x2c :: 0x20 :: (iniEscapedString str ++ following strs)
  := rfl

theorem follows_following (strs : List QString) :
  Unescaping.Follows (following strs)
  := by
  cases strs with
  | nil =>
    rintro b ⟨⟩
  | cons str strs =>
    rintro b ⟨⟩
    rfl

theorem iniEscapedStringList_cons (str : QString) (strs : List QString) :
  iniEscapedStringList (str :: strs) = iniEscapedString str ++ following strs
  := by
  change (((str :: strs).map iniEscapedString).intersperse [0x2c, 0x20]).flatten = _
  induction strs generalizing str with
  | nil => rfl
  | cons str' strs ih =>
    change iniEscapedString str ++ ([0x2c, 0x20]
      ++ (((str' :: strs).map iniEscapedString).intersperse [0x2c, 0x20]).flatten) = _
    rw [ih, following_cons]
    rfl

namespace Unescaping

/-- What is read of a list: the induction is on the strings after the first one, with what was
read before them in the variables. -/
theorem unescape_strings {str : QString} {strs : List QString}
    (h : ∀ v ∈ str :: strs, QUtf8.paired v = true) {s : Unescaping} (hbegins : Begins s)
    (hlist : s.isStringList = true ∨ strs ≠ []) :
  ∃ last, s.unescape (iniEscapedString str ++ following strs)
    = (true, last, (if s.isStringList then s.stringListResult else [])
      ++ readStrings s.fromUtf8.headerDone (str :: strs))
  := by
  induction strs generalizing s str with
  | nil =>
    obtain ⟨s', hs', hread⟩ := unescape_string (h str (List.mem_cons_self ..)) hbegins
      (follows_following [])
    have hisList : s.isStringList = true := hlist.resolve_right fun hne => hne rfl
    use s'.stringResult
    rw [hread]
    change s'.unescape [] = _
    rw [hs'.unescape_nil, finish, hs'.isStringList, hisList, if_pos rfl, if_pos rfl,
      hs'.stringListResult, hs'.stringResult]
    rfl
  | cons str' strs ih =>
    have hstrs : ∀ v ∈ str' :: strs, QUtf8.paired v = true :=
      fun v hv => h v (List.mem_cons_of_mem _ hv)
    obtain ⟨s', hs', hread⟩ := unescape_string (h str (List.mem_cons_self ..)) hbegins
      (follows_following (str' :: strs))
    obtain ⟨t, ht, hisList, hresult, hdone, hcomma⟩ := hs'.unescape_comma
      (head_iniEscapedString (hstrs str' (List.mem_cons_self ..)) (follows_following strs))
    obtain ⟨last, hlast⟩ := ih hstrs ht (.inl hisList)
    use last
    rw [hread, following_cons, hcomma, hlast, hisList, if_pos rfl, hresult, hdone,
      List.append_assoc]
    rfl

end Unescaping

/-- What is read of a string. -/
theorem iniUnescapedStringList_iniEscapedString {str : QString} (h : QUtf8.paired str = true) :
  iniUnescapedStringList (iniEscapedString str) = (false, dropMark false str, [])
  := by
  obtain ⟨s', hs', hread⟩ := Unescaping.unescape_string h Unescaping.begins_new
    (follows_following [])
  have hhead := Unescaping.head_iniEscapedString h (follows_following [])
  rw [following, List.flatMap_nil, List.append_nil] at hread hhead
  rw [iniUnescapedStringList, Unescaping.drop_blanks hhead, hread, hs'.unescape_nil,
    Unescaping.finish, hs'.isStringList, hs'.stringResult, hs'.stringListResult]
  rfl

/-- What is read of a list of two or more strings. -/
theorem iniUnescapedStringList_iniEscapedStringList {strs : List QString}
    (hlength : 2 ≤ strs.length) (h : ∀ str ∈ strs, QUtf8.paired str = true) :
  ∃ last, iniUnescapedStringList (iniEscapedStringList strs)
    = (true, last, readStrings false strs)
  := by
  cases strs with
  | nil => cases hlength
  | cons str strs =>
    have hne : strs ≠ [] := by
      rintro rfl
      exact absurd hlength (Nat.not_succ_le_self 1)
    have hhead := Unescaping.head_iniEscapedString (h str (List.mem_cons_self ..))
      (follows_following strs)
    obtain ⟨last, hlast⟩ := Unescaping.unescape_strings h Unescaping.begins_new (.inr hne)
    use last
    rw [iniUnescapedStringList, iniEscapedStringList_cons, Unescaping.drop_blanks hhead, hlast]
    rfl

/-- The texts of lists of two or more strings, and of single strings, are read back where the first
character that is not escaped is not U+FEFF. -/
theorem iniUnescapedStringList_iff (strs : List QString) (str : QString) :
  (2 ≤ strs.length → (∀ str ∈ strs, QUtf8.paired str = true) →
    ((iniUnescapedStringList (iniEscapedStringList strs)).1 = true
        ∧ (iniUnescapedStringList (iniEscapedStringList strs)).2.2 = strs
      ↔ strs.findSome? (firstPlain false) ≠ some 0xfeff))
    ∧ (QUtf8.paired str = true →
      ((iniUnescapedStringList (iniEscapedString str)).1 = false
          ∧ (iniUnescapedStringList (iniEscapedString str)).2.1 = str
        ↔ firstPlain false str ≠ some 0xfeff))
  := by
  constructor
  · intro h_length h
    obtain ⟨last, h_read⟩ := iniUnescapedStringList_iniEscapedStringList h_length h
    rw [h_read]
    exact (and_iff_right rfl).trans (readStrings_eq_iff strs)
  · intro h
    rw [iniUnescapedStringList_iniEscapedString h]
    exact (and_iff_right rfl).trans (dropMark_eq_iff str)

/-- Blanks, a comma and digits after U+0001. -/
theorem iniUnescapedStringList_blanks :
  (iniUnescapedStringList (iniEscapedStringList [[0x20, 0x2c], [], [0x01, 0x41]])).2.2
      = [[0x20, 0x2c], [], [0x01, 0x41]]
    ∧ (iniUnescapedStringList (iniEscapedString [0x09, 0x22])).2.1 = [0x09, 0x22]
  := by
  obtain ⟨h_list, h_single⟩ := iniUnescapedStringList_iff [[0x20, 0x2c], [], [0x01, 0x41]]
    [0x09, 0x22]
  exact ⟨((h_list (by decide) (by decide)).mpr (by decide)).2,
    ((h_single (by decide)).mpr (by decide)).2⟩

/-- The first of two strings, and a single string, that begin with U+FEFF. -/
theorem iniUnescapedStringList_mark :
  (iniUnescapedStringList (iniEscapedStringList [[0xfeff, 0x61], [0x62]])).2.2
      ≠ [[0xfeff, 0x61], [0x62]]
    ∧ (iniUnescapedStringList (iniEscapedString [0x09, 0xfeff])).2.1 ≠ [0x09, 0xfeff]
  := by
  have h_paired : ∀ str ∈ [[0xfeff, 0x61], [0x62]], QUtf8.paired str = true := by
    decide
  obtain ⟨last, h_read⟩ := iniUnescapedStringList_iniEscapedStringList (by decide) h_paired
  rw [h_read, iniUnescapedStringList_iniEscapedString (by decide)]
  dsimp only
  decide

end QSettings
