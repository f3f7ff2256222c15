import BobUI.Corelib.Io.SettingsValues

/-!
# The lines of an INI file

`readIniLine` finds the lines that `writeIniFile` writes, and the '=' between a key and its value.
-/

namespace QSettings

/-! ### Octets that do not end a line -/

/-- Octets that the outer loop of `readIniLine` passes over, in quotes or not. -/
inductive Passes (q : Bool) : QByteArray → Prop
  | nil : Passes q []
  | plain {b : UInt8} {w : QByteArray}
    (h : isSpecial b = false ∨ q = true ∧ (b = 0x3b ∨ b = 0x3d)) (h_w : Passes q w) :
    Passes q (b :: w)
  | escape {b : UInt8} {w : QByteArray} (h : Unescaping.isNewline b = false) (h_w : Passes q w) :
    Passes q (0x5c :: b :: w)

namespace Passes

variable {q : Bool} {w v : QByteArray}

theorem append (hw : Passes q w) (hv : Passes q v) :
  Passes q (w ++ v)
  := by
  induction hw with
  | nil => exact hv
  | plain h _ ih => exact .plain h ih
  | escape h _ ih => exact .escape h ih

theorem of_forall (h : ∀ b ∈ w, isSpecial b = false) :
  Passes q w
  := by
  induction w with
  | nil => exact .nil
  | cons b w ih =>
    apply Passes.plain (.inl (h b List.mem_cons_self))
    exact ih fun b hb => h b (List.mem_cons_of_mem _ hb)

end Passes

variable {b : UInt8} {rest w : QByteArray} {key : QString}

theorem scanLine_plain (h : isSpecial b = false) (i ls : ℕ) (e : Option ℕ) (q : Bool)
    (rest : QByteArray) :
  scanLine i ls e q (b :: rest) = scanLine (i + 1) ls e q rest
  := by
  conv_lhs => rw [scanLine.eq_def]
  dsimp only
  rw [h]
  rfl

theorem scanLine_escape (h : Unescaping.isNewline b = false) (i ls : ℕ) (e : Option ℕ) (q : Bool)
    (hrest : rest ≠ []) :
  scanLine i ls e q (0x5c :: b :: rest) = scanLine (i + 2) ls e q rest
  := by
  obtain ⟨b2, rest, rfl⟩ := List.exists_cons_of_ne_nil hrest
  rw [Unescaping.isNewline, Bool.or_eq_false_iff, decide_eq_false_iff_not,
    decide_eq_false_iff_not] at h
  conv_lhs => rw [scanLine.eq_def]
  dsimp only
  rw [decide_eq_false h.1, decide_eq_false h.2]
  rfl

theorem scanLine_quote (i ls : ℕ) (e : Option ℕ) (q : Bool) (rest : QByteArray) :
  scanLine i ls e q (0x22 :: rest) = scanLine (i + 1) ls e (!q) rest
  := by
  conv_lhs => rw [scanLine.eq_def]
  rfl

theorem scanLine_equals (i ls : ℕ) (e : Option ℕ) (q : Bool) (rest : QByteArray) :
  scanLine i ls e q (0x3d :: rest) = scanLine (i + 1) ls (firstEquals i q e) q rest
  := by
  conv_lhs => rw [scanLine.eq_def]
  rfl

/-- A ';' in quotes is no comment. -/
theorem scanLine_semicolon {i ls : ℕ} (h : ls < i) (e : Option ℕ) (rest : QByteArray) :
  scanLine i ls e true (0x3b :: rest) = scanLine (i + 1) ls e true rest
  := by
  conv_lhs => rw [scanLine.eq_def]
  dsimp only
  rw [if_neg (by decide), if_neg (by decide), if_neg (by decide), if_neg (by decide),
    if_neg (by decide), if_neg (by omega)]
  rfl

theorem scanLine_newline {i ls : ℕ} (h : i ≠ ls) (e : Option ℕ) (rest : QByteArray) :
  scanLine i ls e false (0x0a :: rest) = ⟨i, ls, e⟩
  := by
  conv_lhs => rw [scanLine.eq_def]
  dsimp only
  rw [if_neg (by decide), if_neg (by decide), if_pos (by decide), if_neg h]
  rfl

/-- Octets that pass are passed over. -/
theorem scanLine_passes {q : Bool} (h : Passes q w) {i ls : ℕ} (hi : q = true → ls < i)
    (e : Option ℕ) (hrest : rest ≠ []) :
  scanLine i ls e q (w ++ rest) = scanLine (i + w.length) ls e q rest
  := by
  induction h generalizing i with
  | nil => rfl
  | @plain b w hb hw ih =>
    have hnext : scanLine i ls e q (b :: (w ++ rest)) = scanLine (i + 1) ls e q (w ++ rest) := by
      rcases hb with hb | ⟨rfl, rfl | rfl⟩
      · exact scanLine_plain hb i ls e q _
      · exact scanLine_semicolon (hi rfl) e _
      · exact scanLine_equals i ls e true _
    rw [List.cons_append, hnext, ih (by
      intro hq
      have hlt := hi hq
      omega), List.length_cons, Nat.add_right_comm i 1, Nat.add_assoc]
  | @escape b w hb hw ih =>
    have hne : w ++ rest ≠ [] := by
      intro hnil
      exact hrest (List.append_eq_nil_iff.mp hnil).2
    rw [List.cons_append, List.cons_append, scanLine_escape hb i ls e q hne, ih (by
      intro hq
      have hlt := hi hq
      omega), List.length_cons, List.length_cons]
    congr 1
    omega

/-! ### The texts of keys and values -/

/-- The octets of which the text of a key without '/' is made. -/
def keyOctet (b : UInt8) : Bool :=
  isAsciiLetterOrNumber b.toUInt16 || b = 0x5f || b = 0x2d || b = 0x2e || b = 0x25

theorem keyOctet_ordinary (h : keyOctet b = true) :
  isSpecial b = false ∧ isSpace b = false ∧ QByteArray.ascii_isspace b = false ∧ b ≠ openBracket
    ∧ b ≠ closeBracket ∧ b ≠ 0x3b ∧ Unescaping.isNewline b = false
  := by
  have hall : ∀ b : UInt8, keyOctet b = true → isSpecial b = false ∧ isSpace b = false
      ∧ QByteArray.ascii_isspace b = false ∧ b ≠ openBracket ∧ b ≠ closeBracket ∧ b ≠ 0x3b
      ∧ Unescaping.isNewline b = false := by
    apply QUtf8.forall_octet
    set_option maxRecDepth 10000 in
    decide
  exact hall b h

theorem keyOctet_toHexUpper (value : ℕ) :
  keyOctet (toHexUpper value) = true
  := by
  have hall : ∀ digit < 16,
      keyOctet (UInt8.ofNat (if digit < 10 then 0x30 + digit else 0x41 + digit - 10)) = true := by
    decide
  exact hall _ (Nat.mod_lt _ (by decide))

theorem keyOctet_escapedKeyChar {ch : UInt16} (h : ch ≠ 0x2f) :
  ∃ b tail, escapedKeyChar ch = b :: tail ∧ ∀ c ∈ b :: tail, keyOctet c = true
  := by
  have hall : ∀ b : UInt8, (isAsciiLetterOrNumber b.toUInt16 || b.toUInt16 = 0x5f
      || b.toUInt16 = 0x2d || b.toUInt16 = 0x2e) = true → keyOctet b = true := by
    apply QUtf8.forall_octet
    set_option maxRecDepth 10000 in
    decide
  rw [escapedKeyChar, if_neg h]
  split
  next hplain =>
    have hlt := (isAsciiLetterOrNumber_bounds hplain).1
    refine ⟨_, _, rfl, ?_⟩
    rw [List.forall_mem_singleton]
    apply hall
    rwa [toUInt16_toUInt8 (by omega)]
  next =>
    split
    next =>
      refine ⟨_, _, rfl, ?_⟩
      simp only [List.forall_mem_cons, keyOctet_toHexUpper, List.not_mem_nil, false_implies,
        implies_true, and_true]
      decide
    next =>
      refine ⟨_, _, rfl, ?_⟩
      simp only [List.forall_mem_cons, keyOctet_toHexUpper, List.not_mem_nil, false_implies,
        implies_true, and_true]
      decide

/-- The text of a key without '/'. -/
theorem keyOctet_iniEscapedKey (h : 0x2f ∉ key) :
  ∀ b ∈ iniEscapedKey key, keyOctet b = true
  := by
  intro b hb
  obtain ⟨ch, hch, hb⟩ := List.mem_flatMap.mp hb
  obtain ⟨c, tail, heq, hoctets⟩ := keyOctet_escapedKeyChar (show ch ≠ 0x2f by
    rintro rfl
    exact h hch)
  rw [heq] at hb
  exact hoctets b hb

theorem passes_of_keyOctets (h : ∀ b ∈ w, keyOctet b = true) :
  Passes false w
  := Passes.of_forall fun b hb => (keyOctet_ordinary (h b hb)).1

/-- The text of a key passes, unless the backslash of a '/' at its end takes what follows it. -/
theorem passes_iniEscapedKey (h : key.getLast? ≠ some 0x2f) :
  Passes false (iniEscapedKey key)
  := by
  induction hlength : key.length using Nat.strong_induction_on generalizing key with
  | h n ih =>
    subst hlength
    match key with
    | [] => exact .nil
    | ch :: rest =>
      have hrest : rest.getLast? ≠ some 0x2f := by
        intro hlast
        apply h
        rw [List.getLast?_cons, hlast]
        rfl
      by_cases hch : ch = 0x2f
      · subst hch
        match rest with
        | [] => exact absurd rfl h
        | ch2 :: rest =>
          have hrest2 : rest.getLast? ≠ some 0x2f := by
            intro hlast
            apply hrest
            rw [List.getLast?_cons, hlast]
            rfl
          have htail := ih rest.length (by
            simp only [List.length_cons]
            omega) hrest2 rfl
          change Passes false (0x5c :: (escapedKeyChar ch2 ++ iniEscapedKey rest))
          by_cases hch2 : ch2 = 0x2f
          · subst hch2
            exact .escape (by decide) htail
          · obtain ⟨b, tail, heq, hoctets⟩ := keyOctet_escapedKeyChar hch2
            rw [heq]
            apply Passes.escape (keyOctet_ordinary (hoctets b List.mem_cons_self)).2.2.2.2.2.2
            apply Passes.append _ htail
            exact passes_of_keyOctets fun c hc => hoctets c (List.mem_cons_of_mem _ hc)
      · obtain ⟨b, tail, heq, hoctets⟩ := keyOctet_escapedKeyChar hch
        change Passes false (escapedKeyChar ch ++ iniEscapedKey rest)
        rw [heq]
        apply Passes.append (passes_of_keyOctets hoctets)
        exact ih rest.length (Nat.lt_succ_self _) hrest rfl

theorem Escape.passes {ch : UInt16} {octets : QByteArray} {next : Bool} (h : Escape ch octets next)
    (q : Bool) :
  Passes q octets
  := by
  cases h with
  | @code code hcode =>
    have hall : ∀ b : UInt8, (escapeCode b).isSome = true → Unescaping.isNewline b = false := by
      apply QUtf8.forall_octet
      set_option maxRecDepth 10000 in
      decide
    exact .escape (hall code (by rw [hcode]; rfl)) .nil
  | number hne hdigits =>
    have hall : ∀ b : UInt8, isDigit b = true → isSpecial b = false := by
      apply QUtf8.forall_octet
      set_option maxRecDepth 10000 in
      decide
    exact .escape (by decide) (Passes.of_forall fun d hd => hall d (hdigits d hd))
  | null => exact .escape (by decide) .nil

theorem isSpecial_high (h : 0x80 ≤ b) :
  isSpecial b = false
  := by
  have hall : ∀ b : UInt8, 0x80 ≤ b → isSpecial b = false := by
    apply QUtf8.forall_octet
    set_option maxRecDepth 10000 in
    decide
  exact hall b h

/-- The text of a string passes in quotes, and outside of them where it has no ';' and no '='. -/
theorem Spelled.passes {next q : Bool} {str : QString} {text : QByteArray}
    (h : Spelled next str text) (hstr : q = true ∨ ∀ ch ∈ str, ch ≠ 0x3b ∧ ch ≠ 0x3d) :
  Passes q text
  := by
  induction h with
  | nil => exact .nil
  | escape _ hoctets _ ih =>
    apply Passes.append (hoctets.passes q)
    exact ih (hstr.imp_right fun hall ch hch => hall ch (List.mem_cons_of_mem _ hch))
  | @ascii next ch str text hch hascii hoctets h ih =>
    have hspecial : isSpecial ch.toUInt8 = false ∨ ch.toUInt8 = 0x3b ∨ ch.toUInt8 = 0x3d := by
      apply plain_ascii (p := fun b => isSpecial b = false ∨ b = 0x3b ∨ b = 0x3d) _ hascii hch
      apply QUtf8.forall_octet
      set_option maxRecDepth 10000 in
      decide
    apply Passes.plain
    · rcases hstr with hq | hall
      · exact hspecial.imp_right fun hb => ⟨hq, hb⟩
      · left
        obtain ⟨hsemicolon, hequals⟩ := hall ch List.mem_cons_self
        apply hspecial.resolve_right
        rintro (hb | hb)
        · apply hsemicolon
          rw [← toUInt16_ascii hascii, hb]
          rfl
        · apply hequals
          rw [← toUInt16_ascii hascii, hb]
          rfl
    · exact ih (hstr.imp_right fun hall ch hch => hall ch (List.mem_cons_of_mem _ hch))
  | single _ _ hhigh _ ih =>
    apply Passes.append (Passes.of_forall fun b hb => isSpecial_high (hhigh b hb))
    exact ih (hstr.imp_right fun hall ch hch => hall ch (List.mem_cons_of_mem _ hch))
  | pair _ _ _ hhigh _ ih =>
    apply Passes.append (Passes.of_forall fun b hb => isSpecial_high (hhigh b hb))
    exact ih (hstr.imp_right fun hall ch hch =>
      hall ch (List.mem_cons_of_mem _ (List.mem_cons_of_mem _ hch)))

/-- The text of a value: one without a quote that passes, or one in quotes. -/
inductive ValueText : QByteArray → Prop
  | bare {w : QByteArray} (h : Passes false w) : ValueText w
  | quoted {w : QByteArray} (h : Passes true w) : ValueText (0x22 :: w ++ [0x22])

theorem valueText_writtenValue (stream : List QVariant → QByteArray) {v : QString}
    (h : QUtf8.paired v = true) :
  ValueText (writtenValue stream (.single (.string v)))
  := by
  have hspelled := spelled false (paired_variantToString h)
  have hcases := iniEscapedString_eq (variantToString (.string v))
  rw [useCodec_variantToString] at hcases
  change ValueText (iniEscapedString (variantToString (.string v)))
  rcases hcases with heq | ⟨heq, hchars, -⟩
  · rw [heq]
    exact .quoted (hspelled.passes (.inl rfl))
  · rw [heq]
    exact .bare (hspelled.passes (.inr fun ch hch => ⟨(hchars ch hch).1, (hchars ch hch).2.2⟩))

theorem scanLine_value (h : ValueText w) {i ls : ℕ} (hi : ls < i) (e : Option ℕ)
    (hrest : rest ≠ []) :
  scanLine i ls e false (w ++ rest) = scanLine (i + w.length) ls e false rest
  := by
  cases h with
  | bare h => exact scanLine_passes h (fun hq => nomatch hq) e hrest
  | @quoted w h =>
    rw [List.append_assoc, List.cons_append, scanLine_quote, Bool.not_false,
      List.singleton_append, scanLine_passes h (fun _ => by omega) e (List.cons_ne_nil _ _),
      scanLine_quote, List.length_append, List.length_cons]
    congr 1
    rw [List.length_singleton]
    omega

/-! ### Lines -/

/-- A line without its newline, and the place of its first '='. -/
structure TextLine where
  text : QByteArray
  equalsPos : Option ℕ

namespace TextLine

/-- A line of a section. -/
def entry (key : QString) (value : QByteArray) : TextLine :=
  ⟨iniEscapedKey key ++ 0x3d :: value, some (iniEscapedKey key).length⟩

/-- A line with the name of a section. -/
def header (name : QString) : TextLine :=
  ⟨realSection name, none⟩

/-- A line is found where it stands. -/
structure Readable (l : TextLine) : Prop where
  ne_nil : l.text ≠ []
  read : ∀ pos more, readIniLine pos (l.text ++ 0x0a :: more)
    = ⟨pos + l.text.length, pos, l.equalsPos.map (pos + ·)⟩

end TextLine

/-- A line that does not begin with a space is read from its first octet on. -/
theorem readIniLine_of_head (h : isSpace b = false) (pos : ℕ) (rest : QByteArray) :
  readIniLine pos (b :: rest) = scanLine pos pos none false (b :: rest)
  := by
  rw [readIniLine, List.takeWhile_cons_of_neg (by rw [h]; exact Bool.false_ne_true)]
  rfl

theorem readable_entry {ch : UInt16} (hhead : ch ≠ 0x2f)
    (hlast : (ch :: key).getLast? ≠ some 0x2f) {value : QByteArray} (hvalue : ValueText value) :
  (TextLine.entry (ch :: key) value).Readable
  := by
  obtain ⟨b, tail, heq, hoctets⟩ := keyOctet_escapedKeyChar hhead
  have hb := keyOctet_ordinary (hoctets b List.mem_cons_self)
  have hkey : iniEscapedKey (ch :: key) = b :: (tail ++ iniEscapedKey key) := by
    change escapedKeyChar ch ++ iniEscapedKey key = _
    rw [heq]
    rfl
  constructor
  · rw [TextLine.entry, hkey]
    exact List.cons_ne_nil _ _
  · intro pos more
    have hstart : readIniLine pos ((TextLine.entry (ch :: key) value).text ++ 0x0a :: more)
        = scanLine pos pos none false
          (iniEscapedKey (ch :: key) ++ 0x3d :: (value ++ 0x0a :: more)) := by
      rw [TextLine.entry, List.append_assoc, List.cons_append, hkey]
      exact readIniLine_of_head hb.2.1 pos _
    have hpos : 0 < (iniEscapedKey (ch :: key)).length := by
      rw [hkey]
      exact Nat.succ_pos _
    rw [hstart, scanLine_passes (passes_iniEscapedKey hlast) (fun hq => nomatch hq) none
      (List.cons_ne_nil _ _), scanLine_equals, scanLine_value hvalue (by omega) _
      (List.cons_ne_nil _ _), scanLine_newline (by omega)]
    rw [TextLine.entry, List.length_append, List.length_cons]
    congr 1
    omega

/-- What stands between the brackets. -/
theorem realSection_eq (name : QString) :
  ∃ w, realSection name = openBracket :: w ++ [closeBracket]
    ∧ (w = 0x47 :: general.tail ∧ name = []
      ∨ w = 0x25 :: 0x47 :: general.tail ∧ equalsIgnoringCase (iniEscapedKey name) general = true
      ∨ w = iniEscapedKey name ∧ name ≠ []
        ∧ equalsIgnoringCase (iniEscapedKey name) general = false)
  := by
  have hnil : iniEscapedKey name = [] → name = [] := by
    intro h
    rw [← iniUnescapedKey_iniEscapedKey name, h]
    have hempty : fromUtf8 [] = [] := rfl
    rw [iniUnescapedKey, hempty, unescapedKey]
  rw [realSection]
  split
  next h => exact ⟨_, rfl, .inl ⟨rfl, hnil h⟩⟩
  next h =>
    split
    next hgeneral => exact ⟨_, rfl, .inr (.inl ⟨rfl, hgeneral⟩)⟩
    next hgeneral =>
      refine ⟨_, rfl, .inr (.inr ⟨rfl, ?_, Bool.not_eq_true _ ▸ hgeneral⟩)⟩
      rintro rfl
      exact h rfl

/-- A name without '/'. -/
theorem realSection_octets {name : QString} (h : 0x2f ∉ name) :
  ∃ w, realSection name = openBracket :: w ++ [closeBracket] ∧ ∀ b ∈ w, keyOctet b = true
  := by
  obtain ⟨w, heq, hw⟩ := realSection_eq name
  use w, heq
  rcases hw with ⟨rfl, -⟩ | ⟨rfl, -⟩ | ⟨rfl, -⟩
  · apply List.all_eq_true.mp (by decide)
  · apply List.all_eq_true.mp (by decide)
  · exact keyOctet_iniEscapedKey h

theorem readable_header {name : QString} (h : 0x2f ∉ name) :
  (TextLine.header name).Readable
  := by
  obtain ⟨w, heq, hw⟩ := realSection_octets h
  constructor
  · rw [TextLine.header, heq]
    exact List.cons_ne_nil _ _
  · intro pos more
    have hpasses : Passes false (realSection name) := by
      rw [heq]
      apply Passes.plain (.inl (by decide))
      exact (passes_of_keyOctets hw).append (.plain (.inl (by decide)) .nil)
    have hstart : readIniLine pos (realSection name ++ 0x0a :: more)
        = scanLine pos pos none false (realSection name ++ 0x0a :: more) := by
      rw [heq]
      exact readIniLine_of_head (show isSpace openBracket = false by decide) pos _
    have hpos : 0 < (realSection name).length := by
      rw [heq]
      exact Nat.succ_pos _
    rw [TextLine.header, hstart, scanLine_passes hpasses (fun hq => nomatch hq) none
      (List.cons_ne_nil _ _), scanLine_newline (by omega)]
    rfl

end QSettings
