import BobUI.Corelib.Io.SettingsLines

/-!
# The sections of an INI file

`readIniFile` collects the lines of every section, and `readIniSection` reads the keys and values in
them.
-/

namespace QSettings

/-! ### Lines one after the other -/

/-- Lines with their newlines; `none` is a blank one. -/
def unlines (ls : List (Option TextLine)) : QByteArray :=
  ls.flatMap fun l => (l.elim [] TextLine.text) ++ [0x0a]

theorem unlines_none (ls : List (Option TextLine)) :
  unlines (none :: ls) = 0x0a :: unlines ls
  := rfl

theorem unlines_some (l : TextLine) (ls : List (Option TextLine)) :
  unlines (some l :: ls) = l.text ++ 0x0a :: unlines ls
  := by
  change (l.text ++ [0x0a]) ++ unlines ls = _
  rw [List.append_assoc]
  rfl

theorem unlines_append (ls ls' : List (Option TextLine)) :
  unlines (ls ++ ls') = unlines ls ++ unlines ls'
  := List.flatMap_append

/-- What `readIniLine` finds in lines that stand at a place of the data. -/
def foundLines : ℕ → List (Option TextLine) → List IniLine
  | _, [] => []
  | pos, none :: ls => foundLines (pos + 1) ls
  | pos, some l :: ls =>
    ⟨pos + l.text.length, pos, l.equalsPos.map (pos + ·)⟩ :: foundLines (pos + l.text.length + 1) ls

theorem foundLines_append (pos : ℕ) (ls ls' : List (Option TextLine)) :
  foundLines pos (ls ++ ls') = foundLines pos ls ++ foundLines (pos + (unlines ls).length) ls'
  := by
  induction ls generalizing pos with
  | nil => rfl
  | cons l ls ih =>
    cases l with
    | none =>
      rw [List.cons_append, foundLines, ih, unlines_none, List.length_cons, foundLines]
      congr 2
      omega
    | some l =>
      rw [List.cons_append, foundLines, ih, unlines_some, List.length_append, List.length_cons,
        foundLines, List.cons_append]
      congr 3
      omega

theorem iniLines_nil (pos : ℕ) :
  iniLines pos [] = ([], ⟨pos, pos, none⟩)
  := by
  have hline : readIniLine pos [] = ⟨pos, pos, none⟩ := by
    rw [readIniLine, scanLine.eq_def]
    rfl
  rw [iniLines.eq_def, hline]
  exact if_neg (show ¬0 < pos - pos by omega)

/-- A newline in front of a line is skipped. -/
theorem iniLines_newline (pos : ℕ) (rest : QByteArray) :
  iniLines pos (0x0a :: rest) = iniLines (pos + 1) rest
  := by
  have hline : readIniLine pos (0x0a :: rest) = readIniLine (pos + 1) rest := by
    rw [readIniLine, List.takeWhile_cons_of_pos (by decide), readIniLine, List.length_cons,
      List.drop_succ_cons]
    congr 1
    · omega
    · omega
  have hle : pos + 1 ≤ (readIniLine (pos + 1) rest).dataPos := by
    have hbounds := scanLine_bounds (pos + 1 + (rest.takeWhile isSpace).length)
      (pos + 1 + (rest.takeWhile isSpace).length) none false
      (rest.drop (rest.takeWhile isSpace).length)
    rw [readIniLine]
    omega
  rw [iniLines.eq_def, iniLines.eq_def (pos + 1), hline]
  dsimp only
  rw [show (readIniLine (pos + 1) rest).dataPos - pos
      = (readIniLine (pos + 1) rest).dataPos - (pos + 1) + 1 by omega, List.drop_succ_cons]

variable {ls : List (Option TextLine)} {P : QString → QString × Value → Prop}

theorem iniLines_unlines (h : ∀ l, some l ∈ ls → l.Readable) (pos : ℕ) :
  iniLines pos (unlines ls)
    = (foundLines pos ls, ⟨pos + (unlines ls).length, pos + (unlines ls).length, none⟩)
  := by
  induction ls generalizing pos with
  | nil => exact iniLines_nil pos
  | cons l ls ih =>
    have hls := ih fun l hl => h l (List.mem_cons_of_mem _ hl)
    cases l with
    | none =>
      rw [unlines_none, iniLines_newline, hls, List.length_cons, foundLines]
      congr 2
      · omega
      · omega
    | some l =>
      have hl := h l List.mem_cons_self
      have hpos := List.length_pos_iff.mpr hl.ne_nil
      have hlen : 0 < (IniLine.mk (pos + l.text.length) pos
          (l.equalsPos.map (pos + ·))).lineLen := by
        change 0 < pos + l.text.length - pos
        omega
      have hend : pos + l.text.length + 1 + (unlines ls).length
          = pos + (l.text.length + ((unlines ls).length + 1)) := by
        omega
      rw [unlines_some, iniLines.eq_def, hl.read]
      dsimp only
      rw [if_pos hlen, Nat.add_sub_cancel_left, List.drop_left, iniLines_newline, hls, hend,
        List.length_append, List.length_cons, foundLines]

/-- The octets of a line that stands behind others. -/
theorem text_found (before after : QByteArray) (l : TextLine) (e : Option ℕ) :
  IniLine.text ⟨before.length + l.text.length, before.length, e⟩ (before ++ (l.text ++ after))
    = l.text
  := by
  rw [IniLine.text, IniLine.lineLen, Nat.add_sub_cancel_left, List.drop_left, List.take_left]

/-! ### Reading a section -/

/-- The key and the value in a line. -/
def TextLine.readEntry (iniSection : QString) (l : TextLine) : Option (QString × Value) :=
  l.equalsPos.map fun equalsPos =>
    (iniSection ++ iniUnescapedKey (QByteArray.trimmed (l.text.take equalsPos)),
      readValue (l.text.drop (equalsPos + 1)))

/-- The keys and values in lines. -/
def readEntries (iniSection : QString) (ls : List (Option TextLine)) : List (QString × Value) :=
  ls.filterMap fun l => l.bind (TextLine.readEntry iniSection)

theorem readEntry_found (iniSection : QString) (before after : QByteArray) (l : TextLine)
    {equalsPos : ℕ} (h : l.equalsPos = some equalsPos) (settings : ParsedSettingsMap × Bool) :
  readEntry iniSection (before ++ (l.text ++ after)) settings
      ⟨before.length + l.text.length, before.length, l.equalsPos.map (before.length + ·)⟩
    = (settings.1.insert
        (iniSection ++ iniUnescapedKey (QByteArray.trimmed (l.text.take equalsPos)))
        (readValue (l.text.drop (equalsPos + 1))), settings.2)
  := by
  rw [readEntry, text_found, h]
  dsimp only [Option.map_some]
  rw [Nat.add_sub_cancel_left]

theorem readEntries_cons (iniSection : QString) {l : TextLine} {e : QString × Value}
    (h : l.readEntry iniSection = some e) (ls : List (Option TextLine)) :
  readEntries iniSection (some l :: ls) = e :: readEntries iniSection ls
  := List.filterMap_cons_some h

/-- A line of a section has a key. -/
def Entries (ls : List (Option TextLine)) : Prop :=
  ∀ l, some l ∈ ls → l.Readable ∧ l.equalsPos.isSome = true

theorem foldl_readEntry (iniSection : QString) (h : Entries ls) (before after : QByteArray)
    (settings : ParsedSettingsMap × Bool) :
  (foundLines before.length ls).foldl (readEntry iniSection (before ++ (unlines ls ++ after)))
      settings
    = ((readEntries iniSection ls).foldl (fun m e => m.insert e.1 e.2) settings.1, settings.2)
  := by
  induction ls generalizing before settings with
  | nil => rfl
  | cons l ls ih =>
    have hls : Entries ls := fun l hl => h l (List.mem_cons_of_mem _ hl)
    cases l with
    | none =>
      have hnext := ih hls (before ++ [0x0a]) settings
      rw [List.length_append, List.length_singleton, List.append_assoc] at hnext
      exact hnext
    | some l =>
      obtain ⟨equalsPos, hequals⟩ := Option.isSome_iff_exists.mp (h l List.mem_cons_self).2
      have hnext := ih hls (before ++ (l.text ++ [0x0a])) (settings.1.insert
        (iniSection ++ iniUnescapedKey (QByteArray.trimmed (l.text.take equalsPos)))
        (readValue (l.text.drop (equalsPos + 1))), settings.2)
      rw [foundLines, List.foldl_cons, unlines_some, List.append_assoc,
        readEntry_found iniSection before _ l hequals]
      rw [List.length_append, List.length_append, List.length_singleton, List.append_assoc,
        List.append_assoc, List.singleton_append, ← Nat.add_assoc] at hnext
      have hentry : l.readEntry iniSection
          = some (iniSection ++ iniUnescapedKey (QByteArray.trimmed (l.text.take equalsPos)),
            readValue (l.text.drop (equalsPos + 1))) := by
        rw [TextLine.readEntry, hequals, Option.map_some]
      rw [List.cons_append, hnext, readEntries_cons iniSection hentry, List.foldl_cons]

/-- Reading a section inserts the keys and values in its lines. -/
theorem readIniSection_unlines (iniSection : QString) (h : Entries ls)
    (settingsMap : ParsedSettingsMap) :
  readIniSection iniSection (unlines ls) settingsMap
    = ((readEntries iniSection ls).foldl (fun m e => m.insert e.1 e.2) settingsMap, true)
  := by
  have hfold := foldl_readEntry iniSection h [] [] (settingsMap, true)
  rw [List.append_nil, List.nil_append] at hfold
  rw [readIniSection, iniLines_unlines fun l hl => (h l hl).1]
  exact hfold

/-! ### The names of sections -/

/-- What `readIniFile` makes of the line that `writeIniFile` writes for a section. -/
def readName (name : QString) : QString :=
  if name = [] then []
  else if equalsIgnoringCase (iniEscapedKey name) general then latin1 (0x47 :: general.tail) ++ [0x2f]
  else name ++ [0x2f]

theorem trimmed_keyOctets {w : QByteArray} (h : ∀ b ∈ w, keyOctet b = true) :
  QByteArray.trimmed w = w
  := by
  have htrimmed := @QByteArray.trimmed_append w [] [] (by simp) (by
    intro b hb
    rw [(keyOctet_ordinary (h b hb)).2.2.1]
    exact Bool.false_ne_true) (by simp)
  rwa [List.nil_append, List.append_nil] at htrimmed

/-- The text of a key is not that of a section `General` with a '%' in front. -/
theorem iniEscapedKey_ne_percent (key : QString) :
  equalsIgnoringCase (iniEscapedKey key) (0x25 :: general) = false
  := by
  rw [equalsIgnoringCase, decide_eq_false_iff_not]
  intro h
  cases key with
  | nil => cases h
  | cons ch rest =>
    have hplain : ∀ b : UInt8, (isAsciiLetterOrNumber b.toUInt16 || b.toUInt16 = 0x5f
        || b.toUInt16 = 0x2d || b.toUInt16 = 0x2e) = true → toAsciiLower b ≠ 0x25 := by
      apply QUtf8.forall_octet
      set_option maxRecDepth 10000 in
      decide
    have hdigit : ∀ value, toAsciiLower (toHexUpper value) ≠ 0x67 := by
      intro value
      have hall : ∀ digit < 16, toAsciiLower
          (UInt8.ofNat (if digit < 10 then 0x30 + digit else 0x41 + digit - 10)) ≠ 0x67 := by
        decide
      exact hall _ (Nat.mod_lt _ (by decide))
    change (escapedKeyChar ch ++ iniEscapedKey rest).map toAsciiLower = _ at h
    rw [escapedKeyChar] at h
    split at h
    next => cases h
    next =>
      split at h
      next hch =>
        have hlt := (isAsciiLetterOrNumber_bounds hch).1
        apply hplain ch.toUInt8
        · rwa [toUInt16_toUInt8 (by omega)]
        · exact (List.cons.inj h).1
      next =>
        split at h
        next => exact hdigit _ (List.cons.inj (List.cons.inj h).2).1
        next => cases (List.cons.inj (List.cons.inj h).2).1

/-- The name that is read in the line of a section. -/
theorem sectionName_header {name : QString} (h : 0x2f ∉ name) :
  FileReading.sectionName (QByteArray.trimmed
      (((TextLine.header name).text.takeWhile fun ch => ch ≠ closeBracket).drop 1))
    = readName name
  := by
  obtain ⟨w, heq, hw⟩ := realSection_eq name
  have hoctets : ∀ b ∈ w, keyOctet b = true := by
    rcases hw with ⟨rfl, -⟩ | ⟨rfl, -⟩ | ⟨rfl, -⟩
    · apply List.all_eq_true.mp (by decide)
    · apply List.all_eq_true.mp (by decide)
    · exact keyOctet_iniEscapedKey h
  have hbetween : (((TextLine.header name).text.takeWhile fun ch => decide (ch ≠ closeBracket)).drop 1)
      = w := by
    change ((realSection name).takeWhile _).drop 1 = w
    rw [heq, List.cons_append, List.takeWhile_cons_of_pos (by decide), List.drop_succ_cons,
      List.drop_zero, List.takeWhile_append_of_pos, List.takeWhile_cons_of_neg (by decide),
      List.append_nil]
    intro b hb
    exact decide_eq_true (keyOctet_ordinary (hoctets b hb)).2.2.2.2.1
  rw [hbetween, trimmed_keyOctets hoctets, readName, FileReading.sectionName]
  rcases hw with ⟨rfl, rfl⟩ | ⟨rfl, hgeneral⟩ | ⟨rfl, hname, hgeneral⟩
  · decide
  · have hname : name ≠ [] := by
      rintro rfl
      revert hgeneral
      decide
    rw [if_neg hname, if_pos hgeneral]
    decide
  · rw [if_neg hname, hgeneral, iniEscapedKey_ne_percent, if_neg Bool.false_ne_true,
      if_neg Bool.false_ne_true, if_neg Bool.false_ne_true, iniUnescapedKey_iniEscapedKey]

/-! ### Collecting the sections -/

/-- The collected lines of every section hold certain keys and values. -/
structure Collected (m : UnparsedSettingsMap) (P : QString → QString × Value → Prop) : Prop where
  lines : ∀ name d, m.get? name = some d →
    ∃ ls, d = unlines ls ∧ Entries ls ∧ ∀ e, e ∈ readEntries name ls ↔ P name e
  missing : ∀ name, m.get? name = none → ∀ e, ¬P name e

theorem collected_empty :
  Collected OrderedMap.empty fun _ _ => False
  := by
  constructor
  · rintro name d ⟨⟩
  · exact fun _ _ _ => id

theorem Collected.congr {m : UnparsedSettingsMap} {Q : QString → QString × Value → Prop}
    (h : Collected m P) (hiff : ∀ name e, P name e ↔ Q name e) :
  Collected m Q
  := by
  have heq : P = Q := by
    ext name e
    exact hiff name e
  rw [← heq]
  exact h

theorem Entries.append {ls' : List (Option TextLine)} (h : Entries ls) (h' : Entries ls') :
  Entries (ls ++ ls')
  := by
  intro l hl
  exact (List.mem_append.mp hl).elim (h l) (h' l)

theorem unlines_eq_nil (h : unlines ls = []) :
  ls = []
  := by
  cases ls with
  | nil => rfl
  | cons l ls =>
    cases l with
    | none => cases h
    | some l =>
      rw [unlines_some] at h
      exact absurd (List.append_eq_nil_iff.mp h).2 (List.cons_ne_nil _ _)

theorem readEntries_append (name : QString) (ls ls' : List (Option TextLine)) :
  readEntries name (ls ++ none :: ls') = readEntries name ls ++ readEntries name ls'
  := by
  rw [readEntries, List.filterMap_append]
  rfl

namespace FileReading

/-- The lines of the current section stand at the end of what has been read. -/
structure Standing (r : FileReading) (before : QByteArray) (name : QString)
    (ls : List (Option TextLine)) : Prop where
  current : r.currentSection = name
  start : ∃ front, before = front ++ unlines ls ∧ r.currentSectionStart = front.length

variable {ls : List (Option TextLine)}

/-- The lines of the current section are added. -/
theorem collected_flush {r : FileReading} {before : QByteArray} {name : QString}
    (h : r.Standing before name ls) (hls : Entries ls) {P : QString → QString × Value → Prop}
    (hr : Collected r.unparsedIniSections P) (after : QByteArray) :
  Collected (r.flush (before ++ after) before.length).unparsedIniSections fun name' e =>
    P name' e ∨ name' = name ∧ e ∈ readEntries name' ls
  := by
  obtain ⟨front, hbefore, hstart⟩ := h.start
  have hdata : ((before ++ after).take before.length).drop r.currentSectionStart = unlines ls := by
    rw [List.take_left, hstart, hbefore, List.drop_left]
  rw [flush, hdata, h.current]
  dsimp only
  constructor
  · intro name' d hget
    rw [OrderedMap.get?_insert] at hget
    by_cases hname : name' = name
    · subst hname
      rw [if_pos rfl, Option.some.injEq] at hget
      cases hold : r.unparsedIniSections.get? name' with
      | none =>
        rw [hold] at hget
        refine ⟨ls, hget.symm, hls, fun e => ?_⟩
        rw [or_iff_right (hr.missing name' hold e), and_iff_right rfl]
      | some old =>
        obtain ⟨ls', rfl, hls', he⟩ := hr.lines name' old hold
        rw [hold, Option.getD_some] at hget
        by_cases hnil : unlines ls' = []
        · rw [if_pos hnil, List.nil_append] at hget
          obtain rfl := unlines_eq_nil hnil
          refine ⟨ls, hget.symm, hls, fun e => ?_⟩
          rw [← he, or_iff_right (show e ∉ readEntries name' [] from List.not_mem_nil),
            and_iff_right rfl]
        · rw [if_neg hnil] at hget
          refine ⟨ls' ++ none :: ls, ?_, ?_, fun e => ?_⟩
          · rw [← hget, unlines_append, unlines_none, List.append_assoc]
            rfl
          · apply hls'.append
            intro l hl
            exact hls l (by simpa using hl)
          · rw [readEntries_append, List.mem_append, he, and_iff_right rfl]
    · rw [if_neg hname] at hget
      obtain ⟨ls', hd, hls', he⟩ := hr.lines name' d hget
      refine ⟨ls', hd, hls', fun e => ?_⟩
      rw [he, or_iff_left fun hboth => hname hboth.1]
  · intro name' hget e
    rw [OrderedMap.get?_insert] at hget
    split at hget
    next => cases hget
    next hname =>
      rintro (hP | ⟨heq, -⟩)
      · exact hr.missing name' hget e hP
      · exact hname heq

/-- A line that does not begin with a bracket belongs to the current section. -/
theorem readLine_entry (r : FileReading) (before after : QByteArray) {l : TextLine}
    (h : l.text.head? ≠ some openBracket) :
  readLine (before ++ (l.text ++ after)) r
      ⟨before.length + l.text.length, before.length, l.equalsPos.map (before.length + ·)⟩
    = r
  := by
  rw [readLine, text_found]
  exact if_neg h

/-- The line of a section begins it. -/
theorem readLine_header (r : FileReading) (before after : QByteArray) {name : QString}
    (h : 0x2f ∉ name) :
  readLine (before ++ ((TextLine.header name).text ++ after)) r
      ⟨before.length + (TextLine.header name).text.length, before.length, none⟩
    = { r.flush (before ++ ((TextLine.header name).text ++ after)) before.length with
        currentSection := readName name
        currentSectionStart := before.length + (TextLine.header name).text.length }
  := by
  obtain ⟨w, heq, -⟩ := realSection_eq name
  have hhead : (TextLine.header name).text.head? = some openBracket := by
    change (realSection name).head? = _
    rw [heq]
    rfl
  have hbracket : (TextLine.header name).text.contains closeBracket = true := by
    change (realSection name).contains closeBracket = true
    rw [heq, List.contains_iff_mem]
    simp
  rw [readLine, text_found]
  dsimp only
  rw [if_pos hhead, sectionName_header h, hbracket, Bool.and_true]

/-- Lines of the current section are passed over. -/
theorem foldl_entries (h : ∀ l, some l ∈ ls → l.text.head? ≠ some openBracket) (r : FileReading)
    (before after : QByteArray) :
  (foundLines before.length ls).foldl (readLine (before ++ (unlines ls ++ after))) r = r
  := by
  induction ls generalizing before with
  | nil => rfl
  | cons l ls ih =>
    have hls : ∀ l, some l ∈ ls → l.text.head? ≠ some openBracket :=
      fun l hl => h l (List.mem_cons_of_mem _ hl)
    cases l with
    | none =>
      have hnext := ih hls (before ++ [0x0a])
      rw [List.length_append, List.length_singleton, List.append_assoc] at hnext
      exact hnext
    | some l =>
      have hnext := ih hls (before ++ (l.text ++ [0x0a]))
      rw [List.length_append, List.length_append, List.length_singleton, List.append_assoc,
        List.append_assoc, List.singleton_append, ← Nat.add_assoc] at hnext
      rw [foundLines, List.foldl_cons, unlines_some, List.append_assoc,
        readLine_entry r before _ (h l List.mem_cons_self)]
      exact hnext

end FileReading

/-! ### A file of sections -/

/-- A section with its lines, up to the next one. -/
structure Section where
  name : QString
  lines : List (Option TextLine)
  name_ok : 0x2f ∉ name
  entries : Entries lines
  head : ∀ l, some l ∈ lines → l.text.head? ≠ some openBracket

/-- The keys and values in a section, under the name that is read. -/
def Section.Holds (s : Section) (name : QString) (e : QString × Value) : Prop :=
  name = readName s.name ∧ e ∈ readEntries name s.lines

/-- The line of a section and the lines in it. -/
def Section.allLines (s : Section) : List (Option TextLine) :=
  some (.header s.name) :: s.lines

def fileLines (ss : List Section) : List (Option TextLine) :=
  ss.flatMap Section.allLines

/-- After the lines of a section it is the current one. -/
theorem foldl_section (s : Section) (r : FileReading) {data before after : QByteArray}
    (hdata : data = before ++ (unlines s.allLines ++ after)) :
  (foundLines before.length s.allLines).foldl (FileReading.readLine data) r
    = { r.flush data before.length with
        currentSection := readName s.name
        currentSectionStart := before.length + (TextLine.header s.name).text.length }
  := by
  have hheader : data = before ++ ((TextLine.header s.name).text
      ++ 0x0a :: (unlines s.lines ++ after)) := by
    rw [hdata, Section.allLines, unlines_some, List.append_assoc, List.cons_append]
  have hfirst := FileReading.readLine_header r before (0x0a :: (unlines s.lines ++ after)) s.name_ok
  rw [← hheader] at hfirst
  have hentries : data = (before ++ (TextLine.header s.name).text ++ [0x0a])
      ++ (unlines s.lines ++ after) := by
    rw [hheader, List.append_assoc, List.append_assoc]
    rfl
  have hothers := fun r => FileReading.foldl_entries s.head r
    (before ++ (TextLine.header s.name).text ++ [0x0a]) after
  rw [← hentries, List.length_append, List.length_append, List.length_singleton] at hothers
  rw [Section.allLines, foundLines, List.foldl_cons, hothers]
  exact hfirst

/-- The current section stands behind its line. -/
theorem standing_section (s : Section) (r : FileReading) (data before : QByteArray) :
  FileReading.Standing { r.flush data before.length with
      currentSection := readName s.name
      currentSectionStart := before.length + (TextLine.header s.name).text.length }
    (before ++ unlines s.allLines) (readName s.name) (none :: s.lines)
  := by
  refine ⟨rfl, before ++ (TextLine.header s.name).text, ?_, ?_⟩
  · rw [Section.allLines, unlines_some, unlines_none, List.append_assoc]
  · rw [List.length_append]

/-- A file of sections is read section by section. -/
theorem foldl_sections (ss : List Section) {r : FileReading} {before after data : QByteArray}
    (hdata : data = before ++ (unlines (fileLines ss) ++ after)) {name : QString}
    (h : r.Standing before name ls) (hls : Entries ls) (hr : Collected r.unparsedIniSections P) :
  ∃ r' name' ls' P',
    (foundLines before.length (fileLines ss)).foldl (FileReading.readLine data) r = r'
      ∧ r'.Standing (before ++ unlines (fileLines ss)) name' ls' ∧ Entries ls'
      ∧ Collected r'.unparsedIniSections P'
      ∧ ∀ n e, (P' n e ∨ n = name' ∧ e ∈ readEntries n ls')
        ↔ (P n e ∨ n = name ∧ e ∈ readEntries n ls) ∨ ∃ s ∈ ss, s.Holds n e
  := by
  induction ss generalizing r before name ls P with
  | nil =>
    refine ⟨r, name, ls, P, rfl, ?_, hls, hr, fun n e => ?_⟩
    · rw [fileLines, List.flatMap_nil, unlines, List.flatMap_nil, List.append_nil]
      exact h
    · simp only [List.not_mem_nil, false_and, exists_false, or_false]
  | cons s ss ih =>
    have hlines : fileLines (s :: ss) = s.allLines ++ fileLines ss := rfl
    rw [hlines, unlines_append] at hdata ⊢
    have hsection : data = before ++ (unlines s.allLines ++ (unlines (fileLines ss) ++ after)) := by
      rw [hdata, List.append_assoc]
    have hrest : data = (before ++ unlines s.allLines) ++ (unlines (fileLines ss) ++ after) := by
      rw [hsection, List.append_assoc]
    have hcollected := FileReading.collected_flush h hls hr
      (unlines s.allLines ++ (unlines (fileLines ss) ++ after))
    rw [← hsection] at hcollected
    have hnone : Entries (none :: s.lines) := fun l hl => s.entries l (by simpa using hl)
    obtain ⟨r', name', ls', P', hfold, hstanding, hls', hr', hiff⟩ :=
      ih hrest (standing_section s r data before) hnone hcollected
    refine ⟨r', name', ls', P', ?_, ?_, hls', hr', fun n e => ?_⟩
    · rw [foundLines_append, List.foldl_append, foldl_section s r hsection]
      rw [List.length_append] at hfold
      exact hfold
    · rw [← List.append_assoc]
      exact hstanding
    · have hentries : readEntries n (none :: s.lines) = readEntries n s.lines := rfl
      rw [hiff, hentries, List.exists_mem_cons_iff, Section.Holds, or_assoc]

/-- Reading a file collects the keys and values of its sections. -/
theorem collected_readIniFile (ss : List Section) :
  Collected (readIniFile (unlines (fileLines ss))).1 fun name e => ∃ s ∈ ss, s.Holds name e
  := by
  have hreadable : ∀ l, some l ∈ fileLines ss → l.Readable := by
    intro l hl
    obtain ⟨s, hs, hl⟩ := List.mem_flatMap.mp hl
    rcases List.mem_cons.mp hl with hl | hl
    · cases hl
      exact readable_header s.name_ok
    · exact (s.entries l hl).1
  have hbom : QUtf8.utf8bom.isPrefixOf (unlines (fileLines ss)) = false := by
    cases ss with
    | nil => decide
    | cons s ss =>
      obtain ⟨w, heq, -⟩ := realSection_eq s.name
      change QUtf8.utf8bom.isPrefixOf (unlines (some (.header s.name) :: (s.lines ++ fileLines ss))) = _
      rw [unlines_some]
      change QUtf8.utf8bom.isPrefixOf (realSection s.name ++ _) = _
      rw [heq]
      rfl
  have hstanding : FileReading.new.Standing [] [] [] := ⟨rfl, [], rfl, rfl⟩
  obtain ⟨r, name, ls, P, hfold, hr, hls, hcollected, hiff⟩ := foldl_sections ss
    (show unlines (fileLines ss) = [] ++ (unlines (fileLines ss) ++ []) by
      rw [List.append_nil, List.nil_append]) hstanding (fun l hl => nomatch hl) collected_empty
  have hflush := FileReading.collected_flush hr hls hcollected []
  rw [List.nil_append, List.append_nil] at hflush
  rw [readIniFile, hbom, if_neg Bool.false_ne_true, iniLines_unlines hreadable]
  dsimp only
  rw [Nat.zero_add]
  change ((foundLines 0 (fileLines ss)).foldl _ _ = r) at hfold
  rw [hfold]
  apply hflush.congr
  intro n e
  rw [hiff]
  simp only [false_or, or_iff_right_iff_imp]
  rintro ⟨-, he⟩
  cases he

end QSettings
