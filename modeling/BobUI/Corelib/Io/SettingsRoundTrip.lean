import BobUI.Corelib.Io.SettingsSections
import Mathlib.Data.Prod.Lex

/-!
# Reading an INI file back

A map of strings is read back from the file that `writeIniFile` makes of it, but for sections that
are named like `General` in another case, and for strings that lose a byte order mark.
-/

namespace QSettings

/-! ### Keys -/

/-- A key of segments that are not empty, separated by '/'. -/
def Normalised (key : QString) : Prop :=
  ∀ segment ∈ key.splitOn 0x2f, segment ≠ []

instance (key : QString) : Decidable (Normalised key) := by
  unfold Normalised
  infer_instance

/-- The key of a section and a key in it. -/
def joinKey (iniSection key : QString) : QString :=
  if iniSection = [] then key else iniSection ++ 0x2f :: key

variable {key : QString} {map : OrderedMap QString QString} {e : QString × OrderedMap QString Value}

theorem Normalised.ne_nil (h : Normalised key) :
  key ≠ []
  := by
  rintro rfl
  exact h [] List.mem_cons_self rfl

theorem Normalised.parts {a b : QString} (h : Normalised (a ++ 0x2f :: b)) :
  Normalised a ∧ Normalised b
  := by
  have hsplit : (a ++ 0x2f :: b).splitOn 0x2f = a.splitOn 0x2f ++ b.splitOn 0x2f := by
    rw [List.splitOn_append_cons_self]
  rw [Normalised, hsplit] at h
  exact ⟨fun s hs => h s (List.mem_append_left _ hs), fun s hs => h s (List.mem_append_right _ hs)⟩

theorem Normalised.head {ch : UInt16} (h : Normalised (ch :: key)) :
  ch ≠ 0x2f
  := by
  rintro rfl
  exact (@Normalised.parts [] key h).1.ne_nil rfl

theorem Normalised.getLast (h : Normalised key) :
  key.getLast? ≠ some 0x2f
  := by
  intro hlast
  obtain ⟨front, rfl⟩ := List.getLast?_eq_some_iff.mp hlast
  exact (Normalised.parts h).2.ne_nil rfl

/-- A key is split into a section without '/' and a normalised key. -/
theorem Normalised.split (h : Normalised key) :
  key = joinKey (splitKey key).1 (splitKey key).2 ∧ 0x2f ∉ (splitKey key).1
    ∧ Normalised (splitKey key).2 ∧ ((splitKey key).1 = [] → 0x2f ∉ (splitKey key).2)
  := by
  rw [splitKey]
  split
  next hslash =>
    have hkey := List.takeWhile_append_dropWhile (p := (· ≠ (0x2f : UInt16))) (l := key)
    have hrest : key.dropWhile (· ≠ 0x2f) ≠ [] := by
      intro hnil
      rw [hnil, List.append_nil] at hkey
      rw [List.contains_iff_mem, ← hkey] at hslash
      have hne := List.mem_takeWhile_imp hslash
      exact of_decide_eq_true hne rfl
    obtain ⟨ch, rest, hcons⟩ := List.exists_cons_of_ne_nil hrest
    have hch : ch = 0x2f := by
      have hhead := List.head?_dropWhile_not (p := (· ≠ (0x2f : UInt16))) (l := key)
      rw [hcons] at hhead
      simpa using hhead
    subst hch
    rw [hcons] at hkey ⊢
    have hparts := h
    rw [← hkey] at hparts
    obtain ⟨hsection, htail⟩ := hparts.parts
    refine ⟨?_, ?_, htail, fun hnil => absurd hnil hsection.ne_nil⟩
    · rw [joinKey, if_neg hsection.ne_nil]
      exact hkey.symm
    · intro hmem
      have hne := List.mem_takeWhile_imp (show 0x2f ∈ key.takeWhile (· ≠ 0x2f) from hmem)
      exact of_decide_eq_true hne rfl
  next hslash =>
    rw [List.contains_iff_mem] at hslash
    exact ⟨rfl, List.not_mem_nil, h, fun _ => hslash⟩

theorem splitKey_joinKey {iniSection : QString} (h : 0x2f ∉ iniSection) (hne : iniSection ≠ []) :
  splitKey (joinKey iniSection key) = (iniSection, key)
  := by
  have hall : ∀ ch ∈ iniSection, decide (ch ≠ 0x2f) = true := by
    intro ch hch
    apply decide_eq_true
    rintro rfl
    exact h hch
  rw [joinKey, if_neg hne, splitKey, if_pos (by
    rw [List.contains_iff_mem]
    simp), List.takeWhile_append_of_pos hall, List.dropWhile_append_of_pos hall,
    List.takeWhile_cons_of_neg (by decide), List.dropWhile_cons_of_neg (by decide),
    List.append_nil, List.tail_cons]

/-- The key that is read for a key that was written. -/
def readKey (key : QString) : QString :=
  readName (splitKey key).1 ++ (splitKey key).2

/-- A key is not in a section that is named like `General` in another case. -/
def keepsSection (key : QString) : Bool :=
  (splitKey key).1 = latin1 (0x47 :: general.tail)
    || !equalsIgnoringCase (iniEscapedKey (splitKey key).1) general

theorem readKey_eq (h : Normalised key) (hkeeps : keepsSection key = true) :
  readKey key = key
  := by
  obtain ⟨hkey, hslash, -, -⟩ := h.split
  conv_rhs => rw [hkey]
  rw [readKey, readName, joinKey]
  by_cases hnil : (splitKey key).1 = []
  · rw [if_pos hnil, if_pos hnil]
    rfl
  · rw [if_neg hnil, if_neg hnil]
    split
    next hgeneral =>
      rw [keepsSection, hgeneral, Bool.not_true, Bool.or_false, decide_eq_true_eq] at hkeeps
      rw [hkeeps, List.append_assoc]
      rfl
    next => rw [List.append_assoc, List.singleton_append]

/-- What is read is in a section of the first kind. -/
theorem keepsSection_readKey (h : Normalised key) :
  keepsSection (readKey key) = true
  := by
  obtain ⟨-, hslash, -, hplain⟩ := h.split
  rw [readKey, readName]
  by_cases hnil : (splitKey key).1 = []
  · have hsplit : splitKey (splitKey key).2 = ([], (splitKey key).2) := by
      rw [splitKey, if_neg (by
        rw [List.contains_iff_mem]
        exact hplain hnil)]
    rw [if_pos hnil, List.nil_append, keepsSection, hsplit]
    change (_ || !equalsIgnoringCase (iniEscapedKey []) general) = true
    rw [show equalsIgnoringCase (iniEscapedKey []) general = false by decide, Bool.not_false,
      Bool.or_true]
  · rw [if_neg hnil]
    split
    next =>
      have hsplit := @splitKey_joinKey (splitKey key).2 (latin1 (0x47 :: general.tail))
        (by decide) (by decide)
      rw [joinKey, if_neg (by decide)] at hsplit
      rw [List.append_assoc, List.singleton_append, keepsSection, hsplit, decide_eq_true rfl,
        Bool.true_or]
    next hgeneral =>
      have hsplit := @splitKey_joinKey (splitKey key).2 (splitKey key).1 hslash hnil
      rw [joinKey, if_neg hnil] at hsplit
      rw [List.append_assoc, List.singleton_append, keepsSection, hsplit,
        (Bool.not_eq_true _).mp hgeneral, Bool.not_false, Bool.or_true]

/-! ### The sections of a map -/

/-- The value of a key in a section. -/
def sectionValue (m : IniMap) (iniSection key : QString) : Option Value :=
  (m.get? iniSection).bind fun keyMap => keyMap.get? key

theorem sectionValue_insert (m : IniMap) (iniSection key : QString) (v : Value) (s k : QString) :
  sectionValue (m.insert iniSection
      (((m.get? iniSection).getD OrderedMap.empty).insert key v)) s k
    = if (s, k) = (iniSection, key) then some v else sectionValue m s k
  := by
  rw [sectionValue, OrderedMap.get?_insert]
  by_cases hs : s = iniSection
  · subst hs
    rw [if_pos rfl, Option.bind_some, OrderedMap.get?_insert]
    by_cases hk : k = key
    · rw [if_pos hk, if_pos (by rw [hk])]
    · rw [if_neg hk, if_neg (fun h => hk (Prod.mk.inj h).2), sectionValue]
      cases m.get? s with
      | none => rfl
      | some keyMap => rfl
  · rw [if_neg hs, if_neg (fun h => hs (Prod.mk.inj h).1), sectionValue]

theorem splitKey_injective {a b : QString} (ha : Normalised a) (hb : Normalised b)
    (h : splitKey a = splitKey b) :
  a = b
  := by
  rw [ha.split.1, hb.split.1, h]

/-- One more entry of the map in its section. -/
def insertEntry (iniMap : IniMap) (e : QString × Value) : IniMap :=
  iniMap.insert (splitKey e.1).1
    (((iniMap.get? (splitKey e.1).1).getD OrderedMap.empty).insert (splitKey e.1).2 e.2)

theorem iniMap_eq (map : ParsedSettingsMap) :
  iniMap map = map.entries.foldl insertEntry OrderedMap.empty
  := rfl

/-- The sections and keys of a map are those of its keys. -/
theorem sectionValue_iniMap {map : ParsedSettingsMap} (h : ∀ e ∈ map.entries, Normalised e.1)
    (s k : QString) (v : Value) :
  sectionValue (iniMap map) s k = some v ↔ ∃ e ∈ map.entries, splitKey e.1 = (s, k) ∧ e.2 = v
  := by
  have hpairs : ∀ (es : List (QString × Value)) (m : IniMap)
      (pairs : OrderedMap (QString ×ₗ QString) Value),
      (∀ s k, sectionValue m s k = pairs.get? (toLex (s, k))) → ∀ s k,
        sectionValue (es.foldl insertEntry m) s k
          = (es.foldl (fun pairs e => pairs.insert (toLex (splitKey e.1)) e.2) pairs).get?
            (toLex (s, k)) := by
    intro es
    induction es with
    | nil => exact fun m pairs hsame => hsame
    | cons e es ih =>
      intro m pairs hsame
      apply ih
      intro s k
      rw [insertEntry, sectionValue_insert, OrderedMap.get?_insert, hsame]
      by_cases heq : (s, k) = splitKey e.1
      · rw [if_pos (show (s, k) = ((splitKey e.1).1, (splitKey e.1).2) from heq),
          if_pos (show toLex (s, k) = toLex (splitKey e.1) from heq)]
      · rw [if_neg (show ¬(s, k) = ((splitKey e.1).1, (splitKey e.1).2) from heq),
          if_neg (show ¬toLex (s, k) = toLex (splitKey e.1) from heq)]
  rw [iniMap_eq, hpairs map.entries OrderedMap.empty OrderedMap.empty (fun _ _ => rfl),
    OrderedMap.get?_foldl_insert (fun e : QString × Value => toLex (splitKey e.1)) Prod.snd]
  · rw [OrderedMap.get?_empty]
    simp only [reduceCtorEq, and_false, or_false]
    rfl
  · intro a ha b hb heq
    rw [map.eq_of_key_eq ha hb (splitKey_injective (h a ha) (h b hb) heq)]

/-! ### The file of a map -/

theorem isspace_iniEscapedKey (key : QString) :
  ∀ b ∈ iniEscapedKey key, ¬QByteArray.ascii_isspace b = true
  := by
  intro b hb
  obtain ⟨ch, -, hb⟩ := List.mem_flatMap.mp hb
  by_cases hch : ch = 0x2f
  · subst hch
    rw [List.mem_singleton.mp hb]
    decide
  · obtain ⟨c, tail, heq, hoctets⟩ := keyOctet_escapedKeyChar hch
    rw [heq] at hb
    rw [(keyOctet_ordinary (hoctets b hb)).2.2.1]
    exact Bool.false_ne_true

/-- The key and the value of a line. -/
theorem readEntry_entry (name key : QString) (value : QByteArray) :
  (TextLine.entry key value).readEntry name = some (name ++ key, readValue value)
  := by
  have htrimmed := @QByteArray.trimmed_append (iniEscapedKey key) [] [] (by simp)
    (isspace_iniEscapedKey key) (by simp)
  rw [List.nil_append, List.append_nil] at htrimmed
  rw [TextLine.readEntry, TextLine.entry, Option.map_some, List.take_left, htrimmed,
    iniUnescapedKey_iniEscapedKey, ← List.drop_drop, List.drop_left]
  rfl

variable {stream : List QVariant → QByteArray}

/-- The line of a key is found, and is not that of a section. -/
theorem readable_key (h : Normalised key) {value : QByteArray} (hvalue : ValueText value) :
  (TextLine.entry key value).Readable ∧ (TextLine.entry key value).text.head? ≠ some openBracket
  := by
  obtain ⟨ch, rest, rfl⟩ := List.exists_cons_of_ne_nil h.ne_nil
  refine ⟨readable_entry h.head h.getLast hvalue, ?_⟩
  obtain ⟨b, tail, heq, hoctets⟩ := keyOctet_escapedKeyChar h.head
  change ((escapedKeyChar ch ++ iniEscapedKey rest) ++ _).head? ≠ _
  rw [heq]
  intro hhead
  exact (keyOctet_ordinary (hoctets b List.mem_cons_self)).2.2.2.1 (Option.some.inj hhead)

/-- A section of a map of strings: its keys are normalised, and its strings have no unpaired
surrogates. -/
structure Writable (e : QString × OrderedMap QString Value) : Prop where
  name : 0x2f ∉ e.1
  keys : ∀ kv ∈ e.2.entries, Normalised kv.1
  values : ∀ kv ∈ e.2.entries, ∃ v, kv.2 = .single (.string v) ∧ QUtf8.paired v = true

/-- The lines of the keys of a section. -/
def entryLines (stream : List QVariant → QByteArray) (keyMap : OrderedMap QString Value) :
    List (Option TextLine) :=
  keyMap.entries.map fun kv => some (.entry kv.1 (writtenValue stream kv.2))

theorem Writable.readable (h : Writable e) {l : TextLine} (hl : some l ∈ entryLines stream e.2) :
  l.Readable ∧ l.equalsPos.isSome = true ∧ l.text.head? ≠ some openBracket
  := by
  obtain ⟨kv, hkv, heq⟩ := List.mem_map.mp hl
  cases heq
  obtain ⟨v, hvalue, hv⟩ := h.values kv hkv
  rw [hvalue]
  have hkey := readable_key (h.keys kv hkv) (valueText_writtenValue stream hv)
  exact ⟨hkey.1, rfl, hkey.2⟩

/-- A section with what stands before the next one. -/
def Writable.section {e : QString × OrderedMap QString Value} (h : Writable e)
    (stream : List QVariant → QByteArray) (blanks : ℕ) : Section where
  name := e.1
  lines := entryLines stream e.2 ++ List.replicate blanks none
  name_ok := h.name
  entries := by
    intro l h_l
    rcases List.mem_append.mp h_l with h_l | h_l
    · exact ⟨(h.readable h_l).1, (h.readable h_l).2.1⟩
    · cases (List.mem_replicate.mp h_l).2
  head := by
    intro l h_l
    rcases List.mem_append.mp h_l with h_l | h_l
    · exact (h.readable h_l).2.2
    · cases (List.mem_replicate.mp h_l).2

/-- The keys and values that are read in a section. -/
theorem Writable.holds (h : Writable e) (blanks : ℕ) (name : QString) (kv : QString × Value) :
  (h.section stream blanks).Holds name kv
    ↔ name = readName e.1
      ∧ ∃ kv' ∈ e.2.entries, kv = (readName e.1 ++ kv'.1, readValue (writtenValue stream kv'.2))
  := by
  have hread : readEntries name (h.section stream blanks).lines
      = e.2.entries.map fun kv' => (name ++ kv'.1, readValue (writtenValue stream kv'.2)) := by
    change readEntries name (entryLines stream e.2 ++ List.replicate blanks none) = _
    rw [readEntries, List.filterMap_append, entryLines, List.filterMap_map]
    have hblank : (List.replicate blanks none).filterMap
        (fun l : Option TextLine => l.bind (TextLine.readEntry name)) = [] := by
      rw [List.filterMap_eq_nil_iff]
      intro l hl
      rw [(List.mem_replicate.mp hl).2]
      rfl
    rw [hblank, List.append_nil, ← List.filterMap_eq_map]
    congr 1
    ext kv' : 1
    exact readEntry_entry name kv'.1 _
  rw [Section.Holds, hread, List.mem_map]
  constructor
  · rintro ⟨rfl, kv', hkv', rfl⟩
    exact ⟨rfl, kv', hkv', rfl⟩
  · rintro ⟨rfl, kv', hkv', rfl⟩
    exact ⟨rfl, kv', hkv', rfl⟩

theorem writtenSection_eq (e : QString × OrderedMap QString Value) :
  writtenSection stream e = unlines (some (.header e.1) :: entryLines stream e.2)
  := by
  rw [unlines_some, writtenSection]
  change realSection e.1 ++ 0x0a :: e.2.entries.flatMap _ = realSection e.1 ++ 0x0a :: _
  rw [unlines, entryLines, List.flatMap_map]
  congr 2

/-- Sections with blank lines between them. -/
theorem exists_sections {es : List (QString × OrderedMap QString Value)}
    (h : ∀ e ∈ es, Writable e) :
  ∃ ss : List Section,
    ((es.map (writtenSection stream)).intersperse [0x0a]).flatten = unlines (fileLines ss)
      ∧ ∀ name kv, (∃ s ∈ ss, s.Holds name kv) ↔ ∃ e ∈ es, name = readName e.1
        ∧ ∃ kv' ∈ e.2.entries, kv = (readName e.1 ++ kv'.1, readValue (writtenValue stream kv'.2))
  := by
  induction es with
  | nil => exact ⟨[], rfl, by simp⟩
  | cons e es ih =>
    have he := h e List.mem_cons_self
    obtain ⟨ss, htext, hholds⟩ := ih fun e he => h e (List.mem_cons_of_mem _ he)
    have hiff : ∀ blanks name kv, (∃ s ∈ he.section stream blanks :: ss, s.Holds name kv)
        ↔ ∃ e' ∈ e :: es, name = readName e'.1 ∧ ∃ kv' ∈ e'.2.entries,
          kv = (readName e'.1 ++ kv'.1, readValue (writtenValue stream kv'.2)) := by
      intro blanks name kv
      rw [List.exists_mem_cons_iff, List.exists_mem_cons_iff, hholds, he.holds]
    cases es with
    | nil =>
      refine ⟨he.section stream 0 :: ss, ?_, hiff 0⟩
      have hlines : fileLines (he.section stream 0 :: ss)
          = (some (.header e.1) :: (entryLines stream e.2 ++ [])) ++ fileLines ss := rfl
      rw [hlines, unlines_append, ← htext, List.append_nil, ← writtenSection_eq]
      rfl
    | cons e' es =>
      refine ⟨he.section stream 1 :: ss, ?_, hiff 1⟩
      have hlines : fileLines (he.section stream 1 :: ss)
          = (some (.header e.1) :: entryLines stream e.2) ++ none :: fileLines ss := by
        change (some (.header e.1) :: (entryLines stream e.2 ++ [none])) ++ fileLines ss = _
        rw [List.cons_append, List.append_assoc]
        rfl
      rw [hlines, unlines_append, ← writtenSection_eq, unlines_none, ← htext, List.map_cons,
        List.map_cons, List.intersperse_cons_cons, List.flatten_cons, List.flatten_cons]
      rfl

/-! ### Reading all sections -/

/-- Reading the collected sections inserts all keys and values. -/
theorem ensureAllSectionsParsed_eq {m : UnparsedSettingsMap} {P : QString → QString × Value → Prop}
    (h : Collected m P) :
  ∃ L : List (QString × Value),
    ensureAllSectionsParsed m = L.foldl (fun m e => m.insert e.1 e.2) OrderedMap.empty
      ∧ ∀ kv, kv ∈ L ↔ ∃ name, P name kv
  := by
  have hfold : ∀ (es : List (QString × QByteArray)) (settings : ParsedSettingsMap),
      (∀ e ∈ es, m.get? e.1 = some e.2) → ∃ L : List (QString × Value),
        es.foldl (fun settings e => (readIniSection e.1 e.2 settings).1) settings
            = L.foldl (fun m e => m.insert e.1 e.2) settings
          ∧ ∀ kv, kv ∈ L ↔ ∃ e ∈ es, P e.1 kv := by
    intro es
    induction es with
    | nil => exact fun settings _ => ⟨[], rfl, by simp⟩
    | cons e es ih =>
      intro settings hes
      obtain ⟨ls, hls, hentries, hread⟩ := h.lines e.1 e.2 (hes e List.mem_cons_self)
      obtain ⟨L, hL, hmem⟩ := ih ((readEntries e.1 ls).foldl (fun m e => m.insert e.1 e.2) settings)
        fun e he => hes e (List.mem_cons_of_mem _ he)
      refine ⟨readEntries e.1 ls ++ L, ?_, fun kv => ?_⟩
      · rw [List.foldl_cons, hls, readIniSection_unlines e.1 hentries, List.foldl_append]
        exact hL
      · rw [List.mem_append, hread, hmem, List.exists_mem_cons_iff]
  obtain ⟨L, hL, hmem⟩ := hfold m.entries OrderedMap.empty fun e he =>
    OrderedMap.get?_eq_some_iff.mpr he
  refine ⟨L, hL, fun kv => ?_⟩
  rw [hmem]
  constructor
  · rintro ⟨e, -, hP⟩
    exact ⟨e.1, hP⟩
  · rintro ⟨name, hP⟩
    cases hget : m.get? name with
    | none => exact absurd hP (h.missing name hget kv)
    | some d => exact ⟨(name, d), OrderedMap.get?_eq_some_iff.mp hget, hP⟩

/-! ### The round trip -/

/-- The settings that a map of strings stands for. -/
def strings (map : OrderedMap QString QString) : ParsedSettingsMap :=
  map.mapValues fun _ v => .single (.string v)

/-- Keys that are normalised, and strings without unpaired surrogates. -/
structure WellFormed (map : OrderedMap QString QString) : Prop where
  keys : ∀ e ∈ map.entries, Normalised e.1
  values : ∀ e ∈ map.entries, QUtf8.paired e.2 = true

theorem mem_strings {e : QString × Value} :
  e ∈ (strings map).entries ↔ ∃ e' ∈ map.entries, e = (e'.1, .single (.string e'.2))
  := by
  rw [strings, OrderedMap.mapValues, List.mem_map]
  constructor
  · rintro ⟨e', he', rfl⟩
    exact ⟨e', he', rfl⟩
  · rintro ⟨e', he', rfl⟩
    exact ⟨e', he', rfl⟩

theorem WellFormed.normalised (h : WellFormed map) :
  ∀ e ∈ (strings map).entries, Normalised e.1
  := by
  intro e he
  obtain ⟨e', he', rfl⟩ := mem_strings.mp he
  exact h.keys e' he'

theorem slash_notMem_iniMap {map : ParsedSettingsMap} (h : ∀ e ∈ map.entries, Normalised e.1) :
  ∀ s ∈ (iniMap map).keys, 0x2f ∉ s
  := by
  have hfold : ∀ (es : List (QString × Value)) (m : IniMap), (∀ e ∈ es, Normalised e.1) →
      (∀ s ∈ m.keys, 0x2f ∉ s) → ∀ s ∈ (es.foldl insertEntry m).keys, 0x2f ∉ s := by
    intro es
    induction es with
    | nil => exact fun m _ hm => hm
    | cons e es ih =>
      intro m hes hm
      apply ih _ fun e he => hes e (List.mem_cons_of_mem _ he)
      intro s hs
      obtain ⟨v, hv⟩ := OrderedMap.mem_keys_iff.mp hs
      rw [insertEntry, OrderedMap.get?_insert] at hv
      split at hv
      next heq =>
        rw [heq]
        exact (hes e List.mem_cons_self).split.2.1
      next => exact hm s (OrderedMap.mem_keys_iff.mpr ⟨v, hv⟩)
  apply hfold map.entries OrderedMap.empty h
  rintro s ⟨⟩

/-- The sections of a well-formed map can be written. -/
theorem WellFormed.writable (h : WellFormed map) :
  ∀ e ∈ (iniMap (strings map)).entries, Writable e
  := by
  rintro ⟨s, keyMap⟩ he
  have hget := OrderedMap.get?_eq_some_iff.mpr he
  have hkv : ∀ kv ∈ keyMap.entries, ∃ e ∈ map.entries, splitKey e.1 = (s, kv.1)
      ∧ Value.single (.string e.2) = kv.2 := by
    rintro ⟨k, v⟩ hkv
    have hvalue : sectionValue (iniMap (strings map)) s k = some v := by
      rw [sectionValue, hget, Option.bind_some]
      exact OrderedMap.get?_eq_some_iff.mpr hkv
    obtain ⟨e, he, hsplit, hv⟩ := (sectionValue_iniMap h.normalised s k v).mp hvalue
    obtain ⟨e', he', rfl⟩ := mem_strings.mp he
    exact ⟨e', he', hsplit, hv⟩
  constructor
  · exact slash_notMem_iniMap h.normalised s (OrderedMap.mem_keys_iff.mpr ⟨keyMap, hget⟩)
  · intro kv hmem
    obtain ⟨e, he, hsplit, -⟩ := hkv kv hmem
    have hkey := (h.keys e he).split.2.2.1
    rw [hsplit] at hkey
    exact hkey
  · intro kv hmem
    obtain ⟨e, he, -, hv⟩ := hkv kv hmem
    exact ⟨e.2, hv.symm, h.values e he⟩

/-- What is read back: the keys as they are read, with the values as they are read. -/
theorem readBack (stream : List QVariant → QByteArray) (h : WellFormed map) :
  ∃ L : List (QString × Value),
    ensureAllSectionsParsed (readIniFile (writeIniFile stream (strings map))).1
        = L.foldl (fun m e => m.insert e.1 e.2) OrderedMap.empty
      ∧ ∀ kv, kv ∈ L ↔ ∃ e ∈ map.entries,
        kv = (readKey e.1, readValue (writtenValue stream (.single (.string e.2))))
  := by
  obtain ⟨ss, htext, hholds⟩ := @exists_sections stream _ h.writable
  obtain ⟨L, hL, hmem⟩ := ensureAllSectionsParsed_eq (collected_readIniFile ss)
  refine ⟨L, ?_, fun kv => ?_⟩
  · rw [writeIniFile, htext]
    exact hL
  · rw [hmem]
    simp only [hholds]
    constructor
    · rintro ⟨name, ⟨s, keyMap⟩, he, -, ⟨k, v⟩, hkv, rfl⟩
      have hvalue : sectionValue (iniMap (strings map)) s k = some v := by
        rw [sectionValue, OrderedMap.get?_eq_some_iff.mpr he, Option.bind_some]
        exact OrderedMap.get?_eq_some_iff.mpr hkv
      obtain ⟨e, he, hsplit, rfl⟩ := (sectionValue_iniMap h.normalised s k v).mp hvalue
      obtain ⟨e', he', rfl⟩ := mem_strings.mp he
      refine ⟨e', he', ?_⟩
      rw [readKey, hsplit]
    · rintro ⟨e, he, rfl⟩
      have hvalue := (sectionValue_iniMap h.normalised (splitKey e.1).1 (splitKey e.1).2
        (.single (.string e.2))).mpr ⟨_, mem_strings.mpr ⟨e, he, rfl⟩, rfl, rfl⟩
      obtain ⟨keyMap, hget, hkv⟩ := Option.bind_eq_some_iff.mp hvalue
      exact ⟨_, ((splitKey e.1).1, keyMap), OrderedMap.get?_eq_some_iff.mp hget, rfl,
        ((splitKey e.1).2, _), OrderedMap.get?_eq_some_iff.mp hkv, rfl⟩

/-- The settings that are read from the file of a map of strings. -/
def readBackSettings (stream : List QVariant → QByteArray) (map : OrderedMap QString QString) :
    ParsedSettingsMap :=
  ensureAllSectionsParsed (readIniFile (writeIniFile stream (strings map))).1

/-- Where the settings are read back, the sections are kept. -/
theorem keepsSection_of_readBack (stream : List QVariant → QByteArray) (h : WellFormed map)
    (hsame : readBackSettings stream map = strings map) :
  ∀ e ∈ map.entries, keepsSection e.1 = true
  := by
  intro e he
  obtain ⟨L, hL, hmem⟩ := readBack stream h
  have hkey : e.1 ∈ (strings map).keys := OrderedMap.mem_keys_iff.mpr
    ⟨_, OrderedMap.get?_eq_some_iff.mpr (mem_strings.mpr ⟨e, he, rfl⟩)⟩
  rw [← hsame, readBackSettings, hL] at hkey
  rcases OrderedMap.mem_keys_foldl_insert Prod.fst Prod.snd hkey with ⟨kv, hkv, heq⟩ | hnone
  · obtain ⟨e', he', rfl⟩ := (hmem kv).mp hkv
    rw [← heq]
    exact keepsSection_readKey (h.keys e' he')
  · cases hnone

/-- Where the sections are kept, every key has the value that is read for it. -/
theorem get?_readBack (stream : List QVariant → QByteArray) (h : WellFormed map)
    (hkeeps : ∀ e ∈ map.entries, keepsSection e.1 = true) (k : QString) (v : Value) :
  (readBackSettings stream map).get? k = some v
    ↔ ∃ e ∈ map.entries, e.1 = k ∧ readValue (writtenValue stream (.single (.string e.2))) = v
  := by
  obtain ⟨L, hL, hmem⟩ := readBack stream h
  rw [readBackSettings, hL, OrderedMap.get?_foldl_insert Prod.fst Prod.snd]
  · rw [OrderedMap.get?_empty]
    simp only [reduceCtorEq, and_false, or_false, hmem]
    constructor
    · rintro ⟨_, ⟨e, he, rfl⟩, rfl, rfl⟩
      exact ⟨e, he, (readKey_eq (h.keys e he) (hkeeps e he)).symm, rfl⟩
    · rintro ⟨e, he, rfl, rfl⟩
      exact ⟨_, ⟨e, he, rfl⟩, readKey_eq (h.keys e he) (hkeeps e he), rfl⟩
  · intro a ha b hb heq
    obtain ⟨e, he, rfl⟩ := (hmem a).mp ha
    obtain ⟨e', he', rfl⟩ := (hmem b).mp hb
    dsimp only at heq ⊢
    rw [readKey_eq (h.keys e he) (hkeeps e he), readKey_eq (h.keys e' he') (hkeeps e' he')]
      at heq
    rw [map.eq_of_key_eq he he' heq]

/-- A map of strings is read back if and only if no section is named like `General` in another
case, and no string loses a byte order mark. -/
theorem readBackSettings_iff (stream : List QVariant → QByteArray)
    {map : OrderedMap QString QString} (h : WellFormed map) :
  readBackSettings stream map = strings map
    ↔ ∀ e ∈ map.entries, keepsSection e.1 = true ∧ keepsMark e.2 = true
  := by
  constructor
  · intro h_same e h_e
    have h_keeps := keepsSection_of_readBack stream h h_same
    have h_value : (strings map).get? e.1 = some (.single (.string e.2)) :=
      OrderedMap.get?_eq_some_iff.mpr (mem_strings.mpr ⟨e, h_e, rfl⟩)
    rw [← h_same, get?_readBack stream h h_keeps] at h_value
    obtain ⟨e', h_e', h_key, h_value⟩ := h_value
    rw [map.eq_of_key_eq h_e' h_e h_key] at h_value
    exact ⟨h_keeps e h_e, (readValue_writtenValue stream (h.values e h_e)).mp h_value⟩
  · intro h_keeps
    apply OrderedMap.ext_get?
    intro k
    ext v
    rw [get?_readBack stream h (fun e h_e => (h_keeps e h_e).1), OrderedMap.get?_eq_some_iff,
      mem_strings]
    constructor
    · rintro ⟨e, h_e, rfl, rfl⟩
      refine ⟨e, h_e, ?_⟩
      rw [(readValue_writtenValue stream (h.values e h_e)).mpr (h_keeps e h_e).2]
    · rintro ⟨e, h_e, h_eq⟩
      obtain ⟨rfl, rfl⟩ := Prod.mk.inj h_eq
      exact ⟨e, h_e, rfl, (readValue_writtenValue stream (h.values e h_e)).mpr (h_keeps e h_e).2⟩

/-- A key with a string. -/
def singleEntry (key v : QString) : OrderedMap QString QString :=
  OrderedMap.empty.insert key v

theorem wellFormed_singleEntry {v : QString} (hkey : Normalised key)
    (hv : QUtf8.paired v = true) :
  WellFormed (singleEntry key v)
  := by
  have hentries : (singleEntry key v).entries = [(key, v)] := rfl
  constructor
  · rw [hentries, List.forall_mem_singleton]
    exact hkey
  · rw [hentries, List.forall_mem_singleton]
    exact hv

/-- `font/size`, with the string `12`. -/
theorem readBackSettings_font :
  readBackSettings (fun _ => [])
      (singleEntry [0x66, 0x6f, 0x6e, 0x74, 0x2f, 0x73, 0x69, 0x7a, 0x65] [0x31, 0x32])
    = strings (singleEntry [0x66, 0x6f, 0x6e, 0x74, 0x2f, 0x73, 0x69, 0x7a, 0x65] [0x31, 0x32])
  := by
  apply (readBackSettings_iff (fun _ => []) (wellFormed_singleEntry (by decide) (by decide))).mpr
  rw [show (singleEntry [0x66, 0x6f, 0x6e, 0x74, 0x2f, 0x73, 0x69, 0x7a, 0x65] [0x31, 0x32]).entries
    = [([0x66, 0x6f, 0x6e, 0x74, 0x2f, 0x73, 0x69, 0x7a, 0x65], [0x31, 0x32])] from rfl,
    List.forall_mem_singleton]
  exact ⟨by decide, by decide⟩

/-- `general/size` is read as `General/size`, and a byte order mark behind a tab is lost. -/
theorem general_not_readBack :
  (WellFormed (singleEntry (latin1 (general ++ [0x2f, 0x78])) [0x31])
      ∧ readBackSettings (fun _ => []) (singleEntry (latin1 (general ++ [0x2f, 0x78])) [0x31])
        ≠ strings (singleEntry (latin1 (general ++ [0x2f, 0x78])) [0x31]))
    ∧ readValue (writtenValue (fun _ => []) (.single (.string [0x09, 0xfeff])))
      ≠ .single (.string [0x09, 0xfeff])
  := by
  have h : WellFormed (singleEntry (latin1 (general ++ [0x2f, 0x78])) [0x31]) :=
    wellFormed_singleEntry (by decide) (by decide)
  refine ⟨⟨h, ?_⟩, ?_⟩
  · intro h_same
    have h_keeps := keepsSection_of_readBack (fun _ => []) h h_same
      (latin1 (general ++ [0x2f, 0x78]), [0x31]) List.mem_cons_self
    revert h_keeps
    decide
  · intro h_same
    have h_mark := (readValue_writtenValue (fun _ => []) (by decide)).mp h_same
    revert h_mark
    decide

end QSettings
