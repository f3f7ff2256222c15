import BobUI.Corelib.Serialization.JsonStrings
import BobUI.Corelib.Serialization.JsonNumbers

/-!
# Parsing what is written

The parser accepts the text of every value that is not nested too deeply.  Strings and keys come
back as the parser keeps them, doubles that are integers come back as integers, and the members
of an object are sorted.
-/

/-- The values of a nesting depth, as the functions of `QJsonValue`, `QJsonArray` and
`QJsonObject` build them.  The keys of an object are in the order of their code units, and a
double that is an integer not beyond 2 ^ 53 is kept as an integer. -/
inductive JsonValue.Built {D : Type} (F : DoubleText D) : ℕ → JsonValue D → Prop where
  | null (depth : ℕ) : Built F depth .null
  | bool (depth : ℕ) (b : Bool) : Built F depth (.bool b)
  | integer (depth : ℕ) (n : ℤ) : JsonParser.InRange n → Built F depth (.integer n)
  | double (depth : ℕ) (d : D) : F.isFinite d = true → F.convertDoubleTo d false = none →
    Built F depth (.double d)
  | string (depth : ℕ) (s : QString) : Built F depth (.string (.ofString s))
  | array (depth : ℕ) (elements : List (JsonValue D)) : (∀ v ∈ elements, Built F depth v) →
    Built F (depth + 1) (.array elements)
  | object (depth : ℕ) (members : List (QString × JsonValue D)) :
    members.Pairwise (fun m n =>
      JsonString.compareData (m.1.map UInt16.toNat) (n.1.map UInt16.toNat) < 0) →
    (∀ m ∈ members, Built F depth m.2) →
    Built F (depth + 1) (.object (members.map fun m => (.ofString m.1, m.2)))

namespace JsonParser

open JsonWriter

variable {D : Type} (F : DoubleText D)

variable (stableSort : (Member D → Member D → Bool) → List (Member D) → List (Member D))

/-! ### The value that is read -/

/-- The members of an object that the parser has read. -/
def sortedMembers : List (Member D) → List (Member D)
  | [] => []
  | m :: members => sortContainer stableSort (m :: members)

mutual

/-- The value that the parser makes of the text of a value. -/
def parsedValue : JsonValue D → JsonValue D
  | .null => .null
  | .bool b => .bool b
  | .integer n => .integer n
  | .double d => parsedDouble F d
  | .string s => .string (parsedString s.toString)
  | .array elements => .array (parsedElements elements)
  | .object members => .object (sortedMembers stableSort (parsedMembers members))
termination_by structural v => v

def parsedElements : List (JsonValue D) → List (JsonValue D)
  | [] => []
  | v :: elements => parsedValue v :: parsedElements elements
termination_by structural elements => elements

def parsedMembers : List (Member D) → List (Member D)
  | [] => []
  | m :: members => parsedMember m :: parsedMembers members
termination_by structural members => members

def parsedMember : Member D → Member D
  | (key, v) => (parsedString key.toString, parsedValue v)
termination_by structural m => m

end

theorem parsedElements_eq (elements : List (JsonValue D)) :
  parsedElements F stableSort elements = elements.map (parsedValue F stableSort)
  := by
  induction elements with
  | nil => rw [parsedElements, List.map_nil]
  | cons v elements ih => rw [parsedElements, ih, List.map_cons]

theorem parsedMembers_eq (members : List (Member D)) :
  parsedMembers F stableSort members
    = members.map fun m => (parsedString m.1.toString, parsedValue F stableSort m.2)
  := by
  induction members with
  | nil => rw [parsedMembers, List.map_nil]
  | cons m members ih => rw [parsedMembers, parsedMember, ih, List.map_cons]

/-! ### Space and tokens -/

def isSpace (c : UInt8) : Bool :=
  c = 0x20 || c = 0x09 || c = 0x0a || c = 0x0d

variable {c : UInt8} {v : JsonValue D} {rest : QByteArray} {depth : ℕ} {json ws : QByteArray}
  {elements : List (JsonValue D)}

theorem eatSpace_append (h : ws.all isSpace = true) (rest : QByteArray) :
  eatSpace (ws ++ rest) = eatSpace rest
  := List.dropWhile_append_of_pos (List.all_eq_true.mp h)

theorem eatSpace_cons (h : isSpace c = false) (rest : QByteArray) :
  eatSpace (c :: rest) = c :: rest
  := List.dropWhile_cons_of_neg (by rw [← Bool.not_eq_true] at h; exact h)

theorem spaces_all (n : ℕ) :
  (spaces n).all isSpace = true
  := by
  rw [List.all_eq_true]
  intro c hc
  rw [List.eq_of_mem_replicate hc]
  rfl

theorem lineFeed_all (compact : Bool) :
  (lineFeed compact).all isSpace = true
  := by
  cases compact <;> rfl

/-- A character that is a token of its own. -/
def isToken (c : UInt8) : Bool :=
  c = beginArray || c = beginObject || c = nameSeparator || c = valueSeparator || c = endArray
    || c = endObject || c = quote

theorem isToken_endArray :
  isToken endArray = true
  := rfl

theorem isToken_valueSeparator :
  isToken valueSeparator = true
  := rfl

theorem isToken_nameSeparator :
  isToken nameSeparator = true
  := rfl

theorem isToken_endObject :
  isToken endObject = true
  := rfl

theorem isToken_quote :
  isToken quote = true
  := rfl

theorem all_nil :
  ([] : QByteArray).all isSpace = true
  := rfl

/-- A character that a text may start with. -/
def startsText (c : UInt8) : Bool :=
  !isSpace c && c ≠ endArray && c < 0x80

/-- What the octets are that tokens, spaces and texts of values start with. -/
theorem octet_kinds (c : UInt8) :
  (isToken c = true → isSpace c = false)
    ∧ (isToken c = true ∨ isSpace c = true →
      isAsciiDigit c = false ∧ c ≠ 0x2e ∧ c ≠ 0x65 ∧ c ≠ 0x45)
    ∧ (isAsciiDigit c = true ∨ c = 0x2d → startsText c = true
      ∧ c ≠ 0x6e ∧ c ≠ 0x74 ∧ c ≠ 0x66 ∧ c ≠ quote ∧ c ≠ beginArray ∧ c ≠ beginObject
      ∧ c ≠ valueSeparator ∧ (c = endObject || c = endArray) = false)
    ∧ (startsText c = true → (0xef == c) = false)
  := by
  revert c
  apply QUtf8.forall_octet
  set_option maxRecDepth 10000 in
  decide

theorem nextToken_token (h : ws.all isSpace = true) (hc : isToken c = true) (rest : QByteArray) :
  nextToken (ws ++ c :: rest) = (c, rest)
  := by
  have hspace : isSpace c = false := (octet_kinds c).1 hc
  rw [nextToken, eatSpace_append h, eatSpace_cons hspace]
  exact if_pos hc

theorem endsNumber_space (h : ws.all isSpace = true) (hc : isToken c = true) (rest : QByteArray) :
  EndsNumber (ws ++ c :: rest)
  := by
  have htoken : ∀ c : UInt8, isToken c = true ∨ isSpace c = true →
      isAsciiDigit c = false ∧ c ≠ 0x2e ∧ c ≠ 0x65 ∧ c ≠ 0x45 :=
    fun c => (octet_kinds c).2.1
  intro d hd
  cases ws with
  | nil =>
    cases hd
    exact htoken c (.inl hc)
  | cons x ws =>
    cases hd
    rw [List.all_cons, Bool.and_eq_true] at h
    exact htoken _ (.inr h.1)

/-! ### The text of a value -/

variable (compact : Bool)

theorem number_head {minus int frac exp : QByteArray} (h : NumberText minus int frac exp) :
  ∃ c tail, minus ++ int ++ frac ++ exp = c :: tail ∧ (isAsciiDigit c = true ∨ c = 0x2d)
  := by
  rw [List.append_assoc, List.append_assoc]
  rcases h.minus with rfl | rfl
  · obtain ⟨c, tail, hc, hdigit⟩ := head_int h.int (frac ++ exp)
    exact ⟨c, tail, hc, .inl hdigit⟩
  · exact ⟨0x2d, _, rfl, .inr rfl⟩

theorem startsText_number (h : isAsciiDigit c = true ∨ c = 0x2d) :
  startsText c = true
  := ((octet_kinds c).2.2.1 h).1

variable {F}

theorem text_head (hF : F.Exact) (h : v.Built F depth) (indent : ℕ) :
  ∃ c tail, valueContentToJson F compact v indent = c :: tail ∧ startsText c = true
  := by
  cases h with
  | null _ => exact ⟨_, _, rfl, by decide⟩
  | bool _ b =>
    cases b with
    | true => exact ⟨_, _, rfl, by decide⟩
    | false => exact ⟨_, _, rfl, by decide⟩
  | integer _ n hn =>
    obtain ⟨c, tail, hc, hstart⟩ := number_head (number_text n)
    rw [← number_eq] at hc
    exact ⟨c, tail, hc, startsText_number hstart⟩
  | double _ d hd =>
    obtain ⟨minus, int, frac, exp, htext, hnumber⟩ := hF.number_text d hd
    obtain ⟨c, tail, hc, hstart⟩ := number_head htext
    rw [← hnumber] at hc
    refine ⟨c, tail, ?_, startsText_number hstart⟩
    rw [valueContentToJson, if_pos hd, hc]
  | string _ s => exact ⟨_, _, rfl, by decide⟩
  | array _ elements => exact ⟨_, _, rfl, by decide⟩
  | object _ members => exact ⟨_, _, rfl, by decide⟩

theorem text_length_pos (hF : F.Exact) (h : v.Built F depth) (indent : ℕ) :
  0 < (valueContentToJson F compact v indent).length
  := by
  obtain ⟨c, tail, htext, -⟩ := text_head compact hF h indent
  rw [htext]
  exact Nat.succ_pos _

theorem length_arrayContent (hF : F.Exact) (h : ∀ v ∈ elements, v.Built F depth) (indent : ℕ) :
  elements.length ≤ (arrayContentToJson F compact elements indent).length
    ∧ ∀ v ∈ elements, (valueContentToJson F compact v indent).length
      ≤ (arrayContentToJson F compact elements indent).length
  := by
  induction elements with
  | nil => exact ⟨Nat.zero_le _, fun v hv => absurd hv List.not_mem_nil⟩
  | cons v elements ih =>
    have hpos := text_length_pos compact hF (h v List.mem_cons_self) indent
    obtain ⟨ih_length, ih_text⟩ := ih (fun w hw => h w (List.mem_cons_of_mem _ hw))
    cases elements with
    | nil =>
      rw [arrayContentToJson]
      simp only [List.length_append, List.length_singleton, List.mem_singleton, forall_eq]
      omega
    | cons w elements =>
      rw [arrayContentToJson]
      simp only [List.length_append, List.length_cons] at ih_length ⊢
      constructor
      · omega
      · intro x hx
        rcases List.mem_cons.mp hx with rfl | hx
        · omega
        · have htext := ih_text x hx
          omega

theorem length_objectContent (members : List (Member D)) (indent : ℕ) :
  members.length ≤ (objectContentToJson F compact members indent).length
    ∧ ∀ m ∈ members, (valueContentToJson F compact m.2 indent).length
      ≤ (objectContentToJson F compact members indent).length
  := by
  induction members with
  | nil => exact ⟨Nat.zero_le _, fun m hm => absurd hm List.not_mem_nil⟩
  | cons m members ih =>
    obtain ⟨ih_length, ih_text⟩ := ih
    have hmember : (valueContentToJson F compact m.2 indent).length
        < (memberToJson F compact m indent).length := by
      rw [memberToJson]
      simp only [List.length_append, List.length_cons]
      omega
    cases members with
    | nil =>
      rw [objectContentToJson]
      simp only [List.length_append, List.length_singleton, List.mem_singleton, forall_eq]
      omega
    | cons n members =>
      rw [objectContentToJson]
      simp only [List.length_append, List.length_cons] at ih_length ⊢
      constructor
      · omega
      · intro x hx
        rcases List.mem_cons.mp hx with rfl | hx
        · omega
        · have htext := ih_text x hx
          omega

/-! ### Reading a container -/

section Containers

variable {value : QByteArray → Except ParseError (JsonValue D × QByteArray)}

variable (value) in
/-- The parser of values reads a text as `w`. -/
def Reads (text : QByteArray) (w : JsonValue D) : Prop :=
  (∃ c tail, text = c :: tail ∧ startsText c = true)
    ∧ ∀ rest, EndsNumber rest → value (text ++ rest) = .ok (w, rest)

variable {text ws ws' : QByteArray} {w : JsonValue D}

theorem eatSpace_text (h : Reads value text w) (hws : ws.all isSpace = true)
    (rest : QByteArray) :
  ∃ c tail, text ++ rest = c :: tail ∧ startsText c = true
    ∧ eatSpace (ws ++ (text ++ rest)) = c :: tail
  := by
  obtain ⟨⟨c, tail, htext, hstart⟩, -⟩ := h
  have hspace : isSpace c = false := by
    rw [startsText, Bool.and_eq_true, Bool.and_eq_true, Bool.not_eq_true'] at hstart
    exact hstart.1.1
  rw [eatSpace_append hws, htext, List.cons_append, eatSpace_cons hspace]
  exact ⟨c, tail ++ rest, rfl, hstart, rfl⟩

theorem parseElements_space (h : ws.all isSpace = true) (turns : ℕ) (json : QByteArray) :
  parseElements value turns (ws ++ json) = parseElements value turns json
  := by
  cases turns with
  | zero => rfl
  | succ turns => rw [parseElements, parseElements, eatSpace_append h]

/-- One turn of the loop of `parseArray`: an element and the token behind it. -/
theorem parseElements_element (h : Reads value text w) (hws : ws.all isSpace = true)
    (hws' : ws'.all isSpace = true) {token : UInt8} (htoken : isToken token = true)
    (turns : ℕ) (rest : QByteArray) :
  parseElements value (turns + 1) (ws ++ (text ++ (ws' ++ token :: rest)))
    = if token = endArray then .ok ([w], rest)
      else if token = valueSeparator then
        (parseElements value turns rest).map fun (elements, rest) => (w :: elements, rest)
      else if (eatSpace rest).isEmpty then .error .unterminatedArray
      else .error .missingValueSeparator
  := by
  obtain ⟨c, tail, htext, hstart, heat⟩ := eatSpace_text h hws (ws' ++ token :: rest)
  have hvalue := h.2 _ (endsNumber_space hws' htoken rest)
  rw [htext] at hvalue
  rw [parseElements, heat]
  dsimp only [bind, Except.bind]
  rw [hvalue]
  dsimp only
  rw [nextToken_token hws' htoken]
  dsimp only
  cases parseElements value turns rest <;> rfl

variable {p : JsonValue D → JsonValue D} {indent turns : ℕ} {elements : List (JsonValue D)}

/-- The loop of `parseArray` reads the elements of an array. -/
theorem parseElements_text {v : JsonValue D}
    (h : ∀ w ∈ v :: elements, Reads value (valueContentToJson F compact w indent) (p w))
    (hws : ws.all isSpace = true) (hturns : elements.length < turns) (rest : QByteArray) :
  parseElements value turns
      (arrayContentToJson F compact (v :: elements) indent ++ (ws ++ endArray :: rest))
    = .ok (p v :: elements.map p, rest)
  := by
  have hv := h v List.mem_cons_self
  obtain ⟨turns, rfl⟩ : ∃ n, turns = n + 1 := ⟨turns - 1, by omega⟩
  induction elements generalizing v turns with
  | nil =>
    have hlines : (lineFeed compact ++ ws).all isSpace = true := by
      rw [List.all_append, lineFeed_all, hws]
      rfl
    have hturn := parseElements_element hv (spaces_all (4 * indent)) hlines isToken_endArray turns
      rest
    rw [if_pos rfl] at hturn
    rw [arrayContentToJson]
    simp only [List.append_assoc] at hturn ⊢
    rw [hturn, List.map_nil]
  | cons w elements ih =>
    rw [List.length_cons] at hturns
    obtain ⟨turns, rfl⟩ : ∃ n, turns = n + 1 := ⟨turns - 1, by omega⟩
    have hturn := parseElements_element hv (spaces_all (4 * indent)) all_nil
      isToken_valueSeparator (turns + 1)
      (lineFeed compact ++ (arrayContentToJson F compact (w :: elements) indent
        ++ (ws ++ endArray :: rest)))
    have hrest := ih (fun x hx => h x (List.mem_cons_of_mem _ hx))
      (h w (List.mem_cons_of_mem _ List.mem_cons_self)) turns (by omega)
    rw [if_neg (by decide), if_pos rfl, parseElements_space (lineFeed_all compact), hrest]
      at hturn
    rw [arrayContentToJson]
    simp only [List.append_assoc, List.cons_append, List.nil_append] at hturn ⊢
    exact hturn

theorem arrayContent_cons (v : JsonValue D) (elements : List (JsonValue D)) (indent : ℕ) :
  ∃ json, arrayContentToJson F compact (v :: elements) indent
    = spaces (4 * indent) ++ (valueContentToJson F compact v indent ++ json)
  := by
  cases elements with
  | nil =>
    rw [arrayContentToJson, List.append_assoc]
    exact ⟨_, rfl⟩
  | cons w elements =>
    rw [arrayContentToJson, List.append_assoc, List.append_assoc]
    exact ⟨_, rfl⟩

/-- The parser reads an array behind its bracket. -/
theorem parseArray_text
    (h : ∀ v ∈ elements, Reads value (valueContentToJson F compact v indent) (p v))
    (hws : ws.all isSpace = true) (hturns : elements.length ≤ turns) (rest : QByteArray) :
  parseArray value turns
      (lineFeed compact
        ++ (arrayContentToJson F compact elements indent ++ (ws ++ endArray :: rest)))
    = .ok (elements.map p, rest)
  := by
  cases elements with
  | nil =>
    rw [arrayContentToJson, List.nil_append, parseArray, eatSpace_append (lineFeed_all compact),
      eatSpace_append hws, eatSpace_cons rfl]
    rfl
  | cons v elements =>
    have helements := parseElements_text compact h hws hturns rest
    obtain ⟨json, hjson⟩ := arrayContent_cons (F := F) compact v elements indent
    obtain ⟨c, tail, htext, hstart, heat⟩ := eatSpace_text (h v List.mem_cons_self)
      (spaces_all (4 * indent)) (json ++ (ws ++ endArray :: rest))
    have hc : c ≠ endArray := by
      rintro rfl
      cases hstart
    simp only [hjson, List.append_assoc] at helements ⊢
    rw [parseElements_space (spaces_all _), htext] at helements
    rw [parseArray, eatSpace_append (lineFeed_all compact), heat]
    dsimp only
    rw [if_neg hc, helements, List.map_cons]

/-- The parser reads a member behind its quotation mark. -/
theorem parseMember_text (h : Reads value text w) (key : QString) {rest : QByteArray}
    (hrest : EndsNumber rest) :
  parseMember value
      (escapedString key ++ ((if compact then [JsonWriter.quote, 0x3a]
        else [JsonWriter.quote, 0x3a, 0x20]) ++ (text ++ rest)))
    = .ok ((parsedString key, w), rest)
  := by
  obtain ⟨space, hspace, hcolon⟩ : ∃ space : QByteArray, space.all isSpace = true
      ∧ (if compact then [JsonWriter.quote, 0x3a] else [JsonWriter.quote, 0x3a, 0x20])
        = quote :: nameSeparator :: space := by
    cases compact
    · exact ⟨[0x20], rfl, rfl⟩
    · exact ⟨[], rfl, rfl⟩
  obtain ⟨c, tail, htext, -, heat⟩ := eatSpace_text h hspace rest
  have hvalue := h.2 rest hrest
  have htoken := nextToken_token all_nil isToken_nameSeparator (space ++ (text ++ rest))
  rw [List.nil_append] at htoken
  rw [htext] at hvalue
  rw [hcolon, List.cons_append, List.cons_append, parseMember, parseString_escapedString]
  dsimp only [bind, Except.bind]
  rw [htoken]
  dsimp only
  rw [if_neg (fun hne => hne rfl), heat]
  dsimp only
  rw [hvalue]
  rfl

/-- One turn of the loop of `parseObject` before the next member: the next turn starts behind
the quotation mark. -/
theorem parseMembers_next (h : Reads value text w) (key : QString) (hws : ws.all isSpace = true)
    (turns : ℕ) (rest : QByteArray) :
  parseMembers value (turns + 1)
      (escapedString key ++ ((if compact then [JsonWriter.quote, 0x3a]
        else [JsonWriter.quote, 0x3a, 0x20]) ++ (text ++ valueSeparator :: (ws ++ quote :: rest))))
    = (parseMembers value turns rest).map fun (members, rest) =>
        ((parsedString key, w) :: members, rest)
  := by
  have hmember := parseMember_text compact h key
    (endsNumber_space all_nil isToken_valueSeparator (ws ++ quote :: rest))
  rw [List.nil_append] at hmember
  rw [parseMembers, hmember]
  dsimp only [bind, Except.bind]
  rw [← List.nil_append (valueSeparator :: _), nextToken_token all_nil isToken_valueSeparator]
  dsimp only
  rw [if_pos rfl, nextToken_token hws isToken_quote]
  dsimp only
  rw [if_neg (by decide), if_pos rfl]
  cases parseMembers value turns rest <;> rfl

/-- The last turn of the loop of `parseObject`. -/
theorem parseMembers_last (h : Reads value text w) (key : QString) (hws : ws.all isSpace = true)
    (turns : ℕ) (rest : QByteArray) :
  parseMembers value (turns + 1)
      (escapedString key ++ ((if compact then [JsonWriter.quote, 0x3a]
        else [JsonWriter.quote, 0x3a, 0x20]) ++ (text ++ (ws ++ endObject :: rest))))
    = .ok ([(parsedString key, w)], rest)
  := by
  have hmember := parseMember_text compact h key (endsNumber_space hws isToken_endObject rest)
  rw [parseMembers, hmember]
  dsimp only [bind, Except.bind]
  rw [nextToken_token hws isToken_endObject]
  dsimp only
  rw [if_neg (by decide), if_pos rfl]
  rfl

/-- The loop of `parseObject` reads the members of an object from behind the first quotation
mark. -/
theorem parseMembers_text {m : Member D} {members : List (Member D)}
    (h : ∀ n ∈ m :: members, Reads value (valueContentToJson F compact n.2 indent) (p n.2))
    (hws : ws.all isSpace = true) (hturns : members.length < turns) (rest : QByteArray) :
  ∃ json, objectContentToJson F compact (m :: members) indent ++ (ws ++ endObject :: rest)
      = spaces (4 * indent) ++ quote :: json
    ∧ parseMembers value turns json
      = .ok ((m :: members).map fun n => (parsedString n.1.toString, p n.2), rest)
  := by
  have hm := h m List.mem_cons_self
  obtain ⟨turns, rfl⟩ : ∃ n, turns = n + 1 := ⟨turns - 1, by omega⟩
  induction members generalizing m turns with
  | nil =>
    have hlines : (lineFeed compact ++ ws).all isSpace = true := by
      rw [List.all_append, lineFeed_all, hws]
      rfl
    have hturn := parseMembers_last compact hm m.1.toString hlines turns rest
    refine ⟨_, ?_, hturn⟩
    rw [objectContentToJson, memberToJson]
    simp only [List.append_assoc, List.cons_append]
    rfl
  | cons n members ih =>
    rw [List.length_cons] at hturns
    obtain ⟨turns, rfl⟩ : ∃ n, turns = n + 1 := ⟨turns - 1, by omega⟩
    obtain ⟨json, hjson, hrest⟩ := ih (fun x hx => h x (List.mem_cons_of_mem _ hx))
      (h n (List.mem_cons_of_mem _ List.mem_cons_self)) turns (by omega)
    have hlines : (lineFeed compact ++ spaces (4 * indent)).all isSpace = true := by
      rw [List.all_append, lineFeed_all, spaces_all]
      rfl
    have hturn := parseMembers_next compact hm m.1.toString hlines (turns + 1) json
    rw [hrest] at hturn
    refine ⟨_, ?_, hturn⟩
    rw [objectContentToJson, memberToJson]
    simp only [List.append_assoc, List.cons_append, hjson]
    rfl

/-- The parser reads an object behind its brace. -/
theorem parseObject_text {members : List (Member D)}
    (h : ∀ m ∈ members, Reads value (valueContentToJson F compact m.2 indent) (p m.2))
    (hws : ws.all isSpace = true) (hturns : members.length ≤ turns) (rest : QByteArray) :
  parseObject stableSort value turns
      (lineFeed compact
        ++ (objectContentToJson F compact members indent ++ (ws ++ endObject :: rest)))
    = .ok (sortedMembers stableSort
        (members.map fun m => (parsedString m.1.toString, p m.2)), rest)
  := by
  cases members with
  | nil =>
    have hlines : (lineFeed compact ++ ws).all isSpace = true := by
      rw [List.all_append, lineFeed_all, hws]
      rfl
    rw [objectContentToJson, List.nil_append, ← List.append_assoc, parseObject,
      nextToken_token hlines isToken_endObject]
    rfl
  | cons m members =>
    obtain ⟨json, hjson, hmembers⟩ := parseMembers_text compact h hws hturns rest
    have hlines : (lineFeed compact ++ spaces (4 * indent)).all isSpace = true := by
      rw [List.all_append, lineFeed_all, spaces_all]
      rfl
    rw [hjson, ← List.append_assoc, parseObject, nextToken_token hlines isToken_quote]
    dsimp only [bind, Except.bind]
    rw [if_pos rfl, hmembers]
    rfl

end Containers

/-! ### Reading a value -/

theorem parseValue_number (h : isAsciiDigit c = true ∨ c = 0x2d) (turns level : ℕ)
    (json : QByteArray) :
  parseValue F stableSort (turns + 1) level (c :: json) = parseNumber F (c :: json)
  := by
  obtain ⟨-, hn, ht, hf, hquote, harray, hobject, hseparator, hend⟩ :=
    (octet_kinds c).2.2.1 h
  rw [parseValue, if_neg hn, if_neg ht, if_neg hf, if_neg hquote, if_neg harray,
    if_neg hobject, if_neg hseparator, hend]
  rfl

theorem parseValue_string {s : JsonString} (h : parseString json = .ok (s, rest))
    (turns level : ℕ) :
  parseValue F stableSort (turns + 1) level (quote :: json) = .ok (.string s, rest)
  := by
  rw [parseValue, if_neg (by decide), if_neg (by decide), if_neg (by decide), if_pos rfl, h]
  rfl

theorem parseValue_array {turns level : ℕ} (hlevel : level + 1 ≤ nestingLimit)
    (h : parseArray (parseValue F stableSort turns (level + 1)) turns json
      = .ok (elements, rest)) :
  parseValue F stableSort (turns + 1) level (beginArray :: json) = .ok (.array elements, rest)
  := by
  rw [parseValue, if_neg (by decide), if_neg (by decide), if_neg (by decide), if_neg (by decide),
    if_pos rfl, if_neg (Nat.not_lt_of_le hlevel), h]
  rfl

theorem parseValue_object {turns level : ℕ} (hlevel : level + 1 ≤ nestingLimit)
    {members : List (Member D)}
    (h : parseObject stableSort (parseValue F stableSort turns (level + 1)) turns json
      = .ok (members, rest)) :
  parseValue F stableSort (turns + 1) level (beginObject :: json) = .ok (.object members, rest)
  := by
  rw [parseValue, if_neg (by decide), if_neg (by decide), if_neg (by decide), if_neg (by decide),
    if_neg (by decide), if_pos rfl, if_neg (Nat.not_lt_of_le hlevel), h]
  rfl

/-- The parser reads the text of a value. -/
theorem parseValue_text (hF : F.Exact) (h : v.Built F depth) {turns level indent : ℕ}
    (hlevel : level + depth ≤ nestingLimit)
    (hturns : (valueContentToJson F compact v indent).length < turns) (hrest : EndsNumber rest) :
  parseValue F stableSort turns level (valueContentToJson F compact v indent ++ rest)
    = .ok (parsedValue F stableSort v, rest)
  := by
  obtain ⟨turns, rfl⟩ : ∃ n, turns = n + 1 := ⟨turns - 1, by omega⟩
  induction h generalizing turns level indent rest with
  | null depth => rfl
  | bool depth b => cases b <;> rfl
  | integer depth n hn =>
    obtain ⟨c, tail, hc, hstart⟩ := number_head (number_text n)
    have hparse := parseNumber_number F hn hrest
    rw [← number_eq] at hc
    rw [hc] at hparse
    rw [valueContentToJson, hc, parsedValue]
    exact (parseValue_number stableSort hstart turns level _).trans hparse
  | double depth d hd =>
    obtain ⟨minus, int, frac, exp, htext, hnumber⟩ := hF.number_text d hd
    obtain ⟨c, tail, hc, hstart⟩ := number_head htext
    have hparse := parseNumber_double hF hd hrest
    rw [← hnumber] at hc
    rw [hc] at hparse
    rw [valueContentToJson, if_pos hd, hc, parsedValue]
    exact (parseValue_number stableSort hstart turns level _).trans hparse
  | string depth s =>
    rw [valueContentToJson, List.cons_append, List.cons_append, List.append_assoc, parsedValue]
    exact parseValue_string stableSort (parseString_escapedString _ rest) turns level
  | array depth elements helements ih =>
    rw [valueContentToJson] at hturns
    simp only [List.length_append, List.length_cons] at hturns
    obtain ⟨hlength, htexts⟩ :=
      length_arrayContent compact hF helements (indent + if compact then 0 else 1)
    have hreads : ∀ v ∈ elements, Reads (parseValue F stableSort turns (level + 1))
        (valueContentToJson F compact v (indent + if compact then 0 else 1))
        (parsedValue F stableSort v) := by
      intro v hv
      have htext := htexts v hv
      refine ⟨text_head compact hF (helements v hv) _, fun rest hrest => ?_⟩
      obtain ⟨turns, rfl⟩ : ∃ n, turns = n + 1 := ⟨turns - 1, by omega⟩
      exact ih v hv (by omega) hrest turns (by omega)
    have hcount : elements.length ≤ turns := by omega
    have hparse := parseArray_text compact hreads (spaces_all (4 * indent)) hcount rest
    rw [valueContentToJson, parsedValue, parsedElements_eq]
    simp only [List.append_assoc, List.cons_append, List.nil_append]
    exact parseValue_array stableSort (by omega) hparse
  | object depth members hkeys hmembers ih =>
    rw [valueContentToJson] at hturns
    simp only [List.length_append, List.length_cons] at hturns
    obtain ⟨hlength, htexts⟩ := length_objectContent (F := F) compact
      (members.map fun m => (JsonString.ofString m.1, m.2)) (indent + if compact then 0 else 1)
    have hreads : ∀ m ∈ members.map fun m => (JsonString.ofString m.1, m.2),
        Reads (parseValue F stableSort turns (level + 1))
        (valueContentToJson F compact m.2 (indent + if compact then 0 else 1))
        (parsedValue F stableSort m.2) := by
      intro m hm
      obtain ⟨n, hn, rfl⟩ := List.mem_map.mp hm
      have htext := htexts _ hm
      dsimp only at htext
      refine ⟨text_head compact hF (hmembers n hn) _, fun rest hrest => ?_⟩
      obtain ⟨turns, rfl⟩ : ∃ n, turns = n + 1 := ⟨turns - 1, by omega⟩
      exact ih n hn (by omega) hrest turns (by omega)
    have hcount := Nat.le_trans hlength (show _ ≤ turns by omega)
    have hparse := parseObject_text stableSort compact hreads (spaces_all (4 * indent)) hcount
      rest
    rw [valueContentToJson, parsedValue, parsedMembers_eq]
    simp only [List.append_assoc, List.cons_append, List.nil_append]
    exact parseValue_object stableSort (by omega) hparse

theorem eatBOM_text (h : startsText c = true) (rest : QByteArray) :
  eatBOM (c :: rest) = c :: rest
  := by
  have hc : QUtf8.utf8bom.isPrefixOf (c :: rest) = false := by
    have hfirst : (0xef == c) = false := (octet_kinds c).2.2.2 h
    rw [QUtf8.utf8bom, List.isPrefixOf, hfirst, Bool.false_and]
  rw [eatBOM, hc, Bool.and_false, if_neg Bool.false_ne_true]

/-- A string at the top is read as `parseValue` reads it. -/
theorem parse_eq {rest' : QByteArray} (hjson : eatSpace (eatBOM json) = c :: rest)
    (h : parseValue F stableSort (json.length + 1) 0 (c :: rest) = .ok (v, rest'))
    (hrest : (eatSpace rest').isEmpty = true) :
  parse F stableSort json = .ok v
  := by
  rw [parse, hjson]
  dsimp only [bind, Except.bind]
  by_cases hc : c = quote
  · subst hc
    rw [parseValue, if_neg (by decide), if_neg (by decide), if_neg (by decide), if_pos rfl] at h
    rw [if_pos rfl]
    cases hparse : parseString rest with
    | error e => rw [hparse] at h; cases h
    | ok result =>
      rw [hparse] at h
      cases h
      exact if_pos hrest
  · rw [if_neg hc, h]
    exact if_pos hrest

/-- The parser accepts what is written, compact or indented. -/
theorem parse_valueToJson (hF : F.Exact) (h : v.Built F nestingLimit) :
  parse F stableSort (valueToJson F compact v 0) = .ok (parsedValue F stableSort v)
  := by
  obtain ⟨c, tail, htext, hstart⟩ := text_head compact hF h 0
  have hspace : isSpace c = false := by
    rw [startsText, Bool.and_eq_true, Bool.and_eq_true, Bool.not_eq_true'] at hstart
    exact hstart.1.1
  obtain ⟨lines, hlines, hends, hjson⟩ : ∃ lines : QByteArray, lines.all isSpace = true
      ∧ EndsNumber lines
      ∧ valueToJson F compact v 0 = valueContentToJson F compact v 0 ++ lines := by
    refine ⟨_, ?_, ?_, rfl⟩
    · split <;> rfl
    · split
      · intro d hd
        cases hd
        decide
      · intro d hd
        cases hd
  have hturns : (valueContentToJson F compact v 0).length
      < (valueContentToJson F compact v 0 ++ lines).length + 1 := by
    rw [List.length_append]
    omega
  have hparse := parseValue_text stableSort compact hF h (Nat.le_of_eq (Nat.zero_add _)) hturns
    hends
  have hend : (eatSpace lines).isEmpty = true := by
    rw [← List.append_nil lines, eatSpace_append hlines]
    rfl
  rw [hjson]
  rw [htext, List.cons_append] at hparse ⊢
  apply parse_eq stableSort _ hparse hend
  rw [eatBOM_text hstart, eatSpace_cons hspace]

end JsonParser
