import BobUI.Network.Http1.Reply

/-!
# Chunked bodies

Well-formed chunked bodies without trailers, and what `getChunkSize` and `readReplyBodyRaw` read
of one.
-/

namespace QHttpNetworkReplyPrivate

/-! ### Bodies -/

/-- The line of a chunk's size: hexadecimal digits, blanks, and a chunk-extension. -/
structure SizeLine where
  digits : QByteArray
  blanks : QByteArray
  extension : QByteArray
  digits_ne_nil : digits ≠ []
  digits_hex : ∀ d ∈ digits, QByteArray.isDigitForBase d 16 = true
  blanks_blank : ∀ c ∈ blanks, c = 0x20 ∨ c = 0x09
  extension_head : ∀ c, extension.head? = some c → c = 0x3b
  extension_text : ∀ c ∈ extension, c ≠ cr ∧ c ≠ lf

namespace SizeLine

def text (l : SizeLine) : QByteArray :=
  l.digits ++ l.blanks ++ l.extension

def size (l : SizeLine) : ℕ :=
  QByteArray.digitsValue 16 l.digits

/-- The line and the "\r\n" before it are shorter than an `int` can count, and the size is a
`long`. -/
structure Fits (l : SizeLine) : Prop where
  length : l.text.length + 3 < 2 ^ 31
  size : l.size < 2 ^ 63

end SizeLine

/-- A chunk with data. -/
structure Chunk where
  line : SizeLine
  data : QByteArray
  size_eq : line.size = data.length
  data_ne_nil : data ≠ []

/-- The octets of chunks, of the last one, and of the "\r\n" after it. -/
def framed (last : SizeLine) : List Chunk → QByteArray
  | [] => last.text ++ [cr, lf] ++ [cr, lf]
  | chunk :: chunks => chunk.line.text ++ [cr, lf] ++ (chunk.data ++ [cr, lf] ++ framed last chunks)

def dataOf (chunks : List Chunk) : QByteArray :=
  chunks.flatMap Chunk.data

/-- A chunked body without trailers. -/
structure Body where
  chunks : List Chunk
  last : SizeLine
  last_zero : last.size = 0

namespace Body

def octets (B : Body) : QByteArray :=
  framed B.last B.chunks

def data (B : Body) : QByteArray :=
  dataOf B.chunks

structure Fits (B : Body) : Prop where
  chunks : ∀ chunk ∈ B.chunks, chunk.line.Fits
  last : B.last.Fits

end Body

/-- What is left of the "\r\n" after a chunk, where its size line begins. -/
def Lead (lead : QByteArray) : Prop :=
  lead = [] ∨ lead = [lf] ∨ lead = [cr, lf]

/-! ### Size lines -/

namespace SizeLine

variable {l : SizeLine} {lead : QByteArray}

theorem text_ne_nil (l : SizeLine) :
  0 < l.text.length
  := by
  rw [text, List.length_append, List.length_append]
  have hdigits := List.length_pos_iff.mpr l.digits_ne_nil
  omega

theorem cr_notMem_text (l : SizeLine) :
  cr ∉ l.text
  := by
  intro hmem
  rw [text, List.mem_append, List.mem_append] at hmem
  rcases hmem with (hdigit | hblank) | hextension
  · exact (QByteArray.isDigitForBase_cases cr (l.digits_hex cr hdigit)).2.2.2.2.1 rfl
  · rcases l.blanks_blank cr hblank with h | h
    · exact absurd h (by decide)
    · exact absurd h (by decide)
  · exact (l.extension_text cr hextension).1 rfl

/-- The only '\r' before the end of a size line is the first octet. -/
theorem eq_nil_of_cr (hlead : Lead lead) {before after : QByteArray}
    (h : lead ++ l.text = before ++ cr :: after) :
  before = []
  := by
  have htext : ∀ {a b}, l.text ≠ a ++ cr :: b := by
    intro a b heq
    apply l.cr_notMem_text
    rw [heq]
    exact List.mem_append_right a List.mem_cons_self
  cases before with
  | nil => rfl
  | cons first before =>
    rcases hlead with rfl | rfl | rfl
    · exact absurd h htext
    · exact absurd (List.cons.inj h).2 htext
    · cases before with
      | nil => exact absurd (List.cons.inj (List.cons.inj h).2).1 (by decide)
      | cons second before => exact absurd (List.cons.inj (List.cons.inj h).2).2 htext

/-- The size is read off a complete line. -/
theorem sizeOfLine_text (hlead : Lead lead) (hfits : l.Fits) {rest : QByteArray}
    (hrest : rest = [] ∨ rest = [cr]) :
  sizeOfLine (lead ++ l.text ++ rest) = l.size
  := by
  have hspace : ∀ c, c = cr ∨ c = lf → QByteArray.ascii_isspace c = true ∧ c ≠ 0x3b := by
    rintro c (rfl | rfl) <;> decide
  have hlead_space : ∀ c ∈ lead, QByteArray.ascii_isspace c = true ∧ c ≠ 0x3b := by
    intro c hc
    apply hspace
    rcases hlead with rfl | rfl | rfl
    · cases hc
    · exact .inr (List.mem_singleton.mp hc)
    · rw [List.mem_cons, List.mem_singleton] at hc
      exact hc
  have hrest_space : ∀ c ∈ rest, QByteArray.ascii_isspace c = true ∧ c ≠ 0x3b := by
    intro c hc
    apply hspace
    rcases hrest with rfl | rfl
    · cases hc
    · exact .inl (List.mem_singleton.mp hc)
  have hblank_space : ∀ c ∈ l.blanks, QByteArray.ascii_isspace c = true ∧ c ≠ 0x3b := by
    intro c hc
    rcases l.blanks_blank c hc with rfl | rfl <;> decide
  have hbefore : ∀ c ∈ lead ++ l.digits ++ l.blanks, c ≠ 0x3b := by
    intro c hc
    rw [List.mem_append, List.mem_append] at hc
    rcases hc with (hc | hc) | hc
    · exact (hlead_space c hc).2
    · exact (QByteArray.isDigitForBase_cases c (l.digits_hex c hc)).2.2.2.1
    · exact (hblank_space c hc).2
  -- What is left of the line are spaces after the digits.
  have htaken : ∃ after, (∀ c ∈ after, QByteArray.ascii_isspace c = true)
      ∧ (lead ++ l.text ++ rest).takeWhile (· ≠ 0x3b) = lead ++ l.digits ++ after := by
    have hsplit : lead ++ l.text ++ rest
        = lead ++ l.digits ++ l.blanks ++ (l.extension ++ rest) := by
      simp only [text, List.append_assoc]
    rw [hsplit, List.takeWhile_append_of_pos (by
      intro c hc
      exact decide_eq_true (hbefore c hc))]
    cases hextension : l.extension with
    | nil =>
      refine ⟨l.blanks ++ rest, ?_, ?_⟩
      · intro c hc
        rcases List.mem_append.mp hc with hc | hc
        · exact (hblank_space c hc).1
        · exact (hrest_space c hc).1
      · rw [List.nil_append, List.takeWhile_eq_self_iff.mpr (by
          intro c hc
          exact decide_eq_true (hrest_space c hc).2), List.append_assoc]
    | cons c extension =>
      refine ⟨l.blanks, fun c hc => (hblank_space c hc).1, ?_⟩
      have hc := l.extension_head c (by rw [hextension]; rfl)
      rw [List.cons_append, List.takeWhile_cons_of_neg (by simp [hc]), List.append_nil]
  obtain ⟨after, hafter, htaken⟩ := htaken
  rw [sizeOfLine, htaken, QByteArray.trimmed_append (fun c hc => (hlead_space c hc).1)
    (fun d hd => (QByteArray.isDigitForBase_cases d (l.digits_hex d hd)).1) hafter]
  exact QByteArray.toLong_digits l.digits_ne_nil l.digits_hex hfits.size

end SizeLine

/-! ### Reading the size -/

theorem toInt_of_lt {n : ℕ} (h : n < 2 ^ 31) :
  toInt n = n
  := by
  rw [toInt, Int.bmod_eq_of_le_mul_two]
  · omega
  · omega

/-- Where the end of a size line can be from a fragment of it. -/
theorem SizeLine.next_octet {l : SizeLine} {lead after fragment stream : QByteArray} {c : UInt8}
    (hline : fragment ++ c :: stream = lead ++ l.text ++ cr :: lf :: after)
    (hshort : fragment.length ≤ lead.length + l.text.length + 1) :
  fragment = lead ++ l.text ∧ c = cr ∧ stream = lf :: after
    ∨ fragment = lead ++ l.text ++ [cr] ∧ c = lf ∧ stream = after
    ∨ ∃ more, lead ++ l.text = fragment ++ c :: more
  := by
  rcases List.append_eq_append_iff.mp hline with ⟨more, htext, hrest⟩ | ⟨more, htext, hrest⟩
  · cases more with
    | nil =>
      obtain ⟨hc, hstream⟩ := List.cons.inj hrest
      rw [List.append_nil] at htext
      exact .inl ⟨htext.symm, hc, hstream⟩
    | cons first more =>
      obtain ⟨rfl, -⟩ := List.cons.inj hrest
      exact .inr (.inr ⟨more, htext⟩)
  · cases more with
    | nil =>
      obtain ⟨hc, hstream⟩ := List.cons.inj hrest
      rw [List.append_nil] at htext
      exact .inl ⟨htext, hc.symm, hstream.symm⟩
    | cons first more =>
      obtain ⟨rfl, htail⟩ := List.cons.inj hrest
      have hnil : more = [] := by
        rw [htext, List.length_append, List.length_append, List.length_cons] at hshort
        exact List.eq_nil_of_length_eq_zero (by omega)
      subst hnil
      obtain ⟨hc, hstream⟩ := List.cons.inj htail
      exact .inr (.inl ⟨htext, hc.symm, hstream.symm⟩)

/-- From a fragment of a size line the end of the line is read, or more of it is kept. -/
def Scanned (l : SizeLine) (lead after fragment stream socket : QByteArray) (bytes available : ℤ)
    (scan : SizeScan) : Prop :=
  ∃ read, socket = read ++ scan.socket ∧ scan.bytes = bytes + read.length
    ∧ (bytes < available → socket ≠ [] → read ≠ [])
    ∧ (scan.chunkSize = l.size ∧ scan.fragment = [] ∧ read ≠ [] ∧ stream = read ++ after
      ∨ scan.chunkSize = -1 ∧ scan.fragment = fragment ++ read
        ∧ (fragment ++ read).length ≤ lead.length + l.text.length + 1)

theorem getChunkSizeLoop_scanned {l : SizeLine} {lead after : QByteArray} (hlead : Lead lead)
    (hfits : l.Fits) (available : ℤ) {socket fragment stream : QByteArray} (bytes : ℤ)
    (hline : fragment ++ stream = lead ++ l.text ++ cr :: lf :: after)
    (hshort : fragment.length ≤ lead.length + l.text.length + 1) (hsocket : socket <+: stream) :
  Scanned l lead after fragment stream socket bytes available
    (getChunkSizeLoop available socket fragment bytes)
  := by
  have hlead_length : lead.length ≤ 2 := by
    rcases hlead with rfl | rfl | rfl <;> decide
  have htext_length := l.text_ne_nil
  have hlength := hfits.length
  induction socket generalizing fragment stream bytes with
  | nil =>
    refine ⟨[], rfl, (Int.add_zero bytes).symm, fun _ h => absurd rfl h, .inr ⟨rfl, ?_, ?_⟩⟩
    · exact (List.append_nil fragment).symm
    · rw [List.append_nil]
      exact hshort
  | cons c rest ih =>
    obtain ⟨later, rfl⟩ := hsocket
    have hint : toInt fragment.length = fragment.length := toInt_of_lt (by omega)
    have hoctet := SizeLine.next_octet hline hshort
    -- The octet becomes part of the fragment.
    have hkeep : fragment.length + 1 ≤ lead.length + l.text.length + 1 →
        Scanned l lead after fragment (c :: rest ++ later) (c :: rest) bytes available
          (getChunkSizeLoop available rest (fragment ++ [c]) (bytes + 1)) := by
      intro hle
      have hrest : fragment ++ [c] ++ (rest ++ later)
          = lead ++ l.text ++ cr :: lf :: after := by
        rw [← hline, List.append_assoc]
        rfl
      obtain ⟨read, hread, hbytes, -, hresult⟩ := ih (bytes + 1) hrest
        (by rw [List.length_append, List.length_singleton]; exact hle)
        (List.prefix_append _ _)
      refine ⟨c :: read, congrArg (c :: ·) hread, ?_, fun _ _ => List.cons_ne_nil _ _, ?_⟩
      · rw [hbytes, List.length_cons]
        omega
      · rcases hresult with ⟨hsize, hfragment, -, hafter⟩ | ⟨hsize, hfragment, hle⟩
        · exact .inl ⟨hsize, hfragment, List.cons_ne_nil _ _, congrArg (c :: ·) hafter⟩
        · rw [List.append_assoc] at hfragment hle
          exact .inr ⟨hsize, hfragment, hle⟩
    rw [getChunkSizeLoop]
    split
    next hend =>
      refine ⟨[], rfl, (Int.add_zero bytes).symm, fun h => absurd h (by omega),
        .inr ⟨rfl, (List.append_nil fragment).symm, ?_⟩⟩
      rw [List.append_nil]
      exact hshort
    next =>
      dsimp only
      rw [hint]
      rcases hoctet with ⟨rfl, rfl, hlater⟩ | ⟨rfl, rfl, hlater⟩ | ⟨more, hmore⟩
      · split
        next hboth =>
          obtain ⟨-, -, hlf⟩ := hboth
          obtain ⟨rest, rfl⟩ : ∃ tail, rest = lf :: tail := by
            cases rest with
            | nil => cases hlf
            | cons first tail => exact ⟨tail, by rw [Option.some.inj hlf]⟩
          refine ⟨[cr, lf], rfl, rfl, fun _ _ => by simp, .inl ⟨?_, rfl, by simp, ?_⟩⟩
          · rw [← SizeLine.sizeOfLine_text hlead hfits (.inl rfl), List.append_nil]
          · exact congrArg (cr :: ·) hlater
        next =>
          rw [if_neg (fun h => absurd h.2.2 (by decide))]
          exact hkeep (by rw [List.length_append])
      · rw [if_neg (fun h => absurd h.2.1 (by decide)), if_pos]
        · refine ⟨[lf], rfl, rfl, fun _ _ => by simp, .inl ⟨?_, rfl, by simp, ?_⟩⟩
          · exact SizeLine.sizeOfLine_text hlead hfits (.inr rfl)
          · exact congrArg (lf :: ·) hlater
        · refine ⟨?_, List.getLast?_concat, rfl⟩
          rw [List.length_append, List.length_append, List.length_singleton]
          omega
      · have hlength := congrArg List.length hmore
        rw [List.length_append, List.length_append, List.length_cons] at hlength
        rw [if_neg, if_neg]
        · exact hkeep (by omega)
        · rintro ⟨hlong, hlast, rfl⟩
          obtain ⟨before, rfl⟩ := List.getLast?_eq_some_iff.mp hlast
          rw [List.append_assoc] at hmore
          rw [SizeLine.eq_nil_of_cr hlead hmore] at hlong
          exact absurd hlong (by decide)
        · rintro ⟨hlong, rfl, -⟩
          rw [SizeLine.eq_nil_of_cr hlead hmore] at hlong
          exact hlong rfl

/-! ### Reading data -/

theorem toInt_toBeRead {size : ℤ} (h : 0 ≤ size) (n : ℕ) :
  toInt (min (128 * 1024) (min size n)) = min (128 * 1024) (min size n)
  := by
  rw [toInt, Int.bmod_eq_of_le_mul_two]
  · omega
  · omega

/-- However much a turn reads, the loop reads what is asked for, or all there is. -/
theorem readReplyBodyRawLoop_eq {turns : ℕ} {toBeRead size : ℤ} {socket : QByteArray}
    (hturns : socket.length ≤ turns) (hsize : 0 ≤ size) (hle : toBeRead ≤ min size socket.length)
    (hpos : 0 < min size socket.length → 0 < toBeRead) :
  (readReplyBodyRawLoop turns toBeRead size socket).socket = socket.drop size.toNat
    ∧ (readReplyBodyRawLoop turns toBeRead size socket).out.flatten = socket.take size.toNat
    ∧ (readReplyBodyRawLoop turns toBeRead size socket).bytes = (socket.take size.toNat).length
  := by
  induction turns generalizing toBeRead size socket with
  | zero =>
    have hnil := List.eq_nil_of_length_eq_zero (Nat.le_zero.mp hturns)
    subst hnil
    rw [List.take_nil, List.drop_nil]
    exact ⟨rfl, rfl, rfl⟩
  | succ turns ih =>
    rw [readReplyBodyRawLoop]
    split
    next hstop =>
      have hnothing : size = 0 ∨ socket = [] := by
        rcases hstop with hnone | hempty
        · by_contra hsome
          rw [not_or] at hsome
          have hlength := List.length_pos_iff.mpr hsome.2
          have hread := hpos (by omega)
          omega
        · exact .inr hempty
      rcases hnothing with rfl | rfl
      · exact ⟨rfl, rfl, rfl⟩
      · rw [List.take_nil, List.drop_nil]
        exact ⟨rfl, rfl, rfl⟩
    next hread =>
      rw [not_or] at hread
      have hlength := List.length_pos_iff.mpr hread.2
      have htaken : ((socket.take toBeRead.toNat).length : ℤ) = toBeRead := by
        rw [List.length_take]
        omega
      have hleft : ((socket.drop toBeRead.toNat).length : ℤ) = socket.length - toBeRead := by
        rw [List.length_drop]
        omega
      dsimp only
      rw [htaken, toInt_toBeRead (by omega)]
      obtain ⟨hsocket, hout, hbytes⟩ := @ih
        (min (128 * 1024) (min (size - toBeRead) (socket.drop toBeRead.toNat).length))
        (size - toBeRead) (socket.drop toBeRead.toNat) (by omega) (by omega) (by omega) (by omega)
      have hsum : size.toNat = toBeRead.toNat + (size - toBeRead).toNat := by omega
      rw [hsocket, List.flatten_cons, hout, hbytes, hsum, List.take_add, List.drop_drop]
      refine ⟨rfl, rfl, ?_⟩
      rw [List.length_append]
      omega

theorem readReplyBodyRaw_eq (readBufferMaxSize : ℕ) {size : ℤ} (socket : QByteArray)
    (hsize : 0 ≤ size) :
  (readReplyBodyRaw readBufferMaxSize size socket).socket = socket.drop size.toNat
    ∧ (readReplyBodyRaw readBufferMaxSize size socket).out.flatten = socket.take size.toNat
    ∧ (readReplyBodyRaw readBufferMaxSize size socket).bytes = (socket.take size.toNat).length
  := by
  rw [readReplyBodyRaw, toInt_toBeRead hsize]
  apply readReplyBodyRawLoop_eq (le_refl _) hsize
  · split
    · omega
    · omega
  · intro hsome
    split
    · omega
    · omega

end QHttpNetworkReplyPrivate
