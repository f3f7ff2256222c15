import BobUI.Network.Http1.ChunkedRuns

/-!
# The size lines of chunked bodies

The lines that `getChunkSize` completes when octets arrive, whatever they are.  Each turn of the
loop of `readReplyBodyChunked` reads an octet or is the last one.  The conversion of a size gives 0
where it fails, and `getChunkSize` does not ask whether it did: a line with a malformed size ends
the body.
-/

namespace QHttpNetworkReplyPrivate

/-! ### Lines -/

/-- The size line that `getChunkSize` completes, without its "\r\n". -/
def lineRead (fragment socket : QByteArray) : Option QByteArray :=
  let scan := getChunkSize fragment socket
  let octets := fragment ++ socket.take (socket.length - scan.socket.length)
  if scan.fragment = [] ∧ octets ≠ [] then some octets.dropLast.dropLast else none

/-- The octets of a line that are converted. -/
def sizeText (line : QByteArray) : QByteArray :=
  QByteArray.trimmed (line.takeWhile (· ≠ 0x3b))

/-- A non-negative hexadecimal number. -/
def HexNumber (text : QByteArray) : Prop :=
  text ≠ [] ∧ ∀ d ∈ text, QByteArray.isDigitForBase d 16 = true

theorem sizeOfLine_ne_zero_iff {line : QByteArray} :
  sizeOfLine line ≠ 0 ↔ QByteArray.NonzeroNumber (sizeText line)
  := QByteArray.toLong_ne_zero_iff

/-- A '\r' at the end of a line is a space, or belongs to the chunk-extension. -/
theorem sizeOfLine_cr (line : QByteArray) :
  sizeOfLine (line ++ [cr]) = sizeOfLine line
  := by
  unfold sizeOfLine
  by_cases h : ∀ c ∈ line, decide (c ≠ 0x3b) = true
  · have hline : (line ++ [cr]).takeWhile (· ≠ 0x3b) = line ++ [cr] := by
      rw [List.takeWhile_append_of_pos h]
      rfl
    rw [hline, List.takeWhile_eq_self_iff.mpr h, QByteArray.trimmed, QByteArray.trimmed,
      List.rdropWhile_concat_pos _ _ _ (by decide)]
  · have hlength : (line.takeWhile (· ≠ 0x3b)).length ≠ line.length := by
      intro heq
      have hself := (List.takeWhile_prefix (fun c : UInt8 => decide (c ≠ 0x3b))).eq_of_length heq
      apply h (List.takeWhile_eq_self_iff.mp hself)
    rw [List.takeWhile_append, if_neg hlength]

/-- What `getChunkSize` has read: a part of a line, or the rest of one. -/
inductive ScanResult (fragment socket : QByteArray) (scan : SizeScan) : Prop where
  | part (h_size : scan.chunkSize = -1)
      (h_octets : fragment ++ socket = scan.fragment ++ scan.socket)
      (h_length : scan.socket.length ≤ socket.length)
  | line (line : QByteArray) (h_size : scan.chunkSize = sizeOfLine line)
      (h_fragment : scan.fragment = [])
      (h_octets : fragment ++ socket = line ++ cr :: lf :: scan.socket)
      (h_length : scan.socket.length < socket.length)

theorem getChunkSizeLoop_result (available : ℤ) (socket fragment : QByteArray) (bytes : ℤ) :
  ScanResult fragment socket (getChunkSizeLoop available socket fragment bytes)
  := by
  induction socket generalizing fragment bytes with
  | nil => exact .part rfl rfl (Nat.le_refl _)
  | cons c rest ih =>
    rw [getChunkSizeLoop]
    split
    · exact .part rfl rfl (Nat.le_refl _)
    · dsimp only
      split
      next hcrlf =>
        obtain ⟨-, rfl, hhead⟩ := hcrlf
        obtain ⟨after, rfl⟩ := List.head?_eq_some_iff.mp hhead
        apply ScanResult.line fragment
        · rfl
        · rfl
        · rfl
        · exact Nat.lt_of_lt_of_le (Nat.lt_succ_self _) (Nat.le_succ _)
      next =>
        split
        next hlf =>
          obtain ⟨-, hlast, rfl⟩ := hlf
          obtain ⟨line, rfl⟩ := List.getLast?_eq_some_iff.mp hlast
          apply ScanResult.line line
          · apply sizeOfLine_cr
          · rfl
          · simp
          · simp
        next =>
          have hshift : fragment ++ c :: rest = fragment ++ [c] ++ rest := by simp
          cases ih (fragment ++ [c]) (bytes + 1) with
          | part hsize hoctets hlength =>
            exact .part hsize (hshift.trans hoctets) (Nat.le_succ_of_le hlength)
          | line line hsize hfragment hoctets hlength =>
            exact .line line hsize hfragment (hshift.trans hoctets)
              (Nat.lt_succ_of_lt hlength)

/-- Whether a line is completed, and the size that is read. -/
theorem getChunkSize_lineRead (fragment socket : QByteArray) :
  lineRead fragment socket = none ∧ (getChunkSize fragment socket).chunkSize = -1
    ∨ ∃ line, lineRead fragment socket = some line
      ∧ (getChunkSize fragment socket).chunkSize = sizeOfLine line
      ∧ fragment ++ socket = line ++ cr :: lf :: (getChunkSize fragment socket).socket
      ∧ (getChunkSize fragment socket).socket.length < socket.length
  := by
  rw [lineRead]
  generalize hscan : getChunkSize fragment socket = scan
  have hresult : ScanResult fragment socket scan := by
    rw [← hscan]
    apply getChunkSizeLoop_result
  cases hresult with
  | part hsize hoctets hlength =>
    left
    have htaken : fragment ++ socket.take (socket.length - scan.socket.length)
        = scan.fragment := by
      have htake := congrArg (List.take (fragment.length + (socket.length - scan.socket.length)))
        hoctets
      have hsum := congrArg List.length hoctets
      rw [List.length_append, List.length_append] at hsum
      rw [List.take_length_add_append] at htake
      rw [htake, List.take_append_of_le_length (by omega), List.take_of_length_le (by omega)]
    rw [htaken, if_neg]
    · exact ⟨rfl, hsize⟩
    · rintro ⟨hnil, hne⟩
      exact absurd hnil hne
  | line line hsize hfragment hoctets hlength =>
    right
    use line
    have htaken : fragment ++ socket.take (socket.length - scan.socket.length)
        = line ++ [cr, lf] := by
      have htake := congrArg (List.take (fragment.length + (socket.length - scan.socket.length)))
        hoctets
      have hsum := congrArg List.length hoctets
      rw [List.length_append, List.length_append, List.length_cons, List.length_cons] at hsum
      have hsplit : line ++ cr :: lf :: scan.socket = (line ++ [cr, lf]) ++ scan.socket := by
        simp
      have htotal : (line ++ [cr, lf]).length
          = fragment.length + (socket.length - scan.socket.length) := by
        rw [List.length_append, List.length_cons, List.length_cons, List.length_nil]
        omega
      rw [List.take_length_add_append, hsplit, ← htotal, List.take_left] at htake
      apply htake
    rw [htaken, if_pos ⟨hfragment, by simp⟩]
    refine ⟨?_, hsize, hoctets, hlength⟩
    simp

/-! ### Progress -/

/-- The loop of `readReplyBodyRaw` needs no more turns than there are octets. -/
theorem readReplyBodyRawLoop_turns {turns turns' : ℕ} {toBeRead size : ℤ} {socket : QByteArray}
    (h : socket.length ≤ turns) (h' : socket.length ≤ turns') :
  readReplyBodyRawLoop turns toBeRead size socket
    = readReplyBodyRawLoop turns' toBeRead size socket
  := by
  have hnil : ∀ (n : ℕ) (toBeRead size : ℤ),
      readReplyBodyRawLoop n toBeRead size [] = ⟨0, [], []⟩ := by
    intro n toBeRead size
    cases n with
    | zero => rfl
    | succ n => exact if_pos (Or.inr rfl)
  induction turns generalizing turns' toBeRead size socket with
  | zero =>
    rw [List.eq_nil_of_length_eq_zero (Nat.le_zero.mp h), hnil, hnil]
  | succ turns ih =>
    cases turns' with
    | zero => rw [List.eq_nil_of_length_eq_zero (Nat.le_zero.mp h'), hnil, hnil]
    | succ turns' =>
      rw [readReplyBodyRawLoop, readReplyBodyRawLoop]
      split
      · rfl
      next hread =>
        rw [not_or] at hread
        have hdrop : (socket.drop toBeRead.toNat).length = socket.length - toBeRead.toNat :=
          List.length_drop
        have hpos := List.length_pos_iff.mpr hread.2
        have hsame : ∀ toBeRead' size',
            readReplyBodyRawLoop turns toBeRead' size' (socket.drop toBeRead.toNat)
              = readReplyBodyRawLoop turns' toBeRead' size' (socket.drop toBeRead.toNat) :=
          fun toBeRead' size' => ih (by omega) (by omega)
        dsimp only
        rw [hsame]

theorem readReplyBodyRawLoop_length (turns : ℕ) (toBeRead size : ℤ) (socket : QByteArray) :
  (readReplyBodyRawLoop turns toBeRead size socket).socket.length ≤ socket.length
    ∧ 0 ≤ (readReplyBodyRawLoop turns toBeRead size socket).bytes
  := by
  induction turns generalizing toBeRead size socket with
  | zero => exact ⟨Nat.le_refl _, Int.le_refl _⟩
  | succ turns ih =>
    rw [readReplyBodyRawLoop]
    split
    · exact ⟨Nat.le_refl _, Int.le_refl _⟩
    · dsimp only
      have hih := ih
        (toInt (min (128 * 1024) (min (size - (socket.take toBeRead.toNat).length)
          (socket.drop toBeRead.toNat).length)))
        (size - (socket.take toBeRead.toNat).length) (socket.drop toBeRead.toNat)
      have hdrop : (socket.drop toBeRead.toNat).length ≤ socket.length := by
        rw [List.length_drop]
        apply Nat.sub_le
      constructor
      · apply Nat.le_trans hih.1 hdrop
      · have hbytes := hih.2
        omega

/-- The next turn of the loop of `readReplyBodyChunked`, if there is one. -/
def nextTurnOf : Flow → Option (ℤ × Channel)
  | .stop _ _ => none
  | .go bytes c =>
    if c.reply.currentChunkSize = 0 ∨ c.reply.lastChunkRead then none
    else
      let raw := readReplyBodyRaw c.reply.readBufferMaxSize
        (c.reply.currentChunkSize - c.reply.currentChunkRead) c.socket
      some (bytes + raw.bytes, afterRaw c raw)

theorem continueTurn_some {flow : Flow} {next : ℤ × Channel} (h : nextTurnOf flow = some next)
    (nextTurn : ℤ → Channel → ℤ × Channel) :
  continueTurn nextTurn flow = nextTurn next.1 next.2
  := by
  cases flow with
  | stop bytes c => cases h
  | go bytes c =>
    rw [nextTurnOf] at h
    rw [continueTurn]
    split at h
    · cases h
    next hgo =>
      rw [if_neg hgo]
      cases h
      rfl

/-- The result of the last turn. -/
def lastTurn (flow : Flow) : ℤ × Channel :=
  continueTurn (fun bytes c => (bytes, c)) flow

theorem continueTurn_none {flow : Flow} (h : nextTurnOf flow = none)
    (nextTurn : ℤ → Channel → ℤ × Channel) :
  continueTurn nextTurn flow = lastTurn flow
  := by
  cases flow with
  | stop bytes c => rfl
  | go bytes c =>
    rw [nextTurnOf] at h
    rw [lastTurn, continueTurn, continueTurn]
    split at h
    next hend => rw [if_pos hend, if_pos hend]
    · cases h

/-- Whether a turn has read an octet before the data. -/
theorem nextChunk_length {bytes bytes' : ℤ} {c c' : Channel}
    (h : nextChunk bytes c = .go bytes' c') :
  c'.socket.length < c.socket.length
  := by
  rw [nextChunk] at h
  dsimp only at h
  rcases getChunkSize_lineRead c.reply.fragment c.socket with
    ⟨-, hsize⟩ | ⟨line, -, -, -, hlength⟩
  · rw [if_pos hsize] at h
    cases h
  · split at h
    · cases h
    · cases h
      exact hlength

theorem readReplyBodyRaw_length (readBufferMaxSize : ℕ) (size : ℤ) (socket : QByteArray) :
  (readReplyBodyRaw readBufferMaxSize size socket).socket.length ≤ socket.length
    ∧ 0 ≤ (readReplyBodyRaw readBufferMaxSize size socket).bytes
  := readReplyBodyRawLoop_length _ _ _ _

theorem nextTurnOf_length {bytes : ℤ} {c : Channel} {next : ℤ × Channel} (hsocket : c.socket ≠ [])
    (h : nextTurnOf (beginChunk bytes c) = some next) :
  next.2.socket.length < c.socket.length
  := by
  cases hflow : beginChunk bytes c with
  | stop bytes' c' =>
    rw [hflow] at h
    cases h
  | go bytes' c' =>
    rw [hflow, nextTurnOf] at h
    split at h
    · cases h
    next hgo =>
      cases h
      dsimp only [afterRaw]
      rw [not_or] at hgo
      have hraw := (readReplyBodyRaw_length c'.reply.readBufferMaxSize
        (c'.reply.currentChunkSize - c'.reply.currentChunkRead) c'.socket).1
      rw [beginChunk] at hflow
      split at hflow
      · dsimp only at hflow
        split at hflow
        · split at hflow
          · cases hflow
          · have hlength := nextChunk_length hflow
            dsimp only at hlength
            rw [List.length_drop] at hlength
            omega
        · have hlength := nextChunk_length hflow
          dsimp only at hlength
          omega
      next hdata =>
        cases hflow
        have hunread : 0 < c.reply.currentChunkSize - c.reply.currentChunkRead := by
          by_contra hread
          apply hdata
          constructor
          · rw [Bool.not_eq_true', ← Bool.not_eq_true]
            exact hgo.2
          · omega
        rw [(readReplyBodyRaw_eq _ _ (by omega)).1, List.length_drop]
        have hpos := List.length_pos_iff.mpr hsocket
        omega

/-- The loop of `readReplyBodyChunked` needs no more turns than there are octets. -/
theorem readReplyBodyChunkedLoop_turns {turns turns' : ℕ} (bytes : ℤ) {c : Channel}
    (h : c.socket.length < turns) (h' : c.socket.length < turns') :
  readReplyBodyChunkedLoop turns bytes c = readReplyBodyChunkedLoop turns' bytes c
  := by
  induction turns generalizing turns' bytes c with
  | zero => omega
  | succ turns ih =>
    cases turns' with
    | zero => omega
    | succ turns' =>
      rw [readReplyBodyChunkedLoop, readReplyBodyChunkedLoop]
      split
      · rfl
      next hsocket =>
        split
        · rfl
        · cases hnext : nextTurnOf (beginChunk bytes c) with
          | none => rw [continueTurn_none hnext, continueTurn_none hnext]
          | some next =>
            have hlength := nextTurnOf_length hsocket hnext
            rw [continueTurn_some hnext, continueTurn_some hnext]
            apply ih
            · omega
            · omega

/-! ### The lines of a run -/

/-- The size line that a turn of the loop of `readReplyBodyChunked` completes. -/
def turnLine (bytes : ℤ) (c : Channel) : Option QByteArray :=
  if !c.reply.lastChunkRead ∧ c.reply.currentChunkSize ≤ c.reply.currentChunkRead then
    if bytes ≠ 0 then
      if c.socket.length < 2 then none
      else lineRead c.reply.fragment (c.socket.drop 2)
    else lineRead c.reply.fragment c.socket
  else none

/-- The size lines that the loop completes, turn by turn. -/
def loopLines : ℕ → ℤ → Channel → List QByteArray
  | 0, _, _ => []
  | turns + 1, bytes, c =>
    if c.socket = [] then []
    else if c.reply.readBufferMaxSize ≠ 0 ∧ bytes > c.reply.readBufferMaxSize then []
    else
      (turnLine bytes c).toList ++
        match nextTurnOf (beginChunk bytes c) with
        | none => []
        | some next => loopLines turns next.1 next.2

/-- The size lines that a call completes when octets have become available. -/
def receiveLines (c : Channel) (arrived : QByteArray) : List QByteArray :=
  let c := { c with socket := c.socket ++ arrived }
  if c.reply.state = .ReadingDataState then loopLines (c.socket.length + 1) 0 c else []

def receiveWithLines (p : Channel × List QByteArray) (arrived : QByteArray) :
    Channel × List QByteArray :=
  (receive p.1 arrived, p.2 ++ receiveLines p.1 arrived)

/-- The size lines that the calls complete for octets that become available in parts. -/
def sizeLines (readBufferMaxSize : ℕ) (arrivals : List QByteArray) : List QByteArray :=
  (arrivals.foldl receiveWithLines (started readBufferMaxSize, [])).2

/-- The body is ended by the first line whose size is 0, and no line is read after it. -/
structure Ledger (c : Channel) (lines : List QByteArray) : Prop where
  read_nonneg : 0 ≤ c.reply.currentChunkRead
  going : c.reply.lastChunkRead = false → ∀ line ∈ lines, sizeOfLine line ≠ 0
  ended : c.reply.lastChunkRead = true →
    ∃ before line, lines = before ++ [line] ∧ sizeOfLine line = 0
      ∧ ∀ other ∈ before, sizeOfLine other ≠ 0

theorem nextChunk_line (bytes : ℤ) (c : Channel) :
  ∃ bytes' c', c'.reply.lastChunkRead = c.reply.lastChunkRead
    ∧ c'.reply.currentChunkRead = c.reply.currentChunkRead
    ∧ (nextChunk bytes c = .stop bytes' c'
        ∧ (∀ line, lineRead c.reply.fragment c.socket = some line → sizeOfLine line ≠ 0)
      ∨ ∃ line, nextChunk bytes c = .go bytes' c'
        ∧ lineRead c.reply.fragment c.socket = some line
        ∧ c'.reply.currentChunkSize = sizeOfLine line)
  := by
  use bytes + (getChunkSize c.reply.fragment c.socket).bytes,
    afterScan c (getChunkSize c.reply.fragment c.socket), rfl, rfl
  rw [nextChunk]
  rcases getChunkSize_lineRead c.reply.fragment c.socket with
    ⟨hnone, hsize⟩ | ⟨line, hline, hsize, -⟩
  · left
    use if_pos hsize
    intro line hsome
    rw [hnone] at hsome
    cases hsome
  · by_cases hminus : (getChunkSize c.reply.fragment c.socket).chunkSize = -1
    · left
      use if_pos hminus
      intro line' hsome
      rw [hline, Option.some_inj] at hsome
      rw [← hsome, ← hsize, hminus]
      decide
    · right
      use line, if_neg hminus, hline
      exact hsize

theorem beginChunk_line (bytes : ℤ) (c : Channel) :
  (c.reply.lastChunkRead = true ∨ c.reply.currentChunkRead < c.reply.currentChunkSize)
      ∧ beginChunk bytes c = .go bytes c ∧ turnLine bytes c = none
    ∨ c.reply.lastChunkRead = false
      ∧ ∃ bytes' c', c'.reply.lastChunkRead = false ∧ c'.reply.currentChunkRead = 0
        ∧ (beginChunk bytes c = .stop bytes' c'
            ∧ (∀ line, turnLine bytes c = some line → sizeOfLine line ≠ 0)
          ∨ ∃ line, beginChunk bytes c = .go bytes' c' ∧ turnLine bytes c = some line
            ∧ c'.reply.currentChunkSize = sizeOfLine line)
  := by
  rw [beginChunk, turnLine]
  split
  next hbegin =>
    right
    have hlast : c.reply.lastChunkRead = false := by
      rw [← Bool.not_eq_true']
      exact hbegin.1
    use hlast
    by_cases hbytes : bytes ≠ 0
    · rw [if_pos hbytes, if_pos hbytes]
      by_cases hshort : c.socket.length < 2
      · rw [if_pos hshort, if_pos hshort]
        use bytes, startLine c [], hlast, rfl
        left
        use rfl
        intro line hnone
        cases hnone
      · rw [if_neg hshort, if_neg hshort]
        obtain ⟨bytes', c', hlast', hread, hnext⟩ := nextChunk_line (bytes + 2)
          (startLine c (c.socket.drop 2))
        use bytes', c', hlast'.trans hlast, hread
        exact hnext
    · rw [if_neg hbytes, if_neg hbytes]
      obtain ⟨bytes', c', hlast', hread, hnext⟩ := nextChunk_line bytes
        (startLine c c.socket)
      use bytes', c', hlast'.trans hlast, hread
      exact hnext
  next hdata =>
    left
    refine ⟨?_, rfl, rfl⟩
    by_cases hlast : c.reply.lastChunkRead = true
    · exact Or.inl hlast
    · right
      by_contra hle
      apply hdata
      constructor
      · rw [Bool.not_eq_true', ← Bool.not_eq_true]
        exact hlast
      · omega

theorem endBody_ledger (bytes : ℤ) (c : Channel) :
  (endBody bytes c).2.reply.lastChunkRead = true
    ∧ (endBody bytes c).2.reply.currentChunkRead = c.reply.currentChunkRead
  := by
  rw [endBody]
  dsimp only
  split
  · exact ⟨rfl, rfl⟩
  · split
    · exact ⟨rfl, rfl⟩
    · exact ⟨rfl, rfl⟩

section Ledger

variable {c : Channel} {lines : List QByteArray}

theorem Ledger.append_ended (h : Ledger c lines) (hlast : c.reply.lastChunkRead = false)
    {line : QByteArray} (hzero : sizeOfLine line = 0) {c' : Channel}
    (hread : 0 ≤ c'.reply.currentChunkRead) (hlast' : c'.reply.lastChunkRead = true) :
  Ledger c' (lines ++ [line])
  := by
  constructor
  · apply hread
  · intro hgoing
    rw [hlast'] at hgoing
    cases hgoing
  · intro _
    exact ⟨lines, line, rfl, hzero, h.going hlast⟩

theorem Ledger.append_going (h : Ledger c lines) (hlast : c.reply.lastChunkRead = false)
    {line : Option QByteArray} (hsize : ∀ l, line = some l → sizeOfLine l ≠ 0) {c' : Channel}
    (hread : 0 ≤ c'.reply.currentChunkRead) (hlast' : c'.reply.lastChunkRead = false) :
  Ledger c' (lines ++ line.toList)
  := by
  constructor
  · apply hread
  · intro _ l hl
    rcases List.mem_append.mp hl with hl | hl
    · apply h.going hlast l hl
    · apply hsize l (Option.mem_toList.mp hl)
  · intro hended
    rw [hlast'] at hended
    cases hended

/-- A turn of the loop adds its line to the ledger. -/
theorem Ledger.turn (h : Ledger c lines) (bytes : ℤ) :
  (nextTurnOf (beginChunk bytes c) = none →
      Ledger (lastTurn (beginChunk bytes c)).2 (lines ++ (turnLine bytes c).toList))
    ∧ ∀ next, nextTurnOf (beginChunk bytes c) = some next →
      Ledger next.2 (lines ++ (turnLine bytes c).toList)
  := by
  rcases beginChunk_line bytes c with
    ⟨hdata, hflow, hline⟩ | ⟨hlast, bytes', c', hlast', hread, hflow⟩
  · rw [hflow, hline, Option.toList_none, List.append_nil, nextTurnOf, lastTurn, continueTurn]
    have hnonneg := h.read_nonneg
    by_cases hend : c.reply.currentChunkSize = 0 ∨ c.reply.lastChunkRead
    · rw [if_pos hend, if_pos hend]
      have hlast : c.reply.lastChunkRead = true := by
        rcases hdata with hlast | hlt
        · exact hlast
        · exact hend.resolve_left (by omega)
      obtain ⟨hended, hsame⟩ := endBody_ledger bytes c
      constructor
      · intro _
        constructor
        · rw [hsame]
          exact hnonneg
        · intro hgoing
          rw [hended] at hgoing
          cases hgoing
        · intro _
          apply h.ended hlast
      · intro next hnext
        cases hnext
    · rw [if_neg hend]
      constructor
      · intro hnone
        cases hnone
      · intro next hnext
        cases hnext
        have hraw := (readReplyBodyRaw_length c.reply.readBufferMaxSize
          (c.reply.currentChunkSize - c.reply.currentChunkRead) c.socket).2
        exact ⟨Int.add_nonneg hnonneg hraw, h.going, h.ended⟩
  · rcases hflow with ⟨hflow, hsize⟩ | ⟨line, hflow, hline, hsize⟩
    · rw [hflow, nextTurnOf, lastTurn, continueTurn]
      constructor
      · intro _
        apply h.append_going hlast hsize _ hlast'
        rw [hread]
      · intro next hnext
        cases hnext
    · rw [hflow, hline, nextTurnOf, lastTurn, continueTurn]
      by_cases hend : c'.reply.currentChunkSize = 0 ∨ c'.reply.lastChunkRead
      · rw [if_pos hend, if_pos hend]
        have hzero : sizeOfLine line = 0 := by
          rw [← hsize]
          apply hend.resolve_right
          rw [hlast']
          apply Bool.noConfusion
        obtain ⟨hended, hsame⟩ := endBody_ledger bytes' c'
        constructor
        · intro _
          apply h.append_ended hlast hzero _ hended
          rw [hsame, hread]
        · intro next hnext
          cases hnext
      · rw [if_neg hend]
        constructor
        · intro hnone
          cases hnone
        · intro next hnext
          cases hnext
          have hraw := (readReplyBodyRaw_length c'.reply.readBufferMaxSize
            (c'.reply.currentChunkSize - c'.reply.currentChunkRead) c'.socket).2
          have hgoing : Ledger c' (lines ++ (some line).toList) := by
            apply h.append_going hlast _ _ hlast'
            · intro l hl
              cases hl
              rw [← hsize]
              exact (not_or.mp hend).1
            · rw [hread]
          exact ⟨Int.add_nonneg hgoing.read_nonneg hraw, hgoing.going, hgoing.ended⟩

/-- The loop adds its lines to the ledger. -/
theorem Ledger.loop (h : Ledger c lines) (turns : ℕ) (bytes : ℤ) :
  Ledger (readReplyBodyChunkedLoop turns bytes c).2 (lines ++ loopLines turns bytes c)
  := by
  induction turns generalizing lines bytes c with
  | zero =>
    rw [loopLines, List.append_nil]
    exact h
  | succ turns ih =>
    rw [readReplyBodyChunkedLoop, loopLines]
    by_cases hsocket : c.socket = []
    · rw [if_pos hsocket, if_pos hsocket, List.append_nil]
      exact h
    · rw [if_neg hsocket, if_neg hsocket]
      by_cases hfull : c.reply.readBufferMaxSize ≠ 0 ∧ bytes > c.reply.readBufferMaxSize
      · rw [if_pos hfull, if_pos hfull, List.append_nil]
        exact h
      · rw [if_neg hfull, if_neg hfull]
        obtain ⟨hnone, hsome⟩ := h.turn bytes
        cases hnext : nextTurnOf (beginChunk bytes c) with
        | none =>
          rw [continueTurn_none hnext, List.append_nil]
          apply hnone hnext
        | some next =>
          rw [continueTurn_some hnext, ← List.append_assoc]
          apply ih (hsome next hnext)

theorem Ledger.receive (h : Ledger c lines) (arrived : QByteArray) :
  Ledger (receive c arrived) (lines ++ receiveLines c arrived)
  := by
  have hsocket : Ledger { c with socket := c.socket ++ arrived } lines :=
    ⟨h.read_nonneg, h.going, h.ended⟩
  rw [QHttpNetworkReplyPrivate.receive, receiveLines]
  dsimp only
  by_cases hstate : c.reply.state = .ReadingDataState
  · rw [if_pos hstate, if_pos hstate]
    apply hsocket.loop
  · rw [if_neg hstate, if_neg hstate, List.append_nil]
    exact hsocket

end Ledger

theorem foldl_receive (arrivals : List QByteArray) (p : Channel × List QByteArray) :
  (arrivals.foldl receiveWithLines p).1 = arrivals.foldl receive p.1
  := by
  induction arrivals generalizing p with
  | nil => rfl
  | cons arrived arrivals ih =>
    rw [List.foldl_cons, List.foldl_cons, ih]
    rfl

/-- The ledger of all calls. -/
theorem ledger_receiveAll (readBufferMaxSize : ℕ) (arrivals : List QByteArray) :
  Ledger (receiveAll readBufferMaxSize arrivals) (sizeLines readBufferMaxSize arrivals)
  := by
  have hrun : ∀ p : Channel × List QByteArray, Ledger p.1 p.2 →
      Ledger (arrivals.foldl receiveWithLines p).1 (arrivals.foldl receiveWithLines p).2 := by
    induction arrivals with
    | nil => exact fun p h => h
    | cons arrived arrivals ih =>
      intro p h
      rw [List.foldl_cons]
      apply ih _ (h.receive arrived)
  have hstarted := hrun (started readBufferMaxSize, []) (by
    constructor
    · apply Int.le_refl
    · intro _ line hline
      cases hline
    · intro hended
      cases hended)
  rw [foldl_receive] at hstarted
  exact hstarted

/-! ### The line that ends a body -/

/-- The body has ended at a line: it was taken for the line of the last chunk. -/
def EndedAt (readBufferMaxSize : ℕ) (arrivals : List QByteArray) (line : QByteArray) : Prop :=
  (receiveAll readBufferMaxSize arrivals).reply.lastChunkRead = true
    ∧ (sizeLines readBufferMaxSize arrivals).getLast? = some line

theorem endedAt_iff (readBufferMaxSize : ℕ) (arrivals : List QByteArray) (line : QByteArray) :
  EndedAt readBufferMaxSize arrivals line ↔
    line ∈ sizeLines readBufferMaxSize arrivals ∧ sizeOfLine line = 0
  := by
  have hledger := ledger_receiveAll readBufferMaxSize arrivals
  rw [EndedAt]
  cases hlast : (receiveAll readBufferMaxSize arrivals).reply.lastChunkRead with
  | false =>
    constructor
    · rintro ⟨hfalse, -⟩
      cases hfalse
    · rintro ⟨hline, hzero⟩
      exact absurd hzero (hledger.going hlast line hline)
  | true =>
    obtain ⟨before, last, hlines, hzero, hbefore⟩ := hledger.ended hlast
    rw [hlines, List.getLast?_append, List.getLast?_singleton, Option.some_or, Option.some_inj,
      List.mem_append, List.mem_singleton]
    constructor
    · rintro ⟨-, rfl⟩
      exact ⟨Or.inr rfl, hzero⟩
    · rintro ⟨hline | rfl, hsize⟩
      · exact absurd hsize (hbefore line hline)
      · exact ⟨rfl, rfl⟩

/-- A line ends the body if its size is 0, or is no number in range. -/
theorem endedAt_imp_iff (readBufferMaxSize : ℕ) (arrivals : List QByteArray)
    (p : QByteArray → Prop) :
  (∀ line, EndedAt readBufferMaxSize arrivals line → p (sizeText line)) ↔
    ∀ line ∈ sizeLines readBufferMaxSize arrivals,
      p (sizeText line) ∨ QByteArray.NonzeroNumber (sizeText line)
  := by
  constructor
  · intro h line hline
    by_cases hzero : sizeOfLine line = 0
    · exact Or.inl (h line ((endedAt_iff _ _ _).mpr ⟨hline, hzero⟩))
    · exact Or.inr (sizeOfLine_ne_zero_iff.mp hzero)
  · intro h line hended
    obtain ⟨hline, hzero⟩ := (endedAt_iff _ _ _).mp hended
    rcases h line hline with hp | hnumber
    · exact hp
    · exact absurd hzero (sizeOfLine_ne_zero_iff.mpr hnumber)

/-- Every turn of the loops reads an octet or is the last one, whatever the size line is.  A line
that is no hexadecimal number does not end the body, in a run, exactly if all such lines are read
as numbers other than 0; nor does a line that is not the number 0. -/
theorem chunk_size_ends_body (readBufferMaxSize : ℕ) (arrivals : List QByteArray) :
  (∀ (bytes : ℤ) (c : Channel), c.socket ≠ [] → ∀ next,
      nextTurnOf (beginChunk bytes c) = some next → next.2.socket.length < c.socket.length)
    ∧ (∀ (turns : ℕ) (bytes : ℤ) (c : Channel), c.socket.length < turns →
      readReplyBodyChunkedLoop turns bytes c
        = readReplyBodyChunkedLoop (c.socket.length + 1) bytes c)
    ∧ (∀ (turns : ℕ) (toBeRead size : ℤ) (socket : QByteArray), socket.length ≤ turns →
      readReplyBodyRawLoop turns toBeRead size socket
        = readReplyBodyRawLoop socket.length toBeRead size socket)
    ∧ ((∀ line, EndedAt readBufferMaxSize arrivals line → HexNumber (sizeText line)) ↔
      ∀ line ∈ sizeLines readBufferMaxSize arrivals,
        HexNumber (sizeText line) ∨ QByteArray.NonzeroNumber (sizeText line))
    ∧ ((∀ line, EndedAt readBufferMaxSize arrivals line → HexNumber (sizeText line)
          ∧ QByteArray.digitsValue 16 (sizeText line) = 0) ↔
      ∀ line ∈ sizeLines readBufferMaxSize arrivals,
        (HexNumber (sizeText line) ∧ QByteArray.digitsValue 16 (sizeText line) = 0)
          ∨ QByteArray.NonzeroNumber (sizeText line))
  := by
  refine ⟨?_, ?_, ?_, ?_, ?_⟩
  · intro bytes c h_socket next h_next
    apply nextTurnOf_length h_socket h_next
  · intro turns bytes c h_turns
    apply readReplyBodyChunkedLoop_turns bytes h_turns (Nat.lt_succ_self _)
  · intro turns toBeRead size socket h_turns
    apply readReplyBodyRawLoop_turns h_turns (Nat.le_refl _)
  · apply endedAt_imp_iff _ _ HexNumber
  · apply endedAt_imp_iff _ _ fun text => HexNumber text ∧ QByteArray.digitsValue 16 text = 0

/-- `xyz` on a line, and an empty line. -/
def malformedSize : QByteArray :=
  [0x78, 0x79, 0x7a, cr, lf, cr, lf]

/-- A line without any digit ends the body, and the reply is complete. -/
theorem malformedSize_ends_body :
  EndedAt 0 [malformedSize] [0x78, 0x79, 0x7a] ∧ ¬ HexNumber (sizeText [0x78, 0x79, 0x7a])
    ∧ (receiveAll 0 [malformedSize]).reply.state = .AllDoneState
    ∧ (receiveAll 0 [malformedSize]).reply.forceConnectionCloseEnabled = false
  := by
  refine ⟨⟨by decide, by decide⟩, ?_, by decide, by decide⟩
  rintro ⟨-, h_digits⟩
  have h_x := h_digits 0x78 (by decide)
  revert h_x
  decide

end QHttpNetworkReplyPrivate
