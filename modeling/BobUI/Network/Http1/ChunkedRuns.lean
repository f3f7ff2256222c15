import BobUI.Network.Http1.ChunkedBody

/-!
# Decoding a chunked body

However the octets of a chunked body become available, the calls of `readReplyBodyChunked`
decode it, unless the '\n' that ends it is alone left of the body when a call begins that finds
more than it.
-/

namespace QHttpNetworkReplyPrivate

variable {last : SizeLine} {c c' c'' : Channel} {unread data unread' data' further : QByteArray}

/-! ### Reading -/

/-- From `c` to `c'` a part of what was not read of the body is read, and the data in it are in
the buffer. -/
def Reads (c : Channel) (unread data : QByteArray) (c' : Channel) (unread' data' : QByteArray) :
    Prop :=
  ∃ read got, c.socket = read ++ c'.socket ∧ unread = read ++ unread' ∧ data = got ++ data'
    ∧ c'.body = c.body ++ got
    ∧ c'.reply.forceConnectionCloseEnabled = c.reply.forceConnectionCloseEnabled

namespace Reads

theorem trans (h : Reads c unread data c' unread' data') {unread'' data'' : QByteArray}
    (h' : Reads c' unread' data' c'' unread'' data'') :
  Reads c unread data c'' unread'' data''
  := by
  obtain ⟨read, got, hsocket, hunread, hdata, hbody, hforce⟩ := h
  obtain ⟨read', got', hsocket', hunread', hdata', hbody', hforce'⟩ := h'
  refine ⟨read ++ read', got ++ got', ?_, ?_, ?_, ?_, hforce'.trans hforce⟩
  · rw [hsocket, hsocket', List.append_assoc]
  · rw [hunread, hunread', List.append_assoc]
  · rw [hdata, hdata', List.append_assoc]
  · rw [hbody', hbody, List.append_assoc]

theorem length_le (h : Reads c unread data c' unread' data') :
  c'.socket.length ≤ c.socket.length
  := by
  obtain ⟨read, got, hsocket, -⟩ := h
  rw [hsocket, List.length_append]
  exact Nat.le_add_left _ _

/-- What is available is still the beginning of what was not read. -/
theorem stream (h : Reads c unread data c' unread' data') (hstream : c.socket <+: unread ++ further) :
  c'.socket <+: unread' ++ further
  := by
  obtain ⟨read, got, hsocket, hunread, -⟩ := h
  rw [hsocket, hunread, List.append_assoc] at hstream
  exact (List.prefix_append_right_inj read).mp hstream

end Reads

/-! ### Positions -/

/-- The line of the next chunk, or of the last one. -/
def nextLine (last : SizeLine) : List Chunk → SizeLine
  | [] => last
  | chunk :: _ => chunk.line

/-- What follows the next line. -/
def afterLine (last : SizeLine) : List Chunk → QByteArray
  | [] => [cr, lf]
  | chunk :: chunks => chunk.data ++ [cr, lf] ++ framed last chunks

theorem framed_eq (last : SizeLine) (chunks : List Chunk) :
  framed last chunks = (nextLine last chunks).text ++ cr :: lf :: afterLine last chunks
  := by
  cases chunks with
  | nil =>
    rw [framed, List.append_assoc]
    rfl
  | cons chunk chunks =>
    rw [framed, List.append_assoc]
    rfl

/-- A reply in the data of a chunk, or before them. -/
inductive InData (last : SizeLine) (r : Reply) : QByteArray → QByteArray → Prop where
  | intro {left : QByteArray} {chunks : List Chunk} (h_fragment : r.fragment = [])
      (h_read : 0 ≤ r.currentChunkRead)
      (h_left : r.currentChunkSize - r.currentChunkRead = left.length) (h_ne : left ≠ [])
      (h_fits : ∀ chunk ∈ chunks, chunk.line.Fits) :
    InData last r (left ++ ([cr, lf] ++ framed last chunks)) (left ++ dataOf chunks)

/-- Where a reply is in a body: in a size line or the "\r\n" before it, in the data of a chunk, in
the "\r\n" after the last chunk, or behind it. -/
inductive Position (last : SizeLine) (r : Reply) : QByteArray → QByteArray → Prop where
  | line {lead unread : QByteArray} {chunks : List Chunk} (h_lead : Lead lead)
      (h_state : r.state = .ReadingDataState) (h_more : r.lastChunkRead = false)
      (h_done : r.currentChunkSize ≤ r.currentChunkRead)
      (h_framed : r.fragment ++ unread = lead ++ framed last chunks)
      (h_short : r.fragment.length ≤ lead.length + (nextLine last chunks).text.length + 1)
      (h_fits : ∀ chunk ∈ chunks, chunk.line.Fits) :
    Position last r unread (dataOf chunks)
  | data {unread data : QByteArray} (h_state : r.state = .ReadingDataState)
      (h_more : r.lastChunkRead = false) (h_data : InData last r unread data) :
    Position last r unread data
  | ending {unread : QByteArray} (h_state : r.state = .ReadingDataState)
      (h_last : r.lastChunkRead = true) (h_unread : unread = [cr, lf] ∨ unread = [lf]) :
    Position last r unread []
  | done (h_state : r.state = .AllDoneState) : Position last r [] []

/-- Where a reply is after a turn of the loop that read data. -/
inductive Within (last : SizeLine) (r : Reply) : QByteArray → QByteArray → Prop where
  | between {chunks : List Chunk} (h_state : r.state = .ReadingDataState)
      (h_more : r.lastChunkRead = false) (h_fragment : r.fragment = [])
      (h_done : r.currentChunkSize ≤ r.currentChunkRead)
      (h_fits : ∀ chunk ∈ chunks, chunk.line.Fits) :
    Within last r ([cr, lf] ++ framed last chunks) (dataOf chunks)
  | data {unread data : QByteArray} (h_state : r.state = .ReadingDataState)
      (h_more : r.lastChunkRead = false) (h_data : InData last r unread data) :
    Within last r unread data

theorem Within.position {r : Reply} (h : Within last r unread data) :
  Position last r unread data
  := by
  cases h with
  | between hstate hmore hfragment hdone hfits =>
    refine .line (.inr (.inr rfl)) hstate hmore hdone ?_ ?_ hfits
    · rw [hfragment]
      rfl
    · rw [hfragment]
      exact Nat.zero_le _
  | data hstate hmore hdata => exact .data hstate hmore hdata

/-! ### Parts of a turn -/

/-- The channel after a size line was scanned. -/
def afterScan (c : Channel) (scan : SizeScan) : Channel :=
  { c with
    reply := { c.reply with fragment := scan.fragment, currentChunkSize := scan.chunkSize }
    socket := scan.socket }

/-- After a size line the reply is at the data of the chunk, or at the end of the body. -/
inductive Sized (last : SizeLine) (r : Reply) : QByteArray → QByteArray → Prop where
  | chunk {unread data : QByteArray} (h_data : InData last r unread data) : Sized last r unread data
  | last (h_zero : r.currentChunkSize = 0) : Sized last r [cr, lf] []

/-- Scanning a size line. -/
theorem scan_line (hlast : last.Fits) (hzero : last.size = 0) {lead : QByteArray}
    {chunks : List Chunk} (hlead : Lead lead) (hstate : c.reply.state = .ReadingDataState)
    (hmore : c.reply.lastChunkRead = false) (hstart : c.reply.currentChunkRead = 0)
    (hframed : c.reply.fragment ++ unread = lead ++ framed last chunks)
    (hshort : c.reply.fragment.length ≤ lead.length + (nextLine last chunks).text.length + 1)
    (hfits : ∀ chunk ∈ chunks, chunk.line.Fits) (hstream : c.socket <+: unread ++ further) :
  ∃ unread' data', Reads c unread (dataOf chunks)
      (afterScan c (getChunkSize c.reply.fragment c.socket)) unread' data'
    ∧ (getChunkSize c.reply.fragment c.socket).bytes
      = c.socket.length - (getChunkSize c.reply.fragment c.socket).socket.length
    ∧ (c.socket ≠ [] → c.socket.length < 2 ^ 31 →
      (getChunkSize c.reply.fragment c.socket).socket.length < c.socket.length)
    ∧ ((getChunkSize c.reply.fragment c.socket).chunkSize = -1
        ∧ Position last (afterScan c (getChunkSize c.reply.fragment c.socket)).reply unread' data'
      ∨ (getChunkSize c.reply.fragment c.socket).chunkSize ≠ -1
        ∧ (getChunkSize c.reply.fragment c.socket).socket.length < c.socket.length
        ∧ Sized last (afterScan c (getChunkSize c.reply.fragment c.socket)).reply unread' data')
  := by
  have hline_fits : (nextLine last chunks).Fits := by
    cases chunks with
    | nil => exact hlast
    | cons chunk chunks => exact hfits chunk List.mem_cons_self
  have hline : c.reply.fragment ++ (unread ++ further) = lead ++ (nextLine last chunks).text
      ++ cr :: lf :: (afterLine last chunks ++ further) := by
    rw [← List.append_assoc, hframed, framed_eq]
    simp only [List.append_assoc, List.cons_append]
  obtain ⟨read, hsocket, hbytes, hprogress, hresult⟩ := getChunkSizeLoop_scanned hlead
    hline_fits (toInt c.socket.length) 0 hline hshort hstream
  change c.socket = read ++ (getChunkSize c.reply.fragment c.socket).socket at hsocket
  change (getChunkSize c.reply.fragment c.socket).bytes = 0 + read.length at hbytes
  change (getChunkSize c.reply.fragment c.socket).chunkSize = _
      ∧ (getChunkSize c.reply.fragment c.socket).fragment = _ ∧ _
    ∨ (getChunkSize c.reply.fragment c.socket).chunkSize = _
      ∧ (getChunkSize c.reply.fragment c.socket).fragment = _ ∧ _ at hresult
  generalize getChunkSize c.reply.fragment c.socket = scan at *
  have hlength : c.socket.length = read.length + scan.socket.length := by
    rw [hsocket, List.length_append]
  have hshorter : c.socket ≠ [] → c.socket.length < 2 ^ 31 →
      scan.socket.length < c.socket.length := by
    intro hne hlt
    have hsome := List.length_pos_iff.mpr hne
    rw [toInt_of_lt hlt] at hprogress
    have hread := List.length_pos_iff.mpr (hprogress (by omega) hne)
    omega
  rcases hresult with ⟨hsize, hfragment, hread, hafter⟩ | ⟨hsize, hfragment, hle⟩
  · -- The line is complete: what is read is a part of the body.
    have hpos := List.length_pos_iff.mpr hread
    have hunread : unread = read ++ afterLine last chunks := by
      rw [← List.append_assoc] at hafter
      exact List.append_cancel_right hafter
    refine ⟨afterLine last chunks, dataOf chunks, ⟨read, [], hsocket, hunread, rfl,
      (List.append_nil _).symm, rfl⟩, by omega, hshorter, .inr ⟨by omega, by omega, ?_⟩⟩
    cases chunks with
    | nil =>
      apply Sized.last
      exact hsize.trans (by rw [nextLine, hzero]; rfl)
    | cons chunk chunks =>
      rw [afterLine, List.append_assoc]
      refine .chunk (.intro hfragment (Int.le_of_eq hstart.symm) ?_ chunk.data_ne_nil
        fun chunk' hchunk => hfits chunk' (List.mem_cons_of_mem _ hchunk))
      change scan.chunkSize - c.reply.currentChunkRead = _
      rw [hstart, hsize, nextLine, chunk.size_eq, Int.sub_zero]
  · -- What is read is kept, and ends before the line does.
    have hprefix : read <+: unread := by
      have hread : read <+: unread ++ further := (List.prefix_append _ _).trans (hsocket ▸ hstream)
      apply List.prefix_of_prefix_length_le hread
      · exact List.prefix_append _ _
      · have hwhole := congrArg List.length hframed
        rw [framed_eq] at hwhole
        simp only [List.length_append, List.length_cons] at hwhole hle
        omega
    obtain ⟨unread', rfl⟩ := hprefix
    refine ⟨unread', dataOf chunks, ⟨read, [], hsocket, rfl, rfl, (List.append_nil _).symm, rfl⟩,
      by omega, hshorter, .inl ⟨hsize, ?_⟩⟩
    refine .line hlead hstate hmore ?_ ?_ ?_ hfits
    · change scan.chunkSize ≤ c.reply.currentChunkRead
      omega
    · change scan.fragment ++ unread' = _
      rw [hfragment, List.append_assoc]
      exact hframed
    · change scan.fragment.length ≤ _
      rw [hfragment]
      exact hle

/-- The channel after data were read. -/
def afterRaw (c : Channel) (raw : RawRead) : Channel :=
  ⟨{ c.reply with currentChunkRead := c.reply.currentChunkRead + raw.bytes }, raw.socket,
    c.out ++ raw.out⟩

/-- Reading the data of a chunk. -/
theorem raw_data (hstate : c.reply.state = .ReadingDataState)
    (hmore : c.reply.lastChunkRead = false) (hdata : InData last c.reply unread data)
    (hstream : c.socket <+: unread ++ further) {raw : RawRead}
    (hraw : raw = readReplyBodyRaw c.reply.readBufferMaxSize
      (c.reply.currentChunkSize - c.reply.currentChunkRead) c.socket) :
  ∃ unread' data', Reads c unread data (afterRaw c raw) unread' data'
    ∧ raw.bytes = c.socket.length - raw.socket.length
    ∧ (c.socket ≠ [] → raw.socket.length < c.socket.length)
    ∧ Within last (afterRaw c raw).reply unread' data'
  := by
  obtain ⟨hfragment, hread, hleft, hne, hfits⟩ := hdata
  rename_i left chunks
  obtain ⟨hsocket, hout, hbytes⟩ := readReplyBodyRaw_eq c.reply.readBufferMaxSize c.socket
    (show 0 ≤ c.reply.currentChunkSize - c.reply.currentChunkRead by omega)
  rw [← hraw, hleft, Int.toNat_natCast] at hsocket hout hbytes
  have hpos := List.length_pos_iff.mpr hne
  have hlengths : raw.bytes = c.socket.length - raw.socket.length := by
    rw [hbytes, hsocket, List.length_take, List.length_drop]
    omega
  -- What is read are data of the chunk.
  have hprefix : c.socket.take left.length <+: left := by
    apply List.prefix_of_prefix_length_le ((List.take_prefix _ _).trans hstream)
    · rw [List.append_assoc]
      exact List.prefix_append _ _
    · exact List.length_take_le _ _
  obtain ⟨left', hleft'⟩ := hprefix
  have hbytes' : raw.bytes + left'.length = left.length := by
    rw [hbytes, ← Int.natCast_add, ← List.length_append, hleft']
  refine ⟨left' ++ ([cr, lf] ++ framed last chunks), left' ++ dataOf chunks,
    ⟨c.socket.take left.length, c.socket.take left.length, ?_, ?_, ?_, ?_, rfl⟩, hlengths, ?_, ?_⟩
  · change c.socket = _ ++ raw.socket
    rw [hsocket, List.take_append_drop]
  · rw [← List.append_assoc (c.socket.take _), hleft']
  · rw [← List.append_assoc, hleft']
  · change (c.out ++ raw.out).flatten = _
    rw [List.flatten_append, hout]
    rfl
  · intro hsome
    have hsocket_pos := List.length_pos_iff.mpr hsome
    rw [hsocket, List.length_drop]
    omega
  · cases left' with
    | nil =>
      refine .between hstate hmore hfragment ?_ hfits
      change c.reply.currentChunkSize ≤ c.reply.currentChunkRead + raw.bytes
      rw [List.length_nil] at hbytes'
      omega
    | cons first left' =>
      refine .data hstate hmore (.intro hfragment ?_ ?_ (List.cons_ne_nil _ _) hfits)
      · change 0 ≤ c.reply.currentChunkRead + raw.bytes
        omega
      · change c.reply.currentChunkSize - (c.reply.currentChunkRead + raw.bytes) = _
        omega

/-- Reading the "\r\n" after the last chunk, unless more than the '\n' is found where only that is
left of it. -/
theorem endBody_reads (bytes : ℤ) (hstate : c.reply.state = .ReadingDataState)
    (hunread : unread = [cr, lf] ∨ unread = [lf]) (hstream : c.socket <+: unread ++ further)
    (hkeeps : ¬ (unread = [lf] ∧ 2 ≤ c.socket.length)) :
  ∃ unread', Reads c unread [] (endBody bytes c).2 unread' []
    ∧ (c.socket ≠ [] → (endBody bytes c).2.socket.length < c.socket.length)
    ∧ Position last (endBody bytes c).2.reply unread' []
  := by
  obtain ⟨later, hlater⟩ := hstream
  unfold endBody
  dsimp only
  rcases hsocket : c.socket with _ | ⟨first, _ | ⟨second, socket⟩⟩
  · exact ⟨unread, ⟨[], [], hsocket, rfl, rfl, (List.append_nil _).symm, rfl⟩,
      fun h => absurd rfl h, .ending hstate rfl hunread⟩
  · -- One octet is available.
    rw [hsocket] at hlater
    rcases hunread with rfl | rfl
    · obtain ⟨rfl, -⟩ := List.cons.inj hlater
      exact ⟨[lf], ⟨[cr], [], hsocket, rfl, rfl, (List.append_nil _).symm, rfl⟩,
        fun _ => Nat.zero_lt_one, .ending hstate rfl (.inr rfl)⟩
    · obtain ⟨rfl, -⟩ := List.cons.inj hlater
      exact ⟨[], ⟨[lf], [], hsocket, rfl, rfl, (List.append_nil _).symm, rfl⟩,
        fun _ => Nat.zero_lt_one, .done rfl⟩
  · rw [hsocket] at hlater hkeeps
    rcases hunread with rfl | rfl
    · obtain ⟨rfl, hrest⟩ := List.cons.inj hlater
      obtain ⟨rfl, -⟩ := List.cons.inj hrest
      refine ⟨[], ⟨[cr, lf], [], hsocket, rfl, rfl, (List.append_nil _).symm, rfl⟩,
        fun _ => ?_, .done rfl⟩
      rw [List.length_cons, List.length_cons]
      exact Nat.lt_succ_of_lt (Nat.lt_succ_self _)
    · exact absurd ⟨rfl, by simp⟩ hkeeps

/-! ### A call -/

/-- What is left of the body is the '\n' that ends it, and more than that is available. -/
def Overruns (c : Channel) : Prop :=
  c.reply.lastChunkRead = true ∧ c.socket.head? = some lf ∧ 2 ≤ c.socket.length

/-- A turn that follows one that read data decodes the body. -/
def Decodes (last : SizeLine) (further : QByteArray) (turns : ℕ)
    (nextTurn : ℤ → Channel → ℤ × Channel) : Prop :=
  ∀ {c : Channel} {unread data : QByteArray} {bytes : ℤ}, Within last c.reply unread data →
    c.socket <+: unread ++ further → 0 < bytes → c.socket.length < turns →
    ∃ unread' data', Reads c unread data (nextTurn bytes c).2 unread' data'
      ∧ Position last (nextTurn bytes c).2.reply unread' data'

variable {turns : ℕ} {bytes : ℤ} {nextTurn : ℤ → Channel → ℤ × Channel}

/-- A turn goes on to what follows the size line of a chunk. -/
theorem continueTurn_reads (hstate : c.reply.state = .ReadingDataState)
    (hmore : c.reply.lastChunkRead = false) (hsized : Sized last c.reply unread data)
    (hstream : c.socket <+: unread ++ further) (hbytes : 0 ≤ bytes)
    (hturns : 0 < bytes ∧ c.socket.length < turns ∨ c.socket ≠ [] ∧ c.socket.length ≤ turns)
    (hnext : Decodes last further turns nextTurn) :
  ∃ unread' data', Reads c unread data (continueTurn nextTurn (.go bytes c)).2 unread' data'
    ∧ Position last (continueTurn nextTurn (.go bytes c)).2.reply unread' data'
    ∧ (c.socket ≠ [] →
      (continueTurn nextTurn (.go bytes c)).2.socket.length < c.socket.length)
  := by
  rw [continueTurn]
  cases hsized with
  | last hzero =>
    rw [if_pos (.inl hzero)]
    obtain ⟨unread', hreads, hshorter, hposition⟩ := endBody_reads bytes hstate (.inl rfl)
      hstream (fun h => absurd h.1 (by decide))
    exact ⟨unread', [], hreads, hposition, hshorter⟩
  | chunk hdata =>
    have hsize : ¬ (c.reply.currentChunkSize = 0 ∨ c.reply.lastChunkRead = true) := by
      obtain ⟨-, hstart, hleft, hne, -⟩ := hdata
      have hpos := List.length_pos_iff.mpr hne
      rintro (hzero | hended)
      · omega
      · rw [hmore] at hended
        cases hended
    rw [if_neg hsize]
    dsimp only
    obtain ⟨unread', data', hreads, hraw, hshorter, hwithin⟩ := raw_data hstate hmore hdata
      hstream rfl
    generalize readReplyBodyRaw c.reply.readBufferMaxSize
      (c.reply.currentChunkSize - c.reply.currentChunkRead) c.socket = raw at *
    have hle := hreads.length_le
    change raw.socket.length ≤ c.socket.length at hle
    have hpos : 0 < bytes + raw.bytes ∧ raw.socket.length < turns := by
      rcases hturns with ⟨hsome, hlt⟩ | ⟨hsome, hle'⟩
      · omega
      · have hlt := hshorter hsome
        omega
    obtain ⟨unread'', data'', hreads', hposition⟩ := hnext hwithin (hreads.stream hstream)
      hpos.1 hpos.2
    refine ⟨unread'', data'', hreads.trans hreads', hposition, fun hsome => ?_⟩
    exact Nat.lt_of_le_of_lt hreads'.length_le (hshorter hsome)

/-- A turn reads the size line of a chunk. -/
theorem nextChunk_reads (hlast : last.Fits) (hzero : last.size = 0) {lead : QByteArray}
    {chunks : List Chunk} (hlead : Lead lead) (hstate : c.reply.state = .ReadingDataState)
    (hmore : c.reply.lastChunkRead = false) (hstart : c.reply.currentChunkRead = 0)
    (hframed : c.reply.fragment ++ unread = lead ++ framed last chunks)
    (hshort : c.reply.fragment.length ≤ lead.length + (nextLine last chunks).text.length + 1)
    (hfits : ∀ chunk ∈ chunks, chunk.line.Fits) (hstream : c.socket <+: unread ++ further)
    (hbytes : 0 ≤ bytes) (hturns : c.socket.length ≤ turns)
    (hnext : Decodes last further turns nextTurn) :
  ∃ unread' data',
    Reads c unread (dataOf chunks) (continueTurn nextTurn (nextChunk bytes c)).2 unread' data'
    ∧ Position last (continueTurn nextTurn (nextChunk bytes c)).2.reply unread' data'
    ∧ (c.socket ≠ [] → c.socket.length < 2 ^ 31 →
      (continueTurn nextTurn (nextChunk bytes c)).2.socket.length < c.socket.length)
  := by
  obtain ⟨unread', data', hreads, hscanned, hshorter, hresult⟩ := scan_line hlast hzero hlead
    hstate hmore hstart hframed hshort hfits hstream
  have hle := hreads.length_le
  change (getChunkSize c.reply.fragment c.socket).socket.length ≤ _ at hle
  have hflow : nextChunk bytes c
      = if (getChunkSize c.reply.fragment c.socket).chunkSize = -1
        then .stop (bytes + (getChunkSize c.reply.fragment c.socket).bytes)
          (afterScan c (getChunkSize c.reply.fragment c.socket))
        else .go (bytes + (getChunkSize c.reply.fragment c.socket).bytes)
          (afterScan c (getChunkSize c.reply.fragment c.socket)) := rfl
  rw [hflow]
  generalize getChunkSize c.reply.fragment c.socket = scan at *
  rcases hresult with ⟨hincomplete, hposition⟩ | ⟨hcomplete, hlt, hsized⟩
  · rw [if_pos hincomplete]
    exact ⟨unread', data', hreads, hposition, hshorter⟩
  · rw [if_neg hcomplete]
    obtain ⟨unread'', data'', hreads', hposition, -⟩ := continueTurn_reads
      (c := afterScan c scan) hstate hmore hsized (hreads.stream hstream)
      (show 0 ≤ bytes + scan.bytes by omega) (.inl ⟨by omega, Nat.lt_of_lt_of_le hlt hturns⟩) hnext
    refine ⟨unread'', data'', hreads.trans hreads', hposition, fun _ _ => ?_⟩
    exact Nat.lt_of_le_of_lt hreads'.length_le hlt

/-- In the data of a chunk no size line is read. -/
theorem beginChunk_data (hdata : InData last c.reply unread data) :
  beginChunk bytes c = .go bytes c
  := by
  obtain ⟨-, -, hleft, hne, -⟩ := hdata
  have hpos := List.length_pos_iff.mpr hne
  rw [beginChunk, if_neg (by omega)]

/-- The channel where a size line begins. -/
def startLine (c : Channel) (socket : QByteArray) : Channel :=
  ⟨{ c.reply with currentChunkSize := 0, currentChunkRead := 0 }, socket, c.out⟩

/-- The loop, at the beginning of a call and after a turn that read data. -/
theorem readReplyBodyChunkedLoop_reads (hlast : last.Fits) (hzero : last.size = 0)
    (hturns : c.socket.length < turns)
    (hstart : bytes = 0 ∧ Position last c.reply unread data ∧ c.reply.state = .ReadingDataState
      ∧ ¬ Overruns c ∨ 0 < bytes ∧ Within last c.reply unread data)
    (hstream : c.socket <+: unread ++ further) :
  ∃ unread' data', Reads c unread data (readReplyBodyChunkedLoop turns bytes c).2 unread' data'
    ∧ Position last (readReplyBodyChunkedLoop turns bytes c).2.reply unread' data'
    ∧ (bytes = 0 → c.socket ≠ [] → c.socket.length < 2 ^ 31 →
      (readReplyBodyChunkedLoop turns bytes c).2.socket.length < c.socket.length)
  := by
  induction turns generalizing c unread data bytes with
  | zero => exact absurd hturns (Nat.not_lt_zero _)
  | succ turns ih =>
    have hrefl : Reads c unread data c unread data :=
      ⟨[], [], rfl, rfl, rfl, (List.append_nil _).symm, rfl⟩
    have hposition : Position last c.reply unread data := by
      rcases hstart with ⟨-, hposition, -⟩ | ⟨-, hwithin⟩
      · exact hposition
      · exact hwithin.position
    have hnext : Decodes last further turns (readReplyBodyChunkedLoop turns) := by
      intro c unread data bytes hwithin hstream hbytes hturns
      obtain ⟨unread', data', hreads, hposition, -⟩ := ih hturns (.inr ⟨hbytes, hwithin⟩)
        hstream
      exact ⟨unread', data', hreads, hposition⟩
    rw [readReplyBodyChunkedLoop]
    split
    next hempty => exact ⟨unread, data, hrefl, hposition, fun _ hne => absurd hempty hne⟩
    next hsome =>
      split
      next hmax =>
        refine ⟨unread, data, hrefl, hposition, fun hfirst => ?_⟩
        rw [hfirst] at hmax
        exact absurd hmax.2 (by omega)
      next =>
        have hlt : c.socket.length ≤ turns := Nat.le_of_lt_succ hturns
        rcases hstart with ⟨rfl, hat, hstate, hkeeps⟩ | ⟨hbytes, hwithin⟩
        · cases hat with
          | line hlead hstate hmore hdone hframed hshort hfits =>
            rw [beginChunk, if_pos ⟨by rw [hmore]; rfl, hdone⟩]
            dsimp only
            rw [if_neg (not_not.mpr rfl)]
            obtain ⟨unread', data', hreads, hposition, hshorter⟩ := nextChunk_reads hlast
              hzero (c := startLine c c.socket) hlead hstate hmore rfl hframed hshort
              hfits hstream (le_refl 0) hlt hnext
            exact ⟨unread', data', hreads, hposition, fun _ => hshorter⟩
          | data hstate hmore hdata =>
            rw [beginChunk_data hdata]
            obtain ⟨unread', data', hreads, hposition, hshorter⟩ := continueTurn_reads
              hstate hmore (.chunk hdata) hstream (le_refl 0) (.inr ⟨hsome, hlt⟩) hnext
            exact ⟨unread', data', hreads, hposition, fun _ hne _ => hshorter hne⟩
          | ending hstate hended hunread =>
            rw [beginChunk, if_neg (by rw [hended]; exact fun h => absurd h.1 (by decide)),
              continueTurn, if_pos (.inr hended)]
            obtain ⟨unread', hreads, hshorter, hposition⟩ := endBody_reads 0 hstate hunread
              hstream (by
                rintro ⟨rfl, hlong⟩
                refine hkeeps ⟨hended, ?_, hlong⟩
                obtain ⟨first, socket, hsocket⟩ := List.exists_cons_of_ne_nil hsome
                rw [hsocket] at hstream ⊢
                rw [(List.cons_prefix_cons.mp hstream).1]
                rfl)
            exact ⟨unread', [], hreads, hposition, fun _ hne _ => hshorter hne⟩
          | done hdone =>
            rw [hdone] at hstate
            cases hstate
        · cases hwithin with
          | data hstate hmore hdata =>
            rw [beginChunk_data hdata]
            obtain ⟨unread', data', hreads, hposition, -⟩ := continueTurn_reads
              hstate hmore (.chunk hdata) hstream (Int.le_of_lt hbytes)
              (.inr ⟨hsome, hlt⟩) hnext
            exact ⟨unread', data', hreads, hposition, fun h => absurd h (by omega)⟩
          | between hstate hmore hfragment hdone hfits =>
            rw [beginChunk, if_pos ⟨by rw [hmore]; rfl, hdone⟩]
            dsimp only
            rw [if_pos (by omega)]
            split
            next hshort =>
              -- The '\r' is lost, and the '\n' will begin the next size line.
              rename_i chunks
              obtain ⟨first, socket, hsocket⟩ := List.exists_cons_of_ne_nil hsome
              rw [hsocket] at hshort hstream
              have hnil := List.eq_nil_of_length_eq_zero
                (Nat.le_zero.mp (Nat.le_of_lt_succ (Nat.lt_of_succ_lt_succ hshort)))
              subst hnil
              have hcr : first = cr := (List.cons_prefix_cons.mp hstream).1
              subst hcr
              refine ⟨[lf] ++ framed last chunks, dataOf chunks,
                ⟨[cr], [], hsocket, rfl, rfl, (List.append_nil _).symm, rfl⟩, ?_,
                fun h => absurd h (by omega)⟩
              refine .line (.inr (.inl rfl)) hstate hmore (le_refl 0) ?_ ?_ hfits
              · exact congrArg (· ++ _) hfragment
              · exact (congrArg List.length hfragment).trans_le (Nat.zero_le _)
            next hlong =>
              rename_i chunks
              obtain ⟨first, second, socket, hsocket⟩ : ∃ first second socket,
                  c.socket = first :: second :: socket := by
                rcases hsocket : c.socket with _ | ⟨first, _ | ⟨second, socket⟩⟩
                · rw [hsocket] at hlong
                  exact absurd (by decide) hlong
                · rw [hsocket] at hlong
                  exact absurd (by simp) hlong
                · exact ⟨first, second, socket, rfl⟩
              rw [hsocket] at hstream
              obtain ⟨rfl, hrest⟩ := List.cons_prefix_cons.mp hstream
              obtain ⟨rfl, hlater⟩ := List.cons_prefix_cons.mp hrest
              have hdrop : c.socket.drop 2 = socket := by rw [hsocket]; rfl
              rw [hdrop]
              have hreads : Reads c ([cr, lf] ++ framed last chunks) (dataOf chunks)
                  (startLine c socket) (framed last chunks) (dataOf chunks) :=
                ⟨[cr, lf], [], hsocket, rfl, rfl, (List.append_nil _).symm, rfl⟩
              have hlength : socket.length ≤ turns := by
                rw [hsocket, List.length_cons, List.length_cons] at hlt
                omega
              obtain ⟨unread', data', hreads', hposition, -⟩ := nextChunk_reads hlast
                hzero (c := startLine c socket) (.inl rfl) hstate hmore
                rfl (congrArg (· ++ _) hfragment)
                ((congrArg List.length hfragment).trans_le (Nat.zero_le _)) hfits hlater
                (show 0 ≤ bytes + 2 by omega) hlength hnext
              exact ⟨unread', data', hreads.trans hreads', hposition,
                fun h => absurd h (by omega)⟩

/-! ### Runs -/

/-- A reply that has read a part of the octets that arrived, which is a part of the body: the
buffer holds the data that are in it, and the reply is complete where it is the whole body. -/
structure Decoded (B : Body) (arrived : QByteArray) (c : Channel) : Prop where
  read : ∃ read, arrived = read ++ c.socket ∧ read <+: B.octets
  body : c.body <+: B.data
  complete : c.reply.state = .AllDoneState ↔ arrived = B.octets ++ c.socket
  whole : c.reply.state = .AllDoneState → c.body = B.data
  keepsOpen : c.reply.forceConnectionCloseEnabled = false

/-- A call begins where the '\n' that ends the body is alone left of it, and finds more. -/
def FindsMore (c : Channel) (arrived : QByteArray) : Prop :=
  c.reply.state = .ReadingDataState ∧ Overruns { c with socket := c.socket ++ arrived }

theorem framed_length (last : SizeLine) (chunks : List Chunk) :
  (nextLine last chunks).text.length + 2 ≤ (framed last chunks).length
  := by
  rw [framed_eq, List.length_append, List.length_cons, List.length_cons]
  omega

/-- Something is left of the body while the reply reads, and no data are left where it ends. -/
theorem Position.unread_iff {r : Reply} (h : Position last r unread data) :
  (r.state = .ReadingDataState ∧ unread ≠ []) ∨ (r.state = .AllDoneState ∧ unread = [] ∧ data = [])
  := by
  cases h with
  | line hlead hstate hmore hdone hframed hshort hfits =>
    refine .inl ⟨hstate, ?_⟩
    rintro rfl
    have hlength := congrArg List.length hframed
    rename_i chunks
    have hframed_length := framed_length last chunks
    rw [List.append_nil, List.length_append] at hlength
    omega
  | data hstate hmore hdata =>
    refine .inl ⟨hstate, ?_⟩
    obtain ⟨-, -, -, hne, -⟩ := hdata
    exact List.append_ne_nil_of_left_ne_nil hne _
  | ending hstate hended hunread =>
    refine .inl ⟨hstate, ?_⟩
    rcases hunread with rfl | rfl
    · exact List.cons_ne_nil _ _
    · exact List.cons_ne_nil _ _
  | done hstate => exact .inr ⟨hstate, rfl, rfl⟩

instance (c : Channel) (arrived : QByteArray) : Decidable (FindsMore c arrived) :=
  inferInstanceAs (Decidable (_ ∧ _ ∧ _ ∧ _))

/-- The invariant of the calls. -/
def Decoding (B : Body) (arrived : QByteArray) (c : Channel) : Prop :=
  c.reply.forceConnectionCloseEnabled = false
    ∧ ∃ read unread data, arrived = read ++ c.socket ∧ read ++ unread = B.octets
      ∧ c.body ++ data = B.data ∧ Position B.last c.reply unread data

variable {B : Body} {arrived more : QByteArray}

theorem Decoding.decoded (h : Decoding B arrived c) :
  Decoded B arrived c
  := by
  obtain ⟨hforce, read, unread, data, harrived, hoctets, hdata, hposition⟩ := h
  refine ⟨⟨read, harrived, unread, hoctets⟩, ⟨data, hdata⟩, ?_, ?_, hforce⟩
  · rcases hposition.unread_iff with ⟨hstate, hsome⟩ | ⟨hstate, rfl, -⟩
    · constructor
      · intro hdone
        rw [hstate] at hdone
        cases hdone
      · intro hall
        rw [harrived, ← hoctets] at hall
        have hread := List.append_cancel_right hall
        exact absurd (List.self_eq_append_right.mp hread) hsome
    · rw [List.append_nil] at hoctets
      exact ⟨fun _ => hoctets ▸ harrived, fun _ => hstate⟩
  · intro hdone
    rcases hposition.unread_iff with ⟨hstate, -⟩ | ⟨-, -, rfl⟩
    · rw [hstate] at hdone
      cases hdone
    · rw [List.append_nil] at hdata
      exact hdata

/-- A call keeps the invariant, and reads something if there is something. -/
theorem Decoding.receive (h : Decoding B arrived c) (hfits : B.Fits)
    (hstream : arrived ++ more <+: B.octets ++ further) (hkeeps : ¬ FindsMore c more) :
  Decoding B (arrived ++ more) (QHttpNetworkReplyPrivate.receive c more)
    ∧ (c.reply.state = .ReadingDataState → c.socket ++ more ≠ [] →
      (c.socket ++ more).length < 2 ^ 31 →
      (QHttpNetworkReplyPrivate.receive c more).socket.length < (c.socket ++ more).length)
  := by
  obtain ⟨hforce, read, unread, data, rfl, hoctets, hdata, hposition⟩ := h
  rw [← hoctets, List.append_assoc, List.append_assoc, List.prefix_append_right_inj] at hstream
  unfold QHttpNetworkReplyPrivate.receive
  dsimp only
  split
  next hstate =>
    obtain ⟨unread', data', hreads, hposition', hshorter⟩ := readReplyBodyChunkedLoop_reads
      hfits.last B.last_zero (c := { c with socket := c.socket ++ more }) (Nat.lt_succ_self _)
      (.inl ⟨rfl, hposition, hstate, fun hover => hkeeps ⟨hstate, hover⟩⟩) hstream
    refine ⟨?_, fun _ => hshorter rfl⟩
    obtain ⟨read', got, hsocket, rfl, rfl, hbody, hforce'⟩ := hreads
    refine ⟨hforce'.trans hforce, read ++ read', unread', data', ?_, ?_, ?_, hposition'⟩
    · rw [List.append_assoc, List.append_assoc]
      exact congrArg (read ++ ·) hsocket
    · rw [List.append_assoc]
      exact hoctets
    · refine Eq.trans (congrArg (· ++ data') hbody) ?_
      rw [List.append_assoc]
      exact hdata
  next hstate =>
    refine ⟨⟨hforce, read, unread, data, ?_, hoctets, hdata, hposition⟩,
      fun h => absurd h hstate⟩
    rw [List.append_assoc]

/-- Anything but the "\r\n" after the last chunk closes the connection. -/
theorem endBody_findsMore {second : UInt8} {socket : QByteArray}
    (hsocket : c.socket = lf :: second :: socket) :
  (endBody bytes c).2.reply.forceConnectionCloseEnabled = true
  := by
  have hcrlf : c.socket.take 2 = [lf, second] := by rw [hsocket]; rfl
  unfold endBody
  dsimp only
  rw [hcrlf, if_neg, if_neg]
  · rintro (h | h)
    · exact absurd (List.cons.inj h).2 (List.cons_ne_nil _ _)
    · exact absurd h (List.cons_ne_nil _ _)
  · rintro (h | h)
    · exact absurd (List.cons.inj h).1 (by decide)
    · exact absurd (List.cons.inj h).2 (List.cons_ne_nil _ _)

/-- A call that finds more than the '\n' that ends the body closes the connection. -/
theorem receive_findsMore (h : FindsMore c more) :
  (receive c more).reply.forceConnectionCloseEnabled = true
  := by
  obtain ⟨hstate, hended, hhead, hlength⟩ := h
  dsimp only at hended hhead hlength
  obtain ⟨second, socket, hsocket⟩ : ∃ second socket, c.socket ++ more = lf :: second :: socket := by
    rcases hsocket : c.socket ++ more with _ | ⟨first, _ | ⟨second, socket⟩⟩
    · rw [hsocket] at hhead
      cases hhead
    · rw [hsocket] at hlength
      exact absurd (Nat.le_of_succ_le_succ hlength) (Nat.not_succ_le_zero 0)
    · rw [hsocket] at hhead
      exact ⟨second, socket, by rw [Option.some.inj hhead]⟩
  unfold receive
  dsimp only
  rw [if_pos hstate, readReplyBodyChunked, readReplyBodyChunkedLoop,
    if_neg (by rw [hsocket]; exact List.cons_ne_nil _ _), if_neg (by omega), beginChunk,
    if_neg (by rw [hended]; exact fun h => absurd h.1 (by decide)), continueTurn,
    if_pos (.inr hended)]
  exact endBody_findsMore hsocket

/-! ### All calls -/

variable {readBufferMaxSize : ℕ} {arrivals : List QByteArray}

theorem receiveAll_take_succ {n : ℕ} (h : arrivals[n]? = some more) :
  receiveAll readBufferMaxSize (arrivals.take (n + 1))
    = receive (receiveAll readBufferMaxSize (arrivals.take n)) more
  := by
  rw [receiveAll, List.take_add_one, h, Option.toList_some, List.foldl_append]
  rfl

theorem flatten_take_succ {n : ℕ} (h : arrivals[n]? = some more) :
  (arrivals.take (n + 1)).flatten = (arrivals.take n).flatten ++ more
  := by
  rw [List.take_add_one, h, Option.toList_some, List.flatten_append, List.flatten_singleton]

theorem flatten_take_initial (arrivals : List QByteArray) (n : ℕ) :
  (arrivals.take n).flatten <+: arrivals.flatten
  := by
  obtain ⟨later, hlater⟩ := List.take_prefix n arrivals
  exact ⟨later.flatten, by rw [← List.flatten_append, hlater]⟩

theorem decoding_started (hfits : B.Fits) :
  Decoding B [] (started readBufferMaxSize)
  := by
  refine ⟨rfl, [], B.octets, B.data, rfl, rfl, rfl, ?_⟩
  exact .line (.inl rfl) rfl rfl (le_refl 0) rfl (Nat.zero_le _) hfits.chunks

/-- The invariant holds after any number of calls none of which finds more than the last '\n'. -/
theorem decoding_take (hfits : B.Fits) (hstream : arrivals.flatten <+: B.octets ++ further) {n : ℕ}
    (hkeeps : ∀ m more, m < n → arrivals[m]? = some more →
      ¬ FindsMore (receiveAll readBufferMaxSize (arrivals.take m)) more) :
  Decoding B (arrivals.take n).flatten (receiveAll readBufferMaxSize (arrivals.take n))
  := by
  induction n with
  | zero => exact decoding_started hfits
  | succ n ih =>
    have hbefore := ih fun m more hm => hkeeps m more (Nat.lt_succ_of_lt hm)
    cases hmore : arrivals[n]? with
    | none =>
      rw [List.take_add_one, hmore, Option.toList_none, List.append_nil]
      exact hbefore
    | some more =>
      rw [receiveAll_take_succ hmore, flatten_take_succ hmore]
      have harrived := (flatten_take_initial arrivals (n + 1)).trans hstream
      rw [flatten_take_succ hmore] at harrived
      exact (hbefore.receive hfits harrived (hkeeps n more (Nat.lt_succ_self n) hmore)).1

/-- Calls that find the whole body reach its end. -/
theorem receiveAll_completes (hfits : B.Fits) (hstream : arrivals.flatten <+: B.octets ++ further)
    (hkeeps : ∀ n more, arrivals[n]? = some more →
      ¬ FindsMore (receiveAll readBufferMaxSize (arrivals.take n)) more)
    (hint : ∀ n more, arrivals[n]? = some more →
      ((receiveAll readBufferMaxSize (arrivals.take n)).socket ++ more).length < 2 ^ 31)
    {n : ℕ} (hwhole : B.octets <+: (arrivals.take n).flatten)
    (hcalls : n + B.octets.length ≤ arrivals.length) :
  (receiveAll readBufferMaxSize arrivals).reply.state = .AllDoneState
  := by
  have hdecoding : ∀ m, Decoding B (arrivals.take m).flatten
      (receiveAll readBufferMaxSize (arrivals.take m)) := fun m =>
    decoding_take hfits hstream fun m more _ => hkeeps m more
  -- Every call after the first `n` reads an octet of the body, or the reply is complete.
  have hread : ∀ k, n + k ≤ arrivals.length →
      (receiveAll readBufferMaxSize (arrivals.take (n + k))).reply.state = .AllDoneState
      ∨ k + (receiveAll readBufferMaxSize (arrivals.take (n + k))).socket.length
        ≤ (arrivals.take (n + k)).flatten.length
        ∧ B.octets.length ≤ (arrivals.take (n + k)).flatten.length := by
    intro k
    induction k with
    | zero =>
      intro _
      obtain ⟨-, read, unread, data, harrived, -⟩ := hdecoding n
      refine .inr ⟨?_, hwhole.length_le⟩
      rw [Nat.add_zero, harrived, List.length_append]
      omega
    | succ k ih =>
      intro hle
      obtain ⟨more, hmore⟩ : ∃ more, arrivals[n + k]? = some more :=
        ⟨_, List.getElem?_eq_getElem (by omega)⟩
      rw [← Nat.add_assoc, receiveAll_take_succ hmore, flatten_take_succ hmore]
      have hbefore := hdecoding (n + k)
      have harrived := (flatten_take_initial arrivals (n + k + 1)).trans hstream
      rw [flatten_take_succ hmore] at harrived
      have hstep := hbefore.receive hfits harrived (hkeeps _ _ hmore)
      obtain ⟨-, read, unread, data, harrived, hoctets, -, hposition⟩ := hbefore
      rcases hposition.unread_iff with ⟨hstate, hsome⟩ | ⟨hstate, -⟩
      · rcases ih (by omega) with hdone | ⟨hcount, hall⟩
        · rw [hdone] at hstate
          cases hstate
        · have hunread := List.length_pos_iff.mpr hsome
          have hlengths := congrArg List.length harrived
          rw [List.length_append] at hlengths
          rw [← hoctets, List.length_append] at hall
          have hshorter := hstep.2 hstate (by
            apply List.append_ne_nil_of_left_ne_nil
            apply List.length_pos_iff.mp
            omega) (hint _ _ hmore)
          rw [← hoctets, List.length_append, List.length_append]
          rw [List.length_append] at hshorter
          right
          omega
      · left
        unfold receive
        dsimp only
        rw [if_neg (by rw [hstate]; decide)]
        exact hstate
  have hend := hread (arrivals.length - n) (by omega)
  obtain ⟨-, read, unread, data, harrived, hoctets, -, hposition⟩ := hdecoding arrivals.length
  rw [show n + (arrivals.length - n) = arrivals.length by omega] at hend
  rw [List.take_length] at hend harrived hposition
  rcases hend with hdone | ⟨hcount, -⟩
  · exact hdone
  · have hlengths := congrArg List.length harrived
    have hparts := congrArg List.length hoctets
    rw [List.length_append] at hlengths hparts
    have hunread : unread = [] := List.eq_nil_of_length_eq_zero (by omega)
    rcases hposition.unread_iff with ⟨-, hsome⟩ | ⟨hstate, -⟩
    · exact absurd hunread hsome
    · exact hstate

/-- A chunked body is decoded in all calls exactly where none of them finds more than the '\n' that
ends the body when only that is left of it.  Then its end is reached, after at most as many calls
that find all of it as it has octets, where an `int` counts what each of them finds. -/
theorem receiveAll_decodes (h_fits : B.Fits) (h_stream : arrivals.flatten <+: B.octets ++ further)
    (readBufferMaxSize : ℕ) :
  ((∀ n ≤ arrivals.length, Decoded B (arrivals.take n).flatten
      (receiveAll readBufferMaxSize (arrivals.take n)))
    ↔ ∀ n more, arrivals[n]? = some more →
      ¬ FindsMore (receiveAll readBufferMaxSize (arrivals.take n)) more)
  ∧ ((∀ n more, arrivals[n]? = some more →
        ¬ FindsMore (receiveAll readBufferMaxSize (arrivals.take n)) more
        ∧ ((receiveAll readBufferMaxSize (arrivals.take n)).socket ++ more).length < 2 ^ 31) →
      ∀ n, B.octets <+: (arrivals.take n).flatten → n + B.octets.length ≤ arrivals.length →
        (receiveAll readBufferMaxSize arrivals).reply.state = .AllDoneState)
  := by
  constructor
  · constructor
    · intro h_decoded n more h_more h_finds
      have h_lt := (List.getElem?_eq_some_iff.mp h_more).1
      have h_open := (h_decoded (n + 1) h_lt).keepsOpen
      rw [receiveAll_take_succ h_more, receive_findsMore h_finds] at h_open
      cases h_open
    · intro h_keeps n _
      exact (decoding_take h_fits h_stream fun m more _ => h_keeps m more).decoded
  · intro h_calls n h_whole h_le
    exact receiveAll_completes h_fits h_stream (fun n more h_more => (h_calls n more h_more).1)
      (fun n more h_more => (h_calls n more h_more).2) h_whole h_le

/-- A body of one chunk, whose size has an extension. -/
def oneChunk : Body where
  chunks := [{
    line := {
      digits := [0x31]
      blanks := []
      extension := [0x3b, 0x78]
      digits_ne_nil := List.cons_ne_nil _ _
      digits_hex := List.forall_mem_singleton.mpr rfl
      blanks_blank := fun _ h => absurd h List.not_mem_nil
      extension_head := fun _ h => (Option.some.inj h).symm
      extension_text := List.forall_mem_cons.mpr
        ⟨by decide, List.forall_mem_singleton.mpr (by decide)⟩ }
    data := [0x61]
    size_eq := rfl
    data_ne_nil := List.cons_ne_nil _ _ }]
  last := {
    digits := [0x30]
    blanks := []
    extension := []
    digits_ne_nil := List.cons_ne_nil _ _
    digits_hex := List.forall_mem_singleton.mpr rfl
    blanks_blank := fun _ h => absurd h List.not_mem_nil
    extension_head := fun _ h => nomatch h
    extension_text := fun _ h => absurd h List.not_mem_nil }
  last_zero := rfl

/-- The body arrives in two parts, the first of which ends in the "\r\n" after the chunk. -/
theorem receiveAll_decodes_twoParts :
  Decoded oneChunk oneChunk.octets
    (receiveAll 0 [oneChunk.octets.take 7, oneChunk.octets.drop 7])
  := by
  have h_fits : oneChunk.Fits := by
    refine ⟨?_, by decide, by decide⟩
    intro chunk h_chunk
    rw [List.mem_singleton.mp h_chunk]
    exact ⟨by decide, by decide⟩
  have h_decodes := (receiveAll_decodes h_fits (show [oneChunk.octets.take 7,
    oneChunk.octets.drop 7].flatten <+: oneChunk.octets ++ [] by decide) 0).1.mpr
  refine h_decodes ?_ 2 (le_refl 2)
  intro n more h_more
  have h_lt := (List.getElem?_eq_some_iff.mp h_more).1
  rcases n with _ | _ | n
  · rw [← Option.some.inj h_more]
    decide
  · rw [← Option.some.inj h_more]
    decide
  · exact absurd h_lt (by simp)

/-- The '\n' that ends the body arrives with the first octet of what follows it, which is read too,
and the connection is closed. -/
theorem receiveAll_overruns :
  [oneChunk.octets.dropLast, [lf, 0x48]].flatten = oneChunk.octets ++ [0x48]
    ∧ (receiveAll 0 [oneChunk.octets.dropLast, [lf, 0x48]]).socket = []
    ∧ (receiveAll 0 [oneChunk.octets.dropLast, [lf, 0x48]]).reply.forceConnectionCloseEnabled = true
  := by
  refine ⟨?_, ?_, ?_⟩ <;> decide

end QHttpNetworkReplyPrivate
