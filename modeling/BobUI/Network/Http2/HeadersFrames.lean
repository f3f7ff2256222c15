import BobUI.Network.Http2.FrameBounds

/-!
# The frames of a field block

`writeHEADERS` of `http2frames.cpp` cuts a HEADERS frame that is too long into a HEADERS frame and
CONTINUATION frames.  The frames that the reader makes of what has been written are put together
to the field block again.  The sizes and offsets of `writeHEADERS` are of type `quint32`: a frame
that does not have less than `2 ^ 32` octets is written with a wrong size, or is never done with.
-/

namespace Http2

/-! ### The writer -/

/-- The writer of frames. -/
structure FrameWriter where
  frame : Frame

namespace FrameWriter

def start (type : FrameType) (flags streamID : ℕ) : FrameWriter :=
  ⟨⟨[0, 0, 0, UInt8.ofNat type.toNat, UInt8.ofNat flags] ++ toBigEndian streamID⟩⟩

def setPayloadSize (w : FrameWriter) (size : ℕ) : FrameWriter :=
  ⟨⟨((w.frame.buffer.set 0 (UInt8.ofNat (size / 2 ^ 16))).set 1 (UInt8.ofNat (size / 2 ^ 8))).set 2
    (UInt8.ofNat size)⟩⟩

def setFlags (w : FrameWriter) (flags : ℕ) : FrameWriter :=
  ⟨⟨w.frame.buffer.set 4 (UInt8.ofNat flags)⟩⟩

def addFlag (w : FrameWriter) (flag : ℕ) : FrameWriter :=
  w.setFlags (w.frame.flags ||| flag)

def updatePayloadSize (w : FrameWriter) : FrameWriter :=
  w.setPayloadSize ((w.frame.buffer.length - frameHeaderSize) % 2 ^ 32)

def append (w : FrameWriter) (octets : Octets) : FrameWriter :=
  updatePayloadSize ⟨⟨w.frame.buffer ++ octets⟩⟩

/-- The loop of `writeHEADERS`: the octets that are written, `none` if it takes more turns. -/
def writeContinuations (buffer : Octets) (sizeLimit : ℕ) :
    (turns : ℕ) → (continuationWriter : FrameWriter) → (offset : ℕ) → Option Octets
  | 0, _, _ => none
  | turns + 1, continuationWriter, offset =>
    if offset = buffer.length then some []
    else
      let chunkSize := min sizeLimit ((buffer.length - offset) % 2 ^ 32)
      let flagged :=
        if (chunkSize + offset) % 2 ^ 32 = buffer.length then
          continuationWriter.addFlag FrameFlag.endHeaders
        else continuationWriter
      let sized := flagged.setPayloadSize chunkSize
      let rest := writeContinuations buffer sizeLimit turns sized ((offset + chunkSize) % 2 ^ 32)
      rest.map (sized.frame.buffer ++ (buffer.drop offset).take chunkSize ++ ·)

/-- `writeHEADERS` to a socket that takes what is written: the octets, `none` if the loop takes
more turns. -/
def writeHEADERS (w : FrameWriter) (sizeLimit turns : ℕ) : Option Octets :=
  let sizeLimit := min sizeLimit maxPayloadSize
  if (w.frame.buffer.length - frameHeaderSize) % 2 ^ 32 ≤ sizeLimit then
    some ((w.addFlag FrameFlag.endHeaders).updatePayloadSize).frame.buffer
  else
    let first := (w.setFlags (w.frame.flags &&& (0xff ^^^ FrameFlag.endHeaders))).setPayloadSize
      sizeLimit
    let firstChunkSize := frameHeaderSize + sizeLimit
    (writeContinuations first.frame.buffer sizeLimit turns
      (start .continuation FrameFlag.empty first.frame.streamID) firstChunkSize).map fun rest =>
        first.frame.buffer.take firstChunkSize ++ rest

end FrameWriter

/-- A HEADERS frame that is to be written: a field block, behind the stream it depends on and a
weight where it has a priority. -/
structure HeadersFrame where
  endStream : Bool
  endHeaders : Bool
  priority : Option (ℕ × UInt8)
  streamID : Fin (2 ^ 31)
  block : Octets

namespace HeadersFrame

def flags (f : HeadersFrame) : ℕ :=
  (if f.priority.isSome then FrameFlag.priority else 0) |||
    (if f.endHeaders then FrameFlag.endHeaders else 0) |||
    if f.endStream then FrameFlag.endStream else 0

/-- The octets in front of the field block. -/
def priorityOctets (f : HeadersFrame) : Octets :=
  match f.priority with
  | none => []
  | some (streamDependency, weight) => toBigEndian streamDependency ++ [weight]

/-- The writer, with the field block compressed in place. -/
def writer (f : HeadersFrame) : FrameWriter :=
  let started := FrameWriter.start .headers f.flags f.streamID
  let prepared :=
    match f.priority with
    | none => started
    | some (streamDependency, weight) =>
      (started.append (toBigEndian streamDependency)).append [weight]
  ⟨⟨prepared.frame.buffer ++ f.block⟩⟩

end HeadersFrame

/-- The octets written are a HEADERS frame and CONTINUATION frames on its stream, within the limit,
only the last with END_HEADERS.  These are the frames that a reader delivers, however the octets
arrive, and they are put together to the field block. -/
structure HeadersWritten (f : HeadersFrame) (sizeLimit : ℕ) (octets : Octets) (first : Frame)
    (rest : List Frame) : Prop where
  octets_eq : octets = (first :: rest).flatMap Frame.buffer
  length_eq : ∀ g ∈ first :: rest, g.buffer.length = frameHeaderSize + g.payloadSize
  first_type : first.type = .headers
  rest_type : ∀ g ∈ rest, g.type = .continuation
  streamID_eq : ∀ g ∈ first :: rest, g.streamID = f.streamID
  payloadSize_le : ∀ g ∈ first :: rest, g.payloadSize ≤ sizeLimit
  endHeaders_eq : (first :: rest).map (fun g => testFlag g.flags FrameFlag.endHeaders) =
    List.replicate rest.length false ++ [true]
  read_back : ∀ socket : Socket, socket.flatten = octets → ∃ N, ∀ n, N ≤ n →
    (deliveries n 0 .new socket).map (fun d => (d.status, d.frame)) =
      (first :: rest).map fun g => (.goodFrame, g)
  assembled : assembleHpackBlock (first :: rest) = some f.block

/-- `writeHEADERS` ends, and what it has written is read back. -/
def HeadersFrame.RoundTrips (f : HeadersFrame) (sizeLimit : ℕ) : Prop :=
  ∃ turns octets first rest, f.writer.writeHEADERS sizeLimit turns = some octets ∧
    HeadersWritten f sizeLimit octets first rest

/-! ### Reading frames -/

theorem sameHeader_append {g : Frame} (h : g.buffer.length = frameHeaderSize + g.payloadSize)
    (stream : Octets) :
  Frame.SameHeader ⟨g.buffer ++ stream⟩ g
  := by
  rw [Frame.SameHeader, List.take_append_of_le_length]
  omega

theorem headFrame_append {g : Frame} (h : g.buffer.length = frameHeaderSize + g.payloadSize)
    (stream : Octets) :
  headFrame (g.buffer ++ stream) = g ∧ Frame.payloadSize ⟨g.buffer ++ stream⟩ = g.payloadSize
  := by
  have hsame := sameHeader_append h stream
  constructor
  · rw [headFrame, hsame.payloadSize, ← h, List.take_left]
  · apply hsame.payloadSize

/-- Good frames that are written one after the other are delivered so. -/
theorem whole_flatMap {frames : List Frame}
    (hlength : ∀ g ∈ frames, g.buffer.length = frameHeaderSize + g.payloadSize)
    (hheader : ∀ g ∈ frames, g.validateHeader = .goodFrame)
    (hpayload : ∀ g ∈ frames, g.validatePayload = .goodFrame) (start : ℕ) {r : FrameReader}
    (hoffset : r.offset = 0) :
  (whole start r (frames.flatMap Frame.buffer)).map (fun d => (d.status, d.frame)) =
    frames.map fun g => (.goodFrame, g)
  := by
  induction frames generalizing start r with
  | nil =>
    have hnext : r.next [] = none := by
      rw [next_of_boundary [] hoffset]
      rfl
    rw [List.flatMap_nil, whole_of_next_none hnext]
    rfl
  | cons g frames ih =>
    obtain ⟨hg, hframes⟩ := List.forall_mem_cons.mp hlength
    obtain ⟨hvalid, hheaders⟩ := List.forall_mem_cons.mp hheader
    obtain ⟨hgood, hpayloads⟩ := List.forall_mem_cons.mp hpayload
    obtain ⟨hhead, hsize⟩ := headFrame_append hg (frames.flatMap Frame.buffer)
    rw [List.flatMap_cons]
    have hnext : r.next (g.buffer ++ frames.flatMap Frame.buffer) =
        some (.goodFrame, ⟨0, g⟩, frames.flatMap Frame.buffer) := by
      have hlong : ¬ (g.buffer ++ frames.flatMap Frame.buffer).length < frameHeaderSize := by
        rw [List.length_append]
        omega
      have hcomplete : ¬ (g.buffer ++ frames.flatMap Frame.buffer).length <
          frameHeaderSize + g.payloadSize := by
        rw [List.length_append]
        omega
      rw [next_of_boundary _ hoffset, if_neg hlong, hhead, hvalid, hsize, hgood,
        if_neg hcomplete, ← hg, List.drop_left]
      simp
    rw [whole_of_next_some hnext, List.map_cons, List.map_cons]
    congr 1
    rw [if_neg (by simp [endsConnection])]
    apply ih hframes hheaders hpayloads
    rfl

/-- However the octets of good frames arrive, the frames are delivered. -/
theorem deliveries_flatMap {frames : List Frame}
    (hlength : ∀ g ∈ frames, g.buffer.length = frameHeaderSize + g.payloadSize)
    (hheader : ∀ g ∈ frames, g.validateHeader = .goodFrame)
    (hpayload : ∀ g ∈ frames, g.validatePayload = .goodFrame) {socket : Socket}
    (h : socket.flatten = frames.flatMap Frame.buffer) :
  ∃ N, ∀ n, N ≤ n → (deliveries n 0 .new socket).map (fun d => (d.status, d.frame)) =
    frames.map fun g => (.goodFrame, g)
  := by
  have heventually : ∃ N, ∀ n, N ≤ n → deliveries n 0 .new socket = whole 0 .new socket.flatten :=
    deliveries_eventually FrameReader.new_valid
  obtain ⟨N, hN⟩ := heventually
  use N
  intro n hn
  rw [hN n hn, h]
  apply whole_flatMap hlength hheader hpayload
  rfl

/-! ### Frames to be written -/

namespace OutboundFrame

variable {g : OutboundFrame}

theorem payloadSize_frame (h : g.payload.length ≤ maxPayloadSize) :
  g.frame.payloadSize = g.payload.length
  := by
  have hmax : maxPayloadSize = 16777215 := rfl
  change (UInt8.ofNat _).toNat * 2 ^ 16 + (UInt8.ofNat _).toNat * 2 ^ 8 + (UInt8.ofNat _).toNat = _
  simp only [UInt8.toNat_ofNat']
  omega

theorem type_frame (g : OutboundFrame) :
  g.frame.type = g.type
  := by
  change FrameType.ofOctet (UInt8.ofNat g.type.toNat).toNat = g.type
  cases g.type with
  | _ => rfl

theorem flags_frame (h : g.flags < 2 ^ 8) :
  g.frame.flags = g.flags
  := by
  change (UInt8.ofNat g.flags).toNat = g.flags
  rw [UInt8.toNat_ofNat', Nat.mod_eq_of_lt h]

theorem streamID_frame (h : g.streamID < 2 ^ 31) :
  g.frame.streamID = g.streamID
  := by
  have hget : fromBigEndian g.frame.buffer 5 = g.streamID :=
    fromBigEndian_toBigEndian (by omega) [_, _, _, _, _] g.payload
  rw [Frame.streamID, hget, lastValidStreamID, Nat.and_two_pow_sub_one_eq_mod]
  apply Nat.mod_eq_of_lt h

theorem length_frame (g : OutboundFrame) :
  g.frame.buffer.length = frameHeaderSize + g.payload.length
  := by
  simp only [frame, toBigEndian, List.length_append, List.length_cons, List.length_nil]
  rfl

theorem drop_frame (g : OutboundFrame) (k : ℕ) :
  g.frame.buffer.drop (frameHeaderSize + k) = g.payload.drop k
  := by
  rw [← List.drop_drop]
  rfl

/-- A frame without padding that carries a part of a field block, behind `k` octets of a
priority. -/
structure CarriesBlock (g : OutboundFrame) (k : ℕ) : Prop where
  type : g.type = .headers ∨ g.type = .continuation
  flags_lt : g.flags < 2 ^ 8
  not_padded : testFlag g.flags FrameFlag.padded = false
  length_le : g.payload.length ≤ maxPayloadSize
  priority_eq : k = if g.type = .headers ∧ testFlag g.flags FrameFlag.priority then 5 else 0
  priority_le : k ≤ g.payload.length

variable {k : ℕ}

theorem CarriesBlock.type_ne (h : g.CarriesBlock k) :
  g.frame.type ≠ .pushPromise ∧ g.frame.type ≠ .priority
  := by
  rw [type_frame]
  rcases h.type with htype | htype
  · simp [htype]
  · simp [htype]

theorem CarriesBlock.validateHeader (h : g.CarriesBlock k) :
  g.frame.validateHeader = .goodFrame
  := by
  have hsize : ¬ maxPayloadSize < g.payload.length := Nat.not_lt.mpr h.length_le
  rw [Frame.validateHeader, payloadSize_frame h.length_le, type_frame]
  rcases h.type with htype | htype
  · simp [htype, hsize]
  · simp [htype, hsize]

theorem CarriesBlock.validatePayload (h : g.CarriesBlock k) :
  g.frame.validatePayload = .goodFrame
  := by
  have hunpadded : g.frame.unpaddedSize = some g.payload.length := by
    rw [Frame.unpaddedSize, flags_frame h.flags_lt, h.not_padded, payloadSize_frame h.length_le]
    rfl
  have heq := h.priority_eq
  have hle := h.priority_le
  rw [Frame.validatePayload, type_frame]
  rcases h.type with htype | htype
  · rw [htype] at heq ⊢
    simp only [hunpadded, flags_frame h.flags_lt]
    rw [if_neg]
    rintro ⟨hflag, hshort⟩
    rw [if_pos ⟨rfl, hflag⟩] at heq
    omega
  · rw [htype]

theorem CarriesBlock.isSome_priority (h : g.CarriesBlock k) :
  (if g.frame.priority.isSome then 5 else 0) = k
  := by
  have heq := h.priority_eq
  have hle := h.priority_le
  have hpriority := h.type_ne.2
  rw [Frame.priority, length_frame, flags_frame h.flags_lt]
  by_cases hfirst : g.type = .headers ∧ testFlag g.flags FrameFlag.priority
  · rw [if_pos hfirst] at heq
    have hlong : ¬ frameHeaderSize + g.payload.length ≤ frameHeaderSize := by omega
    simp [hlong, type_frame, hfirst.1, hfirst.2, heq]
  · rw [if_neg hfirst] at heq
    have hnot : (decide (g.frame.type = .headers) && testFlag g.flags FrameFlag.priority ||
        decide (g.frame.type = .priority)) = false := by
      rw [type_frame] at hpriority ⊢
      simpa [hpriority] using hfirst
    simp [hnot, heq]

/-- The block of a frame is its payload behind the priority. -/
theorem CarriesBlock.hpackBlockSize (h : g.CarriesBlock k) :
  g.frame.hpackBlockSize = g.payload.length - k
  := by
  have hle := h.priority_le
  have hmax : maxPayloadSize = 16777215 := rfl
  have hlength := h.length_le
  have hdata : (if g.frame.priority.isSome then (g.payload.length : ℤ) - 5 else g.payload.length) =
      g.payload.length - k := by
    rw [← h.isSome_priority]
    split_ifs
    · rfl
    · simp
  rw [Frame.hpackBlockSize, if_neg h.type_ne.1, Frame.dataSize, flags_frame h.flags_lt,
    h.not_padded, payloadSize_frame h.length_le]
  simp only [Bool.false_eq_true, if_false]
  rw [hdata]
  have hsize := Frame.toUInt32_of_nonneg (x := g.payload.length - k) (by omega) (by omega)
  omega

theorem CarriesBlock.hpackBlockBegin (h : g.CarriesBlock k) (hpayload : g.payload ≠ []) :
  g.frame.hpackBlockBegin = some (frameHeaderSize + k)
  := by
  have hpos := List.length_pos_of_ne_nil hpayload
  have hlong : ¬ g.frame.buffer.length ≤ frameHeaderSize := by
    rw [length_frame]
    omega
  rw [Frame.hpackBlockBegin, if_neg h.type_ne.1, Frame.dataBegin, if_neg hlong,
    flags_frame h.flags_lt, h.not_padded, h.isSome_priority]
  rfl

/-- A frame adds its part of the field block. -/
theorem CarriesBlock.assembleHpackBlock (h : g.CarriesBlock k) (frames : List Frame) :
  Http2.assembleHpackBlock (g.frame :: frames) =
    (Http2.assembleHpackBlock frames).map (g.payload.drop k ++ ·)
  := by
  have hlength := length_frame g
  rw [Http2.assembleHpackBlock, h.hpackBlockSize]
  cases hsize : g.payload.length - k with
  | zero =>
    have hdrop : g.payload.drop k = [] := by
      apply List.drop_of_length_le
      omega
    rw [hdrop]
    simp
  | succ size =>
    have hpayload : g.payload ≠ [] := by
      rintro hnil
      rw [hnil, List.length_nil, Nat.zero_sub] at hsize
      cases hsize
    have hfits : ¬ g.frame.buffer.length < frameHeaderSize + k + (size + 1) := by omega
    have htake : (g.payload.drop k).take (size + 1) = g.payload.drop k := by
      apply List.take_of_length_le
      rw [List.length_drop, hsize]
    rw [h.hpackBlockBegin hpayload]
    dsimp only
    rw [if_neg hfits, drop_frame, htake]

/-! ### The frames of a field block -/

/-- CONTINUATION frames on a stream, within a limit, only the last with END_HEADERS, that are put
together to `rest`. -/
structure Continues (sizeLimit streamID : ℕ) (frames : List OutboundFrame) (rest : Octets) :
    Prop where
  type_eq : ∀ g ∈ frames, g.type = .continuation
  streamID_eq : ∀ g ∈ frames, g.streamID = streamID
  length_le : ∀ g ∈ frames, g.payload.length ≤ sizeLimit
  carries : ∀ g ∈ frames, g.CarriesBlock 0
  endHeaders_eq : ∃ n, n + 1 = frames.length ∧
    frames.map (fun g => testFlag g.flags FrameFlag.endHeaders) = List.replicate n false ++ [true]
  assembled : Http2.assembleHpackBlock (frames.map frame) = some rest

theorem carriesBlock_continuation {flags : ℕ} (streamID : ℕ) {payload : Octets}
    (hflags : flags < 2 ^ 8 ∧ testFlag flags FrameFlag.padded = false)
    (h : payload.length ≤ maxPayloadSize) :
  CarriesBlock ⟨.continuation, flags, streamID, payload⟩ 0
  := by
  constructor
  · right
    rfl
  · apply hflags.1
  · apply hflags.2
  · apply h
  · rw [if_neg]
    rintro ⟨htype, -⟩
    cases htype
  · apply Nat.zero_le

/-- The loop of `writeHEADERS` cuts what is left of a field block into frames. -/
theorem continues_continuations {sizeLimit : ℕ} (streamID : ℕ) (hpos : 0 < sizeLimit)
    (hlimit : sizeLimit ≤ maxPayloadSize) {turns : ℕ} {rest : Octets} (hrest : rest ≠ [])
    (hturns : rest.length ≤ turns) :
  Continues sizeLimit streamID (continuations sizeLimit streamID turns rest) rest
  := by
  induction turns generalizing rest with
  | zero =>
    have hpos := List.length_pos_of_ne_nil hrest
    omega
  | succ turns ih =>
    rw [continuations]
    split_ifs with hlast
    · have hcarries : CarriesBlock ⟨.continuation, FrameFlag.endHeaders, streamID, rest⟩ 0 :=
        carriesBlock_continuation streamID (by decide) (Nat.le_trans hlast hlimit)
      constructor
      · simp
      · simp
      · simpa using hlast
      · simpa using hcarries
      · use 0
        simp [testFlag, FrameFlag.endHeaders]
      · rw [List.map_singleton, hcarries.assembleHpackBlock]
        simp [Http2.assembleHpackBlock]
    · have hlength : (rest.drop sizeLimit).length = rest.length - sizeLimit := List.length_drop
      have hdropped : rest.drop sizeLimit ≠ [] := by
        apply List.ne_nil_of_length_pos
        omega
      have hcontinues := ih hdropped (by omega)
      have htake : (rest.take sizeLimit).length = sizeLimit := by
        rw [List.length_take]
        omega
      have hempty : testFlag FrameFlag.empty FrameFlag.endHeaders = false := by decide
      have hcarries : CarriesBlock ⟨.continuation, FrameFlag.empty, streamID,
          rest.take sizeLimit⟩ 0 :=
        carriesBlock_continuation streamID (by decide) (htake.trans_le hlimit)
      constructor
      · rw [List.forall_mem_cons]
        use rfl, hcontinues.type_eq
      · rw [List.forall_mem_cons]
        use rfl, hcontinues.streamID_eq
      · rw [List.forall_mem_cons]
        use Nat.le_of_eq htake, hcontinues.length_le
      · rw [List.forall_mem_cons]
        use hcarries, hcontinues.carries
      · obtain ⟨n, hn, hflags⟩ := hcontinues.endHeaders_eq
        use n + 1
        constructor
        · rw [hn, List.length_cons]
        · rw [List.map_cons, hflags, hempty, List.replicate_succ, List.cons_append]
      · rw [List.map_cons, hcarries.assembleHpackBlock, hcontinues.assembled]
        simp

/-- The frames that `writeHEADERS` is to write for a HEADERS frame with a priority of `k` octets:
the first of them, and the others. -/
structure Fragments (g : OutboundFrame) (sizeLimit k : ℕ) (first : OutboundFrame)
    (rest : List OutboundFrame) : Prop where
  first_type : first.type = .headers
  rest_type : ∀ g ∈ rest, g.type = .continuation
  streamID_eq : ∀ g' ∈ first :: rest, g'.streamID = g.streamID
  length_le : ∀ g' ∈ first :: rest, g'.payload.length ≤ sizeLimit
  carries : ∀ g' ∈ first :: rest, ∃ k, g'.CarriesBlock k
  endHeaders_eq : (first :: rest).map (fun g => testFlag g.flags FrameFlag.endHeaders) =
    List.replicate rest.length false ++ [true]
  assembled : Http2.assembleHpackBlock ((first :: rest).map frame) = some (g.payload.drop k)

end OutboundFrame

/-- What `addFlag` and `setFlags` do to the flags of a HEADERS frame. -/
theorem headersFlags_spec (hasPriority endHeaders endStream : Bool) :
  let flags := (if hasPriority then FrameFlag.priority else 0) |||
    (if endHeaders then FrameFlag.endHeaders else 0) |||
    if endStream then FrameFlag.endStream else 0
  (∀ flags' ∈ [flags ||| FrameFlag.endHeaders, flags - (flags &&& FrameFlag.endHeaders)],
    flags' < 2 ^ 8 ∧ testFlag flags' FrameFlag.padded = false ∧
      testFlag flags' FrameFlag.priority = hasPriority) ∧
  testFlag (flags ||| FrameFlag.endHeaders) FrameFlag.endHeaders = true ∧
  testFlag (flags - (flags &&& FrameFlag.endHeaders)) FrameFlag.endHeaders = false ∧
  flags &&& (0xff ^^^ FrameFlag.endHeaders) = flags - (flags &&& FrameFlag.endHeaders) ∧
  flags < 2 ^ 8
  := by
  revert hasPriority endHeaders endStream
  decide

namespace HeadersFrame

variable (f : HeadersFrame)

/-- The frame as a whole. -/
def outbound : OutboundFrame :=
  ⟨.headers, f.flags, f.streamID, f.priorityOctets ++ f.block⟩

theorem length_priorityOctets :
  f.priorityOctets.length = if f.priority.isSome then 5 else 0
  := by
  rw [priorityOctets]
  cases f.priority with
  | none => rfl
  | some priority => rfl

/-- The frames of `writeHEADERS`. -/
theorem fragments {sizeLimit : ℕ} (h : minPayloadLimit ≤ sizeLimit) :
  ∃ first rest, f.outbound.headersFrames sizeLimit = first :: rest ∧
    f.outbound.Fragments (min sizeLimit maxPayloadSize) f.priorityOctets.length first rest
  := by
  obtain ⟨hflags, hend, hmore, -, -⟩ :=
    headersFlags_spec f.priority.isSome f.endHeaders f.endStream
  rw [← flags] at hflags hend hmore
  have hmin : minPayloadLimit = 16384 := rfl
  have hmax : maxPayloadSize = 16777215 := rfl
  have hk := f.length_priorityOctets
  have hfive : f.priorityOctets.length ≤ 5 := by
    rw [hk]
    split_ifs
    · omega
    · omega
  have hlength : f.outbound.payload.length = f.priorityOctets.length + f.block.length :=
    List.length_append
  rw [OutboundFrame.headersFrames]
  generalize hlimit : min sizeLimit maxPayloadSize = limit
  have hcarries : ∀ flags ∈ [f.flags ||| FrameFlag.endHeaders,
      f.flags - (f.flags &&& FrameFlag.endHeaders)], ∀ payload : Octets,
      payload.length ≤ limit → f.priorityOctets.length ≤ payload.length →
      OutboundFrame.CarriesBlock ⟨.headers, flags, f.streamID, payload⟩
        f.priorityOctets.length := by
    intro flags hmem payload hpayload hpriority
    obtain ⟨hlt, hpadded, hflag⟩ := hflags flags hmem
    constructor
    · left
      rfl
    · apply hlt
    · apply hpadded
    · dsimp only
      omega
    · simp [hk, hflag]
    · apply hpriority
  split_ifs with hfits
  · have hfirst := hcarries (f.flags ||| FrameFlag.endHeaders) (by simp) _ hfits (by omega)
    refine ⟨f.outbound.addFlag FrameFlag.endHeaders, [], rfl, ?_⟩
    constructor
    · rfl
    · simp
    · simp [OutboundFrame.addFlag]
    · simpa [OutboundFrame.addFlag] using hfits
    · rw [List.forall_mem_singleton]
      exact ⟨_, hfirst⟩
    · rw [List.map_singleton]
      apply congrArg (fun b => [b]) hend
    · rw [List.map_singleton]
      apply (hfirst.assembleHpackBlock []).trans
      rw [assembleHpackBlock, Option.map_some, List.append_nil]
  · have htake : (f.outbound.payload.take limit).length = limit := by
      rw [List.length_take]
      omega
    have hfirst := hcarries (f.flags - (f.flags &&& FrameFlag.endHeaders)) (by simp) _
      (Nat.le_of_eq htake) (by omega)
    have hrest : f.outbound.payload.drop limit ≠ [] := by
      apply List.ne_nil_of_length_pos
      rw [List.length_drop]
      omega
    have hturns : (f.outbound.payload.drop limit).length ≤ f.outbound.payload.length := by simp
    have hcontinues := OutboundFrame.continues_continuations f.outbound.streamID
      (by omega : 0 < limit) (by omega) hrest hturns
    obtain ⟨n, hn, hcontinued⟩ := hcontinues.endHeaders_eq
    refine ⟨_, _, rfl, ?_⟩
    constructor
    · rfl
    · apply hcontinues.type_eq
    · rw [List.forall_mem_cons]
      use rfl, hcontinues.streamID_eq
    · rw [List.forall_mem_cons]
      use Nat.le_of_eq htake, hcontinues.length_le
    · rw [List.forall_mem_cons]
      use ⟨_, hfirst⟩
      intro g hg
      exact ⟨0, hcontinues.carries g hg⟩
    · rw [List.map_cons, hcontinued, ← hn, List.replicate_succ, List.cons_append]
      congr 1
    · rw [List.map_cons]
      apply (hfirst.assembleHpackBlock _).trans
      have hle : f.priorityOctets.length ≤ (f.outbound.payload.take limit).length := by omega
      rw [hcontinues.assembled, Option.map_some, ← List.drop_append_of_le_length hle,
        List.take_append_drop]

/-! ### What `writeHEADERS` writes -/

end HeadersFrame

/-- The octets in front of the payload of a frame. -/
def frameHeader (size : ℕ) (type : FrameType) (flags streamID : ℕ) : Octets :=
  [UInt8.ofNat (size / 2 ^ 16), UInt8.ofNat (size / 2 ^ 8), UInt8.ofNat size,
    UInt8.ofNat type.toNat, UInt8.ofNat flags] ++ toBigEndian streamID

theorem flags_frameHeader {size : ℕ} {type : FrameType} {flags streamID : ℕ} (h : flags < 2 ^ 8)
    (payload : Octets) :
  Frame.flags ⟨frameHeader size type flags streamID ++ payload⟩ = flags
  := by
  change (UInt8.ofNat flags).toNat = flags
  rw [UInt8.toNat_ofNat', Nat.mod_eq_of_lt h]

theorem length_frameHeader (size : ℕ) (type : FrameType) (flags streamID : ℕ) :
  (frameHeader size type flags streamID).length = frameHeaderSize
  := rfl

namespace FrameWriter

theorem addFlag_frameHeader {size : ℕ} {type : FrameType} {flags streamID : ℕ} (h : flags < 2 ^ 8)
    (flag : ℕ) (payload : Octets) :
  addFlag ⟨⟨frameHeader size type flags streamID ++ payload⟩⟩ flag =
    ⟨⟨frameHeader size type (flags ||| flag) streamID ++ payload⟩⟩
  := by
  rw [addFlag, flags_frameHeader h]
  rfl

/-- The loop writes the CONTINUATION frames of what is left of the frame. -/
theorem writeContinuations_eq {buffer : Octets} {sizeLimit : ℕ}
    (hbuffer : buffer.length < 2 ^ 32) (hpos : 0 < sizeLimit) {turns : ℕ} {rest : Octets}
    (hrest : rest ≠ []) (hturns : rest.length ≤ turns) {offset : ℕ}
    (hdrop : buffer.drop offset = rest) (streamID size : ℕ) :
  writeContinuations buffer sizeLimit (turns + 1)
      ⟨⟨frameHeader size .continuation FrameFlag.empty streamID⟩⟩ offset =
    some ((OutboundFrame.continuations sizeLimit streamID turns rest).flatMap fun g =>
      g.frame.buffer)
  := by
  induction turns generalizing rest offset size with
  | zero =>
    have hpos := List.length_pos_of_ne_nil hrest
    omega
  | succ turns ih =>
    have hlength : buffer.length - offset = rest.length := by
      rw [← hdrop, List.length_drop]
    have hpos := List.length_pos_of_ne_nil hrest
    have hsize : (buffer.length - offset) % 2 ^ 32 = rest.length := by
      rw [hlength]
      apply Nat.mod_eq_of_lt
      omega
    have hnext : offset ≠ buffer.length := by omega
    rw [writeContinuations, if_neg hnext, OutboundFrame.continuations, hsize, hdrop]
    dsimp only
    by_cases hlast : rest.length ≤ sizeLimit
    · have hchunk : min sizeLimit rest.length = rest.length := by omega
      have hend : (rest.length + offset) % 2 ^ 32 = buffer.length := by omega
      have hoffset : (offset + rest.length) % 2 ^ 32 = buffer.length := by omega
      have hflagged : addFlag ⟨⟨frameHeader size .continuation FrameFlag.empty streamID⟩⟩
          FrameFlag.endHeaders =
          ⟨⟨frameHeader size .continuation FrameFlag.endHeaders streamID⟩⟩ :=
        addFlag_frameHeader (by decide) FrameFlag.endHeaders []
      rw [hchunk, if_pos hend, hflagged, hoffset, if_pos hlast, writeContinuations,
        if_pos rfl, List.take_length, Option.map_some, List.append_nil, List.flatMap_singleton]
      rfl
    · have hchunk : min sizeLimit rest.length = sizeLimit := by omega
      have hmore : (sizeLimit + offset) % 2 ^ 32 ≠ buffer.length := by omega
      have hoffset : (offset + sizeLimit) % 2 ^ 32 = offset + sizeLimit := by omega
      have hdropped : (rest.drop sizeLimit).length = rest.length - sizeLimit := List.length_drop
      have hrest' : rest.drop sizeLimit ≠ [] := by
        apply List.ne_nil_of_length_pos
        omega
      have hdrop' : buffer.drop (offset + sizeLimit) = rest.drop sizeLimit := by
        rw [← hdrop, List.drop_drop]
      have htake : (rest.take sizeLimit).length = sizeLimit := by
        rw [List.length_take]
        omega
      have hframe : (OutboundFrame.frame ⟨.continuation, FrameFlag.empty, streamID,
          rest.take sizeLimit⟩).buffer =
          frameHeader sizeLimit .continuation FrameFlag.empty streamID
            ++ rest.take sizeLimit := by
        change frameHeader (rest.take sizeLimit).length _ _ _ ++ _ = _
        rw [htake]
      rw [hchunk, if_neg hmore, hoffset, if_neg hlast, List.flatMap_cons, hframe]
      apply (congrArg _ (ih hrest' (by omega) hdrop' sizeLimit)).trans
      rfl

/-- The loop does not end where the frame is too long for its offsets. -/
theorem writeContinuations_none {buffer : Octets} (hbuffer : 2 ^ 32 ≤ buffer.length)
    (sizeLimit turns : ℕ) (w : FrameWriter) {offset : ℕ} (hoffset : offset < 2 ^ 32) :
  writeContinuations buffer sizeLimit turns w offset = none
  := by
  induction turns generalizing w offset with
  | zero => rfl
  | succ turns ih =>
    have hnext : offset ≠ buffer.length := by omega
    rw [writeContinuations, if_neg hnext]
    dsimp only
    rw [ih _ (Nat.mod_lt _ (by decide)), Option.map_none]

end FrameWriter

namespace HeadersFrame

variable (f : HeadersFrame)

theorem writer_eq :
  ∃ size, f.writer = ⟨⟨frameHeader size .headers f.flags f.streamID ++ f.outbound.payload⟩⟩
  := by
  have hprepared : ∀ priority : Option (ℕ × UInt8), priority = f.priority → ∃ size,
      f.writer = ⟨⟨frameHeader size .headers f.flags f.streamID ++ f.outbound.payload⟩⟩ := by
    rintro (_ | ⟨streamDependency, weight⟩) h
    · use 0
      rw [writer, outbound, priorityOctets, ← h]
      rfl
    · use 5
      rw [writer, outbound, priorityOctets, ← h]
      rfl
  apply hprepared f.priority rfl

theorem length_writer :
  f.writer.frame.buffer.length = frameHeaderSize + f.outbound.payload.length
  := by
  obtain ⟨size, hwriter⟩ := f.writer_eq
  rw [hwriter, List.length_append, length_frameHeader]

/-- A frame that fits is written with END_HEADERS and its size. -/
theorem buffer_single :
  ((f.writer.addFlag FrameFlag.endHeaders).updatePayloadSize).frame.buffer =
    frameHeader ((f.writer.frame.buffer.length - frameHeaderSize) % 2 ^ 32) .headers
      (f.flags ||| FrameFlag.endHeaders) f.streamID ++ f.outbound.payload
  := by
  obtain ⟨size, hwriter⟩ := f.writer_eq
  obtain ⟨-, -, -, -, hflags⟩ := headersFlags_spec f.priority.isSome f.endHeaders f.endStream
  rw [← flags] at hflags
  have hlength : (frameHeader size .headers (f.flags ||| FrameFlag.endHeaders) f.streamID
      ++ f.outbound.payload).length = f.writer.frame.buffer.length := by
    rw [length_writer, List.length_append, length_frameHeader]
  rw [hwriter, FrameWriter.addFlag_frameHeader hflags, FrameWriter.updatePayloadSize, hlength,
    hwriter]
  rfl

/-- What is written of a frame that is short enough for the offsets: the frames of its field
block. -/
theorem writeHEADERS_eq {sizeLimit : ℕ} (hlimit : 0 < sizeLimit)
    (h : f.writer.frame.buffer.length < 2 ^ 32) :
  ∃ turns, f.writer.writeHEADERS sizeLimit turns =
    some ((f.outbound.headersFrames sizeLimit).flatMap fun g => g.frame.buffer)
  := by
  obtain ⟨size, hwriter⟩ := f.writer_eq
  obtain ⟨-, -, -, hclear, hflags⟩ := headersFlags_spec f.priority.isSome f.endHeaders f.endStream
  rw [← flags] at hclear hflags
  have hmax : 0 < maxPayloadSize := by decide
  have hsize : (f.writer.frame.buffer.length - frameHeaderSize) % 2 ^ 32 =
      f.outbound.payload.length := by
    rw [length_writer] at h ⊢
    rw [Nat.add_sub_cancel_left]
    apply Nat.mod_eq_of_lt
    omega
  use f.outbound.payload.length + 1
  rw [FrameWriter.writeHEADERS, OutboundFrame.headersFrames, hsize]
  generalize hmin : min sizeLimit maxPayloadSize = limit
  dsimp only
  by_cases hfits : f.outbound.payload.length ≤ limit
  · rw [if_pos hfits, if_pos hfits, buffer_single, hsize, List.flatMap_singleton]
    rfl
  · rw [if_neg hfits, if_neg hfits]
    have hfirst : (f.writer.setFlags (f.writer.frame.flags &&&
        (0xff ^^^ FrameFlag.endHeaders))).setPayloadSize limit =
        ⟨⟨frameHeader limit .headers (f.flags - (f.flags &&& FrameFlag.endHeaders)) f.streamID
          ++ f.outbound.payload⟩⟩ := by
      rw [hwriter, flags_frameHeader hflags, hclear]
      rfl
    have htake : (f.outbound.payload.take limit).length = limit := by
      rw [List.length_take]
      omega
    have hbuffer : (frameHeader limit .headers (f.flags - (f.flags &&& FrameFlag.endHeaders))
        f.streamID ++ f.outbound.payload).length = f.writer.frame.buffer.length := by
      rw [length_writer, List.length_append, length_frameHeader]
    have hid : Frame.streamID ⟨frameHeader limit .headers
        (f.flags - (f.flags &&& FrameFlag.endHeaders)) f.streamID ++ f.outbound.payload⟩ =
        f.streamID := by
      have hget : fromBigEndian (frameHeader limit .headers
          (f.flags - (f.flags &&& FrameFlag.endHeaders)) f.streamID ++ f.outbound.payload) 5 =
          f.streamID :=
        fromBigEndian_toBigEndian (by omega) [_, _, _, _, _] f.outbound.payload
      rw [Frame.streamID, hget, lastValidStreamID, Nat.and_two_pow_sub_one_eq_mod]
      apply Nat.mod_eq_of_lt f.streamID.isLt
    have hrest : f.outbound.payload.drop limit ≠ [] := by
      apply List.ne_nil_of_length_pos
      rw [List.length_drop]
      omega
    have hturns : (f.outbound.payload.drop limit).length ≤ f.outbound.payload.length := by simp
    have hdrop : (frameHeader limit .headers (f.flags - (f.flags &&& FrameFlag.endHeaders))
        f.streamID ++ f.outbound.payload).drop (frameHeaderSize + limit) =
        f.outbound.payload.drop limit := by
      rw [← List.drop_drop]
      rfl
    have hloop := FrameWriter.writeContinuations_eq (by omega) (by omega : 0 < limit) hrest
      hturns hdrop (f.streamID : ℕ) 0
    rw [hfirst, hid]
    apply (congrArg _ hloop).trans
    rw [Option.map_some, List.flatMap_cons]
    congr 2
    change (frameHeader _ _ _ _ ++ _).take (frameHeaderSize + limit) =
      frameHeader (f.outbound.payload.take limit).length _ _ _ ++ _
    rw [htake, List.take_append, length_frameHeader, Nat.add_sub_cancel_left,
      List.take_of_length_le (by rw [length_frameHeader]; omega)]
    rfl

/-! ### Round trips -/

/-- A frame that is too long is not written as it should be: its size is cut off, or the loop does
not end. -/
theorem not_roundTrips {sizeLimit : ℕ} (hlong : 2 ^ 32 ≤ f.writer.frame.buffer.length) :
  ¬ f.RoundTrips sizeLimit
  := by
  rintro ⟨turns, octets, first, rest, hwrite, hwritten⟩
  obtain ⟨hflags, hend, -, -, -⟩ :=
    headersFlags_spec f.priority.isSome f.endHeaders f.endStream
  rw [← flags] at hflags hend
  have hheader : frameHeaderSize = 9 := rfl
  rw [length_writer] at hlong
  rw [FrameWriter.writeHEADERS] at hwrite
  dsimp only at hwrite
  split_ifs at hwrite with hfits
  · have hoctets := Option.some.inj hwrite
    rw [buffer_single, hwritten.octets_eq, List.flatMap_cons] at hoctets
    have hcomplete := hwritten.length_eq first List.mem_cons_self
    -- The first frame has the flag, so there is no other.
    have hfirst : testFlag first.flags FrameFlag.endHeaders = true := by
      have hsame := sameHeader_append hcomplete (rest.flatMap Frame.buffer)
      rw [← hoctets] at hsame
      have hfirst : first.flags = f.flags ||| FrameFlag.endHeaders := by
        rw [Frame.flags, ← hsame.getElem (by decide)]
        apply flags_frameHeader (hflags _ List.mem_cons_self).1
      rw [hfirst, hend]
    have hrest : rest = [] := by
      have hmap := hwritten.endHeaders_eq
      cases rest with
      | nil => rfl
      | cons g rest =>
        rw [List.map_cons, hfirst, List.length_cons, List.replicate_succ] at hmap
        cases (List.cons.inj hmap).1
    have hlength := congrArg List.length hoctets
    rw [hrest, List.flatMap_nil, List.append_nil, List.length_append, length_frameHeader,
      hcomplete] at hlength
    have hsize := first.payloadSize_lt
    omega
  · rw [FrameWriter.writeContinuations_none] at hwrite
    · cases hwrite
    · simp only [FrameWriter.setPayloadSize, FrameWriter.setFlags, List.length_set]
      rw [length_writer]
      omega
    · have hmax : maxPayloadSize = 16777215 := rfl
      omega

/-- The frames of a frame that is short enough are read back. -/
theorem roundTrips {sizeLimit : ℕ} (h : minPayloadLimit ≤ sizeLimit)
    (hshort : f.writer.frame.buffer.length < 2 ^ 32) :
  f.RoundTrips sizeLimit
  := by
  have hpos : 0 < sizeLimit := Nat.lt_of_lt_of_le (by decide) h
  obtain ⟨turns, hwrite⟩ := f.writeHEADERS_eq hpos hshort
  obtain ⟨first, rest, hframes, hfragments⟩ := f.fragments h
  have hlength : ∀ g ∈ first :: rest, g.payload.length ≤ maxPayloadSize := by
    intro g hg
    apply Nat.le_trans (hfragments.length_le g hg) (Nat.min_le_right _ _)
  have hflags : ∀ g ∈ first :: rest, g.frame.flags = g.flags := by
    intro g hg
    obtain ⟨k, hcarries⟩ := hfragments.carries g hg
    apply OutboundFrame.flags_frame hcarries.flags_lt
  have hoctets : (f.outbound.headersFrames sizeLimit).flatMap (fun g => g.frame.buffer) =
      ((first :: rest).map OutboundFrame.frame).flatMap Frame.buffer := by
    rw [hframes, List.flatMap_map]
  have hcomplete : ∀ g ∈ (first :: rest).map OutboundFrame.frame,
      g.buffer.length = frameHeaderSize + g.payloadSize := by
    rw [List.forall_mem_map]
    intro g hg
    rw [OutboundFrame.length_frame, OutboundFrame.payloadSize_frame (hlength g hg)]
  refine ⟨turns, _, first.frame, rest.map OutboundFrame.frame, hwrite, ?_⟩
  constructor
  · apply hoctets
  · apply hcomplete
  · rw [OutboundFrame.type_frame, hfragments.first_type]
  · rw [List.forall_mem_map]
    intro g hg
    rw [OutboundFrame.type_frame, hfragments.rest_type g hg]
  · rw [← List.map_cons, List.forall_mem_map]
    intro g hg
    have hid : g.streamID = f.streamID := hfragments.streamID_eq g hg
    rw [OutboundFrame.streamID_frame (by omega), hid]
  · rw [← List.map_cons, List.forall_mem_map]
    intro g hg
    rw [OutboundFrame.payloadSize_frame (hlength g hg)]
    apply Nat.le_trans (hfragments.length_le g hg) (Nat.min_le_left _ _)
  · rw [← List.map_cons, List.length_map, ← hfragments.endHeaders_eq, List.map_map]
    apply List.map_congr_left
    intro g hg
    rw [Function.comp_apply, hflags g hg]
  · intro socket hsocket
    rw [← List.map_cons]
    apply deliveries_flatMap hcomplete
    · rw [List.forall_mem_map]
      intro g hg
      obtain ⟨k, hcarries⟩ := hfragments.carries g hg
      apply hcarries.validateHeader
    · rw [List.forall_mem_map]
      intro g hg
      obtain ⟨k, hcarries⟩ := hfragments.carries g hg
      apply hcarries.validatePayload
    · rw [hsocket, hoctets]
  · rw [← List.map_cons, hfragments.assembled]
    apply congrArg some
    apply List.drop_left

/-- What `writeHEADERS` writes is read back as it should be if and only if the frame has less than
`2 ^ 32` octets. -/
theorem readBack_iff {sizeLimit : ℕ} (h : minPayloadLimit ≤ sizeLimit) :
  f.RoundTrips sizeLimit ↔ f.writer.frame.buffer.length < 2 ^ 32
  := by
  constructor
  · intro h_round
    by_contra h_long
    apply f.not_roundTrips (Nat.not_lt.mp h_long) h_round
  · apply f.roundTrips h

theorem readBack_iff_single :
  RoundTrips ⟨true, true, some (0, 15), 1, [0x82]⟩ 16384 ↔
    (writer ⟨true, true, some (0, 15), 1, [0x82]⟩).frame.buffer.length < 2 ^ 32
  := readBack_iff _ (Nat.le_refl minPayloadLimit)

theorem not_roundTrips_of_block {sizeLimit : ℕ} (h : 2 ^ 32 ≤ f.block.length) :
  ¬ f.RoundTrips sizeLimit
  := by
  apply not_roundTrips
  rw [length_writer, outbound, List.length_append]
  omega

/-- A field block of 4 GiB. -/
theorem not_roundTrips_replicate :
  ¬ RoundTrips ⟨true, true, some (0, 15), 1, List.replicate (2 ^ 32) 0⟩ 16384
  := by
  apply not_roundTrips_of_block
  rw [List.length_replicate]

end HeadersFrame

end Http2
