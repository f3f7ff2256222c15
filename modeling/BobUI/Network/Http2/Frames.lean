import BobUI.Network.Http2.Protocol

/-!
# Frames

A frame is the buffer of its octets, the header included.  `FrameReader` of
`http2frames.cpp` fills a frame from a socket, over as many calls as it takes.
-/

namespace Http2

/-- A frame. -/
structure Frame where
  buffer : Octets
deriving DecidableEq, Repr

namespace Frame

/-- `Frame::Frame()`. -/
def new : Frame :=
  ⟨List.replicate frameHeaderSize 0⟩

def type (f : Frame) : FrameType :=
  .ofOctet (f.buffer[3]!).toNat

/-- `streamID`: without the reserved bit. -/
def streamID (f : Frame) : ℕ :=
  fromBigEndian f.buffer 5 &&& lastValidStreamID

def flags (f : Frame) : ℕ :=
  (f.buffer[4]!).toNat

def payloadSize (f : Frame) : ℕ :=
  (f.buffer[0]!).toNat * 2 ^ 16 + (f.buffer[1]!).toNat * 2 ^ 8 + (f.buffer[2]!).toNat

def padding (f : Frame) : ℕ :=
  if !testFlag f.flags FrameFlag.padded then 0
  else
    match f.type with
    | .data | .pushPromise | .headers => (f.buffer[frameHeaderSize]!).toNat
    | _ => 0

/-- `priority`: the stream and the weight, where the frame has them. -/
def priority (f : Frame) : Option (ℕ × ℕ) :=
  if f.buffer.length ≤ frameHeaderSize then none
  else
    let src := frameHeaderSize +
      if f.type = .headers && testFlag f.flags FrameFlag.padded then 1 else 0
    if (f.type = .headers && testFlag f.flags FrameFlag.priority) || f.type = .priority then
      some (fromBigEndian f.buffer src, (f.buffer[src + 4]!).toNat)
    else none

def validateHeader (f : Frame) : FrameStatus :=
  let framePayloadSize := f.payloadSize
  if framePayloadSize > maxPayloadSize then .sizeError
  else
    match f.type with
    | .settings =>
      if testFlag f.flags FrameFlag.ack then
        if framePayloadSize ≠ 0 then .sizeError else .goodFrame
      else if framePayloadSize % 6 ≠ 0 then .sizeError else .goodFrame
    | .priority => if framePayloadSize ≠ 5 then .sizeError else .goodFrame
    | .ping => if framePayloadSize ≠ 8 then .sizeError else .goodFrame
    | .goaway => if framePayloadSize < 8 then .sizeError else .goodFrame
    | .rstStream | .windowUpdate => if framePayloadSize ≠ 4 then .sizeError else .goodFrame
    | .pushPromise => if framePayloadSize < 4 then .sizeError else .goodFrame
    | _ => .goodFrame

/-- The size of the payload without the padding, and whether the padding fits. -/
def unpaddedSize (f : Frame) : Option ℕ :=
  let size := f.payloadSize
  if testFlag f.flags FrameFlag.padded then
    if size = 0 ∨ size < (f.buffer[frameHeaderSize]!).toNat then none
    else some (size - (f.buffer[frameHeaderSize]!).toNat)
  else some size

def validatePayload (f : Frame) : FrameStatus :=
  match f.type with
  | .data =>
    match f.unpaddedSize with
    | none => .sizeError
    | some _ => .goodFrame
  | .headers =>
    match f.unpaddedSize with
    | none => .sizeError
    | some size =>
      if testFlag f.flags FrameFlag.priority ∧ size < 5 then .sizeError else .goodFrame
  | .pushPromise =>
    match f.unpaddedSize with
    | none => .sizeError
    | some size => if size < 4 then .sizeError else .goodFrame
  | _ => .goodFrame

/-- `dataSize`, in `quint32` arithmetic. -/
def dataSize (f : Frame) : ℕ :=
  let size : ℤ := f.payloadSize
  let size := if testFlag f.flags FrameFlag.padded then size - (f.padding + 1) else size
  let size := if f.priority.isSome then size - 5 else size
  toUInt32 size

/-- `dataBegin`: the position in the buffer, `none` for a null pointer. -/
def dataBegin (f : Frame) : Option ℕ :=
  if f.buffer.length ≤ frameHeaderSize then none
  else
    some (frameHeaderSize + (if testFlag f.flags FrameFlag.padded then 1 else 0) +
      if f.priority.isSome then 5 else 0)

/-- `hpackBlockSize`, in `quint32` arithmetic. -/
def hpackBlockSize (f : Frame) : ℕ :=
  if f.type = .pushPromise then toUInt32 (f.dataSize - 4) else f.dataSize

def hpackBlockBegin (f : Frame) : Option ℕ :=
  if f.type = .pushPromise then f.dataBegin.map (· + 4) else f.dataBegin

end Frame

/-- A socket, as the octets each of its reads has at hand: one read takes octets of one
segment only. -/
abbrev Socket : Type := List Octets

/-- `QIODevice::read`: up to `maxSize` octets. -/
def Socket.read (maxSize : ℕ) : Socket → Octets × Socket
  | [] => ([], [])
  | segment :: segments =>
    if segment.length ≤ maxSize then (segment, segments)
    else (segment.take maxSize, segment.drop maxSize :: segments)

/-- The reader; `offset` octets of `frame` have been read. -/
structure FrameReader where
  offset : ℕ
  frame : Frame
deriving DecidableEq, Repr

namespace FrameReader

def new : FrameReader :=
  ⟨0, .new⟩

/-- `std::vector::resize`. -/
def resize (buffer : Octets) (size : ℕ) : Octets :=
  buffer.take size ++ List.replicate (size - buffer.length) 0

/-- The octets `chunk` written to the buffer at `offset`. -/
def fill (buffer : Octets) (offset : ℕ) (chunk : Octets) : Octets :=
  buffer.take offset ++ chunk ++ buffer.drop (offset + chunk.length)

/-- The buffer, with room for the header. -/
def headerBuffer (r : FrameReader) : Octets :=
  if r.frame.buffer.length < frameHeaderSize then resize r.frame.buffer frameHeaderSize
  else r.frame.buffer

/-- `readHeader`: whether the header is complete. -/
def readHeader (r : FrameReader) (socket : Socket) : Bool × FrameReader × Socket :=
  let (chunk, socket) := socket.read (frameHeaderSize - r.offset)
  let offset := r.offset + chunk.length
  (offset = frameHeaderSize, ⟨offset, ⟨fill r.headerBuffer r.offset chunk⟩⟩, socket)

/-- `readPayload`: whether the frame is complete. -/
def readPayload (r : FrameReader) (socket : Socket) : Bool × FrameReader × Socket :=
  let buffer := r.frame.buffer
  let (chunk, socket) := socket.read (buffer.length - r.offset)
  let offset := r.offset + chunk.length
  (offset = buffer.length, ⟨offset, ⟨fill buffer r.offset chunk⟩⟩, socket)

/-- The second phase of `read`. -/
def readRest (r : FrameReader) (socket : Socket) : FrameStatus × FrameReader × Socket :=
  if r.offset < r.frame.buffer.length then
    match r.readPayload socket with
    | (false, r, socket) => (.incompleteFrame, r, socket)
    | (true, r, socket) => (r.frame.validatePayload, { r with offset := 0 }, socket)
  else (r.frame.validatePayload, { r with offset := 0 }, socket)

def read (r : FrameReader) (socket : Socket) : FrameStatus × FrameReader × Socket :=
  if r.offset < frameHeaderSize then
    match r.readHeader socket with
    | (false, r, socket) => (.incompleteFrame, r, socket)
    | (true, r, socket) =>
      let status := r.frame.validateHeader
      if status ≠ .goodFrame then (status, r, socket)
      else if maxPayloadSize < r.frame.payloadSize then (.sizeError, r, socket)
      else
        let buffer := resize r.frame.buffer (r.frame.payloadSize + frameHeaderSize)
        readRest { r with frame := ⟨buffer⟩ } socket
  else r.readRest socket

end FrameReader

/-- Whether `handleReadyRead` ends the connection after a `sizeError` of the frame. -/
def sizeErrorEndsConnection (frame : Frame) : Bool :=
  frame.type = .headers || frame.type = .settings || frame.type = .pushPromise ||
    frame.type = .continuation || frame.type = .rstStream || frame.streamID = connectionStreamID

/-- Whether `handleReadyRead` ends the connection because of a result of the reader. -/
def endsConnection (status : FrameStatus) (frame : Frame) : Bool :=
  match status with
  | .protocolError => true
  | .sizeError => sizeErrorEndsConnection frame
  | .incompleteFrame | .goodFrame => false

/-- The reader after `handleReadyRead` has taken a result: a good frame is moved away,
which leaves an empty buffer. -/
def FrameReader.handOver (r : FrameReader) (status : FrameStatus) : FrameReader :=
  if status = .goodFrame then { r with frame := ⟨[]⟩ } else r

/-- The hpack block of a list of frames; `none` where a frame makes the code read past its
buffer. -/
def assembleHpackBlock : List Frame → Option Octets
  | [] => some []
  | frame :: frames =>
    match frame.hpackBlockSize, frame.hpackBlockBegin with
    | 0, _ => assembleHpackBlock frames
    | _ + 1, none => none
    | size + 1, some start =>
      if frame.buffer.length < start + (size + 1) then none
      else (assembleHpackBlock frames).map ((frame.buffer.drop start).take (size + 1) ++ ·)

/-- A frame to be written: what `FrameWriter` has been given. -/
structure OutboundFrame where
  type : FrameType
  flags : ℕ
  streamID : ℕ
  payload : Octets
deriving DecidableEq, Repr

namespace OutboundFrame

/-- The octets of the frame. -/
def frame (f : OutboundFrame) : Frame :=
  ⟨[UInt8.ofNat (f.payload.length / 2 ^ 16), UInt8.ofNat (f.payload.length / 2 ^ 8),
    UInt8.ofNat f.payload.length, UInt8.ofNat f.type.toNat, UInt8.ofNat f.flags] ++
    toBigEndian f.streamID ++ f.payload⟩

/-- `addFlag`. -/
def addFlag (f : OutboundFrame) (flag : ℕ) : OutboundFrame :=
  { f with flags := f.flags ||| flag }

/-- The CONTINUATION frames of `writeHEADERS`. -/
def continuations (sizeLimit streamID : ℕ) : (turns : ℕ) → Octets → List OutboundFrame
  | 0, _ => []
  | turns + 1, rest =>
    if rest.length ≤ sizeLimit then [⟨.continuation, FrameFlag.endHeaders, streamID, rest⟩]
    else
      ⟨.continuation, FrameFlag.empty, streamID, rest.take sizeLimit⟩ ::
        continuations sizeLimit streamID turns (rest.drop sizeLimit)

/-- The frames `writeHEADERS` writes. -/
def headersFrames (f : OutboundFrame) (sizeLimit : ℕ) : List OutboundFrame :=
  let sizeLimit := min sizeLimit maxPayloadSize
  if f.payload.length ≤ sizeLimit then [f.addFlag FrameFlag.endHeaders]
  else
    { f with flags := f.flags - (f.flags &&& FrameFlag.endHeaders),
             payload := f.payload.take sizeLimit } ::
      continuations sizeLimit f.streamID f.payload.length (f.payload.drop sizeLimit)

end OutboundFrame

end Http2
