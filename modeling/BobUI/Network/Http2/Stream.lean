import BobUI.Network.Http2.Connection

/-!
# The streams of a connection

The functions of `QHttp2Stream`, and the functions of `QHttp2Connection` they need.  A
function of a stream takes the number of the stream; where the stream is not in the table it
does nothing.
-/

namespace Http2

open Proc

variable {D : Type}

/-! ### The state of a stream -/

/-- `closeSession`. -/
def closeSession : Operation D Unit :=
  emit .connectionClosed

def maybeCloseOnGoingAway : Operation D Unit := do
  let s ← current
  if s.connectionAborted || !s.goingAway then pure ()
  else if s.gracefulShutdownState = .awaitingShutdownPing then pure ()
  else if s.streamIDs.all fun streamID => !(s.getStream streamID).any (·.isActive) then
    closeSession
  else pure ()

def setState (streamID : ℕ) (newState : StreamState) : Operation D Unit := do
  let s ← current
  match s.getStream streamID with
  | none => pure ()
  | some st =>
    if st.state = newState then pure ()
    else
      modifyStream streamID fun st => { st with state := newState }
      emit (.stream streamID (.stateChanged newState))
      if newState = .closed then maybeCloseOnGoingAway else pure ()

/-- The state `transitionState` sets, `none` where it sets none. -/
def nextState : StreamState → StateTransition → Option StreamState
  | .idle, .opening => some .opened
  | .opened, .closeLocal => some .halfClosedLocal
  | .opened, .closeRemote => some .halfClosedRemote
  | .opened, .rst => some .closed
  | .halfClosedLocal, .closeRemote => some .closed
  | .halfClosedLocal, .rst => some .closed
  | .halfClosedRemote, .closeLocal => some .closed
  | .halfClosedRemote, .rst => some .closed
  | .reservedRemote, .rst => some .closed
  | .reservedRemote, .closeLocal => some .halfClosedLocal
  | _, _ => none

def transitionState (streamID : ℕ) (transition : StateTransition) : Operation D Unit := do
  let s ← current
  match s.getStream streamID with
  | none => pure ()
  | some st =>
    if st.state = .idle ∧ transition ≠ .opening then fail .unreachable
    else
      match nextState st.state transition with
      | none => pure ()
      | some newState => setState streamID newState

/-- `finishWithError`, with a message. -/
def finishWithError (streamID errorCode : ℕ) (message : String) : Operation D Unit := do
  transitionState streamID .rst
  emit (.stream streamID (.errorOccurred errorCode message))

/-- The messages of `qt_error`. -/
def qtErrorString (errorCode : ℕ) : String :=
  match errorCode with
  | 0x0 => "Remote host signaled shutdown"
  | 0x1 => "HTTP/2 protocol error"
  | 0x2 => "Internal server error"
  | 0x3 => "Flow control error"
  | 0x4 => "SETTINGS ACK timeout error"
  | 0x5 => "Server received frame(s) on a half-closed stream"
  | 0x6 => "Server received a frame with an invalid size"
  | 0x7 => "Server refused a stream"
  | 0x8 => "Stream is no longer needed"
  | 0x9 => "Server is unable to maintain the header compression context for the connection"
  | 0xa =>
    "The connection established in response to a CONNECT request was reset or abnormally closed"
  | 0xb => "Server dislikes our behavior, excessive load detected."
  | 0xc => "The underlying transport has properties that do not meet minimum security requirements"
  | 0xd => "Server requires that HTTP/1.1 be used instead of HTTP/2."
  | _ => "RST_STREAM with unknown error code (" ++ toString errorCode ++ ")"

/-! ### Resetting a stream -/

/-- The numbers of the last 100 streams that were reset. -/
def Connection.registerReset (s : Connection D) (streamID : ℕ) : Connection D :=
  let resetStreamIDs := s.resetStreamIDs ++ [streamID]
  { s with resetStreamIDs := resetStreamIDs.drop (resetStreamIDs.length - 100) }

def registerStreamAsResetLocally (streamID : ℕ) : Operation D Unit :=
  change fun s => s.registerReset streamID

variable (env : Env D)

def sendRST_STREAM (streamID errorCode : ℕ) : Operation D Bool := do
  let s ← current
  match s.getStream streamID with
  | none => pure false
  | some st =>
    if st.state = .closed ∨ st.state = .idle then pure false
    else if st.rstStreamReceived.isSome then pure false
    else
      registerStreamAsResetLocally streamID
      modifyStream streamID fun st => { st with rstStreamSent := some errorCode }
      transitionState streamID .rst
      write env ⟨.rstStream, FrameFlag.empty, streamID, toBigEndian errorCode⟩

def streamError (streamID errorCode : ℕ) (message : String) : Operation D Unit := do
  let _ ← sendRST_STREAM env streamID errorCode
  emit (.stream streamID (.errorOccurred errorCode message))

/-- `QHttp2Connection::sendWINDOW_UPDATE`. -/
def sendWindowUpdateFrame (streamID delta : ℕ) : Operation D Bool :=
  write env ⟨.windowUpdate, FrameFlag.empty, streamID, toBigEndian delta⟩

/-- The conversion to a `qint32`. -/
def toInt32 (x : ℤ) : ℤ :=
  Int.bmod x (2 ^ 32)

/-- `QHttp2Stream::sendWINDOW_UPDATE`. -/
def sendWINDOW_UPDATE (streamID delta : ℕ) : Operation D Unit := do
  modifyStream streamID fun st => { st with recvWindow := toInt32 (st.recvWindow + toInt32 delta) }
  let _ ← sendWindowUpdateFrame env streamID delta
  pure ()

/-! ### Sending data -/

def finishSendDATA (streamID : ℕ) : Operation D Unit := do
  let s ← current
  match s.getStream streamID with
  | none => pure ()
  | some st =>
    when st.endStreamAfterDATA (transitionState streamID .closeLocal)
    modifyStream streamID fun st => { st with uploadByteDevice := none }
    emit (.stream streamID .uploadFinished)

/-- `deviceCanRead`, with the number of octets it asks for. -/
def deviceCanRead (requestSize : ℤ) (d : D) : Bool × D :=
  let (offered, d) := env.device.readPointer requestSize d
  (hasData offered, d)

/-- The inner loop of `internalSendDATA`: the payload of one DATA frame, what is left of the
window, and the device. -/
def fillFrame (requestSize : ℤ) : (turns : ℕ) → (remainingWindowSize remainingBytesInFrame : ℤ) →
    Octets → D → Except Fault (Octets × ℤ × D)
  | 0, _, _, _, _ => .error .hang
  | turns + 1, remainingWindowSize, remainingBytesInFrame, payload, d =>
    if remainingWindowSize = 0 then .ok (payload, remainingWindowSize, d)
    else
      match deviceCanRead env requestSize d with
      | (false, d) => .ok (payload, remainingWindowSize, d)
      | (true, d) =>
        if remainingBytesInFrame = 0 then .ok (payload, remainingWindowSize, d)
        else
          let maxToWrite := min remainingWindowSize remainingBytesInFrame
          match env.device.readPointer maxToWrite d with
          | ((none, _), d) => .ok (payload, remainingWindowSize, d)
          | ((some readPointer, outBytesAvail), d) =>
            if outBytesAvail ≤ 0 then .ok (payload, remainingWindowSize, d)
            else
              let bytesToWrite := min maxToWrite outBytesAvail
              if bytesToWrite < 0 then .error .negativeLength
              else
                fillFrame requestSize turns (remainingWindowSize - bytesToWrite)
                  (remainingBytesInFrame - bytesToWrite)
                  (payload ++ readPointer.take bytesToWrite.toNat)
                  (env.device.advanceReadPointer bytesToWrite.toNat d)

/-- A stream after a DATA frame has been filled. -/
def Stream.takeOctets (st : Stream D) (bytesWritten : ℕ) (d : D) : Stream D :=
  { st with sendWindow := st.sendWindow - bytesWritten, uploadByteDevice := some d }

/-- The windows and the device after a DATA frame has been filled. -/
def takeOctets (streamID : ℕ) (bytesWritten : ℕ) (d : D) : Operation D Unit := do
  modifyStream streamID (·.takeOctets bytesWritten d)
  change fun s => { s with sessionSendWindowSize := s.sessionSendWindowSize - bytesWritten }

/-- One turn of the outer loop of `internalSendDATA`: what is left of the window, the number
of octets in the frame, whether it ends the stream, and the device; `none` where the frame
cannot be written. -/
def sendFrame (streamID : ℕ) (endStreamAfterDATA : Bool) (requestSize maxFrameSize : ℤ)
    (remainingWindowSize : ℤ) (d : D) : Operation D (Option (ℤ × ℕ × Bool × D)) :=
  match fillFrame env requestSize env.fuel remainingWindowSize maxFrameSize [] d with
  | .error fault => fail fault
  | .ok (payload, remainingWindowSize, d) => do
    let (canRead, d) := deviceCanRead env requestSize d
    let endStream := !canRead && env.device.atEnd d && endStreamAfterDATA
    takeOctets streamID payload.length d
    let ok ← write env ⟨.data, if endStream then FrameFlag.endStream else FrameFlag.empty,
      streamID, payload⟩
    if ok then pure (some (remainingWindowSize, payload.length, endStream, d))
    else
      finishWithError streamID Http2Error.internalError "failed to write to socket"
      pure none

/-- The outer loop of `internalSendDATA`: whether END_STREAM has been sent, the number of
octets written, and the device; `none` where a frame cannot be written. -/
def sendFrames (streamID : ℕ) (endStreamAfterDATA : Bool) (requestSize maxFrameSize : ℤ)
    (turns : ℕ) (remainingWindowSize : ℤ) (sentEND_STREAM : Bool) (totalBytesWritten : ℕ) (d : D) :
    Operation D (Option (Bool × ℕ × D)) :=
  if remainingWindowSize = 0 then pure (some (sentEND_STREAM, totalBytesWritten, d))
  else
    let (canRead, d) := deviceCanRead env requestSize d
    if !canRead then pure (some (sentEND_STREAM, totalBytesWritten, d))
    else
      match turns with
      | 0 => fail .hang
      | turns + 1 => do
        let sent ← sendFrame env streamID endStreamAfterDATA requestSize maxFrameSize
          remainingWindowSize d
        match sent with
        | none => pure none
        | some (remainingWindowSize, bytesWritten, endStream, d) =>
          sendFrames streamID endStreamAfterDATA requestSize maxFrameSize turns
            remainingWindowSize (sentEND_STREAM || endStream) (totalBytesWritten + bytesWritten) d

/-- What `internalSendDATA` does behind its loops. -/
def endSendDATA (streamID : ℕ) (endStreamAfterDATA : Bool) (requestSize : ℤ)
    (sentEND_STREAM : Bool) (totalBytesWritten : ℕ) (d : D) : Operation D Unit := do
  emit (.stream streamID (.bytesWritten totalBytesWritten))
  let (finished, d) :=
    if sentEND_STREAM then (true, d)
    else
      let (canRead, d) := deviceCanRead env requestSize d
      (!canRead && env.device.atEnd d, d)
  modifyStream streamID fun st => { st with uploadByteDevice := some d }
  if finished then
    when (!sentEND_STREAM && endStreamAfterDATA) do
      let _ ← write env ⟨.data, FrameFlag.endStream, streamID, []⟩
    finishSendDATA streamID
  else
    let s ← current
    match s.getStream streamID with
    | none => pure ()
    | some st =>
      if s.isUploadBlocked st then
        emit (.stream streamID .uploadBlocked)
        change fun s => { s with blockedStreams := s.blockedStreams.insert streamID }
      else pure ()

def internalSendDATA (streamID : ℕ) : Operation D Unit := do
  let s ← current
  match s.getStream streamID with
  | none => pure ()
  | some st =>
    match st.uploadByteDevice with
    | none => fail .nullDevice
    | some d =>
      let requestSize : ℤ := s.maxFrameSize * 10
      let sent ← sendFrames env streamID st.endStreamAfterDATA requestSize s.maxFrameSize env.fuel
        (min s.sessionSendWindowSize st.sendWindow) false 0 d
      match sent with
      | none => pure ()
      | some (sentEND_STREAM, totalBytesWritten, d) =>
        endSendDATA env streamID st.endStreamAfterDATA requestSize sentEND_STREAM
          totalBytesWritten d

def maybeResumeUpload (streamID : ℕ) : Operation D Unit := do
  let s ← current
  match s.getStream streamID with
  | none => pure ()
  | some st =>
    if st.isUploadingDATA && !s.isUploadBlocked st then internalSendDATA env streamID
    else change fun s => { s with blockedStreams := s.blockedStreams.insert streamID }

/-- `sendDATA` of an upload device. -/
def sendDATA (streamID : ℕ) (device : D) (endStream : Bool) : Operation D Bool := do
  let s ← current
  match s.getStream streamID with
  | none => pure false
  | some st =>
    if st.state ≠ .opened ∧ st.state ≠ .halfClosedRemote then pure false
    else
      modifyStream streamID fun st =>
        { st with uploadByteDevice := some device, endStreamAfterDATA := endStream }
      internalSendDATA env streamID
      pure true

/-! ### Sending headers -/

/-- `header_size`: the size of a list of header fields, if it can be represented. -/
def headerSize : HPack.HttpHeader → Option ℕ
  | header => header.foldl (fun size field => do
      let size ← size
      let delta ← HPack.entrySize field.name field.value
      if 2 ^ 32 - 1 - size < delta then none else some (size + delta)) (some 0)

/-- A pending table size update, written in front of the next field block. -/
def writeTableSizeUpdate (update : Option ℕ) (e : HPack.Encoder) (o : HPack.BitOStream) :
    HPack.Encoder × HPack.BitOStream :=
  match update with
  | none => (e, o)
  | some size => ((e.setMaxDynamicTableSize size).encodeSizeUpdate o size).2

/-- The table size updates that are pending; they are ordered, so the second is written
only behind the first. -/
def writeTableSizeUpdates (updates : Option ℕ × Option ℕ) (e : HPack.Encoder)
    (o : HPack.BitOStream) : HPack.Encoder × HPack.BitOStream :=
  let (e', o') := writeTableSizeUpdate updates.1 e o
  if updates.1.isSome then writeTableSizeUpdate updates.2 e' o' else (e', o')

def sendHEADERS (streamID : ℕ) (headers : HPack.HttpHeader) (endStream : Bool)
    (priority : UInt8) : Operation D Bool := do
  let s ← current
  match headerSize headers with
  | none => pure false
  | some size =>
    if size > s.maxHeaderListSize then pure false
    else
      transitionState streamID .opening
      let s ← current
      let flags := FrameFlag.priority ||| FrameFlag.endHeaders |||
        if endStream then FrameFlag.endStream else 0
      let (encoder, outputStream) := writeTableSizeUpdates s.pendingTableSizeUpdates s.encoder
        (.new (toBigEndian 0 ++ [priority]))
      let (encoded, encoder, outputStream) :=
        match s.connectionType with
        | .client => encoder.encodeRequest env.huffman outputStream headers
        | .server => encoder.encodeResponse env.huffman outputStream headers
      change fun s => { s with
        encoder := encoder
        pendingTableSizeUpdates :=
          if s.pendingTableSizeUpdates.1.isSome then (none, none) else s.pendingTableSizeUpdates }
      if !encoded then pure false
      else
        let frame : OutboundFrame := ⟨.headers, flags, streamID, outputStream.buffer⟩
        let result ← writeAll env (frame.headersFrames s.maxFrameSize)
        when endStream (transitionState streamID .closeLocal)
        pure result

/-! ### Frames for a stream -/

/-- The 32 bits at an offset of the data of a frame, in network order. -/
def readUInt32 (f : Frame) (offset : ℕ) : Operation D ℕ :=
  match f.dataBegin with
  | none => fail .outOfBounds
  | some start =>
    if start + offset + 4 ≤ f.buffer.length then pure (fromBigEndian f.buffer (start + offset))
    else fail .outOfBounds

/-- The data of a frame, from an offset on. -/
def readData (f : Frame) (size : ℕ) : Operation D Octets :=
  if size = 0 then pure []
  else
    match f.dataBegin with
    | none => fail .outOfBounds
    | some start =>
      if start + size ≤ f.buffer.length then pure ((f.buffer.drop start).take size)
      else fail .outOfBounds

/-- `handleDATA`, as far as the octets are handed on. -/
def deliverDATA (streamID : ℕ) (f : Frame) (endStream : Bool) : Operation D Unit := do
  let fragment ← readData f f.dataSize
  when endStream (transitionState streamID .closeRemote)
  modifyStream streamID fun st =>
    if st.useDownloadBuffer && !fragment.isEmpty then
      { st with downloadBuffer := st.downloadBuffer ++ [fragment] }
    else st
  emit (.stream streamID (.dataReceived fragment endStream))

/-- `QHttp2Stream::handleDATA`. -/
def streamHandleDATA (streamID : ℕ) (f : Frame) : Operation D Unit := do
  let s ← current
  match s.getStream streamID with
  | none => pure ()
  | some st =>
    if (f.payloadSize : ℤ) > st.recvWindow then
      streamError env streamID Http2Error.flowControlError "data bigger than window size"
    else
      modifyStream streamID fun st => { st with recvWindow := st.recvWindow - f.payloadSize }
      let endStream := testFlag f.flags FrameFlag.endStream
      let recvWindow := st.recvWindow - f.payloadSize
      when ((f.dataSize > 0 ∨ endStream) ∧ !s.streamIsIgnored streamID)
        (deliverDATA streamID f endStream)
      if !endStream ∧ recvWindow < s.streamInitialReceiveWindowSize / 2 then
        sendWINDOW_UPDATE env streamID (toUInt32 (s.streamInitialReceiveWindowSize - recvWindow))
      else pure ()

/-- `QHttp2Stream::handleHEADERS`. -/
def streamHandleHEADERS (streamID flags : ℕ) (headers : HPack.HttpHeader) : Operation D Unit := do
  let s ← current
  match s.getStream streamID with
  | none => pure ()
  | some st =>
    when (st.state = .idle) (transitionState streamID .opening)
    let endStream := testFlag flags FrameFlag.endStream
    when endStream (transitionState streamID .closeRemote)
    when (headers ≠ []) do
      modifyStream streamID fun st => { st with headers := st.headers ++ headers }
      emit (.stream streamID .headersUpdated)
    emit (.stream streamID (.headersReceived headers endStream))

/-- `QHttp2Stream::handleRST_STREAM`. -/
def streamHandleRST_STREAM (streamID : ℕ) (f : Frame) : Operation D Unit := do
  let s ← current
  match s.getStream streamID with
  | none => pure ()
  | some st =>
    if st.state = .closed then pure ()
    else
      transitionState streamID .rst
      let error ← readUInt32 f 0
      modifyStream streamID fun st =>
        { st with rstStreamReceived := some error, uploadByteDevice := none }
      finishWithError streamID error (qtErrorString error)

/-- `qAddOverflow` of two `qint32`. -/
def addOverflow (x y : ℤ) : Option ℤ :=
  if -2 ^ 31 ≤ x + y ∧ x + y < 2 ^ 31 then some (x + y) else none

/-- Whether an increment of a window is in range. -/
def validDelta (delta : ℕ) : Bool :=
  delta ≠ 0 && delta ≤ 2 ^ 31 - 1

/-- `QHttp2Stream::handleWINDOW_UPDATE`. -/
def streamHandleWINDOW_UPDATE (streamID : ℕ) (f : Frame) : Operation D Unit := do
  let delta ← readUInt32 f 0
  let s ← current
  match s.getStream streamID with
  | none => pure ()
  | some st =>
    match if validDelta delta then addOverflow st.sendWindow delta else none with
    | none =>
      streamError env streamID Http2Error.protocolError "invalid WINDOW_UPDATE delta"
    | some sum =>
      modifyStream streamID fun st => { st with sendWindow := sum }
      if st.isUploadingDATA then maybeResumeUpload env streamID else pure ()

end Http2
