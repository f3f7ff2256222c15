import BobUI.Network.Http2.Stream

/-!
# The connection

The functions of `QHttp2Connection`: the creation of streams, the preface, the shutdown, and
the handlers of the frames.
-/

namespace Http2

open Proc

variable {D : Type} (env : Env D)

/-! ### Errors and shutdown -/

def sendGOAWAYFrame (errorCode lastStreamID : ℕ) : Operation D Bool := do
  let s ← current
  if !s.socketOpen then pure false
  else
    write env ⟨.goaway, FrameFlag.empty, connectionStreamID,
      toBigEndian lastStreamID ++ toBigEndian errorCode⟩

/-- The loop over the active streams that ends them with an error. -/
def finishActiveStreams (streamIDs : List ℕ) (errorCode : ℕ) (message : String) :
    Operation D Unit :=
  forEach (fun streamID => do
    let s ← current
    if (s.getStream streamID).any (·.isActive) then finishWithError streamID errorCode message
    else pure ()) streamIDs

def connectionError (errorCode : ℕ) (message : String) : Operation D Unit := do
  let s ← current
  if s.connectionAborted then pure ()
  else
    let lastStreamToProcess := min s.lastIncomingStreamID s.lastStreamToProcess
    change fun s => { s with
      connectionAborted := true
      goingAway := true
      lastStreamToProcess := lastStreamToProcess }
    let _ ← sendGOAWAYFrame env errorCode lastStreamToProcess
    finishActiveStreams s.streamIDs errorCode message
    closeSession

/-- `sendPing`, with the data of the frame. -/
def sendPing (data : Octets) : Operation D Bool := do
  let s ← current
  if s.lastPingSignature.isSome then pure false
  else
    change fun s => { s with lastPingSignature := some data }
    let _ ← write env ⟨.ping, FrameFlag.empty, connectionStreamID, data⟩
    pure true

def sendClientGracefulShutdownGoaway : Operation D Unit := do
  let s ← current
  if s.connectionAborted || s.goingAway then pure ()
  else
    change fun s => { s with
      goingAway := true
      gracefulShutdownState := .finalGOAWAYSent
      lastStreamToProcess := s.lastIncomingStreamID }
    let _ ← sendGOAWAYFrame env Http2Error.http2NoError s.lastIncomingStreamID
    maybeCloseOnGoingAway

def sendInitialServerGracefulShutdownGoaway : Operation D Unit := do
  let s ← current
  if s.connectionAborted || s.goingAway then pure ()
  else
    change fun s => { s with goingAway := true, goawayGraceTimerExpired := false }
    let _ ← sendGOAWAYFrame env Http2Error.http2NoError lastValidStreamID
    let sent ← sendPing env env.pingData
    change fun s => { s with
      gracefulShutdownState := if sent then .awaitingShutdownPing else .awaitingPriorPing }

def sendFinalServerGracefulShutdownGoaway : Operation D Unit := do
  let s ← current
  if s.connectionAborted || !s.goingAway then pure ()
  else
    change fun s => { s with
      gracefulShutdownState := .finalGOAWAYSent
      lastStreamToProcess := s.lastIncomingStreamID }
    let _ ← sendGOAWAYFrame env Http2Error.http2NoError s.lastIncomingStreamID
    maybeCloseOnGoingAway

def close (errorCode : ℕ) : Operation D Unit := do
  let s ← current
  if s.connectionAborted then pure ()
  else if errorCode = Http2Error.http2NoError then
    match s.connectionType with
    | .server => sendInitialServerGracefulShutdownGoaway env
    | .client => sendClientGracefulShutdownGoaway env
  else connectionError env errorCode "Connection closed with error"

def handleConnectionClosure : Operation D Unit := do
  let s ← current
  finishActiveStreams s.streamIDs Http2Error.protocolError "Connection closed"

/-! ### The preface -/

/-- An identifier and a value of a SETTINGS frame. -/
def settingOctets (identifier : Settings) (value : ℕ) : Octets :=
  [UInt8.ofNat (identifier.toNat / 2 ^ 8), UInt8.ofNat identifier.toNat] ++ toBigEndian value

def configurationToSettingsFrame (config : QHttp2Configuration) : OutboundFrame :=
  ⟨.settings, FrameFlag.empty, connectionStreamID,
    settingOctets .enablePushId config.serverPushEnabled.toNat ++
    (if (config.streamReceiveWindowSize : ℤ) ≠ defaultSessionWindowSize then
      settingOctets .initialWindowSizeId config.streamReceiveWindowSize else []) ++
    if config.maxFrameSize ≠ minPayloadLimit then
      settingOctets .maxFrameSizeId config.maxFrameSize else []⟩

/-- The session window of the configuration replaces the default one; the peer is told by
how much. -/
def announceSessionWindow : Operation D Bool := do
  let s ← current
  change fun s => { s with sessionReceiveWindowSize := s.maxSessionReceiveWindowSize }
  let delta := s.maxSessionReceiveWindowSize - defaultSessionWindowSize
  if delta ≠ 0 then sendWindowUpdateFrame env connectionStreamID (toUInt32 delta)
  else pure true

def sendSETTINGS : Operation D Bool := do
  let s ← current
  let ok ← write env (configurationToSettingsFrame s.config)
  if !ok then pure false
  else
    let ok ← announceSessionWindow env
    if !ok then pure false
    else
      change fun s => { s with waitingForSettingsACK := true }
      pure true

/-- The write of the octets of the client preface. -/
def writePreface : Operation D Bool := do
  let s ← current
  let ok := s.socketOpen && env.writeOk s.writes
  change fun s => { s with writes := s.writes + 1, trace := s.trace ++ [.wrotePreface ok] }
  pure ok

def sendClientPreface : Operation D Bool := do
  let ok ← writePreface env
  if !ok then pure false
  else
    let ok ← sendSETTINGS env
    if !ok then pure false
    else
      change fun s => { s with prefaceSent := true }
      pure true

def sendServerPreface : Operation D Bool := do
  let ok ← sendSETTINGS env
  if !ok then pure false
  else
    change fun s => { s with prefaceSent := true }
    pure true

/-- `serverCheckClientPreface`, once 24 octets have arrived. -/
def serverCheckClientPreface (preface : Octets) : Operation D Bool := do
  let s ← current
  if !s.waitingForClientPreface then pure true
  else if preface ≠ http2clientPreface then
    change fun s => { s with socketOpen := false }
    emit (.errorOccurred Http2Error.protocolError "invalid client preface")
    pure false
  else
    change fun s => { s with waitingForClientPreface := false }
    let ok ← sendServerPreface env
    if !ok then
      connectionError env Http2Error.internalError "Failed to send server preface"
      pure false
    else pure true

/-! ### The creation of streams -/

/-- A stream as it enters the table. -/
def Stream.new (s : Connection D) (useDownloadBuffer : Bool) : Stream D where
  recvWindow := s.streamInitialReceiveWindowSize
  sendWindow := s.streamInitialSendWindowSize
  endStreamAfterDATA := false
  rstStreamReceived := none
  rstStreamSent := none
  uploadByteDevice := none
  downloadBuffer := []
  state := .idle
  headers := []
  useDownloadBuffer := useDownloadBuffer

/-- A client sends its preface before its first stream. -/
def ensureClientPreface : Operation D Bool := do
  let s ← current
  if s.connectionType = .client ∧ !s.prefaceSent then sendClientPreface env else pure true

/-- `createStreamInternal_impl`: whether there is a new stream. -/
def createStreamInternal_impl (streamID : ℕ) (useDownloadBuffer : Bool) : Operation D Bool := do
  let ready ← ensureClientPreface env
  if !ready then pure false
  else
    let s ← current
    if streamID ∈ s.streams then pure false
    else
      change fun s => s.putStream streamID (.new s useDownloadBuffer)
      pure true

def createLocalStreamInternal (useDownloadBuffer : Bool) :
    Operation D (Except CreateStreamError ℕ) := do
  let s ← current
  if s.goingAway then pure (.error .receivedGOAWAY)
  else if s.peerMaxConcurrentStreams ≤ s.numActiveStreams s.localMask then
    pure (.error .maxConcurrentStreamsReached)
  else
    let created ← createStreamInternal_impl env s.nextStreamID useDownloadBuffer
    if created then
      change fun s => { s with nextStreamID := s.nextStreamID + 2 }
      pure (.ok s.nextStreamID)
    else pure (.error .unknownError)

def createStream (useDownloadBuffer : Bool) : Operation D (Except CreateStreamError ℕ) := do
  let s ← current
  if s.nextStreamID > lastValidStreamID then pure (.error .streamIdsExhausted)
  else createLocalStreamInternal env useDownloadBuffer

/-- `delete` of a stream, with `~QHttp2Stream`. -/
def deleteStream (streamID : ℕ) : Operation D Unit := do
  let s ← current
  match s.getStream streamID with
  | none => pure ()
  | some st =>
    when (st.state ≠ .idle ∧ st.state ≠ .closed) do
      let _ ← sendRST_STREAM env streamID
        (if st.isUploadingDATA then Http2Error.cancel else Http2Error.http2NoError)
    change fun s => { s with streams := s.streams.erase streamID }

/-! ### DATA -/

/-- The debit of the session window, and what comes of the frame. -/
def receiveDATA (stream : Option ℕ) (f : Frame) : Operation D Unit := do
  change fun s => { s with sessionReceiveWindowSize := s.sessionReceiveWindowSize - f.payloadSize }
  match stream with
  | none => pure ()
  | some streamID => streamHandleDATA env streamID f

/-- The end of a stream, and the end of an ignored stream. -/
def receiveEND_STREAM (stream : Option ℕ) (f : Frame) : Operation D Unit := do
  let s ← current
  if testFlag f.flags FrameFlag.endStream then
    match stream.filter s.streamIsIgnored with
    | none => emit (.receivedEND_STREAM f.streamID)
    | some streamID =>
      setState streamID .closed
      deleteStream env streamID
  else pure ()

/-- The queued update of the session window. -/
def replenishSessionWindow : Operation D Unit := do
  let s ← current
  if s.sessionReceiveWindowSize < s.maxSessionReceiveWindowSize / 2 then
    invokeQueued (.sendWINDOW_UPDATE connectionStreamID
      (toUInt32 (s.maxSessionReceiveWindowSize - s.sessionReceiveWindowSize)))
    change fun s => { s with sessionReceiveWindowSize := s.maxSessionReceiveWindowSize }
  else pure ()

/-- `handleDATA` behind the checks of the stream. -/
def acceptDATA (stream : Option ℕ) (f : Frame) : Operation D Unit := do
  let s ← current
  if (f.payloadSize : ℤ) > s.sessionReceiveWindowSize then
    connectionError env Http2Error.flowControlError "Flow control error"
  else
    receiveDATA env stream f
    receiveEND_STREAM env stream f
    replenishSessionWindow

def handleDATA (f : Frame) : Operation D Unit := do
  let s ← current
  if f.streamID = connectionStreamID then
    connectionError env Http2Error.protocolError "DATA on the connection stream"
  else if s.isInvalidStream f.streamID then
    connectionError env Http2Error.enhanceYourCalm "DATA on invalid stream"
  else if s.streamWasResetLocally f.streamID then acceptDATA env none f
  else
    match s.getStream f.streamID with
    | none => fail .nullStream
    | some st =>
      if st.state = .halfClosedRemote ∨ st.state = .closed then
        streamError env f.streamID Http2Error.streamClosed "Data on closed stream"
      else acceptDATA env (some f.streamID) f

/-! ### HEADERS, PUSH_PROMISE and CONTINUATION -/

/-- The member of a list of header fields that is a pseudo-header field; `none` where there
is none, it is empty, or there are more. -/
def pseudoHeader (header : HPack.HttpHeader) (name : Octets) : Option Octets :=
  match header.filter (·.name = name) with
  | [field] => if field.value = [] then none else some field.value
  | _ => none

/-- `HPack::makePromiseKeyUrl`. -/
def makePromiseKeyUrl (header : HPack.HttpHeader) : Option Octets := do
  let authority ← pseudoHeader header (octets ":authority")
  let method ← pseudoHeader header (octets ":method")
  let path ← pseudoHeader header (octets ":path")
  let scheme ← pseudoHeader header (octets ":scheme")
  let method := method.map fun c => if 0x41 ≤ c ∧ c ≤ 0x5a then c + 0x20 else c
  if method ≠ octets "get" ∧ method ≠ octets "head" then none
  else env.url scheme authority path

/-- What a complete field block does to the stream it belongs to. -/
def deliverHeaders (first : Frame) : Operation D Unit := do
  let s ← current
  let streamID := first.streamID
  if s.streamWasResetLocally streamID ∨ streamID ∉ s.streams then pure ()
  else if s.streamIsIgnored streamID then
    if testFlag first.flags FrameFlag.endStream && (s.getStream streamID).isSome then
      setState streamID .closed
      deleteStream env streamID
    else pure ()
  else
    match first.type with
    | .headers =>
      match s.getStream streamID with
      | none => fail .nullStream
      | some _ => streamHandleHEADERS streamID first.flags s.decoder.header
    | .pushPromise =>
      match makePromiseKeyUrl env s.decoder.header with
      | none => pure ()
      | some promiseKey =>
        if (s.promisedStreams.lookup promiseKey).isSome then pure ()
        else
          let promiseID ← readUInt32 first 0
          match s.getStream promiseID with
          | none => fail .nullStream
          | some _ =>
            transitionState promiseID .closeLocal
            streamHandleHEADERS promiseID first.flags s.decoder.header
            emit (.newPromisedStream promiseID)
            change fun s => { s with promisedStreams := (promiseKey, promiseID) :: s.promisedStreams }
    | _ => pure ()

/-- A complete field block goes to the decoder. -/
def decodeBlock (first : Frame) (block : Octets) : Operation D Unit := do
  change fun s => { s with trace := s.trace ++ [.decoded block] }
  let s ← current
  match s.decoder.decodeHeaderFields env.huffman (.new block) with
  | none => fail .hang
  | some (decoded, decoder, _) =>
    change fun s => { s with decoder := decoder }
    if decoded then deliverHeaders env first
    else connectionError env Http2Error.compressionError "HPACK decompression failed"

/-- A complete field block without octets. -/
def emptyBlock (first : Frame) : Operation D Unit := do
  let s ← current
  if first.type = .pushPromise then
    match s.streams.lookup first.streamID with
    | none => pure ()
    | some none => fail .nullStream
    | some (some _) =>
      streamError env first.streamID Http2Error.protocolError "PUSH_PROMISE with incomplete headers"
  else deliverHeaders env first

/-- Whether `handleContinuedHEADERS` takes HEADERS in a state. -/
def StreamState.takesHeaders : StreamState → Bool
  | .halfClosedLocal | .reservedRemote | .idle | .opened => true
  | .halfClosedRemote | .closed => false

/-- `handleContinuedHEADERS` behind the check of the stream. -/
def processBlock (first : Frame) : Operation D Unit := do
  let s ← current
  match assembleHpackBlock s.continuedFrames with
  | none => fail .outOfBounds
  | some [] => emptyBlock env first
  | some block => decodeBlock env first block

def handleContinuedHEADERS : Operation D Unit := do
  let s ← current
  match s.continuedFrames with
  | [] => pure ()
  | first :: _ =>
    if first.type = .headers ∧ first.streamID ∈ s.streams ∧
        !s.streamWasResetLocally first.streamID then
      match s.getStream first.streamID with
      | none => fail .nullStream
      | some st =>
        if !st.state.takesHeaders then
          streamError env first.streamID Http2Error.protocolError "HEADERS on invalid stream"
        else processBlock env first
    else processBlock env first

/-- The first frame of a field block. -/
def beginBlock (f : Frame) : Operation D Unit := do
  change fun s => { s with continuedFrames := [f] }
  if testFlag f.flags FrameFlag.endHeaders then handleContinuedHEADERS env
  else change fun s => { s with continuationExpected := true }

def handlePRIORITY (f : Frame) : Operation D Unit := do
  let s ← current
  if s.streamIsIgnored f.streamID then pure ()
  else if f.streamID = connectionStreamID then
    connectionError env Http2Error.protocolError "PRIORITY on 0x0 stream"
  else if s.isInvalidStream f.streamID then
    connectionError env Http2Error.enhanceYourCalm "PRIORITY on invalid stream"
  else pure ()

/-- `handleHEADERS` behind the checks of the stream. -/
def acceptHEADERS (f : Frame) : Operation D Unit := do
  when (testFlag f.flags FrameFlag.priority) (handlePRIORITY env f)
  beginBlock env f

/-- A new stream of the peer. -/
def newIncomingStream (f : Frame) : Operation D Unit := do
  let s ← current
  let streamCountIsOk := s.maxConcurrentStreams > s.numActiveStreams s.remoteMask
  let created ← createStreamInternal_impl env f.streamID true
  if !created then fail .nullStream
  else
    change fun s => { s with lastIncomingStreamID := f.streamID }
    if !streamCountIsOk then
      setState f.streamID .opened
      streamError env f.streamID Http2Error.protocolError "Max concurrent streams reached"
      emit (.incomingStreamErrorOccured .maxConcurrentStreamsReached)
    else if !s.streamIsIgnored f.streamID then
      emit (.newIncomingStream f.streamID)
      acceptHEADERS env f
    else if s.goawayGraceTimerExpired then
      connectionError env Http2Error.protocolError "Peer refused to GOAWAY."
    else acceptHEADERS env f

def handleHEADERS (f : Frame) : Operation D Unit := do
  let s ← current
  let streamID := f.streamID
  if streamID = connectionStreamID then
    connectionError env Http2Error.protocolError "HEADERS on 0x0 stream"
  else if streamID % 2 = s.remoteMask ∧ streamID > s.lastIncomingStreamID then
    newIncomingStream env f
  else if s.streamWasResetLocally streamID then acceptHEADERS env f
  else if streamID ∉ s.streams then
    connectionError env Http2Error.protocolError "HEADERS on invalid stream"
  else if s.isInvalidStream streamID then
    connectionError env Http2Error.enhanceYourCalm "HEADERS on invalid stream"
  else acceptHEADERS env f

/-- The stream that a PUSH_PROMISE frame reserves. -/
def reserveStream (f : Frame) : Operation D Unit := do
  let reservedID ← readUInt32 f 0
  let s ← current
  if reservedID % 2 = 1 ∨ reservedID ≤ s.lastIncomingStreamID ∨ reservedID > lastValidStreamID then
    connectionError env Http2Error.protocolError "PUSH_PROMISE with invalid promised stream ID"
  else
    let streamCountIsOk := s.maxConcurrentStreams > s.numActiveStreams s.remoteMask
    let created ← createStreamInternal_impl env reservedID true
    if !created then
      connectionError env Http2Error.protocolError "PUSH_PROMISE with already active stream ID"
    else
      change fun s => { s with lastIncomingStreamID := reservedID }
      setState reservedID .reservedRemote
      if !streamCountIsOk then
        streamError env reservedID Http2Error.protocolError "Max concurrent streams reached"
        emit (.incomingStreamErrorOccured .maxConcurrentStreamsReached)
      else if !s.pushPromiseEnabled then
        streamError env reservedID Http2Error.refuseStream "PUSH_PROMISE not enabled but ignored"
      else beginBlock env f

def handlePUSH_PROMISE (f : Frame) : Operation D Unit := do
  let s ← current
  let streamID := f.streamID
  if !s.pushPromiseEnabled && !s.waitingForSettingsACK then
    connectionError env Http2Error.protocolError "unexpected PUSH_PROMISE frame"
  else if streamID = connectionStreamID then
    connectionError env Http2Error.protocolError
      "PUSH_PROMISE with invalid associated stream (0x0)"
  else
    match s.streams.lookup streamID with
    | none =>
      connectionError env Http2Error.enhanceYourCalm "PUSH_PROMISE with invalid associated stream"
    | some associated =>
      if streamID % 2 = s.remoteMask then
        connectionError env Http2Error.enhanceYourCalm
          "PUSH_PROMISE with invalid associated stream"
      else
        match associated with
        | none => fail .nullStream
        | some st =>
          if st.state ≠ .opened ∧ st.state ≠ .halfClosedLocal then
            connectionError env Http2Error.enhanceYourCalm
              "PUSH_PROMISE with invalid associated stream"
          else reserveStream env f

def handleCONTINUATION (f : Frame) : Operation D Unit := do
  let s ← current
  match s.continuedFrames with
  | [] =>
    connectionError env Http2Error.protocolError
      "CONTINUATION without a preceding HEADERS or PUSH_PROMISE"
  | first :: _ =>
    if !s.continuationExpected then
      connectionError env Http2Error.protocolError
        "CONTINUATION after a frame with the END_HEADERS flag set"
    else if f.streamID ≠ first.streamID then
      connectionError env Http2Error.protocolError "CONTINUATION on invalid stream"
    else
      change fun s => { s with continuedFrames := s.continuedFrames ++ [f] }
      if testFlag f.flags FrameFlag.endHeaders then
        change fun s => { s with continuationExpected := false }
        handleContinuedHEADERS env
      else pure ()

/-! ### RST_STREAM -/

/-- `m_streams[streamID]`: an entry without a stream is made where there is none. -/
def lookupOrInsert (streamID : ℕ) : Operation D Unit :=
  change fun s =>
    if streamID ∈ s.streams then s else { s with streams := s.streams.insert streamID none }

def handleRST_STREAM (f : Frame) : Operation D Unit := do
  let s ← current
  let streamID := f.streamID
  if s.streamIsIgnored streamID then pure ()
  else if streamID = connectionStreamID then
    connectionError env Http2Error.protocolError "RST_STREAM on 0x0"
  else
    let error ← readUInt32 f 0
    lookupOrInsert streamID
    when (s.getStream streamID).isSome (emit (.stream streamID (.rstFrameReceived error)))
    let lastRelevantStreamID :=
      if streamID % 2 = s.remoteMask then s.lastIncomingStreamID
      else toUInt32 ((s.nextStreamID : ℤ) - 2)
    if streamID > lastRelevantStreamID then
      connectionError env Http2Error.protocolError "RST_STREAM on idle stream"
    else streamHandleRST_STREAM streamID f

/-! ### SETTINGS -/

/-- The identifiers of settings by number. -/
def Settings.ofIdentifier : ℕ → Option Settings
  | 0x1 => some .headerTableSizeId
  | 0x2 => some .enablePushId
  | 0x3 => some .maxConcurrentStreamsId
  | 0x4 => some .initialWindowSizeId
  | 0x5 => some .maxFrameSizeId
  | 0x6 => some .maxHeaderListSizeId
  | _ => none

/-- The table size updates that are pending once the peer has set a size. -/
def pendTableSizeUpdate (newValue : ℕ) (s : Connection D) : Connection D :=
  if s.pendingTableSizeUpdates.1.isNone ∧ s.encoder.lookupTable.tableCapacity = newValue then s
  else if s.pendingTableSizeUpdates.1.getD (2 ^ 32 - 1) ≥ newValue then
    { s with pendingTableSizeUpdates := (some newValue, none) }
  else { s with pendingTableSizeUpdates := (s.pendingTableSizeUpdates.1, some newValue) }

/-- The change of the send window of one stream by a new initial window size. -/
def adjustSendWindow (delta : ℤ) (streamID : ℕ) : Operation D Unit := do
  let s ← current
  match s.getStream streamID with
  | none => pure ()
  | some st =>
    match addOverflow st.sendWindow delta with
    | none => streamError env streamID Http2Error.protocolError "SETTINGS window overflow"
    | some sum =>
      modifyStream streamID fun st => { st with sendWindow := sum }
      if delta > 0 ∧ st.isUploadingDATA ∧ !s.isUploadBlocked { st with sendWindow := sum } then
        invokeQueued (.maybeResumeUpload streamID)
      else pure ()

/-- `acceptSetting`: whether the setting has been accepted. -/
def acceptSetting (identifier : Option Settings) (newValue : ℕ) : Operation D Bool := do
  let s ← current
  match identifier with
  | some .headerTableSizeId =>
    if newValue > 16 * 4096 then
      connectionError env Http2Error.protocolError "SETTINGS invalid table size"
      pure false
    else
      change (pendTableSizeUpdate newValue)
      pure true
  | some .initialWindowSizeId =>
    if newValue > 2 ^ 31 - 1 then
      connectionError env Http2Error.flowControlError "SETTINGS invalid initial window size"
      pure false
    else
      let delta := newValue - s.streamInitialSendWindowSize
      change fun s => { s with streamInitialSendWindowSize := newValue }
      forEach (adjustSendWindow env delta) s.streamIDs
      pure true
  | some .maxConcurrentStreamsId =>
    change fun s => { s with peerMaxConcurrentStreams := newValue }
    pure true
  | some .maxFrameSizeId =>
    if newValue < minPayloadLimit ∨ newValue > maxPayloadSize then
      connectionError env Http2Error.protocolError "SETTINGS max frame size is out of range"
      pure false
    else
      change fun s => { s with maxFrameSize := newValue }
      pure true
  | some .maxHeaderListSizeId =>
    change fun s => { s with maxHeaderListSize := newValue }
    pure true
  | some .enablePushId =>
    if newValue ≠ 0 ∧ newValue ≠ 1 then
      connectionError env Http2Error.protocolError "SETTINGS peer sent illegal value for ENABLE_PUSH"
      pure false
    else
      match s.connectionType with
      | .client =>
        if newValue = 1 then
          connectionError env Http2Error.protocolError "SETTINGS server sent ENABLE_PUSH=1"
          pure false
        else pure true
      | .server =>
        change fun s => { s with pushPromiseEnabled := newValue = 1 }
        pure true
  | none => pure true

/-- The loop of `handleSETTINGS` over `count` settings from a position of the frame on. -/
def acceptSettings (f : Frame) (start : ℕ) : (count : ℕ) → Operation D Bool
  | 0 => pure true
  | count + 1 => do
    let identifier := (f.buffer[start]!).toNat * 2 ^ 8 + (f.buffer[start + 1]!).toNat
    let accepted ← acceptSetting env (Settings.ofIdentifier identifier)
      (fromBigEndian f.buffer (start + 2))
    if !accepted then pure false else acceptSettings f (start + 6) count

/-- The settings of a frame. -/
def readSettings (f : Frame) : Operation D Bool :=
  if f.dataSize = 0 then pure true
  else
    match f.dataBegin with
    | none => fail .outOfBounds
    | some start =>
      -- The loop ends where its pointer meets the end of the data.
      if f.dataSize % 6 = 0 ∧ start + f.dataSize ≤ f.buffer.length then
        acceptSettings env f start (f.dataSize / 6)
      else fail .outOfBounds

def handleSETTINGS (f : Frame) : Operation D Unit := do
  let s ← current
  if f.streamID ≠ connectionStreamID then
    connectionError env Http2Error.protocolError "SETTINGS on invalid stream"
  else if testFlag f.flags FrameFlag.ack then
    if f.payloadSize ≠ 0 then
      connectionError env Http2Error.frameSizeError "SETTINGS ACK with data"
    else if !s.waitingForSettingsACK then
      connectionError env Http2Error.protocolError "unexpected SETTINGS ACK"
    else change fun s => { s with waitingForSettingsACK := false }
  else
    let accepted ← readSettings env f
    if !accepted then pure ()
    else
      let _ ← write env ⟨.settings, FrameFlag.ack, connectionStreamID, []⟩
      emit .settingsFrameReceived

/-! ### PING, GOAWAY and WINDOW_UPDATE -/

/-- The shutdown goes on once the answer to a PING has arrived. -/
def continueShutdown : Operation D Unit := do
  let s ← current
  match s.gracefulShutdownState with
  | .awaitingShutdownPing => sendFinalServerGracefulShutdownGoaway env
  | .awaitingPriorPing => do
    change fun s => { s with gracefulShutdownState := .awaitingShutdownPing }
    let _ ← sendPing env env.pingData
    pure ()
  | _ => pure ()

/-- The state of an answer to a PING; its data is read only where a PING has been sent. -/
def readPong (f : Frame) : Operation D PingState := do
  let s ← current
  match s.lastPingSignature with
  | none => pure .pongNoPingSent
  | some signature =>
    let pingSignature ← readData f 8
    pure (if pingSignature = signature then .pongSignatureIdentical else .pongSignatureChanged)

def handlePING (f : Frame) : Operation D Unit := do
  if f.streamID ≠ connectionStreamID then
    connectionError env Http2Error.protocolError "PING on invalid stream"
  else if testFlag f.flags FrameFlag.ack then
    let state ← readPong f
    emit (.pingFrameReceived state)
    change fun s => { s with lastPingSignature := none }
    continueShutdown env
  else
    emit (.pingFrameReceived .ping)
    let data ← readData f 8
    let _ ← write env ⟨.ping, FrameFlag.ack, connectionStreamID, data⟩
    pure ()

/-- The streams that the peer does not process, of those created here. -/
def cancelledStreams (s : Connection D) (lastStreamID : ℕ) : List ℕ :=
  let firstPossibleStream := match s.connectionType with
    | .client => 1
    | .server => 2
  let firstCancelledStream := if lastStreamID ≠ 0 then lastStreamID + 2 else firstPossibleStream
  List.range' firstCancelledStream ((s.nextStreamID - firstCancelledStream + 1) / 2) 2

def handleGOAWAY (f : Frame) : Operation D Unit := do
  let s ← current
  if f.streamID ≠ connectionStreamID then
    connectionError env Http2Error.protocolError "GOAWAY on invalid stream"
  else
    let lastStreamID ← readUInt32 f 0
    let lastStreamID := lastStreamID &&& lastValidStreamID
    let errorCode ← readUInt32 f 4
    if lastStreamID ≠ 0 ∧ lastStreamID % 2 ≠ s.localMask then
      connectionError env Http2Error.protocolError "GOAWAY with invalid last stream ID"
    else if s.lastGoAwayLastStreamID.any (· < lastStreamID) then
      connectionError env Http2Error.protocolError "Repeated GOAWAY with invalid last stream ID"
    else
      change fun s => { s with lastGoAwayLastStreamID := some lastStreamID, goingAway := true }
      emit (.receivedGOAWAY errorCode lastStreamID)
      if errorCode = Http2Error.http2NoError then
        finishActiveStreams (cancelledStreams s lastStreamID) errorCode "Received GOAWAY"
        maybeCloseOnGoingAway
      else
        change fun s => { s with connectionAborted := true }
        finishActiveStreams s.streamIDs errorCode "Received GOAWAY"
        closeSession

/-- A blocked stream after an update of the session window. -/
def resumeUnblocked (streamID : ℕ) : Operation D Unit := do
  let s ← current
  match s.getStream streamID with
  | none => pure ()
  | some st =>
    if st.isActive ∧ st.isUploadingDATA ∧ !s.isUploadBlocked st then
      invokeQueued (.maybeResumeUpload streamID)
    else pure ()

/-- An update of the session window. -/
def grantSession (delta : ℕ) : Operation D Unit := do
  let s ← current
  match if validDelta delta then addOverflow s.sessionSendWindowSize delta else none with
  | none => connectionError env Http2Error.protocolError "WINDOW_UPDATE invalid delta"
  | some sum =>
    change fun s => { s with sessionSendWindowSize := sum, blockedStreams := [] }
    forEach resumeUnblocked s.blockedStreams

def handleWINDOW_UPDATE (f : Frame) : Operation D Unit := do
  let delta ← readUInt32 f 0
  let s ← current
  let streamID := f.streamID
  if s.streamIsIgnored streamID then pure ()
  else if streamID = connectionStreamID then grantSession env delta
  else
    match s.getStream streamID with
    | none => pure ()
    | some st =>
      if !st.isActive then pure ()
      else if !validDelta delta then
        streamError env streamID Http2Error.protocolError "WINDOW_UPDATE invalid delta"
      else streamHandleWINDOW_UPDATE env streamID f

end Http2
