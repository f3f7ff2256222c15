import BobUI.Library.Proc
import BobUI.Network.Http2.Frames
import BobUI.Network.Hpack.Codec
import Mathlib.Data.List.AList

/-!
# The state of a connection

The members of `QHttp2Connection` and `QHttp2Stream`, what they see of their surroundings,
and what can be observed of them: the frames they write and are given, the field blocks that
go to the HPACK decoder, and the signals they emit.  Slots of the application that call back
while a signal is emitted are not part of the model.
-/

namespace Http2

/-- Where the program breaks off: a null stream or upload device is dereferenced, a state
that is marked as unreachable is reached, memory is read outside of a frame, a view of
negative length is made, or a loop does not end. -/
inductive Fault where
  | nullStream
  | nullDevice
  | unreachable
  | outOfBounds
  | negativeLength
  | hang
deriving DecidableEq, Repr

/-- Whether `readPointer` has offered octets. -/
def hasData : Option Octets × ℤ → Bool
  | (some _, len) => 0 < len
  | (none, _) => false

/-- An upload device with states `D`.  `readPointer` offers octets and their number, which
may exceed what is asked for; a device that is at its end, or that has no octets at hand, has
none at the next call either, until it signals that there are more. -/
structure QNonContiguousByteDevice (D : Type) where
  readPointer : (maximumLength : ℤ) → D → (Option Octets × ℤ) × D
  advanceReadPointer : (amount : ℕ) → D → D
  atEnd : D → Bool
  length_le : ∀ {n : ℤ} {d : D} {data : Octets} {len : ℤ}, 0 < n →
    (readPointer n d).1 = (some data, len) → 0 < len → len ≤ data.length
  atEnd_readPointer : ∀ {n : ℤ} {d : D}, atEnd d →
    hasData (readPointer n d).1 = false ∧ atEnd (readPointer n d).2
  readPointer_again : ∀ {n m : ℤ} {d : D}, 0 < n → 0 < m →
    hasData (readPointer n d).1 = false → hasData (readPointer m (readPointer n d).2).1 = false

/-- The surroundings of a connection: its upload devices, the Huffman code, the key that
`QUrl` makes of a scheme, an authority and a path, the random data of a PING, which writes
to an open socket succeed, and a bound on the turns of its loops. -/
structure Env (D : Type) where
  device : QNonContiguousByteDevice D
  huffman : HPack.Huffman
  url : (scheme authority path : Octets) → Option Octets
  pingData : Octets
  writeOk : ℕ → Bool
  fuel : ℕ

/-- `QHttp2Configuration`, as its setters let it be. -/
structure QHttp2Configuration where
  maxConcurrentStreams : ℕ
  sessionReceiveWindowSize : ℕ
  streamReceiveWindowSize : ℕ
  maxFrameSize : ℕ
  serverPushEnabled : Bool
  huffmanCompressionEnabled : Bool
  session_pos : 0 < sessionReceiveWindowSize
  session_le : sessionReceiveWindowSize ≤ 2 ^ 31 - 1
  stream_pos : 0 < streamReceiveWindowSize
  stream_le : streamReceiveWindowSize ≤ 2 ^ 31 - 1
  frame_le : maxFrameSize ≤ maxPayloadSize

/-- `QHttp2Stream::State`. -/
inductive StreamState where
  | idle
  | reservedRemote
  | opened
  | halfClosedLocal
  | halfClosedRemote
  | closed
deriving DecidableEq, Repr

/-- `QHttp2Stream::StateTransition`. -/
inductive StateTransition where
  | opening
  | closeLocal
  | closeRemote
  | rst
deriving DecidableEq, Repr

/-- A stream; its number is its key in the table of the connection. -/
structure Stream (D : Type) where
  recvWindow : ℤ
  sendWindow : ℤ
  endStreamAfterDATA : Bool
  rstStreamReceived : Option ℕ
  rstStreamSent : Option ℕ
  uploadByteDevice : Option D
  downloadBuffer : List Octets
  state : StreamState
  headers : HPack.HttpHeader
  useDownloadBuffer : Bool

namespace Stream

variable {D : Type}

def isUploadingDATA (st : Stream D) : Bool := st.uploadByteDevice.isSome

def isActive (st : Stream D) : Bool := st.state ≠ .closed && st.state ≠ .idle

def wasResetbyPeer (st : Stream D) : Bool := st.rstStreamReceived.isSome

end Stream

/-- `QHttp2Connection::Type`. -/
inductive ConnectionType where
  | client
  | server
deriving DecidableEq, Repr

/-- `QHttp2Connection::GracefulShutdownState`. -/
inductive GracefulShutdownState where
  | none
  | awaitingPriorPing
  | awaitingShutdownPing
  | finalGOAWAYSent
deriving DecidableEq, Repr

/-- `QHttp2Connection::PingState`. -/
inductive PingState where
  | ping
  | pongSignatureIdentical
  | pongSignatureChanged
  | pongNoPingSent
deriving DecidableEq, Repr

/-- `QHttp2Connection::CreateStreamError`. -/
inductive CreateStreamError where
  | maxConcurrentStreamsReached
  | streamIdsExhausted
  | receivedGOAWAY
  | unknownError
deriving DecidableEq, Repr

/-- The signals of a stream. -/
inductive StreamSignal where
  | headersReceived (headers : HPack.HttpHeader) (endStream : Bool)
  | headersUpdated
  | errorOccurred (errorCode : ℕ) (errorString : String)
  | stateChanged (newState : StreamState)
  | uploadBlocked
  | dataReceived (data : Octets) (endStream : Bool)
  | rstFrameReceived (errorCode : ℕ)
  | bytesWritten (bytesWritten : ℕ)
  | uploadFinished
deriving DecidableEq

/-- The signals of a connection and of its streams. -/
inductive Signal where
  | newIncomingStream (streamID : ℕ)
  | newPromisedStream (streamID : ℕ)
  | connectionClosed
  | settingsFrameReceived
  | pingFrameReceived (state : PingState)
  | errorOccurred (errorCode : ℕ) (errorString : String)
  | receivedGOAWAY (errorCode lastStreamID : ℕ)
  | receivedEND_STREAM (streamID : ℕ)
  | incomingStreamErrorOccured (error : CreateStreamError)
  | stream (streamID : ℕ) (signal : StreamSignal)
deriving DecidableEq

/-- What can be observed: the client preface and the frames that are handed to the socket,
and whether it takes them, the frames the reader hands over, the field blocks handed to the
decoder, and the signals. -/
inductive Output where
  | wrotePreface (ok : Bool)
  | wrote (frame : OutboundFrame) (ok : Bool)
  | received (status : FrameStatus) (frame : Frame)
  | decoded (block : Octets)
  | signal (signal : Signal)
deriving DecidableEq

/-- The calls that are queued in the event loop. -/
inductive QueuedCall where
  | maybeResumeUpload (streamID : ℕ)
  | sendWINDOW_UPDATE (streamID delta : ℕ)
deriving DecidableEq, Repr

/-- A connection, with the calls queued for it, what has been observed of it, and its socket:
whether it is open, and how many writes it has been given.  A stream in the table that has
been deleted, or was never there, is `none`. -/
structure Connection (D : Type) where
  connectionType : ConnectionType
  waitingForSettingsACK : Bool
  decoder : HPack.Decoder
  encoder : HPack.Encoder
  pendingTableSizeUpdates : Option ℕ × Option ℕ
  config : QHttp2Configuration
  streams : AList fun _ : ℕ => Option (Stream D)
  blockedStreams : List ℕ
  promisedStreams : List (Octets × ℕ)
  resetStreamIDs : List ℕ
  lastPingSignature : Option Octets
  nextStreamID : ℕ
  maxFrameSize : ℕ
  continuationExpected : Bool
  continuedFrames : List Frame
  peerMaxConcurrentStreams : ℕ
  maxConcurrentStreams : ℕ
  maxSessionReceiveWindowSize : ℤ
  sessionReceiveWindowSize : ℤ
  streamInitialReceiveWindowSize : ℤ
  sessionSendWindowSize : ℤ
  streamInitialSendWindowSize : ℤ
  maxHeaderListSize : ℕ
  upgradedConnection : Bool
  goingAway : Bool
  pushPromiseEnabled : Bool
  lastIncomingStreamID : ℕ
  lastStreamToProcess : ℕ
  goawayGraceTimerExpired : Bool
  lastGoAwayLastStreamID : Option ℕ
  connectionAborted : Bool
  gracefulShutdownState : GracefulShutdownState
  prefaceSent : Bool
  waitingForClientPreface : Bool
  socketOpen : Bool
  writes : ℕ
  eventQueue : List QueuedCall
  trace : List Output

/-- A procedure of a connection. -/
abbrev Operation (D : Type) (α : Type) : Type :=
  Proc (Connection D) Fault α

namespace Connection

variable {D : Type}

/-- `QHttp2Connection::QHttp2Connection` and `setH2Configuration`. -/
def new (connectionType : ConnectionType) (config : QHttp2Configuration) : Connection D where
  connectionType := connectionType
  waitingForSettingsACK := false
  decoder := .new 4096
  encoder := (HPack.Encoder.new 4096 true).setCompressStrings config.huffmanCompressionEnabled
  pendingTableSizeUpdates := (none, none)
  config := config
  streams := ∅
  blockedStreams := []
  promisedStreams := []
  resetStreamIDs := []
  lastPingSignature := none
  nextStreamID := 1
  maxFrameSize := minPayloadLimit
  continuationExpected := false
  continuedFrames := []
  peerMaxConcurrentStreams := 100
  maxConcurrentStreams := config.maxConcurrentStreams
  maxSessionReceiveWindowSize := config.sessionReceiveWindowSize
  sessionReceiveWindowSize := defaultSessionWindowSize
  streamInitialReceiveWindowSize := config.streamReceiveWindowSize
  sessionSendWindowSize := defaultSessionWindowSize
  streamInitialSendWindowSize := defaultSessionWindowSize
  maxHeaderListSize := 2 ^ 32 - 1
  upgradedConnection := false
  goingAway := false
  pushPromiseEnabled := config.serverPushEnabled
  lastIncomingStreamID := connectionStreamID
  lastStreamToProcess := lastValidStreamID
  goawayGraceTimerExpired := true
  lastGoAwayLastStreamID := none
  connectionAborted := false
  gracefulShutdownState := .none
  prefaceSent := false
  waitingForClientPreface := false
  socketOpen := true
  writes := 0
  eventQueue := []
  trace := []

/-- `getStream`: the stream, if it is there and has not been deleted. -/
def getStream (s : Connection D) (streamID : ℕ) : Option (Stream D) :=
  (s.streams.lookup streamID).join

/-- The table with a stream under its number. -/
def putStream (s : Connection D) (streamID : ℕ) (st : Stream D) : Connection D :=
  { s with streams := s.streams.insert streamID (some st) }

/-- The streams are given in the order of the table; the order of a `QHash` is
unspecified. -/
def streamIDs (s : Connection D) : List ℕ :=
  s.streams.keys

def isUploadBlocked (s : Connection D) (st : Stream D) : Bool :=
  st.isUploadingDATA &&
    (st.sendWindow ≤ frameHeaderSize + 1 || s.sessionSendWindowSize ≤ frameHeaderSize + 1)

def streamWasResetLocally (s : Connection D) (streamID : ℕ) : Bool :=
  streamID ∈ s.resetStreamIDs

def isInvalidStream (s : Connection D) (streamID : ℕ) : Bool :=
  (match s.getStream streamID with
    | none => true
    | some st => st.wasResetbyPeer) && !s.streamWasResetLocally streamID

/-- The parity of the streams the peer creates. -/
def remoteMask (s : Connection D) : ℕ :=
  match s.connectionType with
  | .client => 0
  | .server => 1

/-- The parity of the streams created here. -/
def localMask (s : Connection D) : ℕ :=
  match s.connectionType with
  | .client => 1
  | .server => 0

def streamIsIgnored (s : Connection D) (streamID : ℕ) : Bool :=
  streamID % 2 = s.remoteMask && s.lastStreamToProcess < streamID

/-- `numActiveStreamsImpl`. -/
def numActiveStreams (s : Connection D) (mask : ℕ) : ℕ :=
  s.streamIDs.countP fun streamID =>
    streamID % 2 = mask && (s.getStream streamID).any (·.isActive)

end Connection

/-! ### Elementary operations -/

section

open Proc

variable {D : Type}

def emit (signal : Signal) : Operation D Unit :=
  change fun s => { s with trace := s.trace ++ [.signal signal] }

/-- `FrameWriter::write`. -/
def write (env : Env D) (frame : OutboundFrame) : Operation D Bool := do
  let s ← current
  let ok := s.socketOpen && env.writeOk s.writes
  change fun s => { s with writes := s.writes + 1, trace := s.trace ++ [.wrote frame ok] }
  pure ok

/-- Writes a list of frames up to the first that fails. -/
def writeAll (env : Env D) : List OutboundFrame → Operation D Bool
  | [] => pure true
  | frame :: frames => do
    let ok ← write env frame
    if ok then writeAll env frames else pure false

/-- A change of a stream that is in the table. -/
def modifyStream (streamID : ℕ) (f : Stream D → Stream D) : Operation D Unit :=
  change fun s =>
    match s.getStream streamID with
    | none => s
    | some st => s.putStream streamID (f st)

/-- `QMetaObject::invokeMethod` with a queued connection. -/
def invokeQueued (call : QueuedCall) : Operation D Unit :=
  change fun s => { s with eventQueue := s.eventQueue ++ [call] }

end

end Http2
