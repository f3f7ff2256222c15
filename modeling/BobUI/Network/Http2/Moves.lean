import BobUI.Network.Http2.Run

/-!
# The moves of a connection

A view of a connection keeps what its peer and its application rely on: the states and
windows of the streams, the flow control windows, the progress of the preface and of the
shutdown, the field block in progress, the queued calls and what has been observed.  A connection changes its
view by moves, and a move carries the conditions under which the connection makes it.  The
moves that every procedure may make are the routine ones; each of the others has a kind, and
what a procedure does to the view is a sequence of routine moves and moves of some kinds.
-/

namespace Http2

variable {D : Type}

/-- What a view keeps of a stream. -/
structure StreamView (D : Type) where
  state : StreamState
  recvWindow : ℤ
  sendWindow : ℤ
  upload : Option D

def Stream.view (st : Stream D) : StreamView D :=
  ⟨st.state, st.recvWindow, st.sendWindow, st.uploadByteDevice⟩

/-- What a view keeps of a connection.  An entry of the table is `some none` where the
stream has been deleted, or was never there. -/
structure View (D : Type) where
  connectionType : ConnectionType
  table : ℕ → Option (Option (StreamView D))
  blockedStreams : List ℕ
  nextStreamID : ℕ
  lastIncomingStreamID : ℕ
  lastStreamToProcess : ℕ
  goingAway : Bool
  connectionAborted : Bool
  gracefulShutdownState : GracefulShutdownState
  continuationExpected : Bool
  continuedFrames : List Frame
  maxSessionReceiveWindowSize : ℤ
  sessionReceiveWindowSize : ℤ
  streamInitialReceiveWindowSize : ℤ
  sessionSendWindowSize : ℤ
  streamInitialSendWindowSize : ℤ
  prefaceSent : Bool
  waitingForClientPreface : Bool
  eventQueue : List QueuedCall
  trace : List Output

def Connection.view (s : Connection D) : View D where
  connectionType := s.connectionType
  table streamID := (s.streams.lookup streamID).map (Option.map Stream.view)
  blockedStreams := s.blockedStreams
  nextStreamID := s.nextStreamID
  lastIncomingStreamID := s.lastIncomingStreamID
  lastStreamToProcess := s.lastStreamToProcess
  goingAway := s.goingAway
  connectionAborted := s.connectionAborted
  gracefulShutdownState := s.gracefulShutdownState
  continuationExpected := s.continuationExpected
  continuedFrames := s.continuedFrames
  maxSessionReceiveWindowSize := s.maxSessionReceiveWindowSize
  sessionReceiveWindowSize := s.sessionReceiveWindowSize
  streamInitialReceiveWindowSize := s.streamInitialReceiveWindowSize
  sessionSendWindowSize := s.sessionSendWindowSize
  streamInitialSendWindowSize := s.streamInitialSendWindowSize
  prefaceSent := s.prefaceSent
  waitingForClientPreface := s.waitingForClientPreface
  eventQueue := s.eventQueue
  trace := s.trace

namespace View

/-- The view with a stream set in the table. -/
def setStream (v : View D) (streamID : ℕ) (st : StreamView D) : View D :=
  { v with table := Function.update v.table streamID (some (some st)) }

/-- The view after an output. -/
def output (v : View D) (o : Output) : View D :=
  { v with trace := v.trace ++ [o] }

/-- The parity of the streams the peer creates. -/
def remoteMask (v : View D) : ℕ :=
  match v.connectionType with
  | .client => 0
  | .server => 1

/-- A stream as it enters the table. -/
def newStream (v : View D) : StreamView D :=
  ⟨.idle, v.streamInitialReceiveWindowSize, v.streamInitialSendWindowSize, none⟩

/-- What the session window of the configuration has more than the default one. -/
def sessionDelta (v : View D) : ℤ :=
  v.maxSessionReceiveWindowSize - defaultSessionWindowSize

/-- The view after the session window has been announced; the preface is through where this has
been written. -/
def announceSession (v : View D) (ok : Bool) : View D :=
  { v with
    sessionReceiveWindowSize := v.maxSessionReceiveWindowSize
    trace := v.trace ++ if v.sessionDelta = 0 then [] else
      [.wrote ⟨.windowUpdate, FrameFlag.empty, connectionStreamID,
        toBigEndian (toUInt32 v.sessionDelta)⟩ ok]
    prefaceSent := v.prefaceSent || (decide (v.sessionDelta = 0) || ok) }

/-- The view after an update of the window of a stream has been written. -/
def updateStream (v : View D) (streamID : ℕ) (st : StreamView D) (delta : ℕ) (ok : Bool) :
    View D :=
  (v.setStream streamID { st with recvWindow := toInt32 (st.recvWindow + toInt32 delta) }).output
    (.wrote ⟨.windowUpdate, FrameFlag.empty, streamID, toBigEndian delta⟩ ok)

end View

/-- The changes of the state of a stream.  A stream that is closed for what is sent stays
so. -/
def StreamState.MayBecome : StreamState → StreamState → Prop
  | .idle, new => new ≠ .idle
  | .reservedRemote, new => new = .halfClosedLocal ∨ new = .closed
  | .opened, new => new = .halfClosedLocal ∨ new = .halfClosedRemote ∨ new = .closed
  | .halfClosedLocal, new => new = .closed
  | .halfClosedRemote, new => new = .closed
  | .closed, _ => False

/-- The states in which HEADERS and DATA may be sent. -/
def StreamState.Sends (state : StreamState) : Prop :=
  state = .opened ∨ state = .halfClosedRemote

/-- The states of a stream that is closed for what is sent. -/
def StreamState.SendClosed (state : StreamState) : Prop :=
  state = .halfClosedLocal ∨ state = .closed

/-- The frames any procedure may write. -/
def OutboundFrame.Neutral (f : OutboundFrame) : Prop :=
  f.type ≠ .data ∧ f.type ≠ .headers ∧ f.type ≠ .rstStream ∧ f.type ≠ .goaway ∧
    f.type ≠ .windowUpdate

/-- The output of a GOAWAY frame, if the socket is open. -/
def goawayOutput (written : Option Bool) (lastStreamID errorCode : ℕ) : List Output :=
  (written.map fun ok => Output.wrote ⟨.goaway, FrameFlag.empty, connectionStreamID,
    toBigEndian lastStreamID ++ toBigEndian errorCode⟩ ok).toList

/-- The moves that every procedure may make. -/
inductive RoutineMove : View D → View D → Prop where
  | signal (v : View D) (sig : Signal) (h : ∀ streamID, sig ≠ .newIncomingStream streamID) :
      RoutineMove v (v.output (.signal sig))
  | announce (v : View D) (streamID : ℕ) (h : streamID ≤ v.lastStreamToProcess) :
      RoutineMove v (v.output (.signal (.newIncomingStream streamID)))
  | write (v : View D) (f : OutboundFrame) (ok : Bool) (h : f.Neutral) :
      RoutineMove v (v.output (.wrote f ok))
  | writePreface (v : View D) (ok : Bool) :
      RoutineMove v (v.output (.wrotePreface ok))
  | reset (v : View D) (streamID errorCode : ℕ) (ok : Bool) {st : StreamView D}
      (h : v.table streamID = some (some st)) (h_closed : st.state = .closed) :
      RoutineMove v (v.output (.wrote
        ⟨.rstStream, FrameFlag.empty, streamID, toBigEndian errorCode⟩ ok))
  | state (v : View D) (streamID : ℕ) (new : StreamState) {st : StreamView D}
      (h : v.table streamID = some (some st)) (h_new : st.state.MayBecome new) :
      RoutineMove v (v.setStream streamID { st with state := new })
  | detach (v : View D) (streamID : ℕ) {st : StreamView D}
      (h : v.table streamID = some (some st)) (h_closed : st.state.SendClosed) :
      RoutineMove v (v.setStream streamID { st with upload := none })
  | initialGoaway (v : View D) (written : Option Bool) (prior : Bool)
      (h_aborted : v.connectionAborted = false) (h_going : v.goingAway = false) :
      RoutineMove v { v with
        goingAway := true
        gracefulShutdownState := if prior then .awaitingPriorPing else .awaitingShutdownPing
        trace := v.trace ++ goawayOutput written lastValidStreamID Http2Error.http2NoError }
  | shutdownPing (v : View D) (h : v.gracefulShutdownState = .awaitingPriorPing) :
      RoutineMove v { v with gracefulShutdownState := .awaitingShutdownPing }
  | finalGoaway (v : View D) (written : Option Bool)
      (h_aborted : v.connectionAborted = false)
      (h : v.gracefulShutdownState = .awaitingShutdownPing) :
      RoutineMove v { v with
        gracefulShutdownState := .finalGOAWAYSent
        lastStreamToProcess := v.lastIncomingStreamID
        trace := v.trace ++ goawayOutput written v.lastIncomingStreamID Http2Error.http2NoError }
  | clientGoaway (v : View D) (written : Option Bool)
      (h_aborted : v.connectionAborted = false) (h_going : v.goingAway = false) :
      RoutineMove v { v with
        goingAway := true
        gracefulShutdownState := .finalGOAWAYSent
        lastStreamToProcess := v.lastIncomingStreamID
        trace := v.trace ++ goawayOutput written v.lastIncomingStreamID Http2Error.http2NoError }
  | errorGoaway (v : View D) (written : Option Bool) (errorCode : ℕ)
      (h_aborted : v.connectionAborted = false) :
      RoutineMove v { v with
        connectionAborted := true
        goingAway := true
        lastStreamToProcess := min v.lastIncomingStreamID v.lastStreamToProcess
        trace := v.trace ++ goawayOutput written
          (min v.lastIncomingStreamID v.lastStreamToProcess) errorCode }
  | peerGoaway (v : View D) (aborted : Bool) :
      RoutineMove v { v with
        goingAway := true
        connectionAborted := v.connectionAborted || aborted }
  | createLocal (v : View D) (h : v.table v.nextStreamID = none) (h_going : v.goingAway = false)
      (h_preface : v.connectionType = .client → v.prefaceSent = true) :
      RoutineMove v { v.setStream v.nextStreamID v.newStream with
        nextStreamID := v.nextStreamID + 2 }
  -- A server takes PUSH_PROMISE as a client does, so the stream may be one of its own parity.
  | createRemote (v : View D) (streamID : ℕ) (h : v.table streamID = none)
      (h_mask : streamID % 2 = v.remoteMask ∨ streamID % 2 = 0)
      (h_last : v.lastIncomingStreamID < streamID) (h_le : streamID ≤ lastValidStreamID) :
      RoutineMove v { v.setStream streamID v.newStream with
        lastIncomingStreamID := streamID }
  | remove (v : View D) (streamID : ℕ) :
      RoutineMove v { v with table := Function.update v.table streamID none }
  | block (v : View D) (streamID : ℕ) :
      RoutineMove v { v with blockedStreams := v.blockedStreams.insert streamID }
  | resume (v : View D) (streamID : ℕ) :
      RoutineMove v { v with eventQueue := v.eventQueue ++ [.maybeResumeUpload streamID] }
  | checkPreface (v : View D) :
      RoutineMove v { v with waitingForClientPreface := false }

/-- The kinds of the other moves. -/
inductive Kind where
  | nullEntry
  | attach
  | device
  | data
  | dataOpen
  | headers
  | headersOpen
  | debit
  | debitStream
  | credit
  | replenish
  | update
  | preface
  | grantStream
  | adjust
  | grantSession
  | unblock
  | dequeue
  | receive
  | decode
  | continuation
deriving DecidableEq

/-- The outputs of `writeHEADERS`: a HEADERS frame, and CONTINUATION frames behind it. -/
def HeadersOutput (streamID : ℕ) : List Output → Prop
  | .wrote f _ :: outputs =>
    f.type = .headers ∧ f.streamID = streamID ∧
      ∀ o ∈ outputs, ∃ f ok, o = .wrote f ok ∧ f.type = .continuation
  | _ => False

/-- The outputs that close a stream for what is sent: a frame with END_STREAM, and an
RST_STREAM frame in either direction. -/
def Output.Closes (streamID : ℕ) : Output → Prop
  | .wrote f _ => f.streamID = streamID ∧
    (f.type = .rstStream ∨ (f.type = .data ∨ f.type = .headers) ∧
      testFlag f.flags FrameFlag.endStream = true)
  | .received status f => status = .goodFrame ∧ f.type = .rstStream ∧ f.streamID = streamID
  | _ => False

/-- Nothing that has been observed closes the stream. -/
def View.Unclosed (v : View D) (streamID : ℕ) : Prop :=
  ∀ o ∈ v.trace, ¬o.Closes streamID

/-- A DATA frame of a stream that uploads, within its windows. -/
def DataFits (v : View D) (st : StreamView D) (streamID : ℕ) (f : OutboundFrame) : Prop :=
  f.type = .data ∧ f.streamID = streamID ∧ st.upload.isSome = true ∧
    (f.payload = [] ∨
      (f.payload.length : ℤ) ≤ st.sendWindow ∧ (f.payload.length : ℤ) ≤ v.sessionSendWindowSize)

/-- The view after a DATA frame. -/
def View.afterData (v : View D) (streamID : ℕ) (st : StreamView D) (f : OutboundFrame) (ok : Bool)
    (d : D) : View D :=
  { (v.setStream streamID
      { st with sendWindow := st.sendWindow - f.payload.length, upload := some d }).output
      (.wrote f ok) with
    sessionSendWindowSize := v.sessionSendWindowSize - f.payload.length }

/-- The moves of the other kinds. -/
inductive SpecialMove : Kind → View D → View D → Prop where
  | nullEntry (v : View D) (streamID : ℕ) (h : v.table streamID = none)
      (h_id : streamID ≠ connectionStreamID) :
      SpecialMove .nullEntry v
        { v with table := Function.update v.table streamID (some none) }
  | attach (v : View D) (streamID : ℕ) (d : D) {st : StreamView D}
      (h : v.table streamID = some (some st)) (h_state : st.state.Sends) :
      SpecialMove .attach v (v.setStream streamID { st with upload := some d })
  | device (v : View D) (streamID : ℕ) (upload : Option D) {st : StreamView D}
      (h : v.table streamID = some (some st)) (h_upload : st.upload.isSome = true) :
      SpecialMove .device v (v.setStream streamID { st with upload := upload })
  | data (v : View D) (streamID : ℕ) (f : OutboundFrame) (ok : Bool) (d : D) {st : StreamView D}
      (h : v.table streamID = some (some st)) (h_fits : DataFits v st streamID f) :
      SpecialMove .data v (v.afterData streamID st f ok d)
  | dataOpen (v : View D) (streamID : ℕ) (f : OutboundFrame) (ok : Bool) (d : D)
      {st : StreamView D} (h : v.table streamID = some (some st))
      (h_fits : DataFits v st streamID f) (h_open : v.Unclosed streamID) :
      SpecialMove .dataOpen v (v.afterData streamID st f ok d)
  | headers (v : View D) (streamID : ℕ) (outputs : List Output)
      (h_outputs : HeadersOutput streamID outputs) :
      SpecialMove .headers v { v with trace := v.trace ++ outputs }
  | headersOpen (v : View D) (streamID : ℕ) (outputs : List Output)
      (h_outputs : HeadersOutput streamID outputs) (h_open : v.Unclosed streamID) :
      SpecialMove .headersOpen v { v with trace := v.trace ++ outputs }
  | debit (v : View D) (size : ℕ) (h : (size : ℤ) ≤ v.sessionReceiveWindowSize) :
      SpecialMove .debit v { v with
        sessionReceiveWindowSize := v.sessionReceiveWindowSize - size }
  | debitStream (v : View D) (streamID size : ℕ) {st : StreamView D}
      (h : v.table streamID = some (some st)) (h_size : (size : ℤ) ≤ st.recvWindow) :
      SpecialMove .debitStream v
        (v.setStream streamID { st with recvWindow := st.recvWindow - size })
  | credit (v : View D)
      (h : v.sessionReceiveWindowSize < v.maxSessionReceiveWindowSize / 2) :
      SpecialMove .credit v { v with
        sessionReceiveWindowSize := v.maxSessionReceiveWindowSize
        eventQueue := v.eventQueue ++ [.sendWINDOW_UPDATE connectionStreamID
          (toUInt32 (v.maxSessionReceiveWindowSize - v.sessionReceiveWindowSize))] }
  | replenish (v : View D) (streamID : ℕ) (ok : Bool) {st : StreamView D}
      (h : v.table streamID = some (some st))
      (h_low : st.recvWindow < v.streamInitialReceiveWindowSize / 2) :
      SpecialMove .replenish v (v.updateStream streamID st
        (toUInt32 (v.streamInitialReceiveWindowSize - st.recvWindow)) ok)
  | update (v : View D) (streamID delta : ℕ) (ok : Bool) {st : StreamView D}
      (h : v.table streamID = some (some st)) :
      SpecialMove .update v (v.updateStream streamID st delta ok)
  | clientPreface (v : View D) (ok : Bool) (h_type : v.connectionType = .client)
      (h : v.prefaceSent = false) :
      SpecialMove .preface v (v.announceSession ok)
  | serverPreface (v : View D) (ok : Bool) (h : v.waitingForClientPreface = true) :
      SpecialMove .preface v { v.announceSession ok with waitingForClientPreface := false }
  | grantStream (v : View D) (streamID : ℕ) (sum : ℤ) {st : StreamView D}
      (h : v.table streamID = some (some st)) :
      SpecialMove .grantStream v (v.setStream streamID { st with sendWindow := sum })
  | adjust (v : View D) (streamID : ℕ) (sum : ℤ) {st : StreamView D}
      (h : v.table streamID = some (some st)) :
      SpecialMove .adjust v (v.setStream streamID { st with sendWindow := sum })
  | initialWindow (v : View D) (newValue : ℕ) :
      SpecialMove .adjust v { v with streamInitialSendWindowSize := newValue }
  | grantSession (v : View D) (sum : ℤ) :
      SpecialMove .grantSession v { v with sessionSendWindowSize := sum }
  | unblock (v : View D) :
      SpecialMove .unblock v { v with blockedStreams := [] }
  | dequeue (v : View D) {streamID : ℕ} {calls : List QueuedCall}
      (h : v.eventQueue = .maybeResumeUpload streamID :: calls) :
      SpecialMove .dequeue v { v with eventQueue := calls }
  | dequeueUpdate (v : View D) (ok : Bool) {streamID delta : ℕ} {calls : List QueuedCall}
      (h : v.eventQueue = .sendWINDOW_UPDATE streamID delta :: calls) :
      SpecialMove .dequeue v { v.output (.wrote
          ⟨.windowUpdate, FrameFlag.empty, streamID, toBigEndian delta⟩ ok) with
        eventQueue := calls }
  | receive (v : View D) (status : FrameStatus) (f : Frame) :
      SpecialMove .receive v (v.output (.received status f))
  | decode (v : View D) (block : Octets) :
      SpecialMove .decode v (v.output (.decoded block))
  | continuation (v : View D) (expected : Bool) (frames : List Frame) :
      SpecialMove .continuation v { v with
        continuationExpected := expected
        continuedFrames := frames }

/-- A routine move, or a move of one of the given kinds. -/
def Moves (K : Kind → Prop) (v v' : View D) : Prop :=
  RoutineMove v v' ∨ ∃ k, K k ∧ SpecialMove k v v'

/-- A sequence of moves of the views of connections. -/
def Reach (K : Kind → Prop) (s s' : Connection D) : Prop :=
  Relation.ReflTransGen (Moves K) s.view s'.view

instance (K : Kind → Prop) : IsPreorder (Connection D) (Reach K) where
  refl _ := .refl
  trans _ _ _ := .trans

end Http2
