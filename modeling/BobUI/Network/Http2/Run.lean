import BobUI.Network.Http2.Handlers

/-!
# Runs of a connection

A connection is driven by the calls of the application, by its upload devices, by the frames
its reader hands over, by the event loop and by the end of its grace period and of its
socket, in any order.
-/

namespace Http2

open Proc

/-- What drives a connection. -/
inductive Event (D : Type) where
  | createStream (useDownloadBuffer : Bool)
  | sendHEADERS (streamID : ℕ) (headers : HPack.HttpHeader) (endStream : Bool) (priority : UInt8)
  | sendDATA (streamID : ℕ) (device : D) (endStream : Bool)
  | sendRST_STREAM (streamID errorCode : ℕ)
  | sendWINDOW_UPDATE (streamID delta : ℕ)
  | deleteStream (streamID : ℕ)
  | close (errorCode : ℕ)
  | sendPing (data : Octets)
  | handleConnectionClosure
  /-- The upload device of a stream has changed and signals `readyRead`. -/
  | readyRead (streamID : ℕ) (device : D)
  | clientPreface (preface : Octets)
  /-- The reader returns a result. -/
  | frame (status : FrameStatus) (f : Frame)
  /-- The event loop makes the first of the queued calls. -/
  | runQueued
  | graceTimeout
  | socketClosed

variable {D : Type} (env : Env D)

/-- The handler of a good frame. -/
def handleGoodFrame (f : Frame) : Operation D Unit := do
  let s ← current
  if s.continuationExpected ∧ f.type ≠ .continuation then
    connectionError env Http2Error.protocolError "CONTINUATION expected"
  else
    match f.type with
    | .data => handleDATA env f
    | .headers => handleHEADERS env f
    | .priority => handlePRIORITY env f
    | .rstStream => handleRST_STREAM env f
    | .settings => handleSETTINGS env f
    | .pushPromise => handlePUSH_PROMISE env f
    | .ping => handlePING env f
    | .goaway => handleGOAWAY env f
    | .windowUpdate => handleWINDOW_UPDATE env f
    | .continuation => handleCONTINUATION env f
    | .lastFrameType => pure ()

/-- What comes of a frame of a wrong size. -/
def handleSizeError (f : Frame) : Operation D Unit := do
  let s ← current
  if sizeErrorEndsConnection f then
    connectionError env Http2Error.frameSizeError "invalid frame size"
  else
    match s.getStream f.streamID with
    | none => pure ()
    | some _ => streamError env f.streamID Http2Error.frameSizeError "invalid frame size"

/-- The loop of `handleReadyRead`, for one result of the reader. -/
def handleResult (status : FrameStatus) (f : Frame) : Operation D Unit :=
  match status with
  | .incompleteFrame => pure ()
  | .protocolError => do
    change fun s => { s with trace := s.trace ++ [.received status f] }
    connectionError env Http2Error.protocolError "invalid frame"
  | .sizeError => do
    change fun s => { s with trace := s.trace ++ [.received status f] }
    handleSizeError env f
  | .goodFrame => do
    change fun s => { s with trace := s.trace ++ [.received status f] }
    handleGoodFrame env f

/-- `handleReadyRead`: frames are handled once the prefaces are through and while the
connection lasts. -/
def Connection.reads (s : Connection D) : Bool :=
  !s.waitingForClientPreface && s.prefaceSent && !s.connectionAborted

def runQueuedCall : Operation D Unit := do
  let s ← current
  match s.eventQueue with
  | [] => pure ()
  | call :: calls =>
    change fun s => { s with eventQueue := calls }
    match call with
    | .maybeResumeUpload streamID => maybeResumeUpload env streamID
    | .sendWINDOW_UPDATE streamID delta => do
      let _ ← sendWindowUpdateFrame env streamID delta
      pure ()

/-- The `readyRead` signal of an upload device. -/
def deviceReadyRead (streamID : ℕ) (device : D) : Operation D Unit := do
  let s ← current
  when ((s.getStream streamID).any (·.isUploadingDATA)) do
    modifyStream streamID fun st => { st with uploadByteDevice := some device }
    maybeResumeUpload env streamID

def step : Event D → Operation D Unit
  | .createStream useDownloadBuffer => do
    let _ ← createStream env useDownloadBuffer
    pure ()
  | .sendHEADERS streamID headers endStream priority => do
    let s ← current
    when (s.getStream streamID).isSome do
      let _ ← sendHEADERS env streamID headers endStream priority
      pure ()
  | .sendDATA streamID device endStream => do
    let _ ← sendDATA env streamID device endStream
    pure ()
  | .sendRST_STREAM streamID errorCode => do
    let _ ← sendRST_STREAM env streamID errorCode
    pure ()
  | .sendWINDOW_UPDATE streamID delta => do
    let s ← current
    when (s.getStream streamID).isSome (sendWINDOW_UPDATE env streamID delta)
  | .deleteStream streamID => deleteStream env streamID
  | .close errorCode => close env errorCode
  | .sendPing data => do
    let _ ← sendPing env data
    pure ()
  | .handleConnectionClosure => handleConnectionClosure
  | .readyRead streamID device => deviceReadyRead env streamID device
  | .clientPreface preface => do
    let _ ← serverCheckClientPreface env preface
    pure ()
  | .frame status f => do
    let s ← current
    when s.reads (handleResult env status f)
  | .runQueued => runQueuedCall env
  | .graceTimeout => change fun s => { s with goawayGraceTimerExpired := true }
  | .socketClosed => change fun s => { s with socketOpen := false }

/-- A run; it ends where the program breaks off. -/
def run (events : List (Event D)) : Operation D Unit :=
  forEach (step env) events

/-- `createDirectConnection`. -/
def createDirectConnection (config : QHttp2Configuration) : Connection D :=
  .new .client config

/-- `createDirectServerConnection`. -/
def createDirectServerConnection (config : QHttp2Configuration) : Connection D :=
  { Connection.new .server config with nextStreamID := 2, waitingForClientPreface := true }

/-- `createUpgradedConnection`: stream 1 is there and closed for what is sent. -/
def createUpgradedConnection (config : QHttp2Configuration) : Option (Connection D) :=
  let createStream : Operation D Unit := do
    let created ← createLocalStreamInternal env true
    match created with
    | .error _ => fail .nullStream
    | .ok streamID => setState streamID .halfClosedLocal
  match createStream { Connection.new .client config with upgradedConnection := true } with
  | (.ok _, s) => if s.prefaceSent then some s else none
  | (.error _, _) => none

end Http2
