import BobUI.Network.Http2.ByteArrayDevice
import BobUI.Network.Http2.StreamMoves
import BobUI.Network.Http2.UndefinedFlags

/-!
# The PADDED flag on frames without padding

Where the PADDED flag moves the octets that the handler of a frame reads, its effect is another one
in some state of the connection.
-/

namespace Http2

open Proc

variable {D : Type} {env : Env D} {f : Frame} {extra : UInt8}

/-- `QHttp2Configuration` as it is constructed. -/
def defaultConfiguration : QHttp2Configuration where
  maxConcurrentStreams := 100
  sessionReceiveWindowSize := 65535
  streamReceiveWindowSize := 65535
  maxFrameSize := minPayloadLimit
  serverPushEnabled := false
  huffmanCompressionEnabled := true
  session_pos := by decide
  session_le := by decide
  stream_pos := by decide
  stream_le := by decide
  frame_le := by decide

theorem not_ignoresFlags_of_fault (s : Connection D)
    (hpadded : (handleGoodFrame env (f.withFlags extra) s).1 = .error .outOfBounds)
    (hplain : (handleGoodFrame env f s).1 ≠ .error .outOfBounds) :
  ¬IgnoresFlags env f extra
  := by
  intro h
  rw [← h.result s] at hplain
  exact hplain hpadded

variable {s : Connection D}

theorem handleGoodFrame_of_type {type : FrameType} (htype : f.type = type)
    (hexpected : s.continuationExpected = false) :
  handleGoodFrame env f s = handlerOf env type f s
  := by
  rw [handleGoodFrame_eq, hexpected, htype]
  exact if_neg fun h => Bool.false_ne_true h.1

theorem Frame.ValidControl.sizeOf_type (h : f.ValidControl) :
  (f.type = .rstStream ∨ f.type = .windowUpdate → f.payloadSize = 4)
    ∧ (f.type = .ping → f.payloadSize = 8) ∧ (f.type = .goaway → 8 ≤ f.payloadSize)
  := by
  have hlt := f.payloadSize_lt
  have hle : ¬f.payloadSize > maxPayloadSize := by
    rw [maxPayloadSize]
    omega
  have hheader := h.header
  rw [Frame.validateHeader, if_neg hle] at hheader
  refine ⟨?_, ?_, ?_⟩
  · intro htype
    by_contra hsize
    rcases htype with htype | htype
    · rw [htype] at hheader
      dsimp only at hheader
      rw [if_pos hsize] at hheader
      cases hheader
    · rw [htype] at hheader
      dsimp only at hheader
      rw [if_pos hsize] at hheader
      cases hheader
  · intro htype
    by_contra hsize
    rw [htype] at hheader
    dsimp only at hheader
    rw [if_pos hsize] at hheader
    cases hheader
  · intro htype
    by_contra hsize
    rw [htype] at hheader
    dsimp only at hheader
    rw [if_pos (not_le.mp hsize)] at hheader
    cases hheader

/-- The data of the frame itself is read. -/
theorem readUInt32_plain (h : f.ValidControl) (hreads : f.readsData = true) {offset : ℕ}
    (hfits : offset + 4 ≤ f.payloadSize) :
  (readUInt32 f offset : Operation D ℕ) = pure (fromBigEndian f.buffer (frameHeaderSize + offset))
  := by
  have hread := readUInt32_withFlags (D := D) h hreads 0 offset
  rw [Frame.withFlags_zero] at hread
  rw [hread]
  exact if_pos (show 0 + offset + 4 ≤ f.payloadSize by omega)

theorem readUInt32_padded (h : f.ValidControl) (hreads : f.readsData = true)
    (hshift : Frame.paddingShift extra = 1) {offset : ℕ} (hfits : f.payloadSize ≤ offset + 4) :
  (readUInt32 (f.withFlags extra) offset : Operation D ℕ) = Proc.fail .outOfBounds
  := by
  rw [readUInt32_withFlags h hreads, hshift, if_neg (by omega)]

theorem readData_plain (h : f.ValidControl) (hreads : f.readsData = true) {size : ℕ}
    (hsize : size ≠ 0) (hfits : size ≤ f.payloadSize) :
  (readData f size : Operation D Octets) = pure ((f.buffer.drop frameHeaderSize).take size)
  := by
  have hread := readData_withFlags (D := D) h hreads 0 hsize
  rw [Frame.withFlags_zero] at hread
  rw [hread]
  exact if_pos (show 0 + size ≤ f.payloadSize by omega)

theorem readData_padded (h : f.ValidControl) (hreads : f.readsData = true)
    (hshift : Frame.paddingShift extra = 1) {size : ℕ} (hsize : size ≠ 0)
    (hfits : f.payloadSize ≤ size) :
  (readData (f.withFlags extra) size : Operation D Octets) = Proc.fail .outOfBounds
  := by
  rw [readData_withFlags h hreads extra hsize, hshift, if_neg (by omega)]

/-! ### RST_STREAM and WINDOW_UPDATE -/

theorem streamID_le (f : Frame) :
  f.streamID ≤ lastValidStreamID
  := Nat.and_le_right

theorem rstStream_fault (h : f.ValidControl) (htype : f.type = .rstStream)
    (hstream : f.streamID ≠ connectionStreamID) (hshift : Frame.paddingShift extra = 1) :
  ¬IgnoresFlags env f extra
  := by
  have hreads := readsData_of_type h htype (by decide)
  have hsize := h.sizeOf_type.1 (.inl htype)
  apply not_ignoresFlags_of_fault (createDirectConnection defaultConfiguration)
  · have hignored : (createDirectConnection defaultConfiguration : Connection D).streamIsIgnored
        f.streamID = false := by
      rw [Connection.streamIsIgnored]
      change (_ && decide (lastValidStreamID < f.streamID)) = false
      rw [decide_eq_false (not_lt.mpr (streamID_le f)), Bool.and_false]
    rw [handleGoodFrame_of_type (f := f.withFlags extra)
      ((Frame.type_withFlags f extra).trans htype) rfl]
    change (handleRST_STREAM env _ _).1 = _
    rw [handleRST_STREAM, Proc.current_bind]
    dsimp only
    rw [Frame.streamID_withFlags, hignored, if_neg Bool.false_ne_true, if_neg hstream,
      readUInt32_padded h hreads hshift (by omega)]
    rfl
  · rw [handleGoodFrame_of_type htype rfl]
    change (handleRST_STREAM env f _).1 ≠ _
    have hread : (readUInt32 f 0 : Operation D ℕ) = pure _ :=
      readUInt32_plain h hreads (by omega)
    have havoids : Avoids .outOfBounds (handleRST_STREAM env f) := by
      rw [handleRST_STREAM, hread]
      apply Avoids.current_bind
      intro s
      apply Avoids.ite (Avoids.pure _)
      apply Avoids.ite (connectionError_local _ _).avoids
      apply Avoids.bind (Avoids.pure _)
      intro error
      apply Avoids.bind (Avoids.change _)
      intro _
      apply Avoids.bind (Avoids.when (emit_local _).avoids)
      intro _
      apply Avoids.ite (connectionError_local _ _).avoids
      rw [streamHandleRST_STREAM, hread]
      apply Avoids.current_bind
      intro s
      cases s.getStream f.streamID with
      | none => exact Avoids.pure _
      | some st =>
        apply Avoids.ite (Avoids.pure _)
        apply Avoids.bind (transitionState_local _ _).avoids
        intro _
        apply Avoids.bind (Avoids.pure _)
        intro error
        apply Avoids.bind (modifyStream_local _ _).avoids
        intro _
        exact (finishWithError_local _ _ _).avoids
    exact havoids _

theorem windowUpdate_fault (h : f.ValidControl) (htype : f.type = .windowUpdate)
    (hshift : Frame.paddingShift extra = 1) :
  ¬IgnoresFlags env f extra
  := by
  have hreads := readsData_of_type h htype (by decide)
  have hsize := h.sizeOf_type.1 (.inr htype)
  apply not_ignoresFlags_of_fault (createDirectConnection defaultConfiguration)
  · rw [handleGoodFrame_of_type (f := f.withFlags extra)
      ((Frame.type_withFlags f extra).trans htype) rfl]
    change (handleWINDOW_UPDATE env _ _).1 = _
    rw [handleWINDOW_UPDATE, readUInt32_padded h hreads hshift (by omega)]
    rfl
  · rw [handleGoodFrame_of_type htype rfl]
    change (handleWINDOW_UPDATE env f _).1 ≠ _
    rw [handleWINDOW_UPDATE, readUInt32_plain h hreads (by omega), Proc.pure_bind,
      Proc.current_bind]
    split
    · rintro ⟨⟩
    · split
      · have havoids : ∀ delta, Avoids .outOfBounds (grantSession env delta) := by
          intro delta
          apply Avoids.current_bind
          intro s
          cases if validDelta delta then addOverflow s.sessionSendWindowSize delta else none with
          | none => exact (connectionError_local _ _).avoids
          | some sum =>
            apply Avoids.bind (Avoids.change _)
            intro _
            apply Avoids.forEach
            intro streamID
            apply Avoids.current_bind
            intro s
            cases s.getStream streamID with
            | none => exact Avoids.pure _
            | some st => exact Avoids.ite (Avoids.change _) (Avoids.pure _)
        exact havoids _ _
      · rintro ⟨⟩

/-! ### PING and SETTINGS -/

theorem ping_fault (h : f.ValidControl) (htype : f.type = .ping) (hextra : f.Undefined extra)
    (hstream : f.streamID = connectionStreamID) (hshift : Frame.paddingShift extra = 1) :
  ¬IgnoresFlags env f extra
  := by
  have hreads := readsData_of_type h htype (by decide)
  have hsize := h.sizeOf_type.2.1 htype
  have hplain : (readData f 8 : Operation D Octets) = pure _ :=
    readData_plain h hreads (by decide) (by omega)
  have hpadded : (readData (f.withFlags extra) 8 : Operation D Octets) = _ :=
    readData_padded h hreads hshift (by decide) (by omega)
  have hconn : ¬f.streamID ≠ connectionStreamID := not_not.mpr hstream
  rw [Frame.Undefined, htype] at hextra
  -- a connection that waits for the answer to a PING
  apply not_ignoresFlags_of_fault
    { createDirectConnection defaultConfiguration with lastPingSignature := some [] }
  · rw [handleGoodFrame_of_type (f := f.withFlags extra)
      ((Frame.type_withFlags f extra).trans htype) rfl]
    change (handlePING env _ _).1 = _
    rw [handlePING, Frame.streamID_withFlags, if_neg hconn,
      Frame.testFlag_withFlags h (show FrameFlag.ack ≠ 0 by decide) hextra]
    cases testFlag f.flags FrameFlag.ack with
    | true =>
      rw [if_pos rfl, readPong, hpadded]
      rfl
    | false =>
      rw [if_neg Bool.false_ne_true, hpadded]
      rfl
  · rw [handleGoodFrame_of_type htype rfl]
    change (handlePING env f _).1 ≠ _
    rw [handlePING, if_neg hconn]
    cases testFlag f.flags FrameFlag.ack with
    | true =>
      rw [if_pos rfl, readPong, hplain]
      rintro ⟨⟩
    | false =>
      rw [if_neg Bool.false_ne_true, hplain]
      rintro ⟨⟩

theorem settings_fault (h : f.ValidControl) (htype : f.type = .settings)
    (hextra : f.Undefined extra) (hstream : f.streamID = connectionStreamID)
    (hack : testFlag f.flags FrameFlag.ack = false) (hshift : Frame.paddingShift extra = 1) :
  ¬IgnoresFlags env f extra
  := by
  have hconn : ¬f.streamID ≠ connectionStreamID := not_not.mpr hstream
  rw [Frame.Undefined, htype] at hextra
  apply not_ignoresFlags_of_fault (createDirectConnection defaultConfiguration)
  · rw [handleGoodFrame_of_type (f := f.withFlags extra)
      ((Frame.type_withFlags f extra).trans htype) rfl]
    change (handleSETTINGS env _ _).1 = _
    rw [handleSETTINGS, Frame.streamID_withFlags,
      Frame.testFlag_withFlags h (show FrameFlag.ack ≠ 0 by decide) hextra, hack,
      readSettings_padded h htype hack hshift, Proc.current_bind, if_neg hconn]
    rfl
  · rw [handleGoodFrame_of_type htype rfl]
    change (handleSETTINGS env f _).1 ≠ _
    have hsettings := @readSettings_withFlags D env f 0 h htype hack rfl
    rw [Frame.withFlags_zero] at hsettings
    have havoids : Avoids .outOfBounds (handleSETTINGS env f) := by
      rw [handleSETTINGS, hsettings, hack]
      apply Avoids.current_bind
      intro s
      rw [if_neg hconn]
      apply Avoids.bind (acceptSettings_local _ _ _).avoids
      intro accepted
      apply Avoids.ite (Avoids.pure _)
      apply Avoids.bind (write_local _).avoids
      intro _
      exact (emit_local _).avoids
    exact havoids _

/-! ### GOAWAY -/

theorem finishActiveStreams_empty (h : ∀ streamID, s.getStream streamID = none) (streamIDs : List ℕ)
    (errorCode : ℕ) (message : String) :
  finishActiveStreams streamIDs errorCode message s = (.ok (), s)
  := by
  induction streamIDs with
  | nil => rfl
  | cons streamID streamIDs ih =>
    have hnone : (do
        let s ← current
        if (s.getStream streamID).any (·.isActive) then
          finishWithError streamID errorCode message
        else pure () : Operation D Unit) s = (.ok (), s) := by
      rw [Proc.current_bind, h]
      rfl
    exact (bind_of_ok hnone).trans ih

/-- A connection without streams whose streams have the parity of `streamID`. -/
def connectionFor (streamID : ℕ) : Connection D :=
  if streamID % 2 = 1 then createDirectConnection defaultConfiguration
  else createDirectServerConnection defaultConfiguration

structure Fresh (s : Connection D) : Prop where
  getStream : ∀ streamID, s.getStream streamID = none
  lastGoAway : s.lastGoAwayLastStreamID = none
  trace : s.trace = []
  aborted : s.connectionAborted = false
  socketOpen : s.socketOpen = true
  expected : s.continuationExpected = false

theorem fresh_connectionFor (streamID : ℕ) :
  Fresh (connectionFor streamID : Connection D)
    ∧ (connectionFor streamID : Connection D).localMask = streamID % 2
  := by
  rw [connectionFor]
  split
  next hodd => exact ⟨⟨fun _ => rfl, rfl, rfl, rfl, rfl, rfl⟩, hodd.symm⟩
  next heven =>
    refine ⟨⟨fun _ => rfl, rfl, rfl, rfl, rfl, rfl⟩, ?_⟩
    change 0 = _
    omega

theorem finishActiveStreams_fresh (h : Fresh s) {s' : Connection D}
    (hstreams : s'.streams = s.streams) (streamIDs : List ℕ) (errorCode : ℕ) (message : String) :
  finishActiveStreams streamIDs errorCode message s' = (.ok (), s')
  := by
  apply finishActiveStreams_empty
  intro streamID
  rw [Connection.getStream, hstreams]
  exact h.getStream streamID

/-- The first output for an accepted GOAWAY frame. -/
theorem acceptGOAWAY_trace (h : Fresh s) {lastStreamID : ℕ}
    (hmask : lastStreamID = 0 ∨ lastStreamID % 2 = s.localMask) (errorCode : ℕ) :
  (acceptGOAWAY env lastStreamID errorCode s).2.trace.head?
    = some (.signal (.receivedGOAWAY errorCode lastStreamID))
  := by
  have hok : ¬(lastStreamID ≠ 0 ∧ lastStreamID % 2 ≠ s.localMask) := by
    rintro ⟨hzero, hparity⟩
    exact hmask.elim hzero hparity
  have hfinish := fun s' hstreams => @finishActiveStreams_fresh D s h s' hstreams
  rw [acceptGOAWAY, Proc.current_bind, if_neg hok, h.lastGoAway, 
    if_neg (show ¬Option.any (· < lastStreamID) none = true from Bool.false_ne_true), change_bind,
    emit, change_bind]
  split
  · rw [bind_of_ok (hfinish _ (by rfl) _ _ _)]
    obtain ⟨outputs, houtputs⟩ := maybeCloseOnGoingAway_ok { s with
      lastGoAwayLastStreamID := some lastStreamID
      goingAway := true
      trace := s.trace ++ [.signal (.receivedGOAWAY errorCode lastStreamID)] }
    rw [houtputs, h.trace]
    rfl
  · rw [change_bind, bind_of_ok (hfinish _ (by rfl) _ _ _), closeSession, emit, change_apply,
      h.trace]
    rfl

/-- The first output for a connection error. -/
theorem connectionError_trace (h : Fresh s) (errorCode : ℕ) (message : String) :
  ∃ frame ok, (connectionError env errorCode message s).2.trace.head? = some (.wrote frame ok)
  := by
  have hfinish := fun s' hstreams => @finishActiveStreams_fresh D s h s' hstreams
  have hsend : ∀ {s' : Connection D}, s'.socketOpen = true → ∀ lastStreamID,
      sendGOAWAYFrame env errorCode lastStreamID s'
        = write env ⟨.goaway, FrameFlag.empty, connectionStreamID,
            toBigEndian lastStreamID ++ toBigEndian errorCode⟩ s' := by
    intro s' hopen lastStreamID
    rw [sendGOAWAYFrame, Proc.current_bind, hopen]
    rfl
  rw [connectionError, Proc.current_bind, h.aborted, if_neg Bool.false_ne_true, change_bind,
    bind_of_ok ((hsend (by exact h.socketOpen) _).trans (write_eq env _ _)),
    bind_of_ok (hfinish _ (by rfl) _ _ _), closeSession, emit, change_apply, h.trace]
  exact ⟨_, _, rfl⟩

theorem Connection.Like.trace {s' : Connection D} (h : s.Like s') :
  s.trace = s'.trace
  := (congrArg Connection.trace h.others).symm

theorem goaway_fault (h : f.ValidControl) (htype : f.type = .goaway)
    (hstream : f.streamID = connectionStreamID) (hshift : Frame.paddingShift extra = 1)
    (halike : ¬f.ReadsAlike) :
  ¬IgnoresFlags env f extra
  := by
  have hconn : ¬f.streamID ≠ connectionStreamID := not_not.mpr hstream
  have hsize := h.sizeOf_type.2.2 htype
  have hbase : ∀ s, handleGOAWAY env f s
      = acceptGOAWAY env (f.goawayFields frameHeaderSize).1 (f.goawayFields frameHeaderSize).2 s := by
    intro s
    have hzero := @handleGOAWAY_withFlags D env f h htype 0 s
    rw [Frame.withFlags_zero, if_neg hconn] at hzero
    rw [hzero]
    exact if_pos (show 0 + 8 ≤ f.payloadSize by omega)
  have hpadded : ∀ s, s.continuationExpected = false →
      handleGoodFrame env (f.withFlags extra) s = handleGOAWAY env (f.withFlags extra) s := by
    intro s hexpected
    exact handleGoodFrame_of_type ((Frame.type_withFlags f extra).trans htype) hexpected
  have hplain : ∀ s, s.continuationExpected = false →
      handleGoodFrame env f s = handleGOAWAY env f s := by
    intro s hexpected
    exact handleGoodFrame_of_type htype hexpected
  obtain ⟨hfresh, hmask⟩ := @fresh_connectionFor D (f.goawayFields frameHeaderSize).1
  set s : Connection D := connectionFor (f.goawayFields frameHeaderSize).1
  by_cases hfits : 1 + 8 ≤ f.payloadSize
  · -- both frames can be read, and something else is read
    have hfields : f.goawayFields frameHeaderSize ≠ f.goawayFields (frameHeaderSize + 1) := by
      intro hsame
      rw [Frame.ReadsAlike, htype] at halike
      exact halike (.inr ⟨by omega, hsame⟩)
    intro hignores
    have hlike := hignores.state s
    rw [hplain s hfresh.expected, hpadded s hfresh.expected, hbase,
      handleGOAWAY_withFlags h htype, if_neg hconn, hshift, if_pos hfits] at hlike
    have hhead := congrArg List.head? hlike.trace
    rw [acceptGOAWAY_trace hfresh (.inr hmask.symm)] at hhead
    by_cases hother : (f.goawayFields (frameHeaderSize + 1)).1 = 0
        ∨ (f.goawayFields (frameHeaderSize + 1)).1 % 2 = s.localMask
    · rw [acceptGOAWAY_trace hfresh hother] at hhead
      injection hhead with hhead
      injection hhead with hhead
      injection hhead with hcode hlast
      exact hfields (Prod.ext hlast hcode)
    · rw [not_or] at hother
      rw [acceptGOAWAY, Proc.current_bind, if_pos hother] at hhead
      obtain ⟨frame, ok, hwrote⟩ := @connectionError_trace D env s hfresh
        Http2Error.protocolError "GOAWAY with invalid last stream ID"
      rw [hwrote] at hhead
      cases hhead
  · apply not_ignoresFlags_of_fault s
    · rw [hpadded s hfresh.expected, handleGOAWAY_withFlags h htype, if_neg hconn, hshift,
        if_neg hfits]
    · rw [hplain s hfresh.expected, hbase]
      exact (acceptGOAWAY_local _ _).avoids s

/-! ### CONTINUATION -/

/-- The HEADERS frame that a CONTINUATION frame goes on with. -/
def Frame.headersFrame (f : Frame) : Frame :=
  ⟨(f.buffer.set 3 1).set 4 0⟩

theorem Frame.streamID_headersFrame (f : Frame) :
  f.headersFrame.streamID = f.streamID
  := by
  have hget : ∀ i, 4 < i → f.headersFrame.buffer[i]! = f.buffer[i]! := by
    intro i hi
    rw [headersFrame, getElem!_def, List.getElem?_set_ne (by omega),
      List.getElem?_set_ne (by omega), ← getElem!_def]
  rw [streamID, fromBigEndian, hget _ (by decide), hget _ (by decide), hget _ (by decide),
    hget _ (by decide)]
  rfl

theorem not_blockLike (h : f.ValidControl) (htype : f.type = .continuation)
    (hshift : Frame.paddingShift extra = 1) :
  ¬f.BlockLike (f.withFlags extra)
  := by
  rintro (hsame | ⟨-, -, -, hblock⟩)
  · have hpadded : testFlag extra.toNat FrameFlag.padded = true := by
      by_contra hnot
      rw [Frame.paddingShift, if_neg hnot] at hshift
      cases hshift
    rw [← Frame.padded_withFlags h, hsame, testFlag, Frame.and_padded h] at hpadded
    cases hpadded
  · have hbase := assembleHpackBlock_withFlags h htype 0 []
    rw [Frame.withFlags_zero] at hbase
    rw [assembleHpackBlock_withFlags h htype, hshift, hbase] at hblock
    change _ = some (f.buffer.drop frameHeaderSize ++ []) at hblock
    split at hblock
    next => cases hblock
    next hsize =>
      have hlength := congrArg List.length (Option.some.inj hblock)
      rw [List.append_nil, List.length_drop, h.length] at hlength
      change (f.buffer.drop (frameHeaderSize + 1) ++ []).length = _ at hlength
      rw [List.append_nil, List.length_drop, h.length] at hlength
      omega

theorem continuation_fault (h : f.ValidControl) (htype : f.type = .continuation)
    (hshift : Frame.paddingShift extra = 1) :
  ¬IgnoresFlags env f extra
  := by
  set s : Connection D := { createDirectConnection defaultConfiguration with
    continuationExpected := true
    continuedFrames := [f.headersFrame] }
  have hframes : ∀ g : Frame, g.type = .continuation → g.streamID = f.streamID →
      (handleGoodFrame env g s).2.continuedFrames = [f.headersFrame, g] := by
    intro g hcontinuation hstream
    have hsame : ¬g.streamID ≠ f.headersFrame.streamID := by
      rw [Frame.streamID_headersFrame, hstream]
      exact fun hne => hne rfl
    rw [handleGoodFrame_eq, if_neg (fun hne => hne.2 hcontinuation), hcontinuation]
    change (handleCONTINUATION env g s).2.continuedFrames = _
    rw [handleCONTINUATION_eq]
    change (if !true then _ else if g.streamID ≠ f.headersFrame.streamID then _ else
      appendBlock env g s).2.continuedFrames = _
    rw [if_neg (show ¬(!true) = true from Bool.false_ne_true), if_neg hsame,
      @appendBlock_eq D env f.headersFrame [] s rfl]
    rfl
  intro hignores
  have hlike := (hignores.state s).frames
  rw [hframes f htype rfl, hframes (f.withFlags extra)
    ((Frame.type_withFlags f extra).trans htype) (Frame.streamID_withFlags f extra)] at hlike
  obtain _ | ⟨-, hlike⟩ := hlike
  obtain _ | ⟨hblock, -⟩ := hlike
  exact not_blockLike h htype hshift hblock

/-! ### Where further flags are ignored -/

theorem not_ignoresFlags (h : f.ValidControl) (hextra : f.Undefined extra)
    (hpadded : testFlag extra.toNat FrameFlag.padded = true) (halike : ¬f.ReadsAlike) :
  ¬IgnoresFlags env f extra
  := by
  have hshift : Frame.paddingShift extra = 1 := if_pos hpadded
  have hcontrol := h.control
  unfold Frame.isControl at hcontrol
  unfold Frame.ReadsAlike at halike
  cases htype : f.type with
  | data | headers | pushPromise | lastFrameType =>
    rw [htype] at hcontrol
    cases hcontrol
  | priority =>
    rw [htype] at halike
    exact absurd trivial halike
  | rstStream =>
    rw [htype] at halike
    exact rstStream_fault h htype halike hshift
  | settings =>
    rw [htype] at halike
    obtain ⟨hstream, hack⟩ := not_or.mp halike
    exact settings_fault h htype hextra (not_not.mp hstream) (Bool.not_eq_true _ ▸ hack) hshift
  | ping =>
    rw [htype] at halike
    exact ping_fault h htype hextra (not_not.mp halike) hshift
  | goaway =>
    have hstream : f.streamID = connectionStreamID := by
      rw [htype] at halike
      exact not_not.mp (not_or.mp halike).1
    exact goaway_fault h htype hstream hshift halike
  | windowUpdate => exact windowUpdate_fault h htype hshift
  | continuation => exact continuation_fault h htype hshift

/-- A SETTINGS frame that allows 100 streams. -/
def settingsFrame : Frame :=
  ⟨[0, 0, 6, 4, 0, 0, 0, 0, 0] ++ [0, 3, 0, 0, 0, 100]⟩

theorem validControl_settingsFrame :
  settingsFrame.ValidControl
  := ⟨by decide, by decide, by decide, by decide⟩

end Http2
