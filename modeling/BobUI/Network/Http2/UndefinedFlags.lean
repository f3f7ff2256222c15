import BobUI.Network.Http2.FrameFlags

/-!
# Handlers and flags that are not defined

A frame of a type without padding is handled in the same way with flags that the protocol does not
define for it, unless the PADDED flag moves the octets that its handler reads.
-/

namespace Http2

open Proc

variable {D α β : Type}

/-! ### Procedures that do not look at the field block in progress -/

/-- The connection with other frames of a field block. -/
def Connection.setContinued (frames : List Frame) (s : Connection D) : Connection D :=
  { s with continuedFrames := frames }

/-- The frames of the field block in progress are neither seen nor changed. -/
def Blind (p : Operation D α) : Prop :=
  ∀ frames, Commutes (Connection.setContinued frames) p

/-- A procedure that is blind and does not read outside of a frame. -/
structure Local (p : Operation D α) : Prop where
  blind : Blind p
  avoids : Avoids .outOfBounds p

namespace Local

protected theorem pure (a : α) :
  Local (Pure.pure a : Operation D α)
  := ⟨fun _ => Commutes.pure a, Avoids.pure a⟩

theorem fail {fault : Fault} (h : fault ≠ .outOfBounds) :
  Local (Proc.fail fault : Operation D α)
  := ⟨fun _ => Commutes.fail fault, Avoids.fail h⟩

theorem change {f : Connection D → Connection D}
    (h : ∀ frames s, f (Connection.setContinued frames s) = Connection.setContinued frames (f s)) :
  Local (Proc.change f : Operation D Unit)
  := ⟨fun frames => Commutes.change (h frames), Avoids.change f⟩

protected theorem bind {p : Operation D α} {f : α → Operation D β} (hp : Local p)
    (hf : ∀ a, Local (f a)) :
  Local (p >>= f)
  := ⟨fun frames => (hp.blind frames).bind fun a => (hf a).blind frames,
    hp.avoids.bind fun a => (hf a).avoids⟩

theorem current_bind {f : Connection D → Operation D β}
    (h : ∀ frames s, f (Connection.setContinued frames s) = f s) (hf : ∀ s, Local (f s)) :
  Local (current >>= f)
  := ⟨fun frames => Commutes.current_bind (h frames) fun s => (hf s).blind frames,
    Avoids.current_bind fun s => (hf s).avoids⟩

theorem ite {c : Prop} [Decidable c] {p q : Operation D α} (hp : Local p) (hq : Local q) :
  Local (if c then p else q)
  := by
  split
  · exact hp
  · exact hq

theorem when {c : Prop} [Decidable c] {p : Operation D Unit} (h : Local p) :
  Local (Proc.when c p)
  := Local.ite h (Local.pure _)

theorem forEach {f : ℕ → Operation D Unit} (h : ∀ a, Local (f a)) (as : List ℕ) :
  Local (Proc.forEach f as)
  := ⟨fun frames => Commutes.forEach (fun a => (h a).blind frames) as,
    Avoids.forEach (fun a => (h a).avoids) as⟩

end Local

variable {env : Env D}

theorem emit_local (sig : Signal) :
  Local (emit sig : Operation D Unit)
  := Local.change fun _ _ => rfl

theorem write_local (frame : OutboundFrame) :
  Local (write env frame)
  := by
  apply Local.current_bind fun _ _ => rfl
  intro s
  apply Local.bind (Local.change fun _ _ => rfl)
  intro _
  exact Local.pure _

theorem modifyStream_local (streamID : ℕ) (f : Stream D → Stream D) :
  Local (modifyStream streamID f)
  := by
  apply Local.change
  intro frames s
  have hget : (Connection.setContinued frames s).getStream streamID = s.getStream streamID := rfl
  rw [hget]
  cases s.getStream streamID with
  | none => rfl
  | some st => rfl

theorem maybeCloseOnGoingAway_local :
  Local (maybeCloseOnGoingAway : Operation D Unit)
  := by
  apply Local.current_bind fun _ _ => rfl
  intro s
  apply Local.ite (Local.pure _)
  apply Local.ite (Local.pure _)
  exact Local.ite (emit_local _) (Local.pure _)

theorem setState_local (streamID : ℕ) (newState : StreamState) :
  Local (setState streamID newState : Operation D Unit)
  := by
  apply Local.current_bind fun _ _ => rfl
  intro s
  cases s.getStream streamID with
  | none => exact Local.pure _
  | some st =>
    apply Local.ite (Local.pure _)
    apply Local.bind (modifyStream_local _ _)
    intro _
    apply Local.bind (emit_local _)
    intro _
    exact Local.ite maybeCloseOnGoingAway_local (Local.pure _)

theorem transitionState_local (streamID : ℕ) (transition : StateTransition) :
  Local (transitionState streamID transition : Operation D Unit)
  := by
  apply Local.current_bind fun _ _ => rfl
  intro s
  cases s.getStream streamID with
  | none => exact Local.pure _
  | some st =>
    apply Local.ite (Local.fail (by decide))
    cases nextState st.state transition with
    | none => exact Local.pure _
    | some newState => exact setState_local streamID newState

theorem finishWithError_local (streamID errorCode : ℕ) (message : String) :
  Local (finishWithError streamID errorCode message : Operation D Unit)
  := by
  apply Local.bind (transitionState_local _ _)
  intro _
  exact emit_local _

theorem sendRST_STREAM_local (streamID errorCode : ℕ) :
  Local (sendRST_STREAM env streamID errorCode)
  := by
  apply Local.current_bind fun _ _ => rfl
  intro s
  cases s.getStream streamID with
  | none => exact Local.pure _
  | some st =>
    apply Local.ite (Local.pure _)
    apply Local.ite (Local.pure _)
    apply Local.bind (Local.change fun _ _ => rfl)
    intro _
    apply Local.bind (modifyStream_local _ _)
    intro _
    apply Local.bind (transitionState_local _ _)
    intro _
    exact write_local _

theorem streamError_local (streamID errorCode : ℕ) (message : String) :
  Local (streamError env streamID errorCode message)
  := by
  apply Local.bind (sendRST_STREAM_local _ _)
  intro _
  exact emit_local _

theorem sendGOAWAYFrame_local (errorCode lastStreamID : ℕ) :
  Local (sendGOAWAYFrame env errorCode lastStreamID)
  := by
  apply Local.current_bind fun _ _ => rfl
  intro s
  exact Local.ite (Local.pure _) (write_local _)

theorem finishActiveStreams_local (streamIDs : List ℕ) (errorCode : ℕ) (message : String) :
  Local (finishActiveStreams streamIDs errorCode message : Operation D Unit)
  := by
  apply Local.forEach
  intro streamID
  apply Local.current_bind fun _ _ => rfl
  intro s
  exact Local.ite (finishWithError_local _ _ _) (Local.pure _)

theorem connectionError_local (errorCode : ℕ) (message : String) :
  Local (connectionError env errorCode message)
  := by
  apply Local.current_bind fun _ _ => rfl
  intro s
  apply Local.ite (Local.pure _)
  apply Local.bind (Local.change fun _ _ => rfl)
  intro _
  apply Local.bind (sendGOAWAYFrame_local _ _)
  intro _
  apply Local.bind (finishActiveStreams_local _ _ _)
  intro _
  exact emit_local _

theorem deleteStream_local (streamID : ℕ) :
  Local (deleteStream env streamID)
  := by
  apply Local.current_bind fun _ _ => rfl
  intro s
  cases s.getStream streamID with
  | none => exact Local.pure _
  | some st =>
    apply Local.bind (Local.when (Local.bind (sendRST_STREAM_local _ _) fun _ => Local.pure _))
    intro _
    exact Local.change fun _ _ => rfl

theorem adjustSendWindow_local (delta : ℤ) (streamID : ℕ) :
  Local (adjustSendWindow env delta streamID)
  := by
  apply Local.current_bind fun _ _ => rfl
  intro s
  cases s.getStream streamID with
  | none => exact Local.pure _
  | some st =>
    dsimp only
    cases addOverflow st.sendWindow delta with
    | none => exact streamError_local _ _ _
    | some sum =>
      apply Local.bind (modifyStream_local _ _)
      intro _
      exact Local.ite (Local.change fun _ _ => rfl) (Local.pure _)

theorem refuseSetting_local (errorCode : ℕ) (message : String) :
  Local (do
    connectionError env errorCode message
    pure false)
  := (connectionError_local _ _).bind fun _ => Local.pure _

theorem acceptSetting_local (identifier : Option Settings) (newValue : ℕ) :
  Local (acceptSetting env identifier newValue)
  := by
  apply Local.current_bind fun _ _ => rfl
  intro s
  cases identifier with
  | none => exact Local.pure _
  | some setting =>
    cases setting with
    | headerTableSizeId =>
      apply Local.ite (refuseSetting_local _ _)
      refine Local.bind (Local.change fun frames s => ?_) fun _ => Local.pure _
      rw [pendTableSizeUpdate, pendTableSizeUpdate, apply_ite (Connection.setContinued frames),
        apply_ite (Connection.setContinued frames)]
      rfl
    | enablePushId =>
      apply Local.ite (refuseSetting_local _ _)
      cases s.connectionType with
      | client => exact Local.ite (refuseSetting_local _ _) (Local.pure _)
      | server => exact Local.bind (Local.change fun _ _ => rfl) fun _ => Local.pure _
    | maxConcurrentStreamsId =>
      exact Local.bind (Local.change fun _ _ => rfl) fun _ => Local.pure _
    | initialWindowSizeId =>
      apply Local.ite (refuseSetting_local _ _)
      apply Local.bind (Local.change fun _ _ => rfl)
      intro _
      exact (Local.forEach (adjustSendWindow_local _) _).bind fun _ => Local.pure _
    | maxFrameSizeId =>
      apply Local.ite (refuseSetting_local _ _)
      exact Local.bind (Local.change fun _ _ => rfl) fun _ => Local.pure _
    | maxHeaderListSizeId =>
      exact Local.bind (Local.change fun _ _ => rfl) fun _ => Local.pure _

theorem acceptSettings_local (f : Frame) (start count : ℕ) :
  Local (acceptSettings env f start count)
  := by
  induction count generalizing start with
  | zero => exact Local.pure _
  | succ count ih =>
    apply Local.bind (acceptSetting_local _ _)
    intro accepted
    exact Local.ite (Local.pure _) (ih _)

theorem streamHandleHEADERS_local (streamID flags : ℕ) (headers : HPack.HttpHeader) :
  Local (streamHandleHEADERS streamID flags headers : Operation D Unit)
  := by
  apply Local.current_bind fun _ _ => rfl
  intro s
  cases s.getStream streamID with
  | none => exact Local.pure _
  | some st =>
    apply Local.bind (Local.when (transitionState_local _ _))
    intro _
    apply Local.bind (Local.when (transitionState_local _ _))
    intro _
    apply Local.bind (Local.when ((modifyStream_local _ _).bind fun _ => emit_local _))
    intro _
    exact emit_local _

theorem readUInt32_blind (f : Frame) (offset : ℕ) :
  Blind (readUInt32 f offset : Operation D ℕ)
  := by
  intro frames
  rw [readUInt32]
  split
  · exact Commutes.fail _
  · exact Commutes.ite (Commutes.pure _) (Commutes.fail _)

theorem deliverHeaders_blind (first : Frame) :
  Blind (deliverHeaders env first)
  := by
  intro frames
  refine Commutes.current_bind (fun _ => rfl) fun s => ?_
  apply Commutes.ite (Commutes.pure _)
  apply Commutes.ite
  · apply Commutes.ite
    · apply Commutes.bind ((setState_local _ _).blind frames)
      intro _
      exact (deleteStream_local _).blind frames
    · exact Commutes.pure _
  · cases first.type with
    | headers =>
      cases s.getStream first.streamID with
      | none => exact Commutes.fail _
      | some st => exact (streamHandleHEADERS_local _ _ _).blind frames
    | pushPromise =>
      cases makePromiseKeyUrl env s.decoder.header with
      | none => exact Commutes.pure _
      | some promiseKey =>
        apply Commutes.ite (Commutes.pure _)
        apply Commutes.bind (readUInt32_blind _ _ frames)
        intro promiseID
        cases s.getStream promiseID with
        | none => exact Commutes.fail _
        | some st =>
          apply Commutes.bind ((transitionState_local _ _).blind frames)
          intro _
          apply Commutes.bind ((streamHandleHEADERS_local _ _ _).blind frames)
          intro _
          apply Commutes.bind ((emit_local _).blind frames)
          intro _
          exact Commutes.change fun _ => rfl
    | _ => exact Commutes.pure _

theorem decodeBlock_blind (first : Frame) (block : Octets) :
  Blind (decodeBlock env first block)
  := by
  intro frames
  refine Commutes.bind (Commutes.change fun _ => rfl) fun _ => ?_
  refine Commutes.current_bind (fun _ => rfl) fun s => ?_
  cases s.decoder.decodeHeaderFields env.huffman (.new block) with
  | none => exact Commutes.fail _
  | some result =>
    obtain ⟨decoded, decoder, _⟩ := result
    refine Commutes.bind (Commutes.change fun _ => rfl) fun _ => ?_
    apply Commutes.ite
    · exact deliverHeaders_blind first frames
    · exact (connectionError_local _ _).blind frames

theorem emptyBlock_blind (first : Frame) :
  Blind (emptyBlock env first)
  := by
  intro frames
  refine Commutes.current_bind (fun _ => rfl) fun s => ?_
  apply Commutes.ite
  · cases s.streams.lookup first.streamID with
    | none => exact Commutes.pure _
    | some entry =>
      cases entry with
      | none => exact Commutes.fail _
      | some st => exact (streamError_local _ _ _).blind frames
  · exact deliverHeaders_blind first frames

/-! ### The part of a handler behind what it reads -/

/-- `handleContinuedHEADERS` with the assembled block. -/
def takeBlock (env : Env D) (first : Frame) : Option Octets → Operation D Unit
  | none => Proc.fail .outOfBounds
  | some [] => emptyBlock env first
  | some block => decodeBlock env first block

def continueHeaders (env : Env D) (first : Frame) (block : Option Octets) : Operation D Unit := do
  let s ← current
  if first.type = .headers ∧ first.streamID ∈ s.streams ∧ !s.streamWasResetLocally first.streamID then
    match s.getStream first.streamID with
    | none => Proc.fail .nullStream
    | some st =>
      if !st.state.takesHeaders then
        streamError env first.streamID Http2Error.protocolError "HEADERS on invalid stream"
      else takeBlock env first block
  else takeBlock env first block

theorem takeBlock_blind (first : Frame) (block : Option Octets) :
  Blind (takeBlock env first block)
  := by
  intro frames
  match block with
  | none => exact Commutes.fail _
  | some [] => exact emptyBlock_blind first frames
  | some (c :: block) => exact decodeBlock_blind first (c :: block) frames

theorem continueHeaders_blind (first : Frame) (block : Option Octets) :
  Blind (continueHeaders env first block)
  := by
  intro frames
  refine Commutes.current_bind (fun _ => rfl) fun s => ?_
  apply Commutes.ite
  · cases s.getStream first.streamID with
    | none => exact Commutes.fail _
    | some st =>
      apply Commutes.ite ((streamError_local _ _ _).blind frames)
      exact takeBlock_blind first block frames
  · exact takeBlock_blind first block frames

theorem processBlock_eq (first : Frame) (s : Connection D) :
  processBlock env first s = takeBlock env first (assembleHpackBlock s.continuedFrames) s
  := by
  rw [processBlock, Proc.current_bind]
  match assembleHpackBlock s.continuedFrames with
  | none => rfl
  | some [] => rfl
  | some (c :: block) => rfl

variable {first : Frame} {rest : List Frame}

/-- The frames of the block are only assembled. -/
theorem handleContinuedHEADERS_eq {s : Connection D} (h : s.continuedFrames = first :: rest) :
  handleContinuedHEADERS env s
    = continueHeaders env first (assembleHpackBlock s.continuedFrames) s
  := by
  have hprocess : processBlock env first s = takeBlock env first _ s := processBlock_eq first s
  rw [handleContinuedHEADERS, Proc.current_bind, continueHeaders, Proc.current_bind]
  generalize assembleHpackBlock s.continuedFrames = block at hprocess
  rw [h]
  dsimp only
  split
  next =>
    cases s.getStream first.streamID with
    | none => rfl
    | some st =>
      dsimp only
      split
      · rfl
      · exact hprocess
  next => exact hprocess

/-- The effect of the last fragment of a field block. -/
theorem handleContinuedHEADERS_setContinued (s : Connection D) :
  handleContinuedHEADERS env (s.setContinued (first :: rest))
    = ((continueHeaders env first (assembleHpackBlock (first :: rest)) s).1,
      (continueHeaders env first (assembleHpackBlock (first :: rest)) s).2.setContinued
        (first :: rest))
  := by
  rw [@handleContinuedHEADERS_eq D env first rest _ rfl]
  exact continueHeaders_blind first _ (first :: rest) s

/-- `handleGOAWAY` with the last stream and the error. -/
def acceptGOAWAY (env : Env D) (lastStreamID errorCode : ℕ) : Operation D Unit := do
  let s ← current
  if lastStreamID ≠ 0 ∧ lastStreamID % 2 ≠ s.localMask then
    connectionError env Http2Error.protocolError "GOAWAY with invalid last stream ID"
  else if s.lastGoAwayLastStreamID.any (· < lastStreamID) then
    connectionError env Http2Error.protocolError "Repeated GOAWAY with invalid last stream ID"
  else
    change fun s => { s with lastGoAwayLastStreamID := some lastStreamID, goingAway := true }
    emit (.receivedGOAWAY errorCode lastStreamID)
    if errorCode = Http2Error.http2NoError then
      finishActiveStreams (cancelledStreams s lastStreamID) errorCode "Received GOAWAY"
      maybeCloseOnGoingAway
    else
      change fun s => { s with connectionAborted := true }
      finishActiveStreams s.streamIDs errorCode "Received GOAWAY"
      closeSession

theorem acceptGOAWAY_local (lastStreamID errorCode : ℕ) :
  Local (acceptGOAWAY env lastStreamID errorCode)
  := by
  apply Local.current_bind fun _ _ => rfl
  intro s
  apply Local.ite (connectionError_local _ _)
  apply Local.ite (connectionError_local _ _)
  apply Local.bind (Local.change fun _ _ => rfl)
  intro _
  apply Local.bind (emit_local _)
  intro _
  apply Local.ite
  · exact (finishActiveStreams_local _ _ _).bind fun _ => maybeCloseOnGoingAway_local
  · apply Local.bind (Local.change fun _ _ => rfl)
    intro _
    exact (finishActiveStreams_local _ _ _).bind fun _ => emit_local _

/-- The last stream and the error of a GOAWAY frame whose data begins at a position. -/
def Frame.goawayFields (f : Frame) (pos : ℕ) : ℕ × ℕ :=
  (fromBigEndian f.buffer pos &&& lastValidStreamID, fromBigEndian f.buffer (pos + 4))

/-! ### Handlers of frames with further flags -/

/-- What the protocol asks of further flags: none of them is defined for the type. -/
def Frame.Undefined (f : Frame) (extra : UInt8) : Prop :=
  extra.toNat &&& f.type.definedFlags = 0

variable {f : Frame} {extra : UInt8}

theorem readUInt32_unshifted (h : f.ValidControl) (hreads : f.readsData = true)
    (hshift : Frame.paddingShift extra = 0) (offset : ℕ) :
  (readUInt32 (f.withFlags extra) offset : Operation D ℕ) = readUInt32 f offset
  := by
  have hzero := readUInt32_withFlags (D := D) h hreads 0 offset
  rw [Frame.withFlags_zero] at hzero
  rw [readUInt32_withFlags h hreads, hshift, hzero]
  rfl

theorem readData_unshifted (h : f.ValidControl) (hreads : f.readsData = true)
    (hshift : Frame.paddingShift extra = 0) {size : ℕ} (hsize : size ≠ 0) :
  (readData (f.withFlags extra) size : Operation D Octets) = readData f size
  := by
  have hzero := readData_withFlags (D := D) h hreads 0 hsize
  rw [Frame.withFlags_zero] at hzero
  rw [readData_withFlags h hreads extra hsize, hshift, hzero]
  rfl

theorem readsData_of_type {type : FrameType} (h : f.ValidControl) (htype : f.type = type)
    (hne : type ≠ .priority) :
  f.readsData = true
  := by
  rw [Frame.readsData, h.control, htype, decide_eq_true hne]
  rfl

theorem acceptSettings_withFlags (f : Frame) (extra : UInt8) (start count : ℕ) (h : 4 < start) :
  acceptSettings env (f.withFlags extra) start count = acceptSettings env f start count
  := by
  induction count generalizing start with
  | zero => rfl
  | succ count ih =>
    rw [acceptSettings, acceptSettings, Frame.getElem_withFlags f extra (by omega),
      Frame.getElem_withFlags f extra (by omega), Frame.fromBigEndian_withFlags f extra (by omega),
      ih _ (by omega)]

theorem payloadSize_settings (h : f.ValidControl) (htype : f.type = .settings)
    (hack : testFlag f.flags FrameFlag.ack = false) :
  f.payloadSize % 6 = 0
  := by
  have hlt := f.payloadSize_lt
  have hle : ¬f.payloadSize > maxPayloadSize := by
    rw [maxPayloadSize]
    omega
  have hheader := h.header
  rw [Frame.validateHeader, if_neg hle, htype, hack] at hheader
  dsimp only at hheader
  rw [if_neg Bool.false_ne_true] at hheader
  by_contra hmod
  rw [if_pos hmod] at hheader
  cases hheader

/-- All settings of a SETTINGS frame are read, one after the other. -/
theorem readSettings_withFlags (h : f.ValidControl) (htype : f.type = .settings)
    (hack : testFlag f.flags FrameFlag.ack = false) (hshift : Frame.paddingShift extra = 0) :
  readSettings env (f.withFlags extra)
    = acceptSettings env f frameHeaderSize (f.payloadSize / 6)
  := by
  have hreads := readsData_of_type h htype (by decide)
  have hlt := f.payloadSize_lt
  have hmod := payloadSize_settings h htype hack
  have hsize : toUInt32 ((f.payloadSize : ℤ) - (0 : ℕ)) = f.payloadSize := by
    have hcast := Frame.toUInt32_of_nonneg
      (show (0 : ℤ) ≤ (f.payloadSize : ℤ) - (0 : ℕ) by omega) (by omega)
    omega
  rw [readSettings, Frame.dataSize_withFlags h hreads, Frame.dataBegin_withFlags h hreads,
    hshift, hsize]
  by_cases hzero : f.payloadSize = 0
  · rw [if_pos hzero, hzero]
    rfl
  · rw [if_neg hzero, if_neg hzero]
    dsimp only
    rw [Frame.length_withFlags, h.length, if_pos ⟨hmod, by omega⟩, Nat.add_zero,
      acceptSettings_withFlags f extra _ _ (by decide)]

/-- With the PADDED flag the settings are read past the end of the frame. -/
theorem readSettings_padded (h : f.ValidControl) (htype : f.type = .settings)
    (hack : testFlag f.flags FrameFlag.ack = false) (hshift : Frame.paddingShift extra = 1) :
  readSettings env (f.withFlags extra) = Proc.fail .outOfBounds
  := by
  have hreads := readsData_of_type h htype (by decide)
  have hlt := f.payloadSize_lt
  have hmod := payloadSize_settings h htype hack
  rw [readSettings, Frame.dataSize_withFlags h hreads, Frame.dataBegin_withFlags h hreads,
    hshift]
  by_cases hzero : f.payloadSize = 0
  · rw [if_pos hzero, hzero]
    rfl
  · have hsize : toUInt32 ((f.payloadSize : ℤ) - (1 : ℕ)) = f.payloadSize - 1 := by
      have hcast := Frame.toUInt32_of_nonneg
        (show (0 : ℤ) ≤ (f.payloadSize : ℤ) - (1 : ℕ) by omega) (by omega)
      omega
    have hend : ¬((f.payloadSize - 1) % 6 = 0
        ∧ frameHeaderSize + 1 + (f.payloadSize - 1) ≤ (f.withFlags extra).buffer.length) := by
      omega
    rw [if_neg hzero, hsize, if_neg (by omega)]
    exact if_neg hend

/-- The handler of a GOAWAY frame reads two numbers. -/
theorem handleGOAWAY_withFlags (h : f.ValidControl) (htype : f.type = .goaway) (extra : UInt8)
    (s : Connection D) :
  handleGOAWAY env (f.withFlags extra) s
    = if f.streamID ≠ connectionStreamID then
        connectionError env Http2Error.protocolError "GOAWAY on invalid stream" s
      else if Frame.paddingShift extra + 8 ≤ f.payloadSize then
        acceptGOAWAY env (f.goawayFields (frameHeaderSize + Frame.paddingShift extra)).1
          (f.goawayFields (frameHeaderSize + Frame.paddingShift extra)).2 s
      else (.error .outOfBounds, s)
  := by
  have hreads := readsData_of_type h htype (by decide)
  have hsize : 8 ≤ f.payloadSize := by
    have hlt := f.payloadSize_lt
    have hle : ¬f.payloadSize > maxPayloadSize := by
      rw [maxPayloadSize]
      omega
    have hheader := h.header
    rw [Frame.validateHeader, if_neg hle, htype] at hheader
    dsimp only at hheader
    by_contra hsmall
    rw [if_pos (not_le.mp hsmall)] at hheader
    cases hheader
  have hshift := Frame.paddingShift_le extra
  rw [handleGOAWAY, Proc.current_bind, Frame.streamID_withFlags]
  by_cases hstream : f.streamID ≠ connectionStreamID
  · rw [if_pos hstream, if_pos hstream]
  · rw [if_neg hstream, if_neg hstream, readUInt32_withFlags h hreads,
      readUInt32_withFlags h hreads, if_pos (by omega), Proc.pure_bind]
    by_cases hfits : Frame.paddingShift extra + 8 ≤ f.payloadSize
    · rw [if_pos (show Frame.paddingShift extra + 4 + 4 ≤ f.payloadSize from hfits), if_pos hfits]
      rfl
    · rw [if_neg (show ¬Frame.paddingShift extra + 4 + 4 ≤ f.payloadSize from hfits),
        if_neg hfits]
      rfl

/-! ### What is asked of further flags -/

/-- Frames of a field block that are read in the same way. -/
def Frame.BlockLike (f g : Frame) : Prop :=
  g = f ∨ f.type = .continuation ∧ g.type = .continuation ∧ g.streamID = f.streamID
    ∧ assembleHpackBlock [g] = assembleHpackBlock [f]

/-- Connections that differ at most in the flags of CONTINUATION frames. -/
structure Connection.Like (s s' : Connection D) : Prop where
  frames : List.Forall₂ Frame.BlockLike s.continuedFrames s'.continuedFrames
  others : s'.setContinued s.continuedFrames = s

theorem Connection.Like.refl (s : Connection D) :
  s.Like s
  := ⟨List.forall₂_same.mpr fun _ _ => .inl rfl, rfl⟩

/-- With further flags the frame has the same effect, in every state, and every setting of a
SETTINGS frame is read. -/
structure IgnoresFlags (env : Env D) (f : Frame) (extra : UInt8) : Prop where
  result : ∀ s, (handleGoodFrame env (f.withFlags extra) s).1 = (handleGoodFrame env f s).1
  state : ∀ s, (handleGoodFrame env f s).2.Like (handleGoodFrame env (f.withFlags extra) s).2
  settings : f.type = .settings → f.streamID = connectionStreamID →
    testFlag f.flags FrameFlag.ack = false →
    readSettings env (f.withFlags extra) = acceptSettings env f frameHeaderSize (f.payloadSize / 6)

/-- A frame whose handler does not read its data, or for which it finds the same an octet
later. -/
def Frame.ReadsAlike (f : Frame) : Prop :=
  match f.type with
  | .priority => True
  | .settings => f.streamID ≠ connectionStreamID ∨ testFlag f.flags FrameFlag.ack = true
  | .ping => f.streamID ≠ connectionStreamID
  | .goaway => f.streamID ≠ connectionStreamID ∨
      8 < f.payloadSize ∧ f.goawayFields frameHeaderSize = f.goawayFields (frameHeaderSize + 1)
  | .rstStream => f.streamID = connectionStreamID
  | _ => False

instance (f : Frame) : Decidable f.ReadsAlike := by
  unfold Frame.ReadsAlike
  split <;> infer_instance

/-- The handler of a frame of a type. -/
def handlerOf (env : Env D) (type : FrameType) (f : Frame) : Operation D Unit :=
  match type with
  | .data => handleDATA env f
  | .headers => handleHEADERS env f
  | .priority => handlePRIORITY env f
  | .rstStream => handleRST_STREAM env f
  | .settings => handleSETTINGS env f
  | .pushPromise => handlePUSH_PROMISE env f
  | .ping => handlePING env f
  | .goaway => handleGOAWAY env f
  | .windowUpdate => handleWINDOW_UPDATE env f
  | .continuation => handleCONTINUATION env f
  | .lastFrameType => pure ()

theorem handleGoodFrame_eq (f : Frame) (s : Connection D) :
  handleGoodFrame env f s
    = if s.continuationExpected ∧ f.type ≠ .continuation then
        connectionError env Http2Error.protocolError "CONTINUATION expected" s
      else handlerOf env f.type f s
  := by
  rw [handleGoodFrame, Proc.current_bind]
  split
  · rfl
  · cases f.type <;> rfl

/-- The handlers of the types but CONTINUATION do the same with further flags. -/
theorem handlerOf_withFlags (h : f.ValidControl) (hextra : f.Undefined extra)
    (htype : f.type ≠ .continuation)
    (halike : testFlag extra.toNat FrameFlag.padded = false ∨ f.ReadsAlike) (s : Connection D) :
  handlerOf env f.type (f.withFlags extra) s = handlerOf env f.type f s
  := by
  have hshift : ¬f.ReadsAlike → Frame.paddingShift extra = 0 := by
    intro hnot
    rw [Frame.paddingShift, halike.resolve_right hnot]
    rfl
  cases heq : f.type with
  | data | headers | pushPromise | lastFrameType =>
    have hcontrol := h.control
    rw [Frame.isControl, heq] at hcontrol
    cases hcontrol
  | continuation => exact absurd heq htype
  | priority =>
    change handlePRIORITY env _ s = handlePRIORITY env _ s
    simp only [handlePRIORITY, Frame.streamID_withFlags]
  | rstStream =>
    change handleRST_STREAM env _ s = handleRST_STREAM env _ s
    have hreads := readsData_of_type h heq (by decide)
    by_cases hstream : f.streamID = connectionStreamID
    · simp only [handleRST_STREAM, Frame.streamID_withFlags, if_pos hstream]
    · have hzero := hshift (by rwa [Frame.ReadsAlike, heq])
      simp only [handleRST_STREAM, streamHandleRST_STREAM, readUInt32_unshifted h hreads hzero]
      rw [Frame.streamID_withFlags]
  | windowUpdate =>
    change handleWINDOW_UPDATE env _ s = handleWINDOW_UPDATE env _ s
    have hreads := readsData_of_type h heq (by decide)
    have hzero := hshift (by
      rw [Frame.ReadsAlike, heq]
      exact id)
    simp only [handleWINDOW_UPDATE, streamHandleWINDOW_UPDATE, Frame.streamID_withFlags,
      readUInt32_unshifted h hreads hzero]
  | ping =>
    change handlePING env _ s = handlePING env _ s
    have hreads := readsData_of_type h heq (by decide)
    rw [Frame.Undefined, heq] at hextra
    by_cases hstream : f.streamID ≠ connectionStreamID
    · simp only [handlePING, Frame.streamID_withFlags, if_pos hstream]
    · have hzero := hshift (by rwa [Frame.ReadsAlike, heq])
      simp only [handlePING, readPong, Frame.streamID_withFlags,
        Frame.testFlag_withFlags h (show FrameFlag.ack ≠ 0 by decide) hextra,
        readData_unshifted h hreads hzero (show 8 ≠ 0 by decide)]
  | settings =>
    change handleSETTINGS env _ s = handleSETTINGS env _ s
    rw [Frame.Undefined, heq] at hextra
    have hack := Frame.testFlag_withFlags h (show FrameFlag.ack ≠ 0 by decide) hextra
    by_cases hread : f.streamID ≠ connectionStreamID ∨ testFlag f.flags FrameFlag.ack = true
    · rcases hread with hstream | hflag
      · simp only [handleSETTINGS, Frame.streamID_withFlags, if_pos hstream]
      · simp only [handleSETTINGS, Frame.streamID_withFlags, hack, if_pos hflag,
          Frame.payloadSize_withFlags]
    · have hzero := hshift (by rwa [Frame.ReadsAlike, heq])
      rw [not_or, Bool.not_eq_true] at hread
      have hsettings := @readSettings_withFlags D env f extra h heq hread.2 hzero
      have hbase := @readSettings_withFlags D env f 0 h heq hread.2 rfl
      rw [Frame.withFlags_zero] at hbase
      simp only [handleSETTINGS, Frame.streamID_withFlags, hack, Frame.payloadSize_withFlags,
        hsettings, hbase]
  | goaway =>
    change handleGOAWAY env _ s = handleGOAWAY env _ s
    have hbase := @handleGOAWAY_withFlags D env f h heq 0 s
    rw [Frame.withFlags_zero] at hbase
    rw [handleGOAWAY_withFlags h heq, hbase]
    by_cases halike : f.ReadsAlike
    · rw [Frame.ReadsAlike, heq] at halike
      rcases halike with hstream | ⟨hsize, hfields⟩
      · rw [if_pos hstream, if_pos hstream]
      · have hone := Frame.paddingShift_le extra
        have hshifted : f.goawayFields (frameHeaderSize + Frame.paddingShift extra)
            = f.goawayFields frameHeaderSize := by
          rcases Nat.le_one_iff_eq_zero_or_eq_one.mp hone with hone | hone
          · rw [hone]
            rfl
          · rw [hone, hfields]
        rw [if_pos (show Frame.paddingShift extra + 8 ≤ f.payloadSize by omega),
          if_pos (show Frame.paddingShift 0 + 8 ≤ f.payloadSize from
            (show 0 + 8 ≤ f.payloadSize by omega)), hshifted]
        rfl
    · rw [hshift halike]
      rfl

/-! ### CONTINUATION -/

theorem assembleHpackBlock_append (frames : List Frame) {g : Frame}
    (h : assembleHpackBlock [g] = assembleHpackBlock [f]) :
  assembleHpackBlock (frames ++ [g]) = assembleHpackBlock (frames ++ [f])
  := by
  induction frames with
  | nil => exact h
  | cons frame frames ih =>
    rw [List.cons_append, List.cons_append, assembleHpackBlock, assembleHpackBlock, ih]

/-- What `handleCONTINUATION` does with a frame that goes on with the block in progress. -/
def appendBlock (env : Env D) (f : Frame) : Operation D Unit := do
  change fun s => { s with continuedFrames := s.continuedFrames ++ [f] }
  if testFlag f.flags FrameFlag.endHeaders then
    change fun s => { s with continuationExpected := false }
    handleContinuedHEADERS env
  else pure ()

/-- The end of a block, without the frames of the block. -/
def endBlock (env : Env D) (first : Frame) (block : Option Octets) (ends : Bool) :
    Operation D Unit :=
  if ends then do
    change fun s => { s with continuationExpected := false }
    continueHeaders env first block
  else pure ()

/-- A fragment is appended, and the last one ends the block. -/
theorem appendBlock_eq {s : Connection D} (h : s.continuedFrames = first :: rest) (f : Frame) :
  appendBlock env f s
    = ((endBlock env first (assembleHpackBlock (first :: (rest ++ [f])))
        (testFlag f.flags FrameFlag.endHeaders) s).1,
      (endBlock env first (assembleHpackBlock (first :: (rest ++ [f])))
        (testFlag f.flags FrameFlag.endHeaders) s).2.setContinued (first :: (rest ++ [f])))
  := by
  rw [appendBlock, change_bind, h, endBlock]
  cases testFlag f.flags FrameFlag.endHeaders with
  | true => exact handleContinuedHEADERS_setContinued { s with continuationExpected := false }
  | false => rfl

theorem handleCONTINUATION_eq (f : Frame) (s : Connection D) :
  handleCONTINUATION env f s
    = match s.continuedFrames with
      | [] =>
        connectionError env Http2Error.protocolError
          "CONTINUATION without a preceding HEADERS or PUSH_PROMISE" s
      | first :: _ =>
        if !s.continuationExpected then
          connectionError env Http2Error.protocolError
            "CONTINUATION after a frame with the END_HEADERS flag set" s
        else if f.streamID ≠ first.streamID then
          connectionError env Http2Error.protocolError "CONTINUATION on invalid stream" s
        else appendBlock env f s
  := by
  rw [handleCONTINUATION, Proc.current_bind]
  cases s.continuedFrames with
  | nil => rfl
  | cons first rest =>
    dsimp only
    split
    · rfl
    · split
      · rfl
      · rfl

theorem handleCONTINUATION_withFlags (h : f.ValidControl) (htype : f.type = .continuation)
    (hextra : f.Undefined extra) (hshift : Frame.paddingShift extra = 0) (s : Connection D) :
  (handleCONTINUATION env (f.withFlags extra) s).1 = (handleCONTINUATION env f s).1
    ∧ (handleCONTINUATION env f s).2.Like (handleCONTINUATION env (f.withFlags extra) s).2
  := by
  have hsame : ∀ p : Except Fault Unit × Connection D, p.1 = p.1 ∧ p.2.Like p.2 :=
    fun p => ⟨rfl, .refl p.2⟩
  have hblock : assembleHpackBlock [f.withFlags extra] = assembleHpackBlock [f] := by
    have hbase := assembleHpackBlock_withFlags h htype 0 []
    rw [Frame.withFlags_zero] at hbase
    rw [assembleHpackBlock_withFlags h htype, hshift, hbase]
    rfl
  rw [Frame.Undefined, htype] at hextra
  rw [handleCONTINUATION_eq, handleCONTINUATION_eq, Frame.streamID_withFlags]
  cases hframes : s.continuedFrames with
  | nil => exact hsame _
  | cons first rest =>
    dsimp only
    split
    · exact hsame _
    · split
      · exact hsame _
      · have hend := Frame.testFlag_withFlags h (show FrameFlag.endHeaders ≠ 0 by decide) hextra
        have hassembled := assembleHpackBlock_append (first :: rest) hblock
        rw [appendBlock_eq hframes, appendBlock_eq hframes, hend]
        rw [List.cons_append, List.cons_append] at hassembled
        rw [hassembled]
        refine ⟨rfl, ?_, rfl⟩
        refine .cons (.inl rfl) (List.rel_append ?_ ?_)
        · exact List.forall₂_same.mpr fun _ _ => .inl rfl
        · refine .cons (.inr ⟨htype, ?_, Frame.streamID_withFlags f extra, hblock⟩) .nil
          rw [Frame.type_withFlags, htype]

/-- Further flags are ignored where the PADDED flag is not among them. -/
theorem ignoresFlags (h : f.ValidControl) (hextra : f.Undefined extra)
    (halike : testFlag extra.toNat FrameFlag.padded = false ∨ f.ReadsAlike) :
  IgnoresFlags env f extra
  := by
  have hboth : ∀ s, (handleGoodFrame env (f.withFlags extra) s).1 = (handleGoodFrame env f s).1
      ∧ (handleGoodFrame env f s).2.Like (handleGoodFrame env (f.withFlags extra) s).2 := by
    intro s
    rw [handleGoodFrame_eq, handleGoodFrame_eq, Frame.type_withFlags]
    split
    next => exact ⟨rfl, .refl _⟩
    next =>
      by_cases htype : f.type = .continuation
      · have hnot : ¬f.ReadsAlike := by
          rw [Frame.ReadsAlike, htype]
          exact id
        have hshift : Frame.paddingShift extra = 0 := by
          rw [Frame.paddingShift, halike.resolve_right hnot]
          rfl
        rw [htype]
        exact handleCONTINUATION_withFlags h htype hextra hshift s
      · rw [handlerOf_withFlags h hextra htype halike]
        exact ⟨rfl, .refl _⟩
  refine ⟨fun s => (hboth s).1, fun s => (hboth s).2, ?_⟩
  intro htype hstream hack
  have hnot : ¬f.ReadsAlike := by
    rw [Frame.ReadsAlike, htype, not_or, not_not, Bool.not_eq_true]
    exact ⟨hstream, hack⟩
  apply readSettings_withFlags h htype hack
  rw [Frame.paddingShift, halike.resolve_right hnot]
  rfl

end Http2
