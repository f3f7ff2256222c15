import BobUI.Network.Http2.ConnectionMoves

/-!
# The moves of the handlers of frames

What the handlers of a connection do to its view.
-/

namespace Http2

open Proc

variable {D : Type} {K : Kind → Prop} {env : Env D} {s s' : Connection D} {streamID : ℕ}

/-! ### DATA -/

/-- A stream may be closed in every state. -/
theorem setState_closed_moves :
  Along (Reach K) (setState streamID .closed) s
  := by
  apply setState_moves
  intro st _
  cases st.state <;> simp [StreamState.MayBecome]

variable {f first : Frame} {stream : Option ℕ}

theorem receiveEND_STREAM_moves :
  Along (Reach K) (receiveEND_STREAM env stream f) s
  := by
  apply Along.current_bind
  apply Along.ite
  · intro _
    cases stream.filter s.streamIsIgnored with
    | none => exact emit_moves (by simp)
    | some streamID =>
      apply Along.bind setState_closed_moves
      intro _ s₁ _
      exact deleteStream_moves
  · intro _
    exact Along.pure _ s

/-- The debit of the session window. -/
def Connection.debited (s : Connection D) (size : ℕ) : Connection D :=
  { s with sessionReceiveWindowSize := s.sessionReceiveWindowSize - size }

/-- A DATA frame goes to its stream, unless this has been reset. -/
def debitedStream (env : Env D) (stream : Option ℕ) (f : Frame) : Operation D Unit :=
  match stream with
  | none => pure ()
  | some streamID => streamHandleDATA env streamID f

/-- What `handleDATA` does once the session window has been debited. -/
def debitedSession (env : Env D) (stream : Option ℕ) (f : Frame) : Operation D Unit := do
  debitedStream env stream f
  receiveEND_STREAM env stream f
  replenishSessionWindow

/-- A frame within the session window is debited. -/
theorem acceptDATA_of_fits (h : (f.payloadSize : ℤ) ≤ s.sessionReceiveWindowSize) :
  acceptDATA env stream f s = debitedSession env stream f (s.debited f.payloadSize)
  := by
  rw [acceptDATA, current_bind, if_neg (not_lt.mpr h)]
  cases stream with
  | none => rfl
  | some streamID => rfl

theorem acceptDATA_of_exceeds (h : s.sessionReceiveWindowSize < f.payloadSize) :
  acceptDATA env stream f s =
    connectionError env Http2Error.flowControlError "Flow control error" s
  := by
  rw [acceptDATA, current_bind, if_pos h]

/-- The frames that are not accepted leave the windows as they are; the others go to
`acceptDATA`. -/
theorem handleDATA_cases (env : Env D) (f : Frame) (s : Connection D) :
  (∀ K, Along (Reach K) (handleDATA env f) s) ∨
  f.streamID ≠ connectionStreamID ∧ ∃ stream, (stream = none ∨ stream = some f.streamID) ∧
    handleDATA env f s = acceptDATA env stream f s
  := by
  rw [handleDATA]
  by_cases hid : f.streamID = connectionStreamID
  · left
    intro K
    apply Along.current_bind
    rw [if_pos hid]
    exact connectionError_moves
  · by_cases hinvalid : s.isInvalidStream f.streamID = true
    · left
      intro K
      apply Along.current_bind
      rw [if_neg hid, if_pos hinvalid]
      exact connectionError_moves
    · by_cases hreset : s.streamWasResetLocally f.streamID = true
      · right
        use hid, none, .inl rfl
        rw [current_bind, if_neg hid, if_neg hinvalid, if_pos hreset]
      · cases hstream : s.getStream f.streamID with
        | none =>
          left
          intro K
          apply Along.current_bind
          rw [if_neg hid, if_neg hinvalid, if_neg hreset, hstream]
          exact Along.fail _ s
        | some st =>
          by_cases hstate : st.state = .halfClosedRemote ∨ st.state = .closed
          · left
            intro K
            apply Along.current_bind
            rw [if_neg hid, if_neg hinvalid, if_neg hreset, hstream]
            dsimp only
            rw [if_pos hstate]
            exact streamError_moves _ _
          · right
            use hid, some f.streamID, .inr rfl
            rw [current_bind, if_neg hid, if_neg hinvalid, if_neg hreset, hstream]
            dsimp only
            rw [if_neg hstate]

/-! ### HEADERS, PUSH_PROMISE and CONTINUATION -/

theorem deliverHeaders_moves :
  Along (Reach K) (deliverHeaders env first) s
  := by
  apply Along.current_bind
  apply Along.guard (Along.pure _ s)
  intro _
  apply Along.ite
  · intro _
    apply Along.ite
    · intro _
      apply Along.bind setState_closed_moves
      intro _ s₁ _
      exact deleteStream_moves
    · intro _
      exact Along.pure _ s
  · intro _
    cases first.type with
    | headers =>
      cases s.getStream first.streamID with
      | none => exact Along.fail _ s
      | some st => exact streamHandleHEADERS_moves
    | pushPromise =>
      dsimp only
      cases makePromiseKeyUrl env s.decoder.header with
      | none => exact Along.pure _ s
      | some promiseKey =>
        apply Along.guard (Along.pure _ s)
        intro _
        apply readUInt32_bind
        intro promiseID _
        cases s.getStream promiseID with
        | none => exact Along.fail _ s
        | some st =>
          apply Along.bind (transitionState_moves _)
          intro _ s₁ _
          apply Along.bind streamHandleHEADERS_moves
          intro _ s₂ _
          apply Along.bind (emit_moves (by simp))
          intro _ s₃ _
          exact Along.change (Reach.of_view_eq rfl)
    | _ => exact Along.pure _ s

theorem decodeBlock_moves {block : Octets} (hK : K .decode) :
  Along (Reach K) (decodeBlock env first block) s
  := by
  apply Along.change_bind (Reach.special hK (.decode s.view block))
  apply Along.current_bind
  dsimp only
  cases s.decoder.decodeHeaderFields env.huffman (.new block) with
  | none => exact Along.fail _ _
  | some result =>
    obtain ⟨decoded, decoder, _⟩ := result
    apply Along.change_bind (Reach.of_view_eq rfl)
    apply Along.guard deliverHeaders_moves
    intro _
    exact connectionError_moves

theorem emptyBlock_moves :
  Along (Reach K) (emptyBlock env first) s
  := by
  apply Along.current_bind
  apply Along.ite
  · intro _
    cases s.streams.lookup first.streamID with
    | none => exact Along.pure _ s
    | some entry =>
      cases entry with
      | none => exact Along.fail _ s
      | some st => exact streamError_moves _ _
  · intro _
    exact deliverHeaders_moves

theorem processBlock_moves (hK : K .decode) :
  Along (Reach K) (processBlock env first) s
  := by
  apply Along.current_bind
  cases assembleHpackBlock s.continuedFrames with
  | none => exact Along.fail _ s
  | some block =>
    cases block with
    | nil => exact emptyBlock_moves
    | cons octet rest => exact decodeBlock_moves hK

theorem handleContinuedHEADERS_moves (hK : K .decode) :
  Along (Reach K) (handleContinuedHEADERS env) s
  := by
  apply Along.current_bind
  cases s.continuedFrames with
  | nil => exact Along.pure _ s
  | cons first frames =>
    apply Along.ite
    · intro _
      cases s.getStream first.streamID with
      | none => exact Along.fail _ s
      | some st =>
        apply Along.guard (streamError_moves _ _)
        intro _
        exact processBlock_moves hK
    · intro _
      exact processBlock_moves hK

theorem beginBlock_moves (hdecode : K .decode) (hK : K .continuation) :
  Along (Reach K) (beginBlock env f) s
  := by
  apply Along.change_bind
    (Reach.special hK (.continuation s.view s.continuationExpected [f]))
  apply Along.guard (handleContinuedHEADERS_moves hdecode)
  intro _
  exact Along.change (Reach.special hK (.continuation _ true [f]))

theorem handlePRIORITY_moves :
  Along (Reach K) (handlePRIORITY env f) s
  := by
  apply Along.current_bind
  apply Along.guard (Along.pure _ s)
  intro _
  apply Along.guard connectionError_moves
  intro _
  apply Along.guard connectionError_moves
  intro _
  exact Along.pure _ s

theorem acceptHEADERS_moves (hdecode : K .decode) (hK : K .continuation) :
  Along (Reach K) (acceptHEADERS env f) s
  := by
  apply Along.bind (Along.when fun _ => handlePRIORITY_moves)
  intro _ s₁ _
  exact beginBlock_moves hdecode hK

/-- The peer is told of a stream that is not ignored. -/
theorem announceStream_moves (hle : streamID ≤ s.lastStreamToProcess) :
  Along (Reach K) (emit (.newIncomingStream streamID)) s
  := Reach.routine (.announce s.view streamID hle)

/-- What the handlers of a new stream need to know of it. -/
theorem newStream_moves {useDownloadBuffer : Bool} {new : StreamState} (hnew : new ≠ .idle) :
  Along (Reach K) (setState streamID new)
    { s.putStream streamID (.new s useDownloadBuffer) with lastIncomingStreamID := streamID }
  := by
  apply setState_moves
  intro st hstream
  have hst : st = .new s useDownloadBuffer :=
    Option.some.inj (hstream.symm.trans (s.getStream_putStream streamID _))
  rw [hst]
  exact .inr hnew

theorem newIncomingStream_moves (hpreface : K .preface) (hdecode : K .decode)
    (hK : K .continuation) (hmask : f.streamID % 2 = s.remoteMask)
    (hlast : s.lastIncomingStreamID < f.streamID) :
  Along (Reach K) (newIncomingStream env f) s
  := by
  apply Along.current_bind
  obtain ⟨s₁, hreach, hsame, heq | ⟨-, hmem, heq⟩⟩ :=
    createStreamInternal_impl_eq env hpreface f.streamID true s
  · apply Along.bind_of_ok heq hreach
    exact Along.fail _ s₁
  · have hmask₁ : f.streamID % 2 = s₁.remoteMask := by
      rw [hmask, Connection.remoteMask, Connection.remoteMask, hsame.connectionType]
    have hlast₁ : s₁.lastIncomingStreamID < f.streamID := by
      rw [hsame.lastIncomingStreamID]
      exact hlast
    have hcreated := createRemote_moves (K := K) true hmem (.inl hmask₁) hlast₁
      Nat.and_le_right
    apply Along.of_eq ((bind_of_ok heq).trans (change_bind ..)) (trans_of (Reach K) hreach hcreated)
    apply Along.ite
    · intro _
      apply Along.bind (newStream_moves (by decide))
      intro _ s₂ _
      apply Along.bind (streamError_moves _ _)
      intro _ s₃ _
      exact emit_moves (by simp)
    · intro _
      apply Along.ite
      · intro hignored
        rw [Bool.not_eq_true', Connection.streamIsIgnored, decide_eq_true hmask, Bool.true_and,
          decide_eq_false_iff_not, not_lt, ← hsame.lastStreamToProcess] at hignored
        apply Along.bind
        · apply announceStream_moves
          exact hignored
        · intro _ s₂ _
          exact acceptHEADERS_moves hdecode hK
      · intro _
        apply Along.guard connectionError_moves
        intro _
        exact acceptHEADERS_moves hdecode hK

theorem handleHEADERS_moves (hpreface : K .preface) (hdecode : K .decode)
    (hK : K .continuation) :
  Along (Reach K) (handleHEADERS env f) s
  := by
  apply Along.current_bind
  apply Along.guard connectionError_moves
  intro _
  apply Along.ite
  · intro h
    exact newIncomingStream_moves hpreface hdecode hK h.1 h.2
  · intro _
    apply Along.guard (acceptHEADERS_moves hdecode hK)
    intro _
    apply Along.guard connectionError_moves
    intro _
    apply Along.guard connectionError_moves
    intro _
    exact acceptHEADERS_moves hdecode hK

theorem reserveStream_moves (hpreface : K .preface) (hdecode : K .decode)
    (hK : K .continuation) :
  Along (Reach K) (reserveStream env f) s
  := by
  apply readUInt32_bind
  intro reservedID _
  apply Along.current_bind
  apply Along.guard connectionError_moves
  intro h
  rw [not_or, not_or, not_le, not_lt] at h
  obtain ⟨hodd, hlast, hle⟩ := h
  obtain ⟨s₁, hreach, hsame, heq | ⟨-, hmem, heq⟩⟩ :=
    createStreamInternal_impl_eq env hpreface reservedID true s
  · apply Along.bind_of_ok heq hreach
    exact connectionError_moves
  · rw [← hsame.lastIncomingStreamID] at hlast
    have hcreated := createRemote_moves (K := K) true hmem (.inr (by omega)) hlast hle
    apply Along.of_eq ((bind_of_ok heq).trans (change_bind ..))
      (trans_of (Reach K) hreach hcreated)
    apply Along.bind (newStream_moves (by decide))
    intro _ s₂ _
    apply Along.ite
    · intro _
      apply Along.bind (streamError_moves _ _)
      intro _ s₃ _
      exact emit_moves (by simp)
    · intro _
      apply Along.guard (streamError_moves _ _)
      intro _
      exact beginBlock_moves hdecode hK

theorem handlePUSH_PROMISE_moves (hpreface : K .preface) (hdecode : K .decode)
    (hK : K .continuation) :
  Along (Reach K) (handlePUSH_PROMISE env f) s
  := by
  apply Along.current_bind
  apply Along.guard connectionError_moves
  intro _
  apply Along.guard connectionError_moves
  intro _
  cases s.streams.lookup f.streamID with
  | none => exact connectionError_moves
  | some associated =>
    apply Along.guard connectionError_moves
    intro _
    cases associated with
    | none => exact Along.fail _ s
    | some st =>
      apply Along.guard connectionError_moves
      intro _
      exact reserveStream_moves hpreface hdecode hK

theorem handleCONTINUATION_moves (hdecode : K .decode) (hK : K .continuation) :
  Along (Reach K) (handleCONTINUATION env f) s
  := by
  apply Along.current_bind
  cases s.continuedFrames with
  | nil => exact connectionError_moves
  | cons first frames =>
    apply Along.guard connectionError_moves
    intro _
    apply Along.guard connectionError_moves
    intro _
    apply Along.change_bind (Reach.special hK
      (.continuation s.view s.continuationExpected (s.continuedFrames ++ [f])))
    apply Along.ite
    · intro _
      apply Along.change_bind (Reach.special hK (.continuation _ false _))
      exact handleContinuedHEADERS_moves hdecode
    · intro _
      exact Along.pure _ _

/-! ### RST_STREAM -/

theorem lookupOrInsert_moves (hK : K .nullEntry) (hid : streamID ≠ connectionStreamID) :
  Along (Reach K) (lookupOrInsert streamID) s
  := by
  rw [Along, lookupOrInsert, change_apply]
  by_cases hmem : streamID ∈ s.streams
  · rw [if_pos hmem]
    exact refl_of (Reach K) s
  · rw [if_neg hmem]
    apply Reach.special hK
    have htable : (fun id => ((s.streams.insert streamID none).lookup id).map
        (Option.map Stream.view)) = Function.update s.view.table streamID (some none) := by
      funext id
      by_cases h : id = streamID
      · subst h
        simp
      · rw [Function.update_of_ne h, AList.lookup_insert_ne h]
        rfl
    have hview : Connection.view { s with streams := s.streams.insert streamID none } =
        { s.view with table := Function.update s.view.table streamID (some none) } := by
      rw [← htable]
      rfl
    rw [hview]
    exact .nullEntry s.view streamID ((s.view_table_eq_none _).mpr hmem) hid

theorem handleRST_STREAM_moves (hK : K .nullEntry) :
  Along (Reach K) (handleRST_STREAM env f) s
  := by
  apply Along.current_bind
  apply Along.guard (Along.pure _ s)
  intro _
  apply Along.guard connectionError_moves
  intro hid
  apply readUInt32_bind
  intro error _
  apply Along.bind (lookupOrInsert_moves hK hid)
  intro _ s₁ _
  apply Along.bind
  · exact Along.when fun _ => emit_stream_moves
  · intro _ s₂ _
    apply Along.guard connectionError_moves
    intro _
    exact streamHandleRST_STREAM_moves

/-! ### SETTINGS -/

theorem invokeResume_moves :
  Along (Reach K) (invokeQueued (.maybeResumeUpload streamID)) s
  := Reach.routine (.resume s.view streamID)

theorem adjustSendWindow_moves {delta : ℤ} (hK : K .adjust) :
  Along (Reach K) (adjustSendWindow env delta streamID) s
  := by
  apply Along.current_bind
  cases hstream : s.getStream streamID with
  | none => exact Along.pure _ s
  | some st =>
    dsimp only
    cases addOverflow st.sendWindow delta with
    | none => exact streamError_moves _ _
    | some sum =>
      have hadjusted : Reach K s (s.putStream streamID { st with sendWindow := sum }) := by
        apply Reach.special hK
        rw [Connection.view_putStream]
        exact .adjust s.view streamID sum (Connection.view_table_of_getStream hstream)
      apply Along.bind_of_ok (modifyStream_of_some hstream _) hadjusted
      apply Along.guard invokeResume_moves
      intro _
      exact Along.pure _ _

theorem pendTableSizeUpdate_view (newValue : ℕ) (s : Connection D) :
  (pendTableSizeUpdate newValue s).view = s.view
  := by
  rw [pendTableSizeUpdate]
  split
  · rfl
  · split
    · rfl
    · rfl

/-- A setting that ends the connection. -/
theorem refuseSetting_moves {errorCode : ℕ} {message : String} :
  Along (Reach K) (do
    connectionError env errorCode message
    pure false) s
  := by
  apply Along.bind connectionError_moves
  intro _ s₁ _
  exact Along.pure _ s₁

theorem acceptSetting_moves {identifier : Option Settings} {newValue : ℕ} (hK : K .adjust) :
  Along (Reach K) (acceptSetting env identifier newValue) s
  := by
  apply Along.current_bind
  cases identifier with
  | none => exact Along.pure _ s
  | some identifier =>
    cases identifier with
    | headerTableSizeId =>
      apply Along.guard refuseSetting_moves
      intro _
      apply Along.change_bind (Reach.of_view_eq (pendTableSizeUpdate_view newValue s))
      exact Along.pure _ _
    | enablePushId =>
      apply Along.guard refuseSetting_moves
      intro _
      cases s.connectionType with
      | client =>
        apply Along.guard refuseSetting_moves
        intro _
        exact Along.pure _ s
      | server =>
        apply Along.change_bind (Reach.of_view_eq rfl)
        exact Along.pure _ _
    | maxConcurrentStreamsId =>
      apply Along.change_bind (Reach.of_view_eq rfl)
      exact Along.pure _ _
    | initialWindowSizeId =>
      apply Along.guard refuseSetting_moves
      intro _
      apply Along.change_bind (Reach.special hK (.initialWindow s.view newValue))
      apply Along.bind
      · apply Along.forEach
        intro streamID _ s₁
        exact adjustSendWindow_moves hK
      · intro _ s₁ _
        exact Along.pure _ s₁
    | maxFrameSizeId =>
      apply Along.guard refuseSetting_moves
      intro _
      apply Along.change_bind (Reach.of_view_eq rfl)
      exact Along.pure _ _
    | maxHeaderListSizeId =>
      apply Along.change_bind (Reach.of_view_eq rfl)
      exact Along.pure _ _

theorem acceptSettings_moves {start count : ℕ} (hK : K .adjust) :
  Along (Reach K) (acceptSettings env f start count) s
  := by
  induction count generalizing start s with
  | zero => exact Along.pure _ s
  | succ count ih =>
    apply Along.bind (acceptSetting_moves hK)
    intro _ s₁ _
    apply Along.guard (Along.pure _ s₁)
    intro _
    exact ih

theorem handleSETTINGS_moves (hK : K .adjust) :
  Along (Reach K) (handleSETTINGS env f) s
  := by
  have hread : Along (Reach K) (readSettings env f) s := by
    apply Along.guard (Along.pure _ s)
    intro _
    cases f.dataBegin with
    | none => exact Along.fail _ s
    | some start =>
      apply Along.guard (acceptSettings_moves hK)
      intro _
      exact Along.fail _ s
  apply Along.current_bind
  apply Along.guard connectionError_moves
  intro _
  apply Along.ite
  · intro _
    apply Along.guard connectionError_moves
    intro _
    apply Along.guard connectionError_moves
    intro _
    exact Along.change (Reach.of_view_eq rfl)
  · intro _
    apply Along.bind hread
    intro _ s₁ _
    apply Along.guard (Along.pure _ s₁)
    intro _
    apply Along.bind (write_moves (by simp [OutboundFrame.Neutral]))
    intro _ s₂ _
    exact emit_moves (by simp)

/-! ### PING, GOAWAY and WINDOW_UPDATE -/

theorem continueShutdown_moves :
  Along (Reach K) (continueShutdown env) s
  := by
  apply Along.current_bind
  cases hstate : s.gracefulShutdownState with
  | none => exact Along.pure _ s
  | finalGOAWAYSent => exact Along.pure _ s
  | awaitingShutdownPing => exact sendFinalServerGracefulShutdownGoaway_moves hstate
  | awaitingPriorPing =>
    apply Along.change_bind (Reach.routine (.shutdownPing s.view hstate))
    apply Along.bind sendPing_moves
    intro _ s₁ _
    exact Along.pure _ s₁

theorem readPong_moves :
  Along (Reach K) (readPong f) s
  := by
  apply Along.current_bind
  cases s.lastPingSignature with
  | none => exact Along.pure _ s
  | some signature =>
    apply readData_bind
    intro data
    exact Along.pure _ s

theorem handlePING_moves :
  Along (Reach K) (handlePING env f) s
  := by
  apply Along.guard connectionError_moves
  intro _
  apply Along.ite
  · intro _
    apply Along.bind readPong_moves
    intro _ s₁ _
    apply Along.bind (emit_moves (by simp))
    intro _ s₂ _
    apply Along.change_bind (Reach.of_view_eq rfl)
    exact continueShutdown_moves
  · intro _
    apply Along.bind (emit_moves (by simp))
    intro _ s₁ _
    apply readData_bind
    intro data
    apply Along.bind (write_moves (by simp [OutboundFrame.Neutral]))
    intro _ s₂ _
    exact Along.pure _ s₂

theorem handleGOAWAY_moves :
  Along (Reach K) (handleGOAWAY env f) s
  := by
  apply Along.current_bind
  apply Along.guard connectionError_moves
  intro _
  apply readUInt32_bind
  intro lastStreamID _
  apply readUInt32_bind
  intro errorCode _
  apply Along.guard connectionError_moves
  intro _
  apply Along.guard connectionError_moves
  intro _
  have hgoing : Reach K s { s with
      lastGoAwayLastStreamID := some (lastStreamID &&& lastValidStreamID)
      goingAway := true } := by
    apply Reach.routine
    have hmove := RoutineMove.peerGoaway s.view false
    rw [Bool.or_false] at hmove
    exact hmove
  apply Along.change_bind hgoing
  set s₁ : Connection D := { s with
    lastGoAwayLastStreamID := some (lastStreamID &&& lastValidStreamID)
    goingAway := true }
  set sig : Signal := .receivedGOAWAY errorCode (lastStreamID &&& lastValidStreamID)
  have hemit : emit sig s₁ = (.ok (), { s₁ with trace := s₁.trace ++ [.signal sig] }) := rfl
  apply Along.bind_of_ok hemit (emit_moves (by simp [sig]))
  apply Along.ite
  · intro _
    apply Along.bind finishActiveStreams_moves
    intro _ s₂ _
    exact maybeCloseOnGoingAway_moves
  · intro _
    have haborted : RoutineMove
        (Connection.view { s₁ with trace := s₁.trace ++ [.signal sig] })
        (Connection.view { s₁ with
          trace := s₁.trace ++ [.signal sig]
          connectionAborted := true }) := by
      have hmove := RoutineMove.peerGoaway
        (Connection.view { s₁ with trace := s₁.trace ++ [.signal sig] }) true
      rw [Bool.or_true] at hmove
      exact hmove
    apply Along.change_bind (Reach.routine haborted)
    apply Along.bind finishActiveStreams_moves
    intro _ s₂ _
    exact closeSession_moves

theorem resumeUnblocked_moves :
  Along (Reach K) (resumeUnblocked streamID) s
  := by
  apply Along.current_bind
  cases s.getStream streamID with
  | none => exact Along.pure _ s
  | some st =>
    apply Along.guard invokeResume_moves
    intro _
    exact Along.pure _ s

theorem grantSession_moves {delta : ℕ} (hK : K .grantSession) (hunblock : K .unblock) :
  Along (Reach K) (grantSession env delta) s
  := by
  apply Along.current_bind
  cases (if validDelta delta = true then addOverflow s.sessionSendWindowSize delta else none) with
  | none => exact connectionError_moves
  | some sum =>
    have hgranted : Reach K s { s with sessionSendWindowSize := sum, blockedStreams := [] } :=
      trans_of (Reach K) (Reach.special hK (.grantSession s.view sum) :
          Reach K s { s with sessionSendWindowSize := sum })
        (Reach.special hunblock (.unblock _))
    apply Along.change_bind hgranted
    apply Along.forEach
    intro streamID _ s₁
    exact resumeUnblocked_moves

theorem handleWINDOW_UPDATE_moves (hsession : K .grantSession) (hunblock : K .unblock)
    (hdevice : K .device) (hstream : K .grantStream) (hdata : K .data) :
  Along (Reach K) (handleWINDOW_UPDATE env f) s
  := by
  apply readUInt32_bind
  intro delta _
  apply Along.current_bind
  apply Along.guard (Along.pure _ s)
  intro _
  apply Along.guard (grantSession_moves hsession hunblock)
  intro _
  cases s.getStream f.streamID with
  | none => exact Along.pure _ s
  | some st =>
    apply Along.guard (Along.pure _ s)
    intro _
    apply Along.guard (streamError_moves _ _)
    intro _
    exact streamHandleWINDOW_UPDATE_moves hdevice hstream hdata

end Http2
