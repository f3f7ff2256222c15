import BobUI.Network.Http2.ReceiveMoves

/-!
# The moves of the connection

What the shutdown, the preface and the creation of streams do to the view of a connection.
-/

namespace Http2

open Proc

variable {D : Type} {K : Kind → Prop} {env : Env D} {s s' : Connection D} {streamID : ℕ}

/-! ### Errors and shutdown -/

/-- The connection after outputs. -/
def Connection.outputs (s : Connection D) (outputs : List Output) (writes : ℕ) : Connection D :=
  { s with writes := writes, trace := s.trace ++ outputs }

theorem sendGOAWAYFrame_eq (env : Env D) (errorCode lastStreamID : ℕ) (s : Connection D) :
  ∃ ok written writes, sendGOAWAYFrame env errorCode lastStreamID s =
    (.ok ok, s.outputs (goawayOutput written lastStreamID errorCode) writes)
  := by
  rw [sendGOAWAYFrame, current_bind]
  split
  · use false, none, s.writes
    rw [Connection.outputs, goawayOutput, Option.map_none, Option.toList_none, List.append_nil]
    rfl
  · exact ⟨_, some (s.socketOpen && env.writeOk s.writes), s.writes + 1, write_eq ..⟩

variable {v : View D} {errorCode : ℕ}

theorem finishActiveStreams_moves {streamIDs : List ℕ} {message : String} :
  Along (Reach K) (finishActiveStreams streamIDs errorCode message) s
  := by
  apply Along.forEach
  intro streamID _ s₁
  apply Along.current_bind
  apply Along.guard (finishWithError_moves _ _)
  intro _
  exact Along.pure _ s₁

theorem closeSession_moves :
  Along (Reach K) closeSession s
  := emit_moves (by simp)

theorem connectionError_moves {message : String} :
  Along (Reach K) (connectionError env errorCode message) s
  := by
  apply Along.current_bind
  apply Along.guard (Along.pure _ s)
  intro haborted
  rw [Bool.not_eq_true] at haborted
  rw [Along, change_bind]
  set s₁ : Connection D := { s with
    connectionAborted := true
    goingAway := true
    lastStreamToProcess := min s.lastIncomingStreamID s.lastStreamToProcess }
  obtain ⟨ok, written, writes, hgoaway⟩ := sendGOAWAYFrame_eq env errorCode
    (min s.lastIncomingStreamID s.lastStreamToProcess) s₁
  rw [bind_of_ok hgoaway]
  have hmove : Reach K s (s₁.outputs (goawayOutput written
      (min s.lastIncomingStreamID s.lastStreamToProcess) errorCode) writes) :=
    Reach.routine (.errorGoaway s.view written errorCode haborted)
  apply trans_of (Reach K) hmove
  apply Along.bind finishActiveStreams_moves
  intro _ s₂ _
  exact closeSession_moves

/-- A PING is sent, or one is still unanswered. -/
theorem sendPing_view (env : Env D) (data : Octets) (s : Connection D) :
  ∃ sent s', sendPing env data s = (.ok sent, s') ∧
    (s'.view = s.view ∨ ∃ ok, s'.view =
      s.view.output (.wrote ⟨.ping, FrameFlag.empty, connectionStreamID, data⟩ ok))
  := by
  rw [sendPing, current_bind]
  split
  · exact ⟨false, s, rfl, .inl rfl⟩
  · obtain ⟨ok, hwrite⟩ := write_written env ⟨.ping, FrameFlag.empty, connectionStreamID, data⟩
      { s with lastPingSignature := some data }
    rw [change_bind, bind_of_ok hwrite]
    exact ⟨true, _, rfl, .inr ⟨ok, rfl⟩⟩

theorem ping_moves {data : Octets} {ok : Bool} :
  RoutineMove v (v.output (.wrote ⟨.ping, FrameFlag.empty, connectionStreamID, data⟩ ok))
  := .write v _ ok (by simp [OutboundFrame.Neutral])

theorem sendPing_moves {data : Octets} :
  Along (Reach K) (sendPing env data) s
  := by
  obtain ⟨sent, s', heq, hview | ⟨ok, hview⟩⟩ := sendPing_view env data s
  · rw [Along, heq]
    exact Reach.of_view_eq hview
  · rw [Along, heq]
    apply Reach.routine
    rw [hview]
    exact ping_moves

theorem sendClientGracefulShutdownGoaway_moves :
  Along (Reach K) (sendClientGracefulShutdownGoaway env) s
  := by
  apply Along.current_bind
  apply Along.guard (Along.pure _ s)
  intro h
  rw [Bool.or_eq_true, not_or, Bool.not_eq_true, Bool.not_eq_true] at h
  rw [Along, change_bind]
  set s₁ : Connection D := { s with
    goingAway := true
    gracefulShutdownState := .finalGOAWAYSent
    lastStreamToProcess := s.lastIncomingStreamID }
  obtain ⟨ok, written, writes, hgoaway⟩ := sendGOAWAYFrame_eq env Http2Error.http2NoError
    s.lastIncomingStreamID s₁
  rw [bind_of_ok hgoaway]
  have hmove : Reach K s (s₁.outputs (goawayOutput written s.lastIncomingStreamID
      Http2Error.http2NoError) writes) :=
    Reach.routine (.clientGoaway s.view written h.1 h.2)
  apply trans_of (Reach K) hmove
  exact maybeCloseOnGoingAway_moves

theorem sendInitialServerGracefulShutdownGoaway_moves :
  Along (Reach K) (sendInitialServerGracefulShutdownGoaway env) s
  := by
  apply Along.current_bind
  apply Along.guard (Along.pure _ s)
  intro h
  rw [Bool.or_eq_true, not_or, Bool.not_eq_true, Bool.not_eq_true] at h
  rw [Along, change_bind]
  obtain ⟨ok, written, writes, hgoaway⟩ := sendGOAWAYFrame_eq env Http2Error.http2NoError
    lastValidStreamID { s with goingAway := true, goawayGraceTimerExpired := false }
  rw [bind_of_ok hgoaway]
  obtain ⟨sent, s₁, hping, hview⟩ := sendPing_view env env.pingData (Connection.outputs
    { s with goingAway := true, goawayGraceTimerExpired := false }
    (goawayOutput written lastValidStreamID Http2Error.http2NoError) writes)
  rw [bind_of_ok hping, change_apply]
  set state : GracefulShutdownState :=
    if sent then .awaitingShutdownPing else .awaitingPriorPing with hstate
  set v : View D := { s.view with
    goingAway := true
    gracefulShutdownState := state
    trace := s.trace ++ goawayOutput written lastValidStreamID Http2Error.http2NoError }
  have hgoaway : Moves K s.view v := by
    left
    have hmove := RoutineMove.initialGoaway s.view written (!sent) h.1 h.2
    cases sent with
    | true => exact hmove
    | false => exact hmove
  rcases hview with hview | ⟨ok, hview⟩
  · have hend : Connection.view { s₁ with gracefulShutdownState := state } = v :=
      congrArg (fun v : View D => { v with gracefulShutdownState := state }) hview
    rw [Reach, hend]
    exact .single hgoaway
  · have hend : Connection.view { s₁ with gracefulShutdownState := state } = v.output
        (.wrote ⟨.ping, FrameFlag.empty, connectionStreamID, env.pingData⟩ ok) :=
      congrArg (fun v : View D => { v with gracefulShutdownState := state }) hview
    rw [Reach, hend]
    exact .tail (.single hgoaway) (.inl ping_moves)

theorem sendFinalServerGracefulShutdownGoaway_moves
    (hstate : s.gracefulShutdownState = .awaitingShutdownPing) :
  Along (Reach K) (sendFinalServerGracefulShutdownGoaway env) s
  := by
  apply Along.current_bind
  apply Along.guard (Along.pure _ s)
  intro h
  rw [Bool.or_eq_true, not_or, Bool.not_eq_true] at h
  rw [Along, change_bind]
  set s₁ : Connection D := { s with
    gracefulShutdownState := .finalGOAWAYSent
    lastStreamToProcess := s.lastIncomingStreamID }
  obtain ⟨ok, written, writes, hgoaway⟩ := sendGOAWAYFrame_eq env Http2Error.http2NoError
    s.lastIncomingStreamID s₁
  rw [bind_of_ok hgoaway]
  have hmove : Reach K s (s₁.outputs (goawayOutput written s.lastIncomingStreamID
      Http2Error.http2NoError) writes) :=
    Reach.routine (.finalGoaway s.view written h.1 hstate)
  apply trans_of (Reach K) hmove
  exact maybeCloseOnGoingAway_moves

theorem close_moves :
  Along (Reach K) (close env errorCode) s
  := by
  apply Along.current_bind
  apply Along.guard (Along.pure _ s)
  intro _
  apply Along.ite
  · intro _
    cases htype : s.connectionType with
    | server => exact sendInitialServerGracefulShutdownGoaway_moves
    | client => exact sendClientGracefulShutdownGoaway_moves
  · intro _
    exact connectionError_moves

theorem handleConnectionClosure_moves :
  Along (Reach K) handleConnectionClosure s
  := by
  apply Along.current_bind
  exact finishActiveStreams_moves

/-! ### The preface -/

theorem Neutral_settings (config : QHttp2Configuration) :
  (configurationToSettingsFrame config).Neutral
  := by
  simp [OutboundFrame.Neutral, configurationToSettingsFrame]

/-- The announcement of the session window. -/
theorem announceSessionWindow_view (env : Env D) (s : Connection D) :
  ∃ ok s', announceSessionWindow env s = (.ok (decide (s.view.sessionDelta = 0) || ok), s') ∧
    s'.view = { s.view.announceSession ok with prefaceSent := s.prefaceSent }
  := by
  rw [announceSessionWindow, current_bind, change_bind]
  by_cases h : s.view.sessionDelta = 0
  · use true, { s with sessionReceiveWindowSize := s.maxSessionReceiveWindowSize }
    constructor
    · exact (congrFun (if_neg (not_not.mpr h)) _).trans (by simp)
    · rw [View.announceSession, if_pos h, List.append_nil]
      rfl
  · obtain ⟨ok, hwrite⟩ := write_written env ⟨.windowUpdate, FrameFlag.empty, connectionStreamID,
      toBigEndian (toUInt32 s.view.sessionDelta)⟩
      { s with sessionReceiveWindowSize := s.maxSessionReceiveWindowSize }
    use ok, Connection.written { s with sessionReceiveWindowSize := s.maxSessionReceiveWindowSize }
      ⟨.windowUpdate, FrameFlag.empty, connectionStreamID,
        toBigEndian (toUInt32 s.view.sessionDelta)⟩ ok
    constructor
    · rw [decide_eq_false h, Bool.false_or]
      exact (congrFun (if_pos h) _).trans hwrite
    · rw [View.announceSession, if_neg h]
      rfl

/-- What `sendSETTINGS` comes to: the SETTINGS frame is not taken, or the session window is
announced behind it. -/
theorem sendSETTINGS_view (env : Env D) (s : Connection D) :
  (∃ s', sendSETTINGS env s = (.ok false, s') ∧
    s'.view = s.view.output (.wrote (configurationToSettingsFrame s.config) false)) ∨
  ∃ ok s', sendSETTINGS env s = (.ok (decide (s.view.sessionDelta = 0) || ok), s') ∧
    s'.view = { (s.view.output (.wrote (configurationToSettingsFrame s.config) true)).announceSession
      ok with prefaceSent := s.prefaceSent }
  := by
  obtain ⟨ok, hwrite⟩ := write_written env (configurationToSettingsFrame s.config) s
  rw [sendSETTINGS, current_bind, bind_of_ok hwrite]
  cases ok with
  | false => exact .inl ⟨_, rfl, rfl⟩
  | true =>
    right
    obtain ⟨ok, s', heq, hview⟩ := announceSessionWindow_view env
      (s.written (configurationToSettingsFrame s.config) true)
    have hdelta : (s.written (configurationToSettingsFrame s.config) true).view.sessionDelta =
        s.view.sessionDelta := rfl
    rw [hdelta] at heq
    use ok
    rw [if_neg (by decide), bind_of_ok heq]
    cases h : (decide (s.view.sessionDelta = 0) || ok) with
    | true => exact ⟨{ s' with waitingForSettingsACK := true }, rfl, hview⟩
    | false => exact ⟨s', rfl, hview⟩

theorem settings_moves (config : QHttp2Configuration) (ok : Bool) :
  RoutineMove v (v.output (.wrote (configurationToSettingsFrame config) ok))
  := .write v _ ok (Neutral_settings config)

theorem View.setPrefaceSent {sent : Bool} (h : v.prefaceSent = sent) :
  { v with prefaceSent := sent } = v
  := by
  rw [← h]

/-- What `sendServerPreface` comes to; a client does the same behind its own preface. -/
theorem sendServerPreface_view (env : Env D) (s : Connection D) :
  (∃ s', sendServerPreface env s = (.ok false, s') ∧
    s'.view = s.view.output (.wrote (configurationToSettingsFrame s.config) false)) ∨
  ∃ ok s', sendServerPreface env s = (.ok (decide (s.view.sessionDelta = 0) || ok), s') ∧
    s'.view =
      (s.view.output (.wrote (configurationToSettingsFrame s.config) true)).announceSession ok
  := by
  rw [sendServerPreface]
  rcases sendSETTINGS_view env s with ⟨s₁, hsettings, hview⟩ | ⟨ok, s₁, hsettings, hview⟩
  · left
    rw [bind_of_ok hsettings]
    exact ⟨s₁, rfl, hview⟩
  · right
    use ok
    rw [bind_of_ok hsettings]
    have hsent : ((s.view.output (.wrote (configurationToSettingsFrame s.config)
        true)).announceSession ok).prefaceSent =
          (s.prefaceSent || (decide (s.view.sessionDelta = 0) || ok)) := rfl
    cases h : (decide (s.view.sessionDelta = 0) || ok) with
    | false =>
      rw [h, Bool.or_false] at hsent
      exact ⟨s₁, rfl, hview.trans (View.setPrefaceSent hsent)⟩
    | true =>
      rw [h, Bool.or_true] at hsent
      refine ⟨{ s₁ with prefaceSent := true }, rfl, ?_⟩
      exact (congrArg (fun v : View D => { v with prefaceSent := true }) hview).trans
        (View.setPrefaceSent hsent)

/-- A server sends its preface once that of the client has been checked. -/
theorem sendServerPreface_moves (env : Env D) (hK : K .preface) (h : s.waitingForClientPreface = true) :
  ∃ b s', sendServerPreface env { s with waitingForClientPreface := false } = (.ok b, s') ∧
    Reach K s s'
  := by
  rcases sendServerPreface_view env { s with waitingForClientPreface := false } with
    ⟨s₁, heq, hview⟩ | ⟨ok, s₁, heq, hview⟩
  · use false, s₁, heq
    rw [Reach, hview]
    exact .tail (.single (.inl (.checkPreface s.view))) (.inl (settings_moves s.config false))
  · refine ⟨_, s₁, heq, ?_⟩
    rw [Reach, hview]
    exact .tail (.single (.inl (settings_moves s.config true)))
      (.inr ⟨.preface, hK, .serverPreface _ ok h⟩)

theorem serverCheckClientPreface_moves {preface : Octets} (hK : K .preface) :
  Along (Reach K) (serverCheckClientPreface env preface) s
  := by
  apply Along.current_bind
  by_cases hwaiting : s.waitingForClientPreface = true
  · rw [if_neg (by rw [hwaiting]; decide)]
    apply Along.ite
    · intro _
      apply Along.change_bind (Reach.of_view_eq rfl)
      apply Along.bind (emit_moves (by simp))
      intro _ s₁ _
      exact Along.pure _ s₁
    · intro _
      obtain ⟨ok, s₁, heq, hreach⟩ := sendServerPreface_moves env hK hwaiting
      apply Along.of_eq ((change_bind ..).trans (bind_of_ok heq)) hreach
      apply Along.ite
      · intro _
        apply Along.bind connectionError_moves
        intro _ s₂ _
        exact Along.pure _ s₂
      · intro _
        exact Along.pure _ s₁
  · rw [if_pos (by rw [Bool.not_eq_true] at hwaiting; rw [hwaiting]; rfl)]
    exact Along.pure _ s

/-- What the preface leaves as it is. -/
structure Connection.Prefaced (s s' : Connection D) : Prop where
  connectionType : s'.connectionType = s.connectionType
  nextStreamID : s'.nextStreamID = s.nextStreamID
  lastIncomingStreamID : s'.lastIncomingStreamID = s.lastIncomingStreamID
  lastStreamToProcess : s'.lastStreamToProcess = s.lastStreamToProcess
  goingAway : s'.goingAway = s.goingAway

theorem Connection.Prefaced.of_view (h : s'.view = v) (htype : v.connectionType = s.connectionType)
    (hnext : v.nextStreamID = s.nextStreamID)
    (hincoming : v.lastIncomingStreamID = s.lastIncomingStreamID)
    (hprocess : v.lastStreamToProcess = s.lastStreamToProcess)
    (hgoing : v.goingAway = s.goingAway) :
  s.Prefaced s'
  := by
  subst h
  exact ⟨htype, hnext, hincoming, hprocess, hgoing⟩

/-- The preface of a client; where it ends with `true` the preface is through. -/
theorem sendClientPreface_moves (env : Env D) (hK : K .preface) (htype : s.connectionType = .client)
    (hsent : s.prefaceSent = false) :
  ∃ b s', sendClientPreface env s = (.ok b, s') ∧ Reach K s s' ∧ s.Prefaced s' ∧
    (b = true → s'.prefaceSent = true)
  := by
  have heq : ∀ s, sendClientPreface env s = (writePreface env >>= fun ok =>
    if !ok then pure false else sendServerPreface env) s := fun _ => rfl
  have hwrite : ∃ ok s₁, writePreface env s = (.ok ok, s₁) ∧
      s₁.view = s.view.output (.wrotePreface ok) := ⟨_, _, rfl, rfl⟩
  obtain ⟨ok, s₁, hwrite, hview₁⟩ := hwrite
  have htype₁ : s₁.view.connectionType = .client := by
    rw [hview₁]
    exact htype
  have hsent₁ : s₁.view.prefaceSent = false := by
    rw [hview₁]
    exact hsent
  have hreach₁ : Reach K s s₁ := by
    apply Reach.routine
    rw [hview₁]
    exact .writePreface s.view ok
  rw [heq, bind_of_ok hwrite]
  cases ok with
  | false =>
    exact ⟨false, s₁, rfl, hreach₁, .of_view hview₁ rfl rfl rfl rfl rfl,
      fun h => absurd h (by decide)⟩
  | true =>
    rcases sendServerPreface_view env s₁ with ⟨s₂, heq, hview⟩ | ⟨ok, s₂, heq, hview⟩
    · refine ⟨false, s₂, heq, trans_of (Reach K) hreach₁ ?_, ?_, fun h => absurd h (by decide)⟩
      · apply Reach.routine
        rw [hview]
        exact settings_moves s₁.config false
      · rw [hview₁] at hview
        exact .of_view hview rfl rfl rfl rfl rfl
    · refine ⟨_, s₂, heq, trans_of (Reach K) hreach₁ ?_, ?_, fun h => ?_⟩
      · rw [Reach, hview]
        exact .tail (.single (.inl (settings_moves s₁.config true)))
          (.inr ⟨.preface, hK, .clientPreface _ ok htype₁ hsent₁⟩)
      · rw [hview₁] at hview
        exact .of_view hview rfl rfl rfl rfl rfl
      · have hprefaceSent : s₂.prefaceSent =
            (s₁.view.prefaceSent || (decide (s₁.view.sessionDelta = 0) || ok)) :=
          congrArg View.prefaceSent hview
        rw [hprefaceSent, h, Bool.or_true]

/-! ### The creation of streams -/

/-- A client sends its preface where it is missing. -/
theorem ensureClientPreface_moves (env : Env D) (hK : K .preface) (s : Connection D) :
  ∃ b s', ensureClientPreface env s = (.ok b, s') ∧ Reach K s s' ∧ s.Prefaced s' ∧
    (b = true → s'.connectionType = .client → s'.prefaceSent = true)
  := by
  rw [ensureClientPreface, current_bind]
  by_cases h : s.connectionType = .client ∧ (!s.prefaceSent) = true
  · rw [if_pos h]
    obtain ⟨htype, hsent⟩ := h
    rw [Bool.not_eq_true'] at hsent
    obtain ⟨b, s', heq, hreach, hsame, hend⟩ := sendClientPreface_moves env hK htype hsent
    exact ⟨b, s', heq, hreach, hsame, fun h _ => hend h⟩
  · rw [if_neg h]
    refine ⟨true, s, rfl, refl_of (Reach K) s, ⟨rfl, rfl, rfl, rfl, rfl⟩, fun _ htype => ?_⟩
    rw [not_and, Bool.not_eq_true', Bool.not_eq_false] at h
    exact h htype

/-- A stream enters the table, or there is none. -/
theorem createStreamInternal_impl_eq (env : Env D) (hK : K .preface) (streamID : ℕ)
    (useDownloadBuffer : Bool) (s : Connection D) :
  ∃ s', Reach K s s' ∧ s.Prefaced s' ∧
    (createStreamInternal_impl env streamID useDownloadBuffer s = (.ok false, s') ∨
      (s'.connectionType = .client → s'.prefaceSent = true) ∧ streamID ∉ s'.streams ∧
      createStreamInternal_impl env streamID useDownloadBuffer s =
        (.ok true, s'.putStream streamID (.new s' useDownloadBuffer)))
  := by
  obtain ⟨b, s₁, heq, hreach, hsame, hend⟩ := ensureClientPreface_moves env hK s
  use s₁, hreach, hsame
  rw [createStreamInternal_impl, bind_of_ok heq]
  cases b with
  | false => exact .inl rfl
  | true =>
    rw [if_neg (by decide), current_bind]
    by_cases hmem : streamID ∈ s₁.streams
    · rw [if_pos hmem]
      exact .inl rfl
    · rw [if_neg hmem]
      exact .inr ⟨hend rfl, hmem, rfl⟩

theorem createLocalStreamInternal_moves {useDownloadBuffer : Bool} (hK : K .preface) :
  Along (Reach K) (createLocalStreamInternal env useDownloadBuffer) s
  := by
  apply Along.current_bind
  apply Along.guard (Along.pure _ s)
  intro hgoing
  apply Along.guard (Along.pure _ s)
  intro _
  obtain ⟨s₁, hreach, hsame, heq | ⟨hpreface, hmem, heq⟩⟩ :=
    createStreamInternal_impl_eq env hK s.nextStreamID useDownloadBuffer s
  · apply Along.bind_of_ok heq hreach
    exact Along.pure _ s₁
  · rw [Bool.not_eq_true] at hgoing
    rw [Along, bind_of_ok heq]
    apply trans_of (Reach K) hreach
    apply Reach.routine
    rw [← hsame.nextStreamID] at hmem ⊢
    have hview : Connection.view { s₁.putStream s₁.nextStreamID (.new s₁ useDownloadBuffer) with
        nextStreamID := s₁.nextStreamID + 2 } =
        { s₁.view.setStream s₁.nextStreamID s₁.view.newStream with
          nextStreamID := s₁.nextStreamID + 2 } :=
      congrArg (fun v : View D => { v with nextStreamID := s₁.nextStreamID + 2 })
        (Connection.view_putStream ..)
    have hmove : RoutineMove s₁.view { s₁.view.setStream s₁.nextStreamID s₁.view.newStream with
        nextStreamID := s₁.nextStreamID + 2 } :=
      .createLocal s₁.view ((s₁.view_table_eq_none _).mpr hmem)
        (hsame.goingAway.trans hgoing) hpreface
    rw [← hview] at hmove
    exact hmove

theorem createStream_moves {useDownloadBuffer : Bool} (hK : K .preface) :
  Along (Reach K) (createStream env useDownloadBuffer) s
  := by
  apply Along.current_bind
  apply Along.guard (Along.pure _ s)
  intro _
  exact createLocalStreamInternal_moves hK

/-- The creation of a stream of the peer. -/
theorem createRemote_moves (useDownloadBuffer : Bool) (hmem : streamID ∉ s.streams)
    (hmask : streamID % 2 = s.remoteMask ∨ streamID % 2 = 0) (hlast : s.lastIncomingStreamID < streamID)
    (hle : streamID ≤ lastValidStreamID) :
  Reach K s { s.putStream streamID (.new s useDownloadBuffer) with lastIncomingStreamID := streamID }
  := by
  apply Reach.routine
  have hview : Connection.view { s.putStream streamID (.new s useDownloadBuffer) with
      lastIncomingStreamID := streamID } =
      { s.view.setStream streamID s.view.newStream with lastIncomingStreamID := streamID } :=
    congrArg (fun v : View D => { v with lastIncomingStreamID := streamID })
      (Connection.view_putStream ..)
  rw [hview]
  exact .createRemote s.view streamID ((s.view_table_eq_none _).mpr hmem) hmask hlast hle

theorem Connection.view_erase (s : Connection D) (streamID : ℕ) :
  Connection.view { s with streams := s.streams.erase streamID } =
    { s.view with table := Function.update s.view.table streamID none }
  := by
  have h : (fun id => ((s.streams.erase streamID).lookup id).map (Option.map Stream.view)) =
      Function.update s.view.table streamID none := by
    funext id
    by_cases hid : id = streamID
    · subst hid
      simp
    · rw [Function.update_of_ne hid, AList.lookup_erase_ne hid]
      rfl
  rw [← h]
  rfl

theorem removeStream_moves :
  Reach K s { s with streams := s.streams.erase streamID }
  := by
  apply Reach.routine
  rw [Connection.view_erase]
  exact .remove s.view streamID

theorem deleteStream_moves :
  Along (Reach K) (deleteStream env streamID) s
  := by
  apply Along.current_bind
  cases hstream : s.getStream streamID with
  | none => exact Along.pure _ s
  | some st =>
    apply Along.bind
    · apply Along.when
      intro _
      apply Along.bind (sendRST_STREAM_moves _)
      intro _ s₁ _
      exact Along.pure _ s₁
    · intro _ s₁ _
      exact Along.change removeStream_moves

end Http2
