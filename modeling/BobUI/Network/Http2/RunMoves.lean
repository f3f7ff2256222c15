import BobUI.Network.Http2.HandlerMoves

/-!
# The moves of a run

What the events that drive a connection do to its view.  The kinds of moves that belong to
inbound DATA, to the calls of `sendWINDOW_UPDATE` by the application and to what the reader
hands over are set apart; the others are plain.
-/

namespace Http2

open Proc

variable {D : Type} {K : Kind → Prop} {env : Env D} {s s' : Connection D} {streamID : ℕ}

/-- The kinds of moves that do not stand for inbound DATA, an update of the window of a stream by
the application, or the arrival of a frame. -/
def Kind.Plain (k : Kind) : Prop :=
  k ≠ .debit ∧ k ≠ .debitStream ∧ k ≠ .credit ∧ k ≠ .replenish ∧ k ≠ .update ∧ k ≠ .receive

instance (k : Kind) : Decidable k.Plain :=
  inferInstanceAs (Decidable (_ ∧ _))

/-! ### Frames -/

/-- A frame that is not expected within a field block ends the connection; DATA goes to its own
handler, and the handlers of the other frames make plain moves. -/
theorem handleGoodFrame_moves {f : Frame} (hK : ∀ k : Kind, k.Plain → K k)
    (hdata : f.type = .data → Along (Reach K) (handleDATA env f) s) :
  Along (Reach K) (handleGoodFrame env f) s
  := by
  have hpreface := hK .preface (by decide)
  have hdecode := hK .decode (by decide)
  have hcontinuation := hK .continuation (by decide)
  apply Along.current_bind
  apply Along.guard connectionError_moves
  intro _
  cases htype : f.type with
  | data => exact hdata htype
  | headers => exact handleHEADERS_moves hpreface hdecode hcontinuation
  | priority => exact handlePRIORITY_moves
  | rstStream => exact handleRST_STREAM_moves (hK _ (by decide))
  | settings => exact handleSETTINGS_moves (hK _ (by decide))
  | pushPromise => exact handlePUSH_PROMISE_moves hpreface hdecode hcontinuation
  | ping => exact handlePING_moves
  | goaway => exact handleGOAWAY_moves
  | windowUpdate =>
    exact handleWINDOW_UPDATE_moves (hK _ (by decide)) (hK _ (by decide))
      (hK _ (by decide)) (hK _ (by decide)) (hK _ (by decide))
  | continuation => exact handleCONTINUATION_moves hdecode hcontinuation
  | lastFrameType => exact Along.pure _ s

theorem handleSizeError_moves {f : Frame} :
  Along (Reach K) (handleSizeError env f) s
  := by
  apply Along.current_bind
  apply Along.guard connectionError_moves
  intro _
  cases s.getStream f.streamID with
  | none => exact Along.pure _ s
  | some st => exact streamError_moves _ _

/-- The connection after the reader has handed over a frame. -/
def Connection.received (s : Connection D) (status : FrameStatus) (f : Frame) : Connection D :=
  { s with trace := s.trace ++ [.received status f] }

theorem received_moves {status : FrameStatus} {f : Frame} (hK : K .receive) :
  Reach K s (s.received status f)
  := Reach.special hK (.receive s.view status f)

/-! ### The event loop and the upload devices -/

theorem runQueuedCall_moves (hK : ∀ k : Kind, k.Plain → K k) :
  Along (Reach K) (runQueuedCall env) s
  := by
  apply Along.current_bind
  cases hqueue : s.eventQueue with
  | nil => exact Along.pure _ s
  | cons call calls =>
    cases call with
    | maybeResumeUpload streamID =>
      apply Along.change_bind (Reach.special (hK _ (by decide)) (.dequeue s.view hqueue))
      exact maybeResumeUpload_moves (hK _ (by decide)) (.inl (hK _ (by decide)))
    | sendWINDOW_UPDATE streamID delta =>
      obtain ⟨ok, hwrite⟩ := write_written env
        ⟨.windowUpdate, FrameFlag.empty, streamID, toBigEndian delta⟩
        { s with eventQueue := calls }
      have hmove : Reach K s (Connection.written { s with eventQueue := calls }
          ⟨.windowUpdate, FrameFlag.empty, streamID, toBigEndian delta⟩ ok) :=
        Reach.special (hK _ (by decide)) (.dequeueUpdate s.view ok hqueue)
      apply Along.of_eq ((change_bind ..).trans (bind_of_ok hwrite)) hmove
      exact Along.pure _ _

theorem deviceReadyRead_moves {device : D} (hK : ∀ k : Kind, k.Plain → K k) :
  Along (Reach K) (deviceReadyRead env streamID device) s
  := by
  apply Along.current_bind
  apply Along.when
  intro huploading
  rw [Option.any_eq_true] at huploading
  obtain ⟨st, hstream, hupload⟩ := huploading
  apply Along.bind (modifyStream_device_moves (hK _ (by decide)) hstream hupload rfl)
  intro _ s₁ _
  exact maybeResumeUpload_moves (hK _ (by decide)) (.inl (hK _ (by decide)))

/-! ### Events -/

/-- The events that are neither a frame nor an update of a window by the application make plain
moves. -/
theorem step_plain_moves {event : Event D} (hK : ∀ k : Kind, k.Plain → K k)
    (hframe : ∀ status f, event ≠ .frame status f)
    (hupdate : ∀ streamID delta, event ≠ .sendWINDOW_UPDATE streamID delta) :
  Along (Reach K) (step env event) s
  := by
  cases event with
  | createStream useDownloadBuffer =>
    apply Along.bind (createStream_moves (hK _ (by decide)))
    intro _ s₁ _
    exact Along.pure _ s₁
  | sendHEADERS streamID headers endStream priority =>
    apply Along.current_bind
    apply Along.when
    intro _
    apply Along.bind (sendHEADERS_moves (hK _ (by decide)))
    intro _ s₁ _
    exact Along.pure _ s₁
  | sendDATA streamID device endStream =>
    apply Along.bind
      (sendDATA_moves (hK _ (by decide)) (hK _ (by decide)) (.inl (hK _ (by decide))))
    intro _ s₁ _
    exact Along.pure _ s₁
  | sendRST_STREAM streamID errorCode =>
    apply Along.bind (sendRST_STREAM_moves _)
    intro _ s₁ _
    exact Along.pure _ s₁
  | sendWINDOW_UPDATE streamID delta => exact absurd rfl (hupdate streamID delta)
  | deleteStream streamID => exact deleteStream_moves
  | close errorCode => exact close_moves
  | sendPing data =>
    apply Along.bind sendPing_moves
    intro _ s₁ _
    exact Along.pure _ s₁
  | handleConnectionClosure => exact handleConnectionClosure_moves
  | readyRead streamID device => exact deviceReadyRead_moves hK
  | clientPreface preface =>
    apply Along.bind (serverCheckClientPreface_moves (hK _ (by decide)))
    intro _ s₁ _
    exact Along.pure _ s₁
  | frame status f => exact absurd rfl (hframe status f)
  | runQueued => exact runQueuedCall_moves hK
  | graceTimeout => exact Along.change (Reach.of_view_eq rfl)
  | socketClosed => exact Along.change (Reach.of_view_eq rfl)

/-! ### Runs -/

/-- Each event of a run meets a condition in the state it comes in. -/
def EachMeets (env : Env D) (P : Connection D → Event D → Prop) :
    List (Event D) → Connection D → Prop
  | [], _ => True
  | event :: events, s =>
    P s event ∧ match step env event s with
      | (.ok _, s') => EachMeets env P events s'
      | (.error _, _) => True

/-- What the events that meet a condition preserve holds at the end of a run of such events. -/
theorem run_invariant {I : Connection D → Prop} {P : Connection D → Event D → Prop}
    (hstep : ∀ event s, P s event → I s → I (step env event s).2) {events : List (Event D)}
    (hevents : EachMeets env P events s) (h : I s) :
  I (run env events s).2
  := by
  induction events generalizing s with
  | nil => exact h
  | cons event events ih =>
    have hend := hstep event s hevents.1 h
    rw [run, forEach, bind_apply]
    rcases heq : step env event s with ⟨e | a, s'⟩
    · rw [heq] at hend
      exact hend
    · rw [heq] at hend
      have hrest := hevents.2
      rw [heq] at hrest
      exact ih hrest hend

/-- The connection as its creation leaves it, with its configuration. -/
def Starts (env : Env D) (config : QHttp2Configuration) (s : Connection D) : Prop :=
  s = createDirectConnection config ∨ s = createDirectServerConnection config ∨
    createUpgradedConnection env config = some s

/-- A stream that is created here is there, and idle. -/
theorem getStream_of_createLocal {useDownloadBuffer : Bool} {id : ℕ} (hK : K .preface)
    (h : createLocalStreamInternal env useDownloadBuffer s = (.ok (.ok id), s')) :
  ∃ st, s'.getStream id = some st ∧ st.state = .idle
  := by
  rw [createLocalStreamInternal, current_bind] at h
  split at h
  · cases h
  · split at h
    · cases h
    · obtain ⟨s₁, -, -, heq | ⟨-, -, heq⟩⟩ :=
        createStreamInternal_impl_eq env hK s.nextStreamID useDownloadBuffer s
      · rw [bind_of_ok heq] at h
        cases h
      · rw [bind_of_ok heq] at h
        cases h
        exact ⟨_, s₁.getStream_putStream _ _, rfl⟩

/-- The stream of an upgraded connection. -/
def createUpgradedStream (env : Env D) : Operation D Unit := do
  let created ← createLocalStreamInternal env true
  match created with
  | .error _ => fail .nullStream
  | .ok streamID => setState streamID .halfClosedLocal

theorem createUpgradedStream_moves (hK : K .preface) :
  Along (Reach K) (createUpgradedStream env) s
  := by
  apply Along.bind (createLocalStreamInternal_moves hK)
  intro created s₁ h₁
  cases created with
  | error error => exact Along.fail _ s₁
  | ok streamID =>
    obtain ⟨st, hstream, hidle⟩ := getStream_of_createLocal hK h₁
    apply setState_moves
    intro st' hst'
    rw [hstream] at hst'
    cases hst'
    rw [hidle]
    exact .inr (by simp [StreamState.MayBecome])

theorem createUpgradedConnection_moves {config : QHttp2Configuration} (hK : K .preface)
    (h : createUpgradedConnection env config = some s) :
  Reach K { Connection.new .client config with upgradedConnection := true } s
  := by
  have hcreate : Along (Reach K) (createUpgradedStream env)
      { Connection.new .client config with upgradedConnection := true } :=
    createUpgradedStream_moves hK
  have hupgraded : (match createUpgradedStream env
      { Connection.new .client config with upgradedConnection := true } with
    | (.ok _, s) => if s.prefaceSent then some s else none
    | (.error _, _) => none) = some s := h
  rw [Along] at hcreate
  split at hupgraded
  · rename_i s₁ heq
    rw [heq] at hcreate
    split at hupgraded
    · cases hupgraded
      exact hcreate
    · cases hupgraded
  · cases hupgraded

end Http2
