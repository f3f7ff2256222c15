import BobUI.Network.Http2.WindowUpdates

/-!
# What holds in every run of a connection

Every event moves the view of a connection, whatever its peer and its application do, and what the
moves preserve holds in every run: the GOAWAY frames that are sent never go back, no number is
given away behind one, a stream only advances and does not return once it has been deleted, and
the window of the session never becomes negative.
-/

namespace Http2

open Proc

variable {D : Type} {K : Kind → Prop} {env : Env D} {s : Connection D} {streamID : ℕ}

/-! ### Events and runs -/

theorem streamHandleDATA_moves {f : Frame} (hK : ∀ k, K k) :
  Along (Reach K) (streamHandleDATA env streamID f) s
  := by
  cases hstream : s.getStream streamID with
  | none =>
    rw [Along, streamHandleDATA, current_bind, hstream]
    exact refl_of _ s
  | some st =>
    rcases lt_or_ge st.recvWindow f.payloadSize with hsize | hsize
    · rw [Along, streamHandleDATA_of_exceeds hstream hsize]
      exact streamError_moves _ _
    · apply Along.of_eq (streamHandleDATA_of_fits hstream hsize)
      · apply Reach.special (hK .debitStream)
        rw [Connection.view_putStream]
        exact .debitStream s.view streamID f.payloadSize
          (Connection.view_table_of_getStream hstream) hsize
      · exact debitedDATA_moves (hK _) (Connection.getStream_putStream ..) rfl rfl

theorem handleDATA_moves {f : Frame} (hK : ∀ k, K k) :
  Along (Reach K) (handleDATA env f) s
  := by
  rcases handleDATA_cases env f s with hmoves | ⟨-, stream, -, heq⟩
  · exact hmoves K
  · rw [Along, heq]
    rcases lt_or_ge s.sessionReceiveWindowSize f.payloadSize with hsize | hsize
    · rw [acceptDATA_of_exceeds hsize]
      exact connectionError_moves
    · apply Along.of_eq (acceptDATA_of_fits hsize)
        (Reach.special (hK _) (.debit s.view f.payloadSize hsize))
      apply Along.bind
      · cases stream with
        | none => exact Along.pure _ _
        | some streamID => exact streamHandleDATA_moves hK
      · intro _ s₁ _
        apply Along.bind receiveEND_STREAM_moves
        intro _ s₂ _
        apply Along.current_bind
        apply Along.when
        intro hlow
        exact Reach.special (hK _) (.credit s₂.view hlow)

/-- Every event moves the view. -/
theorem step_moves {event : Event D} (hK : ∀ k, K k) :
  Along (Reach K) (step env event) s
  := by
  by_cases hframe : ∃ status f, event = .frame status f
  · obtain ⟨status, f, rfl⟩ := hframe
    have hreceived : Reach K s (s.received status f) := received_moves (hK _)
    apply Along.current_bind
    apply Along.when
    intro _
    cases status with
    | incompleteFrame => exact Along.pure _ s
    | protocolError => exact Along.change_bind hreceived connectionError_moves
    | sizeError => exact Along.change_bind hreceived handleSizeError_moves
    | goodFrame =>
      apply Along.change_bind hreceived
      exact handleGoodFrame_moves (fun k _ => hK k) fun _ => handleDATA_moves hK
  · by_cases hupdate : ∃ streamID delta, event = .sendWINDOW_UPDATE streamID delta
    · obtain ⟨streamID, delta, rfl⟩ := hupdate
      apply Along.current_bind
      apply Along.when
      intro hstream
      obtain ⟨st, hst⟩ := Option.isSome_iff_exists.mp hstream
      obtain ⟨ok, s', heq, hview⟩ := sendWINDOW_UPDATE_view env hst delta
      rw [Along, heq]
      apply Reach.special (hK .update)
      rw [hview]
      exact .update s.view streamID delta ok (Connection.view_table_of_getStream hst)
    · push Not at hframe hupdate
      exact step_plain_moves (fun k _ => hK k) hframe hupdate

theorem run_moves (env : Env D) (s : Connection D) (events : List (Event D)) :
  Along (Reach fun _ => True) (run env events) s
  := Along.forEach (fun _ _ _ => step_moves fun _ => trivial) s

/-- What holds of the connections that are made directly, and is preserved by every move, holds
of every connection as it starts. -/
theorem Starts.invariant {config : QHttp2Configuration} {I : View D → Prop}
    (hmove : ∀ v v', Moves (fun _ => True) v v' → I v → I v')
    (hclient : I (createDirectConnection config).view)
    (hserver : I (createDirectServerConnection config).view) (hstarts : Starts env config s) :
  I s.view
  := by
  rcases hstarts with rfl | rfl | h
  · exact hclient
  · exact hserver
  · exact Reach.invariant hmove (createUpgradedConnection_moves trivial h) hclient

/-! ### Moves -/

/-- The state of a stream, if it is there. -/
def View.stateOf (v : View D) (streamID : ℕ) : Option StreamState :=
  (v.table streamID).join.map StreamView.state

/-- What becomes of the state of a stream: it only advances, and a stream that is gone does not
come back. -/
def Onward (state new : Option StreamState) : Prop :=
  new = none ∨
    ∃ a b, state = some a ∧ new = some b ∧ Relation.ReflTransGen StreamState.MayBecome a b

theorem Onward.refl (state : Option StreamState) :
  Onward state state
  := by
  cases state with
  | none => exact .inl rfl
  | some a => exact .inr ⟨a, a, rfl, rfl, .refl⟩

theorem Onward.trans {a b c : Option StreamState} (h : Onward a b) (h' : Onward b c) :
  Onward a c
  := by
  rcases h' with rfl | ⟨x, y, rfl, rfl, hxy⟩
  · exact .inl rfl
  · rcases h with h | ⟨w, x', rfl, hx, hwx⟩
    · cases h
    · cases hx
      exact .inr ⟨w, y, rfl, rfl, hwx.trans hxy⟩

/-- The last stream that a GOAWAY frame names. -/
def Output.goawayID : Output → Option ℕ
  | .wrote f _ => if f.type = .goaway then some (fromBigEndian f.payload 0) else none
  | _ => none

/-- No GOAWAY frame that names, and no announcement of, a stream behind the last one. -/
def Output.Within (last : ℕ) (o : Output) : Prop :=
  (∀ streamID, o.goawayID = some streamID → streamID ≤ last) ∧
    ∀ streamID, o = .signal (.newIncomingStream streamID) → streamID ≤ last

/-- An output that comes behind a GOAWAY frame stays within it. -/
def Output.Heeds (o o' : Output) : Prop :=
  ∀ last, o.goawayID = some last → o'.Within last

/-- No GOAWAY frame, and no announcement of a stream behind the last one. -/
def Output.Bounded (last : ℕ) (o : Output) : Prop :=
  o.goawayID = none ∧ o.Within last

theorem Output.Within.mono {last last' : ℕ} {o : Output} (h : o.Within last) (hle : last ≤ last') :
  o.Within last'
  := ⟨fun id hid => (h.1 id hid).trans hle, fun id hid => (h.2 id hid).trans hle⟩

theorem Output.bounded_wrote {last : ℕ} {f : OutboundFrame} {ok : Bool} (h : f.type ≠ .goaway) :
  (Output.wrote f ok).Bounded last
  := by
  have hnone : (Output.wrote f ok).goawayID = none := if_neg h
  exact ⟨hnone, by simp [hnone], by simp⟩

/-- A move that gives a number to no stream. -/
structure View.Keeps (v v' : View D) : Prop where
  remoteMask : v'.remoteMask = v.remoteMask
  nextStreamID : v'.nextStreamID = v.nextStreamID
  lastIncomingStreamID : v'.lastIncomingStreamID = v.lastIncomingStreamID
  onward : ∀ streamID, Onward (v.stateOf streamID) (v'.stateOf streamID)

/-- A move that is no part of a shutdown, either. -/
structure View.Steady (v v' : View D) : Prop extends v.Keeps v' where
  trace : ∃ outputs, v'.trace = v.trace ++ outputs ∧
    ∀ o ∈ outputs, o.Bounded v.lastStreamToProcess
  goingAway : v'.goingAway = v.goingAway
  aborted : v'.connectionAborted = v.connectionAborted
  state : v'.gracefulShutdownState = v.gracefulShutdownState
  last : v'.lastStreamToProcess = v.lastStreamToProcess

namespace View

variable {v : View D}

/-- An entry of the table that goes on. -/
theorem Keeps.update (v : View D) (id : ℕ) (entry : Option (Option (StreamView D)))
    (h : Onward (v.stateOf id) (entry.join.map StreamView.state)) :
  v.Keeps { v with table := Function.update v.table id entry }
  := by
  refine ⟨rfl, rfl, rfl, fun streamID => ?_⟩
  unfold stateOf at h ⊢
  dsimp only
  by_cases hid : streamID = id
  · rw [hid, Function.update_self]
    exact h
  · rw [Function.update_of_ne hid]
    exact .refl _

theorem Keeps.setStream {id : ℕ} {st st' : StreamView D} (h : v.table id = some (some st))
    (hstate : st'.state = st.state ∨ st.state.MayBecome st'.state) :
  v.Keeps (v.setStream id st')
  := by
  apply Keeps.update
  refine .inr ⟨st.state, st'.state, by simp [stateOf, h], rfl, ?_⟩
  rcases hstate with hstate | hstate
  · rw [hstate]
  · exact .single hstate

theorem Steady.append (v : View D) {outputs : List Output}
    (h : ∀ o ∈ outputs, o.Bounded v.lastStreamToProcess) :
  v.Steady { v with trace := v.trace ++ outputs }
  := ⟨⟨rfl, rfl, rfl, fun _ => .refl _⟩, ⟨outputs, rfl, h⟩, rfl, rfl, rfl, rfl⟩

theorem Steady.refl (v : View D) :
  v.Steady v
  := { Steady.append v (List.forall_mem_nil _) with trace := ⟨[], (List.append_nil _).symm, nofun⟩ }

theorem Steady.output (v : View D) {o : Output} (h : o.Bounded v.lastStreamToProcess) :
  v.Steady (v.output o)
  := Steady.append v fun _ ho => List.mem_singleton.mp ho ▸ h

theorem Steady.write (v : View D) (f : OutboundFrame) (ok : Bool) (h : f.type ≠ .goaway) :
  v.Steady (v.output (.wrote f ok))
  := Steady.output v (Output.bounded_wrote h)

theorem Steady.windowUpdate (v : View D) (streamID : ℕ) (payload : Octets) (ok : Bool) :
  v.Steady (v.output (.wrote ⟨.windowUpdate, FrameFlag.empty, streamID, payload⟩ ok))
  := Steady.write v _ ok (by simp)

/-- A change of a stream, with or without an output. -/
theorem Steady.setStream {v' : View D} {id : ℕ} {st st' : StreamView D} (h : v.Steady v')
    (htable : v.table id = some (some st)) (hstate : st'.state = st.state)
    (heq : v'.table = v.table) :
  v.Steady (v'.setStream id st')
  := by
  have hkeeps : v'.Keeps (v'.setStream id st') := Keeps.setStream (heq ▸ htable) (.inl hstate)
  exact { h with onward := fun id => (h.onward id).trans (hkeeps.onward id) }

end View

theorem HeadersOutput.bounded {last : ℕ} {outputs : List Output}
    (h : HeadersOutput streamID outputs) :
  ∀ o ∈ outputs, o.Bounded last
  := by
  match outputs, h with
  | .wrote f ok :: rest, ⟨htype, _, hrest⟩ =>
    intro o ho
    rcases List.mem_cons.mp ho with rfl | ho
    · apply Output.bounded_wrote
      rw [htype]
      decide
    · obtain ⟨g, ok, rfl, hg⟩ := hrest o ho
      apply Output.bounded_wrote
      rw [hg]
      decide

theorem announceSession_steady (v : View D) (ok : Bool) :
  v.Steady (v.announceSession ok)
  := by
  by_cases hdelta : v.sessionDelta = 0
  · refine { View.Steady.refl v with trace := ⟨[], ?_, by simp⟩ }
    rw [View.announceSession, if_pos hdelta]
  · refine { View.Steady.windowUpdate v connectionStreamID
      (toBigEndian (toUInt32 v.sessionDelta)) ok with trace := ⟨_, rfl, ?_⟩ }
    rw [if_neg hdelta]
    intro o ho
    rw [List.mem_singleton.mp ho]
    exact Output.bounded_wrote (by simp)

theorem afterData_steady {v : View D} {st : StreamView D} {f : OutboundFrame} {ok : Bool} {d : D}
    (h : v.table streamID = some (some st)) (htype : f.type = .data) :
  v.Steady (v.afterData streamID st f ok d)
  := by
  have hwrite : v.Steady (v.output (.wrote f ok)) := View.Steady.write v f ok (by simp [htype])
  have hset : v.Steady ((v.output (.wrote f ok)).setStream streamID
      { st with sendWindow := st.sendWindow - f.payload.length, upload := some d }) :=
    hwrite.setStream h rfl rfl
  exact { hset with }

theorem SpecialMove.steady {k : Kind} {v v' : View D} (h : SpecialMove k v v') :
  v.Steady v'
  := by
  cases h with
  | nullEntry v id h hid => exact { View.Steady.refl v with toKeeps := .update v id _ (.inl rfl) }
  | attach v id d h hstate => exact (View.Steady.refl v).setStream h rfl rfl
  | device v id upload h hupload => exact (View.Steady.refl v).setStream h rfl rfl
  | data v id f ok d h hfits => exact afterData_steady h hfits.1
  | dataOpen v id f ok d h hfits hopen => exact afterData_steady h hfits.1
  | headers v id outputs houtputs => exact View.Steady.append v houtputs.bounded
  | headersOpen v id outputs houtputs hopen => exact View.Steady.append v houtputs.bounded
  | debitStream v id size h hsize => exact (View.Steady.refl v).setStream h rfl rfl
  | replenish v id ok h hlow => exact (View.Steady.windowUpdate v id _ ok).setStream h rfl rfl
  | update v id delta ok h => exact (View.Steady.windowUpdate v id _ ok).setStream h rfl rfl
  | clientPreface v ok htype h => exact announceSession_steady v ok
  | serverPreface v ok h => exact { announceSession_steady v ok with }
  | grantStream v id sum h => exact (View.Steady.refl v).setStream h rfl rfl
  | adjust v id sum h => exact (View.Steady.refl v).setStream h rfl rfl
  | dequeueUpdate v ok h => exact { View.Steady.windowUpdate v _ _ ok with }
  | receive v status f => exact View.Steady.output v ⟨rfl, by simp [Output.Within, Output.goawayID]⟩
  | decode v block => exact View.Steady.output v ⟨rfl, by simp [Output.Within, Output.goawayID]⟩
  | _ => exact { View.Steady.refl _ with }

/-! ### GOAWAY -/

/-- The GOAWAY frames that have been sent, and how far the shutdown is. -/
structure Goaways (v : View D) : Prop where
  incoming : v.lastIncomingStreamID ≤ lastValidStreamID
  last : v.lastStreamToProcess ≤ lastValidStreamID
  going : v.goingAway = false → v.gracefulShutdownState = .none
  unlimited : v.connectionAborted = false → v.gracefulShutdownState ≠ .finalGOAWAYSent →
    v.lastStreamToProcess = lastValidStreamID
  sent : ∀ o ∈ v.trace, ∀ last, o.goawayID = some last → v.lastStreamToProcess ≤ last
  heeded : v.trace.Pairwise Output.Heeds

namespace Goaways

variable {v v' : View D}

theorem pairwise_append {outputs : List Output} (h : Goaways v)
    (houtputs : outputs.Pairwise Output.Heeds)
    (hwithin : ∀ o ∈ outputs, o.Within v.lastStreamToProcess) :
  (v.trace ++ outputs).Pairwise Output.Heeds
  := by
  apply List.pairwise_append.mpr
  use h.heeded, houtputs
  intro o ho o' ho' last hlast
  exact (hwithin o' ho').mono (h.sent o ho last hlast)

theorem steady (h : Goaways v) (hsteady : v.Steady v') :
  Goaways v'
  := by
  obtain ⟨⟨-, -, hincoming, -⟩, ⟨outputs, htrace, hbounded⟩, hgoing, haborted, hstate, hlast⟩ :=
    hsteady
  constructor
  · rw [hincoming]
    exact h.incoming
  · rw [hlast]
    exact h.last
  · rw [hgoing, hstate]
    exact h.going
  · rw [haborted, hstate, hlast]
    exact h.unlimited
  · intro o ho last hgoaway
    rw [htrace, List.mem_append] at ho
    rcases ho with ho | ho
    · rw [hlast]
      exact h.sent o ho last hgoaway
    · rw [(hbounded o ho).1] at hgoaway
      cases hgoaway
  · rw [htrace]
    apply h.pairwise_append
    · apply List.pairwise_of_forall_mem_list
      intro o ho o' ho' last hgoaway
      rw [(hbounded o ho).1] at hgoaway
      cases hgoaway
    · exact fun o ho => (hbounded o ho).2

/-- A GOAWAY frame that names a stream up to the last one. -/
theorem goaway (h : Goaways v) (written : Option Bool) {last : ℕ} (errorCode : ℕ)
    (hlast : last ≤ v.lastStreamToProcess) :
  (∀ o ∈ v.trace ++ goawayOutput written last errorCode, ∀ id, o.goawayID = some id → last ≤ id) ∧
    (v.trace ++ goawayOutput written last errorCode).Pairwise Output.Heeds
  := by
  have hid : ∀ ok, (Output.wrote ⟨.goaway, FrameFlag.empty, connectionStreamID,
      toBigEndian last ++ toBigEndian errorCode⟩ ok).goawayID = some last := by
    intro ok
    have hlt : last < 2 ^ 32 := (hlast.trans h.last).trans_lt (by decide)
    have hread := fromBigEndian_toBigEndian hlt [] (toBigEndian errorCode)
    rw [Output.goawayID, if_pos rfl]
    exact congrArg some hread
  constructor
  · intro o ho id hgoaway
    rcases List.mem_append.mp ho with ho | ho
    · exact hlast.trans (h.sent o ho id hgoaway)
    · obtain ⟨ok, -, rfl⟩ := Option.map_eq_some_iff.mp (Option.mem_toList.mp ho)
      rw [hid] at hgoaway
      exact (Option.some.inj hgoaway).le
  · cases written with
    | none => exact h.pairwise_append List.Pairwise.nil (fun _ ho => nomatch ho)
    | some ok =>
      apply h.pairwise_append (List.pairwise_singleton ..)
      intro o ho
      rw [List.mem_singleton.mp ho]
      refine ⟨fun id hgoaway => ?_, by simp⟩
      rw [hid] at hgoaway
      exact (Option.some.inj hgoaway).ge.trans hlast

theorem routine (h : Goaways v) (hmove : RoutineMove v v') :
  Goaways v'
  := by
  cases hmove with
  | signal sig hsig =>
    exact h.steady (View.Steady.output v ⟨rfl, by simp [Output.Within, Output.goawayID, hsig]⟩)
  | announce streamID hle =>
    exact h.steady (View.Steady.output v ⟨rfl, by simp [Output.goawayID], by simpa using hle⟩)
  | write f ok hneutral => exact h.steady (View.Steady.write v f ok hneutral.2.2.2.1)
  | writePreface ok =>
    exact h.steady (View.Steady.output v ⟨rfl, by simp [Output.Within, Output.goawayID]⟩)
  | reset id errorCode ok hstream hclosed => exact h.steady (View.Steady.write v _ ok (by simp))
  | initialGoaway written prior haborted hgoing =>
    have hnone := h.going hgoing
    have hlast := h.unlimited haborted (by rw [hnone]; decide)
    have hgoaway := h.goaway written Http2Error.http2NoError hlast.ge
    refine ⟨h.incoming, h.last, fun h => absurd h (by simp), fun _ _ => hlast, ?_, hgoaway.2⟩
    rw [hlast]
    exact hgoaway.1
  | shutdownPing hstate =>
    refine { h with going := fun hgoing => ?_, unlimited := fun haborted _ => ?_ }
    · have hnone := h.going hgoing
      rw [hstate] at hnone
      cases hnone
    · exact h.unlimited haborted (by rw [hstate]; decide)
  | finalGoaway written haborted hstate =>
    have hlast := h.unlimited haborted (by rw [hstate]; decide)
    have hgoaway := h.goaway written Http2Error.http2NoError (h.incoming.trans hlast.ge)
    refine ⟨h.incoming, h.incoming, fun hgoing => ?_, fun _ h => absurd rfl h, hgoaway.1, hgoaway.2⟩
    have hnone := h.going hgoing
    rw [hstate] at hnone
    cases hnone
  | clientGoaway written haborted hgoing =>
    have hlast := h.unlimited haborted (by rw [h.going hgoing]; decide)
    have hgoaway := h.goaway written Http2Error.http2NoError (h.incoming.trans hlast.ge)
    exact ⟨h.incoming, h.incoming, fun h => absurd h (by simp), fun _ h => absurd rfl h,
      hgoaway.1, hgoaway.2⟩
  | errorGoaway written errorCode haborted =>
    have hgoaway := h.goaway written errorCode (min_le_right v.lastIncomingStreamID _)
    exact ⟨h.incoming, (min_le_left ..).trans h.incoming, fun h => absurd h (by simp),
      fun h => absurd h (by simp), hgoaway.1, hgoaway.2⟩
  | peerGoaway aborted =>
    exact { h with
      going := fun h => absurd h (by simp)
      unlimited := fun haborted => h.unlimited (by simp_all) }
  | state id new hstream hnew => exact { h with }
  | detach id hstream hclosed => exact { h with }
  | remove id => exact { h with }
  | createLocal hnone hgoing hpreface => exact { h with }
  | createRemote streamID hnone hmask hlast hle => exact { h with incoming := hle }
  | _ => exact h.steady { View.Steady.refl v with }

theorem new (connectionType : ConnectionType) (config : QHttp2Configuration) :
  Goaways (Connection.new (D := D) connectionType config).view
  := ⟨Nat.zero_le _, le_rfl, fun _ => rfl, fun _ _ => rfl, nofun, List.Pairwise.nil⟩

end Goaways

/-- In every run the GOAWAY frames that are sent never go back, and no stream behind the last one
that has been named is announced. -/
theorem run_heedsGoaways {config : QHttp2Configuration} (hstarts : Starts env config s)
    (events : List (Event D)) :
  (run env events s).2.trace.Pairwise Output.Heeds
  := by
  have hmove : ∀ v v' : View D, Moves (fun _ => True) v v' → Goaways v → Goaways v' := by
    rintro v v' (hroutine | ⟨k, -, hspecial⟩) h
    · exact h.routine hroutine
    · exact h.steady hspecial.steady
  have hserver : Goaways (createDirectServerConnection (D := D) config).view :=
    { Goaways.new (D := D) .server config with }
  have hstart := hstarts.invariant hmove (Goaways.new .client config) hserver
  exact (Reach.invariant hmove (run_moves env s events) hstart).heeded

/-- A server that closes its connection twice. -/
theorem run_heedsGoaways_closed :
  (run (byteArrayEnv 0) [.clientPreface http2clientPreface, .close 0, .close 2]
    (createDirectServerConnection smallestWindows)).2.trace.Pairwise Output.Heeds
  := run_heedsGoaways (.inr (.inl rfl)) _

theorem Moves.goingAway {v v' : View D} {n : ℕ} (h : Moves K v v')
    (hv : v.goingAway = true ∧ v.nextStreamID = n) :
  v'.goingAway = true ∧ v'.nextStreamID = n
  := by
  rcases h with h | ⟨k, -, h⟩
  · cases h with
    | createLocal hnone hgoing => exact absurd hgoing (by simp [hv.1])
    | initialGoaway => exact ⟨rfl, hv.2⟩
    | clientGoaway => exact ⟨rfl, hv.2⟩
    | errorGoaway => exact ⟨rfl, hv.2⟩
    | peerGoaway => exact ⟨rfl, hv.2⟩
    | _ => exact hv
  · have hsteady := h.steady
    exact ⟨hsteady.goingAway.trans hv.1, hsteady.nextStreamID.trans hv.2⟩

/-- Once a GOAWAY frame has been sent or received, no stream is created here in any run. -/
theorem run_createsNone (events : List (Event D)) (h : s.goingAway = true) :
  (run env events s).2.goingAway = true ∧ (run env events s).2.nextStreamID = s.nextStreamID
  := Reach.invariant (I := fun v : View D => v.goingAway = true ∧ v.nextStreamID = s.nextStreamID)
    (fun _ _ hmove => hmove.goingAway) (run_moves env s events) ⟨h, rfl⟩

/-- A client that is closed, and then asked for a stream. -/
theorem run_createsNone_closed :
  (run (byteArrayEnv 0) [.createStream false] (run (byteArrayEnv 0) [.close 0]
    (createDirectConnection smallestWindows)).2).2.nextStreamID = 1
  := (run_createsNone _ rfl).2

/-! ### The session window -/

theorem Moves.sessionWindow {v v' : View D} (h : Moves K v v')
    (hv : 0 ≤ v.sessionReceiveWindowSize ∧ 0 ≤ v.maxSessionReceiveWindowSize) :
  0 ≤ v'.sessionReceiveWindowSize ∧ 0 ≤ v'.maxSessionReceiveWindowSize
  := by
  rcases h with h | ⟨k, -, h⟩
  · cases h <;> exact hv
  · cases h with
    | debit v size hsize => exact ⟨Int.sub_nonneg.mpr hsize, hv.2⟩
    | credit v hlow => exact ⟨hv.2, hv.2⟩
    | clientPreface v ok htype hsent => exact ⟨hv.2, hv.2⟩
    | serverPreface v ok hwaiting => exact ⟨hv.2, hv.2⟩
    | _ => exact hv

/-- The receive window of the session never becomes negative. -/
theorem run_sessionWindow {config : QHttp2Configuration} (hstarts : Starts env config s)
    (events : List (Event D)) :
  0 ≤ (run env events s).2.sessionReceiveWindowSize
  := by
  have hnew : (0 : ℤ) ≤ defaultSessionWindowSize ∧ (0 : ℤ) ≤ config.sessionReceiveWindowSize :=
    ⟨by decide, Int.natCast_nonneg _⟩
  have hstart := hstarts.invariant (fun _ _ hmove => hmove.sessionWindow) hnew hnew
  exact (Reach.invariant (fun _ _ hmove => hmove.sessionWindow) (run_moves env s events) hstart).1

theorem run_sessionWindow_client :
  0 ≤ (run (byteArrayEnv 0) [.createStream false]
    (createDirectConnection smallestWindows)).2.sessionReceiveWindowSize
  := run_sessionWindow (.inl rfl) _

/-! ### Streams -/

/-- The numbers from here on have not been given to streams.  A server may be promised a stream of
its own parity, so for a server this says something of the odd ones only. -/
def View.unused (v : View D) (streamID : ℕ) : ℕ :=
  if v.remoteMask = 0 ∧ streamID % 2 = 1 then v.nextStreamID else v.lastIncomingStreamID + 1

/-- The next number has its parity, and the streams that are there have used theirs. -/
structure Numbered (v : View D) : Prop where
  parity : v.nextStreamID % 2 + v.remoteMask = 1
  used : ∀ streamID, v.remoteMask = 0 ∨ streamID % 2 = 1 → v.stateOf streamID ≠ none →
    streamID < v.unused streamID

/-- A move gives away a number, or none. -/
structure View.Gives (new : ℕ) (v v' : View D) : Prop where
  remoteMask : v'.remoteMask = v.remoteMask
  number : new = v.nextStreamID ∧ v'.nextStreamID = v.nextStreamID + 2 ∧
      v'.lastIncomingStreamID = v.lastIncomingStreamID ∨
    (new % 2 = v.remoteMask ∨ new % 2 = 0) ∧ v.lastIncomingStreamID < new ∧
      v'.nextStreamID = v.nextStreamID ∧ v'.lastIncomingStreamID = new
  others : ∀ streamID, streamID ≠ new → v'.stateOf streamID = v.stateOf streamID

theorem View.stateOf_setStream (v : View D) (id : ℕ) (st : StreamView D) (h : streamID ≠ id) :
  (v.setStream id st).stateOf streamID = v.stateOf streamID
  := by
  simp [View.stateOf, View.setStream, Function.update_of_ne h]

theorem RoutineMove.keeps_or_gives {v v' : View D} (h : RoutineMove v v') :
  v.Keeps v' ∨ ∃ new, v.Gives new v'
  := by
  cases h with
  | state id new h hnew => exact .inl (View.Keeps.setStream h (.inr hnew))
  | detach id h hclosed => exact .inl (View.Keeps.setStream h (.inl rfl))
  | createLocal h hgoing hpreface =>
    exact .inr ⟨_, rfl, .inl ⟨rfl, rfl, rfl⟩, fun _ => v.stateOf_setStream _ _⟩
  | createRemote id h hmask hlast hle =>
    exact .inr ⟨id, rfl, .inr ⟨hmask, hlast, rfl, rfl⟩, fun _ => v.stateOf_setStream _ _⟩
  | remove id => exact .inl (.update v id none (.inl rfl))
  | _ => exact .inl { (View.Steady.refl v).toKeeps with }

section

variable {v v' : View D} {new : ℕ}

/-- The streams that are or were there go on. -/
structure View.Leads (v v' : View D) : Prop where
  remoteMask : v'.remoteMask = v.remoteMask
  numbered : Numbered v'
  onward : ∀ streamID, v.remoteMask = 0 ∨ streamID % 2 = 1 → streamID < v.unused streamID →
    streamID < v'.unused streamID ∧ Onward (v.stateOf streamID) (v'.stateOf streamID)

theorem Numbered.keeps (h : Numbered v) (hkeeps : v.Keeps v') :
  v.Leads v'
  := by
  have hunused : ∀ streamID, v'.unused streamID = v.unused streamID := by
    intro streamID
    rw [View.unused, View.unused, hkeeps.remoteMask, hkeeps.nextStreamID,
      hkeeps.lastIncomingStreamID]
  refine ⟨hkeeps.remoteMask, ⟨?_, fun id hmine hthere => ?_⟩, fun id _ hlt => ?_⟩
  · rw [hkeeps.nextStreamID, hkeeps.remoteMask, h.parity]
  · rw [hunused]
    apply h.used id (hkeeps.remoteMask ▸ hmine)
    rcases hkeeps.onward id with hnone | ⟨a, b, ha, -⟩
    · exact absurd hnone hthere
    · rw [ha]
      exact Option.some_ne_none a
  · rw [hunused]
    exact ⟨hlt, hkeeps.onward id⟩

/-- A number that has been used is not given away again. -/
theorem Numbered.gives (h : Numbered v) (hgives : v.Gives new v') :
  v.Leads v'
  := by
  have hparity := h.parity
  have hnumber := hgives.number
  have hunused : ∀ streamID, v.remoteMask = 0 ∨ streamID % 2 = 1 →
      v.unused streamID ≤ v'.unused streamID ∧
        (streamID = new → v.unused streamID ≤ streamID ∧ streamID < v'.unused streamID) := by
    intro streamID hmine
    rw [View.unused, View.unused, hgives.remoteMask]
    split_ifs
    all_goals omega
  refine ⟨hgives.remoteMask, ⟨?_, fun id hmine hthere => ?_⟩, fun id hmine hlt => ?_⟩
  · rw [hgives.remoteMask]
    omega
  · rw [hgives.remoteMask] at hmine
    by_cases hid : id = new
    · exact ((hunused id hmine).2 hid).2
    · rw [hgives.others id hid] at hthere
      exact (h.used id hmine hthere).trans_le (hunused id hmine).1
  · refine ⟨hlt.trans_le (hunused id hmine).1, ?_⟩
    rw [hgives.others id fun hid => absurd ((hunused id hmine).2 hid).1 (not_le.mpr hlt)]
    exact .refl _

theorem Numbered.move (h : Numbered v) (hmove : Moves K v v') :
  v.Leads v'
  := by
  rcases hmove with hmove | ⟨k, -, hmove⟩
  · rcases hmove.keeps_or_gives with hkeeps | ⟨new, hgives⟩
    · exact h.keeps hkeeps
    · exact h.gives hgives
  · exact h.keeps hmove.steady.toKeeps

theorem Numbered.reach {s s' : Connection D} (h : Numbered s.view) (hreach : Reach K s s') :
  s.view.Leads s'.view
  := by
  apply Reach.invariant (I := s.view.Leads) _ hreach
  · exact ⟨rfl, h, fun _ _ hlt => ⟨hlt, .refl _⟩⟩
  · intro v v' hmove hleads
    have hnext := hleads.numbered.move hmove
    refine ⟨hnext.remoteMask.trans hleads.remoteMask, hnext.numbered, fun id hmine hlt => ?_⟩
    obtain ⟨hlt₁, h₁⟩ := hleads.onward id hmine hlt
    obtain ⟨hlt₂, h₂⟩ := hnext.onward id (hleads.remoteMask ▸ hmine) hlt₁
    exact ⟨hlt₂, h₁.trans h₂⟩

end

theorem Connection.stateOf_view (s : Connection D) (streamID : ℕ) :
  s.view.stateOf streamID = (s.getStream streamID).map Stream.state
  := by
  rw [View.stateOf, s.view_table, Connection.getStream]
  cases s.streams.lookup streamID with
  | none => rfl
  | some entry => cases entry <;> rfl

theorem starts_numbered {config : QHttp2Configuration} (hstarts : Starts env config s) :
  Numbered s.view
  := by
  apply hstarts.invariant (fun v v' hmove h => (h.move hmove).numbered)
  · exact ⟨rfl, fun streamID _ h => absurd rfl h⟩
  · have hmask : (createDirectServerConnection (D := D) config).view.remoteMask = 1 := rfl
    have hnext : (createDirectServerConnection (D := D) config).view.nextStreamID = 2 := rfl
    exact ⟨by rw [hmask, hnext], fun streamID _ h => absurd rfl h⟩

/-- In every run, a stream that has been there only advances, and it does not come back once it is
gone. -/
theorem run_onward {config : QHttp2Configuration} (hstarts : Starts env config s)
    (events more further : List (Event D)) {s₁ s₂ : Connection D}
    (h₁ : (run env events s).2 = s₁) (h₂ : (run env more s₁).2 = s₂)
    (hthere : (s₁.getStream streamID).isSome)
    (hmine : s₁.connectionType = .client ∨ streamID % 2 = 1) :
  Onward ((s₂.getStream streamID).map Stream.state)
    (((run env further s₂).2.getStream streamID).map Stream.state)
  := by
  subst h₁ h₂
  have hmask : (run env events s).2.view.remoteMask = 0 ∨ streamID % 2 = 1 := by
    rcases hmine with htype | hodd
    · exact .inl (by simp [View.remoteMask, Connection.view, htype])
    · exact .inr hodd
  have hnumbered := ((starts_numbered hstarts).reach (run_moves env s events)).numbered
  have hused : streamID < (run env events s).2.view.unused streamID := by
    apply hnumbered.used streamID hmask
    rw [Connection.stateOf_view]
    obtain ⟨st, hst⟩ := Option.isSome_iff_exists.mp hthere
    rw [hst]
    exact Option.some_ne_none _
  have hmore := hnumbered.reach (run_moves env _ more)
  have hfurther := hmore.numbered.reach (run_moves env _ further)
  have honward := (hfurther.onward streamID (hmore.remoteMask ▸ hmask)
    (hmore.onward streamID hmask hused).1).2
  rw [Connection.stateOf_view, Connection.stateOf_view] at honward
  exact honward

/-- A client that deletes its first stream. -/
theorem run_onward_deleted :
  Onward (some .idle) none
  := @run_onward _ (byteArrayEnv 0) (createDirectConnection smallestWindows) 1 smallestWindows
    (.inl rfl) [.createStream false] [] [.deleteStream 1] _ _ rfl rfl rfl (.inl rfl)

end Http2
