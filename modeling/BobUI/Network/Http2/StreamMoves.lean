import BobUI.Network.Http2.Moves

/-!
# The moves of the procedures of streams

What each procedure does to the view of a connection is a sequence of moves.
-/

namespace Http2

open Proc

variable {D : Type} {K : Kind → Prop} {s s' : Connection D} {streamID : ℕ}

/-! ### Views -/

theorem Reach.of_view_eq (h : s'.view = s.view) :
  Reach K s s'
  := by
  rw [Reach, h]

theorem Reach.routine (h : RoutineMove s.view s'.view) :
  Reach K s s'
  := .single (.inl h)

theorem Reach.special {k : Kind} (hk : K k) (h : SpecialMove k s.view s'.view) :
  Reach K s s'
  := .single (.inr ⟨k, hk, h⟩)

/-- What every move preserves holds at the end of a sequence of moves. -/
theorem Reach.invariant {I : View D → Prop} (hmove : ∀ v v', Moves K v v' → I v → I v')
    (h : Reach K s s') (hs : I s.view) :
  I s'.view
  := by
  rw [Reach] at h
  generalize s'.view = v' at h ⊢
  induction h with
  | refl => exact hs
  | tail _ h ih => exact hmove _ _ h ih

theorem Connection.view_table (s : Connection D) (streamID : ℕ) :
  s.view.table streamID = (s.streams.lookup streamID).map (Option.map Stream.view)
  := rfl

variable {st : Stream D} {new : StreamState} {transition : StateTransition}

theorem Connection.lookup_of_getStream (h : s.getStream streamID = some st) :
  s.streams.lookup streamID = some (some st)
  := Option.join_eq_some_iff.mp h

theorem Connection.view_table_of_getStream (h : s.getStream streamID = some st) :
  s.view.table streamID = some (some st.view)
  := by
  rw [s.view_table, Connection.lookup_of_getStream h]
  rfl

theorem Connection.view_table_eq_none (s : Connection D) (streamID : ℕ) :
  s.view.table streamID = none ↔ streamID ∉ s.streams
  := by
  rw [s.view_table, Option.map_eq_none_iff, AList.lookup_eq_none]

@[simp]
theorem Connection.getStream_putStream (s : Connection D) (streamID : ℕ) (st : Stream D) :
  (s.putStream streamID st).getStream streamID = some st
  := by
  simp [Connection.getStream, Connection.putStream]

@[simp]
theorem Connection.view_putStream (s : Connection D) (streamID : ℕ) (st : Stream D) :
  (s.putStream streamID st).view = s.view.setStream streamID st.view
  := by
  have htable : (s.putStream streamID st).view.table =
      Function.update s.view.table streamID (some (some st.view)) := by
    funext id
    by_cases h : id = streamID
    · subst h
      simp [Connection.view, Connection.putStream]
    · simp [Connection.view, Connection.putStream, AList.lookup_insert_ne h, Function.update_of_ne h]
  rw [View.setStream, ← htable]
  rfl

theorem View.setStream_eq_self {v : View D} {st : StreamView D}
    (h : v.table streamID = some (some st)) :
  v.setStream streamID st = v
  := by
  rw [View.setStream, ← h, Function.update_eq_self]

/-! ### Elementary operations -/

theorem modifyStream_of_some (h : s.getStream streamID = some st) (f : Stream D → Stream D) :
  modifyStream streamID f s = (.ok (), s.putStream streamID (f st))
  := by
  simp only [modifyStream, change_apply, h]

theorem modifyStream_of_none (h : s.getStream streamID = none) (f : Stream D → Stream D) :
  modifyStream streamID f s = (.ok (), s)
  := by
  simp only [modifyStream, change_apply, h]

/-- A change of what the view does not keep of a stream. -/
theorem modifyStream_moves {f : Stream D → Stream D} (h : ∀ st, (f st).view = st.view) :
  Along (Reach K) (modifyStream streamID f) s
  := by
  apply Reach.of_view_eq
  cases hstream : s.getStream streamID with
  | none => rw [modifyStream_of_none hstream]
  | some st =>
    rw [modifyStream_of_some hstream, Connection.view_putStream, h,
      View.setStream_eq_self (Connection.view_table_of_getStream hstream)]

theorem emit_moves {sig : Signal} (h : ∀ streamID, sig ≠ .newIncomingStream streamID) :
  Along (Reach K) (emit sig) s
  := Reach.routine (.signal s.view sig h)

theorem emit_stream_moves {sig : StreamSignal} :
  Along (Reach K) (emit (.stream streamID sig)) s
  := emit_moves (by simp)

variable {env : Env D}

theorem write_eq (env : Env D) (f : OutboundFrame) (s : Connection D) :
  write env f s = (.ok (s.socketOpen && env.writeOk s.writes), { s with
    writes := s.writes + 1
    trace := s.trace ++ [.wrote f (s.socketOpen && env.writeOk s.writes)] })
  := rfl

theorem write_moves {f : OutboundFrame} (h : f.Neutral) :
  Along (Reach K) (write env f) s
  := Reach.routine (.write s.view f _ h)

/-! ### The state of a stream -/

theorem maybeCloseOnGoingAway_moves :
  Along (Reach K) maybeCloseOnGoingAway s
  := by
  apply Along.current_bind
  apply Along.guard (Along.pure _ s)
  intro _
  apply Along.guard (Along.pure _ s)
  intro _
  apply Along.guard (emit_moves (by simp))
  intro _
  exact Along.pure _ s

theorem setState_of_some (h : s.getStream streamID = some st) (hnew : st.state ≠ new) :
  setState streamID new s =
    ((do
      emit (.stream streamID (.stateChanged new))
      if new = .closed then maybeCloseOnGoingAway else pure ()) : Operation D Unit)
      (s.putStream streamID { st with state := new })
  := by
  rw [setState, current_bind]
  simp only [h, if_neg hnew]
  rw [bind_of_ok (modifyStream_of_some h _)]

theorem setState_moves
    (hnew : ∀ st, s.getStream streamID = some st → st.state = new ∨ st.state.MayBecome new) :
  Along (Reach K) (setState streamID new) s
  := by
  cases h : s.getStream streamID with
  | none =>
    apply Along.current_bind
    simp only [h]
    exact Along.pure _ s
  | some st =>
    by_cases hsame : st.state = new
    · apply Along.current_bind
      simp only [h, if_pos hsame]
      exact Along.pure _ s
    · have hmove : Reach K s (s.putStream streamID { st with state := new }) := by
        apply Reach.routine
        rw [Connection.view_putStream]
        exact .state s.view streamID new (Connection.view_table_of_getStream h)
          ((hnew st h).resolve_left hsame)
      rw [Along, setState_of_some h hsame]
      refine trans_of _ hmove ?_
      apply Along.bind emit_stream_moves
      intro _ s' _
      apply Along.guard maybeCloseOnGoingAway_moves
      intro _
      exact Along.pure _ s'

theorem maybeCloseOnGoingAway_ok (s : Connection D) :
  ∃ outputs, maybeCloseOnGoingAway s = (.ok (), { s with trace := s.trace ++ outputs })
  := by
  have hnone : ((.ok (), s) : Except Fault Unit × Connection D) =
      (.ok (), { s with trace := s.trace ++ [] }) := by
    rw [List.append_nil]
  rw [maybeCloseOnGoingAway, current_bind]
  split
  · exact ⟨[], hnone⟩
  · split
    · exact ⟨[], hnone⟩
    · split
      · exact ⟨_, rfl⟩
      · exact ⟨[], hnone⟩

/-- A stream that is there gets the state. -/
theorem setState_ok (h : s.getStream streamID = some st) (new : StreamState) :
  ∃ s', setState streamID new s = (.ok (), s') ∧
    s'.getStream streamID = some { st with state := new }
  := by
  by_cases hsame : st.state = new
  · use s
    rw [setState, current_bind]
    simp only [h, if_pos hsame, pure_apply, true_and]
    rw [← hsame]
  · rw [setState_of_some h hsame]
    set s₁ := s.putStream streamID { st with state := new }
    have h₁ : s₁.getStream streamID = some { st with state := new } := s.getStream_putStream _ _
    rw [bind_of_ok (s := s₁) (show emit _ s₁ = (.ok (), _) from rfl)]
    split
    · obtain ⟨outputs, houtputs⟩ := maybeCloseOnGoingAway_ok
        { s₁ with trace := s₁.trace ++ [.signal (.stream streamID (.stateChanged new))] }
      exact ⟨_, houtputs, h₁⟩
    · exact ⟨_, rfl, h₁⟩

theorem nextState_mayBecome {state : StreamState} (h : nextState state transition = some new) :
  state.MayBecome new
  := by
  cases state <;> cases transition <;> cases h <;> simp [StreamState.MayBecome]

theorem transitionState_moves (transition : StateTransition) :
  Along (Reach K) (transitionState streamID transition) s
  := by
  apply Along.current_bind
  cases h : s.getStream streamID with
  | none => exact Along.pure _ s
  | some st =>
    apply Along.guard (Along.fail _ s)
    intro _
    cases hnext : nextState st.state transition with
    | none => exact Along.pure _ s
    | some new =>
      apply setState_moves
      intro st' h'
      rw [h] at h'
      cases h'
      exact .inr (nextState_mayBecome hnext)

theorem finishWithError_moves (errorCode : ℕ) (message : String) :
  Along (Reach K) (finishWithError streamID errorCode message) s
  := by
  apply Along.bind (transitionState_moves _)
  intro _ s' _
  exact emit_stream_moves

theorem getStream_of_transitionState {a : Unit}
    (h : transitionState streamID transition s = (.ok a, s'))
    (hstream : s.getStream streamID = some st) :
  s'.getStream streamID = some { st with state := (nextState st.state transition).getD st.state }
  := by
  rw [transitionState, current_bind] at h
  simp only [hstream] at h
  split at h
  · cases h
  · cases hnext : nextState st.state transition with
    | none =>
      rw [hnext] at h
      cases h
      exact hstream
    | some new =>
      rw [hnext] at h
      obtain ⟨s₁, h₁, hstate⟩ := setState_ok hstream new
      dsimp only at h
      rw [h₁] at h
      cases h
      exact hstate

/-! ### Resetting a stream -/

theorem nextState_rst {state : StreamState} (hclosed : state ≠ .closed) (hidle : state ≠ .idle) :
  nextState state .rst = some .closed
  := by
  cases state <;> first | rfl | contradiction

theorem sendRST_STREAM_moves (errorCode : ℕ) :
  Along (Reach K) (sendRST_STREAM env streamID errorCode) s
  := by
  apply Along.current_bind
  cases h : s.getStream streamID with
  | none => exact Along.pure _ s
  | some st =>
    apply Along.guard (Along.pure _ s)
    intro hstate
    rw [not_or] at hstate
    apply Along.guard (Along.pure _ s)
    intro _
    apply Along.change_bind (Reach.of_view_eq rfl)
    apply Along.bind (modifyStream_moves (by intro _; rfl))
    intro _ s₁ h₁
    have hreset : (s.registerReset streamID).getStream streamID = some st := h
    rw [modifyStream_of_some hreset] at h₁
    cases h₁
    apply Along.bind (transitionState_moves _)
    intro _ s₂ h₂
    have hstream := getStream_of_transitionState h₂ (Connection.getStream_putStream ..)
    apply Reach.routine
    refine .reset _ _ _ _ (Connection.view_table_of_getStream hstream) ?_
    simp [Stream.view, nextState_rst hstate.1 hstate.2]

theorem streamError_moves (errorCode : ℕ) (message : String) :
  Along (Reach K) (streamError env streamID errorCode message) s
  := by
  apply Along.bind (sendRST_STREAM_moves _)
  intro _ s' _
  exact emit_stream_moves

/-- The connection after a frame has been handed to the socket. -/
def Connection.written (s : Connection D) (f : OutboundFrame) (ok : Bool) : Connection D :=
  { s with writes := s.writes + 1, trace := s.trace ++ [.wrote f ok] }

@[simp]
theorem Connection.view_written (s : Connection D) (f : OutboundFrame) (ok : Bool) :
  (s.written f ok).view = s.view.output (.wrote f ok)
  := rfl

theorem write_written (env : Env D) (f : OutboundFrame) (s : Connection D) :
  ∃ ok, write env f s = (.ok ok, s.written f ok)
  := ⟨_, write_eq env f s⟩

/-- The update of the window of a stream that is there. -/
theorem sendWINDOW_UPDATE_view (env : Env D) (h : s.getStream streamID = some st) (delta : ℕ) :
  ∃ ok s', sendWINDOW_UPDATE env streamID delta s = (.ok (), s') ∧
    s'.view = s.view.updateStream streamID st.view delta ok
  := by
  let st' : Stream D := { st with recvWindow := toInt32 (st.recvWindow + toInt32 delta) }
  let f : OutboundFrame := ⟨.windowUpdate, FrameFlag.empty, streamID, toBigEndian delta⟩
  obtain ⟨ok, hwrite⟩ := write_written env f (s.putStream streamID st')
  use ok, (s.putStream streamID st').written f ok
  constructor
  · rw [sendWINDOW_UPDATE, bind_of_ok (modifyStream_of_some h _), sendWindowUpdateFrame,
      bind_of_ok hwrite]
    rfl
  · rw [Connection.view_written, Connection.view_putStream]
    rfl

end Http2
