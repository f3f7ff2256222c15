import BobUI.Network.Http2.UploadMoves

/-!
# The moves of the handlers of streams

What the handlers of a stream do to the view of a connection.
-/

namespace Http2

open Proc

variable {D : Type} {K : Kind → Prop} {env : Env D} {s s' : Connection D} {streamID : ℕ}

/-! ### What is read of a frame -/

theorem readUInt32_eq (f : Frame) (offset : ℕ) (s : Connection D) :
  readUInt32 f offset s = (.error .outOfBounds, s) ∨ ∃ n, readUInt32 f offset s = (.ok n, s)
  := by
  rw [readUInt32]
  cases f.dataBegin with
  | none => exact .inl rfl
  | some start =>
    dsimp only
    split
    · exact .inr ⟨_, rfl⟩
    · exact .inl rfl

theorem readData_eq (f : Frame) (size : ℕ) (s : Connection D) :
  readData f size s = (.error .outOfBounds, s) ∨ ∃ data, readData f size s = (.ok data, s)
  := by
  rw [readData]
  split
  · exact .inr ⟨_, rfl⟩
  · cases f.dataBegin with
    | none => exact .inl rfl
    | some start =>
      dsimp only
      split
      · exact .inr ⟨_, rfl⟩
      · exact .inl rfl

variable {f : Frame} {st : Stream D} {R : Connection D → Connection D → Prop}

/-- What follows the reading of a number follows in the same state. -/
theorem readUInt32_bind {α : Type} [IsPreorder (Connection D) R] {offset : ℕ}
    {p : ℕ → Operation D α} (h : ∀ n, readUInt32 f offset s = (.ok n, s) → Along R (p n) s) :
  Along R (readUInt32 f offset >>= p) s
  := by
  rcases readUInt32_eq f offset s with heq | ⟨n, heq⟩
  · rw [Along, bind_of_error heq]
    exact refl_of R s
  · exact Along.bind_of_ok heq (refl_of R s) (h n heq)

theorem readData_bind {α : Type} [IsPreorder (Connection D) R] {size : ℕ}
    {p : Octets → Operation D α} (h : ∀ data, Along R (p data) s) :
  Along R (readData f size >>= p) s
  := by
  rcases readData_eq f size s with heq | ⟨data, heq⟩
  · rw [Along, bind_of_error heq]
    exact refl_of R s
  · exact Along.bind_of_ok heq (refl_of R s) (h data)

/-! ### DATA -/

theorem deliverDATA_moves {endStream : Bool} :
  Along (Reach K) (deliverDATA streamID f endStream) s
  := by
  apply readData_bind
  intro fragment
  apply Along.bind (Along.when fun _ => transitionState_moves _)
  intro _ s₁ _
  apply Along.bind
  · apply modifyStream_moves
    intro st
    split
    · rfl
    · rfl
  · intro _ s₂ _
    exact emit_stream_moves

theorem getStream_of_deliverDATA {endStream : Bool} {a : Unit}
    (h : deliverDATA streamID f endStream s = (.ok a, s'))
    (hstream : s.getStream streamID = some st) :
  ∃ st', s'.getStream streamID = some st' ∧ st'.recvWindow = st.recvWindow
  := by
  rw [deliverDATA] at h
  rcases readData_eq f f.dataSize s with heq | ⟨data, heq⟩
  · rw [bind_of_error heq] at h
    cases h
  · rw [bind_of_ok heq] at h
    obtain ⟨_, s₁, h₁, h⟩ := bind_eq_ok h
    have hstream₁ : ∃ st₁, s₁.getStream streamID = some st₁ ∧
        st₁.recvWindow = st.recvWindow := by
      cases endStream with
      | true => exact ⟨_, getStream_of_transitionState h₁ hstream, rfl⟩
      | false =>
        cases h₁
        exact ⟨st, hstream, rfl⟩
    obtain ⟨st₁, hstream₁, hwindow₁⟩ := hstream₁
    rw [bind_of_ok (modifyStream_of_some hstream₁ _)] at h
    cases h
    refine ⟨_, Connection.getStream_putStream .., ?_⟩
    rw [← hwindow₁]
    split
    · rfl
    · rfl

/-- The update of the window of a stream to its initial size. -/
theorem replenishStream_moves (hK : K .replenish) (hstream : s.getStream streamID = some st)
    (hlow : st.recvWindow < s.streamInitialReceiveWindowSize / 2) :
  Along (Reach K) (sendWINDOW_UPDATE env streamID
    (toUInt32 (s.streamInitialReceiveWindowSize - st.recvWindow))) s
  := by
  obtain ⟨ok, s₁, heq, hview⟩ := sendWINDOW_UPDATE_view env hstream
    (toUInt32 (s.streamInitialReceiveWindowSize - st.recvWindow))
  rw [Along, heq]
  apply Reach.special hK
  rw [hview]
  exact .replenish s.view streamID ok (Connection.view_table_of_getStream hstream) hlow

theorem Moves.streamInitialReceiveWindowSize_eq {v v' : View D} (h : Moves K v v') :
  v'.streamInitialReceiveWindowSize = v.streamInitialReceiveWindowSize
  := by
  rcases h with h | ⟨k, -, h⟩
  · cases h <;> rfl
  · cases h <;> rfl

theorem Reach.streamInitialReceiveWindowSize_eq (h : Reach K s s') :
  s'.streamInitialReceiveWindowSize = s.streamInitialReceiveWindowSize
  := by
  apply Reach.invariant (I := fun v : View D =>
    v.streamInitialReceiveWindowSize = s.streamInitialReceiveWindowSize) ?_ h rfl
  exact fun v v' hmove hv => (Moves.streamInitialReceiveWindowSize_eq hmove).trans hv

/-- What `handleDATA` does once the window of the stream has been debited. -/
def debitedDATA (env : Env D) (streamID : ℕ) (f : Frame) (ignored : Bool)
    (initial recvWindow : ℤ) : Operation D Unit := do
  let endStream := testFlag f.flags FrameFlag.endStream
  when ((f.dataSize > 0 ∨ endStream) ∧ !ignored) (deliverDATA streamID f endStream)
  if !endStream ∧ recvWindow < initial / 2 then
    sendWINDOW_UPDATE env streamID (toUInt32 (initial - recvWindow))
  else pure ()

theorem debitedDATA_moves {ignored : Bool} {initial recvWindow : ℤ} (hK : K .replenish)
    (hstream : s.getStream streamID = some st)
    (hinitial : s.streamInitialReceiveWindowSize = initial)
    (hwindow : st.recvWindow = recvWindow) :
  Along (Reach K) (debitedDATA env streamID f ignored initial recvWindow) s
  := by
  subst hinitial hwindow
  have hdeliver : Along (Reach K) (when ((f.dataSize > 0 ∨ testFlag f.flags FrameFlag.endStream) ∧
      !ignored) (deliverDATA streamID f (testFlag f.flags FrameFlag.endStream))) s :=
    Along.when fun _ => deliverDATA_moves
  apply Along.bind hdeliver
  · intro _ s₁ h₁
    have hreach : Reach K s s₁ := by
      rw [Along, h₁] at hdeliver
      exact hdeliver
    have hstream₁ : ∃ st₁, s₁.getStream streamID = some st₁ ∧
        st₁.recvWindow = st.recvWindow := by
      by_cases h : (f.dataSize > 0 ∨ testFlag f.flags FrameFlag.endStream = true) ∧
          (!ignored) = true
      · rw [when_pos _ h] at h₁
        exact getStream_of_deliverDATA h₁ hstream
      · rw [when_neg _ h] at h₁
        cases h₁
        exact ⟨st, hstream, rfl⟩
    obtain ⟨st₁, hstream₁, hwindow₁⟩ := hstream₁
    rw [← hwindow₁, ← hreach.streamInitialReceiveWindowSize_eq]
    apply Along.ite
    · intro h
      exact replenishStream_moves hK hstream₁ h.2
    · intro _
      exact Along.pure _ s₁

/-- A frame within the window of its stream is debited. -/
theorem streamHandleDATA_of_fits (hstream : s.getStream streamID = some st)
    (hfits : (f.payloadSize : ℤ) ≤ st.recvWindow) :
  streamHandleDATA env streamID f s =
    debitedDATA env streamID f (s.streamIsIgnored streamID) s.streamInitialReceiveWindowSize
      (st.recvWindow - f.payloadSize)
      (s.putStream streamID { st with recvWindow := st.recvWindow - f.payloadSize })
  := by
  rw [streamHandleDATA, current_bind]
  simp only [hstream]
  rw [if_neg (not_lt.mpr hfits), bind_of_ok (modifyStream_of_some hstream _)]
  rfl

theorem streamHandleDATA_of_exceeds (hstream : s.getStream streamID = some st)
    (hexceeds : st.recvWindow < f.payloadSize) :
  streamHandleDATA env streamID f s =
    streamError env streamID Http2Error.flowControlError "data bigger than window size" s
  := by
  rw [streamHandleDATA, current_bind]
  simp only [hstream]
  rw [if_pos hexceeds]

/-! ### HEADERS, RST_STREAM and WINDOW_UPDATE -/

theorem streamHandleHEADERS_moves {flags : ℕ} {headers : HPack.HttpHeader} :
  Along (Reach K) (streamHandleHEADERS streamID flags headers) s
  := by
  apply Along.current_bind
  cases hstream : s.getStream streamID with
  | none => exact Along.pure _ s
  | some st =>
    apply Along.bind (Along.when fun _ => transitionState_moves _)
    intro _ s₁ _
    apply Along.bind (Along.when fun _ => transitionState_moves _)
    intro _ s₂ _
    apply Along.bind
    · apply Along.when
      intro _
      apply Along.bind (modifyStream_moves (by intro _; rfl))
      intro _ s₃ _
      exact emit_stream_moves
    · intro _ s₃ _
      exact emit_stream_moves

theorem streamHandleRST_STREAM_moves :
  Along (Reach K) (streamHandleRST_STREAM streamID f) s
  := by
  apply Along.current_bind
  cases hstream : s.getStream streamID with
  | none => exact Along.pure _ s
  | some st =>
    apply Along.guard (Along.pure _ s)
    intro hclosed
    apply Along.bind (transitionState_moves _)
    intro _ s₁ h₁
    have hstream₁ := getStream_of_transitionState h₁ hstream
    have hidle : st.state ≠ .idle := by
      intro hidle
      rw [transitionState, current_bind] at h₁
      simp only [hstream] at h₁
      rw [if_pos ⟨hidle, by decide⟩] at h₁
      cases h₁
    rw [nextState_rst hclosed hidle] at hstream₁
    apply readUInt32_bind
    intro error _
    apply Along.bind
    · rw [Along, modifyStream_of_some hstream₁]
      apply Reach.routine
      rw [Connection.view_putStream]
      exact .detach s₁.view streamID (Connection.view_table_of_getStream hstream₁) (.inr rfl)
    · intro _ s₂ _
      exact finishWithError_moves _ _

theorem streamHandleWINDOW_UPDATE_moves (hK : K .device) (hgrant : K .grantStream)
    (hdata : K .data) :
  Along (Reach K) (streamHandleWINDOW_UPDATE env streamID f) s
  := by
  apply readUInt32_bind
  intro delta _
  apply Along.current_bind
  cases hstream : s.getStream streamID with
  | none => exact Along.pure _ s
  | some st =>
    dsimp only
    cases (if validDelta delta = true then addOverflow st.sendWindow delta else none) with
    | none => exact streamError_moves _ _
    | some sum =>
      have hgranted : Reach K s (s.putStream streamID { st with sendWindow := sum }) := by
        apply Reach.special hgrant
        rw [Connection.view_putStream]
        exact .grantStream s.view streamID sum (Connection.view_table_of_getStream hstream)
      apply Along.bind_of_ok (modifyStream_of_some hstream _) hgranted
      apply Along.guard (maybeResumeUpload_moves hK (.inl hdata))
      intro _
      exact Along.pure _ _

end Http2
