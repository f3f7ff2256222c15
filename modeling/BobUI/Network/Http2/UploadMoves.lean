import BobUI.Network.Http2.SendMoves

/-!
# The moves of uploads and of headers

What `internalSendDATA` and `sendHEADERS` do to the view of a connection, with what leads to
them.  DATA is of the kind `data`, or of the kind `dataOpen` where nothing that has been
observed closes the stream; HEADERS are of the kind `headers` or `headersOpen` likewise.
-/

namespace Http2

open Proc

variable {D : Type} {K : Kind → Prop} {env : Env D} {s s' : Connection D} {streamID : ℕ}

/-! ### The end of an upload -/

/-- A change of the upload device of a stream that uploads. -/
theorem modifyStream_device_moves {upload : Option D} {f : Stream D → Stream D} {st : Stream D}
    (hK : K .device) (hstream : s.getStream streamID = some st)
    (hupload : st.uploadByteDevice.isSome = true)
    (hf : (f st).view = { st.view with upload := upload }) :
  Along (Reach K) (modifyStream streamID f) s
  := by
  rw [Along, modifyStream_of_some hstream]
  apply Reach.special hK
  rw [Connection.view_putStream, hf]
  exact .device s.view streamID upload (Connection.view_table_of_getStream hstream) hupload

theorem finishSendDATA_moves {st : Stream D} (hK : K .device)
    (hstream : s.getStream streamID = some st) (hupload : st.uploadByteDevice.isSome = true) :
  Along (Reach K) (finishSendDATA streamID) s
  := by
  apply Along.current_bind
  simp only [hstream]
  apply Along.bind (Along.when fun _ => transitionState_moves _)
  intro _ s₁ h₁
  have hstream₁ : ∃ st₁, s₁.getStream streamID = some st₁ ∧
      st₁.uploadByteDevice.isSome = true := by
    by_cases hend : st.endStreamAfterDATA = true
    · rw [when_pos _ hend] at h₁
      exact ⟨_, getStream_of_transitionState h₁ hstream, hupload⟩
    · rw [when_neg _ hend] at h₁
      cases h₁
      exact ⟨st, hstream, hupload⟩
  obtain ⟨st₁, hstream₁, hupload₁⟩ := hstream₁
  apply Along.bind (modifyStream_device_moves hK hstream₁ hupload₁ rfl)
  intro _ s₂ _
  exact emit_stream_moves

/-- A DATA frame without octets ends the stream. -/
theorem writeEndStream_moves {st : Stream D} {d : D} (hstream : s.getStream streamID = some st)
    (hupload : st.uploadByteDevice = some d)
    (hkind : K .data ∨ K .dataOpen ∧ s.view.Unclosed streamID) :
  Along (Reach K) (write env ⟨.data, FrameFlag.endStream, streamID, []⟩) s
  := by
  obtain ⟨ok, hwrite⟩ := write_written env ⟨.data, FrameFlag.endStream, streamID, []⟩ s
  have htable := Connection.view_table_of_getStream hstream
  have hfits : DataFits s.view st.view streamID ⟨.data, FrameFlag.endStream, streamID, []⟩ :=
    ⟨rfl, rfl, by rw [Stream.view, hupload]; rfl, .inl rfl⟩
  have hview : s.view.afterData streamID st.view ⟨.data, FrameFlag.endStream, streamID, []⟩ ok d =
      s.view.output (.wrote ⟨.data, FrameFlag.endStream, streamID, []⟩ ok) := by
    have hst : { st.view with
        sendWindow := st.view.sendWindow - ([] : Octets).length, upload := some d } = st.view := by
      rw [← hupload, List.length_nil, Nat.cast_zero, Int.sub_zero]
      rfl
    rw [View.afterData, hst, View.setStream_eq_self htable, List.length_nil, Nat.cast_zero,
      Int.sub_zero]
    rfl
  rw [Along, hwrite]
  rcases hkind with hkind | ⟨hkind, hopen⟩
  · apply Reach.special hkind
    rw [Connection.view_written, ← hview]
    exact .data s.view streamID _ ok d htable hfits
  · apply Reach.special hkind
    rw [Connection.view_written, ← hview]
    exact .dataOpen s.view streamID _ ok d htable hfits hopen

/-- A stream whose device has not come to its end waits for the session window. -/
theorem awaitSession_moves :
  Along (Reach K) (do
    let s ← current
    match s.getStream streamID with
    | none => pure ()
    | some st =>
      if s.isUploadBlocked st then
        emit (.stream streamID .uploadBlocked)
        change fun s => { s with blockedStreams := s.blockedStreams.insert streamID }
      else pure () : Operation D Unit) s
  := by
  apply Along.current_bind
  cases h : s.getStream streamID with
  | none => exact Along.pure _ s
  | some st =>
    apply Along.ite
    · intro _
      apply Along.bind emit_stream_moves
      intro _ s₁ _
      exact Reach.routine (.block s₁.view streamID)
    · intro _
      exact Along.pure _ s

theorem endSendDATA_moves {st : Stream D} {endStreamAfterDATA sent : Bool} {requestSize : ℤ}
    {total : ℕ} {d : D} (hK : K .device) (hstream : s.getStream streamID = some st)
    (hupload : st.uploadByteDevice.isSome = true)
    (hkind : sent = false → K .data ∨ K .dataOpen ∧ s.view.Unclosed streamID) :
  Along (Reach K) (endSendDATA env streamID endStreamAfterDATA requestSize sent total d) s
  := by
  apply Along.bind emit_stream_moves
  intro _ s₁ h₁
  cases h₁
  generalize (if sent = true then (true, d) else _) = result
  obtain ⟨finished, d'⟩ := result
  have hstream₁ : Connection.getStream { s with
      trace := s.trace ++ [.signal (.stream streamID (.bytesWritten total))] } streamID = some st :=
    hstream
  apply Along.bind (modifyStream_device_moves hK hstream₁ hupload rfl)
  intro _ s₂ h₂
  rw [modifyStream_of_some hstream₁] at h₂
  cases h₂
  have hstream₂ := Connection.getStream_putStream { s with
      trace := s.trace ++ [.signal (.stream streamID (.bytesWritten total))] } streamID
    { st with uploadByteDevice := some d' }
  have hopen₂ : s.view.Unclosed streamID → (Connection.putStream { s with
      trace := s.trace ++ [.signal (.stream streamID (.bytesWritten total))] } streamID
    { st with uploadByteDevice := some d' }).view.Unclosed streamID :=
    fun h => View.unclosed_output.mpr ⟨h, id⟩
  generalize Connection.putStream { s with
      trace := s.trace ++ [.signal (.stream streamID (.bytesWritten total))] } streamID
    { st with uploadByteDevice := some d' } = s₂ at hstream₂ hopen₂ ⊢
  apply Along.ite
  · intro _
    apply Along.bind
    · apply Along.when
      intro hend
      rw [Bool.and_eq_true, Bool.not_eq_true'] at hend
      apply Along.bind
      · apply writeEndStream_moves hstream₂ rfl
        exact (hkind hend.1).imp_right fun h => ⟨h.1, hopen₂ h.2⟩
      · intro _ s₃ _
        exact Along.pure _ s₃
    · intro _ s₃ h₃
      have hstream₃ : s₃.getStream streamID = some { st with uploadByteDevice := some d' } := by
        by_cases hend : (!sent && endStreamAfterDATA) = true
        · rw [when_pos _ hend, bind_of_ok (write_eq ..)] at h₃
          cases h₃
          exact hstream₂
        · rw [when_neg _ hend] at h₃
          cases h₃
          exact hstream₂
      exact finishSendDATA_moves hK hstream₃ rfl
  · intro _
    exact awaitSession_moves

/-! ### Uploading -/

theorem internalSendDATA_moves (hK : K .device)
    (hkind : K .data ∨ K .dataOpen ∧ s.view.Unclosed streamID) :
  Along (Reach K) (internalSendDATA env streamID) s
  := by
  apply Along.current_bind
  cases hstream : s.getStream streamID with
  | none => exact Along.pure _ s
  | some st =>
    dsimp only
    cases hdevice : st.uploadByteDevice with
    | none => exact Along.fail _ s
    | some d =>
      have hupload : st.uploadByteDevice.isSome = true := by
        rw [hdevice]
        rfl
      have hmax : (0 : ℤ) ≤ s.maxFrameSize := Int.natCast_nonneg _
      apply Along.bind
      · apply sendFrames_moves hstream hupload hmax ⟨min_le_right _ _, min_le_left _ _⟩
        exact hkind.imp_right fun h => ⟨h.1, .inl h.2⟩
      · intro sent s₁ h₁
        match sent with
        | none => exact Along.pure _ s₁
        | some (sent, total, d₁) =>
          obtain ⟨-, -, st₁, hst₁⟩ := sendFrames_ok hstream hupload hmax rfl h₁
          apply endSendDATA_moves hK hst₁.stream hst₁.upload
          exact fun hsent => hkind.imp_right fun h => ⟨h.1, hst₁.unclosed hsent h.2⟩

theorem maybeResumeUpload_moves (hK : K .device)
    (hkind : K .data ∨ K .dataOpen ∧ s.view.Unclosed streamID) :
  Along (Reach K) (maybeResumeUpload env streamID) s
  := by
  apply Along.current_bind
  cases hstream : s.getStream streamID with
  | none => exact Along.pure _ s
  | some st =>
    apply Along.guard (internalSendDATA_moves hK hkind)
    intro _
    exact Reach.routine (.block s.view streamID)

theorem sendDATA_moves {device : D} {endStream : Bool} (hK : K .device) (hattach : K .attach)
    (hkind : K .data ∨ K .dataOpen ∧ s.view.Unclosed streamID) :
  Along (Reach K) (sendDATA env streamID device endStream) s
  := by
  apply Along.current_bind
  cases hstream : s.getStream streamID with
  | none => exact Along.pure _ s
  | some st =>
    apply Along.guard (Along.pure _ s)
    intro hstate
    have hsends : st.state.Sends := by
      rw [not_and_or, not_not, not_not] at hstate
      exact hstate
    set st₁ : Stream D :=
      { st with uploadByteDevice := some device, endStreamAfterDATA := endStream }
    have hattached : Reach K s (s.putStream streamID st₁) := by
      apply Reach.special hattach
      rw [Connection.view_putStream]
      exact .attach s.view streamID device (Connection.view_table_of_getStream hstream) hsends
    apply Along.bind_of_ok (modifyStream_of_some hstream _) hattached
    apply Along.bind
    · apply internalSendDATA_moves hK
      exact hkind.imp_right fun h => ⟨h.1, by rw [Connection.view_putStream]; exact h.2⟩
    · intro _ s₁ _
      exact Along.pure _ s₁

/-! ### Sending headers -/

/-- What `writeAll` writes. -/
theorem writeAll_view (env : Env D) {P : OutboundFrame → Prop} {frames : List OutboundFrame}
    (h : ∀ f ∈ frames, P f) (s : Connection D) :
  ∃ (ok : Bool) (s' : Connection D) (outputs : List Output),
    writeAll env frames s = (.ok ok, s') ∧
    s'.view = { s.view with trace := s.view.trace ++ outputs } ∧
    ∀ o ∈ outputs, ∃ f ok, o = .wrote f ok ∧ P f
  := by
  induction frames generalizing s with
  | nil =>
    use true, s, []
    rw [List.append_nil]
    exact ⟨rfl, rfl, fun o ho => absurd ho List.not_mem_nil⟩
  | cons f frames ih =>
    obtain ⟨ok, hwrite⟩ := write_written env f s
    rw [writeAll, bind_of_ok hwrite]
    cases ok with
    | false =>
      use false, s.written f false, [.wrote f false]
      refine ⟨rfl, rfl, fun o ho => ?_⟩
      rw [List.mem_singleton] at ho
      exact ⟨f, false, ho, h f List.mem_cons_self⟩
    | true =>
      obtain ⟨ok, s', outputs, heq, hview, houtputs⟩ :=
        ih (fun g hg => h g (List.mem_cons_of_mem f hg)) (s.written f true)
      use ok, s', .wrote f true :: outputs
      refine ⟨heq, ?_, fun o ho => ?_⟩
      · rw [hview, Connection.view_written, View.output, List.append_assoc]
        rfl
      · rcases List.mem_cons.mp ho with rfl | ho
        · exact ⟨f, true, rfl, h f List.mem_cons_self⟩
        · exact houtputs o ho

theorem OutboundFrame.continuations_type {sizeLimit turns : ℕ} {rest : Octets} {f : OutboundFrame}
    (h : f ∈ OutboundFrame.continuations sizeLimit streamID turns rest) :
  f.type = .continuation
  := by
  induction turns generalizing rest with
  | zero => cases h
  | succ turns ih =>
    rw [OutboundFrame.continuations] at h
    split at h
    · rw [List.mem_singleton] at h
      rw [h]
    · rcases List.mem_cons.mp h with rfl | h
      · rfl
      · exact ih h

/-- The frames of `writeHEADERS` are a HEADERS frame and CONTINUATION frames behind it. -/
theorem OutboundFrame.headersFrames_cons (f : OutboundFrame) (sizeLimit : ℕ) :
  ∃ first rest, f.headersFrames sizeLimit = first :: rest ∧ first.type = f.type ∧
    first.streamID = f.streamID ∧ ∀ g ∈ rest, g.type = .continuation
  := by
  rw [OutboundFrame.headersFrames]
  split
  · exact ⟨_, [], rfl, rfl, rfl, fun g h => absurd h List.not_mem_nil⟩
  · exact ⟨_, _, rfl, rfl, rfl, fun g h => OutboundFrame.continuations_type h⟩

theorem writeHEADERS_moves {f : OutboundFrame} (htype : f.type = .headers) (sizeLimit : ℕ)
    (hkind : K .headers ∨ K .headersOpen ∧ s.view.Unclosed f.streamID) :
  Along (Reach K) (writeAll env (f.headersFrames sizeLimit)) s
  := by
  obtain ⟨first, rest, hframes, hfirst, hid, hrest⟩ := f.headersFrames_cons sizeLimit
  have hview : ∃ ok s' outputs, writeAll env (f.headersFrames sizeLimit) s = (.ok ok, s') ∧
      s'.view = { s.view with trace := s.view.trace ++ outputs } ∧
      HeadersOutput f.streamID outputs := by
    obtain ⟨ok, hwrite⟩ := write_written env first s
    rw [hframes, writeAll, bind_of_ok hwrite]
    cases ok with
    | false =>
      use false, s.written first false, [.wrote first false]
      exact ⟨rfl, rfl, hfirst.trans htype, hid, fun o h => absurd h List.not_mem_nil⟩
    | true =>
      obtain ⟨ok, s', outputs, heq, hview, houtputs⟩ :=
        writeAll_view env hrest (s.written first true)
      use ok, s', .wrote first true :: outputs
      refine ⟨heq, ?_, hfirst.trans htype, hid, houtputs⟩
      rw [hview, Connection.view_written, View.output, List.append_assoc]
      rfl
  obtain ⟨ok, s', outputs, heq, hview, houtputs⟩ := hview
  rw [Along, heq]
  rcases hkind with hkind | ⟨hkind, hopen⟩
  · apply Reach.special hkind
    rw [hview]
    exact .headers s.view f.streamID outputs houtputs
  · apply Reach.special hkind
    rw [hview]
    exact .headersOpen s.view f.streamID outputs houtputs hopen

theorem sendHEADERS_moves {headers : HPack.HttpHeader} {endStream : Bool} {priority : UInt8}
    (hK : K .headers) :
  Along (Reach K) (sendHEADERS env streamID headers endStream priority) s
  := by
  apply Along.current_bind
  cases headerSize headers with
  | none => exact Along.pure _ s
  | some size =>
    apply Along.guard (Along.pure _ s)
    intro _
    apply Along.bind (transitionState_moves _)
    intro _ s₁ _
    apply Along.current_bind
    dsimp only
    generalize writeTableSizeUpdates _ _ _ = updated
    obtain ⟨encoder, outputStream⟩ := updated
    dsimp only
    split
    -- The header is a request or a response, which is written all the same.
    all_goals
      apply Along.change_bind (Reach.of_view_eq rfl)
      apply Along.guard (Along.pure _ _)
      intro _
      apply Along.bind (writeHEADERS_moves rfl _ (.inl hK))
      intro _ s₂ _
      apply Along.bind (Along.when fun _ => transitionState_moves _)
      intro _ s₃ _
      exact Along.pure _ s₃

end Http2
