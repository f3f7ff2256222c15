import BobUI.Network.Http2.StreamMoves
import Mathlib.Algebra.Order.Group.MinMax

/-!
# The moves of what sends data and headers

A turn of the loop of `internalSendDATA` writes one DATA frame within the windows; the loop
ends where a window is used up or the device offers nothing more.
-/

namespace Http2

open Proc

variable {D : Type} {K : Kind → Prop} {env : Env D} {s s' : Connection D} {streamID : ℕ}

/-! ### The loops of `internalSendDATA` -/

variable {d : D} {requestSize w : ℤ} {st : Stream D} {maxFrameSize : ℤ} {endStreamAfterDATA : Bool}
  {turns : ℕ} {payload : Octets} {sent : Bool} {total : ℕ} {endStream : Bool}

/-- What the inner loop adds to the payload comes out of the window. -/
theorem fillFrame_ok {rem : ℤ} {payload' : Octets} {w' : ℤ} {d' : D} (hrem : 0 ≤ rem)
    (h : fillFrame env requestSize turns w rem payload d = .ok (payload', w', d')) :
  ∃ chunk : Octets, payload' = payload ++ chunk ∧ w' = w - chunk.length ∧
    (chunk = [] ∨ (chunk.length : ℤ) ≤ w)
  := by
  have hdone : ∀ {d₁ : D}, (Except.ok (payload, w, d₁) : Except Fault _) = .ok (payload', w', d') →
      ∃ chunk : Octets, payload' = payload ++ chunk ∧ w' = w - chunk.length ∧
        (chunk = [] ∨ (chunk.length : ℤ) ≤ w) := by
    intro _ heq
    cases heq
    exact ⟨[], by simp⟩
  induction turns generalizing w rem payload d with
  | zero => cases h
  | succ turns ih =>
    rw [fillFrame] at h
    split at h
    · exact hdone h
    · rename_i hw
      split at h
      · exact hdone h
      · split at h
        · exact hdone h
        · rename_i hrem_ne
          dsimp only at h
          split at h
          · exact hdone h
          · rename_i data len d₁ hread
            split at h
            · exact hdone h
            · rename_i hlen
              split at h
              · cases h
              · rename_i hbytes
                set bytes : ℤ := min (min w rem) len with hdef
                have hpos : 0 < min w rem := by omega
                have hdata := env.device.length_le hpos (by rw [hread]) (by omega : 0 < len)
                have htake : ((data.take bytes.toNat).length : ℤ) = bytes := by
                  rw [List.length_take]
                  omega
                obtain ⟨chunk, hpayload, hw', hchunk⟩ := ih (by omega) h
                  (by
                    intro _ heq
                    cases heq
                    exact ⟨[], by simp⟩)
                refine ⟨data.take bytes.toNat ++ chunk, ?_, ?_, ?_⟩
                · rw [hpayload, List.append_assoc]
                · rw [hw', List.length_append]
                  omega
                · right
                  rw [List.length_append]
                  rcases hchunk with rfl | hchunk
                  · simp only [List.length_nil]
                    omega
                  · omega

/-- A DATA frame. -/
def dataFrame (streamID : ℕ) (endStream : Bool) (payload : Octets) : OutboundFrame :=
  ⟨.data, if endStream then FrameFlag.endStream else FrameFlag.empty, streamID, payload⟩

/-- The connection after a DATA frame of a stream has been handed to the socket. -/
def Connection.sentFrame (s : Connection D) (streamID : ℕ) (st : Stream D) (f : OutboundFrame)
    (ok : Bool) (d : D) : Connection D :=
  { s.putStream streamID (st.takeOctets f.payload.length d) with
    sessionSendWindowSize := s.sessionSendWindowSize - f.payload.length
    writes := s.writes + 1
    trace := s.trace ++ [.wrote f ok] }

theorem Connection.view_sentFrame (s : Connection D) (streamID : ℕ) (st : Stream D)
    (f : OutboundFrame) (ok : Bool) (d : D) :
  (s.sentFrame streamID st f ok d).view = s.view.afterData streamID st.view f ok d
  := by
  have h := s.view_putStream streamID (st.takeOctets f.payload.length d)
  exact congrArg (fun v : View D => { v with
    sessionSendWindowSize := s.sessionSendWindowSize - f.payload.length
    trace := s.trace ++ [Output.wrote f ok] }) h

theorem Connection.getStream_sentFrame (s : Connection D) (streamID : ℕ) (st : Stream D)
    (f : OutboundFrame) (ok : Bool) (d : D) :
  (s.sentFrame streamID st f ok d).getStream streamID = some (st.takeOctets f.payload.length d)
  := s.getStream_putStream streamID _

/-- What a filled frame comes to: it is handed to the socket, and the stream is reset where the
socket does not take it. -/
theorem sendFrame_of_fill (env : Env D) (hstream : s.getStream streamID = some st) {w' : ℤ}
    (endStreamAfterDATA : Bool) {d₁ d₂ : D} {canRead : Bool}
    (hfill : fillFrame env requestSize env.fuel w maxFrameSize [] d = .ok (payload, w', d₁))
    (hread : deviceCanRead env requestSize d₁ = (canRead, d₂)) :
  sendFrame env streamID endStreamAfterDATA requestSize maxFrameSize w d s =
    if s.socketOpen && env.writeOk s.writes then
      (.ok (some (w', payload.length,
          !canRead && env.device.atEnd d₂ && endStreamAfterDATA, d₂)),
        s.sentFrame streamID st (dataFrame streamID
          (!canRead && env.device.atEnd d₂ && endStreamAfterDATA) payload) true d₂)
    else
      ((do
        finishWithError streamID Http2Error.internalError "failed to write to socket"
        pure none) : Operation D (Option (ℤ × ℕ × Bool × D)))
        (s.sentFrame streamID st (dataFrame streamID
          (!canRead && env.device.atEnd d₂ && endStreamAfterDATA) payload) false d₂)
  := by
  have htake : takeOctets streamID payload.length d₂ s =
      (.ok (), { s.putStream streamID (st.takeOctets payload.length d₂) with
        sessionSendWindowSize := s.sessionSendWindowSize - payload.length }) := by
    rw [takeOctets, bind_of_ok (modifyStream_of_some hstream _)]
    rfl
  rw [sendFrame, hfill]
  simp only [hread]
  rw [bind_of_ok htake, bind_of_ok (write_eq _ _ _)]
  by_cases hok : (s.socketOpen && env.writeOk s.writes) = true
  · simp only [Connection.putStream, hok]
    rfl
  · rw [Bool.not_eq_true] at hok
    simp only [Connection.putStream, hok]
    rfl

/-- What one turn of the outer loop does: it breaks off, or it hands a DATA frame within the
window to the socket, and resets the stream where the socket does not take it. -/
theorem sendFrame_eq (env : Env D) (hstream : s.getStream streamID = some st) (requestSize : ℤ)
    (hmax : 0 ≤ maxFrameSize) (endStreamAfterDATA : Bool) (w : ℤ) (d : D) :
  (∃ fault, sendFrame env streamID endStreamAfterDATA requestSize maxFrameSize w d s =
    (.error fault, s)) ∨
  ∃ (payload : Octets) (endStream : Bool) (d' : D),
    (payload = [] ∨ (payload.length : ℤ) ≤ w) ∧
    (endStream = true → endStreamAfterDATA = true ∧ env.device.atEnd d' = true) ∧
    sendFrame env streamID endStreamAfterDATA requestSize maxFrameSize w d s =
      if s.socketOpen && env.writeOk s.writes then
        (.ok (some (w - payload.length, payload.length, endStream, d')),
          s.sentFrame streamID st (dataFrame streamID endStream payload) true d')
      else
        ((do
          finishWithError streamID Http2Error.internalError "failed to write to socket"
          pure none) : Operation D (Option (ℤ × ℕ × Bool × D)))
          (s.sentFrame streamID st (dataFrame streamID endStream payload) false d')
  := by
  rcases hfill : fillFrame env requestSize env.fuel w maxFrameSize [] d with fault | ⟨payload, w', d₁⟩
  · left
    rw [sendFrame, hfill]
    exact ⟨fault, rfl⟩
  · right
    rcases hread : deviceCanRead env requestSize d₁ with ⟨canRead, d₂⟩
    have heq := sendFrame_of_fill env hstream endStreamAfterDATA hfill hread
    obtain ⟨payload, rfl, rfl, hpayload⟩ := fillFrame_ok hmax hfill
    refine ⟨payload, !canRead && env.device.atEnd d₂ && endStreamAfterDATA, d₂, hpayload, ?_, heq⟩
    simp only [Bool.and_eq_true]
    exact fun h => ⟨h.2, h.1.2⟩

theorem dataFrame_closes {ok : Bool} {id : ℕ}
    (h : (Output.wrote (dataFrame streamID endStream payload) ok).Closes id) :
  id = streamID ∧ endStream = true
  := by
  cases endStream with
  | true => exact ⟨h.1.symm, rfl⟩
  | false => simp [Output.Closes, dataFrame, testFlag, FrameFlag.empty, FrameFlag.endStream] at h

theorem View.unclosed_output {v : View D} {o : Output} {id : ℕ} :
  (v.output o).Unclosed id ↔ v.Unclosed id ∧ ¬o.Closes id
  := by
  simp only [View.Unclosed, View.output, List.mem_append, List.mem_singleton, or_imp, forall_and,
    forall_eq]

theorem Connection.unclosed_sentFrame {ok : Bool} (h : s.view.Unclosed streamID) :
  (s.sentFrame streamID st (dataFrame streamID false payload) ok d).view.Unclosed streamID
  := by
  refine View.unclosed_output.mpr ⟨h, fun hcloses => ?_⟩
  cases (dataFrame_closes hcloses).2

theorem sentFrame_moves {ok : Bool} (hstream : s.getStream streamID = some st)
    (hupload : st.uploadByteDevice.isSome = true) (hfits : payload = [] ∨
      (payload.length : ℤ) ≤ st.sendWindow ∧ (payload.length : ℤ) ≤ s.sessionSendWindowSize)
    (hkind : K .data ∨ K .dataOpen ∧ s.view.Unclosed streamID) :
  Reach K s (s.sentFrame streamID st (dataFrame streamID endStream payload) ok d)
  := by
  have htable := Connection.view_table_of_getStream hstream
  have hdata : DataFits s.view st.view streamID (dataFrame streamID endStream payload) :=
    ⟨rfl, rfl, hupload, hfits⟩
  rcases hkind with hkind | ⟨hkind, hopen⟩
  · apply Reach.special hkind
    rw [Connection.view_sentFrame]
    exact .data s.view streamID _ ok d htable hdata
  · apply Reach.special hkind
    rw [Connection.view_sentFrame]
    exact .dataOpen s.view streamID _ ok d htable hdata hopen

/-- The outer loop ends where a window is used up, or the device offers nothing. -/
theorem sendFrames_of_end (h : w = 0 ∨ (deviceCanRead env requestSize d).1 = false) :
  ∃ d', (w = 0 ∨ d' = (deviceCanRead env requestSize d).2) ∧
    sendFrames env streamID endStreamAfterDATA requestSize maxFrameSize turns w sent total d =
      pure (some (sent, total, d'))
  := by
  unfold sendFrames
  by_cases hw : w = 0
  · exact ⟨d, .inl hw, if_pos hw⟩
  · rcases hread : deviceCanRead env requestSize d with ⟨canRead, d'⟩
    rw [hread] at h
    obtain rfl : canRead = false := h.resolve_left hw
    exact ⟨d', .inr rfl, if_neg hw⟩

/-- Else it goes on with the next frame, unless it has no turns left. -/
theorem sendFrames_of_canRead (hw : w ≠ 0) (h : (deviceCanRead env requestSize d).1 = true) :
  sendFrames env streamID endStreamAfterDATA requestSize maxFrameSize turns w sent total d =
    match turns with
    | 0 => fail .hang
    | turns + 1 =>
      sendFrame env streamID endStreamAfterDATA requestSize maxFrameSize w
        (deviceCanRead env requestSize d).2 >>= fun
      | none => pure none
      | some (w, bytesWritten, endStream, d) =>
        sendFrames env streamID endStreamAfterDATA requestSize maxFrameSize turns w
          (sent || endStream) (total + bytesWritten) d
  := by
  rcases hread : deviceCanRead env requestSize d with ⟨canRead, d'⟩
  rw [hread] at h
  obtain rfl : canRead = true := h
  rw [sendFrames.eq_def, if_neg hw]
  simp only [hread]
  rfl

/-- A turn that ends with a value has written its frame. -/
theorem sendFrame_ok (hstream : s.getStream streamID = some st) (hmax : 0 ≤ maxFrameSize) {w' : ℤ}
    {n : ℕ} {d' : D}
    (h : sendFrame env streamID endStreamAfterDATA requestSize maxFrameSize w d s =
      (.ok (some (w', n, endStream, d')), s')) :
  ∃ payload : Octets, (payload = [] ∨ (payload.length : ℤ) ≤ w) ∧
    (endStream = true → endStreamAfterDATA = true ∧ env.device.atEnd d' = true) ∧
    w' = w - payload.length ∧ n = payload.length ∧
    s' = s.sentFrame streamID st (dataFrame streamID endStream payload) true d'
  := by
  obtain ⟨fault, heq⟩ | ⟨payload, endStream₁, d₁, hw, hend, heq⟩ := sendFrame_eq env
    hstream requestSize hmax endStreamAfterDATA w d
  · rw [heq] at h
    cases h
  · rw [heq] at h
    split at h
    · cases h
      exact ⟨payload, hw, hend, rfl, rfl, rfl⟩
    · obtain ⟨_, s₁, _, hnone⟩ := bind_eq_ok h
      cases hnone

theorem sendFrame_moves (hstream : s.getStream streamID = some st) (hmax : 0 ≤ maxFrameSize)
    (hupload : st.uploadByteDevice.isSome = true)
    (hw : w ≤ st.sendWindow ∧ w ≤ s.sessionSendWindowSize)
    (hkind : K .data ∨ K .dataOpen ∧ s.view.Unclosed streamID) :
  Along (Reach K) (sendFrame env streamID endStreamAfterDATA requestSize maxFrameSize w d) s
  := by
  rw [Along]
  obtain ⟨fault, heq⟩ | ⟨payload, endStream, d₁, hpayload, hend, heq⟩ := sendFrame_eq
    env hstream requestSize hmax endStreamAfterDATA w d
  · rw [heq]
    exact refl_of _ s
  · have hfits : payload = [] ∨
        (payload.length : ℤ) ≤ st.sendWindow ∧ (payload.length : ℤ) ≤ s.sessionSendWindowSize :=
      hpayload.imp_right fun h => ⟨h.trans hw.1, h.trans hw.2⟩
    rw [heq]
    split
    · exact sentFrame_moves hstream hupload hfits hkind
    · apply trans_of (Reach K) (sentFrame_moves hstream hupload hfits hkind)
      apply Along.bind (finishWithError_moves _ _)
      intro _ s₁ _
      exact Along.pure _ s₁

/-- The frames stay within the windows.  Where only open streams may send, the stream is open
or its device is at its end. -/
theorem sendFrames_moves (hstream : s.getStream streamID = some st)
    (hupload : st.uploadByteDevice.isSome = true) (hmax : 0 ≤ maxFrameSize)
    (hw : w ≤ st.sendWindow ∧ w ≤ s.sessionSendWindowSize) (hkind : K .data ∨
      K .dataOpen ∧ (s.view.Unclosed streamID ∨ env.device.atEnd d = true)) :
  Along (Reach K) (sendFrames env streamID endStreamAfterDATA requestSize maxFrameSize turns w sent
    total d) s
  := by
  induction turns generalizing s w sent total st d with
  | zero =>
    by_cases hend : w = 0 ∨ (deviceCanRead env requestSize d).1 = false
    · obtain ⟨d', _, heq⟩ := sendFrames_of_end hend
      rw [heq]
      exact Along.pure _ s
    · rw [not_or, Bool.not_eq_false] at hend
      rw [sendFrames_of_canRead hend.1 hend.2]
      exact Along.fail _ s
  | succ turns ih =>
    by_cases hend : w = 0 ∨ (deviceCanRead env requestSize d).1 = false
    · obtain ⟨d', _, heq⟩ := sendFrames_of_end hend
      rw [heq]
      exact Along.pure _ s
    · rw [not_or, Bool.not_eq_false] at hend
      rw [sendFrames_of_canRead hend.1 hend.2]
      have hopen : K .data ∨ K .dataOpen ∧ s.view.Unclosed streamID := by
        refine hkind.imp_right fun h => ⟨h.1, h.2.resolve_right fun hatEnd => ?_⟩
        have hno := (env.device.atEnd_readPointer (n := requestSize) hatEnd).1
        rw [show (deviceCanRead env requestSize d).1 = _ from hno] at hend
        cases hend.2
      apply Along.bind (sendFrame_moves hstream hmax hupload hw hopen)
      intro sentFrame s₁ h₁
      cases sentFrame with
      | none => exact Along.pure _ s₁
      | some result =>
        obtain ⟨w', n, endStream, d'⟩ := result
        obtain ⟨payload, -, hendStream, rfl, rfl, rfl⟩ := sendFrame_ok hstream hmax h₁
        apply ih (Connection.getStream_sentFrame ..) rfl
        · exact ⟨Int.sub_le_sub_right hw.1 _, Int.sub_le_sub_right hw.2 _⟩
        · refine hopen.imp_right fun h => ⟨h.1, ?_⟩
          cases endStream with
          | true => exact .inr (hendStream rfl).2
          | false => exact .inl (Connection.unclosed_sentFrame h.2)

/-- How a connection and a stream stand once frames of the stream have been sent: a window is
used up or the device offers nothing, and nothing has closed the stream if END_STREAM has not
been sent. -/
structure FramesSent (env : Env D) (streamID : ℕ) (requestSize : ℤ) (s : Connection D)
    (st : Stream D) (s' : Connection D) (st' : Stream D) (sent : Bool) (d : D) : Prop where
  stream : s'.getStream streamID = some st'
  state : st'.state = st.state
  upload : st'.uploadByteDevice.isSome = true
  endStream : st'.endStreamAfterDATA = st.endStreamAfterDATA
  ended : 0 < requestSize → min s'.sessionSendWindowSize st'.sendWindow = 0 ∨
    ∀ n, 0 < n → (deviceCanRead env n d).1 = false
  unclosed : sent = false → s.view.Unclosed streamID → s'.view.Unclosed streamID

theorem sendFrames_ok_of_end {sent' : Bool} {total' : ℕ} {d' : D}
    (hstream : s.getStream streamID = some st) (hupload : st.uploadByteDevice.isSome = true)
    (hw : w = min s.sessionSendWindowSize st.sendWindow)
    (hend : w = 0 ∨ (deviceCanRead env requestSize d).1 = false)
    (h : sendFrames env streamID endStreamAfterDATA requestSize maxFrameSize turns w sent total d s =
      (.ok (some (sent', total', d')), s')) :
  sent' = sent ∧ FramesSent env streamID requestSize s st s' st sent' d'
  := by
  obtain ⟨d₁, hd₁, heq⟩ := sendFrames_of_end hend
  rw [heq] at h
  cases h
  refine ⟨rfl, hstream, rfl, hupload, rfl, ?_, fun _ h => h⟩
  intro hrequest
  rw [← hw]
  rcases hend with hzero | hno
  · exact .inl hzero
  · rcases hd₁ with hzero | rfl
    · exact .inl hzero
    · exact .inr fun n hn => env.device.readPointer_again hrequest hn hno

theorem sendFrames_ok {sent' : Bool} {total' : ℕ} {d' : D}
    (hstream : s.getStream streamID = some st) (hupload : st.uploadByteDevice.isSome = true)
    (hmax : 0 ≤ maxFrameSize) (hw : w = min s.sessionSendWindowSize st.sendWindow)
    (h : sendFrames env streamID endStreamAfterDATA requestSize maxFrameSize turns w sent total d s =
      (.ok (some (sent', total', d')), s')) :
  (sent' = true → sent = true ∨ endStreamAfterDATA = true) ∧ (sent = true → sent' = true) ∧
    ∃ st', FramesSent env streamID requestSize s st s' st' sent' d'
  := by
  induction turns generalizing s w sent total st d with
  | zero =>
    by_cases hend : w = 0 ∨ (deviceCanRead env requestSize d).1 = false
    · obtain ⟨rfl, hst⟩ := sendFrames_ok_of_end hstream hupload hw hend h
      exact ⟨.inl, id, st, hst⟩
    · rw [not_or, Bool.not_eq_false] at hend
      rw [sendFrames_of_canRead hend.1 hend.2] at h
      cases h
  | succ turns ih =>
    by_cases hend : w = 0 ∨ (deviceCanRead env requestSize d).1 = false
    · obtain ⟨rfl, hst⟩ := sendFrames_ok_of_end hstream hupload hw hend h
      exact ⟨.inl, id, st, hst⟩
    · rw [not_or, Bool.not_eq_false] at hend
      rw [sendFrames_of_canRead hend.1 hend.2] at h
      obtain ⟨sentFrame, s₁, h₁, h₂⟩ := bind_eq_ok h
      cases sentFrame with
      | none => cases h₂
      | some result =>
        obtain ⟨w', n, endStream, d₁⟩ := result
        obtain ⟨payload, -, hendStream, rfl, rfl, rfl⟩ := sendFrame_ok hstream hmax h₁
        obtain ⟨hsent, hsent', st', hst'⟩ := ih (Connection.getStream_sentFrame ..) rfl
          (by
            rw [hw]
            exact (min_sub_sub_right _ _ _).symm) h₂
        rw [Bool.or_eq_true] at hsent hsent'
        refine ⟨fun h => ?_, fun h => hsent' (.inl h), st', ?_⟩
        · rcases hsent h with (h | h) | h
          · exact .inl h
          · exact .inr (hendStream h).1
          · exact .inr h
        · refine { hst' with unclosed := fun h hopen => hst'.unclosed h ?_ }
          cases endStream with
          | true =>
            rw [hsent' (.inr rfl)] at h
            cases h
          | false => exact Connection.unclosed_sentFrame hopen

end Http2
