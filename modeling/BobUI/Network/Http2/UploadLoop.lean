import BobUI.Network.Http2.ByteArrayDevice
import BobUI.Network.Http2.PaddedControl
import BobUI.Network.Http2.SendMoves

/-!
# The loop that uploads data

The loop of `internalSendDATA` goes on while the window is not zero and the device offers octets.
It ends, and stays within the window, unless the window is negative and there is something to send.
-/

namespace Http2

open Proc

variable {D : Type}

/-! ### Devices that keep what they offer -/

/-- The device offers octets, whatever number of them is asked for. -/
def QNonContiguousByteDevice.Offers (device : QNonContiguousByteDevice D) (d : D) : Prop :=
  ∀ n, 0 < n → hasData (device.readPointer n d).1 = true

/-- Octets stay on offer until the device is advanced, also where a length that is not positive is
asked for in between. -/
structure QNonContiguousByteDevice.Steady (device : QNonContiguousByteDevice D) : Prop where
  offers : ∀ {n : ℤ} {d : D}, 0 < n → hasData (device.readPointer n d).1 = true →
    device.Offers (device.readPointer n d).2
  offers_again : ∀ {d : D}, device.Offers d → ∀ n, device.Offers (device.readPointer n d).2

theorem steady_byteArray :
  QNonContiguousByteDeviceByteArrayImpl.device.Steady
  := by
  constructor
  · intro n d hn h m hm
    change hasData (QNonContiguousByteDeviceByteArrayImpl.readPointer m d) = true
    rw [QNonContiguousByteDeviceByteArrayImpl.hasData_readPointer hm,
      ← QNonContiguousByteDeviceByteArrayImpl.hasData_readPointer hn]
    exact h
  · exact fun h _ => h

variable {env : Env D} {requestSize : ℤ}

theorem canRead_eq (n : ℤ) (d : D) :
  deviceCanRead env n d = (hasData (env.device.readPointer n d).1, (env.device.readPointer n d).2)
  := rfl

/-! ### The inner loop -/

/-- Enough turns fill a frame. -/
theorem fillFrame_ends {turns : ℕ} {w rem : ℤ} (hw : 0 ≤ w) (hrem : 0 ≤ rem)
    (hturns : min w rem < turns) (payload : Octets) (d : D) :
  ∃ result, fillFrame env requestSize turns w rem payload d = .ok result
  := by
  induction turns generalizing w rem payload d with
  | zero => omega
  | succ turns ih =>
    rw [fillFrame]
    split
    · exact ⟨_, rfl⟩
    next hzero =>
      split
      · exact ⟨_, rfl⟩
      · split
        · exact ⟨_, rfl⟩
        next hfull =>
          dsimp only
          split
          · exact ⟨_, rfl⟩
          · split
            · exact ⟨_, rfl⟩
            next hlen =>
              rw [if_neg (by omega)]
              exact ih (by omega) (by omega) (by omega) _ _

/-- A frame takes octets that are on offer. -/
theorem fillFrame_takes (hsteady : env.device.Steady) (hrequest : 0 < requestSize) {turns : ℕ}
    {w rem : ℤ} (hw : 0 < w) (hrem : 0 < rem) {payload payload' : Octets} {w' : ℤ} {d d' : D}
    (hd : env.device.Offers d)
    (h : fillFrame env requestSize turns w rem payload d = .ok (payload', w', d')) :
  w' < w
  := by
  cases turns with
  | zero => cases h
  | succ turns =>
    have hcan : deviceCanRead env requestSize d
        = (true, (env.device.readPointer requestSize d).2) := by
      rw [canRead_eq, hd requestSize hrequest]
    have hread := hsteady.offers hrequest (hd requestSize hrequest) (min w rem) (by omega)
    rw [fillFrame, if_neg (by omega), hcan] at h
    dsimp only at h
    rw [if_neg (by omega)] at h
    split at h
    next hnone =>
      rw [hnone] at hread
      cases hread
    next hsome =>
      rw [hsome] at hread
      have hlen := of_decide_eq_true hread
      rw [if_neg (by omega), if_neg (by omega)] at h
      obtain ⟨chunk, -, rfl, -⟩ := fillFrame_ok (by omega) h
      omega

/-- With a negative window a frame takes nothing. -/
theorem fillFrame_negative {turns : ℕ} {w rem : ℤ} (hw : w < 0) (hrem : 0 < rem)
    (payload : Octets) {d : D} (hcan : (deviceCanRead env requestSize d).1 = true) :
  fillFrame env requestSize (turns + 1) w rem payload d = .error .negativeLength
    ∨ fillFrame env requestSize (turns + 1) w rem payload d
      = .ok (payload, w, (env.device.readPointer w (env.device.readPointer requestSize d).2).2)
  := by
  have hread : deviceCanRead env requestSize d
      = (true, (env.device.readPointer requestSize d).2) := by
    rw [canRead_eq] at hcan ⊢
    rw [show hasData _ = true from hcan]
  rw [fillFrame, if_neg (by omega), hread]
  dsimp only
  rw [if_neg (by omega), min_eq_left (by omega)]
  rcases env.device.readPointer w (env.device.readPointer requestSize d).2
    with ⟨⟨data | data, len⟩, d'⟩
  · exact .inr rfl
  · by_cases hlen : len ≤ 0
    · exact .inr (if_pos hlen)
    · left
      dsimp only
      rw [if_neg hlen, if_pos (by omega)]

/-! ### Where the procedures break off -/

theorem write_avoids {e : Fault} (frame : OutboundFrame) :
  Avoids e (write env frame)
  := by
  rintro s ⟨⟩

section Faults

variable {e : Fault} (h_e : e ≠ .unreachable)

include h_e

theorem transitionState_avoids (streamID : ℕ) (transition : StateTransition) :
  Avoids e (transitionState streamID transition : Operation D Unit)
  := by
  apply Avoids.current_bind
  intro s
  cases s.getStream streamID with
  | none => exact Avoids.pure _
  | some st =>
    apply Avoids.ite (Avoids.fail h_e.symm)
    cases nextState st.state transition with
    | none => exact Avoids.pure _
    | some newState =>
      intro s
      cases h : s.getStream streamID with
      | none =>
        change (setState streamID newState s).1 ≠ _
        rw [setState, Proc.current_bind, h]
        rintro ⟨⟩
      | some st =>
        obtain ⟨s', heq, -⟩ := setState_ok h newState
        change (setState streamID newState s).1 ≠ _
        rw [heq]
        rintro ⟨⟩

theorem finishWithError_avoids (streamID errorCode : ℕ) (message : String) :
  Avoids e (finishWithError streamID errorCode message : Operation D Unit)
  := by
  apply Avoids.bind (transitionState_avoids h_e _ _)
  intro _
  exact Avoids.change _

theorem finishSendDATA_avoids (streamID : ℕ) :
  Avoids e (finishSendDATA streamID : Operation D Unit)
  := by
  apply Avoids.current_bind
  intro s
  cases s.getStream streamID with
  | none => exact Avoids.pure _
  | some st =>
    apply Avoids.bind (Avoids.when (transitionState_avoids h_e _ _))
    intro _
    apply Avoids.bind (Avoids.change _)
    intro _
    exact Avoids.change _

theorem endSendDATA_avoids (streamID : ℕ) (endStreamAfterDATA : Bool) (requestSize : ℤ)
    (sentEND_STREAM : Bool) (totalBytesWritten : ℕ) (d : D) :
  Avoids e (endSendDATA env streamID endStreamAfterDATA requestSize sentEND_STREAM
    totalBytesWritten d)
  := by
  apply Avoids.bind (Avoids.change _)
  intro _
  apply Avoids.bind (Avoids.change _)
  intro _
  apply Avoids.ite
  · apply Avoids.bind
    · apply Avoids.when
      exact Avoids.bind (write_avoids _) fun _ => Avoids.pure _
    · intro _
      exact finishSendDATA_avoids h_e _
  · apply Avoids.current_bind
    intro s
    cases s.getStream streamID with
    | none => exact Avoids.pure _
    | some st =>
      apply Avoids.ite _ (Avoids.pure _)
      exact Avoids.bind (Avoids.change _) fun _ => Avoids.change _

end Faults

/-! ### What is written -/

/-- Outputs of a kind are added. -/
def Appends (P : Output → Prop) (s s' : Connection D) : Prop :=
  ∃ outputs, s'.trace = s.trace ++ outputs ∧ ∀ o ∈ outputs, P o

instance (P : Output → Prop) : IsPreorder (Connection D) (Appends P) where
  refl s := ⟨[], (List.append_nil _).symm, by simp⟩
  trans s₁ s₂ s₃ := by
    rintro ⟨outputs₁, h₁, h_P₁⟩ ⟨outputs₂, h₂, h_P₂⟩
    refine ⟨outputs₁ ++ outputs₂, ?_, ?_⟩
    · rw [h₂, h₁, List.append_assoc]
    · intro o h_o
      rcases List.mem_append.mp h_o with h_o | h_o
      · exact h_P₁ o h_o
      · exact h_P₂ o h_o

theorem Appends.of_trace_eq {P : Output → Prop} {s s' : Connection D} (h : s'.trace = s.trace) :
  Appends P s s'
  := ⟨[], by rw [h, List.append_nil], by simp⟩

theorem Appends.bind {α β : Type} {P : Output → Prop} {s₀ s : Connection D} {p : Operation D α}
    {f : α → Operation D β} (hp : Appends P s₀ (p s).2) (hf : ∀ a s', Along (Appends P) (f a) s') :
  Appends P s₀ ((p >>= f) s).2
  := by
  rcases h : p s with ⟨fault | a, s'⟩
  · rw [h] at hp
    rw [bind_of_error h]
    exact hp
  · rw [h] at hp
    rw [bind_of_ok h]
    exact trans_of (Appends P) hp (hf a s')

section Writes

variable {P : Output → Prop} {s : Connection D}

theorem write_appends {frame : OutboundFrame} (h : ∀ ok, P (.wrote frame ok)) :
  Along (Appends P) (write env frame) s
  := ⟨_, rfl, by simpa using h _⟩

theorem modifyStream_appends (streamID : ℕ) (f : Stream D → Stream D) :
  Along (Appends P) (modifyStream streamID f) s
  := by
  apply Appends.of_trace_eq
  rw [modifyStream, change_apply]
  cases s.getStream streamID with
  | none => rfl
  | some st => rfl

variable (h_P : ∀ sig, P (.signal sig))

include h_P

theorem emit_appends (sig : Signal) :
  Along (Appends P) (emit sig) s
  := ⟨_, rfl, by simpa using h_P sig⟩

theorem maybeCloseOnGoingAway_appends :
  Along (Appends P) maybeCloseOnGoingAway s
  := by
  apply Along.current_bind
  apply Along.ite fun _ => Along.pure _ _
  intro _
  apply Along.ite fun _ => Along.pure _ _
  intro _
  exact Along.ite (fun _ => emit_appends h_P _) fun _ => Along.pure _ _

theorem transitionState_appends (streamID : ℕ) (transition : StateTransition) :
  Along (Appends P) (transitionState streamID transition) s
  := by
  apply Along.current_bind
  cases s.getStream streamID with
  | none => exact Along.pure _ _
  | some st =>
    apply Along.ite fun _ => Along.fail _ _
    intro _
    cases nextState st.state transition with
    | none => exact Along.pure _ _
    | some newState =>
      apply Along.current_bind
      cases s.getStream streamID with
      | none => exact Along.pure _ _
      | some st =>
        apply Along.ite fun _ => Along.pure _ _
        intro _
        apply Along.bind (modifyStream_appends _ _)
        intro _ s₁ _
        apply Along.bind (emit_appends h_P _)
        intro _ s₂ _
        exact Along.ite (fun _ => maybeCloseOnGoingAway_appends h_P) fun _ => Along.pure _ _

theorem finishWithError_appends (streamID errorCode : ℕ) (message : String) :
  Along (Appends P) (finishWithError streamID errorCode message) s
  := by
  apply Along.bind (transitionState_appends h_P _ _)
  intro _ s₁ _
  exact emit_appends h_P _

theorem finishSendDATA_appends (streamID : ℕ) :
  Along (Appends P) (finishSendDATA streamID) s
  := by
  apply Along.current_bind
  cases s.getStream streamID with
  | none => exact Along.pure _ _
  | some st =>
    apply Along.bind (Along.when fun _ => transitionState_appends h_P _ _)
    intro _ s₁ _
    apply Along.bind (modifyStream_appends _ _)
    intro _ s₂ _
    exact emit_appends h_P _

theorem endSendDATA_appends {streamID : ℕ}
    (hend : ∀ ok, P (.wrote ⟨.data, FrameFlag.endStream, streamID, []⟩ ok))
    (endStreamAfterDATA : Bool) (requestSize : ℤ) (sentEND_STREAM : Bool) (totalBytesWritten : ℕ)
    (d : D) :
  Along (Appends P) (endSendDATA env streamID endStreamAfterDATA requestSize sentEND_STREAM
    totalBytesWritten d) s
  := by
  apply Along.bind (emit_appends h_P _)
  intro _ s₁ _
  apply Along.bind (modifyStream_appends _ _)
  intro _ s₂ _
  apply Along.ite
  · intro _
    apply Along.bind
    · apply Along.when
      intro _
      exact Along.bind (write_appends hend) fun _ s₃ _ => Along.pure _ _
    · intro _ s₃ _
      exact finishSendDATA_appends h_P _
  · intro _
    apply Along.current_bind
    cases s₂.getStream streamID with
    | none => exact Along.pure _ _
    | some st =>
      apply Along.ite _ fun _ => Along.pure _ _
      intro _
      apply Along.bind (emit_appends h_P _)
      intro _ s₃ _
      exact Appends.of_trace_eq rfl

end Writes

/-! ### The outer loop -/

/-- The DATA frames among the outputs take their payload out of a window; where the window is used
up there may only be an empty frame that ends the stream. -/
def KeepsWindow : ℤ → List Output → Prop
  | _, [] => True
  | w, .wrote f _ :: outputs =>
    if f.type = .data then
      (w ≤ 0 → f.payload = [] ∧ testFlag f.flags FrameFlag.endStream = true)
        ∧ KeepsWindow (w - f.payload.length) outputs
    else KeepsWindow w outputs
  | w, _ :: outputs => KeepsWindow w outputs

/-- An output that takes nothing out of a window. -/
def Output.Quiet : Output → Prop
  | .wrote f _ => f.type = .data → f.payload = [] ∧ testFlag f.flags FrameFlag.endStream = true
  | _ => True

theorem keepsWindow_of_quiet (w : ℤ) {outputs : List Output} (h : ∀ o ∈ outputs, o.Quiet) :
  KeepsWindow w outputs
  := by
  induction outputs generalizing w with
  | nil => trivial
  | cons o outputs ih =>
    have hrest := fun w => ih w fun o ho => h o (List.mem_cons_of_mem _ ho)
    have ho := h o List.mem_cons_self
    cases o with
    | wrote f ok =>
      rw [KeepsWindow]
      split
      next htype => exact ⟨fun _ => ho htype, hrest _⟩
      next => exact hrest w
    | _ => exact hrest w

theorem keepsWindow_append {w : ℤ} {outputs rest : List Output} (h : KeepsWindow w outputs)
    (hrest : ∀ o ∈ rest, o.Quiet) :
  KeepsWindow w (outputs ++ rest)
  := by
  induction outputs generalizing w with
  | nil => exact keepsWindow_of_quiet w hrest
  | cons o outputs ih =>
    cases o with
    | wrote f ok =>
      rw [KeepsWindow] at h
      rw [List.cons_append, KeepsWindow]
      split at h
      next htype =>
        rw [if_pos htype]
        exact ⟨h.1, ih h.2⟩
      next htype =>
        rw [if_neg htype]
        exact ih h
    | _ => exact ih h

/-- What is written keeps within a window. -/
def Within (w : ℤ) (s s' : Connection D) : Prop :=
  ∃ outputs, s'.trace = s.trace ++ outputs ∧ KeepsWindow w outputs

theorem Within.refl (w : ℤ) (s : Connection D) :
  Within w s s
  := ⟨[], (List.append_nil _).symm, trivial⟩

theorem Within.quiet {w : ℤ} {s₁ s₂ s₃ : Connection D} (h : Within w s₁ s₂)
    (hquiet : Appends Output.Quiet s₂ s₃) :
  Within w s₁ s₃
  := by
  obtain ⟨outputs, htrace, hkeeps⟩ := h
  obtain ⟨rest, hrest, hquiet⟩ := hquiet
  use outputs ++ rest
  rw [hrest, htrace, List.append_assoc]
  exact ⟨rfl, keepsWindow_append hkeeps hquiet⟩

theorem Within.bind {α β : Type} {w : ℤ} {s : Connection D} {p : Operation D α}
    {f : α → Operation D β} (hp : Within w s (p s).2)
    (hf : ∀ a s', Along (Appends Output.Quiet) (f a) s') :
  Within w s ((p >>= f) s).2
  := by
  rcases h : p s with ⟨fault | a, s'⟩
  · rw [h] at hp
    rw [bind_of_error h]
    exact hp
  · rw [h] at hp
    rw [bind_of_ok h]
    exact hp.quiet (hf a s')

/-- A frame is written in front of the others. -/
theorem Within.sentFrame {w : ℤ} {s s' : Connection D} {streamID : ℕ} {st : Stream D}
    {endStream ok : Bool} {payload : Octets} {d : D} (hw : 0 < w)
    (h : Within (w - payload.length)
      (s.sentFrame streamID st (dataFrame streamID endStream payload) ok d) s') :
  Within w s s'
  := by
  obtain ⟨outputs, htrace, hkeeps⟩ := h
  use .wrote (dataFrame streamID endStream payload) ok :: outputs
  constructor
  · rw [htrace, List.append_cons]
    rfl
  · rw [KeepsWindow]
    refine (if_pos (show (dataFrame streamID endStream payload).type = .data from rfl)).mpr ?_
    exact ⟨fun hle => absurd hw (not_lt.mpr hle), hkeeps⟩

variable {s : Connection D} {st : Stream D} {streamID : ℕ} {maxFrameSize : ℤ}

theorem sendFrames_within (hstream : s.getStream streamID = some st) (hmax : 0 ≤ maxFrameSize)
    {w : ℤ} (hw : 0 ≤ w) (endStreamAfterDATA sent : Bool) (turns total : ℕ) (d : D) :
  Within w s (sendFrames env streamID endStreamAfterDATA requestSize maxFrameSize turns w sent total
    d s).2
  := by
  induction turns generalizing s st w sent total d with
  | zero =>
    by_cases hend : w = 0 ∨ (deviceCanRead env requestSize d).1 = false
    · obtain ⟨d', -, heq⟩ := sendFrames_of_end hend
      rw [heq]
      exact .refl w s
    · rw [not_or, Bool.not_eq_false] at hend
      rw [sendFrames_of_canRead hend.1 hend.2]
      exact .refl w s
  | succ turns ih =>
    by_cases hend : w = 0 ∨ (deviceCanRead env requestSize d).1 = false
    · obtain ⟨d', -, heq⟩ := sendFrames_of_end hend
      rw [heq]
      exact .refl w s
    · rw [not_or, Bool.not_eq_false] at hend
      rw [sendFrames_of_canRead hend.1 hend.2]
      dsimp only
      obtain ⟨fault, heq⟩ | ⟨payload, endStream, d', hpayload, -, heq⟩ := sendFrame_eq env
        hstream requestSize hmax endStreamAfterDATA w (deviceCanRead env requestSize d).2
      · rw [bind_of_error heq]
        exact .refl w s
      · have hpos : 0 < w := by omega
        have hleft : 0 ≤ w - payload.length := by
          rcases hpayload with rfl | hpayload
          · simpa using hw
          · omega
        cases hok : s.socketOpen && env.writeOk s.writes with
        | true =>
          rw [hok, if_pos rfl] at heq
          rw [bind_of_ok heq]
          apply Within.sentFrame hpos
          exact ih (s.getStream_sentFrame streamID st (dataFrame streamID endStream payload)
            true d') hleft _ _ _
        | false =>
          rw [hok, if_neg Bool.false_ne_true] at heq
          rw [bind_of_eq heq, bind_pure_bind]
          have hfirst : Within w s (s.sentFrame streamID st
              (dataFrame streamID endStream payload) false d') :=
            Within.sentFrame hpos (.refl _ _)
          apply Within.quiet hfirst
          change Along (Appends Output.Quiet) (_ >>= _) _
          apply Along.bind (finishWithError_appends (fun _ => trivial) _ _ _)
          exact fun _ s₁ _ => Along.pure _ s₁

/-- With as many turns as octets fit the window, the loop ends. -/
theorem sendFrames_ends (hsteady : env.device.Steady) {e : Fault} (h_e : e ≠ .unreachable)
    (hstream : s.getStream streamID = some st) (hrequest : 0 < requestSize)
    (hmax : 0 < maxFrameSize) (hfuel : maxFrameSize < env.fuel) {w : ℤ} (hw : 0 ≤ w) {turns : ℕ}
    (hturns : w ≤ turns) (endStreamAfterDATA sent : Bool) (total : ℕ) (d : D) :
  (sendFrames env streamID endStreamAfterDATA requestSize maxFrameSize turns w sent total d s).1
    ≠ .error e
  := by
  induction turns generalizing s st w sent total d with
  | zero =>
    obtain ⟨d', -, heq⟩ := @sendFrames_of_end D env streamID d requestSize w maxFrameSize
      endStreamAfterDATA 0 sent total (.inl (by omega))
    rw [heq]
    rintro ⟨⟩
  | succ turns ih =>
    by_cases hend : w = 0 ∨ (deviceCanRead env requestSize d).1 = false
    · obtain ⟨d', -, heq⟩ := sendFrames_of_end hend
      rw [heq]
      rintro ⟨⟩
    · rw [not_or, Bool.not_eq_false] at hend
      rw [sendFrames_of_canRead hend.1 hend.2]
      dsimp only
      obtain ⟨⟨payload, w', d₁⟩, hfill⟩ := @fillFrame_ends D env requestSize env.fuel w
        maxFrameSize hw hmax.le (by omega) [] (deviceCanRead env requestSize d).2
      have htakes : w' < w := fillFrame_takes hsteady hrequest (by omega) hmax
        (hsteady.offers hrequest hend.2) hfill
      have hleft : 0 ≤ w' := by
        obtain ⟨chunk, -, rfl, hchunk⟩ := fillFrame_ok hmax.le hfill
        rcases hchunk with rfl | hchunk
        · simpa using hw
        · omega
      have heq := sendFrame_of_fill env hstream endStreamAfterDATA hfill rfl
      cases hok : s.socketOpen && env.writeOk s.writes with
      | true =>
        rw [hok, if_pos rfl] at heq
        rw [bind_of_ok heq]
        exact ih (s.getStream_sentFrame streamID st _ true _) hleft (by omega) _ _ _
      | false =>
        rw [hok, if_neg Bool.false_ne_true] at heq
        rw [bind_of_eq heq, bind_pure_bind]
        exact Avoids.bind (finishWithError_avoids h_e _ _ _) (fun _ => Avoids.pure _) _

/-- Whatever the window is, the loop only adds outputs. -/
theorem sendFrames_appends (streamID : ℕ) (endStreamAfterDATA sent : Bool)
    (requestSize maxFrameSize w : ℤ) (turns total : ℕ) (d : D) (s : Connection D) :
  Along (Appends fun _ => True) (sendFrames env streamID endStreamAfterDATA requestSize maxFrameSize
    turns w sent total d) s
  := by
  induction turns generalizing s w sent total d with
  | zero =>
    rw [sendFrames.eq_def]
    exact Along.ite (fun _ => Along.pure _ s) fun _ =>
      Along.ite (fun _ => Along.pure _ s) fun _ => Along.fail _ s
  | succ turns ih =>
    rw [sendFrames.eq_def]
    apply Along.ite fun _ => Along.pure _ s
    intro _
    apply Along.ite fun _ => Along.pure _ s
    intro _
    apply Along.bind
    · rw [sendFrame]
      rcases fillFrame env requestSize env.fuel w maxFrameSize [] _ with fault | ⟨payload, w', d₁⟩
      · exact Along.fail _ s
      · apply Along.bind
        · apply Along.bind (modifyStream_appends _ _)
          intro _ s₁ _
          exact Appends.of_trace_eq rfl
        · intro _ s₁ _
          apply Along.bind (write_appends fun _ => trivial)
          intro ok s₂ _
          apply Along.ite fun _ => Along.pure _ s₂
          intro _
          apply Along.bind (finishWithError_appends (fun _ => trivial) _ _ _)
          exact fun _ s₃ _ => Along.pure _ s₃
    · intro result s₁ _
      cases result with
      | none => exact Along.pure _ s₁
      | some result => exact ih _ _ _ _ _

/-- With a negative window the first turn breaks off, or it writes an empty frame that does not end
the stream. -/
theorem sendFrames_negative (hsteady : env.device.Steady) (hstream : s.getStream streamID = some st)
    (hrequest : 0 < requestSize) (hmax : 0 < maxFrameSize) (hfuel : 0 < env.fuel) {w : ℤ}
    (hw : w < 0) {turns : ℕ} (hturns : 0 < turns) (endStreamAfterDATA sent : Bool) (total : ℕ)
    {d : D} (hcan : (deviceCanRead env requestSize d).1 = true) :
  sendFrames env streamID endStreamAfterDATA requestSize maxFrameSize turns w sent total d s
      = (.error .negativeLength, s)
    ∨ ∃ s₁ : Connection D, ∃ ok, s₁.trace = s.trace ++ [.wrote (dataFrame streamID false []) ok]
      ∧ Appends (fun _ => True) s₁
        (sendFrames env streamID endStreamAfterDATA requestSize maxFrameSize turns w sent total d s).2
  := by
  obtain ⟨turns, rfl⟩ := Nat.exists_eq_add_of_lt hturns
  obtain ⟨fuel, hsucc⟩ := Nat.exists_eq_add_of_lt hfuel
  have hoffers : env.device.Offers (deviceCanRead env requestSize d).2 :=
    hsteady.offers hrequest hcan
  rw [Nat.zero_add] at hsucc ⊢
  rw [sendFrames_of_canRead (by omega) hcan]
  dsimp only
  rcases @fillFrame_negative D env requestSize fuel w maxFrameSize hw hmax []
    (deviceCanRead env requestSize d).2 (hoffers _ hrequest) with hfill | hfill
  · left
    rw [← hsucc] at hfill
    apply bind_of_error
    rw [sendFrame, hfill]
    rfl
  · right
    rw [← hsucc] at hfill
    have hagain := hsteady.offers_again (hsteady.offers_again hoffers requestSize) w
    generalize (env.device.readPointer w _).2 = d₁ at hfill hagain
    obtain ⟨d₂, hread⟩ : ∃ d₂, deviceCanRead env requestSize d₁ = (true, d₂) := by
      rw [canRead_eq, hagain requestSize hrequest]
      exact ⟨_, rfl⟩
    have heq := sendFrame_of_fill env hstream endStreamAfterDATA hfill hread
    rw [Bool.not_true, Bool.false_and, Bool.false_and] at heq
    cases hok : s.socketOpen && env.writeOk s.writes with
    | true =>
      rw [hok, if_pos rfl] at heq
      rw [bind_of_ok heq]
      refine ⟨s.sentFrame streamID st (dataFrame streamID false []) true d₂, true, rfl, ?_⟩
      exact sendFrames_appends _ _ _ _ _ _ _ _ _ _
    | false =>
      rw [hok, if_neg Bool.false_ne_true] at heq
      rw [bind_of_eq heq, bind_pure_bind]
      refine ⟨s.sentFrame streamID st (dataFrame streamID false []) false d₂, false, rfl, ?_⟩
      change Along (Appends fun _ => True) (_ >>= _) _
      apply Along.bind (finishWithError_appends (fun _ => trivial) _ _ _)
      exact fun _ s₁ _ => Along.pure _ s₁

/-! ### `internalSendDATA` -/

/-- `internalSendDATA` ends, other than with a view of negative length, and its DATA frames keep
within a window. -/
structure UploadsWithin (env : Env D) (streamID : ℕ) (s : Connection D) (w : ℤ) : Prop where
  ends : ∃ turns, ∀ fuel, turns ≤ fuel → ∀ fault ∈ [Fault.hang, Fault.negativeLength],
    (internalSendDATA { env with fuel := fuel } streamID s).1 ≠ .error fault
  keeps : ∀ fuel, Within w s (internalSendDATA { env with fuel := fuel } streamID s).2

theorem internalSendDATA_eq (env : Env D) (hstream : s.getStream streamID = some st) {d : D}
    (hdevice : st.uploadByteDevice = some d) :
  internalSendDATA env streamID s
    = (sendFrames env streamID st.endStreamAfterDATA (s.maxFrameSize * 10) s.maxFrameSize env.fuel
        (min s.sessionSendWindowSize st.sendWindow) false 0 d >>= fun sent =>
      match sent with
      | none => pure ()
      | some (sentEND_STREAM, totalBytesWritten, d) =>
        endSendDATA env streamID st.endStreamAfterDATA (s.maxFrameSize * 10) sentEND_STREAM
          totalBytesWritten d) s
  := by
  rw [internalSendDATA, Proc.current_bind, hstream]
  dsimp only
  rw [hdevice]
  all_goals rfl

theorem uploadsWithin (hsteady : env.device.Steady) (hstream : s.getStream streamID = some st)
    {d : D} (hdevice : st.uploadByteDevice = some d) (hmax : frameHeaderSize < s.maxFrameSize)
    (h : 0 ≤ min s.sessionSendWindowSize st.sendWindow
      ∨ (deviceCanRead env (s.maxFrameSize * 10) d).1 = false) :
  UploadsWithin env streamID s (min s.sessionSendWindowSize st.sendWindow)
  := by
  set w := min s.sessionSendWindowSize st.sendWindow
  have hframe : (0 : ℤ) < s.maxFrameSize := by omega
  constructor
  · use max w.toNat s.maxFrameSize + 1
    intro fuel hfuel fault hfault
    have h_e : fault ≠ .unreachable := by
      rintro rfl
      simp at hfault
    rw [internalSendDATA_eq _ hstream hdevice]
    apply bind_ne_error
    · rcases h with hw | hnone
      · exact @sendFrames_ends D { env with fuel := fuel } (s.maxFrameSize * 10) s st streamID
          s.maxFrameSize hsteady fault h_e hstream (by omega) hframe
          (show (s.maxFrameSize : ℤ) < fuel by omega) w hw fuel (by omega) _ _ _ _
      · obtain ⟨d', -, heq⟩ := @sendFrames_of_end D { env with fuel := fuel } streamID d
          (s.maxFrameSize * 10) w s.maxFrameSize st.endStreamAfterDATA fuel false 0 (.inr hnone)
        rw [heq]
        rintro ⟨⟩
    · intro sent
      cases sent with
      | none => exact Avoids.pure _
      | some sent => exact endSendDATA_avoids h_e _ _ _ _ _ _
  · intro fuel
    rw [internalSendDATA_eq _ hstream hdevice]
    apply Within.bind
    · rcases h with hw | hnone
      · exact sendFrames_within hstream hframe.le hw _ _ _ _ _
      · obtain ⟨d', -, heq⟩ := @sendFrames_of_end D { env with fuel := fuel } streamID d
          (s.maxFrameSize * 10) w s.maxFrameSize st.endStreamAfterDATA fuel false 0 (.inr hnone)
        rw [heq]
        exact .refl w s
    · intro sent s₁
      cases sent with
      | none => exact Along.pure _ s₁
      | some sent =>
        apply endSendDATA_appends fun _ => trivial
        exact fun _ _ => ⟨rfl, show testFlag FrameFlag.endStream FrameFlag.endStream = true by decide⟩

/-- With a negative window and something to send, it does not. -/
theorem not_uploadsWithin (hsteady : env.device.Steady) (hstream : s.getStream streamID = some st)
    {d : D} (hdevice : st.uploadByteDevice = some d) (hmax : frameHeaderSize < s.maxFrameSize)
    (hw : min s.sessionSendWindowSize st.sendWindow < 0)
    (hcan : (deviceCanRead env (s.maxFrameSize * 10) d).1 = true) :
  ¬UploadsWithin env streamID s (min s.sessionSendWindowSize st.sendWindow)
  := by
  intro h
  set w := min s.sessionSendWindowSize st.sendWindow
  obtain ⟨turns, hends⟩ := h.ends
  obtain ⟨outputs, htrace, hkeeps⟩ := h.keeps (turns + 1)
  have hend := hends (turns + 1) (by omega) .negativeLength (by simp)
  rw [internalSendDATA_eq _ hstream hdevice] at hend htrace
  rcases @sendFrames_negative D { env with fuel := turns + 1 } (s.maxFrameSize * 10) s st streamID
    s.maxFrameSize hsteady hstream (by omega) (by omega) (Nat.succ_pos _) w hw (turns + 1)
    (Nat.succ_pos _) st.endStreamAfterDATA false 0 d hcan with hfault | ⟨s₁, ok, hfirst, hrest⟩
  · rw [bind_of_error hfault] at hend
    exact hend rfl
  · obtain ⟨rest, houtputs, -⟩ := Appends.bind (P := fun _ => True) hrest (f := fun sent =>
        match sent with
        | none => pure ()
        | some (sentEND_STREAM, totalBytesWritten, d) =>
          endSendDATA { env with fuel := turns + 1 } streamID st.endStreamAfterDATA
            (s.maxFrameSize * 10) sentEND_STREAM totalBytesWritten d) (by
      intro sent s₂
      cases sent with
      | none => exact Along.pure _ s₂
      | some sent => exact endSendDATA_appends (fun _ => trivial) (fun _ => trivial) _ _ _ _ _)
    have hsame : s.trace ++ outputs
        = s.trace ++ .wrote (dataFrame streamID false []) ok :: rest := by
      rw [← htrace, houtputs, hfirst, List.append_assoc]
      rfl
    rw [List.append_cancel_left hsame, KeepsWindow] at hkeeps
    have hframe := (if_pos (show (dataFrame streamID false []).type = .data from rfl)).mp hkeeps
    have hflag : testFlag FrameFlag.empty FrameFlag.endStream = true := (hframe.1 hw.le).2
    exact absurd hflag (by decide)

/-- `internalSendDATA` ends and keeps within the windows if and only if none of them is negative or
there is nothing to send. -/
theorem uploadsWithin_iff (env : Env D) (h_steady : env.device.Steady)
    (h_stream : s.getStream streamID = some st) {d : D} (h_device : st.uploadByteDevice = some d)
    (h_max : frameHeaderSize < s.maxFrameSize) :
  UploadsWithin env streamID s (min s.sessionSendWindowSize st.sendWindow)
    ↔ 0 ≤ min s.sessionSendWindowSize st.sendWindow
      ∨ (deviceCanRead env (s.maxFrameSize * 10) d).1 = false
  := by
  constructor
  · intro h
    by_contra h_not
    obtain ⟨h_w, h_can⟩ := not_or.mp h_not
    rw [Bool.not_eq_false] at h_can
    exact not_uploadsWithin h_steady h_stream h_device h_max (not_le.mp h_w) h_can h
  · exact uploadsWithin h_steady h_stream h_device h_max

/-- A client without compression. -/
def plainClient : Connection QNonContiguousByteDeviceByteArrayImpl :=
  createDirectConnection { defaultConfiguration with huffmanCompressionEnabled := false }

/-- A request is sent with two octets of its body, and the peer sets the initial window to 0. -/
def shrunkWindow : List (Event QNonContiguousByteDeviceByteArrayImpl) :=
  [.createStream true,
    .sendHEADERS 1
      [⟨octets ":method", octets "GET"⟩, ⟨octets ":scheme", octets "https"⟩,
        ⟨octets ":authority", octets "a"⟩, ⟨octets ":path", octets "/"⟩] false 0,
    .sendDATA 1 (.new [1, 2]) false,
    .frame .goodFrame ⟨[0, 0, 6, 4, 0, 0, 0, 0, 0] ++ [0, 4, 0, 0, 0, 0]⟩]

/-- The connection in which `sendDATA` of a third octet calls `internalSendDATA`. -/
def beforeUpload : Connection QNonContiguousByteDeviceByteArrayImpl :=
  (modifyStream 1 (fun st =>
    { st with uploadByteDevice := some (.new [3]), endStreamAfterDATA := true })
    (run (byteArrayEnv 8) shrunkWindow plainClient).2).2

/-- The stream that uploads. -/
def uploadStream : Stream QNonContiguousByteDeviceByteArrayImpl :=
  (beforeUpload.getStream 1).getD (.new beforeUpload true)

/-- What the run before the upload leaves. -/
theorem beforeUpload_facts :
  (run (byteArrayEnv 8) shrunkWindow plainClient).1 = .ok ()
    ∧ (beforeUpload.getStream 1).isSome = true
    ∧ uploadStream.uploadByteDevice = some (.new [3])
    ∧ frameHeaderSize < beforeUpload.maxFrameSize
    ∧ min beforeUpload.sessionSendWindowSize uploadStream.sendWindow = -2
    ∧ (deviceCanRead (byteArrayEnv 8) (beforeUpload.maxFrameSize * 10) (.new [3])).1 = true
    ∧ (internalSendDATA (byteArrayEnv 8) 1 beforeUpload).1 = .error .hang
  := by decide +kernel

theorem getStream_beforeUpload :
  beforeUpload.getStream 1 = some uploadStream
  := by
  obtain ⟨st, hst⟩ := Option.isSome_iff_exists.mp beforeUpload_facts.2.1
  rw [uploadStream, hst]
  rfl

theorem uploadsWithin_beforeUpload :
  UploadsWithin (byteArrayEnv 8) 1 beforeUpload
      (min beforeUpload.sessionSendWindowSize uploadStream.sendWindow)
    ↔ 0 ≤ min beforeUpload.sessionSendWindowSize uploadStream.sendWindow
      ∨ (deviceCanRead (byteArrayEnv 8) (beforeUpload.maxFrameSize * 10) (.new [3])).1 = false
  := by
  obtain ⟨-, -, h_device, h_max, -⟩ := beforeUpload_facts
  exact uploadsWithin_iff (byteArrayEnv 8) steady_byteArray getStream_beforeUpload h_device h_max

/-- The loop of the upload does not end. -/
theorem upload_hangs :
  (run (byteArrayEnv 8) shrunkWindow plainClient).1 = .ok ()
    ∧ min beforeUpload.sessionSendWindowSize uploadStream.sendWindow = -2
    ∧ (internalSendDATA (byteArrayEnv 8) 1 beforeUpload).1 = .error .hang
    ∧ ¬UploadsWithin (byteArrayEnv 8) 1 beforeUpload
        (min beforeUpload.sessionSendWindowSize uploadStream.sendWindow)
  := by
  obtain ⟨h_run, -, h_device, h_max, h_window, h_can, h_hang⟩ := beforeUpload_facts
  refine ⟨h_run, h_window, h_hang, ?_⟩
  apply not_uploadsWithin steady_byteArray getStream_beforeUpload h_device h_max _ h_can
  rw [h_window]
  decide

end Http2
