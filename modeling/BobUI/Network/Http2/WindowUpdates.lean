import BobUI.Network.Http2.ByteArrayDevice
import BobUI.Network.Http2.RunMoves

/-!
# Updates of the advertised windows

The windows a connection has advertised to its peer can be read off what has been observed: the
initial sizes, the increments of the WINDOW_UPDATE frames it has written, and the DATA it has
received.  An update is legal where its increment is one to 2^31 - 1 and no window exceeds
2^31 - 1 octets.
-/

namespace Http2

open Proc

variable {D : Type}

theorem toInt32_of_lt {x : ℤ} (h : -2 ^ 31 ≤ x ∧ x < 2 ^ 31) :
  toInt32 x = x
  := by
  rw [toInt32, Int.bmod]
  omega

/-! ### The advertised windows -/

/-- What a WINDOW_UPDATE frame that the socket takes adds to a window. -/
def Output.increment (streamID : ℕ) : Output → ℤ
  | .wrote f true =>
    if f.type = .windowUpdate ∧ f.streamID = streamID then fromBigEndian f.payload 0 else 0
  | _ => 0

/-- What a DATA frame takes from a window; every one takes from that of the session. -/
def Output.consumed (streamID : ℕ) : Output → ℤ
  | .received .goodFrame f =>
    if f.type = .data ∧ (streamID = connectionStreamID ∨ f.streamID = streamID) then f.payloadSize
    else 0
  | _ => 0

theorem Output.consumed_nonneg (streamID : ℕ) (o : Output) :
  0 ≤ o.consumed streamID
  := by
  cases o with
  | received status f =>
    cases status with
    | goodFrame =>
      rw [Output.consumed]
      split
      · exact Int.natCast_nonneg _
      · exact le_rfl
    | _ => exact le_rfl
  | _ => exact le_rfl

/-- What an output comes to for a window. -/
def Output.change (streamID : ℕ) (o : Output) : ℤ :=
  o.increment streamID - o.consumed streamID

/-- The size of a window before anything has been sent. -/
def QHttp2Configuration.initialWindow (config : QHttp2Configuration) (streamID : ℕ) : ℤ :=
  if streamID = connectionStreamID then defaultSessionWindowSize
  else config.streamReceiveWindowSize

/-- The window of a stream, or of the session, that the peer knows of. -/
def advertisedWindow (config : QHttp2Configuration) (streamID : ℕ) (outputs : List Output) : ℤ :=
  config.initialWindow streamID + (outputs.map (Output.change streamID)).sum

/-- The increment of a WINDOW_UPDATE frame is in range. -/
def Output.LegalUpdate : Output → Prop
  | .wrote f _ => f.type = .windowUpdate →
    ∃ delta, 1 ≤ delta ∧ delta ≤ 2 ^ 31 - 1 ∧ f.payload = toBigEndian delta
  | _ => True

/-- A WINDOW_UPDATE frame that is written. -/
def updateOutput (streamID delta : ℕ) (ok : Bool) : Output :=
  .wrote ⟨.windowUpdate, FrameFlag.empty, streamID, toBigEndian delta⟩ ok

/-- Every update that has been written is legal. -/
structure LegalUpdates (config : QHttp2Configuration) (outputs : List Output) : Prop where
  increments : ∀ o ∈ outputs, o.LegalUpdate
  windows : ∀ sent, sent <+: outputs → ∀ streamID,
    advertisedWindow config streamID sent ≤ 2 ^ 31 - 1

section

variable {config : QHttp2Configuration} {outputs : List Output} {streamID : ℕ}

theorem advertisedWindow_append (config : QHttp2Configuration) (streamID : ℕ)
    (outputs more : List Output) :
  advertisedWindow config streamID (outputs ++ more) =
    advertisedWindow config streamID outputs + (more.map (Output.change streamID)).sum
  := by
  rw [advertisedWindow, advertisedWindow, List.map_append, List.sum_append, Int.add_assoc]

theorem initialWindow_le (config : QHttp2Configuration) (streamID : ℕ) :
  config.initialWindow streamID ≤ 2 ^ 31 - 1
  := by
  have h := config.stream_le
  rw [QHttp2Configuration.initialWindow]
  split
  · decide
  · omega

theorem LegalUpdates.nil (config : QHttp2Configuration) :
  LegalUpdates config []
  := by
  refine ⟨fun o h => absurd h List.not_mem_nil, fun sent h streamID => ?_⟩
  rw [List.prefix_nil.mp h, advertisedWindow, List.map_nil, List.sum_nil, Int.add_zero]
  exact initialWindow_le config streamID

theorem LegalUpdates.concat {o : Output} (h : LegalUpdates config outputs) (ho : o.LegalUpdate)
    (hwindow : ∀ streamID, advertisedWindow config streamID (outputs ++ [o]) ≤ 2 ^ 31 - 1) :
  LegalUpdates config (outputs ++ [o])
  := by
  constructor
  · intro o' hmem
    rcases List.mem_append.mp hmem with hmem | hmem
    · exact h.increments o' hmem
    · rw [List.mem_singleton.mp hmem]
      exact ho
  · intro sent hsent
    rcases List.prefix_concat_iff.mp hsent with rfl | hsent
    · exact hwindow
    · exact h.windows sent hsent

theorem advertisedWindow_concat (config : QHttp2Configuration) (streamID : ℕ)
    (outputs : List Output) (o : Output) :
  advertisedWindow config streamID (outputs ++ [o]) =
    advertisedWindow config streamID outputs + o.change streamID
  := by
  rw [advertisedWindow_append, List.map_singleton, List.sum_singleton]

variable {delta : ℕ}

theorem updateOutput_change (h : delta < 2 ^ 32) (ok : Bool) (id : ℕ) :
  (updateOutput streamID delta ok).change id = if ok = true ∧ streamID = id then (delta : ℤ) else 0
  := by
  cases ok with
  | false => rfl
  | true =>
    have hdelta : fromBigEndian (toBigEndian delta) 0 = delta := by
      have hread := fromBigEndian_toBigEndian h [] []
      rw [List.append_nil] at hread
      exact hread
    rw [updateOutput, Output.change, Output.increment, hdelta]
    simp [Output.consumed]

/-- An update of one window leaves the others as they are. -/
theorem advertisedWindow_update_ne (h : delta < 2 ^ 32) (ok : Bool) {id : ℕ}
    (hid : id ≠ streamID) :
  advertisedWindow config id (outputs ++ [updateOutput streamID delta ok]) =
    advertisedWindow config id outputs
  := by
  rw [advertisedWindow_concat, updateOutput_change h, if_neg fun h => hid h.2.symm, Int.add_zero]

theorem advertisedWindow_update_le (h : delta < 2 ^ 32) (ok : Bool) :
  advertisedWindow config streamID (outputs ++ [updateOutput streamID delta ok]) ≤
    advertisedWindow config streamID outputs + delta
  := by
  rw [advertisedWindow_concat, updateOutput_change h]
  split
  · exact le_rfl
  · omega

theorem LegalUpdates.update (h : LegalUpdates config outputs) (hpos : 1 ≤ delta)
    (hle : delta ≤ 2 ^ 31 - 1)
    (hwindow : advertisedWindow config streamID outputs + delta ≤ 2 ^ 31 - 1) (ok : Bool) :
  LegalUpdates config (outputs ++ [updateOutput streamID delta ok])
  := by
  have hupdate : (updateOutput streamID delta ok).LegalUpdate :=
    fun _ => ⟨delta, hpos, hle, rfl⟩
  apply h.concat hupdate
  intro id
  by_cases hid : id = streamID
  · subst hid
    exact (advertisedWindow_update_le (by omega) ok).trans hwindow
  · rw [advertisedWindow_update_ne (by omega) ok hid]
    exact h.windows outputs List.prefix_rfl id

/-! ### Outputs that leave the windows as they are -/

/-- The output is neither a WINDOW_UPDATE frame nor a DATA frame that has been received. -/
def Output.Calm : Output → Prop
  | .wrote f _ => f.type ≠ .windowUpdate
  | .received _ _ => False
  | _ => True

theorem Output.Calm.change_eq {o : Output} (h : o.Calm) (streamID : ℕ) :
  o.change streamID = 0
  := by
  cases o with
  | wrote f ok =>
    cases ok with
    | true =>
      rw [Output.change, Output.increment, if_neg fun htype => h htype.1]
      rfl
    | false => rfl
  | received status f => exact absurd h id
  | _ => rfl

theorem Output.Calm.legalUpdate {o : Output} (h : o.Calm) :
  o.LegalUpdate
  := by
  cases o with
  | wrote f ok => exact fun htype => absurd htype h
  | _ => trivial

theorem advertisedWindow_calm {more : List Output} (h : ∀ o ∈ more, o.Calm) (streamID : ℕ) :
  advertisedWindow config streamID (outputs ++ more) = advertisedWindow config streamID outputs
  := by
  rw [advertisedWindow_append, List.map_congr_left fun o ho => (h o ho).change_eq streamID]
  simp

theorem LegalUpdates.append_calm {more : List Output} (h : LegalUpdates config outputs)
    (hmore : ∀ o ∈ more, o.Calm) :
  LegalUpdates config (outputs ++ more)
  := by
  induction more using List.reverseRecOn with
  | nil =>
    rw [List.append_nil]
    exact h
  | append_singleton more o ih =>
    have hfront := ih fun o ho => hmore o (List.mem_append_left _ ho)
    have hlast : ∀ o' ∈ [o], o'.Calm := fun o' ho' =>
      hmore o' (List.mem_append_right _ ho')
    rw [← List.append_assoc]
    apply hfront.concat (hlast o List.mem_cons_self).legalUpdate
    intro streamID
    rw [advertisedWindow_calm hlast]
    exact hfront.windows _ List.prefix_rfl streamID

end

/-! ### Moves that leave the windows as they are -/

/-- The call is no update of a window. -/
def QueuedCall.isResume : QueuedCall → Bool
  | .maybeResumeUpload _ => true
  | .sendWINDOW_UPDATE _ _ => false

/-- The updates that are queued. -/
def View.queuedUpdates (v : View D) : List QueuedCall :=
  v.eventQueue.filter fun call => !call.isResume

/-- A change of a view that concerns no window that has been advertised. -/
structure View.Calm (v v' : View D) : Prop where
  connectionType : v'.connectionType = v.connectionType
  maxSession : v'.maxSessionReceiveWindowSize = v.maxSessionReceiveWindowSize
  session : v'.sessionReceiveWindowSize = v.sessionReceiveWindowSize
  initial : v'.streamInitialReceiveWindowSize = v.streamInitialReceiveWindowSize
  prefaceSent : v'.prefaceSent = v.prefaceSent
  waiting : v'.waitingForClientPreface = true → v.waitingForClientPreface = true
  nextStreamID : v.nextStreamID ≤ v'.nextStreamID
  queue : v'.queuedUpdates = v.queuedUpdates
  trace : ∃ outputs, v'.trace = v.trace ++ outputs ∧ ∀ o ∈ outputs, o.Calm
  table : ∀ streamID st', v'.table streamID = some (some st') →
    (∃ st, v.table streamID = some (some st) ∧ st'.recvWindow = st.recvWindow) ∨
    streamID ≠ connectionStreamID ∧ st'.recvWindow = v.streamInitialReceiveWindowSize

namespace View

variable {v : View D} {streamID : ℕ}

theorem setStream_table (v : View D) (streamID : ℕ) (st : StreamView D) (id : ℕ) :
  (v.setStream streamID st).table id = if id = streamID then some (some st) else v.table id
  := Function.update_apply ..

/-- The streams of the table with one that is set. -/
theorem setStream_some {st st' : StreamView D} {id : ℕ}
    (h : (v.setStream streamID st).table id = some (some st')) :
  id = streamID ∧ st' = st ∨ id ≠ streamID ∧ v.table id = some (some st')
  := by
  rw [v.setStream_table] at h
  split at h
  · rename_i hid
    exact .inl ⟨hid, (Option.some.inj (Option.some.inj h)).symm⟩
  · rename_i hid
    exact .inr ⟨hid, h⟩

theorem Calm.refl (v : View D) :
  v.Calm v
  := ⟨rfl, rfl, rfl, rfl, rfl, id, le_rfl, rfl,
    ⟨[], (List.append_nil _).symm, fun _ h => absurd h List.not_mem_nil⟩,
    fun _ st h => .inl ⟨st, h, rfl⟩⟩

theorem Calm.append {outputs : List Output} (h : ∀ o ∈ outputs, o.Calm) :
  v.Calm { v with trace := v.trace ++ outputs }
  := { Calm.refl v with trace := ⟨outputs, rfl, h⟩ }

theorem Calm.output {o : Output} (h : o.Calm) :
  v.Calm (v.output o)
  := by
  apply Calm.append
  intro o' ho'
  rw [List.mem_singleton.mp ho']
  exact h

/-- A stream may change but for its receive window. -/
theorem Calm.setStream {st st' : StreamView D} (h : v.table streamID = some (some st))
    (hwindow : st'.recvWindow = st.recvWindow) :
  v.Calm (v.setStream streamID st')
  := by
  refine { Calm.refl v with table := fun id st₁ h₁ => ?_ }
  rcases setStream_some h₁ with ⟨rfl, rfl⟩ | ⟨-, h₁⟩
  · exact .inl ⟨st, h, hwindow⟩
  · exact .inl ⟨st₁, h₁, rfl⟩

/-- A new stream has its initial window. -/
theorem Calm.newStream (hid : streamID ≠ connectionStreamID) :
  v.Calm (v.setStream streamID v.newStream)
  := by
  refine { Calm.refl v with table := fun id st₁ h₁ => ?_ }
  rcases setStream_some h₁ with ⟨rfl, rfl⟩ | ⟨-, h₁⟩
  · exact .inr ⟨hid, rfl⟩
  · exact .inl ⟨st₁, h₁, rfl⟩

/-- The entry of the table may be emptied, or removed. -/
theorem Calm.unset {entry : Option (Option (StreamView D))} (h : entry.join = none) :
  v.Calm { v with table := Function.update v.table streamID entry }
  := by
  refine { Calm.refl v with table := fun id st₁ htable => ?_ }
  have h₁ : Function.update v.table streamID entry id = some (some st₁) := htable
  by_cases hid : id = streamID
  · subst hid
    rw [Function.update_self] at h₁
    rw [h₁] at h
    cases h
  · rw [Function.update_of_ne hid] at h₁
    exact .inl ⟨st₁, h₁, rfl⟩

end View

theorem goawayOutput_calm {written : Option Bool} {lastStreamID errorCode : ℕ} :
  ∀ o ∈ goawayOutput written lastStreamID errorCode, o.Calm
  := by
  intro o h
  rw [goawayOutput, Option.mem_toList, Option.map_eq_some_iff] at h
  obtain ⟨ok, -, rfl⟩ := h
  exact (by decide : FrameType.goaway ≠ .windowUpdate)

theorem HeadersOutput.calm {streamID : ℕ} {outputs : List Output}
    (h : HeadersOutput streamID outputs) :
  ∀ o ∈ outputs, o.Calm
  := by
  match outputs, h with
  | .wrote f ok :: rest, ⟨htype, _, hrest⟩ =>
    intro o ho
    rcases List.mem_cons.mp ho with rfl | ho
    · rw [Output.Calm, htype]
      decide
    · obtain ⟨g, ok, rfl, hg⟩ := hrest o ho
      rw [Output.Calm, hg]
      decide

/-- Every routine move leaves the windows as they are. -/
theorem RoutineMove.calm {v v' : View D} (h : RoutineMove v v') (hnext : 0 < v.nextStreamID) :
  v.Calm v'
  := by
  cases h with
  | signal sig h => exact View.Calm.output trivial
  | announce streamID h => exact View.Calm.output trivial
  | write f ok h => exact View.Calm.output h.2.2.2.2
  | writePreface ok => exact View.Calm.output trivial
  | reset streamID errorCode ok h hclosed =>
    exact View.Calm.output (by decide : FrameType.rstStream ≠ .windowUpdate)
  | state streamID new h hnew => exact View.Calm.setStream h rfl
  | detach streamID h hclosed => exact View.Calm.setStream h rfl
  | initialGoaway written prior haborted hgoing =>
    exact { View.Calm.append goawayOutput_calm with }
  | shutdownPing h => exact { View.Calm.refl v with }
  | finalGoaway written haborted h => exact { View.Calm.append goawayOutput_calm with }
  | clientGoaway written haborted hgoing => exact { View.Calm.append goawayOutput_calm with }
  | errorGoaway written errorCode haborted => exact { View.Calm.append goawayOutput_calm with }
  | peerGoaway aborted => exact { View.Calm.refl v with }
  | createLocal h hgoing hpreface =>
    have hnew : v.Calm (v.setStream v.nextStreamID v.newStream) :=
      View.Calm.newStream (Nat.ne_of_gt hnext)
    exact { hnew with nextStreamID := Nat.le_add_right _ _ }
  | createRemote streamID h hmask hlast hle =>
    have hnew : v.Calm (v.setStream streamID v.newStream) :=
      View.Calm.newStream (Nat.ne_of_gt (Nat.zero_lt_of_lt hlast))
    exact { hnew with }
  | remove streamID => exact View.Calm.unset rfl
  | block streamID => exact { View.Calm.refl v with }
  | resume streamID =>
    refine { View.Calm.refl v with queue := ?_ }
    rw [View.queuedUpdates, List.filter_append]
    exact List.append_nil _
  | checkPreface => exact { View.Calm.refl v with waiting := fun h => absurd h Bool.false_ne_true }

theorem afterData_calm {v : View D} {streamID : ℕ} {st : StreamView D} {f : OutboundFrame} {ok : Bool}
    {d : D} (h : v.table streamID = some (some st)) (htype : f.type = .data) :
  v.Calm (v.afterData streamID st f ok d)
  := by
  have hset : v.Calm (v.setStream streamID
      { st with sendWindow := st.sendWindow - f.payload.length, upload := some d }) :=
    View.Calm.setStream h rfl
  refine { hset with trace := ⟨[.wrote f ok], rfl, fun o ho => ?_⟩ }
  rw [List.mem_singleton.mp ho, Output.Calm, htype]
  decide

/-- So do the plain moves but those of the preface and of the event loop. -/
theorem SpecialMove.calm {k : Kind} {v v' : View D} (h : SpecialMove k v v') (hplain : k.Plain)
    (hpreface : k ≠ .preface) (hdequeue : k ≠ .dequeue) :
  v.Calm v'
  := by
  cases h with
  | nullEntry v streamID h hid => exact View.Calm.unset rfl
  | attach v streamID d h hstate => exact View.Calm.setStream h rfl
  | device v streamID upload h hupload => exact View.Calm.setStream h rfl
  | data v streamID f ok d h hfits => exact afterData_calm h hfits.1
  | dataOpen v streamID f ok d h hfits hopen => exact afterData_calm h hfits.1
  | headers v streamID outputs houtputs => exact View.Calm.append houtputs.calm
  | headersOpen v streamID outputs houtputs hopen => exact View.Calm.append houtputs.calm
  | debit v size h => exact absurd rfl hplain.1
  | debitStream v streamID size h hsize => exact absurd rfl hplain.2.1
  | credit v h => exact absurd rfl hplain.2.2.1
  | replenish v streamID ok h hlow => exact absurd rfl hplain.2.2.2.1
  | update v streamID delta ok h => exact absurd rfl hplain.2.2.2.2.1
  | clientPreface v ok htype h => exact absurd rfl hpreface
  | serverPreface v ok h => exact absurd rfl hpreface
  | grantStream v streamID sum h => exact View.Calm.setStream h rfl
  | adjust v streamID sum h => exact View.Calm.setStream h rfl
  | initialWindow v newValue => exact { View.Calm.refl v with }
  | grantSession v sum => exact { View.Calm.refl v with }
  | unblock v => exact { View.Calm.refl v with }
  | dequeue v h => exact absurd rfl hdequeue
  | dequeueUpdate v ok h => exact absurd rfl hdequeue
  | receive v status f => exact absurd rfl hplain.2.2.2.2.2
  | decode v block => exact View.Calm.output trivial
  | continuation v expected frames => exact { View.Calm.refl v with }

/-! ### The windows that have been advertised -/

/-- The increment of a queued update. -/
def QueuedCall.delta : QueuedCall → ℕ
  | .maybeResumeUpload _ => 0
  | .sendWINDOW_UPDATE _ delta => delta

/-- The advertised windows are within what is kept of them.  A DATA frame that has been received
but not debited yet leaves `a` octets to the session, and `b` to the streams. -/
structure Advertises (config : QHttp2Configuration) (a : ℕ) (b : ℕ → ℕ) (v : View D) : Prop where
  maxSession : v.maxSessionReceiveWindowSize = config.sessionReceiveWindowSize
  initial : v.streamInitialReceiveWindowSize = config.streamReceiveWindowSize
  waiting : v.waitingForClientPreface = true → v.connectionType = .server ∧ v.prefaceSent = false
  nextStreamID : 0 < v.nextStreamID
  legal : LegalUpdates config v.trace
  queue : ∀ call ∈ v.queuedUpdates, ∃ delta, call = .sendWINDOW_UPDATE connectionStreamID delta ∧
    1 ≤ delta ∧ delta ≤ 2 ^ 31 - 1
  unsent : v.prefaceSent = false → v.queuedUpdates = [] ∧
    advertisedWindow config connectionStreamID v.trace + a ≤ defaultSessionWindowSize
  session : v.prefaceSent = true → 0 ≤ v.sessionReceiveWindowSize ∧
    v.sessionReceiveWindowSize ≤ config.sessionReceiveWindowSize ∧
    advertisedWindow config connectionStreamID v.trace + a +
      (v.queuedUpdates.map QueuedCall.delta).sum ≤ v.sessionReceiveWindowSize
  streams : ∀ streamID, streamID ≠ connectionStreamID →
    advertisedWindow config streamID v.trace + b streamID ≤ config.streamReceiveWindowSize
  table : ∀ streamID st, v.table streamID = some (some st) → streamID ≠ connectionStreamID ∧
    0 ≤ st.recvWindow ∧ st.recvWindow ≤ config.streamReceiveWindowSize ∧
    advertisedWindow config streamID v.trace + b streamID ≤ st.recvWindow

namespace Advertises

variable {config : QHttp2Configuration} {a : ℕ} {b : ℕ → ℕ} {v v' : View D}

theorem calm (h : Advertises config a b v) (hcalm : v.Calm v') :
  Advertises config a b v'
  := by
  obtain ⟨outputs, htrace, houtputs⟩ := hcalm.trace
  have hwindow : ∀ streamID, advertisedWindow config streamID v'.trace =
      advertisedWindow config streamID v.trace := by
    intro streamID
    rw [htrace, advertisedWindow_calm houtputs]
  constructor
  · rw [hcalm.maxSession]
    exact h.maxSession
  · rw [hcalm.initial]
    exact h.initial
  · intro hwaiting
    rw [hcalm.connectionType, hcalm.prefaceSent]
    exact h.waiting (hcalm.waiting hwaiting)
  · exact h.nextStreamID.trans_le hcalm.nextStreamID
  · rw [htrace]
    exact h.legal.append_calm houtputs
  · rw [hcalm.queue]
    exact h.queue
  · rw [hcalm.prefaceSent, hcalm.queue, hwindow]
    exact h.unsent
  · rw [hcalm.prefaceSent, hcalm.session, hcalm.queue, hwindow]
    exact h.session
  · intro streamID hid
    rw [hwindow]
    exact h.streams streamID hid
  · intro streamID st' hst'
    rw [hwindow]
    rcases hcalm.table streamID st' hst' with ⟨st, hst, hrecv⟩ | ⟨hid, hrecv⟩
    · rw [hrecv]
      exact h.table streamID st hst
    · rw [hrecv, h.initial]
      exact ⟨hid, Int.natCast_nonneg _, le_rfl, h.streams streamID hid⟩

theorem mono {a' : ℕ} {b' : ℕ → ℕ} (h : Advertises config a b v) (ha : a' ≤ a)
    (hb : ∀ streamID, b' streamID ≤ b streamID) :
  Advertises config a' b' v
  := by
  refine { h with unsent := fun hsent => ?_, session := fun hsent => ?_,
                  streams := fun streamID hid => ?_, table := fun streamID st hst => ?_ }
  · have hunsent := h.unsent hsent
    exact ⟨hunsent.1, by omega⟩
  · have hsession := h.session hsent
    exact ⟨hsession.1, hsession.2.1, by omega⟩
  · have hstream := h.streams streamID hid
    have hle := hb streamID
    omega
  · obtain ⟨hid, hpos, hmax, hwindow⟩ := h.table streamID st hst
    have hle := hb streamID
    exact ⟨hid, hpos, hmax, by omega⟩

/-! ### Received frames and debits -/

/-- A frame that is received leaves its octets to the windows it has not been debited from. -/
theorem receive {status : FrameStatus} {f : Frame} (h : Advertises config 0 (fun _ => 0) v)
    (ha : (a : ℤ) ≤ (Output.received status f).consumed connectionStreamID)
    (hb : ∀ streamID, streamID ≠ connectionStreamID →
      (b streamID : ℤ) ≤ (Output.received status f).consumed streamID) :
  Advertises config a b (v.output (.received status f))
  := by
  have hwindow : ∀ streamID, advertisedWindow config streamID (v.trace ++ [.received status f]) =
      advertisedWindow config streamID v.trace - (Output.received status f).consumed streamID := by
    intro streamID
    rw [advertisedWindow_append, List.map_singleton, List.sum_singleton, Output.change]
    have hzero : (Output.received status f).increment streamID = 0 := rfl
    omega
  have hlegal : LegalUpdates config (v.trace ++ [.received status f]) := by
    apply h.legal.concat (o := .received status f) trivial
    intro streamID
    rw [hwindow]
    have hnonneg := Output.consumed_nonneg streamID (.received status f)
    have hbefore := h.legal.windows v.trace List.prefix_rfl streamID
    omega
  refine { h with legal := hlegal, unsent := fun hsent => ?_, session := fun hsent => ?_,
                  streams := fun streamID hid => ?_, table := fun streamID st hst => ?_ }
  · have hunsent := h.unsent hsent
    rw [View.output, hwindow]
    exact ⟨hunsent.1, by omega⟩
  · have hsession := h.session hsent
    rw [View.output, hwindow]
    refine ⟨hsession.1, hsession.2.1, ?_⟩
    have hle : advertisedWindow config connectionStreamID v.trace +
      (v.queuedUpdates.map QueuedCall.delta).sum ≤ v.sessionReceiveWindowSize := by
      have hle := hsession.2.2
      omega
    calc _ ≤ advertisedWindow config connectionStreamID v.trace +
        (v.queuedUpdates.map QueuedCall.delta).sum := by
          exact Int.add_le_add_right (by omega) _
      _ ≤ _ := hle
  · have hstream := h.streams streamID hid
    have hle := hb streamID hid
    rw [View.output, hwindow]
    omega
  · obtain ⟨hid, hpos, hmax, hle⟩ := h.table streamID st hst
    have hb' := hb streamID hid
    rw [View.output, hwindow]
    exact ⟨hid, hpos, hmax, by omega⟩

theorem debit {size : ℕ} (h : Advertises config (a + size) b v)
    (hsize : (size : ℤ) ≤ v.sessionReceiveWindowSize) :
  Advertises config a b { v with sessionReceiveWindowSize := v.sessionReceiveWindowSize - size }
  := by
  refine { h with unsent := fun hsent => ?_, session := fun hsent => ?_ }
  · have hunsent := h.unsent hsent
    have hwindow : advertisedWindow config connectionStreamID v.trace + a ≤
        defaultSessionWindowSize := by
      omega
    exact ⟨hunsent.1, hwindow⟩
  · obtain ⟨hpos, hmax, hle⟩ := h.session hsent
    have hwindow : advertisedWindow config connectionStreamID v.trace + a +
        (v.queuedUpdates.map QueuedCall.delta).sum ≤ v.sessionReceiveWindowSize - size := by
      omega
    exact ⟨Int.sub_nonneg_of_le hsize,
      (Int.sub_le_self _ (Int.natCast_nonneg size)).trans hmax, hwindow⟩

variable {streamID : ℕ} {st : StreamView D}

theorem debitStream {size : ℕ}
    (h : Advertises config a (Function.update b streamID (b streamID + size)) v)
    (htable : v.table streamID = some (some st)) (hsize : (size : ℤ) ≤ st.recvWindow) :
  Advertises config a b (v.setStream streamID { st with recvWindow := st.recvWindow - size })
  := by
  have hle : ∀ id, b id ≤ Function.update b streamID (b streamID + size) id := by
    intro id
    by_cases hid : id = streamID
    · subst hid
      rw [Function.update_self]
      exact Nat.le_add_right _ _
    · rw [Function.update_of_ne hid]
  have hmono := h.mono le_rfl hle
  refine { hmono with table := fun id st' hst' => ?_ }
  rcases View.setStream_some hst' with ⟨rfl, rfl⟩ | ⟨-, hst'⟩
  · obtain ⟨hid, hpos, hmax, hwindow⟩ := h.table id st htable
    rw [Function.update_self, Nat.cast_add] at hwindow
    have hwindow' : advertisedWindow config id v.trace + b id ≤ st.recvWindow - size := by
      omega
    exact ⟨hid, Int.sub_nonneg_of_le hsize,
      (Int.sub_le_self _ (Int.natCast_nonneg size)).trans hmax, hwindow'⟩
  · exact hmono.table id st' hst'

/-! ### Updates -/

/-- A stream is granted no more than its initial window. -/
theorem updateStream {delta : ℕ} (h : Advertises config a b v)
    (htable : v.table streamID = some (some st)) (hpos : 1 ≤ delta)
    (hle : st.recvWindow + delta ≤ config.streamReceiveWindowSize) (ok : Bool) :
  Advertises config a b (v.updateStream streamID st delta ok)
  := by
  obtain ⟨hid, hrecv, -, hwindow⟩ := h.table streamID st htable
  have hconfig := config.stream_le
  have hrecv' : toInt32 (st.recvWindow + toInt32 delta) = st.recvWindow + delta := by
    have hdelta : toInt32 delta = delta := toInt32_of_lt (by omega)
    rw [hdelta, toInt32_of_lt (by omega)]
  have hother : ∀ id, id ≠ streamID →
      advertisedWindow config id (v.trace ++ [updateOutput streamID delta ok]) =
        advertisedWindow config id v.trace := by
    intro id hne
    exact advertisedWindow_update_ne (by omega) ok hne
  have hself : advertisedWindow config streamID (v.trace ++ [updateOutput streamID delta ok]) ≤
      advertisedWindow config streamID v.trace + delta :=
    advertisedWindow_update_le (by omega) ok
  have hlegal : LegalUpdates config (v.trace ++ [updateOutput streamID delta ok]) :=
    h.legal.update hpos (by omega) (by omega) ok
  refine { h with legal := hlegal, unsent := fun hsent => ?_, session := fun hsent => ?_,
                  streams := fun id hne => ?_, table := fun id st' hst' => ?_ }
  · have hunsent := h.unsent hsent
    rw [← hother _ hid.symm] at hunsent
    exact hunsent
  · have hsession := h.session hsent
    rw [← hother _ hid.symm] at hsession
    exact hsession
  · have hstream : advertisedWindow config id (v.trace ++ [updateOutput streamID delta ok]) +
        b id ≤ config.streamReceiveWindowSize := by
      by_cases heq : id = streamID
      · subst heq
        omega
      · rw [hother id heq]
        exact h.streams id hne
    exact hstream
  · have hentry : id ≠ connectionStreamID ∧ 0 ≤ st'.recvWindow ∧
        st'.recvWindow ≤ config.streamReceiveWindowSize ∧
        advertisedWindow config id (v.trace ++ [updateOutput streamID delta ok]) + b id ≤
          st'.recvWindow := by
      rcases View.setStream_some hst' with ⟨rfl, rfl⟩ | ⟨hne, hst'⟩
      · have hpos' : 0 ≤ st.recvWindow + delta := by omega
        have hwindow' : advertisedWindow config id (v.trace ++ [updateOutput id delta ok]) + b id ≤
            st.recvWindow + delta := by
          omega
        rw [hrecv']
        exact ⟨hid, hpos', hle, hwindow'⟩
      · rw [hother id hne]
        exact h.table id st' hst'
    exact hentry

/-- A stream is granted its initial window again. -/
theorem replenish (h : Advertises config a b v) (htable : v.table streamID = some (some st))
    (hlow : st.recvWindow < v.streamInitialReceiveWindowSize / 2) (ok : Bool) :
  Advertises config a b (v.updateStream streamID st
    (toUInt32 (v.streamInitialReceiveWindowSize - st.recvWindow)) ok)
  := by
  obtain ⟨-, hrecv, -, -⟩ := h.table streamID st htable
  have hconfig := config.stream_le
  have hinitial := h.initial
  apply h.updateStream htable
  · rw [toUInt32]
    omega
  · rw [toUInt32]
    omega

/-- The session is granted its window again. -/
theorem credit (h : Advertises config a b v) (hsent : v.prefaceSent = true)
    (hlow : v.sessionReceiveWindowSize < v.maxSessionReceiveWindowSize / 2) :
  Advertises config a b { v with
    sessionReceiveWindowSize := v.maxSessionReceiveWindowSize
    eventQueue := v.eventQueue ++ [.sendWINDOW_UPDATE connectionStreamID
      (toUInt32 (v.maxSessionReceiveWindowSize - v.sessionReceiveWindowSize))] }
  := by
  obtain ⟨hpos, hmax, hwindow⟩ := h.session hsent
  have hconfig := config.session_le
  have hmaxSession := h.maxSession
  set delta := toUInt32 (v.maxSessionReceiveWindowSize - v.sessionReceiveWindowSize) with hdef
  have hdelta : (delta : ℤ) = v.maxSessionReceiveWindowSize - v.sessionReceiveWindowSize := by
    rw [hdef, toUInt32]
    omega
  have hqueue : (v.eventQueue ++ [QueuedCall.sendWINDOW_UPDATE connectionStreamID delta]).filter
      (fun call => !call.isResume) =
        v.queuedUpdates ++ [.sendWINDOW_UPDATE connectionStreamID delta] := by
    rw [List.filter_append]
    rfl
  refine { h with queue := fun call hcall => ?_, unsent := fun hunsent => ?_,
                  session := fun _ => ?_ }
  · rw [View.queuedUpdates, hqueue] at hcall
    rcases List.mem_append.mp hcall with hcall | hcall
    · exact h.queue call hcall
    · exact ⟨delta, List.mem_singleton.mp hcall, by omega, by omega⟩
  · have hfalse : v.prefaceSent = false := hunsent
    rw [hsent] at hfalse
    cases hfalse
  · rw [View.queuedUpdates, hqueue, List.map_append, List.sum_append]
    have hcredit : advertisedWindow config connectionStreamID v.trace + a +
        ((v.queuedUpdates.map QueuedCall.delta).sum + delta) ≤ v.maxSessionReceiveWindowSize := by
      omega
    refine ⟨?_, le_of_eq hmaxSession, ?_⟩
    · have hnonneg : 0 ≤ v.maxSessionReceiveWindowSize := by omega
      exact hnonneg
    · rw [← Nat.cast_add] at hcredit
      exact hcredit

/-- A queued update is written. -/
theorem dequeueUpdate {delta : ℕ} {calls : List QueuedCall} (h : Advertises config a b v)
    (hqueue : v.eventQueue = .sendWINDOW_UPDATE streamID delta :: calls) (ok : Bool) :
  Advertises config a b { v.output (updateOutput streamID delta ok) with eventQueue := calls }
  := by
  set v' : View D := { v.output (updateOutput streamID delta ok) with eventQueue := calls }
  have hupdates : v.queuedUpdates = .sendWINDOW_UPDATE streamID delta :: v'.queuedUpdates := by
    rw [View.queuedUpdates, hqueue]
    rfl
  obtain ⟨delta', hcall, hpos, hle⟩ := h.queue (.sendWINDOW_UPDATE streamID delta) (by
    rw [hupdates]
    exact List.mem_cons_self)
  obtain ⟨rfl, rfl⟩ := QueuedCall.sendWINDOW_UPDATE.inj hcall
  have hsent : v.prefaceSent = true := by
    by_contra hsent
    rw [Bool.not_eq_true] at hsent
    rw [(h.unsent hsent).1] at hupdates
    cases hupdates
  obtain ⟨hsession, hmax, hwindow⟩ := h.session hsent
  have hcredit : advertisedWindow config connectionStreamID v.trace + a +
      (delta + (v'.queuedUpdates.map QueuedCall.delta).sum : ℕ) ≤ v.sessionReceiveWindowSize := by
    rw [hupdates] at hwindow
    exact hwindow
  have hconfig := config.session_le
  have hself : advertisedWindow config connectionStreamID v'.trace ≤
      advertisedWindow config connectionStreamID v.trace + delta :=
    advertisedWindow_update_le (by omega) ok
  have hother : ∀ id, id ≠ connectionStreamID →
      advertisedWindow config id v'.trace = advertisedWindow config id v.trace := by
    intro id hne
    exact advertisedWindow_update_ne (by omega) ok hne
  have hlegal : LegalUpdates config v'.trace := h.legal.update hpos hle (by omega) ok
  have hleft : advertisedWindow config connectionStreamID v'.trace + a +
      (v'.queuedUpdates.map QueuedCall.delta).sum ≤ v.sessionReceiveWindowSize := by
    omega
  refine { h with legal := hlegal, queue := fun call hmem => ?_, unsent := fun hunsent => ?_,
                  session := fun _ => ⟨hsession, hmax, hleft⟩,
                  streams := fun id hne => ?_, table := fun id st hst => ?_ }
  · apply h.queue call
    rw [hupdates]
    exact List.mem_cons_of_mem _ hmem
  · have hfalse : v.prefaceSent = false := hunsent
    rw [hsent] at hfalse
    cases hfalse
  · rw [hother id hne]
    exact h.streams id hne
  · have hentry := h.table id st hst
    rw [hother id hentry.1]
    exact hentry

/-- What the announcement of a session window of the default size or more adds to the window. -/
theorem announceSession_window (h : Advertises config a b v)
    (hmin : defaultSessionWindowSize ≤ config.sessionReceiveWindowSize)
    (hsent : v.prefaceSent = false) (ok : Bool) :
  LegalUpdates config (v.announceSession ok).trace ∧
    (∀ id, id ≠ connectionStreamID → advertisedWindow config id (v.announceSession ok).trace =
      advertisedWindow config id v.trace) ∧
    advertisedWindow config connectionStreamID (v.announceSession ok).trace ≤
      advertisedWindow config connectionStreamID v.trace +
        if (v.announceSession ok).prefaceSent then v.sessionDelta else 0
  := by
  obtain ⟨-, hwindow⟩ := h.unsent hsent
  have hconfig := config.session_le
  have hdelta : v.sessionDelta = config.sessionReceiveWindowSize - defaultSessionWindowSize := by
    rw [View.sessionDelta, h.maxSession]
  have hdefault : defaultSessionWindowSize = 65535 := rfl
  have hprefaceSent : (v.announceSession ok).prefaceSent = (decide (v.sessionDelta = 0) || ok) := by
    rw [View.announceSession, hsent, Bool.false_or]
  by_cases hzero : v.sessionDelta = 0
  · have htrace : (v.announceSession ok).trace = v.trace := by
      rw [View.announceSession, if_pos hzero, List.append_nil]
    rw [htrace, hzero, ite_self, Int.add_zero]
    exact ⟨h.legal, fun _ _ => rfl, le_rfl⟩
  · have htrace : (v.announceSession ok).trace =
        v.trace ++ [updateOutput connectionStreamID (toUInt32 v.sessionDelta) ok] := by
      rw [View.announceSession, if_neg hzero]
      rfl
    have htoUInt32 : (toUInt32 v.sessionDelta : ℤ) = v.sessionDelta := by
      rw [toUInt32]
      omega
    rw [htrace, hprefaceSent, decide_eq_false hzero, Bool.false_or]
    refine ⟨h.legal.update (by omega) (by omega) (by omega) ok, fun id hid => ?_, ?_⟩
    · exact advertisedWindow_update_ne (by omega) ok hid
    · rw [advertisedWindow_concat, updateOutput_change (by omega), htoUInt32]
      simp

/-- The announcement of the session window; it takes a window of the default size or more. -/
theorem announce (h : Advertises config a b v)
    (hmin : defaultSessionWindowSize ≤ config.sessionReceiveWindowSize)
    (hsent : v.prefaceSent = false) {waiting : Bool} (hwaiting : waiting = false) (ok : Bool) :
  Advertises config a b { v.announceSession ok with waitingForClientPreface := waiting }
  := by
  obtain ⟨hlegal, hother, hself⟩ := h.announceSession_window hmin hsent ok
  obtain ⟨hqueue, hwindow⟩ := h.unsent hsent
  have hdelta : v.sessionDelta = config.sessionReceiveWindowSize - defaultSessionWindowSize := by
    rw [View.sessionDelta, h.maxSession]
  have hmaxSession := h.maxSession
  refine { h with legal := hlegal, waiting := fun htrue => ?_, unsent := fun hunsent => ?_,
                  session := fun hannounced => ?_, streams := fun id hid => ?_,
                  table := fun id st hst => ?_ }
  · rw [hwaiting] at htrue
    cases htrue
  · have hfalse : (v.announceSession ok).prefaceSent = false := hunsent
    rw [hfalse, if_neg Bool.false_ne_true, Int.add_zero] at hself
    have hleft : advertisedWindow config connectionStreamID (v.announceSession ok).trace + a ≤
        defaultSessionWindowSize := by
      omega
    exact ⟨hqueue, hleft⟩
  · have htrue : (v.announceSession ok).prefaceSent = true := hannounced
    rw [htrue, if_pos rfl] at hself
    have hleft : advertisedWindow config connectionStreamID (v.announceSession ok).trace + a +
        (v.queuedUpdates.map QueuedCall.delta).sum ≤ v.maxSessionReceiveWindowSize := by
      rw [hqueue, List.map_nil, List.sum_nil]
      omega
    have hnonneg : 0 ≤ v.maxSessionReceiveWindowSize := by omega
    exact ⟨hnonneg, le_of_eq hmaxSession, hleft⟩
  · rw [hother id hid]
    exact h.streams id hid
  · have hentry := h.table id st hst
    rw [hother id hentry.1]
    exact hentry

/-- Every plain move keeps the windows as advertised, where the session window of the
configuration is of the default size or more. -/
theorem move (h : Advertises config a b v)
    (hmin : defaultSessionWindowSize ≤ config.sessionReceiveWindowSize) (hmove : Moves Kind.Plain v v') :
  Advertises config a b v'
  := by
  rcases hmove with hroutine | ⟨k, hplain, hspecial⟩
  · exact h.calm (hroutine.calm h.nextStreamID)
  · by_cases hpreface : k = .preface
    · subst hpreface
      cases hspecial with
      | clientPreface v ok htype hsent =>
        have hwaiting : v.waitingForClientPreface = false := by
          by_contra hwaiting
          rw [Bool.not_eq_false] at hwaiting
          rw [(h.waiting hwaiting).1] at htype
          cases htype
        exact h.announce hmin hsent hwaiting ok
      | serverPreface v ok hwaiting => exact h.announce hmin (h.waiting hwaiting).2 rfl ok
    · by_cases hdequeue : k = .dequeue
      · subst hdequeue
        cases hspecial with
        | dequeue v hqueue =>
          apply h.calm
          refine { View.Calm.refl v with queue := ?_ }
          rw [View.queuedUpdates, View.queuedUpdates, hqueue]
          rfl
        | dequeueUpdate v ok hqueue => exact h.dequeueUpdate hqueue ok
      · exact h.calm (hspecial.calm hplain hpreface hdequeue)

theorem reach {s s' : Connection D} (h : Advertises config a b s.view)
    (hmin : defaultSessionWindowSize ≤ config.sessionReceiveWindowSize)
    (hreach : Reach Kind.Plain s s') :
  Advertises config a b s'.view
  := Reach.invariant (fun _ _ hmove hv => hv.move hmin hmove) hreach h

end Advertises

/-! ### DATA -/

section

variable {config : QHttp2Configuration} {env : Env D} {s : Connection D} {a : ℕ} {b : ℕ → ℕ}

theorem Moves.prefaceSent {K : Kind → Prop} {v v' : View D} (h : Moves K v v')
    (hsent : v.prefaceSent = true) :
  v'.prefaceSent = true
  := by
  rcases h with h | ⟨k, -, h⟩
  · cases h <;> exact hsent
  · cases h with
    | clientPreface v ok htype h =>
      rw [View.announceSession, hsent]
      rfl
    | serverPreface v ok h =>
      rw [View.announceSession, hsent]
      rfl
    | _ => exact hsent

/-- The state of a connection that handles DATA: its preface is through. -/
def Receives (config : QHttp2Configuration) (a : ℕ) (b : ℕ → ℕ) (s : Connection D) : Prop :=
  Advertises config a b s.view ∧ s.prefaceSent = true

theorem Receives.mono {a' : ℕ} {b' : ℕ → ℕ} (h : Receives config a b s) (ha : a' ≤ a)
    (hb : ∀ streamID, b' streamID ≤ b streamID) :
  Receives config a' b' s
  := ⟨h.1.mono ha hb, h.2⟩

theorem Receives.reach {s' : Connection D} (h : Receives config a b s)
    (hmin : defaultSessionWindowSize ≤ config.sessionReceiveWindowSize)
    (hreach : Reach Kind.Plain s s') :
  Receives config a b s'
  := ⟨h.1.reach hmin hreach, Reach.invariant (I := fun v : View D => v.prefaceSent = true)
    (fun _ _ hmove => hmove.prefaceSent) hreach h.2⟩

/-- A move that grants a stream its window again. -/
theorem Receives.replenish {s' : Connection D} (h : Receives config a b s)
    (hreach : Reach (fun k => k = .replenish) s s') :
  Receives config a b s'
  := by
  refine Reach.invariant (I := fun v : View D => Advertises config a b v ∧ v.prefaceSent = true)
    ?_ hreach h
  intro v v' hmove ⟨hv, hsent⟩
  refine ⟨?_, hmove.prefaceSent hsent⟩
  rcases hmove with hroutine | ⟨k, rfl, hspecial⟩
  · exact hv.calm (hroutine.calm hv.nextStreamID)
  · cases hspecial with
    | replenish v streamID ok htable hlow => exact hv.replenish htable hlow ok

/-- The octets of a frame that have been received but not debited. -/
def undebited (streamID size : ℕ) : ℕ → ℕ :=
  Function.update (fun _ => 0) streamID size

theorem streamHandleDATA_receives {f : Frame} {streamID : ℕ}
    (h : Receives config a (undebited streamID f.payloadSize) s)
    (hmin : defaultSessionWindowSize ≤ config.sessionReceiveWindowSize) :
  Receives config a (fun _ => 0) (streamHandleDATA env streamID f s).2
  := by
  cases hstream : s.getStream streamID with
  | none =>
    rw [streamHandleDATA, current_bind, hstream]
    exact h.mono le_rfl fun _ => Nat.zero_le _
  | some st =>
    rcases lt_or_ge st.recvWindow f.payloadSize with hsize | hsize
    · rw [streamHandleDATA_of_exceeds hstream hsize]
      exact (h.mono le_rfl fun _ => Nat.zero_le _).reach hmin (streamError_moves _ _)
    · rw [streamHandleDATA_of_fits hstream hsize]
      have hdebited : Receives config a (fun _ => 0)
          (s.putStream streamID { st with recvWindow := st.recvWindow - f.payloadSize }) := by
        refine ⟨?_, h.2⟩
        rw [Connection.view_putStream]
        have hledger : Advertises config a (Function.update (fun _ => 0) streamID
            (0 + f.payloadSize)) s.view := by
          rw [Nat.zero_add]
          exact h.1
        exact hledger.debitStream (Connection.view_table_of_getStream hstream) hsize
      exact hdebited.replenish
        (debitedDATA_moves rfl (Connection.getStream_putStream ..) rfl rfl)

theorem replenishSessionWindow_receives (h : Receives config a b s) :
  Receives config a b (replenishSessionWindow s).2
  := by
  rw [replenishSessionWindow, current_bind]
  split
  · rename_i hlow
    exact ⟨h.1.credit h.2 hlow, h.2⟩
  · exact h

/-- A DATA frame that has been received is debited no more than once from every window. -/
theorem handleDATA_receives {f : Frame}
    (h : Receives config f.payloadSize (undebited f.streamID f.payloadSize) s)
    (hmin : defaultSessionWindowSize ≤ config.sessionReceiveWindowSize) :
  Receives config 0 (fun _ => 0) (handleDATA env f s).2
  := by
  have hfree : Receives config 0 (fun _ => 0) s := h.mono (Nat.zero_le _) fun _ => Nat.zero_le _
  rcases handleDATA_cases env f s with hmoves | ⟨-, stream, hstreamID, heq⟩
  · exact hfree.reach hmin (hmoves Kind.Plain)
  · rw [heq]
    rcases lt_or_ge s.sessionReceiveWindowSize f.payloadSize with hsize | hsize
    · rw [acceptDATA_of_exceeds hsize]
      exact hfree.reach hmin connectionError_moves
    · rw [acceptDATA_of_fits hsize]
      have hdebited : Receives config 0 (undebited f.streamID f.payloadSize)
          (s.debited f.payloadSize) := by
        have hledger : Advertises config (0 + f.payloadSize) (undebited f.streamID f.payloadSize)
            s.view := by
          rw [Nat.zero_add]
          exact h.1
        exact ⟨hledger.debit hsize, h.2⟩
      have hstream : Receives config 0 (fun _ => 0)
          (debitedStream env stream f (s.debited f.payloadSize)).2 := by
        rcases hstreamID with rfl | rfl
        · exact hdebited.mono le_rfl fun _ => Nat.zero_le _
        · exact streamHandleDATA_receives hdebited hmin
      apply bind_ends hstream
      intro _ s₁ _
      apply Along.bind
      · exact fun h => h.reach hmin receiveEND_STREAM_moves
      · intro _ s₂ _ h₂
        exact replenishSessionWindow_receives h₂

end

/-! ### Runs -/

/-- An update that the application makes itself grants a stream no more than has been used of its
window. -/
def Event.Harmless (s : Connection D) : Event D → Prop
  | .sendWINDOW_UPDATE streamID delta => ∀ st, s.getStream streamID = some st →
    1 ≤ delta ∧ st.recvWindow + delta ≤ s.streamInitialReceiveWindowSize
  | _ => True

section

variable {config : QHttp2Configuration} {env : Env D} {s : Connection D}

theorem step_update_advertises {streamID delta : ℕ} (h : Advertises config 0 (fun _ => 0) s.view)
    (hharmless : Event.Harmless s (.sendWINDOW_UPDATE streamID delta)) :
  Advertises config 0 (fun _ => 0) (step env (.sendWINDOW_UPDATE streamID delta) s).2.view
  := by
  cases hstream : s.getStream streamID with
  | none =>
    have hstep : step env (.sendWINDOW_UPDATE streamID delta) s = (.ok (), s) := by
      rw [step, current_bind, when_neg _ (by rw [hstream]; exact Bool.false_ne_true), pure_apply]
    rw [hstep]
    exact h
  | some st =>
    obtain ⟨hpos, hle⟩ := hharmless st hstream
    obtain ⟨ok, s', heq, hview⟩ := sendWINDOW_UPDATE_view env hstream delta
    have hinitial : s.streamInitialReceiveWindowSize = config.streamReceiveWindowSize := h.initial
    rw [hinitial] at hle
    have hstep : step env (.sendWINDOW_UPDATE streamID delta) s = (.ok (), s') := by
      rw [step, current_bind, when_pos _ (by rw [hstream]; rfl), heq]
    rw [hstep, hview]
    exact h.updateStream (Connection.view_table_of_getStream hstream) hpos hle ok

/-- A good frame that has been received; its octets are not debited yet where it is DATA. -/
theorem handleGoodFrame_advertises {f : Frame}
    (hmin : defaultSessionWindowSize ≤ config.sessionReceiveWindowSize) (hsent : s.prefaceSent = true)
    (h : Advertises config 0 (fun _ => 0) s.view) :
  Advertises config 0 (fun _ => 0) (handleGoodFrame env f (s.received .goodFrame f)).2.view
  := by
  have hreceived : Advertises config 0 (fun _ => 0) (s.received .goodFrame f).view :=
    h.receive (Output.consumed_nonneg _ _) fun _ _ => Output.consumed_nonneg _ _
  by_cases htype : f.type = .data
  · have hundebited : Receives config f.payloadSize (undebited f.streamID f.payloadSize)
        (s.received .goodFrame f) := by
      refine ⟨h.receive ?_ fun streamID hid => ?_, hsent⟩
      · rw [Output.consumed, if_pos ⟨htype, .inl rfl⟩]
      · by_cases heq : streamID = f.streamID
        · rw [Output.consumed, if_pos ⟨htype, .inr heq.symm⟩, undebited, heq, Function.update_self]
        · rw [undebited, Function.update_of_ne heq]
          exact Output.consumed_nonneg _ _
    have hhandle : Along (Preserves fun s : Connection D => Advertises config 0 (fun _ => 0) s.view)
        (handleGoodFrame env f) (s.received .goodFrame f) := by
      apply Along.current_bind
      apply Along.ite
      · intro _ h
        exact h.reach hmin connectionError_moves
      · intro _ _
        rw [htype]
        exact (handleDATA_receives hundebited hmin).1
    exact hhandle hreceived
  · exact hreceived.reach hmin
      (handleGoodFrame_moves (fun _ => id) fun hdata => absurd hdata htype)

theorem step_frame_advertises {status : FrameStatus} {f : Frame}
    (hmin : defaultSessionWindowSize ≤ config.sessionReceiveWindowSize)
    (h : Advertises config 0 (fun _ => 0) s.view) :
  Advertises config 0 (fun _ => 0) (step env (.frame status f) s).2.view
  := by
  have hreceived : Advertises config 0 (fun _ => 0) (s.received status f).view :=
    h.receive (Output.consumed_nonneg _ _) fun _ _ => Output.consumed_nonneg _ _
  have hstep : Along (Preserves fun s : Connection D => Advertises config 0 (fun _ => 0) s.view)
      (step env (.frame status f)) s := by
    apply Along.current_bind
    apply Along.when
    intro hreads _
    rw [Connection.reads, Bool.and_eq_true, Bool.and_eq_true] at hreads
    cases status with
    | incompleteFrame => exact h
    | protocolError => exact hreceived.reach hmin connectionError_moves
    | sizeError => exact hreceived.reach hmin handleSizeError_moves
    | goodFrame => exact handleGoodFrame_advertises hmin hreads.1.2 h
  exact hstep h

/-- The windows stay as advertised in every step. -/
theorem step_advertises (hmin : defaultSessionWindowSize ≤ config.sessionReceiveWindowSize)
    {event : Event D} (hharmless : event.Harmless s)
    (h : Advertises config 0 (fun _ => 0) s.view) :
  Advertises config 0 (fun _ => 0) (step env event s).2.view
  := by
  by_cases hframe : ∃ status f, event = .frame status f
  · obtain ⟨status, f, rfl⟩ := hframe
    exact step_frame_advertises hmin h
  · by_cases hupdate : ∃ streamID delta, event = .sendWINDOW_UPDATE streamID delta
    · obtain ⟨streamID, delta, rfl⟩ := hupdate
      exact step_update_advertises h hharmless
    · push Not at hframe hupdate
      exact h.reach hmin (step_plain_moves (fun _ => id) hframe hupdate)

theorem new_advertises (connectionType : ConnectionType) (config : QHttp2Configuration) :
  Advertises config 0 (fun _ => 0) (Connection.new (D := D) connectionType config).view
  := by
  have hwindow : ∀ streamID, advertisedWindow config streamID [] = config.initialWindow streamID :=
    fun _ => Int.add_zero _
  refine ⟨rfl, rfl, fun h => absurd h Bool.false_ne_true, Nat.one_pos, .nil config,
    fun call h => absurd h List.not_mem_nil, fun _ => ⟨rfl, ?_⟩, fun h => absurd h Bool.false_ne_true,
    fun streamID hid => ?_, fun streamID st h => ?_⟩
  · exact le_rfl
  · have hinitial : config.initialWindow streamID = config.streamReceiveWindowSize := if_neg hid
    have hle : advertisedWindow config streamID [] + (0 : ℕ) ≤ config.streamReceiveWindowSize := by
      rw [hwindow, hinitial, Nat.cast_zero, Int.add_zero]
    exact hle
  · cases h

theorem starts_advertises (hmin : defaultSessionWindowSize ≤ config.sessionReceiveWindowSize)
    (h : Starts env config s) :
  Advertises config 0 (fun _ => 0) s.view
  := by
  rcases h with rfl | rfl | h
  · exact new_advertises .client config
  · have hnew := new_advertises (D := D) .server config
    exact { hnew with waiting := fun _ => ⟨rfl, rfl⟩, nextStreamID := Nat.two_pos }
  · have hnew := new_advertises (D := D) .client config
    have hupgraded : Advertises config 0 (fun _ => 0)
      (Connection.view { Connection.new (D := D) .client config with upgradedConnection := true }) := hnew
    exact hupgraded.reach hmin (createUpgradedConnection_moves (by decide) h)

/-- In every run of a connection whose session window has the default size or more, every update
that is written is legal. -/
theorem run_advertises (hmin : defaultSessionWindowSize ≤ config.sessionReceiveWindowSize)
    (hstarts : Starts env config s) {events : List (Event D)}
    (hevents : EachMeets env Event.Harmless events s) :
  Advertises config 0 (fun _ => 0) (run env events s).2.view
  := run_invariant (I := fun s => Advertises config 0 (fun _ => 0) s.view)
    (fun _ _ hharmless h => step_advertises hmin hharmless h) hevents
    (starts_advertises hmin hstarts)

end

/-! ### Session windows below the default size -/

/-- A server that takes the preface of its client. -/
def announcement (config : QHttp2Configuration) : List Output :=
  (run (byteArrayEnv 0) [.clientPreface http2clientPreface] (createDirectServerConnection config)).2.trace

variable {config : QHttp2Configuration}

theorem announcement_eq (h : (config.sessionReceiveWindowSize : ℤ) ≠ defaultSessionWindowSize) :
  announcement config = [.wrote (configurationToSettingsFrame config) true,
    updateOutput connectionStreamID
      (toUInt32 (config.sessionReceiveWindowSize - defaultSessionWindowSize)) true]
  := by
  have hdelta : (config.sessionReceiveWindowSize : ℤ) - defaultSessionWindowSize ≠ 0 :=
    sub_ne_zero.mpr h
  simp [announcement, run, forEach, step, serverCheckClientPreface, sendServerPreface, sendSETTINGS,
    announceSessionWindow, sendWindowUpdateFrame, write, createDirectServerConnection,
    Connection.new, byteArrayEnv, bind_apply, hdelta, updateOutput]

/-- The increment of the announcement is out of range where the window is smaller. -/
theorem announcement_illegal
    (h : (config.sessionReceiveWindowSize : ℤ) < defaultSessionWindowSize) :
  ¬LegalUpdates config (announcement config)
  := by
  intro hlegal
  have hdefault : defaultSessionWindowSize = 65535 := rfl
  set delta := toUInt32 (config.sessionReceiveWindowSize - defaultSessionWindowSize) with hdef
  have hdelta : 2 ^ 31 - 1 < delta ∧ delta < 2 ^ 32 := by
    rw [hdef, toUInt32]
    omega
  have hmem : updateOutput connectionStreamID delta true ∈ announcement config := by
    rw [announcement_eq (ne_of_lt h)]
    exact List.mem_cons_of_mem _ (List.mem_singleton_self _)
  obtain ⟨delta', -, hle, hpayload⟩ := hlegal.increments _ hmem rfl
  have heq : delta = delta' := by
    have h₁ := fromBigEndian_toBigEndian hdelta.2 [] []
    have h₂ := fromBigEndian_toBigEndian (show delta' < 2 ^ 32 by omega) [] []
    rw [← hpayload] at h₂
    exact h₁.symm.trans h₂
  omega

/-- Every update that a connection writes is legal in every run exactly where the session window
of its configuration has the default size or more. -/
theorem legalUpdates_iff (config : QHttp2Configuration) :
  (∀ (D : Type) (env : Env D) (s : Connection D) (events : List (Event D)), Starts env config s →
    EachMeets env Event.Harmless events s → LegalUpdates config (run env events s).2.trace) ↔
  defaultSessionWindowSize ≤ config.sessionReceiveWindowSize
  := by
  constructor
  · intro h_legal
    by_contra h_min
    rw [not_le] at h_min
    exact announcement_illegal h_min (h_legal _ (byteArrayEnv 0) (createDirectServerConnection config)
      [.clientPreface http2clientPreface] (.inr (.inl rfl)) ⟨trivial, by split <;> trivial⟩)
  · intro h_min D env s events h_starts h_events
    exact (run_advertises h_min h_starts h_events).legal

theorem minPayloadLimit_le :
  minPayloadLimit ≤ maxPayloadSize
  := by decide

/-- A configuration with the smallest windows. -/
def smallestWindows : QHttp2Configuration where
  maxConcurrentStreams := 100
  sessionReceiveWindowSize := 1
  streamReceiveWindowSize := 1
  maxFrameSize := minPayloadLimit
  serverPushEnabled := false
  huffmanCompressionEnabled := false
  session_pos := by decide
  session_le := by decide
  stream_pos := by decide
  stream_le := by decide
  frame_le := minPayloadLimit_le

theorem smallestWindows_illegal :
  ¬LegalUpdates smallestWindows (run (byteArrayEnv 0) [.clientPreface http2clientPreface]
    (createDirectServerConnection smallestWindows)).2.trace
  := announcement_illegal (by decide)

end Http2
