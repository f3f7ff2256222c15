import BobUI.Network.Hpack.TableLayout
import BobUI.Network.Http2.PaddedControl
import Mathlib.Data.List.Induction
import Mathlib.Data.List.TakeWhile

/-!
# Updates of the size of the encoder's table

The peer sets the size of the encoder's dynamic table as often as it likes.  The encoder changes its
table in front of a field block only, and announces the change there: the smallest size that has
been set since the last block, and then the last one.  Sizes equal to that of the table are ignored
as long as no other has been set.
-/

namespace HPack

/-- A table resized within its limit has the size that is asked for. -/
theorem FieldLookupTable.updateDynamicTableSize_max (t : FieldLookupTable) (size : ℕ) :
  ∃ t', (t.setMaxDynamicTableSize size).updateDynamicTableSize size = (true, t') ∧
    t'.tableCapacity = size
  := by
  rw [updateDynamicTableSize]
  split_ifs with hzero hlarge
  · use { (t.setMaxDynamicTableSize size).clearDynamicTable with tableCapacity := 0 }, rfl
    apply hzero.symm
  · cases Nat.lt_irrefl _ hlarge
  · refine ⟨_, rfl, ?_⟩
    apply evictWhile_induction (motive := fun t => t.tableCapacity = size)
    · intro t _ ht
      rw [evictEntry]
      split_ifs
      · apply ht
      · rw [(sameLimits_popBack _).tableCapacity_eq, (sameLimits_eraseBackKey t).tableCapacity_eq,
          ht]
    · rfl

end HPack

namespace Http2

open Proc

variable {D : Type}

/-! ### The sizes that are announced -/

/-- The smallest of some sizes and, where it is another one, the last. -/
def summary : List ℕ → List ℕ
  | [] => []
  | value :: values =>
    if values.foldl min value = values.getLastD value then [values.getLastD value]
    else [values.foldl min value, values.getLastD value]

/-- What is announced of the sizes set for a table of a given capacity. -/
def announcedSizes (capacity : ℕ) (values : List ℕ) : List ℕ :=
  summary (values.dropWhile (· == capacity))

/-- The slots that hold up to two sizes. -/
def pendingSlots : List ℕ → Option ℕ × Option ℕ
  | [] => (none, none)
  | smallest :: rest => (some smallest, rest.head?)

theorem dropWhile_nil_iff (capacity : ℕ) (values : List ℕ) :
  values.dropWhile (· == capacity) = [] ↔ ∀ value ∈ values, value = capacity
  := by
  rw [List.dropWhile_eq_nil_iff]
  simp only [beq_iff_eq]

theorem announcedSizes_eq_nil_iff (capacity : ℕ) (values : List ℕ) :
  announcedSizes capacity values = [] ↔ ∀ value ∈ values, value = capacity
  := by
  rw [← dropWhile_nil_iff, announcedSizes]
  cases values.dropWhile (· == capacity) with
  | nil => simp [summary]
  | cons value values =>
    rw [summary]
    split_ifs
    · simp
    · simp

/-- The last size that is announced is the last one that has been set. -/
theorem getLastD_announcedSizes (capacity : ℕ) (values : List ℕ) :
  (announcedSizes capacity values).getLastD capacity = values.getLastD capacity
  := by
  have hsplit := List.takeWhile_append_dropWhile (p := (· == capacity)) (l := values)
  rw [announcedSizes]
  cases hdrop : values.dropWhile (· == capacity) with
  | nil =>
    have hall := (dropWhile_nil_iff capacity values).mp hdrop
    cases values using List.reverseRecOn with
    | nil => rfl
    | append_singleton values value =>
      rw [List.getLastD_concat, hall value (by simp)]
      rfl
  | cons value rest =>
    have hlast : values.getLastD capacity = rest.getLastD value := by
      rw [← hsplit, hdrop, List.getLastD_eq_getLast?, List.getLastD_eq_getLast?,
        List.getLast?_append, List.getLast?_cons]
      rfl
    rw [hlast, summary]
    split_ifs
    · rfl
    · rfl

theorem pendTableSizeUpdate_pending (value : ℕ) (s : Connection D) :
  (pendTableSizeUpdate value s).pendingTableSizeUpdates =
    if s.pendingTableSizeUpdates.1.isNone ∧ s.encoder.lookupTable.tableCapacity = value then
      s.pendingTableSizeUpdates
    else if value ≤ s.pendingTableSizeUpdates.1.getD (2 ^ 32 - 1) then (some value, none)
    else (s.pendingTableSizeUpdates.1, some value)
  := by
  rw [pendTableSizeUpdate]
  split_ifs
  · rfl
  · rfl
  · rfl

variable {s s' : Connection D}

/-- A size that is set changes the slots as it changes what is to be announced. -/
theorem pendingSlots_append {values : List ℕ} {value : ℕ} (h : s.pendingTableSizeUpdates =
      pendingSlots (announcedSizes s.encoder.lookupTable.tableCapacity values))
    (hvalue : value < 2 ^ 32) :
  (pendTableSizeUpdate value s).pendingTableSizeUpdates =
    pendingSlots (announcedSizes s.encoder.lookupTable.tableCapacity (values ++ [value]))
  := by
  rw [pendTableSizeUpdate_pending]
  generalize s.encoder.lookupTable.tableCapacity = capacity at h ⊢
  rw [announcedSizes] at h
  rw [announcedSizes, List.dropWhile_append]
  cases hdrop : values.dropWhile (· == capacity) with
  | nil =>
    simp only [hdrop, summary, pendingSlots] at h
    by_cases hsame : value = capacity
    · simp [h, hsame, summary, pendingSlots]
    · have hle : value ≤ 4294967295 := by omega
      simp [h, hsame, Ne.symm hsame, hle, summary, pendingSlots]
  | cons first rest =>
    simp only [hdrop, summary] at h
    have hpending : s.pendingTableSizeUpdates.1 = some (rest.foldl min first) := by
      rw [h]
      split_ifs with heq
      · rw [heq]
        rfl
      · rfl
    simp only [hpending, summary, List.isEmpty_cons, Bool.false_eq_true, if_false,
      Option.isNone_some, false_and, Option.getD_some, List.cons_append, List.foldl_append,
      List.foldl_cons, List.foldl_nil, List.getLastD_concat]
    by_cases hle : value ≤ rest.foldl min first
    · rw [if_pos hle, if_pos (min_eq_right hle)]
      rfl
    · have hne : ¬ min (rest.foldl min first) value = value := by omega
      have hmin : min (rest.foldl min first) value = rest.foldl min first := by omega
      rw [if_neg hle, if_neg hne, hmin]
      rfl

/-! ### Writing the updates -/

/-- The octets of the updates to some sizes. -/
def sizeUpdateOctets (sizes : List ℕ) : Octets :=
  sizes.flatMap (HPack.integerOctets 5 1)

/-- An update changes the table to the size it announces. -/
theorem writeTableSizeUpdate_some (e : HPack.Encoder) (buffer : Octets) (size : ℕ) :
  ∃ e', writeTableSizeUpdate (some size) e (.new buffer) =
      (e', .new (buffer ++ HPack.integerOctets 5 1 size)) ∧
    e'.lookupTable.tableCapacity = size
  := by
  obtain ⟨t', hupdate, hcapacity⟩ := e.lookupTable.updateDynamicTableSize_max size
  use { e with lookupTable := t' }
  constructor
  · rw [writeTableSizeUpdate]
    simp only [HPack.Encoder.setMaxDynamicTableSize, HPack.Encoder.encodeSizeUpdate, hupdate]
    congr 1
    apply HPack.BitOStream.writeInteger_pattern buffer (by decide) (by decide) (by decide)
  · apply hcapacity

/-- What the slots hold is written, and the table gets the last size of it. -/
theorem writeTableSizeUpdates_pendingSlots {sizes : List ℕ} (h : sizes.length ≤ 2)
    (e : HPack.Encoder) (buffer : Octets) :
  ∃ e', writeTableSizeUpdates (pendingSlots sizes) e (.new buffer) =
      (e', .new (buffer ++ sizeUpdateOctets sizes)) ∧
    e'.lookupTable.tableCapacity = sizes.getLastD e.lookupTable.tableCapacity
  := by
  match sizes with
  | [] =>
    use e
    simp [writeTableSizeUpdates, pendingSlots, writeTableSizeUpdate, sizeUpdateOctets]
  | [size] =>
    obtain ⟨e', hwrite, hcapacity⟩ := writeTableSizeUpdate_some e buffer size
    use e'
    constructor
    · have hnone : ∀ o, writeTableSizeUpdate none e' o = (e', o) := fun _ => rfl
      simp [writeTableSizeUpdates, pendingSlots, hwrite, sizeUpdateOctets, hnone]
    · apply hcapacity
  | [smallest, latest] =>
    obtain ⟨e₁, hwrite, -⟩ := writeTableSizeUpdate_some e buffer smallest
    obtain ⟨e', hwrite', hcapacity⟩ := writeTableSizeUpdate_some e₁
      (buffer ++ HPack.integerOctets 5 1 smallest) latest
    use e'
    constructor
    · simp [writeTableSizeUpdates, pendingSlots, hwrite, hwrite', sizeUpdateOctets]
    · apply hcapacity
  | _ :: _ :: _ :: _ => simp at h

theorem length_announcedSizes (capacity : ℕ) (values : List ℕ) :
  (announcedSizes capacity values).length ≤ 2
  := by
  rw [announcedSizes]
  cases values.dropWhile (· == capacity) with
  | nil => simp [summary]
  | cons value values =>
    rw [summary]
    split_ifs
    · simp
    · simp

/-! ### What leaves the sizes alone -/

/-- The encoder and the slots are the same. -/
structure SameSizes (s s' : Connection D) : Prop where
  encoder_eq : s'.encoder = s.encoder
  pending_eq : s'.pendingTableSizeUpdates = s.pendingTableSizeUpdates

instance : IsPreorder (Connection D) SameSizes where
  refl _ := ⟨rfl, rfl⟩
  trans _ _ _ h h' :=
    ⟨h'.encoder_eq.trans h.encoder_eq, h'.pending_eq.trans h.pending_eq⟩

/-- What a procedure that leaves the sizes alone ends in. -/
theorem SameSizes.of_along {α : Type} {p : Operation D α} {r : Except Fault α}
    (h : Along SameSizes p s) (hp : p s = (r, s')) :
  SameSizes s s'
  := by
  rw [Along, hp] at h
  apply h

theorem modifyStream_sameSizes (streamID : ℕ) (f : Stream D → Stream D) (s : Connection D) :
  Along SameSizes (modifyStream streamID f) s
  := by
  rw [Along, modifyStream, change_apply]
  cases s.getStream streamID with
  | none => exact ⟨rfl, rfl⟩
  | some st => exact ⟨rfl, rfl⟩

theorem emit_sameSizes (signal : Signal) (s : Connection D) :
  Along SameSizes (emit signal) s
  := ⟨rfl, rfl⟩

theorem setState_sameSizes (streamID : ℕ) (newState : StreamState) (s : Connection D) :
  Along SameSizes (setState streamID newState) s
  := by
  apply Along.current_bind
  cases s.getStream streamID with
  | none => apply Along.pure
  | some st =>
    apply Along.ite
    · intro _
      apply Along.pure
    · intro _
      apply Along.bind (modifyStream_sameSizes _ _ s)
      intro _ s' _
      apply Along.bind (emit_sameSizes _ s')
      intro _ s'' _
      apply Along.ite
      · intro _
        apply Along.current_bind
        apply Along.ite
        · intro _
          apply Along.pure
        · intro _
          apply Along.ite
          · intro _
            apply Along.pure
          · intro _
            apply Along.ite
            · intro _
              apply emit_sameSizes
            · intro _
              apply Along.pure
      · intro _
        apply Along.pure

theorem transitionState_sameSizes (streamID : ℕ) (transition : StateTransition)
    (s : Connection D) :
  Along SameSizes (transitionState streamID transition) s
  := by
  apply Along.current_bind
  cases s.getStream streamID with
  | none => apply Along.pure
  | some st =>
    apply Along.ite
    · intro _
      apply Along.fail
    · intro _
      cases nextState st.state transition with
      | none => apply Along.pure
      | some newState => apply setState_sameSizes

variable (env : Env D)

theorem writeAll_sameSizes (frames : List OutboundFrame) (s : Connection D) :
  Along SameSizes (writeAll env frames) s
  := by
  induction frames generalizing s with
  | nil => apply Along.pure
  | cons frame frames ih =>
    have hwrite : Along SameSizes (write env frame) s := ⟨rfl, rfl⟩
    apply Along.bind hwrite
    intro ok s' _
    apply Along.ite
    · intro _
      apply ih
    · intro _
      apply Along.pure

/-! ### The runs of a connection -/

/-- The sizes that have been set since the last block was sent, or since the connection was made.
Whatever else happens leaves the encoder and the slots alone; a call of `sendHEADERS` whose fields
are not encoded does not, and is not followed here. -/
inductive ReceivedSince : Connection D → List ℕ → Prop where
  | created (connectionType : ConnectionType) (config : QHttp2Configuration) :
      ReceivedSince (.new connectionType config) []
  | setting {s s' : Connection D} {values : List ℕ} (newValue : ℕ) (h : ReceivedSince s values)
      (h_step : acceptSetting env (some .headerTableSizeId) newValue s = (.ok true, s')) :
      ReceivedSince s' (values ++ [newValue])
  | block {s s' : Connection D} {values : List ℕ} (streamID : ℕ) (headers : HPack.HttpHeader)
      (endStream : Bool) (priority : UInt8) (h : ReceivedSince s values)
      (h_step : sendHEADERS env streamID headers endStream priority s = (.ok true, s')) :
      ReceivedSince s' []
  | other {s s' : Connection D} {values : List ℕ} (h : ReceivedSince s values)
      (h_step : SameSizes s s') : ReceivedSince s' values

variable {env}

/-- A size that is accepted is at most 65536. -/
theorem acceptSetting_size {newValue : ℕ}
    (h : acceptSetting env (some .headerTableSizeId) newValue s = (.ok true, s')) :
  newValue ≤ 16 * 4096 ∧ s' = pendTableSizeUpdate newValue s
  := by
  rw [acceptSetting, current_bind] at h
  dsimp only at h
  split_ifs at h with hlarge
  · obtain ⟨_, s₁, -, hfalse⟩ := bind_eq_ok h
    cases hfalse
  · cases h
    constructor
    · omega
    · rfl

/-- A block that has been sent leaves the slots empty. -/
theorem sendHEADERS_pending {streamID : ℕ} {headers : HPack.HttpHeader} {endStream : Bool}
    {priority : UInt8}
    (h : sendHEADERS env streamID headers endStream priority s = (.ok true, s')) :
  s'.pendingTableSizeUpdates =
    if s.pendingTableSizeUpdates.1.isSome then (none, none) else s.pendingTableSizeUpdates
  := by
  rw [sendHEADERS, current_bind] at h
  cases hsize : headerSize headers with
  | none =>
    rw [hsize] at h
    cases h
  | some size =>
    rw [hsize] at h
    dsimp only at h
    generalize (if endStream = true then FrameFlag.endStream else 0) = flag at h
    split_ifs at h with hlarge
    · cases h
    · obtain ⟨_, s₁, hopen, h⟩ := bind_eq_ok h
      have hopened := SameSizes.of_along (transitionState_sameSizes streamID .opening s) hopen
      rw [current_bind] at h
      obtain ⟨_, s₂, hchange, h⟩ := bind_eq_ok h
      have hcleared : s₂.pendingTableSizeUpdates =
          if s₁.pendingTableSizeUpdates.1.isSome then (none, none)
          else s₁.pendingTableSizeUpdates := by
        rw [change_apply] at hchange
        obtain ⟨-, rfl⟩ := Prod.mk.inj hchange
        rfl
      split_ifs at h
      · cases h
      · obtain ⟨result, s₃, hwritten, h⟩ := bind_eq_ok h
        obtain ⟨_, s₄, hclosed, h⟩ := bind_eq_ok h
        cases h
        have hframes := SameSizes.of_along (writeAll_sameSizes env _ s₂) hwritten
        have hend := SameSizes.of_along
          (Along.when fun _ => transitionState_sameSizes streamID .closeLocal s₃) hclosed
        rw [hend.pending_eq, hframes.pending_eq, hcleared, hopened.pending_eq]

/-- The slots hold what is to be announced of the sizes that have been set. -/
theorem ReceivedSince.pending_eq {values : List ℕ} (h : ReceivedSince env s values) :
  s.pendingTableSizeUpdates =
    pendingSlots (announcedSizes s.encoder.lookupTable.tableCapacity values)
  := by
  induction h with
  | created connectionType config => rfl
  | setting newValue h hstep ih =>
    obtain ⟨hle, rfl⟩ := acceptSetting_size hstep
    have hencoder : ∀ s : Connection D,
        (pendTableSizeUpdate newValue s).encoder = s.encoder := by
      intro s
      rw [pendTableSizeUpdate]
      split_ifs
      · rfl
      · rfl
      · rfl
    rw [hencoder]
    apply pendingSlots_append ih (by omega)
  | block streamID headers endStream priority h hstep ih =>
    rw [sendHEADERS_pending hstep, ih]
    cases announcedSizes _ _ with
    | nil => rfl
    | cons size sizes => rfl
  | other h hstep ih => rw [hstep.pending_eq, hstep.encoder_eq, ih]

/-- In front of the next block the sizes that are to be announced are written, and the encoder's
table gets the last size that has been set.  Nothing is written only if all the sizes are that of
the table. -/
theorem ReceivedSince.writeTableSizeUpdates {s : Connection D} {values : List ℕ}
    (h : ReceivedSince env s values) (buffer : Octets) :
  let capacity := s.encoder.lookupTable.tableCapacity
  ∃ e', Http2.writeTableSizeUpdates s.pendingTableSizeUpdates s.encoder (.new buffer) =
      (e', .new (buffer ++ sizeUpdateOctets (announcedSizes capacity values))) ∧
    e'.lookupTable.tableCapacity = values.getLastD capacity ∧
    (announcedSizes capacity values = [] ↔ ∀ value ∈ values, value = capacity)
  := by
  obtain ⟨e', h_write, h_capacity⟩ := writeTableSizeUpdates_pendingSlots
    (length_announcedSizes s.encoder.lookupTable.tableCapacity values) s.encoder buffer
  use e'
  rw [h.pending_eq, h_write]
  use rfl
  constructor
  · rw [h_capacity, getLastD_announcedSizes]
  · apply announcedSizes_eq_nil_iff

/-- A connection whose table has 4096 octets, after the peer has set some sizes. -/
def afterSettings (values : List ℕ) : Connection QNonContiguousByteDeviceByteArrayImpl :=
  values.foldl (fun s value => pendTableSizeUpdate value s)
    (createDirectConnection defaultConfiguration)

theorem receivedSince_afterSettings :
  ReceivedSince (byteArrayEnv 8) (afterSettings [4096, 5000, 100, 300]) [4096, 5000, 100, 300]
  := by
  have hcreated : ReceivedSince (byteArrayEnv 8) _ [] := .created .client defaultConfiguration
  have h₁ := hcreated.setting 4096 rfl
  have h₂ := h₁.setting 5000 rfl
  have h₃ := h₂.setting 100 rfl
  have h₄ := h₃.setting 300 rfl
  apply h₄

theorem writeTableSizeUpdates_afterSettings :
  let s := afterSettings [4096, 5000, 100, 300]
  ∃ e', writeTableSizeUpdates s.pendingTableSizeUpdates s.encoder (.new []) =
      (e', .new ([] ++ sizeUpdateOctets (announcedSizes 4096 [4096, 5000, 100, 300]))) ∧
    e'.lookupTable.tableCapacity = 300 ∧
    (announcedSizes 4096 [4096, 5000, 100, 300] = [] ↔
      ∀ value ∈ [4096, 5000, 100, 300], value = 4096)
  := ReceivedSince.writeTableSizeUpdates receivedSince_afterSettings []

/-- The first of the sizes, which is that of the table, is the smallest, and is not announced. -/
theorem summary_not_written :
  ReceivedSince (byteArrayEnv 8) (afterSettings [4096, 5000]) [4096, 5000] ∧
  ¬ ∃ e', writeTableSizeUpdates (afterSettings [4096, 5000]).pendingTableSizeUpdates
    (afterSettings [4096, 5000]).encoder (.new []) =
      (e', .new (sizeUpdateOctets (summary [4096, 5000])))
  := by
  constructor
  · have h_created : ReceivedSince (byteArrayEnv 8) _ [] := .created .client defaultConfiguration
    have h₁ := h_created.setting 4096 rfl
    have h₂ := h₁.setting 5000 rfl
    apply h₂
  · rintro ⟨e', h_write⟩
    obtain ⟨e'', h_some, -⟩ := writeTableSizeUpdate_some (afterSettings [4096, 5000]).encoder []
      5000
    have h_updates : writeTableSizeUpdates (afterSettings [4096, 5000]).pendingTableSizeUpdates
        (afterSettings [4096, 5000]).encoder (.new [])
      = writeTableSizeUpdate (some 5000) (afterSettings [4096, 5000]).encoder (.new []) := rfl
    rw [h_updates, h_some] at h_write
    have h_length := congrArg (fun o => o.buffer.length) (Prod.mk.inj h_write).2
    have h_summary : summary [4096, 5000] = [4096, 5000] := rfl
    rw [h_summary] at h_length
    simp [sizeUpdateOctets, HPack.BitOStream.new, HPack.integerOctets,
      HPack.BitOStream.continuation] at h_length

end Http2
