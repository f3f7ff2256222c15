import BobUI.Network.Http2.Segmentation

/-!
# The data of a frame

Where the accessors of a frame that the reader has delivered point.  `validatePayload` compares
the length of the padding with the size of the payload, but not the octet with that length, which
the accessors subtract as well.
-/

namespace Http2

namespace Frame

/-- The frames with data or a part of a field block. -/
def carriesData (f : Frame) : Bool :=
  f.type = .data || f.type = .headers || f.type = .pushPromise || f.type = .continuation

/-- `dataSize` before it is converted to a `quint32`. -/
def dataLength (f : Frame) : ℤ :=
  f.payloadSize - (if testFlag f.flags FrameFlag.padded then f.padding + 1 else 0)
    - if f.priority.isSome then 5 else 0

/-- `hpackBlockSize` before it is converted to a `quint32`. -/
def hpackBlockLength (f : Frame) : ℤ :=
  f.dataLength - if f.type = .pushPromise then 4 else 0

/-- Octets of the payload that are followed by the padding. -/
def Inside (f : Frame) (begin : Option ℕ) (size : ℕ) : Prop :=
  match begin with
  | none => size = 0
  | some start => frameHeaderSize ≤ start ∧ start + size + f.padding ≤ f.buffer.length

/-- The sizes do not wrap below zero, and the octets lie in the payload in front of the
padding. -/
structure Sound (f : Frame) : Prop where
  data_nonneg : 0 ≤ f.dataLength
  hpackBlock_nonneg : 0 ≤ f.hpackBlockLength
  data : f.Inside f.dataBegin f.dataSize
  hpackBlock : f.Inside f.hpackBlockBegin f.hpackBlockSize

/-- The size of the fields in front of the data: the priority of HEADERS, or the stream that
PUSH_PROMISE promises. -/
def fixedSize (f : Frame) : ℕ :=
  match f.type with
  | .headers => if testFlag f.flags FrameFlag.priority then 5 else 0
  | .pushPromise => 4
  | _ => 0

/-- The fixed fields and the padding do not make up the whole payload of a frame with padding. -/
def LeavesOctet (f : Frame) : Prop :=
  testFlag f.flags FrameFlag.padded → f.payloadSize ≠ f.fixedSize + f.padding

/-- A frame with its whole payload that has passed `validatePayload`. -/
structure Complete (f : Frame) : Prop where
  length : f.buffer.length = frameHeaderSize + f.payloadSize
  valid : f.validatePayload = .goodFrame

instance (f : Frame) : Decidable f.LeavesOctet :=
  inferInstanceAs (Decidable (_ → _))

theorem payloadSize_lt (f : Frame) :
  f.payloadSize < 2 ^ 24
  := by
  have h₀ := (f.buffer[0]!).toNat_lt
  have h₁ := (f.buffer[1]!).toNat_lt
  have h₂ := (f.buffer[2]!).toNat_lt
  rw [payloadSize]
  omega

theorem toUInt32_of_nonneg {x : ℤ} (h : 0 ≤ x) (hlt : x < 2 ^ 32) :
  (toUInt32 x : ℤ) = x
  := by
  rw [toUInt32, Int.emod_eq_of_lt h hlt]
  omega

variable {f : Frame}

theorem padding_of_not_padded (h : testFlag f.flags FrameFlag.padded = false) :
  f.padding = 0
  := by
  rw [padding, h, Bool.not_false, if_pos rfl]

/-- The octet with the length of the padding is read where the frame has one. -/
theorem padding_of_padded (h : testFlag f.flags FrameFlag.padded = true)
    (htype : f.type = .data ∨ f.type = .headers ∨ f.type = .pushPromise) :
  f.padding = (f.buffer[frameHeaderSize]!).toNat
  := by
  rw [padding, h, Bool.not_true, if_neg Bool.false_ne_true]
  rcases htype with htype | htype | htype
  · rw [htype]
  · rw [htype]
  · rw [htype]

theorem unpaddedSize_eq {size : ℕ} (h : f.unpaddedSize = some size)
    (htype : f.type = .data ∨ f.type = .headers ∨ f.type = .pushPromise) :
  f.padding + size = f.payloadSize
  := by
  rw [unpaddedSize] at h
  cases hpadded : testFlag f.flags FrameFlag.padded with
  | false =>
    rw [hpadded, if_neg Bool.false_ne_true, Option.some.injEq] at h
    rw [padding_of_not_padded hpadded, h, Nat.zero_add]
  | true =>
    rw [hpadded, if_pos rfl] at h
    rw [padding_of_padded hpadded htype]
    split at h
    next => cases h
    next hfits =>
      rw [Option.some.injEq] at h
      omega

/-- What `validatePayload` has checked: the fixed fields fit in front of the padding. -/
theorem unpaddedSize_of_valid (h : f.validatePayload = .goodFrame)
    (htype : f.type = .data ∨ f.type = .headers ∨ f.type = .pushPromise) :
  ∃ size, f.unpaddedSize = some size ∧ f.fixedSize ≤ size
  := by
  rw [validatePayload] at h
  cases hsize : f.unpaddedSize with
  | none =>
    rw [hsize] at h
    rcases htype with htype | htype | htype
    all_goals
      rw [htype] at h
      cases h
  | some size =>
    use size, rfl
    rw [hsize] at h
    rcases htype with htype | htype | htype
    · rw [fixedSize, htype]
      exact Nat.zero_le size
    · rw [htype] at h
      rw [fixedSize, htype]
      dsimp only at h ⊢
      split at h
      next => cases h
      next hpriority =>
        split
        next hflag => exact not_lt.mp fun hsmall => hpriority ⟨hflag, hsmall⟩
        next => exact Nat.zero_le size
    · rw [htype] at h
      rw [fixedSize, htype]
      dsimp only at h ⊢
      split at h
      next => cases h
      next hsize => exact not_lt.mp hsize

theorem Complete.fits (h : f.Complete) (hcarries : f.carriesData = true) :
  f.fixedSize + f.padding ≤ f.payloadSize
  := by
  have hfirst : f.type = .data ∨ f.type = .headers ∨ f.type = .pushPromise →
      f.fixedSize + f.padding ≤ f.payloadSize := by
    intro htype
    obtain ⟨size, hsize, hfixed⟩ := unpaddedSize_of_valid h.valid htype
    have hsum := unpaddedSize_eq hsize htype
    omega
  simp only [carriesData, Bool.or_eq_true, decide_eq_true_eq] at hcarries
  rcases hcarries with ((htype | htype) | htype) | htype
  · exact hfirst (.inl htype)
  · exact hfirst (.inr (.inl htype))
  · exact hfirst (.inr (.inr htype))
  · have hpadding : f.padding = 0 := by
      rw [padding, htype]
      split
      next => rfl
      next => rfl
    rw [fixedSize, htype, hpadding]
    exact Nat.zero_le _

/-- The priority and the promised stream are what `dataLength` and `hpackBlockLength` leave
out. -/
theorem Complete.hpackBlockLength_eq (h : f.Complete) (hcarries : f.carriesData = true) :
  f.hpackBlockLength = f.payloadSize
    - (if testFlag f.flags FrameFlag.padded then (f.padding : ℤ) + 1 else 0) - f.fixedSize
  := by
  have hfits := h.fits hcarries
  have hlength := h.length
  simp only [carriesData, Bool.or_eq_true, decide_eq_true_eq] at hcarries
  rw [hpackBlockLength, dataLength]
  rcases hcarries with ((htype | htype) | htype) | htype
  · simp [fixedSize, priority, htype]
  · cases hflag : testFlag f.flags FrameFlag.priority with
    | false => simp [fixedSize, priority, htype, hflag]
    | true =>
      have hfixed : f.fixedSize = 5 := by
        rw [fixedSize, htype, hflag]
        rfl
      have hsize : ¬f.buffer.length ≤ frameHeaderSize := by omega
      simp [fixedSize, priority, htype, hflag, hsize]
  · simp [fixedSize, priority, htype]
  · simp [fixedSize, priority, htype]

theorem dataLength_le (f : Frame) :
  f.dataLength ≤ f.payloadSize
  := by
  rw [dataLength]
  split <;> split <;> omega

theorem dataSize_eq (h : 0 ≤ f.dataLength) :
  (f.dataSize : ℤ) = f.dataLength
  := by
  have hlt := f.payloadSize_lt
  have hle := f.dataLength_le
  have hsize : f.dataSize = toUInt32 f.dataLength := by
    rw [dataSize, dataLength]
    congr 1
    split <;> split <;> push_cast <;> omega
  rw [hsize]
  exact toUInt32_of_nonneg h (by omega)

theorem hpackBlockSize_eq (h : 0 ≤ f.dataLength) (hhpack : 0 ≤ f.hpackBlockLength) :
  (f.hpackBlockSize : ℤ) = f.hpackBlockLength
  := by
  have hdata := dataSize_eq h
  have hlt := f.payloadSize_lt
  have hle := f.dataLength_le
  rw [hpackBlockSize]
  rw [hpackBlockLength] at hhpack ⊢
  split
  next htype =>
    rw [if_pos htype] at hhpack
    rw [toUInt32_of_nonneg (by omega) (by omega), hdata]
  next htype => rw [hdata, sub_zero]

/-- Where the data begins behind the octet with the length of the padding and the priority. -/
theorem inside_data (h : f.Complete) (hdata : 0 ≤ f.dataLength) :
  f.Inside f.dataBegin f.dataSize
  := by
  have hsize := dataSize_eq hdata
  have hlength := h.length
  have hle := f.dataLength_le
  unfold Inside
  rw [dataBegin]
  split
  next hnone =>
    split at hnone
    next hempty => omega
    next => cases hnone
  next start hsome =>
    split at hsome
    next => cases hsome
    next =>
      rw [Option.some.injEq] at hsome
      rw [dataLength] at hsize
      cases hpadded : testFlag f.flags FrameFlag.padded with
      | true =>
        rw [hpadded, if_pos rfl] at hsize hsome
        split at hsize
        next hpriority =>
          rw [if_pos hpriority] at hsome
          omega
        next hpriority =>
          rw [if_neg hpriority] at hsome
          omega
      | false =>
        have hpadding := padding_of_not_padded hpadded
        rw [hpadded, if_neg Bool.false_ne_true] at hsize hsome
        split at hsize
        next hpriority =>
          rw [if_pos hpriority] at hsome
          omega
        next hpriority =>
          rw [if_neg hpriority] at hsome
          omega

theorem inside_hpackBlock (h : f.Complete) (hdata : 0 ≤ f.dataLength)
    (hhpack : 0 ≤ f.hpackBlockLength) :
  f.Inside f.hpackBlockBegin f.hpackBlockSize
  := by
  have hinside := inside_data h hdata
  have hdataSize := dataSize_eq hdata
  have hsize := hpackBlockSize_eq hdata hhpack
  rw [hpackBlockBegin]
  by_cases htype : f.type = .pushPromise
  · rw [hpackBlockLength, if_pos htype] at hsize hhpack
    rw [if_pos htype]
    unfold Inside at hinside ⊢
    cases hbegin : f.dataBegin with
    | none =>
      rw [hbegin] at hinside
      dsimp only [Option.map_none] at hinside ⊢
      omega
    | some start =>
      rw [hbegin] at hinside
      dsimp only [Option.map_some] at hinside ⊢
      omega
  · rw [if_neg htype, hpackBlockSize, if_neg htype]
    exact hinside

/-- The accessors of a complete frame are sound where they leave an octet for the length of the
padding, and only there. -/
theorem Complete.sound_iff (h : f.Complete) (hcarries : f.carriesData = true) :
  f.Sound ↔ f.LeavesOctet
  := by
  have hfits := h.fits hcarries
  have hhpack := h.hpackBlockLength_eq hcarries
  constructor
  · intro hsound hpadded hwhole
    have hnonneg := hsound.hpackBlock_nonneg
    rw [hpadded, if_pos rfl] at hhpack
    omega
  · intro hleaves
    have hnonneg : 0 ≤ f.hpackBlockLength := by
      cases hpadded : testFlag f.flags FrameFlag.padded with
      | true =>
        have hwhole := hleaves hpadded
        rw [hpadded, if_pos rfl] at hhpack
        omega
      | false =>
        rw [hpadded, if_neg Bool.false_ne_true] at hhpack
        omega
    have hdata : 0 ≤ f.dataLength := by
      rw [hpackBlockLength] at hnonneg
      split at hnonneg <;> omega
    exact ⟨hdata, hnonneg, inside_data h hdata, inside_hpackBlock h hdata hnonneg⟩

end Frame

/-! ### Frames that the reader delivers -/

namespace FrameReader

/-- A reader at the start of a frame, or one that keeps the header of a frame without data. -/
def Between (r : FrameReader) : Prop :=
  r.offset = 0 ∨ frameHeaderSize ≤ r.offset ∧ r.offset ≤ r.frame.buffer.length
    ∧ r.frame.carriesData = false

theorem between_handOver {r : FrameReader} {status : FrameStatus} (h : r.offset = 0) :
  (r.handOver status).Between
  := by
  left
  rw [handOver_offset, h]

end FrameReader

theorem Frame.SameHeader.carriesData {f g : Frame} (h : f.SameHeader g) :
  f.carriesData = g.carriesData
  := by
  rw [Frame.carriesData, Frame.carriesData, h.type]

/-- A header that is kept is not that of a frame with data. -/
theorem Frame.carriesData_of_kept {f : Frame} (h : f.validateHeader = .sizeError)
    (hopen : sizeErrorEndsConnection f = false) :
  f.carriesData = false
  := by
  have hle : ¬f.payloadSize > maxPayloadSize := by
    have hlt := f.payloadSize_lt
    rw [maxPayloadSize]
    omega
  rw [sizeErrorEndsConnection] at hopen
  simp only [Bool.or_eq_false_iff, decide_eq_false_iff_not] at hopen
  rw [Frame.validateHeader, if_neg hle] at h
  rw [Frame.carriesData]
  simp only [Bool.or_eq_false_iff, decide_eq_false_iff_not]
  refine ⟨⟨⟨?_, hopen.1.1.1.1.1⟩, hopen.1.1.1.2⟩, hopen.1.1.2⟩
  intro htype
  rw [htype] at h
  cases h

variable {r : FrameReader} {stream : Octets}

theorem FrameReader.next_of_kept {r' : FrameReader} {stream' : Octets} {status : FrameStatus}
    (hheader : frameHeaderSize ≤ r.offset) (hoffset : r.offset ≤ r.frame.buffer.length)
    (h : r.next stream = some (status, r', stream')) :
  r'.offset = 0 ∧ r'.frame.SameHeader r.frame
  := by
  rw [next, if_neg (not_lt.mpr hheader), nextRest] at h
  split at h
  next => cases h
  next =>
    cases h
    use rfl
    rw [Frame.SameHeader, fill, List.append_assoc, List.take_append_of_le_length, List.take_take,
      Nat.min_eq_left hheader]
    rw [List.length_take]
    omega

/-- What the reader delivers between two frames, and how it goes on. -/
theorem FrameReader.Between.next {r' : FrameReader} {stream' : Octets} {status : FrameStatus}
    (h : r.Between) (hnext : r.next stream = some (status, r', stream')) :
  (status = .goodFrame → r'.frame.carriesData = true → r'.frame.Complete)
    ∧ (endsConnection status r'.frame = false → (r'.handOver status).Between)
  := by
  rcases h with hoffset | ⟨hheader, hoffset, hother⟩
  · have hvalid := next_valid hnext
    rw [next_of_boundary stream hoffset] at hnext
    split at hnext
    next => cases hnext
    next hstream =>
      split at hnext
      next hbad =>
        have herror := Frame.validateHeader_eq_sizeError hbad
        have hsame : (r.headerOf stream).SameHeader (headFrame stream) :=
          (sameHeader_headerOf hoffset (not_lt.mp hstream)).trans
            (sameHeader_headFrame stream).symm
        rw [herror] at hnext
        cases hnext
        constructor
        · rintro ⟨⟩
        · intro hopen
          right
          refine ⟨le_refl _, hvalid (le_refl _), ?_⟩
          rw [handOver, if_neg (by decide)]
          change (r.headerOf stream).carriesData = false
          rw [hsame.carriesData]
          apply Frame.carriesData_of_kept herror
          rwa [endsConnection_sizeError, hsame.sizeErrorEndsConnection] at hopen
      next =>
        split at hnext
        next => cases hnext
        next hwhole =>
          cases hnext
          constructor
          · intro hgood _
            refine ⟨?_, hgood⟩
            rw [(sameHeader_headFrame stream).payloadSize, headFrame, List.length_take]
            omega
          · intro _
            exact between_handOver rfl
  · obtain ⟨hzero, hsame⟩ := next_of_kept hheader hoffset hnext
    constructor
    · intro _ hcarries
      rw [hsame.carriesData, hother] at hcarries
      cases hcarries
    · intro _
      exact between_handOver hzero

/-- A good frame with data is complete. -/
theorem complete_of_mem_whole {start : ℕ} (h : r.Between) {d : Delivery}
    (hd : d ∈ whole start r stream) (hgood : d.status = .goodFrame)
    (hcarries : d.frame.carriesData = true) :
  d.frame.Complete
  := by
  induction start, r, stream using whole.induct with
  | case1 start r stream hnext =>
    rw [whole_of_next_none hnext] at hd
    cases hd
  | case2 start r stream status r' stream' hnext d' ih =>
    obtain ⟨hcomplete, hbetween⟩ := h.next hnext
    rw [whole_of_next_some hnext, List.mem_cons] at hd
    rcases hd with rfl | hd
    · exact hcomplete hgood hcarries
    · split at hd
      next => cases hd
      next hopen => exact ih (hbetween (by rwa [Bool.not_eq_true] at hopen)) hd

/-- However the octets arrive, the accessors of a good frame with data are sound if and only if
its fixed fields and its padding do not make up the whole payload of a frame with padding. -/
theorem goodFrame_sound_iff (n : ℕ) (socket : Socket) {d : Delivery}
    (h_d : d ∈ deliveries n 0 .new socket) (h_good : d.status = .goodFrame)
    (h_carries : d.frame.carriesData = true) :
  d.frame.Sound ↔ d.frame.LeavesOctet
  := by
  have h_whole := (deliveries_extend n FrameReader.new_valid).subset h_d
  exact (complete_of_mem_whole (.inl rfl) h_whole h_good h_carries).sound_iff h_carries

/-- A DATA frame with an octet of padding behind an octet of data. -/
theorem goodFrame_sound_iff_data :
  (⟨.goodFrame, ⟨[0, 0, 3, 0, 8, 0, 0, 0, 1, 1, 0x61, 0]⟩, 0, 12⟩ : Delivery)
      ∈ deliveries 1 0 .new [[0, 0, 3, 0, 8, 0, 0, 0, 1, 1, 0x61, 0]]
    ∧ Frame.Sound ⟨[0, 0, 3, 0, 8, 0, 0, 0, 1, 1, 0x61, 0]⟩
  := by
  have h_d : (⟨.goodFrame, ⟨[0, 0, 3, 0, 8, 0, 0, 0, 1, 1, 0x61, 0]⟩, 0, 12⟩ : Delivery)
      ∈ deliveries 1 0 .new [[0, 0, 3, 0, 8, 0, 0, 0, 1, 1, 0x61, 0]] := by
    decide
  exact ⟨h_d, (goodFrame_sound_iff 1 _ h_d rfl (by decide)).mpr (by decide)⟩

/-- A DATA frame whose only octet announces one octet of padding is a good frame, and the size
of its data wraps. -/
theorem padding_wraps :
  (⟨.goodFrame, ⟨[0, 0, 1, 0, 8, 0, 0, 0, 1, 1]⟩, 0, 10⟩ : Delivery)
      ∈ deliveries 1 0 .new [[0, 0, 1, 0, 8, 0, 0, 0, 1, 1]]
    ∧ Frame.dataSize ⟨[0, 0, 1, 0, 8, 0, 0, 0, 1, 1]⟩ = 2 ^ 32 - 1
    ∧ ¬Frame.Sound ⟨[0, 0, 1, 0, 8, 0, 0, 0, 1, 1]⟩
  := by
  refine ⟨by decide, by decide, fun h => ?_⟩
  exact absurd h.data_nonneg (by decide)

end Http2
