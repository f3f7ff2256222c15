import BobUI.Network.Http2.Frames

/-!
# The segmentation of a stream of octets into frames

The reader delivers the same frames and errors however the octets of a stream arrive.
After an error of the size of a frame that does not end the connection, it goes on behind
the payload of the frame if the frame is a DATA frame.  The other frames with such errors
fail with their header; their payload is not skipped, and their header is delivered once
more, as a frame.
-/

namespace Http2

/-- A result of the reader other than `incompleteFrame`: the frame, the position in the
stream at which it starts, and the position at which the next frame starts. -/
structure Delivery where
  status : FrameStatus
  frame : Frame
  start : ℕ
  next : ℕ
deriving DecidableEq, Repr

/-- After an error that leaves the connection open, the next frame starts behind the
payload of the frame. -/
def Delivery.Resynchronised (d : Delivery) : Prop :=
  d.status = .sizeError → endsConnection d.status d.frame = false →
    d.next = d.start + frameHeaderSize + d.frame.payloadSize

instance (d : Delivery) : Decidable d.Resynchronised :=
  inferInstanceAs (Decidable (_ → _ → _))

/-- The delivery of the frame that starts at `start`, when the reader goes from `r` to `r'`
and leaves `left'` of `left` octets. -/
def delivery (start : ℕ) (r : FrameReader) (left : ℕ) (status : FrameStatus) (r' : FrameReader)
    (left' : ℕ) : Delivery :=
  ⟨status, r'.frame, start, start + (r.offset + left) - (r'.offset + left')⟩

/-- What `n` calls of `read` deliver while the connection is not ended. -/
def deliveries : ℕ → ℕ → FrameReader → Socket → List Delivery
  | 0, _, _, _ => []
  | n + 1, start, r, socket =>
    match r.read socket with
    | (.incompleteFrame, r', socket') => deliveries n start r' socket'
    | (status, r', socket') =>
      let d := delivery start r socket.flatten.length status r' socket'.flatten.length
      d :: if endsConnection status d.frame then []
        else deliveries n d.next (r'.handOver status) socket'

/-! ### The whole stream at hand -/

namespace FrameReader

/-- The result of `readRest` when all octets to come are at hand, `none` for an
incomplete frame. -/
def nextRest (r : FrameReader) (stream : Octets) : Option (FrameStatus × FrameReader × Octets) :=
  if r.offset + stream.length < r.frame.buffer.length then none
  else
    let missing := r.frame.buffer.length - r.offset
    let frame : Frame := ⟨fill r.frame.buffer r.offset (stream.take missing)⟩
    some (frame.validatePayload, ⟨0, frame⟩, stream.drop missing)

/-- The header, once all its octets are at hand. -/
def headerOf (r : FrameReader) (stream : Octets) : Frame :=
  ⟨fill r.headerBuffer r.offset (stream.take (frameHeaderSize - r.offset))⟩

/-- The reader behind a good header, with room for the payload. -/
def payloadReader (header : Frame) : FrameReader :=
  ⟨frameHeaderSize, ⟨resize header.buffer (header.payloadSize + frameHeaderSize)⟩⟩

/-- The result of `read` when all octets to come are at hand. -/
def next (r : FrameReader) (stream : Octets) : Option (FrameStatus × FrameReader × Octets) :=
  if r.offset < frameHeaderSize then
    if r.offset + stream.length < frameHeaderSize then none
    else
      let header := r.headerOf stream
      let stream := stream.drop (frameHeaderSize - r.offset)
      if header.validateHeader ≠ .goodFrame then
        some (header.validateHeader, ⟨frameHeaderSize, header⟩, stream)
      else
        (payloadReader header).nextRest stream
  else r.nextRest stream

theorem next_of_header {r : FrameReader} {stream : Octets} (hoffset : r.offset < frameHeaderSize)
    (hstream : frameHeaderSize ≤ r.offset + stream.length) :
  r.next stream =
    if (r.headerOf stream).validateHeader ≠ .goodFrame then
      some ((r.headerOf stream).validateHeader, ⟨frameHeaderSize, r.headerOf stream⟩,
        stream.drop (frameHeaderSize - r.offset))
    else (payloadReader (r.headerOf stream)).nextRest (stream.drop (frameHeaderSize - r.offset))
  := by
  rw [next, if_pos hoffset, if_neg (by omega)]

/-- What holds between two calls: once the header is complete, the octets read so far are
in the buffer. -/
def Valid (r : FrameReader) : Prop :=
  frameHeaderSize ≤ r.offset → r.offset ≤ r.frame.buffer.length

/-! ### Filling a buffer -/

theorem length_fill (buffer : Octets) (offset : ℕ) (chunk : Octets)
    (h : offset + chunk.length ≤ buffer.length) :
  (fill buffer offset chunk).length = buffer.length
  := by
  simp only [fill, List.length_append, List.length_take, List.length_drop]
  omega

/-- Filling twice is filling with both chunks. -/
theorem fill_fill {buffer : Octets} {offset : ℕ} {chunk : Octets} (chunk' : Octets)
    (h : offset + chunk.length ≤ buffer.length) :
  fill (fill buffer offset chunk) (offset + chunk.length) chunk' =
    fill buffer offset (chunk ++ chunk')
  := by
  have htake : (buffer.take offset ++ chunk).length = offset + chunk.length := by
    rw [List.length_append, List.length_take]
    omega
  rw [fill, fill, fill, List.take_left' htake, ← List.drop_drop, List.drop_left' htake,
    List.drop_drop, List.length_append, Nat.add_assoc, List.append_assoc (buffer.take offset)]

@[simp]
theorem fill_nil (buffer : Octets) (offset : ℕ) :
  fill buffer offset [] = buffer
  := by
  simp [fill]

theorem length_resize (buffer : Octets) (size : ℕ) :
  (resize buffer size).length = size
  := by
  simp only [resize, List.length_append, List.length_take, List.length_replicate]
  omega

end FrameReader

/-- One read takes a prefix of the octets to come, and less than asked for only when it
takes the segment at hand. -/
theorem Socket.read_spec (n : ℕ) (socket : Socket) :
  (socket.read n).1 ++ (socket.read n).2.flatten = socket.flatten ∧
    (socket.read n).1.length ≤ n ∧
    ((socket.read n).1.length < n → socket ≠ [] → (socket.read n).2.length < socket.length)
  := by
  cases socket with
  | nil => simp [Socket.read]
  | cons segment segments =>
    by_cases h : segment.length ≤ n
    · simp [Socket.read, h]
    · simp only [Socket.read, if_neg h, List.flatten_cons, ← List.append_assoc,
        List.take_append_drop, List.length_take, List.length_cons, true_and]
      exact ⟨by omega, by omega⟩

theorem Socket.length_read_le (n : ℕ) (socket : Socket) :
  (socket.read n).2.length ≤ socket.length
  := by
  cases socket with
  | nil => simp [Socket.read]
  | cons segment segments =>
    by_cases h : segment.length ≤ n
    · simp [Socket.read, h]
    · simp [Socket.read, h]

theorem Socket.take_flatten (n : ℕ) (socket : Socket) :
  socket.flatten.take (socket.read n).1.length = (socket.read n).1
  := by
  rw [← (socket.read_spec n).1]
  exact List.take_left' rfl

theorem Socket.drop_flatten (n : ℕ) (socket : Socket) :
  socket.flatten.drop (socket.read n).1.length = (socket.read n).2.flatten
  := by
  conv_lhs => rw [← (socket.read_spec n).1]
  exact List.drop_left' rfl

/-! ### One call of the reader -/

namespace FrameReader

theorem le_length_headerBuffer (r : FrameReader) :
  frameHeaderSize ≤ r.headerBuffer.length
  := by
  unfold headerBuffer
  split
  · rw [length_resize]
  · omega

/-- What a read of the socket leaves of a buffer to fill is filled as by the whole
stream. -/
theorem fill_read (buffer : Octets) (offset n m : ℕ) (socket : Socket)
    (h : offset + (socket.read n).1.length ≤ buffer.length)
    (hless : (socket.read n).1.length + m = n) :
  fill (fill buffer offset (socket.read n).1) (offset + (socket.read n).1.length)
      ((socket.read n).2.flatten.take m) =
    fill buffer offset (socket.flatten.take n)
  := by
  rw [fill_fill _ h]
  congr 1
  conv_rhs => rw [← (socket.read_spec n).1, List.take_append,
    List.take_of_length_le (socket.read_spec n).2.1]
  congr 2
  omega

theorem fill_read_complete (buffer : Octets) (offset n : ℕ) (socket : Socket)
    (hcomplete : (socket.read n).1.length = n) :
  fill buffer offset (socket.read n).1 = fill buffer offset (socket.flatten.take n) ∧
    (socket.read n).2.flatten = socket.flatten.drop n ∧ n ≤ socket.flatten.length
  := by
  have htake := socket.take_flatten n
  have hdrop := socket.drop_flatten n
  rw [hcomplete] at htake hdrop
  refine ⟨by rw [htake], hdrop.symm, ?_⟩
  rw [← (socket.read_spec n).1, List.length_append]
  omega

variable {r : FrameReader} {socket : Socket} {r' : FrameReader} {socket' : Socket}

/-- A header read in part: the rest of the stream completes it in the same way. -/
theorem headerOf_of_partial
    (h : r.offset + (socket.read (frameHeaderSize - r.offset)).1.length < frameHeaderSize) :
  headerOf ⟨r.offset + (socket.read (frameHeaderSize - r.offset)).1.length,
      ⟨fill r.headerBuffer r.offset (socket.read (frameHeaderSize - r.offset)).1⟩⟩
      (socket.read (frameHeaderSize - r.offset)).2.flatten =
    r.headerOf socket.flatten
  := by
  have hroom := r.le_length_headerBuffer
  have hlength := length_fill r.headerBuffer r.offset
    (socket.read (frameHeaderSize - r.offset)).1 (by omega)
  rw [headerOf, headerOf, headerBuffer, if_neg (by rw [hlength]; omega)]
  simp only [Frame.mk.injEq]
  apply fill_read <;> omega

/-- A call goes from `r` and `socket` to `r'` and `socket'` and leaves everything that is to
be delivered to later calls. -/
structure Suspends (r : FrameReader) (socket : Socket) (r' : FrameReader) (socket' : Socket) :
    Prop where
  valid : r'.Valid
  next_eq : r'.next socket'.flatten = r.next socket.flatten
  offset_add : r'.offset + socket'.flatten.length = r.offset + socket.flatten.length
  offset_le : r.offset ≤ r'.offset
  length_le : socket'.length ≤ socket.length
  length_lt : socket ≠ [] → socket'.length < socket.length
  next_nil : socket = [] → r.next [] = none

theorem suspends_of_readHeader (hoffset : r.offset < frameHeaderSize)
    (h : r.readHeader socket = (false, r', socket')) :
  Suspends r socket r' socket'
  := by
  have hroom := r.le_length_headerBuffer
  obtain ⟨happend, hle, hpop⟩ := socket.read_spec (frameHeaderSize - r.offset)
  simp only [readHeader, Prod.mk.injEq, decide_eq_false_iff_not] at h
  obtain ⟨hshort, rfl, rfl⟩ := h
  have hless : r.offset + (socket.read (frameHeaderSize - r.offset)).1.length < frameHeaderSize :=
    by omega
  have hflatten : (socket.read (frameHeaderSize - r.offset)).1.length +
      (socket.read (frameHeaderSize - r.offset)).2.flatten.length = socket.flatten.length := by
    rw [← happend, List.length_append]
  have hdrop : (socket.read (frameHeaderSize - r.offset)).2.flatten.drop
      (frameHeaderSize - (r.offset + (socket.read (frameHeaderSize - r.offset)).1.length)) =
      socket.flatten.drop (frameHeaderSize - r.offset) := by
    rw [← socket.drop_flatten, List.drop_drop]
    congr 1
    omega
  refine ⟨?_, ?_, ?_, ?_, socket.length_read_le _, ?_, ?_⟩
  · intro hheader
    simp only at hheader
    omega
  · rw [next, next, headerOf_of_partial hless]
    simp only [if_pos hless, if_pos hoffset, Nat.add_assoc, hflatten, ← hdrop]
  · simp only
    omega
  · simp only
    omega
  · apply hpop
    omega
  · intro _
    rw [next, if_pos hoffset, if_pos (by simpa using hoffset)]

theorem header_of_readHeader (hoffset : r.offset < frameHeaderSize)
    (h : r.readHeader socket = (true, r', socket')) :
  r' = ⟨frameHeaderSize, r.headerOf socket.flatten⟩ ∧
    socket'.flatten = socket.flatten.drop (frameHeaderSize - r.offset) ∧
    frameHeaderSize ≤ r.offset + socket.flatten.length ∧ socket'.length ≤ socket.length
  := by
  simp only [readHeader, Prod.mk.injEq, decide_eq_true_eq] at h
  obtain ⟨hcomplete, rfl, rfl⟩ := h
  obtain ⟨hfill, hdrop, hle⟩ :=
    fill_read_complete r.headerBuffer r.offset (frameHeaderSize - r.offset) socket (by omega)
  refine ⟨?_, hdrop, by omega, socket.length_read_le _⟩
  rw [hcomplete, hfill, headerOf]

/-- The payload read in part: the rest of the stream completes it in the same way. -/
theorem suspends_of_readPayload (hheader : frameHeaderSize ≤ r.offset)
    (hoffset : r.offset < r.frame.buffer.length)
    (h : r.readPayload socket = (false, r', socket')) :
  Suspends r socket r' socket'
  := by
  obtain ⟨happend, hle, hpop⟩ := socket.read_spec (r.frame.buffer.length - r.offset)
  simp only [readPayload, Prod.mk.injEq, decide_eq_false_iff_not] at h
  obtain ⟨hshort, rfl, rfl⟩ := h
  have hlength := length_fill r.frame.buffer r.offset
    (socket.read (r.frame.buffer.length - r.offset)).1 (by omega)
  have hflatten : (socket.read (r.frame.buffer.length - r.offset)).1.length +
      (socket.read (r.frame.buffer.length - r.offset)).2.flatten.length =
      socket.flatten.length := by
    rw [← happend, List.length_append]
  have hdrop : (socket.read (r.frame.buffer.length - r.offset)).2.flatten.drop
      (r.frame.buffer.length -
        (r.offset + (socket.read (r.frame.buffer.length - r.offset)).1.length)) =
      socket.flatten.drop (r.frame.buffer.length - r.offset) := by
    rw [← socket.drop_flatten, List.drop_drop]
    congr 1
    omega
  have hfill := fill_read r.frame.buffer r.offset (r.frame.buffer.length - r.offset)
    (r.frame.buffer.length - (r.offset + (socket.read (r.frame.buffer.length - r.offset)).1.length))
    socket (by omega) (by omega)
  refine ⟨?_, ?_, ?_, ?_, socket.length_read_le _, ?_, ?_⟩
  · intro _
    simp only [hlength]
    omega
  · rw [next, next, if_neg (by simp only; omega), if_neg (by omega)]
    simp only [nextRest, hlength, hfill, hdrop, Nat.add_assoc, hflatten]
  · simp only
    omega
  · simp only
    omega
  · apply hpop
    omega
  · intro _
    rw [next, if_neg (by omega), nextRest, if_pos (by simpa using hoffset)]

theorem nextRest_of_readPayload (h : r.readPayload socket = (true, r', socket')) :
  r.nextRest socket.flatten =
      some (r'.frame.validatePayload, { r' with offset := 0 }, socket'.flatten) ∧
    socket'.length ≤ socket.length
  := by
  simp only [readPayload, Prod.mk.injEq, decide_eq_true_eq] at h
  obtain ⟨hcomplete, rfl, rfl⟩ := h
  obtain ⟨hfill, hdrop, hle⟩ :=
    fill_read_complete r.frame.buffer r.offset (r.frame.buffer.length - r.offset) socket (by omega)
  refine ⟨?_, socket.length_read_le _⟩
  rw [nextRest, if_neg (by omega)]
  simp only [hfill, hdrop]

/-- What a call of the second phase returns, against the whole stream. -/
theorem readRest_spec {status : FrameStatus} (hheader : frameHeaderSize ≤ r.offset)
    (hoffset : r.offset ≤ r.frame.buffer.length) (h : r.readRest socket = (status, r', socket')) :
  (status = .incompleteFrame ∧ Suspends r socket r' socket') ∨
    (r.nextRest socket.flatten = some (status, r', socket'.flatten) ∧
      socket'.length ≤ socket.length)
  := by
  unfold readRest at h
  split at h
  next hmissing =>
    split at h
    next r₁ socket₁ hread =>
      simp only [Prod.mk.injEq] at h
      obtain ⟨rfl, rfl, rfl⟩ := h
      left
      exact ⟨rfl, suspends_of_readPayload hheader hmissing hread⟩
    next r₁ socket₁ hread =>
      simp only [Prod.mk.injEq] at h
      obtain ⟨rfl, rfl, rfl⟩ := h
      right
      exact nextRest_of_readPayload hread
  next hcomplete =>
    simp only [Prod.mk.injEq] at h
    obtain ⟨rfl, rfl, rfl⟩ := h
    right
    have hnone : r.frame.buffer.length - r.offset = 0 := by omega
    rw [nextRest, if_neg (by omega)]
    simp [hnone]

theorem length_payloadReader (header : Frame) :
  (payloadReader header).frame.buffer.length = header.payloadSize + frameHeaderSize
  := length_resize _ _

end FrameReader

variable {r : FrameReader} {stream : Octets} {start : ℕ} {f g : Frame} {r' : FrameReader}
  {socket : Socket} {stream' : Octets} {status : FrameStatus}

theorem Frame.payloadSize_le_of_validateHeader (h : f.validateHeader = .goodFrame) :
  f.payloadSize ≤ maxPayloadSize
  := by
  by_contra hlarge
  rw [Frame.validateHeader, if_pos (by omega)] at h
  cases h

theorem Frame.validateHeader_ne_incompleteFrame (f : Frame) :
  f.validateHeader ≠ .incompleteFrame
  := by
  unfold Frame.validateHeader
  dsimp only
  repeat' split
  all_goals simp

theorem Frame.validatePayload_ne_incompleteFrame (f : Frame) :
  f.validatePayload ≠ .incompleteFrame
  := by
  unfold Frame.validatePayload
  repeat' split
  all_goals simp

namespace FrameReader

theorem payloadReader_valid (header : Frame) :
  (payloadReader header).Valid
  := by
  intro _
  rw [length_payloadReader]
  exact Nat.le_add_left _ _

theorem next_payloadReader (header : Frame) (stream : Octets) :
  (payloadReader header).next stream = (payloadReader header).nextRest stream
  := by
  rw [next, if_neg (by simp [payloadReader])]

variable {r r' : FrameReader} {status : FrameStatus} {stream stream' : Octets}

/-- A header followed by a part of its payload. -/
theorem Suspends.of_payload {socket socket₁ socket' : Socket} {header : Frame}
    (h : Suspends (payloadReader header) socket₁ r' socket') (hoffset : r.offset < frameHeaderSize)
    (hnext : r.next socket.flatten = (payloadReader header).nextRest socket₁.flatten)
    (hadd : frameHeaderSize + socket₁.flatten.length = r.offset + socket.flatten.length)
    (hlength : socket₁.length ≤ socket.length) :
  Suspends r socket r' socket'
  := by
  constructor
  · exact h.valid
  · rw [h.next_eq, hnext, next_payloadReader]
  · rw [h.offset_add, ← hadd, payloadReader]
  · exact hoffset.le.trans h.offset_le
  · exact h.length_le.trans hlength
  · intro hsocket
    have hpos : 0 < socket.length := List.length_pos_iff.mpr hsocket
    by_cases hempty : socket₁ = []
    · have hle := h.length_le
      rw [hempty, List.length_nil] at hle
      omega
    · exact (h.length_lt hempty).trans_le hlength
  · rintro rfl
    simp only [List.flatten_nil, List.length_nil] at hadd
    omega

/-- What a call returns, against the whole stream: it delivers what the whole stream
delivers, or it delivers nothing and leaves that to a later call. -/
theorem read_spec {socket socket' : Socket} (hvalid : r.Valid)
    (h : r.read socket = (status, r', socket')) :
  (status = .incompleteFrame ∧ Suspends r socket r' socket') ∨
    (r.next socket.flatten = some (status, r', socket'.flatten) ∧ socket'.length ≤ socket.length)
  := by
  by_cases hoffset : r.offset < frameHeaderSize
  · rcases hread : r.readHeader socket with ⟨complete, r₁, socket₁⟩
    rw [read, if_pos hoffset, hread] at h
    cases complete with
    | false =>
      simp only [Prod.mk.injEq] at h
      obtain ⟨rfl, rfl, rfl⟩ := h
      left
      exact ⟨rfl, suspends_of_readHeader hoffset hread⟩
    | true =>
      obtain ⟨rfl, hflatten, hle, hlength⟩ := header_of_readHeader hoffset hread
      have hadd : socket₁.flatten.length = socket.flatten.length - (frameHeaderSize - r.offset)
        := by rw [hflatten, List.length_drop]
      have hnext := next_of_header hoffset hle
      rw [← hflatten] at hnext
      dsimp only at h
      by_cases hgood : (r.headerOf socket.flatten).validateHeader = .goodFrame
      · rw [if_neg (by simp [hgood]),
          if_neg (not_lt.mpr (Frame.payloadSize_le_of_validateHeader hgood))] at h
        rw [if_neg (by simp [hgood])] at hnext
        obtain ⟨hstatus, hsuspends⟩ | ⟨hrest, hrest_length⟩ :=
          readRest_spec (r := payloadReader (r.headerOf socket.flatten)) (le_refl _)
            (payloadReader_valid _ (le_refl _)) h
        · left
          refine ⟨hstatus, hsuspends.of_payload hoffset hnext ?_ hlength⟩
          omega
        · right
          exact ⟨by rw [hnext, hrest], hrest_length.trans hlength⟩
      · rw [if_pos hgood] at h hnext
        simp only [Prod.mk.injEq] at h
        obtain ⟨rfl, rfl, rfl⟩ := h
        right
        exact ⟨hnext, hlength⟩
  · rw [read, if_neg hoffset] at h
    rw [next, if_neg hoffset]
    exact readRest_spec (by omega) (hvalid (by omega)) h

theorem nextRest_cases (h : r.nextRest stream = some (status, r', stream')) :
  r'.offset = 0 ∧ status = r'.frame.validatePayload ∧ stream'.length ≤ stream.length
  := by
  unfold nextRest at h
  split at h
  · cases h
  · simp only [Option.some.injEq, Prod.mk.injEq] at h
    obtain ⟨rfl, rfl, rfl⟩ := h
    refine ⟨rfl, rfl, ?_⟩
    rw [List.length_drop]
    omega

/-- A delivery is a header with an error, which is kept, or a complete frame. -/
theorem next_cases (h : r.next stream = some (status, r', stream')) :
  (r.offset < frameHeaderSize ∧ frameHeaderSize ≤ r.offset + stream.length ∧
      status = r'.frame.validateHeader ∧ status ≠ .goodFrame ∧
      r' = ⟨frameHeaderSize, r.headerOf stream⟩ ∧
      stream' = stream.drop (frameHeaderSize - r.offset)) ∨
    (r'.offset = 0 ∧ status = r'.frame.validatePayload ∧
      stream'.length + (frameHeaderSize - r.offset) ≤ stream.length)
  := by
  by_cases hoffset : r.offset < frameHeaderSize
  · by_cases hstream : r.offset + stream.length < frameHeaderSize
    · rw [next, if_pos hoffset, if_pos hstream] at h
      cases h
    · rw [next_of_header hoffset (by omega)] at h
      split at h
      next hbad =>
        simp only [Option.some.injEq, Prod.mk.injEq] at h
        obtain ⟨rfl, rfl, rfl⟩ := h
        left
        exact ⟨hoffset, by omega, rfl, hbad, rfl, rfl⟩
      next =>
        obtain ⟨hzero, hstatus, hle⟩ := nextRest_cases h
        rw [List.length_drop] at hle
        right
        exact ⟨hzero, hstatus, by omega⟩
  · rw [next, if_neg hoffset] at h
    obtain ⟨hzero, hstatus, hle⟩ := nextRest_cases h
    right
    exact ⟨hzero, hstatus, by omega⟩

theorem next_ne_incompleteFrame (h : r.next stream = some (status, r', stream')) :
  status ≠ .incompleteFrame
  := by
  obtain ⟨_, _, rfl, _⟩ | ⟨_, rfl, _⟩ := next_cases h
  · exact Frame.validateHeader_ne_incompleteFrame _
  · exact Frame.validatePayload_ne_incompleteFrame _

/-- A delivery takes octets of the stream, or it gives up octets read before. -/
theorem next_decreases (h : r.next stream = some (status, r', stream')) :
  2 * stream'.length + r'.offset < 2 * stream.length + r.offset
  := by
  obtain ⟨hoffset, hstream, _, _, rfl, rfl⟩ | ⟨hzero, _, hle⟩ := next_cases h
  · rw [List.length_drop]
    simp only
    omega
  · simp only [frameHeaderSize] at hle
    omega

@[simp]
theorem handOver_offset (r : FrameReader) (status : FrameStatus) :
  (r.handOver status).offset = r.offset
  := by
  unfold handOver
  split
  · rfl
  · rfl

/-- The reader is ready for the next call after a delivery. -/
theorem next_valid (h : r.next stream = some (status, r', stream')) :
  (r'.handOver status).Valid
  := by
  obtain ⟨_, hstream, _, hbad, rfl, _⟩ | ⟨hzero, _⟩ := next_cases h
  · intro _
    have hroom := r.le_length_headerBuffer
    rw [handOver, if_neg hbad, headerOf, length_fill]
    · exact hroom
    · rw [List.length_take]
      omega
  · intro hheader
    rw [handOver_offset, hzero] at hheader
    cases hheader

end FrameReader

/-! ### Independence of the delivery -/

/-- The deliveries when the whole stream is at hand. -/
def whole (start : ℕ) (r : FrameReader) (stream : Octets) : List Delivery :=
  match h : r.next stream with
  | none => []
  | some (status, r', stream') =>
    let d := delivery start r stream.length status r' stream'.length
    d :: if endsConnection status d.frame then []
      else whole d.next (r'.handOver status) stream'
termination_by 2 * stream.length + r.offset
decreasing_by
  rw [FrameReader.handOver_offset]
  exact FrameReader.next_decreases h

theorem whole_of_next_none (h : r.next stream = none) :
  whole start r stream = []
  := by
  rw [whole]
  split
  next => rfl
  next hsome =>
    rw [h] at hsome
    cases hsome

theorem whole_of_next_some (h : r.next stream = some (status, r', stream')) :
  whole start r stream =
    delivery start r stream.length status r' stream'.length ::
      if endsConnection status r'.frame then []
      else whole (delivery start r stream.length status r' stream'.length).next
        (r'.handOver status) stream'
  := by
  conv_lhs => rw [whole]
  split
  next hnone =>
    rw [h] at hnone
    cases hnone
  next hsome =>
    rw [h] at hsome
    cases hsome
    rfl

theorem whole_congr (hnext : r'.next stream' = r.next stream)
    (hadd : r'.offset + stream'.length = r.offset + stream.length) :
  whole start r' stream' = whole start r stream
  := by
  cases h : r.next stream with
  | none => rw [whole_of_next_none h, whole_of_next_none (hnext.trans h)]
  | some result =>
    obtain ⟨status, r₁, stream₁⟩ := result
    rw [whole_of_next_some h, whole_of_next_some (hnext.trans h)]
    simp only [delivery, hadd]

theorem deliveries_of_incomplete {n : ℕ} {socket' : Socket}
    (h : r.read socket = (.incompleteFrame, r', socket')) :
  deliveries (n + 1) start r socket = deliveries n start r' socket'
  := by
  rw [deliveries, h]

theorem deliveries_of_complete {n : ℕ} {socket' : Socket}
    (h : r.read socket = (status, r', socket')) (hstatus : status ≠ .incompleteFrame) :
  deliveries (n + 1) start r socket =
    delivery start r socket.flatten.length status r' socket'.flatten.length ::
      if endsConnection status r'.frame then []
      else deliveries n
        (delivery start r socket.flatten.length status r' socket'.flatten.length).next
        (r'.handOver status) socket'
  := by
  rw [deliveries, h]
  cases status with
  | incompleteFrame => exact absurd rfl hstatus
  | _ => rfl

/-- However the stream arrives, what is delivered is a part of what the whole stream
delivers. -/
theorem deliveries_extend (n : ℕ) (hvalid : r.Valid) :
  deliveries n start r socket <+: whole start r socket.flatten
  := by
  induction n generalizing start r socket with
  | zero => exact List.nil_prefix
  | succ n ih =>
    rcases h : r.read socket with ⟨status, r', socket'⟩
    obtain ⟨rfl, hsuspends⟩ | ⟨hnext, hlength⟩ := FrameReader.read_spec hvalid h
    · rw [deliveries_of_incomplete h,
        ← whole_congr hsuspends.next_eq hsuspends.offset_add]
      exact ih hsuspends.valid
    · rw [deliveries_of_complete h (FrameReader.next_ne_incompleteFrame hnext),
        whole_of_next_some hnext, List.cons_prefix_cons]
      refine ⟨rfl, ?_⟩
      split
      · exact List.nil_prefix
      · exact ih (FrameReader.next_valid hnext)

/-- However the stream arrives, enough calls deliver what the whole stream delivers. -/
theorem deliveries_eventually (hvalid : r.Valid) :
  ∃ N, ∀ n, N ≤ n → deliveries n start r socket = whole start r socket.flatten
  := by
  induction hmeasure : 2 * socket.flatten.length + r.offset + socket.length
    using Nat.strong_induction_on generalizing start r socket with
  | _ measure ih =>
    subst hmeasure
    rcases h : r.read socket with ⟨status, r', socket'⟩
    obtain ⟨rfl, hsuspends⟩ | ⟨hnext, hlength⟩ := FrameReader.read_spec hvalid h
    · by_cases hsocket : socket = []
      · use 0
        intro n _
        have hnone := hsuspends.next_nil hsocket
        have hprefix : deliveries n start r socket <+: whole start r socket.flatten :=
          deliveries_extend n hvalid
        subst hsocket
        rw [List.flatten_nil, whole_of_next_none hnone] at hprefix ⊢
        exact List.prefix_nil.mp hprefix
      · have hadd := hsuspends.offset_add
        have hle := hsuspends.offset_le
        have hlt := hsuspends.length_lt hsocket
        have hrest : ∃ N, ∀ n, N ≤ n →
            deliveries n start r' socket' = whole start r' socket'.flatten :=
          ih _ (by omega) hsuspends.valid rfl
        obtain ⟨N, hN⟩ := hrest
        use N + 1
        rintro (_ | n) hn
        · omega
        · rw [deliveries_of_incomplete h, hN n (by omega),
            whole_congr hsuspends.next_eq hsuspends.offset_add]
    · have hstatus := FrameReader.next_ne_incompleteFrame hnext
      have hlt := FrameReader.next_decreases hnext
      rw [← r'.handOver_offset status] at hlt
      set d := delivery start r socket.flatten.length status r' socket'.flatten.length with hd
      have hrest : ∃ N, ∀ n, N ≤ n → deliveries n d.next (r'.handOver status) socket' =
          whole d.next (r'.handOver status) socket'.flatten :=
        ih _ (by omega) (FrameReader.next_valid hnext) rfl
      obtain ⟨N, hN⟩ := hrest
      use N + 1
      rintro (_ | n) hn
      · omega
      · rw [deliveries_of_complete h hstatus, whole_of_next_some hnext, ← hd,
          hN n (by omega)]

theorem FrameReader.new_valid :
  FrameReader.new.Valid
  := by
  intro h
  cases h

/-! ### The frame after an error -/

/-- The frame at the head of a stream, as long as its header says. -/
def headFrame (stream : Octets) : Frame :=
  ⟨stream.take (frameHeaderSize + Frame.payloadSize ⟨stream⟩)⟩

/-- Whether the boundary behind the head of a stream is kept, `none` when the stream goes
on behind a complete frame. -/
def headKept (stream : Octets) : Option Bool :=
  if stream.length < frameHeaderSize then some true
  else if (headFrame stream).validateHeader ≠ .goodFrame then
    some (sizeErrorEndsConnection (headFrame stream))
  else if stream.length < frameHeaderSize + Frame.payloadSize ⟨stream⟩ then some true
  else if endsConnection (headFrame stream).validatePayload (headFrame stream) then some true
  else none

theorem length_drop_lt (h : headKept stream = none) (size : ℕ) :
  (stream.drop (frameHeaderSize + size)).length < stream.length
  := by
  have hstream : ¬stream.length < frameHeaderSize := by
    intro hshort
    rw [headKept, if_pos hshort] at h
    cases h
  rw [List.length_drop]
  simp only [frameHeaderSize] at hstream ⊢
  omega

/-- Whether no frame of the stream, taken frame by frame up to the first error that ends
the connection, fails with its header and leaves the connection open. -/
def keepsBoundaries (stream : Octets) : Bool :=
  match h : headKept stream with
  | some kept => kept
  | none => keepsBoundaries (stream.drop (frameHeaderSize + Frame.payloadSize ⟨stream⟩))
termination_by stream.length
decreasing_by
  exact length_drop_lt h _

/-- Two frames whose first nine octets agree. -/
def Frame.SameHeader (f g : Frame) : Prop :=
  f.buffer.take frameHeaderSize = g.buffer.take frameHeaderSize

theorem Frame.SameHeader.getElem (h : f.SameHeader g) {i : ℕ} (hi : i < frameHeaderSize) :
  f.buffer[i]! = g.buffer[i]!
  := by
  have hget : (f.buffer.take frameHeaderSize)[i]? = (g.buffer.take frameHeaderSize)[i]? := by
    rw [h]
  rw [List.getElem?_take_of_lt hi, List.getElem?_take_of_lt hi] at hget
  rw [List.getElem!_eq_getElem?_getD, List.getElem!_eq_getElem?_getD, hget]

theorem Frame.SameHeader.payloadSize (h : f.SameHeader g) :
  f.payloadSize = g.payloadSize
  := by
  simp only [Frame.payloadSize]
  rw [h.getElem (by decide), h.getElem (by decide), h.getElem (by decide)]

theorem Frame.SameHeader.type (h : f.SameHeader g) :
  f.type = g.type
  := by
  simp only [Frame.type]
  rw [h.getElem (by decide)]

theorem Frame.SameHeader.streamID (h : f.SameHeader g) :
  f.streamID = g.streamID
  := by
  simp only [Frame.streamID, fromBigEndian]
  rw [h.getElem (by decide), h.getElem (by decide), h.getElem (by decide), h.getElem (by decide)]

theorem Frame.SameHeader.validateHeader (h : f.SameHeader g) :
  f.validateHeader = g.validateHeader
  := by
  have hflags : f.flags = g.flags := by
    simp only [Frame.flags]
    rw [h.getElem (by decide)]
  simp only [Frame.validateHeader, h.payloadSize, h.type, hflags]

theorem Frame.SameHeader.sizeErrorEndsConnection (h : f.SameHeader g) :
  sizeErrorEndsConnection f = sizeErrorEndsConnection g
  := by
  simp only [Http2.sizeErrorEndsConnection, h.type, h.streamID]

theorem sameHeader_headFrame (stream : Octets) :
  (headFrame stream).SameHeader ⟨stream⟩
  := by
  simp only [Frame.SameHeader, headFrame, List.take_take]
  congr 1
  omega

theorem sameHeader_headerOf (hoffset : r.offset = 0) (hstream : frameHeaderSize ≤ stream.length) :
  (r.headerOf stream).SameHeader ⟨stream⟩
  := by
  simp only [Frame.SameHeader, FrameReader.headerOf, hoffset, FrameReader.fill]
  rw [List.take_zero, List.nil_append, Nat.sub_zero, List.take_left']
  rw [List.length_take]
  omega

theorem take_resize {buffer : Octets} {n size : ℕ} (hn : n ≤ size) (h : n ≤ buffer.length) :
  (FrameReader.resize buffer size).take n = buffer.take n
  := by
  rw [FrameReader.resize, List.take_append_of_le_length, List.take_take, Nat.min_eq_left hn]
  rw [List.length_take]
  omega

/-- The payload behind a header completes the frame at the head of the stream. -/
theorem nextRest_payloadReader {header : Frame} (hheader : header.SameHeader ⟨stream⟩)
    (hstream : frameHeaderSize ≤ stream.length)
    (hlength : frameHeaderSize ≤ header.buffer.length) :
  (FrameReader.payloadReader header).nextRest (stream.drop frameHeaderSize) =
    if stream.length < frameHeaderSize + Frame.payloadSize ⟨stream⟩ then none
    else some ((headFrame stream).validatePayload, ⟨0, headFrame stream⟩,
      stream.drop (frameHeaderSize + Frame.payloadSize ⟨stream⟩))
  := by
  have hbuffer := FrameReader.length_payloadReader header
  rw [hheader.payloadSize] at hbuffer
  have hmissing : (FrameReader.payloadReader header).frame.buffer.length - frameHeaderSize =
      Frame.payloadSize ⟨stream⟩ := by omega
  have hiff : (FrameReader.payloadReader header).offset + (stream.drop frameHeaderSize).length <
      (FrameReader.payloadReader header).frame.buffer.length ↔
      stream.length < frameHeaderSize + Frame.payloadSize ⟨stream⟩ := by
    rw [hbuffer, List.length_drop, FrameReader.payloadReader]
    simp only
    omega
  by_cases hshort : stream.length < frameHeaderSize + Frame.payloadSize ⟨stream⟩
  · rw [if_pos hshort, FrameReader.nextRest, if_pos (hiff.mpr hshort)]
  · have hfill : FrameReader.fill (FrameReader.payloadReader header).frame.buffer frameHeaderSize
        ((stream.drop frameHeaderSize).take (Frame.payloadSize ⟨stream⟩)) =
        (headFrame stream).buffer := by
      have hrest : (FrameReader.payloadReader header).frame.buffer.drop (frameHeaderSize +
          ((stream.drop frameHeaderSize).take (Frame.payloadSize ⟨stream⟩)).length) = [] := by
        apply List.drop_of_length_le
        rw [hbuffer, List.length_take, List.length_drop]
        omega
      rw [FrameReader.fill, hrest, List.append_nil, headFrame, List.take_add]
      congr 1
      rw [FrameReader.payloadReader, take_resize (by omega) hlength]
      exact hheader
    rw [if_neg hshort, FrameReader.nextRest, if_neg (fun h => hshort (hiff.mp h))]
    simp only [FrameReader.payloadReader] at hmissing hfill ⊢
    rw [hmissing, hfill, List.drop_drop]

/-- What is delivered at the start of a frame. -/
theorem next_of_boundary (stream : Octets) (hoffset : r.offset = 0) :
  r.next stream =
    if stream.length < frameHeaderSize then none
    else if (headFrame stream).validateHeader ≠ .goodFrame then
      some ((headFrame stream).validateHeader, ⟨frameHeaderSize, r.headerOf stream⟩,
        stream.drop frameHeaderSize)
    else if stream.length < frameHeaderSize + Frame.payloadSize ⟨stream⟩ then none
    else some ((headFrame stream).validatePayload, ⟨0, headFrame stream⟩,
      stream.drop (frameHeaderSize + Frame.payloadSize ⟨stream⟩))
  := by
  by_cases hstream : stream.length < frameHeaderSize
  · rw [if_pos hstream, FrameReader.next, if_pos (by rw [hoffset]; decide),
      if_pos (by rw [hoffset]; omega)]
  · have hsame := sameHeader_headerOf hoffset (not_lt.mp hstream)
    have hhead := sameHeader_headFrame stream
    rw [if_neg hstream, FrameReader.next_of_header (by rw [hoffset]; decide) (by omega),
      hsame.validateHeader, hhead.validateHeader, hoffset, Nat.sub_zero]
    congr 1
    apply nextRest_payloadReader hsame (not_lt.mp hstream)
    rw [FrameReader.headerOf, FrameReader.length_fill]
    · exact r.le_length_headerBuffer
    · have hroom := r.le_length_headerBuffer
      rw [List.length_take]
      omega

@[simp]
theorem endsConnection_sizeError (f : Frame) :
  endsConnection .sizeError f = sizeErrorEndsConnection f
  := rfl

theorem Frame.validateHeader_eq_sizeError (hbad : f.validateHeader ≠ .goodFrame) :
  f.validateHeader = .sizeError
  := by
  unfold Frame.validateHeader at hbad ⊢
  dsimp only at hbad ⊢
  repeat' split
  all_goals simp_all

/-- Behind a complete frame the reader is at the next frame. -/
theorem delivery_resynchronised (start : ℕ) (status : FrameStatus) (hoffset : r.offset = 0)
    (hstream : frameHeaderSize + Frame.payloadSize ⟨stream⟩ ≤ stream.length) :
  (delivery start r stream.length status ⟨0, headFrame stream⟩
    (stream.drop (frameHeaderSize + Frame.payloadSize ⟨stream⟩)).length).Resynchronised
  := by
  intro _ _
  simp only [delivery, hoffset, List.length_drop, (sameHeader_headFrame stream).payloadSize]
  omega

/-- Behind a header with an error the reader is still at the same frame. -/
theorem header_resynchronised_iff (hoffset : r.offset = 0)
    (hstream : frameHeaderSize ≤ stream.length) :
  (delivery start r stream.length .sizeError ⟨frameHeaderSize, r.headerOf stream⟩
    (stream.drop frameHeaderSize).length).Resynchronised ↔
    sizeErrorEndsConnection (headFrame stream)
  := by
  have hheader := (sameHeader_headerOf hoffset hstream).sizeErrorEndsConnection
  rw [← (sameHeader_headFrame stream).sizeErrorEndsConnection] at hheader
  have hnext : start + (0 + stream.length) - (frameHeaderSize + (stream.length - frameHeaderSize))
      = start := by omega
  simp only [Delivery.Resynchronised, delivery, endsConnection_sizeError, hheader, hoffset,
    List.length_drop, hnext, forall_const]
  constructor
  · intro h
    by_contra hopen
    have hsame := h (by simpa using hopen)
    simp only [frameHeaderSize] at hsame
    omega
  · intro h hopen
    rw [h] at hopen
    cases hopen

theorem keepsBoundaries_of_some {kept : Bool} (h : headKept stream = some kept) :
  keepsBoundaries stream = kept
  := by
  rw [keepsBoundaries]
  split
  next hkept =>
    rw [h] at hkept
    exact (Option.some.inj hkept).symm
  next hnone =>
    rw [h] at hnone
    cases hnone

theorem keepsBoundaries_of_none (h : headKept stream = none) :
  keepsBoundaries stream =
    keepsBoundaries (stream.drop (frameHeaderSize + Frame.payloadSize ⟨stream⟩))
  := by
  conv_lhs => rw [keepsBoundaries]
  split
  next hkept =>
    rw [h] at hkept
    cases hkept
  next => rfl

theorem forall_mem_whole_iff (h : r.next stream = some (status, r', stream')) :
  (∀ d ∈ whole start r stream, d.Resynchronised) ↔
    (delivery start r stream.length status r' stream'.length).Resynchronised ∧
      (endsConnection status r'.frame = false →
        ∀ d ∈ whole (delivery start r stream.length status r' stream'.length).next
          (r'.handOver status) stream', d.Resynchronised)
  := by
  rw [whole_of_next_some h, List.forall_mem_cons]
  cases endsConnection status r'.frame <;> simp

/-- The deliveries of a stream resynchronise if and only if no frame of it fails with its
header and leaves the connection open. -/
theorem resynchronised_iff (stream : Octets) (hoffset : r.offset = 0) :
  (∀ d ∈ whole start r stream, d.Resynchronised) ↔ keepsBoundaries stream
  := by
  induction hlength : stream.length using Nat.strong_induction_on
    generalizing start r stream with
  | _ length ih =>
    subst hlength
    have hnext := next_of_boundary stream hoffset
    have hkept : headKept stream = headKept stream := rfl
    conv_rhs at hkept => rw [headKept]
    by_cases hshort : stream.length < frameHeaderSize
    · rw [if_pos hshort] at hnext hkept
      simp [whole_of_next_none hnext, keepsBoundaries_of_some hkept]
    rw [if_neg hshort] at hnext hkept
    by_cases hbad : (headFrame stream).validateHeader ≠ .goodFrame
    · rw [if_pos hbad] at hnext hkept
      rw [Frame.validateHeader_eq_sizeError hbad] at hnext
      rw [forall_mem_whole_iff hnext, keepsBoundaries_of_some hkept,
        header_resynchronised_iff hoffset (not_lt.mp hshort), endsConnection_sizeError,
        (sameHeader_headerOf hoffset (not_lt.mp hshort)).sizeErrorEndsConnection,
        ← (sameHeader_headFrame stream).sizeErrorEndsConnection]
      cases sizeErrorEndsConnection (headFrame stream) <;> simp
    rw [if_neg hbad] at hnext hkept
    by_cases hpart : stream.length < frameHeaderSize + Frame.payloadSize ⟨stream⟩
    · rw [if_pos hpart] at hnext hkept
      simp [whole_of_next_none hnext, keepsBoundaries_of_some hkept]
    rw [if_neg hpart] at hnext hkept
    rw [forall_mem_whole_iff hnext,
      and_iff_right (delivery_resynchronised start _ hoffset (not_lt.mp hpart))]
    by_cases hends : endsConnection (headFrame stream).validatePayload (headFrame stream)
    · rw [if_pos hends] at hkept
      rw [keepsBoundaries_of_some hkept]
      simp [hends]
    · rw [if_neg hends] at hkept
      rw [Bool.not_eq_true] at hends
      rw [keepsBoundaries_of_none hkept, forall_prop_of_true hends]
      exact ih _ (length_drop_lt hkept _) _ (FrameReader.handOver_offset _ _) rfl

/-- What is asked of the frames of a stream: however it arrives, the deliveries are the
same, and after every error that leaves the connection open the next frame starts behind the
payload of the frame in error. -/
def Segmented (stream : Octets) : Prop :=
  (∀ socket socket' : Socket, socket.flatten = stream → socket'.flatten = stream →
    ∃ N, ∀ n, N ≤ n → deliveries n 0 .new socket = deliveries n 0 .new socket') ∧
  ∀ socket : Socket, socket.flatten = stream → ∀ n, ∀ d ∈ deliveries n 0 .new socket,
    d.Resynchronised

/-- The segmentation does not depend on how the stream arrives, and it survives the errors
that leave the connection open if and only if none of them is found in a header. -/
theorem segmented_iff (stream : Octets) :
  Segmented stream ↔ keepsBoundaries stream
  := by
  have h_whole : ∀ socket : Socket, socket.flatten = stream →
      ∃ N, ∀ n, N ≤ n → deliveries n 0 .new socket = whole 0 .new stream := by
    rintro socket rfl
    exact deliveries_eventually FrameReader.new_valid
  have h_iff : (∀ d ∈ whole 0 .new stream, d.Resynchronised) ↔ keepsBoundaries stream :=
    resynchronised_iff stream rfl
  rw [← h_iff]
  constructor
  · intro ⟨_, h⟩ d h_d
    obtain ⟨N, h_N⟩ := h_whole [stream] (List.append_nil stream)
    rw [← h_N N le_rfl] at h_d
    exact h [stream] (List.append_nil stream) N d h_d
  · intro h
    constructor
    · intro socket socket' h_socket h_socket'
      obtain ⟨N, h_N⟩ := h_whole socket h_socket
      obtain ⟨N', h_N'⟩ := h_whole socket' h_socket'
      use max N N'
      intro n h_n
      rw [h_N n (le_of_max_le_left h_n), h_N' n (le_of_max_le_right h_n)]
    · rintro socket rfl n d h_d
      exact h d ((deliveries_extend n FrameReader.new_valid).subset h_d)

/-- A WINDOW_UPDATE frame of five octets on stream 1: the reader stays at its header. -/
theorem windowUpdate_not_segmented :
  ¬Segmented [0, 0, 5, 8, 0, 0, 0, 0, 1, 0, 0, 0, 0, 1]
  := by
  intro ⟨_, h⟩
  exact absurd (h [[0, 0, 5, 8, 0, 0, 0, 0, 1, 0, 0, 0, 0, 1]] rfl 1 _ (List.mem_cons_self ..))
    (by decide)

end Http2
