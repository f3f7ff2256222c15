import BobUI.Network.Http2.FrameBounds
import BobUI.Network.Http2.Run

/-!
# Flags that are not defined for a type of frames

What a flag that the protocol does not define for the type of a frame changes for the accessors of
the frame: nothing, unless it is the PADDED flag.
-/

namespace Http2

namespace Frame

/-- The frame with further flags. -/
def withFlags (f : Frame) (extra : UInt8) : Frame :=
  ⟨f.buffer.set 4 (f.buffer[4]! ||| extra)⟩

end Frame

/-- The flags that the protocol defines for a type of frames. -/
def FrameType.definedFlags : FrameType → ℕ
  | .data => FrameFlag.endStream ||| FrameFlag.padded
  | .headers =>
    FrameFlag.endStream ||| FrameFlag.endHeaders ||| FrameFlag.padded ||| FrameFlag.priority
  | .pushPromise => FrameFlag.endHeaders ||| FrameFlag.padded
  | .settings | .ping => FrameFlag.ack
  | .continuation => FrameFlag.endHeaders
  | .priority | .rstStream | .goaway | .windowUpdate | .lastFrameType => FrameFlag.empty

namespace Frame

/-- A frame of a type with neither data nor padding. -/
def isControl (f : Frame) : Bool :=
  match f.type with
  | .settings | .ping | .goaway | .rstStream | .windowUpdate | .priority | .continuation => true
  | .data | .headers | .pushPromise | .lastFrameType => false

/-- A frame of such a type with its whole payload, which the reader has validated, and with no
flags but those of its type. -/
structure ValidControl (f : Frame) : Prop where
  length : f.buffer.length = frameHeaderSize + f.payloadSize
  header : f.validateHeader = .goodFrame
  control : f.isControl = true
  flags : f.flags &&& f.type.definedFlags = f.flags

variable {f : Frame} {extra : UInt8}

theorem length_withFlags (f : Frame) (extra : UInt8) :
  (f.withFlags extra).buffer.length = f.buffer.length
  := List.length_set

theorem getElem_withFlags (f : Frame) (extra : UInt8) {i : ℕ} (h : i ≠ 4) :
  (f.withFlags extra).buffer[i]! = f.buffer[i]!
  := by
  rw [withFlags, getElem!_def, List.getElem?_set_ne h.symm, ← getElem!_def]

theorem flags_withFlags (h : f.ValidControl) (extra : UInt8) :
  (f.withFlags extra).flags = f.flags ||| extra.toNat
  := by
  have hlength : 4 < f.buffer.length := by
    rw [h.length, frameHeaderSize]
    omega
  have hset : (f.withFlags extra).buffer[4]! = f.buffer[4]! ||| extra := by
    conv_lhs => rw [withFlags, getElem!_def, List.getElem?_set_self hlength]
  rw [flags, hset, UInt8.toNat_or]
  rfl

theorem type_withFlags (f : Frame) (extra : UInt8) :
  (f.withFlags extra).type = f.type
  := by
  rw [type, getElem_withFlags f extra (by decide), type]

theorem payloadSize_withFlags (f : Frame) (extra : UInt8) :
  (f.withFlags extra).payloadSize = f.payloadSize
  := by
  rw [payloadSize, getElem_withFlags f extra (by decide), getElem_withFlags f extra (by decide),
    getElem_withFlags f extra (by decide), payloadSize]

theorem fromBigEndian_withFlags (f : Frame) (extra : UInt8) {pos : ℕ} (h : 4 < pos) :
  fromBigEndian (f.withFlags extra).buffer pos = fromBigEndian f.buffer pos
  := by
  rw [fromBigEndian, getElem_withFlags f extra (by omega), getElem_withFlags f extra (by omega),
    getElem_withFlags f extra (by omega), getElem_withFlags f extra (by omega), fromBigEndian]

theorem streamID_withFlags (f : Frame) (extra : UInt8) :
  (f.withFlags extra).streamID = f.streamID
  := by
  rw [streamID, fromBigEndian_withFlags f extra (by decide), streamID]

/-- A flag is not changed by others. -/
theorem testFlag_withFlags (h : f.ValidControl) {flag : ℕ} (hflag : flag ≠ 0)
    (hextra : extra.toNat &&& flag = 0) :
  testFlag (f.withFlags extra).flags flag = testFlag f.flags flag
  := by
  have hand : (f.flags ||| extra.toNat) &&& flag = f.flags &&& flag := by
    rw [Nat.and_or_distrib_right, hextra, Nat.or_zero]
  have hne : decide (flag ≠ 0) = true := decide_eq_true hflag
  rw [flags_withFlags h, testFlag, hand, testFlag, hne, Bool.true_or, Bool.true_or]

/-- No frame of these types has the PADDED flag. -/
theorem and_padded (h : f.ValidControl) :
  f.flags &&& FrameFlag.padded = 0
  := by
  have hdefined : f.type.definedFlags &&& FrameFlag.padded = 0 := by
    have hcontrol := h.control
    unfold isControl at hcontrol
    cases htype : f.type with
    | data | headers | pushPromise | lastFrameType =>
      rw [htype] at hcontrol
      cases hcontrol
    | _ => rfl
  rw [← h.flags, Nat.and_assoc, hdefined, Nat.and_zero]

theorem padded_withFlags (h : f.ValidControl) (extra : UInt8) :
  testFlag (f.withFlags extra).flags FrameFlag.padded = testFlag extra.toNat FrameFlag.padded
  := by
  have hand : (f.flags ||| extra.toNat) &&& FrameFlag.padded = extra.toNat &&& FrameFlag.padded := by
    rw [Nat.and_or_distrib_right, and_padded h, Nat.zero_or]
  rw [flags_withFlags h, testFlag, hand, testFlag]
  rfl

theorem withFlags_zero (f : Frame) :
  f.withFlags 0 = f
  := by
  rw [withFlags, UInt8.or_zero]
  congr 1
  apply List.ext_getElem?
  intro i
  by_cases hi : 4 = i
  · subst hi
    by_cases hlength : 4 < f.buffer.length
    · rw [List.getElem?_set_self hlength, getElem!_pos f.buffer 4 hlength,
        List.getElem?_eq_getElem hlength]
    · rw [List.set_eq_of_length_le (not_lt.mp hlength)]
  · rw [List.getElem?_set_ne hi]

/-- What the PADDED flag moves the data by. -/
def paddingShift (extra : UInt8) : ℕ :=
  if testFlag extra.toNat FrameFlag.padded then 1 else 0

/-- The types whose handlers read the data. -/
def readsData (f : Frame) : Bool :=
  f.isControl && f.type ≠ .priority

theorem priority_withFlags (h : f.readsData = true) (extra : UInt8) :
  (f.withFlags extra).priority = none
  := by
  rw [readsData, isControl, Bool.and_eq_true, decide_eq_true_eq] at h
  have hheaders : f.type ≠ .headers := by
    intro htype
    rw [htype] at h
    cases h.1
  rw [priority, length_withFlags, type_withFlags, decide_eq_false hheaders, decide_eq_false h.2]
  split
  · rfl
  · rfl

theorem dataBegin_withFlags (h : f.ValidControl) (hreads : f.readsData = true) (extra : UInt8) :
  (f.withFlags extra).dataBegin
    = if f.payloadSize = 0 then none else some (frameHeaderSize + paddingShift extra)
  := by
  rw [dataBegin, length_withFlags, priority_withFlags hreads, padded_withFlags h, h.length]
  by_cases hsize : f.payloadSize = 0
  · rw [if_pos hsize, if_pos (by omega)]
  · rw [if_neg hsize, if_neg (by omega)]
    rfl

theorem dataSize_withFlags (h : f.ValidControl) (hreads : f.readsData = true) (extra : UInt8) :
  (f.withFlags extra).dataSize = toUInt32 (f.payloadSize - paddingShift extra)
  := by
  have htype : (f.withFlags extra).padding = 0 := by
    rw [readsData, isControl, Bool.and_eq_true] at hreads
    rw [padding, type_withFlags]
    split
    · rfl
    · split
      next htype =>
        rw [htype] at hreads
        cases hreads.1
      next htype =>
        rw [htype] at hreads
        cases hreads.1
      next htype =>
        rw [htype] at hreads
        cases hreads.1
      next => rfl
  rw [dataSize, priority_withFlags hreads, padded_withFlags h, payloadSize_withFlags, htype,
    paddingShift]
  change toUInt32 (if testFlag extra.toNat FrameFlag.padded = true then _ else _) = _
  congr 1
  split
  · rfl
  · rw [Nat.cast_zero, sub_zero]

theorem drop_withFlags (f : Frame) (extra : UInt8) {n : ℕ} (h : 4 < n) :
  (f.withFlags extra).buffer.drop n = f.buffer.drop n
  := by
  rw [withFlags]
  exact List.drop_set_of_lt h

theorem paddingShift_le (extra : UInt8) :
  paddingShift extra ≤ 1
  := by
  rw [paddingShift]
  split
  · exact le_refl 1
  · exact Nat.zero_le 1

end Frame

variable {D : Type} {f : Frame}

/-- The 32 bits at an offset of the data, of a frame with further flags. -/
theorem readUInt32_withFlags (h : f.ValidControl) (hreads : f.readsData = true) (extra : UInt8)
    (offset : ℕ) :
  (readUInt32 (f.withFlags extra) offset : Operation D ℕ)
    = if Frame.paddingShift extra + offset + 4 ≤ f.payloadSize
      then pure (fromBigEndian f.buffer (frameHeaderSize + Frame.paddingShift extra + offset))
      else Proc.fail .outOfBounds
  := by
  rw [readUInt32, Frame.dataBegin_withFlags h hreads]
  by_cases hsize : f.payloadSize = 0
  · rw [if_pos hsize, if_neg (by omega)]
  · rw [if_neg hsize]
    dsimp only
    rw [Frame.length_withFlags, h.length, Frame.fromBigEndian_withFlags _ _ (by
      rw [frameHeaderSize]
      omega)]
    apply if_congr _ rfl rfl
    omega

theorem readData_withFlags (h : f.ValidControl) (hreads : f.readsData = true) (extra : UInt8)
    {size : ℕ} (hsize : size ≠ 0) :
  (readData (f.withFlags extra) size : Operation D Octets)
    = if Frame.paddingShift extra + size ≤ f.payloadSize
      then pure ((f.buffer.drop (frameHeaderSize + Frame.paddingShift extra)).take size)
      else Proc.fail .outOfBounds
  := by
  rw [readData, if_neg hsize, Frame.dataBegin_withFlags h hreads]
  by_cases hpayload : f.payloadSize = 0
  · rw [if_pos hpayload, if_neg (by omega)]
  · rw [if_neg hpayload]
    dsimp only
    rw [Frame.length_withFlags, h.length, Frame.drop_withFlags _ _ (by
      rw [frameHeaderSize]
      omega)]
    apply if_congr _ rfl rfl
    omega

/-- The part of a field block in a CONTINUATION frame with further flags. -/
theorem assembleHpackBlock_withFlags (h : f.ValidControl) (htype : f.type = .continuation)
    (extra : UInt8) (frames : List Frame) :
  assembleHpackBlock (f.withFlags extra :: frames)
    = if f.payloadSize < Frame.paddingShift extra then none
      else (assembleHpackBlock frames).map
        (f.buffer.drop (frameHeaderSize + Frame.paddingShift extra) ++ ·)
  := by
  have hreads : f.readsData = true := by
    rw [Frame.readsData, h.control, htype]
    rfl
  have hpush : ¬(f.withFlags extra).type = .pushPromise := by
    rw [Frame.type_withFlags, htype]
    rintro ⟨⟩
  have hshift := Frame.paddingShift_le extra
  have hlt := f.payloadSize_lt
  have hheader : 4 < frameHeaderSize + Frame.paddingShift extra := by
    rw [frameHeaderSize]
    omega
  rw [assembleHpackBlock.eq_def]
  dsimp only
  rw [Frame.hpackBlockSize, Frame.hpackBlockBegin, if_neg hpush, if_neg hpush,
    Frame.dataSize_withFlags h hreads, Frame.dataBegin_withFlags h hreads]
  by_cases hsmall : f.payloadSize < Frame.paddingShift extra
  · have hsize : f.payloadSize = 0 := by omega
    have hone : Frame.paddingShift extra = 1 := by omega
    rw [if_pos hsmall, hsize, hone, if_pos rfl]
    rfl
  · have hrest : toUInt32 ((f.payloadSize : ℤ) - Frame.paddingShift extra)
        = f.payloadSize - Frame.paddingShift extra := by
      have hcast := Frame.toUInt32_of_nonneg
        (show (0 : ℤ) ≤ (f.payloadSize : ℤ) - Frame.paddingShift extra by omega) (by omega)
      omega
    have hdrop : (f.buffer.drop (frameHeaderSize + Frame.paddingShift extra)).length
        = f.payloadSize - Frame.paddingShift extra := by
      rw [List.length_drop, h.length]
      omega
    rw [if_neg hsmall, hrest]
    cases hn : f.payloadSize - Frame.paddingShift extra with
    | zero =>
      rw [hn, List.length_eq_zero_iff] at hdrop
      rw [hdrop]
      cases assembleHpackBlock frames with
      | none => rfl
      | some block => rfl
    | succ n =>
      rw [hn] at hdrop
      rw [if_neg (by omega)]
      dsimp only
      rw [Frame.length_withFlags, h.length, if_neg (by omega),
        Frame.drop_withFlags f extra hheader, ← hdrop, List.take_length]

end Http2
