import BobUI.Network.Http2.Connection

/-!
# Byte arrays as upload devices

`QNonContiguousByteDeviceByteArrayImpl`, and surroundings of a connection whose upload devices are
of this kind.
-/

/-- A byte array that is uploaded from a position on. -/
structure QNonContiguousByteDeviceByteArrayImpl where
  view : Octets
  currentPosition : ℕ
deriving DecidableEq

namespace QNonContiguousByteDeviceByteArrayImpl

/-- The device of a byte array. -/
def new (byteArray : Octets) : QNonContiguousByteDeviceByteArrayImpl :=
  ⟨byteArray, 0⟩

def size (d : QNonContiguousByteDeviceByteArrayImpl) : ℕ :=
  d.view.length

def atEnd (d : QNonContiguousByteDeviceByteArrayImpl) : Bool :=
  d.size ≤ d.currentPosition

/-- The octets from the position on, and how many of them may be read. -/
def readPointer (maximumLength : ℤ) (d : QNonContiguousByteDeviceByteArrayImpl) :
    Option Octets × ℤ :=
  if d.atEnd then (none, -1)
  else
    let len : ℤ :=
      if maximumLength ≠ -1 then min maximumLength (d.size - d.currentPosition)
      else d.size - d.currentPosition
    (some (d.view.drop d.currentPosition), len)

def advanceReadPointer (amount : ℕ) (d : QNonContiguousByteDeviceByteArrayImpl) :
    QNonContiguousByteDeviceByteArrayImpl :=
  { d with currentPosition := d.currentPosition + amount }

/-- Octets are offered until the end of the array is reached. -/
theorem hasData_readPointer {n : ℤ} (h : 0 < n) (d : QNonContiguousByteDeviceByteArrayImpl) :
  Http2.hasData (readPointer n d) = !d.atEnd
  := by
  rw [readPointer]
  cases hend : d.atEnd with
  | true => rfl
  | false =>
    rw [atEnd, decide_eq_false_iff_not] at hend
    rw [if_neg Bool.false_ne_true, if_pos (show n ≠ -1 by omega), Http2.hasData]
    exact decide_eq_true (show 0 < min n (d.size - d.currentPosition) by omega)

theorem length_le {n : ℤ} {d : QNonContiguousByteDeviceByteArrayImpl} {data : Octets}
    {len : ℤ} (h : readPointer n d = (some data, len)) :
  len ≤ data.length
  := by
  rw [readPointer] at h
  cases hend : d.atEnd with
  | true =>
    rw [hend] at h
    cases h
  | false =>
    rw [hend, if_neg Bool.false_ne_true] at h
    rw [atEnd, decide_eq_false_iff_not, size] at hend
    obtain ⟨hdata, rfl⟩ := Prod.mk.inj h
    rw [← Option.some.inj hdata, List.length_drop, size]
    split
    · omega
    · omega

/-- The device as a connection sees it. -/
def device : Http2.QNonContiguousByteDevice QNonContiguousByteDeviceByteArrayImpl where
  readPointer n d := (readPointer n d, d)
  advanceReadPointer := advanceReadPointer
  atEnd := atEnd
  length_le _ h _ := length_le h
  atEnd_readPointer {n d} h := by
    refine ⟨?_, h⟩
    rw [readPointer, if_pos h]
    rfl
  readPointer_again {n m d} h_n h_m h := by
    rw [hasData_readPointer h_n] at h
    rw [hasData_readPointer h_m, h]

end QNonContiguousByteDeviceByteArrayImpl

namespace Http2

/-- Surroundings with byte arrays as upload devices and a socket that takes every write, for
connections that do not compress strings. -/
def byteArrayEnv (fuel : ℕ) : Env QNonContiguousByteDeviceByteArrayImpl where
  device := QNonContiguousByteDeviceByteArrayImpl.device
  huffman := ⟨fun s => 8 * s.length, id, some⟩
  url _ _ _ := none
  pingData := [0, 0, 0, 0, 0, 0, 0, 0]
  writeOk _ := true
  fuel := fuel

end Http2
