import BobUI.Network.Hpack.Table

/-!
# Constants of the protocol

The types and the constants of `http2protocol_p.h`.
-/

/-- The conversion of an integer to a `quint32`. -/
def toUInt32 (x : ℤ) : ℕ :=
  (x % 2 ^ 32).toNat

/-- `qFromBigEndian<quint32>` at a position of a buffer. -/
def fromBigEndian (src : Octets) (pos : ℕ) : ℕ :=
  (src[pos]!).toNat * 2 ^ 24 + (src[pos + 1]!).toNat * 2 ^ 16 + (src[pos + 2]!).toNat * 2 ^ 8 +
    (src[pos + 3]!).toNat

/-- `qToBigEndian` of a `quint32`. -/
def toBigEndian (x : ℕ) : Octets :=
  [UInt8.ofNat (x / 2 ^ 24), UInt8.ofNat (x / 2 ^ 16), UInt8.ofNat (x / 2 ^ 8), UInt8.ofNat x]

namespace Http2

/-! ### Numbers in network order -/

theorem fromBigEndian_toBigEndian {x : ℕ} (h : x < 2 ^ 32) (front rest : Octets) :
  fromBigEndian (front ++ (toBigEndian x ++ rest)) front.length = x
  := by
  have hget : ∀ i, (front ++ (toBigEndian x ++ rest))[front.length + i]! =
      (toBigEndian x ++ rest)[i]! := by
    intro i
    rw [List.getElem!_eq_getElem?_getD, List.getElem!_eq_getElem?_getD,
      List.getElem?_append_right (by omega), Nat.add_sub_cancel_left]
  have hzero := hget 0
  rw [Nat.add_zero] at hzero
  rw [fromBigEndian, hzero, hget, hget, hget]
  simp only [toBigEndian, List.cons_append, List.nil_append, List.getElem!_cons_zero,
    List.getElem!_cons_succ, UInt8.toNat_ofNat']
  omega

/-! ### The protocol -/

/-- The identifiers of settings. -/
inductive Settings where
  | headerTableSizeId
  | enablePushId
  | maxConcurrentStreamsId
  | initialWindowSizeId
  | maxFrameSizeId
  | maxHeaderListSizeId
deriving DecidableEq, Repr

def Settings.toNat : Settings → ℕ
  | .headerTableSizeId => 0x1
  | .enablePushId => 0x2
  | .maxConcurrentStreamsId => 0x3
  | .initialWindowSizeId => 0x4
  | .maxFrameSizeId => 0x5
  | .maxHeaderListSizeId => 0x6

/-- The types of frames; frames of other types are ignored. -/
inductive FrameType where
  | data
  | headers
  | priority
  | rstStream
  | settings
  | pushPromise
  | ping
  | goaway
  | windowUpdate
  | continuation
  | lastFrameType
deriving DecidableEq, Repr

def FrameType.toNat : FrameType → ℕ
  | .data => 0x0
  | .headers => 0x1
  | .priority => 0x2
  | .rstStream => 0x3
  | .settings => 0x4
  | .pushPromise => 0x5
  | .ping => 0x6
  | .goaway => 0x7
  | .windowUpdate => 0x8
  | .continuation => 0x9
  | .lastFrameType => 0xa

/-- The type with a given number. -/
def FrameType.ofOctet : ℕ → FrameType
  | 0 => .data
  | 1 => .headers
  | 2 => .priority
  | 3 => .rstStream
  | 4 => .settings
  | 5 => .pushPromise
  | 6 => .ping
  | 7 => .goaway
  | 8 => .windowUpdate
  | 9 => .continuation
  | _ => .lastFrameType

namespace FrameFlag

def empty : ℕ := 0x0

def ack : ℕ := 0x1

def endStream : ℕ := 0x1

def endHeaders : ℕ := 0x4

def padded : ℕ := 0x8

def priority : ℕ := 0x20

end FrameFlag

/-- `QFlags::testFlag`. -/
def testFlag (flags flag : ℕ) : Bool :=
  flags &&& flag = flag && (flag ≠ 0 || flags = flag)

def clientPrefaceLength : ℕ := 24

def connectionStreamID : ℕ := 0

def frameHeaderSize : ℕ := 9

def minPayloadLimit : ℕ := 16384

def maxPayloadSize : ℕ := 2 ^ 24 - 1

def defaultSessionWindowSize : ℤ := 65535

def lastValidStreamID : ℕ := 2 ^ 31 - 1

def maxSessionReceiveWindowSize : ℤ := 2 ^ 31 - 1

def qtDefaultStreamReceiveWindowSize : ℤ := maxSessionReceiveWindowSize / 10

/-- `PRI * HTTP/2.0`, an empty line, `SM` and an empty line. -/
def http2clientPreface : Octets :=
  octets "PRI * HTTP/2.0\r\n\r\nSM\r\n\r\n"

/-- The status of a frame that is read. -/
inductive FrameStatus where
  | protocolError
  | sizeError
  | incompleteFrame
  | goodFrame
deriving DecidableEq, Repr

namespace Http2Error

def http2NoError : ℕ := 0x0

def protocolError : ℕ := 0x1

def internalError : ℕ := 0x2

def flowControlError : ℕ := 0x3

def settingsTimeout : ℕ := 0x4

def streamClosed : ℕ := 0x5

def frameSizeError : ℕ := 0x6

def refuseStream : ℕ := 0x7

def cancel : ℕ := 0x8

def compressionError : ℕ := 0x9

def connectError : ℕ := 0xa

def enhanceYourCalm : ℕ := 0xb

def inadequateSecurity : ℕ := 0xc

def http11Required : ℕ := 0xd

end Http2Error

end Http2
