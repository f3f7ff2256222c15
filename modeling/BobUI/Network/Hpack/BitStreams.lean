import BobUI.Network.Hpack.Table
import Mathlib.Data.List.ModifyLast
import Mathlib.Tactic.Ring

/-!
# Bit streams

`BitOStream` and `BitIStream` of `bitstreams.cpp`: the integers and the string literals of
HPACK, written to a buffer of octets and read back.  The Huffman code of `huffman.cpp` is a
parameter of both.  At an octet boundary an integer after a pattern of `8 - n` bits is
written as `integerOctets n`, a string as `stringOctets`, and each is read back wherever it
ends within the first `2 ^ 32` bits of its stream.
-/

namespace HPack

/-- The functions of `huffman.cpp`: the number of bits of the encoded string, the octets
`huffman_encode_string` writes at an octet boundary, its padding included, and the string
`huffman_decode_string` reads from a slice. -/
structure Huffman where
  encodedBitLength : Octets → ℕ
  encodeString : Octets → Octets
  decodeString : Octets → Option Octets

/-- The output stream; `bitsSet` bits of its buffer are in use. -/
structure BitOStream where
  buffer : Octets
  bitsSet : ℕ
deriving DecidableEq

namespace BitOStream

/-- The stream that writes behind the octets `b`. -/
def new (b : Octets) : BitOStream :=
  ⟨b, 8 * b.length⟩

/-- `writeBits`: the `bitLength` low bits of `bits`. -/
def writeBits (o : BitOStream) (bits bitLength : ℕ) : BitOStream :=
  let count := o.bitsSet % 8
  let bits := (bits <<< (8 - bitLength)) % 256
  let buffer :=
    if count ≠ 0 then o.buffer.modifyLast (· ||| UInt8.ofNat (bits >>> count)) else o.buffer
  let count := if count ≠ 0 then 8 - count else 0
  { buffer := if bitLength > count then buffer ++ [UInt8.ofNat (bits <<< count)] else buffer,
    bitsSet := o.bitsSet + bitLength }

/-- The octets of an integer past its prefix, the low bits first. -/
def continuation (src : ℕ) : Octets :=
  if src ≥ 128 then UInt8.ofNat (src % 128 + 128) :: continuation (src / 128)
  else [UInt8.ofNat src]

/-- `write(quint32)`. -/
def writeInteger (o : BitOStream) (src : ℕ) : BitOStream :=
  let prefixLen := 8 - o.bitsSet % 8
  let fullPrefix := 2 ^ prefixLen - 1
  if src < fullPrefix then o.writeBits src prefixLen
  else
    let o := o.writeBits fullPrefix prefixLen
    let octets := continuation (src - fullPrefix)
    { buffer := o.buffer ++ octets, bitsSet := o.bitsSet + 8 * octets.length }

/-- `write(QByteArrayView, bool)`; the length is a `quint32`. -/
def writeString (huffman : Huffman) (o : BitOStream) (src : Octets) (compressed : Bool) :
    BitOStream :=
  let byteLen := src.length % 2 ^ 32
  let o :=
    if compressed ∧ byteLen ≠ 0 then
      (o.writeBits 1 1).writeInteger ((huffman.encodedBitLength src + 7) / 8 % 2 ^ 32)
    else (o.writeBits 0 1).writeInteger byteLen
  let octets := if compressed then huffman.encodeString src else src
  { buffer := o.buffer ++ octets, bitsSet := o.bitsSet + 8 * octets.length }

def bitLength (o : BitOStream) : ℕ := o.bitsSet

end BitOStream

/-- The error of the last read. -/
inductive StreamError where
  | noError
  | notEnoughData
  | compressionError
  | invalidInteger
deriving DecidableEq

/-- The input stream over the octets `data`; `offset` counts bits. -/
structure BitIStream where
  data : Octets
  offset : ℕ
  streamError : StreamError
deriving DecidableEq

namespace BitIStream

/-- The stream over the given octets. -/
def new (data : Octets) : BitIStream :=
  ⟨data, 0, .noError⟩

def bitLength (s : BitIStream) : ℕ := 8 * s.data.length

def hasMoreBits (s : BitIStream) : Bool := s.offset < s.bitLength

def setError (s : BitIStream) (error : StreamError) : BitIStream :=
  { s with streamError := error }

/-- `skipBits`: whether there were as many bits to skip. -/
def skipBits (s : BitIStream) (nBits : ℕ) : Bool × BitIStream :=
  if nBits > s.bitLength ∨ s.bitLength - nBits < s.offset then (false, s)
  else (true, { s with offset := s.offset + nBits })

/-- The loop of `peekBits` over whole octets, into a destination of `width` bits. -/
def peekOctets (width : ℕ) : Octets → (bitsToRead dst : ℕ) → ℕ
  | [], _, dst => dst
  | octet :: octets, bitsToRead, dst =>
    if bitsToRead > 8 then
      peekOctets width octets (bitsToRead - 8) (((dst <<< 8) ||| octet.toNat) % 2 ^ width)
    else ((dst <<< bitsToRead) % 2 ^ width) ||| (octet.toNat >>> (8 - bitsToRead))

/-- `peekBits`: how many bits there were, and the bits, at the top of `width` bits. -/
def peekBits (s : BitIStream) (width start length : ℕ) : ℕ × ℕ :=
  if start ≥ s.bitLength ∨ length = 0 then (0, 0)
  else
    let length := min length (s.bitLength - start)
    let dst := peekOctets width (s.data.drop (start / 8)) (length + start % 8) 0
    (length, (dst <<< (width - length)) % 2 ^ width)

/-- The loop of `read(quint32 *)` over the octets past the prefix.  An octet at power 28
either ends the integer or is an error, so at most five are read. -/
def readContinuation (s : BitIStream) : ℕ → (newOffset val octetPower : ℕ) →
    Except StreamError (ℕ × ℕ)
  | 0, _, _, _ => .error .invalidInteger
  | turns + 1, newOffset, val, octetPower =>
    if newOffset ≥ s.bitLength then .error .notEnoughData
    else
      let octet := (s.data[newOffset / 8]!).toNat
      if octetPower = 28 ∧ octet > 15 then .error .invalidInteger
      else
        let val := val + ((octet &&& 0x7f) <<< octetPower) % 2 ^ 32
        let newOffset := (newOffset + 8) % 2 ^ 32
        if octet &&& 0x80 = 0 then .ok (val % 2 ^ 32, newOffset)
        else readContinuation s turns newOffset val (octetPower + 7)

/-- `read(quint32 *)`; the offset past the prefix is a `quint32`. -/
def readInteger (s : BitIStream) : Option ℕ × BitIStream :=
  if s.offset ≥ s.bitLength then (none, s.setError .notEnoughData)
  else
    let s := s.setError .noError
    let prefixLen := 8 - s.offset % 8
    let fullPrefix := 2 ^ prefixLen - 1
    let pre := (s.data[s.offset / 8]!).toNat &&& fullPrefix
    if pre < fullPrefix then (some pre, { s with offset := s.offset + prefixLen })
    else
      match s.readContinuation 5 ((s.offset + prefixLen) % 2 ^ 32) pre 0 with
      | .error error => (none, s.setError error)
      | .ok (val, newOffset) => (some val, { s with offset := newOffset })

/-- `read(QByteArray *)`. -/
def readString (huffman : Huffman) (s : BitIStream) : Option Octets × BitIStream :=
  let oldOffset := s.offset
  let (bits, compressed) := s.peekBits 8 s.offset 1
  let (skipped, s') := s.skipBits 1
  if bits ≠ 1 ∨ !skipped then (none, s.setError .notEnoughData)
  else
    match (s'.setError .noError).readInteger with
    | (none, s) => (none, { s with offset := oldOffset })
    | (some len, s) =>
      if len ≤ (s.bitLength - s.offset) / 8 then
        let slice := (s.data.drop (s.offset / 8)).take len
        if compressed = 0 then (some slice, { s with offset := s.offset + len * 8 })
        else
          match huffman.decodeString slice with
          | some dst => (some dst, { s with offset := s.offset + len * 8 })
          | none => (none, { s.setError .compressionError with offset := oldOffset })
      else (none, { s.setError .notEnoughData with offset := oldOffset })

end BitIStream

/-! ### Writing at octet boundaries -/

/-- The octets of the integer `v` behind the bits `flag`, with a prefix of `n` bits. -/
def integerOctets (n flag v : ℕ) : Octets :=
  if v < 2 ^ n - 1 then [UInt8.ofNat (flag * 2 ^ n + v)]
  else UInt8.ofNat (flag * 2 ^ n + (2 ^ n - 1)) :: BitOStream.continuation (v - (2 ^ n - 1))

/-- The octets of a string literal. -/
def stringOctets (huffman : Huffman) (compressed : Bool) (src : Octets) : Octets :=
  if compressed ∧ src.length ≠ 0 then
    integerOctets 7 1 ((huffman.encodedBitLength src + 7) / 8) ++ huffman.encodeString src
  else integerOctets 7 0 src.length ++ if compressed then huffman.encodeString src else src

namespace BitOStream

theorem new_append (b octets : Octets) :
  (⟨(new b).buffer ++ octets, (new b).bitsSet + 8 * octets.length⟩ : BitOStream)
    = new (b ++ octets)
  := by
  simp [new, Nat.mul_add]

/-- Bits written at an octet boundary begin an octet. -/
theorem writeBits_new (b : Octets) {p c : ℕ} (hc : 0 < c) (hc' : c ≤ 8) (hp : p < 2 ^ c) :
  (new b).writeBits p c = ⟨b ++ [UInt8.ofNat (p * 2 ^ (8 - c))], 8 * b.length + c⟩
  := by
  have hbits : p * 2 ^ (8 - c) < 256 := by
    calc p * 2 ^ (8 - c) < 2 ^ c * 2 ^ (8 - c) := Nat.mul_lt_mul_of_pos_right hp (Nat.two_pow_pos _)
      _ = 256 := by rw [← Nat.pow_add, Nat.add_sub_cancel' hc']
  simp [writeBits, new, hc, Nat.shiftLeft_eq, Nat.mod_eq_of_lt hbits]

/-- Bits written behind the first `c` bits of an octet, as many as the octet has left, fill
it. -/
theorem writeBits_rest (b : Octets) {p c v : ℕ} (hc : 0 < c) (hc' : c < 8)
    (hv : v < 2 ^ (8 - c)) :
  (⟨b ++ [UInt8.ofNat (p * 2 ^ (8 - c))], 8 * b.length + c⟩ : BitOStream).writeBits v (8 - c)
    = new (b ++ [UInt8.ofNat (p * 2 ^ (8 - c) + v)])
  := by
  have hsub : 8 - (8 - c) = c := by omega
  have hbits : v * 2 ^ c < 256 := by
    calc v * 2 ^ c < 2 ^ (8 - c) * 2 ^ c := Nat.mul_lt_mul_of_pos_right hv (Nat.two_pow_pos _)
      _ = 256 := by rw [← Nat.pow_add, Nat.sub_add_cancel (Nat.le_of_lt hc')]
  have hcount : (8 * b.length + c) % 8 = c := by omega
  have hback : v * 2 ^ c / 2 ^ c = v := Nat.mul_div_cancel v (Nat.two_pow_pos _)
  have hor : p * 2 ^ (8 - c) ||| v = p * 2 ^ (8 - c) + v := by
    rw [Nat.mul_comm, Nat.two_pow_add_eq_or_of_lt hv]
  have hne : c ≠ 0 := Nat.pos_iff_ne_zero.mp hc
  have hlast : (b ++ [UInt8.ofNat (p * 2 ^ (8 - c))]).modifyLast (· ||| UInt8.ofNat v)
      = b ++ [UInt8.ofNat (p * 2 ^ (8 - c) + v)] := by
    rw [List.modifyLast_concat, ← UInt8.ofNat_or, hor]
  simp only [writeBits, hcount, hsub, Nat.shiftLeft_eq, Nat.mod_eq_of_lt hbits,
    Nat.shiftRight_eq_div_pow, hback, if_pos hne, gt_iff_lt, lt_self_iff_false, if_false, hlast,
    new, List.length_append, List.length_singleton, BitOStream.mk.injEq, true_and]
  omega

/-- An integer written behind a pattern of `c` bits. -/
theorem writeInteger_pattern (b : Octets) {p c v : ℕ} (hc : 0 < c) (hc' : c < 8)
    (hp : p < 2 ^ c) :
  ((new b).writeBits p c).writeInteger v = new (b ++ integerOctets (8 - c) p v)
  := by
  have hcount : 8 - (8 * b.length + c) % 8 = 8 - c := by omega
  have hpos : 0 < 2 ^ (8 - c) := Nat.two_pow_pos _
  rw [writeBits_new b hc (Nat.le_of_lt hc') hp, writeInteger, integerOctets, hcount]
  split_ifs with hsmall
  · rw [writeBits_rest b hc hc' (by omega)]
  · rw [writeBits_rest b hc hc' (by omega), new_append, List.append_assoc, List.singleton_append]

/-- An integer below `2 ^ (7 * k)` takes at most `k` octets past its prefix. -/
theorem continuation_length_le {k v : ℕ} (hk : 0 < k) (hv : v < 2 ^ (7 * k)) :
  (continuation v).length ≤ k
  := by
  induction k generalizing v with
  | zero => omega
  | succ k ih =>
    rw [continuation]
    split_ifs with hbig
    · have hpow : 2 ^ (7 * (k + 1)) = 2 ^ (7 * k) * 128 := by
        rw [Nat.mul_succ, Nat.pow_add]
      have hdiv : v / 128 < 2 ^ (7 * k) := by
        apply Nat.div_lt_of_lt_mul
        omega
      have hk : 0 < k := by
        by_contra hzero
        obtain rfl : k = 0 := by omega
        omega
      rw [List.length_cons]
      apply Nat.succ_le_succ (ih hk hdiv)
    · simp

end BitOStream

/-- An integer of 32 bits takes at most six octets. -/
theorem integerOctets_length_le (n flag : ℕ) {v : ℕ} (hv : v < 2 ^ 32) :
  (integerOctets n flag v).length ≤ 6
  := by
  rw [integerOctets]
  split_ifs
  · simp
  · rw [List.length_cons]
    apply Nat.succ_le_succ
    apply BitOStream.continuation_length_le (by decide)
    apply Nat.lt_of_le_of_lt (Nat.sub_le _ _)
    apply Nat.lt_of_lt_of_le hv (by decide)

/-- The first octet of an integer begins with the bits in front of the integer. -/
theorem integerOctets_first (n flag : ℕ) (hn : n ≤ 8) (hflag : flag < 2 ^ (8 - n)) (v : ℕ) :
  ∃ x octets, integerOctets n flag v = x :: octets ∧ x.toNat >>> n = flag
  := by
  have hpos : 0 < 2 ^ n := Nat.two_pow_pos n
  have hmax : flag * 2 ^ n + (2 ^ n - 1) < 256 := by
    calc flag * 2 ^ n + (2 ^ n - 1) < (flag + 1) * 2 ^ n := by rw [Nat.succ_mul]; omega
      _ ≤ 2 ^ (8 - n) * 2 ^ n := Nat.mul_le_mul_right _ hflag
      _ = 256 := by rw [← Nat.pow_add, Nat.sub_add_cancel hn]
  have htop : ∀ w < 2 ^ n, (UInt8.ofNat (flag * 2 ^ n + w)).toNat >>> n = flag := by
    intro w hw
    rw [UInt8.toNat_ofNat', Nat.mod_eq_of_lt (by omega), Nat.shiftRight_eq_div_pow, Nat.mul_comm,
      Nat.mul_add_div hpos, Nat.div_eq_of_lt hw, Nat.add_zero]
  rw [integerOctets]
  split_ifs
  · use UInt8.ofNat (flag * 2 ^ n + v), [], rfl
    apply htop v (by omega)
  · use UInt8.ofNat (flag * 2 ^ n + (2 ^ n - 1)), BitOStream.continuation (v - (2 ^ n - 1)), rfl
    apply htop _ (by omega)

/-! ### Reading at octet boundaries -/

/-- The first octet past the first `k`. -/
theorem octet_of_drop {l rest : Octets} {k : ℕ} {x : UInt8} (h : l.drop k = x :: rest) :
  k < l.length ∧ l[k]! = x ∧ l.drop (k + 1) = rest
  := by
  have hk : k < l.length := by
    by_contra hk
    rw [List.drop_eq_nil_of_le (Nat.le_of_not_lt hk)] at h
    cases h
  rw [List.drop_eq_getElem_cons hk] at h
  obtain ⟨hx, hrest⟩ := List.cons.inj h
  use hk
  constructor
  · rw [getElem!_pos l k hk, hx]
  · apply hrest

theorem low_bits (x : ℕ) :
  x &&& 0x7f = x % 128
  := Nat.and_two_pow_sub_one_eq_mod x 7

/-- The top bit of an octet. -/
theorem top_bit :
  ∀ x < 256, (x &&& 0x80 = 0 ↔ x < 128)
  := by
  set_option maxRecDepth 10000 in
  decide

namespace BitIStream

variable {s : BitIStream} {rest : Octets}

/-- The first bits of an octet, at the top of an octet. -/
theorem peekBits_octet {k len : ℕ} {x : UInt8} (hdrop : s.data.drop k = x :: rest) (hpos : 0 < len)
    (hle : len ≤ 8) :
  s.peekBits 8 (8 * k) len = (len, ((x.toNat >>> (8 - len)) <<< (8 - len)) % 256)
  := by
  obtain ⟨hk, -, -⟩ := octet_of_drop hdrop
  have hdiv : 8 * k / 8 = k := Nat.mul_div_cancel_left k (by decide)
  have hmod : 8 * k % 8 = 0 := Nat.mul_mod_right 8 k
  have hmin : min len (s.bitLength - 8 * k) = len := by
    rw [bitLength]
    omega
  have hout : ¬ (8 * k ≥ s.bitLength ∨ len = 0) := by
    rw [bitLength]
    omega
  simp only [peekBits, if_neg hout, hdiv, hmod, hmin, hdrop, Nat.add_zero, peekOctets,
    Nat.zero_shiftLeft, Nat.zero_mod, Nat.zero_or, gt_iff_lt, if_neg (Nat.not_lt.mpr hle)]
  rfl

/-- The octets an integer has past its prefix are read back. -/
theorem readContinuation_continuation (turns : ℕ) {k : ℕ} (val p : ℕ) {m : ℕ}
    (hdrop : s.data.drop k = BitOStream.continuation m ++ rest) (hturns : 7 * turns + p = 35)
    (hp : p ≤ 28) (hm : m < 2 ^ (32 - p)) (hval : val + m * 2 ^ p < 2 ^ 32)
    (hfit : 8 * (k + (BitOStream.continuation m).length) < 2 ^ 32) :
  s.readContinuation turns (8 * k) val p
    = .ok (val + m * 2 ^ p, 8 * (k + (BitOStream.continuation m).length))
  := by
  induction turns generalizing k val p m with
  | zero => omega
  | succ turns ih =>
    have hdiv : 8 * k / 8 = k := Nat.mul_div_cancel_left k (by decide)
    rw [BitOStream.continuation] at hdrop hfit ⊢
    split_ifs at hdrop hfit ⊢ with hbig
    · rw [List.cons_append] at hdrop
      obtain ⟨hk, hoctet, hnext⟩ := octet_of_drop hdrop
      have hnat : (UInt8.ofNat (m % 128 + 128)).toNat = m % 128 + 128 := by
        rw [UInt8.toNat_ofNat']
        omega
      have hlow : (m % 128 + 128) &&& 0x7f = m % 128 := by
        rw [low_bits]
        omega
      have htop : ¬ ((m % 128 + 128) &&& 0x80 = 0) := by
        rw [top_bit _ (by omega)]
        omega
      have hpne : p ≠ 28 := by
        rintro rfl
        omega
      have hpow : 2 ^ (p + 7) = 2 ^ p * 128 := Nat.pow_add 2 p 7
      have hsplit : m * 2 ^ p = m % 128 * 2 ^ p + m / 128 * 2 ^ (p + 7) := by
        conv_lhs => rw [← Nat.mod_add_div m 128]
        rw [hpow]
        ring
      have hpart : m % 128 * 2 ^ p < 2 ^ 32 := by omega
      have hrest : m / 128 < 2 ^ (32 - (p + 7)) := by
        apply Nat.div_lt_of_lt_mul
        rw [← Nat.pow_add 2 7]
        rwa [show 7 + (32 - (p + 7)) = 32 - p by omega]
      rw [List.length_cons] at hfit
      have hin : ¬ (8 * k ≥ s.bitLength) := by
        rw [bitLength]
        omega
      have hnewOffset : (8 * k + 8) % 2 ^ 32 = 8 * (k + 1) := by omega
      simp only [readContinuation, if_neg hin, hdiv, hoctet, hnat, hlow, if_neg htop, hpne,
        false_and, if_false, Nat.shiftLeft_eq, Nat.mod_eq_of_lt hpart, hnewOffset]
      rw [ih _ _ hnext (by omega) (by omega) hrest (by omega) (by omega), hsplit,
        List.length_cons]
      simp only [Except.ok.injEq, Prod.mk.injEq]
      omega
    · rw [List.singleton_append] at hdrop
      obtain ⟨hk, hoctet, -⟩ := octet_of_drop hdrop
      have hnat : (UInt8.ofNat m).toNat = m := by
        rw [UInt8.toNat_ofNat']
        omega
      have hlow : m &&& 0x7f = m := by
        rw [low_bits]
        omega
      have htop : m &&& 0x80 = 0 := by
        rw [top_bit m (by omega)]
        omega
      have hend : ¬ (p = 28 ∧ m > 15) := by
        rintro ⟨rfl, hm15⟩
        omega
      rw [List.length_singleton] at hfit
      have hin : ¬ (8 * k ≥ s.bitLength) := by
        rw [bitLength]
        omega
      have hnewOffset : (8 * k + 8) % 2 ^ 32 = 8 * (k + 1) := by omega
      have hpart : m * 2 ^ p < 2 ^ 32 := by omega
      simp only [readContinuation, if_neg hin, hdiv, hoctet, hnat, hlow, if_pos htop, if_neg hend,
        Nat.shiftLeft_eq, Nat.mod_eq_of_lt hpart, Nat.mod_eq_of_lt hval, hnewOffset,
        List.length_singleton]

/-- An integer with a prefix of `n` bits is read back, if it fits the prefix or ends within the
first `2 ^ 32` bits of the stream. -/
theorem readInteger_integerOctets {n flag v k : ℕ} (hn : 0 < n) (hn' : n ≤ 8)
    (hflag : flag < 2 ^ (8 - n)) (hv : v < 2 ^ 32) (hoffset : s.offset = 8 * k + (8 - n))
    (hdrop : s.data.drop k = integerOctets n flag v ++ rest)
    (hfit : 2 ^ n - 1 ≤ v → 8 * (k + (integerOctets n flag v).length) < 2 ^ 32) :
  s.readInteger = (some v, ⟨s.data, 8 * (k + (integerOctets n flag v).length), .noError⟩)
  := by
  have hpos : 0 < 2 ^ n := Nat.two_pow_pos n
  have hmax : flag * 2 ^ n + (2 ^ n - 1) < 256 := by
    calc flag * 2 ^ n + (2 ^ n - 1) < (flag + 1) * 2 ^ n := by rw [Nat.succ_mul]; omega
      _ ≤ 2 ^ (8 - n) * 2 ^ n := Nat.mul_le_mul_right _ hflag
      _ = 256 := by rw [← Nat.pow_add, Nat.sub_add_cancel hn']
  have hdiv : (8 * k + (8 - n)) / 8 = k := by omega
  have hmod : 8 - (8 * k + (8 - n)) % 8 = n := by omega
  have hend : 8 * k + (8 - n) + n = 8 * (k + 1) := by omega
  have hlow : ∀ w < 2 ^ n, (flag * 2 ^ n + w) &&& (2 ^ n - 1) = w := by
    intro w hw
    rw [Nat.and_two_pow_sub_one_eq_mod, Nat.mul_add_mod_of_lt hw]
  rw [integerOctets] at hdrop hfit ⊢
  split_ifs at hdrop hfit ⊢ with hsmall
  · rw [List.singleton_append] at hdrop
    obtain ⟨hk, hoctet, -⟩ := octet_of_drop hdrop
    have hin : ¬ (8 * k + (8 - n) ≥ s.bitLength) := by
      rw [bitLength]
      omega
    have hnat : (UInt8.ofNat (flag * 2 ^ n + v)).toNat = flag * 2 ^ n + v := by
      rw [UInt8.toNat_ofNat']
      omega
    simp only [readInteger, setError, hoffset, if_neg hin, hdiv, hmod, hoctet, hnat,
      hlow v (by omega), if_pos hsmall, hend, List.length_singleton]
  · rw [List.cons_append] at hdrop
    obtain ⟨hk, hoctet, hnext⟩ := octet_of_drop hdrop
    have hin : ¬ (8 * k + (8 - n) ≥ s.bitLength) := by
      rw [bitLength]
      omega
    have hnat : (UInt8.ofNat (flag * 2 ^ n + (2 ^ n - 1))).toNat = flag * 2 ^ n + (2 ^ n - 1) := by
      rw [UInt8.toNat_ofNat']
      omega
    have hfit := hfit (Nat.le_of_not_lt hsmall)
    rw [List.length_cons] at hfit
    have hcontinuation := readContinuation_continuation
      (s := ⟨s.data, 8 * k + (8 - n), .noError⟩) 5 (2 ^ n - 1) 0 hnext
      (by omega) (by omega) (by omega) (by omega) (by omega)
    have hstart : 8 * (k + 1) % 2 ^ 32 = 8 * (k + 1) := by omega
    simp only [readInteger, setError, hoffset, if_neg hin, hdiv, hmod, hoctet, hnat,
      hlow (2 ^ n - 1) (by omega), lt_irrefl, if_false, hend, hstart, hcontinuation, Nat.pow_zero,
      Nat.mul_one, List.length_cons]
    rw [show 2 ^ n - 1 + (v - (2 ^ n - 1)) = v by omega, Nat.add_assoc, Nat.add_comm 1]

end BitIStream

/-! ### String literals -/

/-- The Huffman code of `s` has the length computed for it and is decoded to `s`. -/
structure Huffman.Inverts (huffman : Huffman) (s : Octets) : Prop where
  length_eq : (huffman.encodeString s).length = (huffman.encodedBitLength s + 7) / 8
  decode_eq : huffman.decodeString (huffman.encodeString s) = some s
  nil_eq : s = [] → huffman.encodeString s = []

/-- The number of octets of a string in a literal. -/
def literalLength (huffman : Huffman) (compressed : Bool) (s : Octets) : ℕ :=
  if compressed then (huffman.encodedBitLength s + 7) / 8 else s.length

/-- A string of the given compression is decoded to the octets that were written. -/
def Huffman.Faithful (huffman : Huffman) (compressed : Bool) (s : Octets) : Prop :=
  compressed = true → huffman.Inverts s

variable {huffman : Huffman} {compressed : Bool} {src : Octets}

theorem stringOctets_eq (h : huffman.Faithful compressed src) :
  ∃ flag payload, stringOctets huffman compressed src
      = integerOctets 7 flag payload.length ++ payload ∧
    payload.length ≤ literalLength huffman compressed src ∧
    (flag = 0 ∧ payload = src ∨ flag = 1 ∧ huffman.decodeString payload = some src)
  := by
  rw [stringOctets, literalLength]
  cases compressed with
  | false =>
    use 0, src
    simp
  | true =>
    have hsrc := h rfl
    by_cases hnil : src = []
    · subst hnil
      use 0, []
      simp [hsrc.nil_eq]
    · use 1, huffman.encodeString src
      have hlength : src.length ≠ 0 := mt List.length_eq_zero_iff.mp hnil
      simp [hnil, hsrc.length_eq, hsrc.decode_eq]

theorem stringOctets_length_le (h : huffman.Faithful compressed src)
    (hsize : literalLength huffman compressed src < 2 ^ 32) :
  (stringOctets huffman compressed src).length ≤ literalLength huffman compressed src + 6
  := by
  obtain ⟨flag, payload, heq, hle, -⟩ := stringOctets_eq h
  have := integerOctets_length_le 7 flag (Nat.lt_of_le_of_lt hle hsize)
  rw [heq, List.length_append]
  omega

/-- The string is written at an octet boundary. -/
theorem BitOStream.writeString_new (b : Octets) (hsrc : src.length < 2 ^ 32)
    (hcode : literalLength huffman compressed src < 2 ^ 32) :
  (new b).writeString huffman src compressed = new (b ++ stringOctets huffman compressed src)
  := by
  have hflag : ∀ flag < 2, ∀ v, ((new b).writeBits flag 1).writeInteger v
      = new (b ++ integerOctets 7 flag v) :=
    fun flag hflag v => writeInteger_pattern b (by decide) (by decide) hflag
  rw [writeString, stringOctets]
  simp only [Nat.mod_eq_of_lt hsrc, hflag 0 (by decide), hflag 1 (by decide)]
  cases compressed with
  | false => simp [new_append]
  | true =>
    have hcode : (huffman.encodedBitLength src + 7) / 8 < 2 ^ 32 := hcode
    rw [Nat.mod_eq_of_lt hcode]
    by_cases hnil : src.length = 0
    · simp [hnil, new_append]
    · simp [hnil, new_append]

/-- A string literal is read back. -/
theorem BitIStream.readString_stringOctets {s : BitIStream} {rest : Octets} {k : ℕ}
    (h : huffman.Faithful compressed src) (hoffset : s.offset = 8 * k)
    (hdrop : s.data.drop k = stringOctets huffman compressed src ++ rest)
    (hsize : literalLength huffman compressed src < 2 ^ 32)
    (hfit : 8 * (k + min 6 (stringOctets huffman compressed src).length) < 2 ^ 32) :
  s.readString huffman
    = (some src, ⟨s.data, 8 * (k + (stringOctets huffman compressed src).length), .noError⟩)
  := by
  obtain ⟨flag, payload, heq, hle, hcases⟩ := stringOctets_eq h
  rw [heq, List.length_append] at hfit
  rw [heq, List.append_assoc] at hdrop
  have hflag : flag < 2 ^ (8 - 7) := by
    rcases hcases with ⟨rfl, -⟩ | ⟨rfl, -⟩
    · decide
    · decide
  have hpayload : payload.length < 2 ^ 32 := Nat.lt_of_le_of_lt hle hsize
  have hsix := integerOctets_length_le 7 flag hpayload
  obtain ⟨x, octets, hfirst, htop⟩ := integerOctets_first 7 flag (by decide) hflag payload.length
  have hpeek : s.peekBits 8 s.offset 1 = (1, flag <<< 7 % 256) := by
    have hdrop' := hdrop
    rw [hfirst, List.cons_append] at hdrop'
    rw [hoffset, peekBits_octet hdrop' (by decide) (by decide), ← htop]
  have hin : 8 * k + 1 ≤ s.bitLength := by
    have hlength := congrArg List.length hdrop
    rw [hfirst, List.length_drop, List.length_append, List.length_cons] at hlength
    rw [bitLength]
    omega
  have hskip : s.skipBits 1 = (true, { s with offset := 8 * k + 1 }) := by
    rw [skipBits, if_neg (by omega), hoffset]
  have hread := readInteger_integerOctets (s := ⟨s.data, 8 * k + 1, .noError⟩) (by decide)
    (by decide) hflag hpayload rfl hdrop (fun _ => by omega)
  have hrest : s.data.drop (k + (integerOctets 7 flag payload.length).length) = payload ++ rest := by
    rw [← List.drop_drop, hdrop, List.drop_left]
  have henough : payload.length ≤
      (8 * s.data.length - 8 * (k + (integerOctets 7 flag payload.length).length)) / 8 := by
    have hlength := congrArg List.length hrest
    rw [List.length_drop, List.length_append] at hlength
    omega
  have hdiv : 8 * (k + (integerOctets 7 flag payload.length).length) / 8
      = k + (integerOctets 7 flag payload.length).length := Nat.mul_div_cancel_left _ (by decide)
  simp only [readString, hpeek, hskip, setError, hread, bitLength, hdiv, hrest, List.take_left,
    if_pos henough, Bool.not_true, Bool.false_eq_true, or_false, ne_eq, not_true_eq_false, if_false]
  have hlast : 8 * (k + (integerOctets 7 flag payload.length).length) + payload.length * 8
      = 8 * (k + (stringOctets huffman compressed src).length) := by
    rw [heq, List.length_append]
    omega
  rw [hlast]
  rcases hcases with ⟨rfl, rfl⟩ | ⟨rfl, hdecode⟩
  · rfl
  · simp [hdecode]

end HPack
