import BobUI.Network.Hpack.HuffmanDecoding
import BobUI.Network.Hpack.IntegerReads
import Mathlib.Data.FinEnum

/-!
# String literals

`BitOStream::write(QByteArrayView, bool)` and `BitIStream::read(QByteArray *)` with the code of
`huffman.cpp`.  A stream that writes holds the bits written so far and zeros up to the end of an
octet.  The pass that counts the bits of the codes takes a `char` for the index of an octet, and
a `char` from 128 on is negative; both passes over a string count with an `int`.  Which literals
are read back is a condition on the string and on where its length ends.
-/

namespace HPack

open PrefixCode Bits

/-! ### Bits that are written -/

theorem toBits_shift (c m v : ℕ) :
  toBits (c + m) (v * 2 ^ m) = toBits c v ++ List.replicate m false
  := by
  have hzero : toBits m (v * 2 ^ m) = List.replicate m false := by
    apply ofBits_inj
    · rw [length_toBits, List.length_replicate]
    · rw [ofBits_toBits, Nat.mul_mod_left]
      clear v c
      induction m with
      | zero => rfl
      | succ m ih => rw [List.replicate_succ, ofBits, ← ih, Bool.toNat_false, Nat.zero_mul]
  rw [toBits_add, Nat.mul_div_cancel _ (Nat.two_pow_pos m), hzero]

theorem bitsOf_append (octets octets' : Octets) :
  bitsOf (octets ++ octets') = bitsOf octets ++ bitsOf octets'
  := List.flatMap_append

theorem bitsOf_singleton (x : ℕ) :
  bitsOf [UInt8.ofNat x] = toBits 8 x
  := by
  rw [bitsOf, List.flatMap_singleton, UInt8.toNat_ofNat', ← toBits_mod 8 x]

variable {octets src payload : Octets} {flag : ℕ} {bits : List Bool}

/-- Octets are known by their bits. -/
theorem bitsOf_inj {octets' : Octets} (h : bitsOf octets = bitsOf octets') :
  octets = octets'
  := by
  have hlength := congrArg List.length h
  rw [length_bitsOf, length_bitsOf] at hlength
  induction octets generalizing octets' with
  | nil =>
    symm
    rw [← List.length_eq_zero_iff, ← Nat.mul_left_cancel (by decide) hlength]
    rfl
  | cons x octets ih =>
    cases octets' with
    | nil => cases hlength
    | cons y octets' =>
      rw [List.length_cons, List.length_cons] at hlength
      obtain ⟨hfirst, hrest⟩ := List.append_inj (h : toBits 8 x.toNat ++ bitsOf octets
        = toBits 8 y.toNat ++ bitsOf octets') (by rw [length_toBits, length_toBits])
      have hxy := congrArg ofBits hfirst
      rw [ofBits_toBits, ofBits_toBits, Nat.mod_eq_of_lt x.toNat_lt,
        Nat.mod_eq_of_lt y.toNat_lt] at hxy
      rw [UInt8.toNat_inj.mp hxy, ih hrest (by omega)]

namespace BitOStream

/-- A stream has written some bits: the rest of its last octet is zeros. -/
structure Holds (o : BitOStream) (bits : List Bool) : Prop where
  bitsSet_eq : o.bitsSet = bits.length
  rest : ∃ n < 8, bitsOf o.buffer = bits ++ List.replicate n false

theorem holds_new (b : Octets) :
  (new b).Holds (bitsOf b)
  := ⟨(length_bitsOf b).symm, 0, by decide, (List.append_nil _).symm⟩

variable {o : BitOStream} {bits : List Bool}

/-- A stream that has written whole octets. -/
theorem Holds.eq_new {octets : Octets} (h : o.Holds (bitsOf octets)) :
  o = new octets
  := by
  obtain ⟨n, hn, hbuffer⟩ := h.rest
  have hlength := congrArg List.length hbuffer
  rw [List.length_append, length_bitsOf, length_bitsOf, List.length_replicate] at hlength
  obtain rfl : n = 0 := by omega
  rw [List.replicate_zero, List.append_nil] at hbuffer
  have hset := h.bitsSet_eq
  rw [length_bitsOf] at hset
  obtain ⟨buffer, bitsSet⟩ := o
  rw [new, BitOStream.mk.injEq]
  exact ⟨bitsOf_inj hbuffer, hset⟩

/-- The zeros that the last octet ends with are replaced by bits. -/
theorem bitsOf_modifyLast {octets : Octets} {n y : ℕ} (hpos : 0 < n) (hn : n < 8)
    (h : bitsOf octets = bits ++ List.replicate n false) (hy : y < 2 ^ n) :
  bitsOf (octets.modifyLast (· ||| UInt8.ofNat y)) = bits ++ toBits n y
  := by
  have hlength := congrArg List.length h
  rw [List.length_append, length_bitsOf, List.length_replicate] at hlength
  rcases List.eq_nil_or_concat octets with hnil | ⟨init, last, hinit⟩
  · rw [hnil, List.length_nil] at hlength
    omega
  rw [List.concat_eq_append] at hinit
  rw [hinit, List.length_append, List.length_singleton] at hlength
  rw [hinit, bitsOf_append] at h
  -- The bits in front of the last octet, and those in it.
  have hsplit : bits = bitsOf init ++ bits.drop (8 * init.length) := by
    have htake := congrArg (List.take (8 * init.length)) h
    rw [List.take_left' (length_bitsOf init),
      List.take_append_of_le_length (by omega)] at htake
    rw [htake, List.take_append_drop]
  have hused : (bits.drop (8 * init.length)).length = 8 - n := by
    rw [List.length_drop]
    omega
  generalize bits.drop (8 * init.length) = used at hsplit hused
  rw [hsplit, List.append_assoc] at h
  have hlast : toBits 8 last.toNat = used ++ List.replicate n false := by
    have hcancel := List.append_cancel_left h
    rw [bitsOf, List.flatMap_singleton] at hcancel
    exact hcancel
  have hback := toBits_ofBits used
  have hlt := ofBits_lt used
  rw [hused] at hback hlt
  have h8 : 8 - n + n = 8 := Nat.sub_add_cancel (Nat.le_of_lt hn)
  have hvalue : last.toNat = ofBits used * 2 ^ n := by
    have hzeros := toBits_shift (8 - n) n (ofBits used)
    have hmul := Nat.mul_lt_mul_of_pos_right hlt (Nat.two_pow_pos n)
    rw [← Nat.pow_add, h8] at hmul
    rw [hback, h8, ← hlast] at hzeros
    have hnumber := congrArg ofBits hzeros
    rw [ofBits_toBits, ofBits_toBits, Nat.mod_eq_of_lt hmul,
      Nat.mod_eq_of_lt last.toNat_lt] at hnumber
    exact hnumber.symm
  have hoctet : y < 2 ^ 8 :=
    Nat.lt_of_lt_of_le hy (Nat.pow_le_pow_right (by decide) (Nat.le_of_lt hn))
  have hor : (last ||| UInt8.ofNat y).toNat = ofBits used * 2 ^ n + y := by
    rw [UInt8.toNat_or, UInt8.toNat_ofNat', Nat.mod_eq_of_lt hoctet, hvalue, Nat.mul_comm,
      Nat.two_pow_add_eq_or_of_lt hy]
  rw [hinit, List.modifyLast_concat, bitsOf_append, hsplit, List.append_assoc]
  congr 1
  rw [bitsOf, List.flatMap_singleton, hor, ← h8, toBits_add, ← toBits_mod n (_ + _),
    Nat.mul_comm, Nat.mul_add_div (Nat.two_pow_pos n), Nat.div_eq_of_lt hy, Nat.add_zero,
    hback, Nat.mul_add_mod, toBits_mod]

/-- Bits are written behind those that have been. -/
theorem Holds.writeBits (h : o.Holds bits) (v : ℕ) {c : ℕ} (hc : c ≤ 8) :
  (o.writeBits v c).Holds (bits ++ toBits c v)
  := by
  obtain ⟨n, hn, hbuffer⟩ := h.rest
  have hset := h.bitsSet_eq
  have hlength := congrArg List.length hbuffer
  rw [List.length_append, length_bitsOf, List.length_replicate] at hlength
  have hshifted : toBits 8 ((v <<< (8 - c)) % 256)
      = toBits c v ++ List.replicate (8 - c) false := by
    have hshift := toBits_shift c (8 - c) v
    rw [Nat.add_sub_cancel' hc] at hshift
    rw [← hshift, Nat.shiftLeft_eq]
    exact toBits_mod 8 _
  constructor
  · rw [List.length_append, length_toBits, ← hset]
    rfl
  · rw [BitOStream.writeBits, hset]
    have hx : (v <<< (8 - c)) % 256 < 2 ^ 8 := Nat.mod_lt _ (by decide)
    generalize (v <<< (8 - c)) % 256 = x at hshifted hx ⊢
    by_cases hcount : bits.length % 8 = 0
    · -- The octets are full.
      obtain rfl : n = 0 := by omega
      rw [List.replicate_zero, List.append_nil] at hbuffer
      simp only [hcount, ne_eq, not_true_eq_false, if_false, Nat.shiftLeft_zero]
      split
      next hpos =>
        refine ⟨8 - c, by omega, ?_⟩
        rw [bitsOf_append, bitsOf_singleton, hbuffer, hshifted, List.append_assoc]
      next hzero =>
        obtain rfl : c = 0 := by omega
        refine ⟨0, by decide, ?_⟩
        rw [hbuffer, toBits, List.append_nil, List.replicate_zero, List.append_nil]
    · -- The last octet has room for some of the bits.
      generalize hr : bits.length % 8 = r at hcount ⊢
      have hrn : r + n = 8 := by omega
      rw [if_pos hcount, if_pos hcount, (by omega : 8 - r = n)]
      dsimp only
      have hhigh : x >>> r < 2 ^ n := by
        rw [Nat.shiftRight_eq_div_pow, Nat.div_lt_iff_lt_mul (Nat.two_pow_pos r), ← Nat.pow_add,
          Nat.add_comm, hrn]
        exact hx
      have hfilled := bitsOf_modifyLast (by omega) hn hbuffer hhigh
      have hbits : toBits 8 x = toBits n (x >>> r) ++ toBits r x := by
        rw [← hrn, Nat.add_comm, toBits_add, Nat.shiftRight_eq_div_pow]
      split
      next hmore =>
        refine ⟨8 - c + n, by omega, ?_⟩
        have hpushed : toBits 8 (x <<< n) = toBits r x ++ List.replicate n false := by
          rw [Nat.shiftLeft_eq, ← toBits_shift, hrn]
        rw [bitsOf_append, hfilled, bitsOf_singleton, hpushed, List.append_assoc,
          ← List.append_assoc (toBits n _), ← hbits, hshifted, List.append_assoc,
          List.append_assoc, List.replicate_append_replicate]
      next hfits =>
        refine ⟨n - c, by omega, ?_⟩
        have hfirst := congrArg (List.take n) hbits
        rw [List.take_left' (length_toBits n _), hshifted, List.take_append, length_toBits,
          List.take_of_length_le (by rw [length_toBits]; omega), List.take_replicate,
          Nat.min_eq_left (by omega)] at hfirst
        rw [hfilled, ← hfirst, List.append_assoc]

/-- A stream that has written whole octets behind others. -/
theorem Holds.eq_append {b : Octets} (h : o.Holds (bitsOf b ++ bits))
    (hbits : bits.length % 8 = 0) :
  ∃ payload, o = new (b ++ payload) ∧ bitsOf payload = bits
  := by
  obtain ⟨n, hn, hbuffer⟩ := h.rest
  have hlength := congrArg List.length hbuffer
  rw [List.length_append, List.length_append, length_bitsOf, length_bitsOf,
    List.length_replicate] at hlength
  obtain rfl : n = 0 := by omega
  rw [List.replicate_zero, List.append_nil] at hbuffer
  have hpayload : bitsOf (o.buffer.drop b.length) = bits := by
    rw [bitsOf_drop, hbuffer, List.drop_left' (length_bitsOf b)]
  refine ⟨o.buffer.drop b.length, ?_, hpayload⟩
  apply Holds.eq_new
  rw [bitsOf_append, hpayload]
  exact h

end BitOStream

theorem toBits_mod_octet {c : ℕ} (hc : c ≤ 8) (v : ℕ) :
  toBits c (v % 256) = toBits c v
  := by
  have hdvd : 2 ^ c ∣ 256 := Nat.pow_dvd_pow 2 hc
  rw [← toBits_mod c (v % 256), Nat.mod_mod_of_dvd v hdvd, toBits_mod]

/-- The bits that a step writes and those that are left are those that were left before. -/
theorem writeBitsAbove_holds (hc above : ℕ) (state : BitOStream × ℕ) (h : state.1.Holds bits)
    (hleft : state.2 ≤ above + 8) :
  ∃ bits', (writeBitsAbove hc above state).1.Holds bits'
    ∧ bits' ++ toBits (writeBitsAbove hc above state).2 hc = bits ++ toBits state.2 hc
    ∧ (writeBitsAbove hc above state).2 ≤ above
  := by
  rw [writeBitsAbove]
  split
  next hmore =>
    refine ⟨_, h.writeBits _ (by omega), ?_, Nat.le_refl above⟩
    dsimp only
    have hsplit := toBits_add (state.2 - above) above hc
    rw [Nat.sub_add_cancel (Nat.le_of_lt hmore)] at hsplit
    rw [hsplit, toBits_mod_octet (by omega), Nat.shiftRight_eq_div_pow, List.append_assoc]
  next hnone => exact ⟨bits, h, rfl, Nat.le_of_not_lt hnone⟩

/-- A code is written. -/
theorem writeHuffmanCode_holds {o : BitOStream} (h : o.Holds bits) {s : CodeEntry}
    (hs : s.bitLength ≤ 32) :
  (writeHuffmanCode o s).Holds (bits ++ s.bits)
  := by
  rw [writeHuffmanCode, CodeEntry.bits, top, ← Nat.shiftRight_eq_div_pow]
  generalize s.huffmanCode >>> (32 - s.bitLength) = hc
  obtain ⟨bits₁, h₁, heq₁, hleft₁⟩ :=
    writeBitsAbove_holds hc 24 (o, s.bitLength) h hs
  obtain ⟨bits₂, h₂, heq₂, hleft₂⟩ := writeBitsAbove_holds hc 16 _ h₁ hleft₁
  obtain ⟨bits₃, h₃, heq₃, hleft₃⟩ := writeBitsAbove_holds hc 8 _ h₂ hleft₂
  have hlast := h₃.writeBits (hc % 256) hleft₃
  rw [toBits_mod_octet hleft₃, heq₃, heq₂, heq₁] at hlast
  exact hlast

/-- The codes of octets are written. -/
theorem foldl_writeHuffmanCode_holds {o : BitOStream} (h : o.Holds bits) (octets : Octets) :
  (octets.foldl (fun o c => writeHuffmanCode o (staticHuffmanCodeTable.getD c.toNat ⟨0, 0, 0⟩))
    o).Holds (bits ++ codeBits octets)
  := by
  induction octets generalizing o bits with
  | nil =>
    rw [codeBits, List.flatMap_nil, List.append_nil]
    exact h
  | cons c octets ih =>
    rw [List.foldl_cons, codeBits, List.flatMap_cons, ← List.append_assoc]
    apply ih
    exact writeHuffmanCode_holds h (completeCodes.len_le _ (octetEntry_mem c))

/-- The loop with an `int` comes to all octets where there are fewer than `2 ^ 31`, and to none
where there are as many as `2 ^ 31` and fewer than `2 ^ 32`. -/
theorem octetsToInt_of_lt (h : octets.length < 2 ^ 31) :
  octetsToInt octets = octets
  := by
  have hint : (Int.bmod octets.length (2 ^ 32)).toNat = octets.length := by
    rw [Int.bmod_eq_of_le_mul_two (by omega) (by omega)]
    rfl
  rw [octetsToInt, hint, List.take_length]

theorem octetsToInt_of_le (h : 2 ^ 31 ≤ octets.length) (hlt : octets.length < 2 ^ 32) :
  octetsToInt octets = []
  := by
  have hint : Int.bmod octets.length (2 ^ 32) < 0 := by
    rw [Int.bmod_def]
    omega
  rw [octetsToInt, Int.toNat_of_nonpos (Int.le_of_lt hint), List.take_zero]

/-- Octets behind whole octets are encoded: the codes, and ones up to the end of an octet. -/
theorem huffmanEncodeString_new (b octets : Octets) :
  ∃ payload, huffmanEncodeString octets (.new b) = .new (b ++ payload)
    ∧ Encodes (bitsOf payload) (octetsToInt octets)
  := by
  have hcodes := foldl_writeHuffmanCode_holds (BitOStream.holds_new b) (octetsToInt octets)
  rw [huffmanEncodeString]
  generalize (octetsToInt octets).foldl (fun o c => writeHuffmanCode o
    (staticHuffmanCodeTable.getD c.toNat ⟨0, 0, 0⟩)) (BitOStream.new b) = o at hcodes ⊢
  have hset : o.bitLength = 8 * b.length + (codeBits (octetsToInt octets)).length := by
    rw [BitOStream.bitLength, hcodes.bitsSet_eq, List.length_append, length_bitsOf]
  split
  next hpart =>
    have hones : ∀ k ≤ 8, toBits k 0xff = List.replicate k true := by decide
    have hpadded := hcodes.writeBits 0xff
      (Nat.sub_le 8 (o.bitLength % 8) : 8 - o.bitLength % 8 ≤ 8)
    rw [hones _ (Nat.sub_le _ _), List.append_assoc] at hpadded
    obtain ⟨payload, hnew, hbits⟩ := hpadded.eq_append (by
      rw [List.length_append, List.length_replicate]
      omega)
    use payload, hnew, 8 - o.bitLength % 8
    constructor
    · omega
    · apply hbits
  next hwhole =>
    obtain ⟨payload, hnew, hbits⟩ := hcodes.eq_append (by omega)
    use payload, hnew, 0, by decide
    rw [hbits, List.replicate_zero, List.append_nil]

theorem charToInt_of_lt {c : UInt8} (h : c.toNat < 128) :
  charToInt c = c.toNat
  := Int.bmod_eq_of_le_mul_two (by omega) (by omega)

theorem charToInt_neg {c : UInt8} (h : ¬ c.toNat < 128) :
  charToInt c < 0
  := by
  have hc := c.toNat_lt
  have hbmod := Int.bmod_def c.toNat (2 ^ 8)
  change Int.bmod c.toNat (2 ^ 8) < 0
  rw [if_neg (by omega)] at hbmod
  omega

/-- The bits of the codes are counted, unless an octet is taken for a negative index. -/
theorem huffmanEncodedBitLength_eq (octets : Octets) :
  huffmanEncodedBitLength octets
    = if ∀ c ∈ octetsToInt octets, c.toNat < 128 then
        some (codeBits (octetsToInt octets)).length
      else none
  := by
  have hfold : ∀ (octets : Octets) (n : ℕ),
      octets.foldlM (fun bitLength c =>
        if charToInt c < 0 then none
        else (staticHuffmanCodeTable[(charToInt c).toNat]?).map (bitLength + ·.bitLength)) n
      = if ∀ c ∈ octets, c.toNat < 128 then some (n + (codeBits octets).length) else none := by
    intro octets
    induction octets with
    | nil =>
      intro n
      rw [if_pos (fun c hc => nomatch hc)]
      rfl
    | cons c octets ih =>
      intro n
      have hcons : codeBits (c :: octets) = (octetEntry c).bits ++ codeBits octets :=
        List.flatMap_cons
      rw [List.foldlM_cons, hcons, List.length_append, CodeEntry.length_bits, ← Nat.add_assoc]
      by_cases hc : c.toNat < 128
      · have hnonneg : ¬ ((c.toNat : ℤ) < 0) := by omega
        rw [charToInt_of_lt hc, if_neg hnonneg, Int.toNat_natCast, getElem?_octetEntry]
        simp only [List.forall_mem_cons, hc, true_and]
        exact ih _
      · rw [if_pos (charToInt_neg hc), if_neg]
        · rfl
        · intro hall
          apply hc (hall c List.mem_cons_self)
  rw [huffmanEncodedBitLength, hfold, Nat.zero_add]

/-! ### Literals -/

/-- `write(QByteArrayView, bool)` with the code of `huffman.cpp`; none where a code is looked up
outside the table. -/
def BitOStream.write (o : BitOStream) (src : Octets) (compressed : Bool) : Option BitOStream := do
  let byteLen := src.length % 2 ^ 32
  let o ←
    if compressed ∧ byteLen ≠ 0 then do
      let bitLen ← huffmanEncodedBitLength src
      some ((o.writeBits 1 1).writeInteger ((bitLen + 7) / 8 % 2 ^ 32))
    else some ((o.writeBits 0 1).writeInteger byteLen)
  if compressed then some (huffmanEncodeString src o)
  else some { buffer := o.buffer ++ src, bitsSet := o.bitsSet + 8 * src.length }

/-- `huffman_decode_string`: whether the bits are valid, the stream and the output then. -/
def huffmanDecodeString (inputStream : BitIStream) (outputBuffer : Octets) :
    Option (Bool × BitIStream × Octets) := do
  (← HuffmanDecoder.new).decodeStream (inputStream.bits.length + 1) inputStream outputBuffer

/-- `read(QByteArray *)` with the code of `huffman.cpp`: whether a literal is read, the stream and
the array then. -/
def BitIStream.read (s : BitIStream) (dst : Octets) : Option (Bool × BitIStream × Octets) :=
  let oldOffset := s.offset
  let (bits, compressed) := s.peekBits 8 s.offset 1
  let (skipped, s') := s.skipBits 1
  if bits ≠ 1 ∨ !skipped then some (false, s.setError .notEnoughData, dst)
  else
    match (s'.setError .noError).readInteger with
    | (none, s) => some (false, { s with offset := oldOffset }, dst)
    | (some len, s) =>
      if len ≤ (s.bitLength - s.offset) / 8 then
        let slice := (s.data.drop (s.offset / 8)).take len
        if compressed = 0 then some (true, { s with offset := s.offset + len * 8 }, slice)
        else do
          let (ok, _, dst) ← huffmanDecodeString (.new slice) dst
          if ok then some (true, { s with offset := s.offset + len * 8 }, dst)
          else some (false, { s.setError .compressionError with offset := oldOffset }, dst)
      else some (false, { s.setError .notEnoughData with offset := oldOffset }, dst)

/-- The octets of a literal stand for a string: as they are, or by their codes. -/
inductive Spells : (flag : ℕ) → (payload src : Octets) → Prop where
  | plain (src : Octets) : Spells 0 src src
  | coded {payload src : Octets} (h : Encodes (bitsOf payload) src) : Spells 1 payload src

/-- The number of octets that a string takes in a literal. -/
def payloadLength (compressed : Bool) (src : Octets) : ℕ :=
  if compressed then ((codeBits src).length + 7) / 8 else src.length

theorem Encodes.length_eq (h : Encodes (bitsOf payload) octets) :
  payload.length = ((codeBits octets).length + 7) / 8
  := by
  obtain ⟨n, hn, hbits⟩ := h
  have hlength := congrArg List.length hbits
  rw [length_bitsOf, List.length_append, List.length_replicate] at hlength
  omega

/-- The octets of a string are as many however they are spelled with the same flag. -/
theorem Spells.length_unique {payload' : Octets} (h : Spells flag payload src)
    (h' : Spells flag payload' src) :
  payload.length = payload'.length
  := by
  cases h with
  | plain =>
    cases h' with
    | plain => rfl
  | coded h =>
    cases h' with
    | coded h' => rw [h.length_eq, h'.length_eq]

/-- What is decoded from a slice into an empty array. -/
theorem huffmanDecodeString_new (payload : Octets) :
  ∃ ok s' octets, huffmanDecodeString (.new payload) [] = some (ok, s', octets)
    ∧ (ok = true → Encodes (bitsOf payload) octets)
    ∧ ∀ src, Encodes (bitsOf payload) src → ok = true ∧ octets = src
  := by
  obtain ⟨d, ok, s', octets, hnew, heq, hok, hunique⟩ :=
    decodeStream_accepts_iff (.new payload) [] 0
  change (ok = true ↔ ∃ src, Encodes (bitsOf payload) src) at hok
  change ∀ src, Encodes (bitsOf payload) src → src = octets at hunique
  use ok, s', octets
  constructor
  · rw [huffmanDecodeString, hnew]
    exact heq
  constructor
  · intro htrue
    obtain ⟨src, hsrc⟩ := hok.mp htrue
    rw [← hunique src hsrc]
    apply hsrc
  · intro src hsrc
    constructor
    · apply hok.mpr ⟨src, hsrc⟩
    · rw [hunique src hsrc]

namespace BitOStream

/-- Where the octets of an integer end is seen from them. -/
theorem continuation_inj {v w : ℕ} {l l' : Octets}
    (h : continuation v ++ l = continuation w ++ l') :
  v = w ∧ l = l'
  := by
  induction v using Nat.strongRecOn generalizing w with
  | ind v ih =>
    rw [continuation.eq_def v, continuation.eq_def w] at h
    split_ifs at h with hv hw hw
    · obtain ⟨hoctet, hrest⟩ := List.cons.inj h
      have hnumber := congrArg UInt8.toNat hoctet
      rw [UInt8.toNat_ofNat', UInt8.toNat_ofNat'] at hnumber
      obtain ⟨hdiv, hl⟩ := ih (v / 128) (by omega) hrest
      constructor
      · omega
      · apply hl
    · have hnumber := congrArg UInt8.toNat (List.cons.inj h).1
      rw [UInt8.toNat_ofNat', UInt8.toNat_ofNat'] at hnumber
      omega
    · have hnumber := congrArg UInt8.toNat (List.cons.inj h).1
      rw [UInt8.toNat_ofNat', UInt8.toNat_ofNat'] at hnumber
      omega
    · obtain ⟨hoctet, hrest⟩ := List.cons.inj h
      have hnumber := congrArg UInt8.toNat hoctet
      rw [UInt8.toNat_ofNat', UInt8.toNat_ofNat'] at hnumber
      constructor
      · omega
      · apply hrest

end BitOStream

/-- The flag and the number are seen from the octets of an integer behind a flag. -/
theorem integerOctets_inj {flag' v v' : ℕ} {l l' : Octets} (hflag : flag < 2) (hflag' : flag' < 2)
    (h : integerOctets 7 flag v ++ l = integerOctets 7 flag' v' ++ l') :
  flag = flag' ∧ v = v' ∧ l = l'
  := by
  rw [integerOctets, integerOctets] at h
  split_ifs at h with hv hv' hv'
  · obtain ⟨hoctet, hrest⟩ := List.cons.inj h
    have hnumber := congrArg UInt8.toNat hoctet
    rw [UInt8.toNat_ofNat', UInt8.toNat_ofNat'] at hnumber
    have hl : l = l' := hrest
    use by omega, by omega
  · have hnumber := congrArg UInt8.toNat (List.cons.inj h).1
    rw [UInt8.toNat_ofNat', UInt8.toNat_ofNat'] at hnumber
    omega
  · have hnumber := congrArg UInt8.toNat (List.cons.inj h).1
    rw [UInt8.toNat_ofNat', UInt8.toNat_ofNat'] at hnumber
    omega
  · obtain ⟨hoctet, hrest⟩ := List.cons.inj h
    have hnumber := congrArg UInt8.toNat hoctet
    rw [UInt8.toNat_ofNat', UInt8.toNat_ofNat'] at hnumber
    obtain ⟨hsub, hl⟩ := BitOStream.continuation_inj hrest
    use by omega, by omega

/-! ### Writing and reading -/

theorem write_plain (b src : Octets) (h : src.length < 2 ^ 32) :
  (BitOStream.new b).write src false = some (.new (b ++ integerOctets 7 0 src.length ++ src))
  := by
  have hinteger := BitOStream.writeInteger_pattern b (p := 0) (c := 1) (v := src.length)
    (by decide) (by decide) (by decide)
  rw [BitOStream.write, Nat.mod_eq_of_lt h]
  simp only [Bool.false_eq_true, false_and, if_false, Option.bind_eq_bind, Option.bind_some]
  rw [hinteger, BitOStream.new_append]

theorem write_nil (b : Octets) :
  (BitOStream.new b).write [] true = some (.new (b ++ integerOctets 7 0 0 ++ []))
  := by
  have hinteger := BitOStream.writeInteger_pattern b (p := 0) (c := 1) (v := 0)
    (by decide) (by decide) (by decide)
  have hencode := huffmanEncodeString_new (b ++ integerOctets 7 0 0) []
  obtain ⟨payload, hnew, hencodes⟩ := hencode
  obtain rfl : payload = [] := List.length_eq_zero_iff.mp hencodes.length_eq
  rw [BitOStream.write]
  simp only [List.length_nil, Nat.zero_mod, ne_eq, not_true_eq_false, and_false, if_false, if_true,
    Option.bind_eq_bind, Option.bind_some]
  rw [hinteger, hnew]

theorem write_coded (b : Octets) (hsrc : src ≠ []) (h : src.length < 2 ^ 32) :
  (BitOStream.new b).write src true = (huffmanEncodedBitLength src).map fun bitLen =>
    huffmanEncodeString src (.new (b ++ integerOctets 7 1 ((bitLen + 7) / 8 % 2 ^ 32)))
  := by
  have hinteger := fun v => BitOStream.writeInteger_pattern b (p := 1) (c := 1) (v := v)
    (by decide) (by decide) (by decide)
  have hpos : src.length ≠ 0 := mt List.length_eq_zero_iff.mp hsrc
  rw [BitOStream.write, Nat.mod_eq_of_lt h]
  simp only [hpos, ne_eq, not_false_eq_true, and_self, if_true, Option.bind_eq_bind, hinteger]
  cases huffmanEncodedBitLength src with
  | none => rfl
  | some bitLen => rfl

/-- An integer that is read leaves the octets as they are, and no error. -/
theorem BitIStream.readInteger_some {s s' : BitIStream} {v : ℕ} (h : s.readInteger = (some v, s')) :
  s' = ⟨s.data, s'.offset, .noError⟩
  := by
  rw [readInteger] at h
  split at h
  next => cases h
  next =>
    dsimp only at h
    split at h
    next => cases h; rfl
    next =>
      split at h
      next => cases h
      next => cases h; rfl

/-- `read(QByteArray *)` at the octet `x` that a literal begins with. -/
theorem BitIStream.read_eq {s : BitIStream} {k : ℕ} {x : UInt8} (hoffset : s.offset = 8 * k)
    (hdrop : s.data.drop k = x :: octets) (dst : Octets) :
  s.read dst =
    match (⟨s.data, 8 * k + 1, .noError⟩ : BitIStream).readInteger with
    | (none, s) => some (false, { s with offset := 8 * k }, dst)
    | (some len, s) =>
      if len ≤ (s.bitLength - s.offset) / 8 then
        let slice := (s.data.drop (s.offset / 8)).take len
        if x.toNat >>> 7 = 0 then some (true, { s with offset := s.offset + len * 8 }, slice)
        else do
          let (ok, _, dst) ← huffmanDecodeString (.new slice) dst
          if ok then some (true, { s with offset := s.offset + len * 8 }, dst)
          else some (false, { s.setError .compressionError with offset := 8 * k }, dst)
      else some (false, { s.setError .notEnoughData with offset := 8 * k }, dst)
  := by
  obtain ⟨hk, -, -⟩ := octet_of_drop hdrop
  have hskip : s.skipBits 1 = (true, { s with offset := 8 * k + 1 }) := by
    rw [skipBits, if_neg (by rw [bitLength, hoffset]; omega), hoffset]
  have hflag : ((x.toNat >>> 7) <<< 7) % 256 = 0 ↔ x.toNat >>> 7 = 0 := by
    have hx := x.toNat_lt
    rw [Nat.shiftLeft_eq, Nat.shiftRight_eq_div_pow]
    omega
  rw [read, hoffset, peekBits_octet hdrop (by decide) (by decide), hskip]
  simp only [ne_eq, not_true_eq_false, Bool.not_true, Bool.false_eq_true, or_self, if_false,
    setError, hflag]

/-- A literal is read back if and only if its length takes one octet or ends below the bit
`2 ^ 32`. -/
theorem read_literal_iff (b : Octets) (rest : Octets) (e : StreamError)
    (hspells : Spells flag payload src) (hsize : payload.length < 2 ^ 32) :
  (⟨b ++ integerOctets 7 flag payload.length ++ payload ++ rest, 8 * b.length, e⟩ :
      BitIStream).read []
      = some (true, ⟨b ++ integerOctets 7 flag payload.length ++ payload ++ rest,
        8 * (b ++ integerOctets 7 flag payload.length ++ payload).length, .noError⟩, src) ↔
    payload.length < 127 ∨ 8 * (b.length + (integerOctets 7 flag payload.length).length) < 2 ^ 32
  := by
  have hflag : flag < 2 := by
    cases hspells with
    | plain => decide
    | coded => decide
  have hwritten := readInteger_written_iff b 1 flag (UInt32.ofNat payload.length)
    (payload ++ rest) .noError
  have hnat : (UInt32.ofNat payload.length).toNat = payload.length := by
    rw [UInt32.toNat_ofNat', Nat.mod_eq_of_lt hsize]
  have hinteger : writtenInteger b 1 flag (UInt32.ofNat payload.length)
      = .new (b ++ integerOctets 7 flag payload.length) := by
    rw [writtenInteger, hnat]
    apply BitOStream.writeInteger_pattern b (by decide) (by decide) hflag
  rw [hinteger, hnat] at hwritten
  obtain ⟨x, octets, hfirst, htop⟩ := integerOctets_first 7 flag (by decide) hflag payload.length
  generalize integerOctets 7 flag payload.length = header at hwritten hfirst ⊢
  have hdrop : (b ++ header ++ payload ++ rest).drop b.length
      = x :: (octets ++ payload ++ rest) := by
    rw [List.append_assoc, List.append_assoc, List.drop_left, hfirst, List.append_assoc]
    rfl
  have hlength : (b ++ header ++ payload ++ rest).length
      = (b ++ header).length + payload.length + rest.length := by
    rw [List.length_append, List.length_append]
  have hbehind : (b ++ header ++ payload ++ rest).drop (b ++ header).length = payload ++ rest := by
    rw [List.append_assoc (b ++ header), List.drop_left]
  rw [BitOStream.new, ← List.append_assoc] at hwritten
  change (⟨b ++ header ++ payload ++ rest, 8 * b.length + 1, .noError⟩ : BitIStream).readInteger
      = (some payload.length,
        ⟨b ++ header ++ payload ++ rest, 8 * (b ++ header).length, .noError⟩) ↔
    payload.length < 127 ∨ 8 * (b ++ header).length < 2 ^ 32 at hwritten
  have hend : (b ++ header ++ payload).length = (b ++ header).length + payload.length :=
    List.length_append
  rw [← List.length_append, ← hwritten, BitIStream.read_eq rfl hdrop, hend]
  clear hwritten hend hfirst hdrop
  generalize b ++ header ++ payload ++ rest = data at hlength hbehind ⊢
  generalize (b ++ header).length = k at hlength hbehind ⊢
  constructor
  · intro hread
    rcases hint : (⟨data, 8 * b.length + 1, .noError⟩ : BitIStream).readInteger with ⟨len | len, s⟩
    · rw [hint] at hread
      cases hread
    · obtain ⟨data', stop, error⟩ := s
      obtain ⟨hsame, -, rfl⟩ := BitIStream.mk.inj (BitIStream.readInteger_some hint)
      obtain rfl : data = data' := hsame.symm
      rw [hint] at hread
      dsimp only at hread
      split at hread
      next henough =>
        -- What is read has as many octets as what was written.
        change len ≤ (8 * data.length - stop) / 8 at henough
        have hslice : ((data.drop (stop / 8)).take len).length = len := by
          rw [List.length_take, List.length_drop]
          omega
        generalize (data.drop (stop / 8)).take len = slice at hread hslice
        have hread : stop + len * 8 = 8 * (k + payload.length) ∧ Spells flag slice src := by
          rw [htop] at hread
          cases hspells with
          | plain =>
            rw [if_pos rfl, Option.some.injEq, Prod.mk.injEq, Prod.mk.injEq] at hread
            obtain ⟨-, hstream, rfl⟩ := hread
            use (BitIStream.mk.inj hstream).2.1, .plain _
          | coded =>
            obtain ⟨ok, s', octets', hdecode, hok, -⟩ := huffmanDecodeString_new slice
            rw [if_neg (by decide), hdecode] at hread
            cases ok with
            | false => cases hread
            | true =>
              rw [Option.bind_eq_bind, Option.bind_some] at hread
              dsimp only at hread
              rw [if_pos rfl, Option.some.injEq, Prod.mk.injEq, Prod.mk.injEq] at hread
              obtain ⟨-, hstream, rfl⟩ := hread
              use (BitIStream.mk.inj hstream).2.1, .coded (hok rfl)
        obtain ⟨hstop, hspells'⟩ := hread
        obtain rfl : len = payload.length := by
          rw [← hslice, hspells'.length_unique hspells]
        obtain rfl : stop = 8 * k := by omega
        rfl
      next => cases hread
  · intro hread
    have henough : payload.length ≤
        ((⟨data, 8 * k, .noError⟩ : BitIStream).bitLength - 8 * k) / 8 := by
      change payload.length ≤ (8 * data.length - 8 * k) / 8
      omega
    have hstop : 8 * k + payload.length * 8 = 8 * (k + payload.length) := by omega
    rw [hread]
    dsimp only
    rw [if_pos henough, Nat.mul_div_cancel_left _ (by decide), hbehind, List.take_left, hstop,
      htop]
    cases hspells with
    | plain => rw [if_pos rfl]
    | coded hencodes =>
      obtain ⟨ok, s', octets', hdecode, -, hunique⟩ := huffmanDecodeString_new payload
      obtain ⟨rfl, rfl⟩ := hunique src hencodes
      rw [if_neg (by decide), hdecode]
      rfl

/-- Behind the octets `b` a literal is written, with the number of its octets in front of them, and
is read back into an empty array, up to its end. -/
def ReadsBack (b src : Octets) (compressed : Bool) (rest : Octets) (e : StreamError) : Prop :=
  ∃ o flag payload, (BitOStream.new b).write src compressed = some o
    ∧ flag < 2 ∧ o = .new (b ++ integerOctets 7 flag payload.length ++ payload)
    ∧ (⟨o.buffer ++ rest, 8 * b.length, e⟩ : BitIStream).read []
      = some (true, ⟨o.buffer ++ rest, 8 * o.buffer.length, .noError⟩, src)

/-- The string has a Huffman code that the two passes over it agree on: all octets are nonnegative
as a `char`, the loops with an `int` come to them, and the octets of the code are counted in 32
bits. -/
def Encodable (src : Octets) : Prop :=
  (∀ c ∈ src, c.toNat < 128) ∧ src.length < 2 ^ 31 ∧ payloadLength true src < 2 ^ 32

/-- The length of a literal takes one octet, or ends below the bit `2 ^ 32`. -/
def LengthFits (b : Octets) (length : ℕ) : Prop :=
  length < 127 ∨ 8 * (b.length + (integerOctets 7 0 length).length) < 2 ^ 32

theorem length_integerOctets (n flag flag' v : ℕ) :
  (integerOctets n flag v).length = (integerOctets n flag' v).length
  := by
  rw [integerOctets, integerOctets]
  split
  · rfl
  · rfl

theorem readsBack_of_write {b : Octets} {compressed : Bool} (rest : Octets) (e : StreamError)
    (hspells : Spells flag payload src) (hsize : payload.length < 2 ^ 32)
    (hwrite : (BitOStream.new b).write src compressed
      = some (.new (b ++ integerOctets 7 flag payload.length ++ payload))) :
  ReadsBack b src compressed rest e ↔ LengthFits b payload.length
  := by
  have hflag : flag < 2 := by
    cases hspells with
    | plain => decide
    | coded => decide
  have hliteral := read_literal_iff b rest e hspells hsize
  rw [length_integerOctets 7 flag 0] at hliteral
  rw [LengthFits, ← hliteral]
  constructor
  · rintro ⟨o, flag', payload', ho, -, -, hread⟩
    rw [hwrite] at ho
    obtain rfl := Option.some.inj ho
    exact hread
  · intro hread
    exact ⟨_, flag, payload, hwrite, hflag, rfl, hread⟩

/-- A string to be compressed that is not empty is read back if and only if it is encodable and
its length is read back. -/
theorem readsBack_coded_iff (b : Octets) (rest : Octets) (e : StreamError) (hsrc : src ≠ [])
    (h : src.length < 2 ^ 32) :
  ReadsBack b src true rest e ↔ Encodable src ∧ LengthFits b (payloadLength true src)
  := by
  have hwrite := write_coded b hsrc h
  rw [huffmanEncodedBitLength_eq] at hwrite
  rcases Nat.lt_or_ge src.length (2 ^ 31) with hint | hint
  · rw [octetsToInt_of_lt hint] at hwrite
    by_cases hascii : ∀ c ∈ src, c.toNat < 128
    · rw [if_pos hascii, Option.map_some] at hwrite
      obtain ⟨payload, hnew, hencodes⟩ := huffmanEncodeString_new
        (b ++ integerOctets 7 1 (((codeBits src).length + 7) / 8 % 2 ^ 32)) src
      rw [octetsToInt_of_lt hint] at hencodes
      rw [hnew, ← hencodes.length_eq] at hwrite
      have hlength : payloadLength true src = payload.length := hencodes.length_eq.symm
      rw [Encodable, hlength]
      by_cases hsize : payload.length < 2 ^ 32
      · rw [Nat.mod_eq_of_lt hsize] at hwrite
        rw [readsBack_of_write rest e (.coded hencodes) hsize hwrite]
        constructor
        · intro hfits
          use ⟨hascii, hint, hsize⟩, hfits
        · rintro ⟨-, hfits⟩
          apply hfits
      · -- The length in front is cut off to 32 bits.
        constructor
        · rintro ⟨o, flag, payload', ho, hflag, rfl, -⟩
          rw [hwrite] at ho
          have hoctets := congrArg BitOStream.buffer (Option.some.inj ho)
          rw [BitOStream.new, BitOStream.new] at hoctets
          dsimp only at hoctets
          rw [List.append_assoc, List.append_assoc, List.append_cancel_left_eq] at hoctets
          obtain ⟨-, hcut, rfl⟩ := integerOctets_inj (by decide) hflag hoctets
          omega
        · rintro ⟨⟨-, -, hlt⟩, -⟩
          omega
    · -- An octet is taken for a negative index.
      rw [if_neg hascii, Option.map_none] at hwrite
      constructor
      · rintro ⟨o, -, -, ho, -⟩
        rw [hwrite] at ho
        cases ho
      · rintro ⟨⟨hall, -⟩, -⟩
        cases hascii hall
  · -- The loops come to no octet, and the empty string is read.
    rw [octetsToInt_of_le hint h, if_pos (by rintro c ⟨⟩), Option.map_some] at hwrite
    obtain ⟨payload, hnew, hencodes⟩ := huffmanEncodeString_new (b ++ integerOctets 7 1 0) src
    rw [octetsToInt_of_le hint h] at hencodes
    obtain rfl : payload = [] := List.length_eq_zero_iff.mp hencodes.length_eq
    constructor
    · rintro ⟨o, -, -, ho, -, -, hread⟩
      have hnew' : huffmanEncodeString src
          (.new (b ++ integerOctets 7 1 (((codeBits []).length + 7) / 8 % 2 ^ 32)))
          = .new (b ++ integerOctets 7 1 0 ++ []) := hnew
      rw [hwrite, hnew'] at ho
      obtain rfl := Option.some.inj ho
      have hempty := (read_literal_iff b rest e (.coded hencodes) (by decide)).mpr
        (.inl (by decide))
      have hboth := (hread.symm.trans hempty)
      rw [Option.some.injEq, Prod.mk.injEq, Prod.mk.injEq] at hboth
      cases hsrc hboth.2.2
    · rintro ⟨⟨-, hlt, -⟩, -⟩
      omega

/-- Which literals are read back as they were written: those whose string is not to be compressed,
is empty or is encodable, and whose length takes one octet or ends below the bit `2 ^ 32`. -/
theorem literal_readsBack_iff (b src : Octets) (compressed : Bool) (rest : Octets) (e : StreamError)
    (h : src.length < 2 ^ 32) :
  ReadsBack b src compressed rest e ↔
    (compressed = true → src ≠ [] → Encodable src) ∧ LengthFits b (payloadLength compressed src)
  := by
  cases compressed with
  | false =>
    rw [readsBack_of_write rest e (.plain src) h (write_plain b src h)]
    simp [payloadLength]
  | true =>
    by_cases h_src : src = []
    · subst h_src
      rw [readsBack_of_write rest e (.plain []) h (write_nil b)]
      simp [payloadLength, codeBits]
    · rw [readsBack_coded_iff b rest e h_src h]
      simp [h_src]

/-- The string of one letter is read back, compressed, from the beginning of a stream. -/
theorem literal_readsBack_letter :
  ReadsBack [] [97] true [] .noError
  := by
  apply (literal_readsBack_iff [] [97] true [] .noError (by decide)).mpr
  have h_length : payloadLength true [97] = 1 := by decide
  constructor
  · intro _ _
    use List.forall_mem_singleton.mpr (by decide), by decide
    rw [h_length]
    decide
  · rw [h_length]
    left
    decide

/-- The octet 128 is taken for the index -128 when the bits of its code are counted. -/
theorem literal_outside_table :
  (BitOStream.new []).write [128] true = none ∧ ¬ ReadsBack [] [128] true [] .noError
  := by
  have h_octet : ¬ ∀ c ∈ ([128] : Octets), c.toNat < 128 := by
    intro h_all
    revert h_all
    rw [List.forall_mem_singleton]
    decide
  have h_write : (BitOStream.new []).write [128] true = none := by
    rw [write_coded [] (by decide) (by decide), huffmanEncodedBitLength_eq,
      octetsToInt_of_lt (by decide), if_neg h_octet, Option.map_none]
  use h_write
  rintro ⟨o, -, -, h_o, -⟩
  rw [h_write] at h_o
  cases h_o

end HPack
