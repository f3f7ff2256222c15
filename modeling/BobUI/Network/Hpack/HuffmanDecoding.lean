import BobUI.Network.Hpack.HuffmanLookup
import BobUI.Library.Bits

/-!
# Decoding

`decodeStream` takes the next 32 bits of a stream, or those that are left with zeros behind them,
and looks them up.  What is left when no whole code is there any more has to be padding.  The code
of `EOS` is all ones, and longer than padding may be, so that padding is no code, and bits are the
codes of one string of octets only.
-/

namespace HPack

open PrefixCode Bits HuffmanDecoder

/-! ### The bits of a stream -/

/-- The bits of octets, the top bit of each first. -/
def bitsOf (octets : Octets) : List Bool :=
  octets.flatMap fun octet => toBits 8 octet.toNat

@[simp]
theorem length_bitsOf (octets : Octets) :
  (bitsOf octets).length = 8 * octets.length
  := by
  induction octets with
  | nil => rfl
  | cons octet octets ih =>
    rw [bitsOf, List.flatMap_cons, List.length_append, length_toBits, List.length_cons]
    change 8 + (bitsOf octets).length = _
    rw [ih]
    ring

theorem bitsOf_drop (octets : Octets) (k : ℕ) :
  bitsOf (octets.drop k) = (bitsOf octets).drop (8 * k)
  := by
  have hsplit : bitsOf octets = bitsOf (octets.take k) ++ bitsOf (octets.drop k) := by
    rw [bitsOf, bitsOf, bitsOf, ← List.flatMap_append, List.take_append_drop]
  rcases Nat.lt_or_ge k octets.length with hk | hk
  · rw [hsplit, List.drop_left']
    rw [length_bitsOf, List.length_take, Nat.min_eq_left (Nat.le_of_lt hk)]
  · rw [List.drop_eq_nil_of_le hk, List.drop_eq_nil_of_le (by rw [length_bitsOf]; omega)]
    rfl

namespace BitIStream

/-- The bits of a stream from its offset on. -/
def bits (s : BitIStream) : List Bool :=
  (bitsOf s.data).drop s.offset

theorem length_bits (s : BitIStream) :
  s.bits.length = s.bitLength - s.offset
  := by
  rw [bits, List.length_drop, length_bitsOf, bitLength]

theorem bits_eq_nil_iff (s : BitIStream) :
  s.bits = [] ↔ s.bitLength ≤ s.offset
  := by
  rw [← List.length_eq_zero_iff, length_bits, Nat.sub_eq_zero_iff_le]

theorem bits_add (s : BitIStream) (n : ℕ) :
  ({ s with offset := s.offset + n } : BitIStream).bits = s.bits.drop n
  := by
  rw [bits, bits, List.drop_drop]

theorem skipBits_eq {s : BitIStream} {n : ℕ} (hpos : 0 < n) (h : n ≤ s.bits.length) :
  s.skipBits n = (true, { s with offset := s.offset + n })
  := by
  rw [length_bits] at h
  rw [skipBits, if_neg (by omega)]

/-- The loop of `peekBits` cuts the bits out. -/
theorem peekOctets_eq {width : ℕ} (hwidth : 8 ≤ width) {octets : Octets} {n : ℕ} (hpos : 0 < n)
    (hn : n ≤ 8 * octets.length) (dst : ℕ) (hdst : dst < 2 ^ width) :
  peekOctets width octets n dst
    = (dst * 2 ^ n + ofBits ((bitsOf octets).take n)) % 2 ^ width
  := by
  induction octets generalizing n dst with
  | nil =>
    rw [List.length_nil] at hn
    omega
  | cons octet octets ih =>
    have hoctet := octet.toNat_lt
    have hbits : bitsOf (octet :: octets) = toBits 8 octet.toNat ++ bitsOf octets := rfl
    rw [peekOctets, hbits]
    split
    next hmore =>
      have hor : (dst <<< 8 ||| octet.toNat) = dst * 2 ^ 8 + octet.toNat := by
        rw [Nat.shiftLeft_eq, Nat.mul_comm, Nat.two_pow_add_eq_or_of_lt hoctet]
      have htake : (toBits 8 octet.toNat ++ bitsOf octets).take n
          = toBits 8 octet.toNat ++ (bitsOf octets).take (n - 8) := by
        rw [List.take_append, length_toBits,
          List.take_of_length_le (by rw [length_toBits]; omega)]
      have hlength : ((bitsOf octets).take (n - 8)).length = n - 8 := by
        rw [List.length_take, length_bitsOf]
        rw [List.length_cons] at hn
        omega
      have hpow : 2 ^ n = 2 ^ 8 * 2 ^ (n - 8) := by
        rw [← Nat.pow_add, Nat.add_sub_cancel' (Nat.le_of_lt hmore)]
      rw [ih (by omega) (by rw [List.length_cons] at hn; omega) _
        (Nat.mod_lt _ (Nat.two_pow_pos _)), hor, htake, ofBits_append, hlength, ofBits_toBits,
        Nat.mod_eq_of_lt hoctet, Nat.add_mod, Nat.mod_mul_mod, ← Nat.add_mod, hpow]
      congr 1
      ring
    next hlast =>
      have hn8 : n ≤ 8 := Nat.le_of_not_lt hlast
      have htake : (toBits 8 octet.toNat ++ bitsOf octets).take n
          = (toBits 8 octet.toNat).take n := by
        rw [List.take_append_of_le_length (by rw [length_toBits]; exact hn8)]
      have hvalue : ofBits ((toBits 8 octet.toNat).take n) = octet.toNat >>> (8 - n) := by
        rw [ofBits_take, ofBits_toBits, length_toBits, Nat.mod_eq_of_lt hoctet,
          Nat.shiftRight_eq_div_pow]
      have hlt := ofBits_lt ((toBits 8 octet.toNat).take n)
      have hlength : ((toBits 8 octet.toNat).take n).length = n := by
        rw [List.length_take, length_toBits, Nat.min_eq_left hn8]
      have hpow : 2 ^ width = 2 ^ n * 2 ^ (width - n) := by
        rw [← Nat.pow_add, Nat.add_sub_cancel' (Nat.le_trans hn8 hwidth)]
      rw [hlength, hvalue] at hlt
      rw [htake, hvalue, Nat.shiftLeft_eq, Nat.mul_comm, hpow, Nat.mul_mod_mul_left,
        ← Nat.two_pow_add_eq_or_of_lt hlt, Nat.mod_mul, Nat.mul_add_mod, Nat.mod_eq_of_lt hlt,
        Nat.mul_add_div (Nat.two_pow_pos n), Nat.div_eq_of_lt hlt, Nat.add_zero, Nat.add_comm]

/-- The bits at the offset of a stream, as many as a word has. -/
theorem peekBits_eq (s : BitIStream) :
  s.peekBits 32 s.offset 32 = (min 32 s.bits.length, word 32 s.bits)
  := by
  rw [peekBits]
  split
  next hend =>
    have hnil : s.bits = [] := by
      rw [bits_eq_nil_iff]
      omega
    rw [hnil]
    rfl
  next hmore =>
    have hlength := s.length_bits
    have hoffset : 8 * (s.offset / 8) + s.offset % 8 = s.offset := Nat.div_add_mod _ _
    have hdata : s.bitLength = 8 * s.data.length := rfl
    generalize hn : min 32 (s.bitLength - s.offset) = n
    have hn32 : n ≤ 32 := hn ▸ Nat.min_le_left _ _
    have htake : (((bitsOf s.data).drop (8 * (s.offset / 8))).take (n + s.offset % 8)).drop
        (s.offset % 8) = s.bits.take 32 := by
      rw [List.drop_take, List.drop_drop, Nat.add_sub_cancel, hoffset, ← hn, ← hlength]
      change s.bits.take (min 32 s.bits.length) = s.bits.take 32
      rw [List.take_eq_take_iff, Nat.min_assoc, Nat.min_self]
    have hcut := congrArg List.length htake
    rw [List.length_take, hlength, hn, List.length_drop] at hcut
    dsimp only
    rw [peekOctets_eq (by decide) (by omega) (by rw [List.length_drop]; omega) 0 (by decide),
      Nat.zero_mul, Nat.zero_add, bitsOf_drop, Prod.mk.injEq, word, List.length_take, hlength, hn]
    refine ⟨rfl, ?_⟩
    have hpow : 2 ^ 32 = 2 ^ n * 2 ^ (32 - n) := by
      rw [← Nat.pow_add, Nat.add_sub_cancel' hn32]
    have hdvd : 2 ^ n ∣ 2 ^ 32 := Nat.pow_dvd_pow 2 hn32
    rw [Nat.shiftLeft_eq, ← htake, ofBits_drop, hcut]
    conv_lhs => rw [hpow]
    rw [Nat.mul_mod_mul_right, ← hpow, Nat.mod_mod_of_dvd _ hdvd]

end BitIStream

/-! ### The language of the code -/

/-- The bits of a code. -/
def CodeEntry.bits (s : CodeEntry) : List Bool :=
  toBits s.bitLength (top 32 s.bitLength s.huffmanCode)

/-- The entry of an octet. -/
def octetEntry (c : UInt8) : CodeEntry :=
  staticHuffmanCodeTable.getD c.toNat ⟨0, 0, 0⟩

/-- The codes of octets, one behind the other. -/
def codeBits (octets : Octets) : List Bool :=
  octets.flatMap fun c => (octetEntry c).bits

/-- The bits are the codes of octets, and at most seven bits of padding, all ones. -/
def Encodes (bits : List Bool) (octets : Octets) : Prop :=
  ∃ n ≤ 7, bits = codeBits octets ++ List.replicate n true

/-- The entries are those of the octets, in their order, and that of `EOS`. -/
theorem byteValue_codeTable :
  staticHuffmanCodeTable.map CodeEntry.byteValue = List.range 257
  := by
  set_option maxRecDepth 10000 in
  decide

theorem length_codeTable :
  staticHuffmanCodeTable.length = 257
  := by
  rw [← List.length_map CodeEntry.byteValue, byteValue_codeTable, List.length_range]

variable {s : CodeEntry} {bits : List Bool}

theorem byteValue_eq {i : ℕ} (h : staticHuffmanCodeTable[i]? = some s) :
  s.byteValue = i
  := by
  have hmap : (staticHuffmanCodeTable.map CodeEntry.byteValue)[i]? = (List.range 257)[i]? := by
    rw [byteValue_codeTable]
  have hi := (List.getElem?_eq_some_iff.mp h).1
  rw [length_codeTable] at hi
  rw [List.getElem?_map, h, List.getElem?_range hi] at hmap
  exact Option.some.inj hmap

theorem getElem?_octetEntry (c : UInt8) :
  staticHuffmanCodeTable[c.toNat]? = some (octetEntry c)
  := by
  have hc : c.toNat < staticHuffmanCodeTable.length := by
    rw [length_codeTable]
    have hlt := c.toNat_lt
    omega
  rw [octetEntry, List.getD_eq_getElem _ _ hc, List.getElem?_eq_getElem hc]

theorem octetEntry_mem (c : UInt8) :
  octetEntry c ∈ staticHuffmanCodeTable
  := List.mem_of_getElem? (getElem?_octetEntry c)

@[simp]
theorem byteValue_octetEntry (c : UInt8) :
  (octetEntry c).byteValue = c.toNat
  := byteValue_eq (getElem?_octetEntry c)

/-- An entry is that of an octet, or that of `EOS`. -/
theorem mem_codeTable_cases (h : s ∈ staticHuffmanCodeTable) :
  s.byteValue = 256 ∨ s.byteValue < 256 ∧ octetEntry (UInt8.ofNat s.byteValue) = s
  := by
  obtain ⟨i, hi⟩ := List.mem_iff_getElem?.mp h
  have hvalue := byteValue_eq hi
  have hlt := (List.getElem?_eq_some_iff.mp hi).1
  rw [length_codeTable] at hlt
  rw [hvalue]
  by_cases heos : i = 256
  · exact .inl heos
  · have hoctet : i < 256 := by omega
    have hentry := getElem?_octetEntry (UInt8.ofNat i)
    rw [UInt8.toNat_ofNat', Nat.mod_eq_of_lt hoctet, hi] at hentry
    exact .inr ⟨hoctet, (Option.some.inj hentry).symm⟩

@[simp]
theorem CodeEntry.length_bits (s : CodeEntry) :
  s.bits.length = s.bitLength
  := length_toBits _ _

/-- A word begins with a code where the bits do. -/
theorem starts_word_iff (hs : s ∈ staticHuffmanCodeTable) (h : s.bitLength ≤ bits.length) :
  Starts (word 32 bits) s ↔ bits.take s.bitLength = s.bits
  := by
  have hw := completeCodes.len_le s hs
  have hlt := top_lt hw (completeCodes.code_lt s hs)
  rw [Starts, Begins, top_word_eq_iff h hw, CodeEntry.bits, and_iff_left hlt]

theorem starts_append (hs : s ∈ staticHuffmanCodeTable) (rest : List Bool) :
  Starts (word 32 (s.bits ++ rest)) s
  := by
  rw [starts_word_iff hs (by rw [List.length_append, s.length_bits]; exact Nat.le_add_right _ _),
    List.take_left' s.length_bits]

/-- Padding does not begin with a code: the code of all ones is longer. -/
theorem lt_of_starts_padding (hs : s ∈ staticHuffmanCodeTable) {n : ℕ} (hn : n ≤ 7)
    (h : Starts (word 32 (List.replicate n true)) s) :
  n < s.bitLength
  := by
  by_contra hlong
  have hlong := Nat.le_of_not_lt hlong
  have heos : ⟨256, 0xfffffffc, 30⟩ ∈ staticHuffmanCodeTable :=
    List.mem_of_getElem? (i := 256) rfl
  have hword : (0xfffffffc : ℕ) = word 32 (List.replicate 30 true) := by decide
  have hstarts : Starts (word 32 (List.replicate 30 true)) s := by
    have hle : s.bitLength ≤ (List.replicate n true).length := by
      rw [List.length_replicate]
      exact hlong
    have hle' : s.bitLength ≤ (List.replicate 30 true).length := by
      rw [List.length_replicate]
      omega
    rw [starts_word_iff hs hle, List.take_replicate, Nat.min_eq_left hlong] at h
    rw [starts_word_iff hs hle', List.take_replicate, Nat.min_eq_left (by omega)]
    exact h
  rw [← hword] at hstarts
  rw [completeCodes.unique _ s hs _ heos hstarts (starts_self _)] at hlong
  change 30 ≤ n at hlong
  omega

theorem paddingIsValid_iff (h : bits.length ≤ 32) :
  paddingIsValid (word 32 bits) bits.length = true
    ↔ ∃ n ≤ 7, bits = List.replicate n true
  := by
  rw [paddingIsValid]
  split
  next hlong =>
    constructor
    · intro hfalse
      cases hfalse
    · rintro ⟨n, hn, rfl⟩
      rw [List.length_replicate] at hlong
      omega
  next hshort =>
    have htop := top_word (Nat.le_refl bits.length) h
    rw [top, List.take_length] at htop
    rw [decide_eq_true_eq, Nat.shiftRight_eq_div_pow, htop, Nat.shiftLeft_eq, Nat.one_mul]
    constructor
    · intro hones
      refine ⟨bits.length, Nat.le_of_not_lt hshort, ?_⟩
      apply ofBits_inj
      · rw [List.length_replicate]
      · rw [hones, ofBits_replicate_true]
    · rintro ⟨n, -, rfl⟩
      rw [ofBits_replicate_true, List.length_replicate]

/-- Bits that begin with no code are those of octets only where they are padding. -/
theorem encodes_of_short (hs : s ∈ staticHuffmanCodeTable) (hstarts : Starts (word 32 bits) s)
    (hshort : bits.length < s.bitLength) (octets : Octets) :
  Encodes bits octets ↔ octets = [] ∧ ∃ n ≤ 7, bits = List.replicate n true
  := by
  constructor
  · rintro ⟨n, hn, rfl⟩
    cases octets with
    | nil => exact ⟨rfl, n, hn, rfl⟩
    | cons c octets =>
      exfalso
      rw [codeBits, List.flatMap_cons, List.append_assoc] at hstarts hshort
      rw [completeCodes.unique _ s hs _ (octetEntry_mem c) hstarts
        (starts_append (octetEntry_mem c) _), List.length_append,
        CodeEntry.length_bits] at hshort
      omega
  · rintro ⟨rfl, n, hn, rfl⟩
    exact ⟨n, hn, rfl⟩

/-- Bits that begin with a code are those of octets only where it is that of the first one. -/
theorem encodes_of_starts (hs : s ∈ staticHuffmanCodeTable) (rest : List Bool) (octets : Octets) :
  Encodes (s.bits ++ rest) octets
    ↔ ∃ c octets', octets = c :: octets' ∧ octetEntry c = s ∧ Encodes rest octets'
  := by
  have hstarts := starts_append hs rest
  constructor
  · rintro ⟨n, hn, heq⟩
    rw [heq] at hstarts
    cases octets with
    | nil =>
      exfalso
      have hlong := lt_of_starts_padding hs hn hstarts
      have hlength := congrArg List.length heq
      rw [List.length_append, CodeEntry.length_bits] at hlength
      change _ = (List.replicate n true).length at hlength
      rw [List.length_replicate] at hlength
      omega
    | cons c octets =>
      rw [codeBits, List.flatMap_cons, List.append_assoc] at hstarts heq
      have hentry := completeCodes.unique _ s hs _ (octetEntry_mem c) hstarts
        (starts_append (octetEntry_mem c) _)
      rw [← hentry] at heq
      exact ⟨c, octets, rfl, hentry.symm, n, hn, List.append_cancel_left heq⟩
  · rintro ⟨c, octets', rfl, rfl, n, hn, rfl⟩
    refine ⟨n, hn, ?_⟩
    rw [codeBits, codeBits, List.flatMap_cons, List.append_assoc]

theorem encodes_nil_iff (octets : Octets) :
  Encodes [] octets ↔ octets = []
  := by
  obtain ⟨s, hs, hstarts⟩ := completeCodes.begins (word 32 []) (word_lt 32 [])
  rw [encodes_of_short hs hstarts (completeCodes.len_pos s hs)]
  exact ⟨fun h => h.1, fun h => ⟨h, 0, by decide, rfl⟩⟩

/-! ### The loop -/

variable {d : HuffmanDecoder} {path : ℕ → ℕ}

/-- One turn of `decodeStream`. -/
theorem decodeStream_succ (h : Decodes staticHuffmanCodeTable d path) (turns : ℕ)
    (s : BitIStream) (outputBuffer : Octets) :
  ∃ entry ∈ staticHuffmanCodeTable, Starts (word 32 s.bits) entry
    ∧ d.decodeStream (turns + 1) s outputBuffer
      = if s.bits = [] then some (true, s, outputBuffer)
        else if s.bits.length < entry.bitLength then
          some (paddingIsValid (word 32 s.bits) s.bits.length,
            { s with offset := s.offset + s.bits.length }, outputBuffer)
        else if entry.byteValue = 256 then
          some (false, { s with offset := s.offset + min 32 s.bits.length }, outputBuffer)
        else
          d.decodeStream turns { s with offset := s.offset + entry.bitLength }
            (outputBuffer ++ [UInt8.ofNat entry.byteValue])
  := by
  obtain ⟨entry, hentry, hstarts⟩ := completeCodes.begins _ (word_lt 32 s.bits)
  refine ⟨entry, hentry, hstarts, ?_⟩
  have hlong := completeCodes.len_le entry hentry
  have hpos := completeCodes.len_pos entry hentry
  have hmin := h.minCodeLength_le entry hentry
  rw [decodeStream, s.peekBits_eq]
  dsimp only
  by_cases hnil : s.bits = []
  · have hend : s.hasMoreBits = false := by
      rw [BitIStream.hasMoreBits, decide_eq_false_iff_not]
      exact Nat.not_lt_of_le (s.bits_eq_nil_iff.mp hnil)
    rw [if_pos hnil, hnil, hend]
    rfl
  · have hbits : 0 < s.bits.length := List.length_pos_iff.mpr hnil
    rw [if_neg hnil, if_neg (by omega)]
    have hskip : (s.skipBits (min 32 s.bits.length)).2
        = { s with offset := s.offset + min 32 s.bits.length } := by
      rw [s.skipBits_eq (by omega) (Nat.min_le_right _ _)]
    split
    next hfew =>
      have hshort : min 32 s.bits.length = s.bits.length := by omega
      rw [if_pos (by omega), hskip, hshort]
    next hmany =>
      obtain ⟨table, hroot, hzero⟩ := h.root
      have hcoded := h.coded 0 table hroot
      have hon : On path 0 table (word 32 s.bits) := by
        rw [On, hzero, top_zero (word_lt 32 _), top_zero (h.path_lt 0)]
      obtain ⟨first, hfirst⟩ := h.layout.exists_cell hroot
        (PrefixTable.entryIndex_lt hcoded (word 32 s.bits))
      obtain ⟨t, hfound⟩ := h.lookUp hroot hon hentry hstarts (Nat.le_add_left _ 0) hfirst
      have hindex : word 32 s.bits >>> (32 - table.indexLength)
          = table.entryIndex (word 32 s.bits) := by
        rw [PrefixTable.entryIndex, hzero, Nat.shiftLeft_zero, Nat.mod_eq_of_lt (word_lt 32 _)]
      rw [hroot]
      dsimp only [Option.bind_eq_bind, Option.bind_some]
      rw [hindex, ← cell_eq hroot, hfirst]
      dsimp only [Option.bind_some]
      rw [hfound]
      dsimp only [Option.bind_some]
      split
      next hlonger =>
        have hshort : min 32 s.bits.length = s.bits.length := by omega
        rw [if_pos (by omega), hskip, hshort]
      next hfits =>
        have henough : ¬ s.bits.length < entry.bitLength := by omega
        rw [if_neg henough]
        by_cases heos : entry.byteValue = 256
        · rw [if_pos (.inr heos), if_pos heos, hskip]
        · rw [if_neg (not_or.mpr ⟨Nat.ne_of_gt hpos, heos⟩), if_neg heos,
            s.skipBits_eq hpos (by omega)]

/-- `decodeStream` ends, with the octets that the bits are the codes of, or with those of which
the bits begin with the codes. -/
theorem decodeStream_ends (h : Decodes staticHuffmanCodeTable d path) (turns : ℕ)
    (s : BitIStream) (hturns : s.bits.length < turns) (outputBuffer : Octets) :
  ∃ ok s' octets, d.decodeStream turns s outputBuffer = some (ok, s', outputBuffer ++ octets)
    ∧ (ok = true ↔ ∃ octets', Encodes s.bits octets')
    ∧ ∀ octets', Encodes s.bits octets' → octets' = octets
  := by
  induction turns generalizing s outputBuffer with
  | zero => exact absurd hturns (Nat.not_lt_zero _)
  | succ turns ih =>
    obtain ⟨entry, hentry, hstarts, heq⟩ := decodeStream_succ h turns s outputBuffer
    have hpos := completeCodes.len_pos entry hentry
    rw [heq]
    split
    next hnil =>
      refine ⟨true, s, [], by rw [List.append_nil], ?_, ?_⟩
      · rw [hnil]
        exact iff_of_true rfl ⟨[], (encodes_nil_iff []).mpr rfl⟩
      · intro octets' hoctets'
        rw [hnil, encodes_nil_iff] at hoctets'
        exact hoctets'
    next hmore =>
      split
      next hshort =>
        have hlength := completeCodes.len_le entry hentry
        refine ⟨_, _, [], by rw [List.append_nil], ?_, ?_⟩
        · rw [paddingIsValid_iff (by omega)]
          simp only [encodes_of_short hentry hstarts hshort]
          exact ⟨fun hpadding => ⟨[], rfl, hpadding⟩, fun ⟨_, _, hpadding⟩ => hpadding⟩
        · intro octets' hoctets'
          exact ((encodes_of_short hentry hstarts hshort octets').mp hoctets').1
      next hlong =>
        have hlong := Nat.le_of_not_lt hlong
        have hsplit : s.bits = entry.bits ++ s.bits.drop entry.bitLength := by
          rw [← (starts_word_iff hentry hlong).mp hstarts, List.take_append_drop]
        have hencodes := encodes_of_starts hentry (s.bits.drop entry.bitLength)
        rw [← hsplit] at hencodes
        rcases mem_codeTable_cases hentry with heos | ⟨hoctet, hc⟩
        · -- No octet has the code of `EOS`.
          rw [if_pos heos]
          have hnone : ∀ octets', ¬ Encodes s.bits octets' := by
            intro octets' hoctets'
            obtain ⟨c, -, -, rfl, -⟩ := (hencodes octets').mp hoctets'
            rw [byteValue_octetEntry] at heos
            exact absurd heos (Nat.ne_of_lt c.toNat_lt)
          refine ⟨false, _, [], by rw [List.append_nil], ?_, ?_⟩
          · exact iff_of_false Bool.false_ne_true fun ⟨octets', h'⟩ => hnone octets' h'
          · intro octets' hoctets'
            exact absurd hoctets' (hnone octets')
        · rw [if_neg (Nat.ne_of_lt hoctet)]
          obtain ⟨ok, s', octets, hrest, hok, hunique⟩ := ih
            { s with offset := s.offset + entry.bitLength }
            (by
              rw [s.bits_add, List.length_drop]
              omega)
            (outputBuffer ++ [UInt8.ofNat entry.byteValue])
          rw [s.bits_add] at hok hunique
          refine ⟨ok, s', UInt8.ofNat entry.byteValue :: octets, ?_, ?_, ?_⟩
          · rw [hrest, List.append_assoc, List.singleton_append]
          · rw [hok]
            simp only [hencodes]
            constructor
            · rintro ⟨octets', hoctets'⟩
              exact ⟨_, _, octets', rfl, hc, hoctets'⟩
            · rintro ⟨_, _, octets', -, -, hoctets'⟩
              exact ⟨octets', hoctets'⟩
          · intro octets' hoctets'
            obtain ⟨c, rest, rfl, hc', hrest'⟩ := (hencodes octets').mp hoctets'
            rw [hunique rest hrest', ← hc', byteValue_octetEntry, UInt8.ofNat_toNat]

/-- `decodeStream` accepts the bits from any offset of any stream if and only if they are the codes
of octets and at most seven bits of padding, all ones.  It appends then the octets, of which there
are no others with these bits.  It ends after at most as many turns as there are bits and one
more. -/
theorem decodeStream_accepts_iff (s : BitIStream) (outputBuffer : Octets) (more : ℕ) :
  ∃ d ok s' octets, HuffmanDecoder.new = some d
    ∧ d.decodeStream (s.bits.length + 1 + more) s outputBuffer
      = some (ok, s', outputBuffer ++ octets)
    ∧ (ok = true ↔ ∃ octets', Encodes s.bits octets')
    ∧ ∀ octets', Encodes s.bits octets' → octets' = octets
  := by
  obtain ⟨d, path, h_new, h_decodes⟩ := HuffmanDecoder.new_ends
  obtain ⟨ok, s', octets, h_eq⟩ := decodeStream_ends h_decodes (s.bits.length + 1 + more) s
    (by omega) outputBuffer
  exact ⟨d, ok, s', octets, h_new, h_eq⟩

end HPack
