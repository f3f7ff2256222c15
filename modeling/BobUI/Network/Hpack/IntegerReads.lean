import BobUI.Network.Hpack.BitStreams

/-!
# Reading integers

Which integers `BitIStream::read(quint32 *)` reads as they stand in the buffer.  An integer
begins with the bits an octet has left and goes on, if these are all ones, with octets of seven
bits each.  The octets are read at an offset of 32 bits, and the sum is stored in 32 bits: both
come back to 0 without an error.
-/

namespace HPack

/-- The octets of an integer past its prefix: all but the last have the top bit set. -/
inductive Continuation : Octets → Prop where
  | last {x : UInt8} (h : x.toNat < 128) : Continuation [x]
  | more {x : UInt8} {l : Octets} (h : 128 ≤ x.toNat) (hl : Continuation l) :
    Continuation (x :: l)

/-- The number octets past a prefix stand for, the low bits first. -/
def continuationValue : Octets → ℕ
  | [] => 0
  | x :: l => x.toNat % 128 + 128 * continuationValue l

/-- The number of bits from an offset to the end of its octet. -/
def prefixLength (offset : ℕ) : ℕ := 8 - offset % 8

/-- The bits from an offset to the end of its octet. -/
def prefixBits (data : Octets) (offset : ℕ) : ℕ :=
  (data[offset / 8]!).toNat % 2 ^ prefixLength offset

/-- At the offset begins an integer of value `v`, which ends in front of the bit `stop`. -/
inductive PrefixInteger (data : Octets) (offset : ℕ) : (v stop : ℕ) → Prop where
  | short (h_in : offset < 8 * data.length)
      (h_bits : prefixBits data offset < 2 ^ prefixLength offset - 1) :
    PrefixInteger data offset (prefixBits data offset) (offset + prefixLength offset)
  | long {l rest : Octets} (h_in : offset < 8 * data.length)
      (h_bits : prefixBits data offset = 2 ^ prefixLength offset - 1) (hl : Continuation l)
      (h_drop : data.drop (offset / 8 + 1) = l ++ rest) :
    PrefixInteger data offset (2 ^ prefixLength offset - 1 + continuationValue l)
      (8 * (offset / 8 + 1 + l.length))

/-- A read gives the integer at the offset and goes past it, or it fails and stays. -/
def BitIStream.ReadsExactly (s : BitIStream) : Prop :=
  (∃ v, s.readInteger.1 = some v ∧ PrefixInteger s.data s.offset v s.readInteger.2.offset) ∨
    s.readInteger.1 = none ∧ s.readInteger.2.offset = s.offset

/-- The octets the running offset of 32 bits finds behind a full prefix end within five, and the
integer ends past the last offset of 32 bits, or is no number of 32 bits. -/
def Misread (data : Octets) (offset : ℕ) : Prop :=
  offset < 8 * data.length ∧ prefixBits data offset = 2 ^ prefixLength offset - 1 ∧
    ∃ l, Continuation l ∧ l.length ≤ 5 ∧ (∀ x, l[4]? = some x → x.toNat ≤ 15) ∧
      (∀ i < l.length, data[(offset / 8 + 1 + i) % 2 ^ 29]? = l[i]?) ∧
      (2 ^ 32 ≤ 8 * (offset / 8 + 1 + l.length) ∨
        2 ^ 32 ≤ 2 ^ prefixLength offset - 1 + continuationValue l)

theorem Continuation.length_pos {l : Octets} (h : Continuation l) :
  0 < l.length
  := by
  cases h with
  | last => apply Nat.one_pos
  | more => apply Nat.succ_pos

namespace BitIStream

variable {s : BitIStream}

/-- One octet of the loop. -/
theorem readContinuation_succ {turns k : ℕ} (val p : ℕ) {x : UInt8}
    (hoctet : s.data[k % 2 ^ 29]? = some x) (hturns : 7 * (turns + 1) + p = 35) :
  s.readContinuation (turns + 1) (8 * (k % 2 ^ 29)) val p =
    if turns = 0 ∧ 15 < x.toNat then .error .invalidInteger
    else if x.toNat < 128 then
      .ok ((val + x.toNat * 2 ^ p) % 2 ^ 32, 8 * ((k + 1) % 2 ^ 29))
    else
      s.readContinuation turns (8 * ((k + 1) % 2 ^ 29)) (val + x.toNat % 128 * 2 ^ p) (p + 7)
  := by
  obtain ⟨hin, hget⟩ := List.getElem?_eq_some_iff.mp hoctet
  have hlast : p = 28 ∧ x.toNat > 15 ↔ turns = 0 ∧ 15 < x.toNat := by omega
  have hend : ¬ 8 * (k % 2 ^ 29) ≥ s.bitLength := by
    rw [bitLength]
    omega
  have hdiv : 8 * (k % 2 ^ 29) / 8 = k % 2 ^ 29 := Nat.mul_div_cancel_left _ (by decide)
  have hnext : (8 * (k % 2 ^ 29) + 8) % 2 ^ 32 = 8 * ((k + 1) % 2 ^ 29) := by omega
  have htop := top_bit x.toNat x.toNat_lt
  rw [readContinuation, if_neg hend, hdiv, getElem!_pos s.data _ hin, hget]
  simp only [hlast, hnext, low_bits, htop, Nat.shiftLeft_eq]
  have hpart : ¬ (turns = 0 ∧ 15 < x.toNat) → x.toNat % 128 * 2 ^ p < 2 ^ 32 := by
    intro hfits
    by_cases hturns : turns = 0
    · obtain rfl : p = 28 := by omega
      omega
    · have hpow : 2 ^ p ≤ 2 ^ 21 := Nat.pow_le_pow_right (by decide) (by omega)
      have hlow : x.toNat % 128 ≤ 127 := by omega
      have hmul := Nat.mul_le_mul hlow hpow
      omega
  split_ifs with hbig hsmall
  · rfl
  · have hlow : x.toNat % 128 = x.toNat := Nat.mod_eq_of_lt hsmall
    have hsum := hpart hbig
    rw [hlow] at hsum ⊢
    rw [Nat.mod_eq_of_lt hsum]
  · rw [Nat.mod_eq_of_lt (hpart hbig)]

/-- The loop succeeds where the octets it finds end within its turns, the one at power 28 being
at most 15. -/
theorem readContinuation_eq_ok_iff (turns k val p v stop : ℕ) (hturns : 7 * turns + p = 35) :
  s.readContinuation turns (8 * (k % 2 ^ 29)) val p = .ok (v, stop) ↔
    ∃ l, Continuation l ∧ l.length ≤ turns ∧
      (∀ x, l[turns - 1]? = some x → x.toNat ≤ 15) ∧
      (∀ i < l.length, s.data[(k + i) % 2 ^ 29]? = l[i]?) ∧
      v = (val + continuationValue l * 2 ^ p) % 2 ^ 32 ∧ stop = 8 * ((k + l.length) % 2 ^ 29)
  := by
  induction turns generalizing k val p with
  | zero =>
    constructor
    · intro hok
      cases hok
    · rintro ⟨l, hl, hlength, -⟩
      have hpos := hl.length_pos
      omega
  | succ turns ih =>
    cases hoctet : s.data[k % 2 ^ 29]? with
    | none =>
      have hend : 8 * (k % 2 ^ 29) ≥ s.bitLength := by
        rw [List.getElem?_eq_none_iff] at hoctet
        rw [bitLength]
        omega
      rw [readContinuation, if_pos hend]
      constructor
      · intro hok
        cases hok
      · rintro ⟨l, hl, -, -, hfound, -⟩
        have hfirst := hfound 0 hl.length_pos
        rw [Nat.add_zero, hoctet, List.getElem?_eq_getElem hl.length_pos] at hfirst
        cases hfirst
    | some x =>
      rw [readContinuation_succ val p hoctet hturns]
      split_ifs with hbig hsmall
      · constructor
        · intro hok
          cases hok
        · rintro ⟨l, hl, hlength, hlast, hfound, -⟩
          have hfirst := hfound 0 hl.length_pos
          rw [Nat.add_zero, hoctet] at hfirst
          obtain ⟨rfl, hx⟩ := hbig
          have hle := hlast x hfirst.symm
          omega
      · constructor
        · intro hok
          obtain ⟨rfl, rfl⟩ := Prod.mk.inj (Except.ok.inj hok)
          use [x], .last hsmall
          constructor
          · simp
          constructor
          · intro y hy
            cases turns with
            | zero =>
              cases hy
              omega
            | succ turns => cases hy
          constructor
          · intro i hi
            obtain rfl : i = 0 := by simpa using hi
            apply hoctet
          · simp [continuationValue, Nat.mod_eq_of_lt hsmall]
        · rintro ⟨l, hl, -, -, hfound, rfl, rfl⟩
          have hfirst := hfound 0 hl.length_pos
          rw [Nat.add_zero, hoctet] at hfirst
          cases hl with
          | last hx =>
            cases hfirst
            simp [continuationValue, Nat.mod_eq_of_lt hsmall]
          | more hx hl =>
            cases hfirst
            omega
      · have hpow : 2 ^ (p + 7) = 128 * 2 ^ p := by rw [Nat.pow_add, Nat.mul_comm]
        have hvalue : ∀ l, val + x.toNat % 128 * 2 ^ p + continuationValue l * 2 ^ (p + 7)
            = val + continuationValue (x :: l) * 2 ^ p := by
          intro l
          rw [continuationValue, hpow]
          ring
        have hshift : ∀ i, (k + 1 + i) % 2 ^ 29 = (k + (i + 1)) % 2 ^ 29 := by
          intro i
          rw [Nat.add_assoc, Nat.add_comm 1]
        have hmore : 0 < turns := by
          by_contra hzero
          apply hbig
          omega
        have hindex : ∀ l : Octets, (x :: l)[turns]? = l[turns - 1]? := by
          intro l
          obtain ⟨n, rfl⟩ : ∃ n, turns = n + 1 := ⟨turns - 1, by omega⟩
          rfl
        rw [ih (k + 1) _ (p + 7) (by omega)]
        constructor
        · rintro ⟨l, hl, hlength, hlast, hfound, rfl, rfl⟩
          use x :: l, .more (by omega) hl
          constructor
          · apply Nat.succ_le_succ hlength
          constructor
          · rw [Nat.add_sub_cancel, hindex]
            apply hlast
          constructor
          · intro i hi
            cases i with
            | zero => apply hoctet
            | succ i =>
              rw [← hshift, List.getElem?_cons_succ]
              apply hfound i (Nat.lt_of_succ_lt_succ hi)
          · rw [hvalue, List.length_cons, hshift]
            simp
        · rintro ⟨l, hl, hlength, hlast, hfound, rfl, rfl⟩
          have hfirst := hfound 0 hl.length_pos
          rw [Nat.add_zero, hoctet] at hfirst
          cases hl with
          | last hx =>
            cases hfirst
            omega
          | more hx hl =>
            rename_i y l
            cases hfirst
            rw [Nat.add_sub_cancel, hindex] at hlast
            use l, hl
            constructor
            · apply Nat.le_of_succ_le_succ hlength
            constructor
            · apply hlast
            constructor
            · intro i hi
              rw [hshift, hfound (i + 1) (Nat.succ_lt_succ hi), List.getElem?_cons_succ]
            · rw [hvalue, List.length_cons, hshift]
              simp

/-- `read(quint32 *)` inside of the buffer. -/
theorem readInteger_eq (hin : s.offset < 8 * s.data.length) :
  s.readInteger =
    if prefixBits s.data s.offset < 2 ^ prefixLength s.offset - 1 then
      (some (prefixBits s.data s.offset), ⟨s.data, s.offset + prefixLength s.offset, .noError⟩)
    else
      match (⟨s.data, s.offset, .noError⟩ : BitIStream).readContinuation 5
        (8 * ((s.offset / 8 + 1) % 2 ^ 29)) (prefixBits s.data s.offset) 0 with
      | .error error => (none, ⟨s.data, s.offset, error⟩)
      | .ok (val, newOffset) => (some val, ⟨s.data, newOffset, .noError⟩)
  := by
  have hend : ¬ s.offset ≥ s.bitLength := Nat.not_le.mpr hin
  have hoffset : (s.offset + prefixLength s.offset) % 2 ^ 32
      = 8 * ((s.offset / 8 + 1) % 2 ^ 29) := by
    rw [prefixLength]
    omega
  rw [readInteger, if_neg hend]
  simp only [setError, Nat.and_two_pow_sub_one_eq_mod]
  rw [← hoffset]
  rfl

theorem prefixBits_lt_or_eq (data : Octets) (offset : ℕ) :
  prefixBits data offset < 2 ^ prefixLength offset - 1 ∨
    prefixBits data offset = 2 ^ prefixLength offset - 1
  := by
  have hpos : 0 < 2 ^ prefixLength offset := Nat.two_pow_pos _
  have hlt : prefixBits data offset < 2 ^ prefixLength offset := Nat.mod_lt _ hpos
  omega

/-- Octets found one by one from a place on. -/
theorem drop_of_found {data l : Octets} {k : ℕ} (hfound : ∀ i < l.length, data[k + i]? = l[i]?) :
  data.drop k = l ++ data.drop (k + l.length)
  := by
  apply List.ext_getElem?
  intro i
  rw [List.getElem?_drop]
  by_cases hi : i < l.length
  · rw [List.getElem?_append_left hi, hfound i hi]
  · rw [List.getElem?_append_right (by omega), List.getElem?_drop]
    congr 1
    omega

/-- What the loop gives behind a full prefix is the integer there if the integer ends below the
bit `2 ^ 32` and is below `2 ^ 32`. -/
theorem readsExactly_of_not_misread (h : ¬ Misread s.data s.offset) :
  s.ReadsExactly
  := by
  by_cases hin : s.offset < 8 * s.data.length
  · rw [ReadsExactly, readInteger_eq hin]
    rcases prefixBits_lt_or_eq s.data s.offset with hbits | hbits
    · rw [if_pos hbits]
      left
      use prefixBits s.data s.offset, rfl
      apply PrefixInteger.short hin hbits
    · rw [if_neg (by omega)]
      cases hloop : (⟨s.data, s.offset, .noError⟩ : BitIStream).readContinuation 5
        (8 * ((s.offset / 8 + 1) % 2 ^ 29)) (prefixBits s.data s.offset) 0 with
      | error e =>
        right
        constructor
        · rfl
        · rfl
      | ok result =>
        obtain ⟨v, stop⟩ := result
        obtain ⟨l, hl, hlength, hfifth, hfound, rfl, rfl⟩ :=
          (readContinuation_eq_ok_iff 5 _ _ 0 v stop rfl).mp hloop
        have hfits : ¬ (2 ^ 32 ≤ 8 * (s.offset / 8 + 1 + l.length) ∨
            2 ^ 32 ≤ 2 ^ prefixLength s.offset - 1 + continuationValue l) := by
          intro hover
          apply h
          use hin, hbits, l, hl, hlength, hfifth, hfound
        have hpos := hl.length_pos
        left
        dsimp only
        use 2 ^ prefixLength s.offset - 1 + continuationValue l
        constructor
        · rw [hbits, Nat.pow_zero, Nat.mul_one, Nat.mod_eq_of_lt (by omega)]
        · rw [Nat.mod_eq_of_lt (by omega)]
          apply PrefixInteger.long hin hbits hl
          apply drop_of_found
          intro i hi
          rw [← hfound i hi, Nat.mod_eq_of_lt (by omega)]
  · right
    have hend : s.offset ≥ s.bitLength := Nat.le_of_not_lt hin
    rw [readInteger, if_pos hend]
    constructor
    · rfl
    · rfl

/-- An integer that ends at the bit `2 ^ 32` or past it, or that does not fit, is not read
exactly where the loop succeeds. -/
theorem not_readsExactly_of_misread (h : Misread s.data s.offset) :
  ¬ s.ReadsExactly
  := by
  obtain ⟨hin, hbits, l, hl, hlength, hfifth, hfound, hover⟩ := h
  have hpos := hl.length_pos
  have hloop := (readContinuation_eq_ok_iff (s := ⟨s.data, s.offset, .noError⟩) 5
    (s.offset / 8 + 1) (prefixBits s.data s.offset) 0 _ _ rfl).mpr
    ⟨l, hl, hlength, hfifth, hfound, rfl, rfl⟩
  rw [ReadsExactly, readInteger_eq hin, if_neg (by omega), hloop]
  dsimp only
  rintro (⟨v, hv, hinteger⟩ | ⟨hnone, -⟩)
  · obtain rfl := Option.some.inj hv
    have hrange : ∀ w stop, w < 2 ^ 32 → stop = 8 * ((s.offset / 8 + 1 + l.length) % 2 ^ 29) →
        ¬ PrefixInteger s.data s.offset w stop := by
      rintro w stop hw hstop hinteger
      cases hinteger with
      | short _ hshort => omega
      | long hin' hbits' hl' hdrop =>
        rename_i l' rest
        have hpos' := hl'.length_pos
        have hbelow : s.offset / 8 + 1 + l.length < 2 ^ 29 := by omega
        have hsame : l.length = l'.length := by omega
        have hdrop' : s.data.drop (s.offset / 8 + 1)
            = l ++ s.data.drop (s.offset / 8 + 1 + l.length) := by
          apply drop_of_found
          intro i hi
          rw [← hfound i hi, Nat.mod_eq_of_lt (by omega)]
        obtain ⟨rfl, -⟩ := List.append_inj (hdrop'.symm.trans hdrop) hsame
        omega
    apply hrange _ _ (Nat.mod_lt _ (by decide)) rfl hinteger
  · cases hnone

end BitIStream

/-! ### Integers that were written -/

/-- An integer written behind `c` bits of an octet, none of them at an octet boundary. -/
theorem BitOStream.writeInteger_bits (b : Octets) {p c : ℕ} (v : ℕ) (hc : c < 8) (hp : p < 2 ^ c) :
  ((new b).writeBits p c).writeInteger v = new (b ++ integerOctets (8 - c) p v)
  := by
  by_cases hzero : c = 0
  · subst hzero
    obtain rfl : p = 0 := by simpa using hp
    have hstart : (new b).writeBits 0 0 = new b := by simp [writeBits, new]
    have hcount : 8 - (new b).bitsSet % 8 = 8 := by
      change 8 - 8 * b.length % 8 = 8
      omega
    have hfirst : ∀ w < 256, (new b).writeBits w 8 = new (b ++ [UInt8.ofNat w]) := by
      intro w hw
      rw [writeBits_new b (by decide) (by decide) hw, Nat.sub_self, Nat.pow_zero, Nat.mul_one]
      simp [new, Nat.mul_add]
    rw [hstart, writeInteger, integerOctets, hcount, Nat.sub_zero, Nat.zero_mul]
    split_ifs with hsmall
    · rw [hfirst v (by omega), Nat.zero_add]
    · rw [hfirst _ (by decide), new_append, List.append_assoc, Nat.zero_add]
      rfl
  · apply writeInteger_pattern b (Nat.pos_of_ne_zero hzero) hc hp

theorem prefixBits_integerOctets {data rest : Octets} {n flag v k : ℕ} (hn : 0 < n) (hn' : n ≤ 8)
    (hflag : flag < 2 ^ (8 - n)) (hdrop : data.drop k = integerOctets n flag v ++ rest)
    (hlarge : 2 ^ n - 1 ≤ v) :
  prefixBits data (8 * k + (8 - n)) = 2 ^ n - 1 ∧ prefixLength (8 * k + (8 - n)) = n
  := by
  have hlength : prefixLength (8 * k + (8 - n)) = n := by
    rw [prefixLength]
    omega
  have hdiv : (8 * k + (8 - n)) / 8 = k := by omega
  have hmax : flag * 2 ^ n + (2 ^ n - 1) < 256 := by
    have hpos : 0 < 2 ^ n := Nat.two_pow_pos n
    calc flag * 2 ^ n + (2 ^ n - 1) < (flag + 1) * 2 ^ n := by rw [Nat.succ_mul]; omega
      _ ≤ 2 ^ (8 - n) * 2 ^ n := Nat.mul_le_mul_right _ hflag
      _ = 256 := by rw [← Nat.pow_add, Nat.sub_add_cancel hn']
  rw [integerOctets, if_neg (by omega), List.cons_append] at hdrop
  obtain ⟨hk, hoctet, -⟩ := octet_of_drop hdrop
  constructor
  · rw [prefixBits, hlength, hdiv, hoctet, UInt8.toNat_ofNat', Nat.mod_eq_of_lt hmax]
    apply Nat.mul_add_mod_of_lt
    apply Nat.sub_lt (Nat.two_pow_pos n) Nat.one_pos
  · apply hlength

/-- Of the bits that are written only as many as asked for count. -/
theorem BitOStream.writeBits_mod (o : BitOStream) (p : ℕ) {c : ℕ} (hc : c ≤ 8) :
  o.writeBits p c = o.writeBits (p % 2 ^ c) c
  := by
  have hbits : (p <<< (8 - c)) % 256 = ((p % 2 ^ c) <<< (8 - c)) % 256 := by
    have hpow : 256 = 2 ^ c * 2 ^ (8 - c) := by
      rw [← Nat.pow_add, Nat.add_sub_cancel' hc]
    rw [Nat.shiftLeft_eq, Nat.shiftLeft_eq, hpow, Nat.mul_mod_mul_right, Nat.mul_mod_mul_right,
      Nat.mod_mod]
  rw [writeBits, writeBits, hbits]

/-- The stream that has written the integer `v` behind `c` bits of the octet after `b`. -/
def writtenInteger (b : Octets) (c : Fin 8) (p : ℕ) (v : UInt32) : BitOStream :=
  ((BitOStream.new b).writeBits p c).writeInteger v.toNat

/-- Such an integer is read back, with the offset where the writer stopped, if and only if it
fits the bits the octet has left or ends below the bit `2 ^ 32`. -/
theorem readInteger_written_iff (b : Octets) (c : Fin 8) (p : ℕ) (v : UInt32) (rest : Octets)
    (e : StreamError) :
  (⟨(writtenInteger b c p v).buffer ++ rest, 8 * b.length + c, e⟩ : BitIStream).readInteger
      = (some v.toNat, ⟨(writtenInteger b c p v).buffer ++ rest, (writtenInteger b c p v).bitsSet,
        .noError⟩) ↔
    v.toNat < 2 ^ (8 - c.val) - 1 ∨ (writtenInteger b c p v).bitsSet < 2 ^ 32
  := by
  obtain ⟨c, hc⟩ := c
  have hflag : p % 2 ^ c < 2 ^ (8 - (8 - c)) := by
    rw [show 8 - (8 - c) = c by omega]
    apply Nat.mod_lt _ (Nat.two_pow_pos c)
  have hstart : 8 * b.length + c = 8 * b.length + (8 - (8 - c)) := by omega
  have hdrop : (b ++ integerOctets (8 - c) (p % 2 ^ c) v.toNat ++ rest).drop b.length
      = integerOctets (8 - c) (p % 2 ^ c) v.toNat ++ rest := by
    rw [List.append_assoc, List.drop_left]
  rw [writtenInteger, BitOStream.writeBits_mod _ p (Nat.le_of_lt hc),
    BitOStream.writeInteger_bits b v.toNat hc (Nat.mod_lt _ (Nat.two_pow_pos c))]
  simp only [BitOStream.new, List.length_append, hstart]
  constructor
  · intro hread
    by_contra hover
    rw [not_or] at hover
    obtain ⟨hlarge, hend⟩ := hover
    obtain ⟨hbits, hlength⟩ := prefixBits_integerOctets (n := 8 - c) (by omega) (by omega) hflag
      hdrop (by omega)
    have hin : 8 * b.length + (8 - (8 - c))
        < 8 * (b ++ integerOctets (8 - c) (p % 2 ^ c) v.toNat ++ rest).length := by
      obtain ⟨x, octets, hfirst, -⟩ := integerOctets_first (8 - c) _ (by omega) hflag v.toNat
      rw [hfirst]
      simp only [List.length_append, List.length_cons]
      omega
    rw [BitIStream.readInteger_eq hin] at hread
    dsimp only at hread
    rw [hbits, hlength, if_neg (Nat.lt_irrefl _)] at hread
    revert hread
    cases hloop : (⟨b ++ integerOctets (8 - c) (p % 2 ^ c) v.toNat ++ rest,
        8 * b.length + (8 - (8 - c)), .noError⟩ : BitIStream).readContinuation 5
        (8 * (((8 * b.length + (8 - (8 - c))) / 8 + 1) % 2 ^ 29)) (2 ^ (8 - c) - 1) 0 with
    | error _ =>
      intro hread
      cases hread
    | ok result =>
      obtain ⟨v', stop⟩ := result
      obtain ⟨l, -, -, -, -, -, rfl⟩ :=
        (BitIStream.readContinuation_eq_ok_iff 5 _ _ 0 v' stop rfl).mp hloop
      intro hread
      have hstop := congrArg (fun r => r.2.offset) hread
      dsimp only at hstop
      omega
  · intro hfits
    rw [BitIStream.readInteger_integerOctets (n := 8 - c) (by omega) (by omega) hflag
      v.toNat_lt rfl hdrop (by omega)]

/-- Which reads of integers are exact.  A read at any offset of any buffer gives the integer that
is there and goes past it, or fails and stays, if and only if the running offset of 32 bits does
not come back to 0 and the value fits in 32 bits wherever the octets found behind a full prefix
end within five.  Every number of 32 bits that was written is read back unless it takes several
octets and ends at the bit `2 ^ 32` or past it. -/
theorem readInteger_exact_iff (s : BitIStream) (b : Octets) (c : Fin 8) (p : ℕ) (v : UInt32)
    (rest : Octets) (e : StreamError) :
  (s.ReadsExactly ↔ ¬ Misread s.data s.offset) ∧
    ((⟨(writtenInteger b c p v).buffer ++ rest, 8 * b.length + c, e⟩ : BitIStream).readInteger
        = (some v.toNat, ⟨(writtenInteger b c p v).buffer ++ rest, (writtenInteger b c p v).bitsSet,
          .noError⟩) ↔
      v.toNat < 2 ^ (8 - c.val) - 1 ∨ (writtenInteger b c p v).bitsSet < 2 ^ 32)
  := by
  constructor
  · constructor
    · intro h_exact h_misread
      apply BitIStream.not_readsExactly_of_misread h_misread h_exact
    · apply BitIStream.readsExactly_of_not_misread
  · apply readInteger_written_iff

/-- A full prefix of eight bits and the continuation of `2 ^ 32 - 1`: 254 is read for
`2 ^ 32 + 254`. -/
theorem readInteger_reduced :
  (BitIStream.new [0xff, 0xff, 0xff, 0xff, 0xff, 0x0f]).readInteger.1 = some 254 ∧
    ¬ (BitIStream.new [0xff, 0xff, 0xff, 0xff, 0xff, 0x0f]).ReadsExactly
  := by
  constructor
  · decide
  · apply BitIStream.not_readsExactly_of_misread
    use by decide, by decide, [0xff, 0xff, 0xff, 0xff, 0x0f]
    constructor
    · apply Continuation.more (by decide)
      apply Continuation.more (by decide)
      apply Continuation.more (by decide)
      apply Continuation.more (by decide)
      apply Continuation.last (by decide)
    constructor
    · decide
    constructor
    · rintro x ⟨⟩
      decide
    constructor
    · intro i h_i
      have h_place : (0 / 8 + 1 + i) % 2 ^ 29 = i + 1 := by
        simp only [List.length_cons, List.length_nil] at h_i
        omega
      rw [BitIStream.new, h_place, List.getElem?_cons_succ]
    · right
      decide

end HPack
