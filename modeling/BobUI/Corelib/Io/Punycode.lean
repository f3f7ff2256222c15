import BobUI.Corelib.Text.StringIterator

/-!
# Punycode

`qt_punycodeEncoder` and `qt_punycodeDecoder` of `qurlidna.cpp`.  The numbers are 32 bits wide, and
the additions and multiplications that may overflow are checked.
-/

namespace QUrlIdna

def base : ℕ := 36
def tmin : ℕ := 1
def tmax : ℕ := 26
def skew : ℕ := 38
def damp : ℕ := 700
def initial_bias : ℕ := 72
def initial_n : ℕ := 128

def MaxDomainLabelLength : ℕ := 63

/-- `std::numeric_limits<uint>::max()`. -/
def maxUint : ℕ := 2 ^ 32 - 1

/-- The product, unless it overflows. -/
def qMulOverflow (v1 v2 : ℕ) : Option ℕ :=
  if v1 * v2 ≤ maxUint then some (v1 * v2) else none

def qAddOverflow (v1 v2 : ℕ) : Option ℕ :=
  if v1 + v2 ≤ maxUint then some (v1 + v2) else none

/-- `"xn--"`. -/
def acePrefix : QString :=
  [0x78, 0x6e, 0x2d, 0x2d]

def encodeDigit (digit : ℕ) : UInt16 :=
  UInt16.ofNat (digit + 22 + 75 * if digit < 26 then 1 else 0)

/-- The loop of `adapt`: what is left of `delta`, and `k`. -/
def adaptLoop : ℕ → ℕ → ℕ → ℕ × ℕ
  | 0, delta, k => (delta, k)
  | fuel + 1, delta, k =>
    if (base - tmin) * tmax / 2 < delta then adaptLoop fuel (delta / (base - tmin)) (k + base)
    else (delta, k)

def adapt (delta numpoints : ℕ) (firsttime : Bool) : ℕ :=
  let delta := delta / if firsttime then damp else 2
  let delta := delta + delta / numpoints
  let (delta, k) := adaptLoop delta delta 0
  k + (base - tmin + 1) * delta / (delta + skew)

/-- The threshold of a digit. -/
def threshold (bias k : ℕ) : ℕ :=
  if k ≤ bias then tmin else if bias + tmax ≤ k then tmax else k - bias

/-- The digits of an integer, from the one that has the number `k` on. -/
def encodeLoop (bias : ℕ) : ℕ → ℕ → ℕ → QString
  | 0, qq, _ => [encodeDigit qq]
  | fuel + 1, qq, k =>
    let t := threshold bias k
    if qq < t then [encodeDigit qq]
    else encodeDigit (t + (qq - t) % (base - t))
      :: encodeLoop bias fuel ((qq - t) / (base - t)) (k + base)

def appendEncode (output : QString) (delta bias : ℕ) : QString :=
  output ++ encodeLoop bias delta delta base

/-! ### The encoder -/

/-- The variables of the encoder. -/
structure Encoder where
  n : ℕ
  delta : ℕ
  bias : ℕ
  h : ℕ
  output : QString
deriving DecidableEq, Repr

namespace Encoder

/-- The loop over the characters, for one of them. -/
def visit (b : ℕ) (s : Encoder) (c : ℕ) : Option Encoder := do
  let delta ← if c < s.n then qAddOverflow s.delta 1 else some s.delta
  if c = s.n then
    some
      { s with
        output := appendEncode s.output delta s.bias
        bias := adapt delta (s.h + 1) (s.h == b)
        delta := 0
        h := s.h + 1 }
  else some { s with delta := delta }

/-- The character with the lowest value that is still to be encoded. -/
def lowest (n : ℕ) (points : List ℕ) : ℕ :=
  points.foldl (fun m c => if n ≤ c ∧ c < m then c else m) maxUint

/-- All characters with the lowest value are encoded. -/
def pass (b : ℕ) (points : List ℕ) (s : Encoder) : Option Encoder := do
  let m := lowest s.n points
  let tmp ← qMulOverflow (m - s.n) (s.h + 1)
  let delta ← qAddOverflow s.delta tmp
  let s ← points.foldlM (visit b) { s with n := m, delta := delta }
  some { s with delta := (s.delta + 1) % 2 ^ 32, n := (s.n + 1) % 2 ^ 32 }

/-- Each pass encodes at least one character. -/
def run (b : ℕ) (points : List ℕ) : ℕ → Encoder → Option Encoder
  | 0, s => some s
  | fuel + 1, s =>
    if s.h < points.length then (s.pass b points).bind (run b points fuel) else some s

end Encoder

def qt_punycodeEncoder (input output : QString) : QString :=
  if MaxDomainLabelLength * 2 < input.length then output
  else
    let basic := input.filter (· < 0x80)
    if input.all (· < 0x80) then output ++ basic
    else
      let b := basic.length
      let copied := output ++ basic ++ if 0 < b then [0x2d] else []
      if maxUint ∈ QStringIterator.codePoints maxUint input then output
      else
        let points := QStringIterator.codePointsUnchecked input
        match Encoder.run b points points.length ⟨initial_n, 0, initial_bias, b, copied⟩ with
        | none => output
        | some s => s.output.take output.length ++ acePrefix ++ s.output.drop output.length

/-! ### The decoder -/

/-- The value of a digit, which is `base` for other characters. -/
def digitValue (c : UInt16) : ℕ :=
  let digit := c.toNat
  if 48 ≤ digit ∧ digit - 48 < 10 then digit - 22
  else if 65 ≤ digit ∧ digit - 65 < 26 then digit - 65
  else if 97 ≤ digit ∧ digit - 97 < 26 then digit - 97
  else base

/-- The loop over the digits: the next index and what is left. -/
def readInteger (bias : ℕ) : ℕ → ℕ → ℕ → QString → Option (ℕ × QString)
  | _, _, i, [] => some (i, [])
  | k, w, i, c :: rest =>
    let digit := digitValue c
    if base ≤ digit then none
    else do
      let tmp ← qMulOverflow digit w
      let i ← qAddOverflow i tmp
      let t := threshold bias k
      if digit < t then some (i, rest)
      else do
        let w ← qMulOverflow w (base - t)
        readInteger bias (k + base) w i rest

/-- The variables of the decoder. -/
structure Decoder where
  n : ℕ
  i : ℕ
  bias : ℕ
  output : List ℕ
deriving DecidableEq, Repr

namespace Decoder

/-- The next character is inserted, where `i` is the index that is read. -/
def insert (s : Decoder) (i : ℕ) : Option Decoder := do
  let outputLength := s.output.length
  let bias := adapt (i - s.i) (outputLength + 1) (s.i == 0)
  let n ← qAddOverflow s.n (i / (outputLength + 1))
  let i := i % (outputLength + 1)
  if n < initial_n then none
  else if QUtf8.isSurrogate n || 0x10ffff < n then none
  else some ⟨n, i + 1, bias, s.output.insertIdx i n⟩

/-- Each integer has at least one digit. -/
def run : ℕ → Decoder → QString → Option (List ℕ)
  | 0, s, _ => some s.output
  | fuel + 1, s, text =>
    if text = [] then some s.output
    else do
      let (i, rest) ← readInteger s.bias base 1 s.i text
      let s ← s.insert i
      run fuel s rest

end Decoder

def qt_punycodeDecoder (pc : QString) : QString :=
  if MaxDomainLabelLength < pc.length then []
  else if ¬ acePrefix <+: pc then pc
  else
    let delimiterPos := pc.lastIndexOf 0x2d (pc.length - 1)
    let output :=
      match delimiterPos with
      | none => []
      | some pos => if pos < 4 then [] else QStringIterator.codePoints 0xfffd (pc.between 4 pos)
    let cnt :=
      match delimiterPos with
      | none => 0
      | some pos => pos + 1
    match Decoder.run pc.length ⟨initial_n, 0, initial_bias, output⟩ (pc.drop cnt) with
    | none => []
    | some output => output.flatMap QUtf8.appendUcs4

end QUrlIdna
