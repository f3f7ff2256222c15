import Mathlib.Data.Nat.Notation
import Mathlib.Tactic.SplitIfs

/-!
# UTF-8 texts

The octets of a code point, as RFC 3629 spreads its bits over them, and the texts made of such
sequences.  Surrogates and numbers above 0x10ffff are left out, and each code point has one sequence,
so that a longer one for the same bits is none.
-/

namespace Utf8

/-- A number that a sequence of octets stands for. -/
def Scalar (c : ℕ) : Prop :=
  c < 0xd800 ∨ 0xe000 ≤ c ∧ c ≤ 0x10ffff

/-- The octets of a code point. -/
def octetsOf (c : ℕ) : List UInt8 :=
  if c < 0x80 then [UInt8.ofNat c]
  else if c < 0x800 then [UInt8.ofNat (0xc0 + c / 0x40), UInt8.ofNat (0x80 + c % 0x40)]
  else if c < 0x10000 then
    [UInt8.ofNat (0xe0 + c / 0x1000), UInt8.ofNat (0x80 + c / 0x40 % 0x40),
      UInt8.ofNat (0x80 + c % 0x40)]
  else
    [UInt8.ofNat (0xf0 + c / 0x40000), UInt8.ofNat (0x80 + c / 0x1000 % 0x40),
      UInt8.ofNat (0x80 + c / 0x40 % 0x40), UInt8.ofNat (0x80 + c % 0x40)]

/-- Sequences of code points, one behind the other. -/
inductive WellFormed : List UInt8 → Prop where
  | nil : WellFormed []
  | cons {c : ℕ} {rest : List UInt8} (h : Scalar c) (h_rest : WellFormed rest) :
    WellFormed (octetsOf c ++ rest)

theorem sequence_ascii {b : UInt8} (h : b < 0x80) :
  Scalar b.toNat ∧ octetsOf b.toNat = [b]
  := by
  have hb : b.toNat < 0x80 := UInt8.lt_iff_toNat_lt.mp h
  constructor
  · left
    omega
  · rw [octetsOf, if_pos hb, UInt8.ofNat_toNat]

theorem sequence_ne_nil (c : ℕ) :
  octetsOf c ≠ []
  := by
  rw [octetsOf]
  split_ifs
  · apply List.cons_ne_nil
  · apply List.cons_ne_nil
  · apply List.cons_ne_nil
  · apply List.cons_ne_nil

end Utf8
