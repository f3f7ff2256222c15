import BobUI.Corelib.Text.Utf8Encode

/-!
# Iterating over the characters of a string

`QStringIterator`: the code points of a string, with a value of the caller's for a surrogate that
is not part of a pair.
-/

namespace QStringIterator

/-- `next`, where `uc` is the code unit at the position and `pos` what follows it. -/
def next (invalidAs : ℕ) (uc : UInt16) (pos : QString) : ℕ × QString :=
  if QUtf8.isSurrogate uc.toNat then
    match pos with
    | [] => (invalidAs, [])
    | low :: rest =>
      if QUtf8.isHighSurrogate uc && QUtf8.isLowSurrogate low then
        (QUtf8.surrogateToUcs4 uc low, rest)
      else (invalidAs, low :: rest)
  else (uc.toNat, pos)

theorem next_length (invalidAs : ℕ) (uc : UInt16) (pos : QString) :
  (next invalidAs uc pos).2.length ≤ pos.length
  := by
  unfold next
  split
  · split
    · apply Nat.le_refl
    · split
      · apply Nat.le_succ
      · apply Nat.le_refl
  · apply Nat.le_refl

/-- What an iterator yields with `next`. -/
def codePoints (invalidAs : ℕ) : QString → List ℕ
  | [] => []
  | uc :: pos => (next invalidAs uc pos).1 :: codePoints invalidAs (next invalidAs uc pos).2
termination_by text => text.length
decreasing_by exact Nat.lt_succ_of_le (next_length invalidAs uc pos)

/-- What an iterator yields with `nextUnchecked`, for a text without unpaired surrogates. -/
def codePointsUnchecked : QString → List ℕ
  | [] => []
  | cur :: pos =>
    if QUtf8.isHighSurrogate cur then
      match pos with
      | [] => []
      | low :: rest => QUtf8.surrogateToUcs4 cur low :: codePointsUnchecked rest
    else cur.toNat :: codePointsUnchecked pos

end QStringIterator
