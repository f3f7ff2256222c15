import BobUI.Corelib.Text.StringIterator
import BobUI.Corelib.Text.Utf8Codec

/-!
# Code points of a well-formed string

A string without unpaired surrogates is the code units of its code points, and the iterators yield
these.
-/

namespace QString

open QUtf8 Utf8

/-- The code units of code points. -/
def units (points : List ℕ) : QString :=
  points.flatMap appendUcs4

variable {c : ℕ} {points : List ℕ}

theorem units_cons :
  units (c :: points) = appendUcs4 c ++ units points
  := List.flatMap_cons

/-- The code units of a code point are a single one or a pair of surrogates. -/
theorem appendUcs4_cases (h : Scalar c) :
  (∃ u : UInt16, appendUcs4 c = [u] ∧ u.toNat = c ∧ isSurrogate u.toNat = false)
    ∨ ∃ high low, appendUcs4 c = [high, low] ∧ isHighSurrogate high = true
      ∧ isLowSurrogate low = true ∧ surrogateToUcs4 high low = c ∧ 0x10000 ≤ c
  := by
  by_cases hbmp : c < 0x10000
  · obtain ⟨hunits, htoNat⟩ := appendUcs4_bmp hbmp
    left
    use UInt16.ofNat c, hunits, htoNat
    rw [htoNat, ← Bool.not_eq_true, isSurrogate_iff]
    rcases h with h | h
    · omega
    · omega
  · right
    have hunits : appendUcs4 c
        = [UInt16.ofNat (c / 0x400 + 0xd7c0), UInt16.ofNat (c % 0x400 + 0xdc00)] := by
      rw [appendUcs4, if_neg hbmp]
    have hmax : c ≤ 0x10ffff := by
      rcases h with h | h
      · omega
      · exact h.2
    have hhigh : (UInt16.ofNat (c / 0x400 + 0xd7c0)).toNat = 0xd800 + (c - 0x10000) / 0x400 := by
      rw [UInt16.toNat_ofNat']
      omega
    have hlow : (UInt16.ofNat (c % 0x400 + 0xdc00)).toNat = 0xdc00 + c % 0x400 := by
      rw [UInt16.toNat_ofNat']
      omega
    refine ⟨_, _, hunits, ?_, ?_, ?_, by omega⟩
    · rw [isHighSurrogate_iff]
      omega
    · rw [isLowSurrogate_iff]
      omega
    · rw [surrogateToUcs4_eq hhigh hlow]
      omega

theorem exists_points {text : QString} (h : paired text = true) :
  ∃ points, (∀ c ∈ points, Scalar c) ∧ text = units points
  := by
  generalize hlength : text.length = length
  induction length using Nat.strongRecOn generalizing text with
  | ind length ih =>
    rcases paired_cases h with rfl | ⟨c, rest, hc, rfl, hrest⟩
    · exact ⟨[], (fun c hc => nomatch hc), rfl⟩
    · have hpos := List.length_pos_iff.mpr (appendUcs4_ne_nil c)
      rw [List.length_append] at hlength
      obtain ⟨points, hpoints, rfl⟩ := ih rest.length (by omega) hrest rfl
      use c :: points
      constructor
      · intro d hd
        rcases List.mem_cons.mp hd with rfl | hd
        · exact hc
        · exact hpoints d hd
      · exact units_cons.symm

theorem length_le_units (points : List ℕ) :
  points.length ≤ (units points).length
  := by
  induction points with
  | nil => exact Nat.le_refl _
  | cons c points ih =>
    have hpos := List.length_pos_iff.mpr (appendUcs4_ne_nil c)
    rw [units_cons, List.length_append, List.length_cons]
    omega

/-- The iterator yields the code points. -/
theorem codePoints_units (h : ∀ c ∈ points, Scalar c) (invalidAs : ℕ) :
  QStringIterator.codePoints invalidAs (units points) = points
  := by
  induction points with
  | nil => rw [units, List.flatMap_nil, QStringIterator.codePoints]
  | cons c points ih =>
    have hrest := ih fun d hd => h d (List.mem_cons_of_mem c hd)
    rw [units_cons]
    rcases appendUcs4_cases (h c List.mem_cons_self) with
      ⟨u, hunits, hu, hsingle⟩ | ⟨high, low, hunits, hhigh, hlow, hpair, -⟩
    · have hnext : QStringIterator.next invalidAs u (units points) = (c, units points) := by
        rw [QStringIterator.next.eq_def, hsingle, if_neg Bool.false_ne_true, hu]
      rw [hunits, List.singleton_append, QStringIterator.codePoints, hnext, hrest]
    · have his : isSurrogate high.toNat = true := by
        rw [isHighSurrogate_iff] at hhigh
        rw [isSurrogate_iff]
        omega
      have hnext : QStringIterator.next invalidAs high (low :: units points)
          = (c, units points) := by
        rw [QStringIterator.next.eq_def, his, if_pos rfl]
        dsimp only
        rw [hhigh, hlow, hpair]
        rfl
      rw [hunits, List.cons_append, List.singleton_append, QStringIterator.codePoints, hnext,
        hrest]

theorem codePointsUnchecked_units (h : ∀ c ∈ points, Scalar c) :
  QStringIterator.codePointsUnchecked (units points) = points
  := by
  induction points with
  | nil => rfl
  | cons c points ih =>
    have hrest := ih fun d hd => h d (List.mem_cons_of_mem c hd)
    rw [units_cons]
    rcases appendUcs4_cases (h c List.mem_cons_self) with
      ⟨u, hunits, hu, hsingle⟩ | ⟨high, low, hunits, hhigh, -, hpair, -⟩
    · have hhigh : ¬ isHighSurrogate u = true := by
        rw [← Bool.not_eq_true, isSurrogate_iff] at hsingle
        rw [isHighSurrogate_iff]
        omega
      rw [hunits, List.singleton_append, QStringIterator.codePointsUnchecked.eq_def]
      dsimp only
      rw [if_neg hhigh, hrest, hu]
    · rw [hunits, List.cons_append, List.singleton_append,
        QStringIterator.codePointsUnchecked.eq_def]
      dsimp only
      rw [if_pos hhigh, hrest, hpair]

/-- The basic code units are those of the basic code points. -/
theorem filter_units (h : ∀ c ∈ points, Scalar c) :
  (units points).filter (· < 0x80) = (points.filter (· < 0x80)).map UInt16.ofNat
  := by
  induction points with
  | nil => rfl
  | cons c points ih =>
    have hrest := ih fun d hd => h d (List.mem_cons_of_mem c hd)
    rw [units_cons, List.filter_append, hrest]
    rcases appendUcs4_cases (h c List.mem_cons_self) with
      ⟨u, hunits, hu, -⟩ | ⟨high, low, hunits, hhigh, hlow, -, hc⟩
    · have hiff : u < 0x80 ↔ c < 0x80 := by
        rw [UInt16.lt_iff_toNat_lt, hu]
        rfl
      rw [hunits]
      by_cases hbasic : c < 0x80
      · rw [List.filter_cons_of_pos (by simpa using hiff.mpr hbasic),
          List.filter_cons_of_pos (by simpa using hbasic), List.map_cons, ← hu,
          UInt16.ofNat_toNat]
        rfl
      · rw [List.filter_cons_of_neg (by simpa using hiff.not.mpr hbasic),
          List.filter_cons_of_neg (by simpa using hbasic)]
        rfl
    · have hnot_high : ¬ high < 0x80 := by
        rw [isHighSurrogate_iff] at hhigh
        rw [UInt16.lt_iff_toNat_lt]
        change ¬ _ < 0x80
        omega
      have hnot_low : ¬ low < 0x80 := by
        rw [isLowSurrogate_iff] at hlow
        rw [UInt16.lt_iff_toNat_lt]
        change ¬ _ < 0x80
        omega
      have hnot : ¬ c < 0x80 := by omega
      rw [hunits, List.filter_cons_of_neg (by simpa using hnot_high),
        List.filter_cons_of_neg (by simpa using hnot_low),
        List.filter_cons_of_neg (by simpa using hnot)]
      rfl

end QString
