import BobUI.Corelib.Text.Strings
import BobUI.Library.PatternSearch

/-!
# Searches with a skip table

`bm_init_skiptable` and the loop of `bm_find`, which the matchers of byte arrays and of strings
share.  Both read a text from the end of a place backwards, and skip as many places as the table
says, whose entries are octets.

* `Search.find_isFirst`: the loop ends, reads only the text, and finds the first place.
-/

open PatternSearch

namespace SkipSearch

variable {α : Type}

/-- The loop of `bm_init_skiptable`. -/
def fillSkiptable (key : α → UInt8) : List α → (UInt8 → UInt8) → UInt8 → UInt8
  | [], skiptable => skiptable
  | c :: uc, skiptable =>
    fillSkiptable key uc (Function.update skiptable (key c) (UInt8.ofNat uc.length))

/-- `bm_init_skiptable`: the distances of the last symbols to the end. -/
def bmInitSkiptable (key : α → UInt8) (needle : List α) : UInt8 → UInt8 :=
  let l := min needle.length 255
  fillSkiptable key (needle.drop (needle.length - l)) fun _ => UInt8.ofNat l

/-- `*(current - skip)`; `none` is a read outside. -/
def readBack (l : List α) (current skip : ℕ) : Option α :=
  if skip ≤ current then l[current - skip]? else none

/-- What the loop of `bm_find` works on: the size of the text and how it is read, the pattern and
the skip table, and what else is checked at a place where the pattern stands. -/
structure Search (α : Type) where
  size : ℕ
  read : ℕ → ℕ → Option α
  needle : List α
  key : α → UInt8
  skiptable : UInt8 → UInt8
  accept : ℕ → Bool

namespace Search

variable [DecidableEq α] (s : Search α)

/-- The inner loop: how many symbols match, backwards from `current`. -/
def matchBack (current : ℕ) : (count skip : ℕ) → Option ℕ
  | 0, skip => some skip
  | count + 1, skip => do
    let u ← s.read current skip
    let c ← readBack s.needle (s.needle.length - 1) skip
    if u ≠ c then some skip else matchBack current count (skip + 1)

/-- How far to skip behind a mismatch. -/
def mismatch (current skip : ℕ) : Option ℕ := do
  let u ← s.read current skip
  some (if (s.skiptable (s.key u)).toNat = s.needle.length then s.needle.length - skip else 1)

/-- One round: `some none` is a match, and `some (some skip)` a skip. -/
def visit (current : ℕ) : Option (Option ℕ) := do
  let u ← s.read current 0
  if s.skiptable (s.key u) = 0 then
    let skip ← s.matchBack current s.needle.length 0
    if s.needle.length - 1 < skip && s.accept (current - (s.needle.length - 1)) then some none
    else some <$> s.mismatch current skip
  else some (some (s.skiptable (s.key u)).toNat)

/-- The loop of `bm_find`. -/
def find : (fuel current : ℕ) → Option (Option ℕ)
  | 0, _ => none
  | fuel + 1, current =>
    if current < s.size then
      match s.visit current with
      | none => none
      | some none => some (some (current - (s.needle.length - 1)))
      | some (some skip) =>
        if s.size < current + skip then some none else find fuel (current + skip)
    else some none

end Search

/-! ### The table -/

theorem fillSkiptable_toNat (key : α → UInt8) {l : List α} (h : l.length ≤ 255)
    (skiptable : UInt8 → UInt8) (k : UInt8) :
  (fillSkiptable key l skiptable k).toNat = fill key l (fun k => (skiptable k).toNat) k
  := by
  induction l generalizing skiptable with
  | nil => rfl
  | cons c l ih =>
    rw [List.length_cons] at h
    rw [fillSkiptable, ih (by omega), fill]
    congr 1
    funext k
    rw [Function.update_apply, Function.update_apply]
    split
    · rw [UInt8.toNat_ofNat', Nat.mod_eq_of_lt (by omega)]
    · rfl

theorem bmInitSkiptable_skips (key : α → UInt8) (needle : List α) :
  Skips needle key fun k => (bmInitSkiptable key needle k).toNat
  := by
  have hl : min needle.length 255 ≤ 255 := Nat.min_le_right _ _
  have hfill : (fun k => (bmInitSkiptable key needle k).toNat)
      = fill key (needle.drop (needle.length - min needle.length 255))
        fun _ => min needle.length 255 := by
    funext k
    rw [bmInitSkiptable, fillSkiptable_toNat key (by rw [List.length_drop]; omega)]
    congr 1
    funext k
    rw [UInt8.toNat_ofNat', Nat.mod_eq_of_lt (by omega)]
  rw [hfill]
  apply skips_fill key (Nat.min_le_left _ _)

/-! ### The loop -/

namespace Search

/-- The search reads `text`, and its table skips only places without the pattern, if there is any
with it; where something else fails, it goes on with the next place. -/
structure Reads [DecidableEq α] (s : Search α) (text : List α) : Prop where
  size : s.size = text.length
  read : ∀ {current skip}, skip ≤ current → s.read current skip = text[current - skip]?
  needle : s.needle ≠ []
  skips : (Skips s.needle s.key fun k => (s.skiptable k).toNat) ∨ ∀ i, ¬OccursAt s.needle text i
  next : ∀ {i}, s.accept i = false → i + s.needle.length ≤ text.length →
    s.mismatch (i + (s.needle.length - 1)) s.needle.length = some 1

/-- The pattern stands at a place, and what else is checked holds. -/
def Found (s : Search α) (text : List α) (i : ℕ) : Prop :=
  OccursAt s.needle text i ∧ s.accept i = true

variable [DecidableEq α] {s : Search α} {text : List α} {i : ℕ}

/-- The inner loop ends where the symbols differ, or behind the pattern. -/
theorem Reads.matchBack (h : s.Reads text) (hi : i + s.needle.length ≤ text.length)
    {count skip : ℕ} (hcount : count + skip = s.needle.length)
    (hbefore : ∀ k < skip,
      text[i + (s.needle.length - 1 - k)]? = s.needle[s.needle.length - 1 - k]?) :
  ∃ last, s.matchBack (i + (s.needle.length - 1)) count skip = some last ∧ last ≤ s.needle.length
    ∧ (∀ k < last, text[i + (s.needle.length - 1 - k)]? = s.needle[s.needle.length - 1 - k]?)
    ∧ (last < s.needle.length →
      text[i + (s.needle.length - 1 - last)]? ≠ s.needle[s.needle.length - 1 - last]?)
  := by
  induction count generalizing skip with
  | zero =>
    rw [Nat.zero_add] at hcount
    use skip, rfl, Nat.le_of_eq hcount, hbefore
    intro hlt
    omega
  | succ count ih =>
    have hplace : i + (s.needle.length - 1) - skip = i + (s.needle.length - 1 - skip) := by omega
    have htext : i + (s.needle.length - 1 - skip) < text.length := by omega
    have hneedle : s.needle.length - 1 - skip < s.needle.length := by omega
    have hc : readBack s.needle (s.needle.length - 1) skip
        = some s.needle[s.needle.length - 1 - skip] := by
      rw [readBack, if_pos (by omega), List.getElem?_eq_getElem hneedle]
    have hu : s.read (i + (s.needle.length - 1)) skip
        = some text[i + (s.needle.length - 1 - skip)] := by
      rw [h.read (by omega), hplace, List.getElem?_eq_getElem htext]
    rw [Search.matchBack, hu, hc]
    dsimp only [Option.bind_eq_bind, Option.bind_some]
    split
    next hne =>
      use skip, rfl, by omega, hbefore
      intro _
      rw [List.getElem?_eq_getElem htext, List.getElem?_eq_getElem hneedle]
      intro heq
      apply hne (Option.some.inj heq)
    next heq =>
      apply ih (by omega)
      intro k hk
      rcases Nat.lt_succ_iff_lt_or_eq.mp hk with hlt | rfl
      · exact hbefore k hlt
      · rw [List.getElem?_eq_getElem htext, List.getElem?_eq_getElem hneedle,
          not_not.mp heq]

/-- One round finds the place, or skips some places without it. -/
theorem Reads.visit (h : s.Reads text) (hi : i + s.needle.length ≤ text.length) :
  s.visit (i + (s.needle.length - 1)) = some none ∧ s.Found text i
    ∨ ∃ skip, s.visit (i + (s.needle.length - 1)) = some (some skip) ∧ 0 < skip
      ∧ ∀ j, i ≤ j → j < i + skip → ¬s.Found text j
  := by
  have hpos := List.length_pos_iff.mpr h.needle
  have hlast : i + (s.needle.length - 1) + 1 = i + s.needle.length := by omega
  have hshift : ∀ {k v}, text[i + (s.needle.length - 1) - k]? = some v → ∀ j, i ≤ j →
      j < i + ((s.skiptable (s.key v)).toNat - k) → ¬s.Found text j := by
    intro k v hv j hj hlt hfound
    rcases h.skips with hskips | hnowhere
    · apply hskips.not_occursAt (i := i) (d := j - i + k) hlast hv (by omega) (by omega)
      rw [Nat.add_sub_cancel, Nat.add_sub_cancel' hj]
      exact hfound.1
    · exact hnowhere j hfound.1
  have hread : i + (s.needle.length - 1) < text.length := by omega
  have hu : s.read (i + (s.needle.length - 1)) 0 = some text[i + (s.needle.length - 1)] := by
    rw [h.read (Nat.zero_le _), Nat.sub_zero, List.getElem?_eq_getElem hread]
  rw [Search.visit, hu]
  dsimp only [Option.bind_eq_bind, Option.bind_some]
  split
  next =>
    obtain ⟨last, hback, hle, hsame, hdiff⟩ := h.matchBack hi (Nat.add_zero _)
      (fun k hk => absurd hk (Nat.not_lt_zero k))
    rw [hback, Option.bind_some]
    have hoccurs : s.needle.length - 1 < last → OccursAt s.needle text i := by
      intro hlt
      rw [occursAt_iff]
      intro k hk
      have hk' := hsame (s.needle.length - 1 - k) (by omega)
      rwa [Nat.sub_sub_self (by omega)] at hk'
    split
    next hmatch =>
      left
      rw [Bool.and_eq_true, decide_eq_true_iff, Nat.add_sub_cancel] at hmatch
      use rfl, hoccurs hmatch.1, hmatch.2
    next hmatch =>
      right
      rw [Bool.and_eq_true, decide_eq_true_iff, Nat.add_sub_cancel, not_and] at hmatch
      have hnot : ¬s.Found text i := by
        rintro ⟨hfound, haccept⟩
        apply hmatch _ haccept
        by_contra hlast
        apply hdiff (by omega)
        apply hfound.getElem?
        omega
      have hone : ∀ j, i ≤ j → j < i + 1 → ¬s.Found text j := by
        intro j hj hlt
        rwa [show j = i by omega]
      rcases Nat.lt_or_ge (s.needle.length - 1) last with hwhole | hpart
      · have haccept : s.accept i = false := by
          rw [← Bool.not_eq_true]
          exact hmatch hwhole
        have heq : last = s.needle.length := by omega
        rw [heq, h.next haccept hi]
        use 1, rfl, Nat.one_pos, hone
      · have hplace : i + (s.needle.length - 1) - last < text.length := by omega
        have hv : s.read (i + (s.needle.length - 1)) last
            = some text[i + (s.needle.length - 1) - last] := by
          rw [h.read (by omega), List.getElem?_eq_getElem hplace]
        rw [Search.mismatch, hv]
        dsimp only [Option.bind_eq_bind, Option.bind_some]
        split
        next habsent =>
          refine ⟨_, rfl, by omega, ?_⟩
          rw [← habsent]
          apply hshift (List.getElem?_eq_getElem hplace)
        next =>
          use 1, rfl, Nat.one_pos, hone
  next hskip =>
    right
    refine ⟨_, rfl, ?_, ?_⟩
    · rw [Nat.pos_iff_ne_zero]
      intro hzero
      apply hskip
      exact UInt8.toNat_inj.mp hzero
    · apply hshift (k := 0) (List.getElem?_eq_getElem hread)

theorem Reads.isFirst_none (h : s.Reads text) (hi : text.length < i + s.needle.length) :
  IsFirst (s.Found text) i none
  := by
  rintro j hj ⟨hoccurs, -⟩
  have hlength := hoccurs.length_le h.needle
  omega

/-- With fuel for every place, the loop ends and yields the first place. -/
theorem Reads.find (h : s.Reads text) {fuel : ℕ} (hpos : 0 < fuel)
    (hfuel : text.length < fuel + (i + (s.needle.length - 1))) :
  ∃ result, s.find fuel (i + (s.needle.length - 1)) = some result
    ∧ IsFirst (s.Found text) i result
  := by
  have hneedle := List.length_pos_iff.mpr h.needle
  induction fuel generalizing i with
  | zero => exact absurd hpos (Nat.lt_irrefl 0)
  | succ fuel ih =>
    rw [Search.find, h.size]
    split
    next hcurrent =>
      rcases h.visit (i := i) (by omega) with ⟨hvisit, hfound⟩ | ⟨skip, hvisit, hskip, hno⟩
      · rw [hvisit]
        dsimp only
        rw [Nat.add_sub_cancel]
        use some i, rfl, Nat.le_refl i, hfound
        intro j hj hlt
        omega
      · rw [hvisit]
        dsimp only
        split
        next hend =>
          use none, rfl
          exact .skip (Nat.le_add_right i skip) hno (h.isFirst_none (by omega))
        next hmore =>
          have hplace : i + (s.needle.length - 1) + skip = i + skip + (s.needle.length - 1) := by
            omega
          obtain ⟨result, hfind, hfirst⟩ := ih (i := i + skip) (by omega) (by omega)
          rw [hplace, hfind]
          use result, rfl
          exact .skip (Nat.le_add_right i skip) hno hfirst
    next =>
      use none, rfl
      apply h.isFirst_none
      omega

end Search

end SkipSearch
