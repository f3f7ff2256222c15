import BobUI.Corelib.Text.SkipSearch

/-!
# Searching for bytes

`bm_find` and `qFindByteArray` of `qbytearraymatcher.cpp`, on octets.  Both find the first place of
the needle.

* `byteSearches_isFirst`: for every haystack, needle and start.
-/

open PatternSearch SkipSearch

namespace QByteArrayMatcher

/-! ### The search with a skip table -/

/-- `bm_init_skiptable`. -/
def bmInitSkiptable (cc : QByteArray) : UInt8 → UInt8 :=
  SkipSearch.bmInitSkiptable id cc

/-- What the loop of `bm_find` works on. -/
def search (cc puc : QByteArray) (skiptable : UInt8 → UInt8) : Search UInt8 where
  size := cc.length
  read := readBack cc
  needle := puc
  key := id
  skiptable := skiptable
  accept := fun _ => true

/-- `bm_find`, whose loop takes `fuel` rounds at most; `none` is a read outside, or a loop that does
not end, and `some none` is -1. -/
def bmFind (fuel : ℕ) (cc : QByteArray) (index : ℕ) (puc : QByteArray)
    (skiptable : UInt8 → UInt8) : Option (Option ℕ) :=
  if puc = [] then some (if cc.length < index then none else some index)
  else (search cc puc skiptable).find fuel (index + (puc.length - 1))

theorem search_reads (cc : QByteArray) {puc : QByteArray} (hpuc : puc ≠ []) :
  (search cc puc (bmInitSkiptable puc)).Reads cc
  := by
  constructor
  · rfl
  · intro current skip hskip
    exact if_pos hskip
  · exact hpuc
  · left
    exact bmInitSkiptable_skips id puc
  · intro i haccept
    cases haccept

/-- The search reads only the haystack, ends, and finds the first place. -/
theorem bmFind_isFirst {fuel : ℕ} {cc puc : QByteArray} (index : ℕ) (hpuc : puc ≠ [])
    (hfuel : cc.length < fuel) :
  ∃ result, bmFind fuel cc index puc (bmInitSkiptable puc) = some result
    ∧ IsFirst (OccursAt puc cc) index result
  := by
  have hfound : (search cc puc (bmInitSkiptable puc)).Found cc = OccursAt puc cc := by
    funext i
    rw [Search.Found, search, eq_self_iff_true, and_true]
  rw [bmFind, if_neg hpuc, ← hfound]
  apply (search_reads cc hpuc).find
  · omega
  · omega

/-! ### The search with a rolling sum -/

variable {w : ℕ}

/-- A `char` as a word; the platform decides whether it is signed. -/
def charWord (w : ℕ) (charIsSigned : Bool) (c : UInt8) : BitVec w :=
  if charIsSigned then c.toBitVec.signExtend w else c.toBitVec.setWidth w

/-- `count` octets from `start` on; `none` is a read outside. -/
def readRange (l : QByteArray) (start count : ℕ) : Option QByteArray :=
  if start + count ≤ l.length then some ((l.drop start).take count) else none

/-- The first loop: the sums of the needle and of the beginning of the haystack. -/
def initialHashes (charIsSigned : Bool) (haystack0 : QByteArray) (start : ℕ) (needle : QByteArray) :
    (count idx : ℕ) → BitVec w × BitVec w → Option (BitVec w × BitVec w)
  | 0, _, hashes => some hashes
  | count + 1, idx, (hashNeedle, hashHaystack) => do
    let n ← needle[idx]?
    let c ← haystack0[start + idx]?
    initialHashes charIsSigned haystack0 start needle count (idx + 1)
      (push (charWord w charIsSigned) hashNeedle n, push (charWord w charIsSigned) hashHaystack c)

/-- The test for a match. -/
def matchesAt (haystack0 needle : QByteArray) (hashNeedle hashHaystack : BitVec w) (haystack : ℕ) :
    Option Bool :=
  if hashHaystack ≠ hashNeedle then some false
  else do
    let n ← needle[0]?
    let c ← haystack0[haystack]?
    if n ≠ c then some false
    else do
      let expected ← readRange needle 0 needle.length
      let found ← readRange haystack0 haystack needle.length
      some (expected = found)

/-- The second loop. -/
def findHash (charIsSigned : Bool) (haystack0 needle : QByteArray) (hashNeedle : BitVec w) :
    (fuel haystack : ℕ) → BitVec w → Option (Option ℕ)
  | 0, _, _ => none
  | fuel + 1, haystack, hashHaystack =>
    if haystack + needle.length ≤ haystack0.length then do
      let last ← haystack0[haystack + (needle.length - 1)]?
      let hashHaystack := hashHaystack + charWord w charIsSigned last
      if ← matchesAt haystack0 needle hashNeedle hashHaystack haystack then some (some haystack)
      else do
        let first ← haystack0[haystack]?
        let hashHaystack :=
          if needle.length - 1 < w then
            hashHaystack - charWord w charIsSigned first <<< (needle.length - 1)
          else hashHaystack
        findHash charIsSigned haystack0 needle hashNeedle fuel (haystack + 1) (hashHaystack <<< 1)
    else some none

/-- `qFindByteArray`; `none` is a read outside, or a loop that does not end, and `some none` is
-1. -/
def qFindByteArray (w : ℕ) (charIsSigned : Bool) (fuel : ℕ) (haystack0 : QByteArray) (start : ℕ)
    (needle : QByteArray) : Option (Option ℕ) := do
  let (hashNeedle, hashHaystack) ←
    initialHashes charIsSigned haystack0 start needle needle.length 0 (0#w, 0#w)
  let last ← haystack0[start + (needle.length - 1)]?
  findHash charIsSigned haystack0 needle hashNeedle fuel start
    (hashHaystack - charWord w charIsSigned last)

section Hash

variable {haystack0 needle : QByteArray} {charIsSigned : Bool} {start : ℕ}

/-- As many octets of the haystack as the needle has. -/
def window (haystack0 : QByteArray) (start length : ℕ) : QByteArray :=
  (haystack0.drop start).take length

theorem window_succ {length : ℕ} {c : UInt8} (h : haystack0[start + length]? = some c) :
  window haystack0 start (length + 1) = window haystack0 start length ++ [c]
  := by
  rw [window, List.take_add_one, List.getElem?_drop, h]
  rfl

theorem window_cons {length : ℕ} {c : UInt8} (h : haystack0[start]? = some c) :
  window haystack0 start (length + 1) = c :: window haystack0 (start + 1) length
  := by
  obtain ⟨hlt, rfl⟩ := List.getElem?_eq_some_iff.mp h
  rw [window, List.drop_eq_getElem_cons hlt, List.take_succ_cons]
  rfl

theorem window_length {length : ℕ} (h : start + length ≤ haystack0.length) :
  (window haystack0 start length).length = length
  := by
  rw [window, List.length_take, List.length_drop]
  omega

theorem occursAt_window :
  OccursAt needle haystack0 start ↔ needle = window haystack0 start needle.length
  := List.prefix_iff_eq_take

theorem initialHashes_eq (w : ℕ) (charIsSigned : Bool)
    (h : start + needle.length ≤ haystack0.length) {count idx : ℕ}
    (hcount : idx + count = needle.length) :
  initialHashes charIsSigned haystack0 start needle count idx
      (PatternSearch.hash (charWord w charIsSigned) (needle.take idx),
        PatternSearch.hash (charWord w charIsSigned) (window haystack0 start idx))
    = some (PatternSearch.hash (charWord w charIsSigned) needle,
      PatternSearch.hash (charWord w charIsSigned) (window haystack0 start needle.length))
  := by
  induction count generalizing idx with
  | zero =>
    rw [Nat.add_zero] at hcount
    rw [initialHashes, hcount, List.take_length]
  | succ count ih =>
    have hneedle : idx < needle.length := by omega
    have hhaystack : start + idx < haystack0.length := by omega
    have hn := List.getElem?_eq_getElem hneedle
    have hc := List.getElem?_eq_getElem hhaystack
    rw [initialHashes, hn, hc]
    dsimp only [Option.bind_eq_bind, Option.bind_some]
    rw [← hash_append_singleton, ← hash_append_singleton, ← window_succ hc,
      List.take_append_getElem hneedle]
    apply ih
    omega

/-- The test reads inside, and tells whether the needle occurs where the sums agree. -/
theorem matchesAt_eq (hneedle : needle ≠ []) (h : start + needle.length ≤ haystack0.length)
    (hashNeedle hashHaystack : BitVec w) :
  matchesAt haystack0 needle hashNeedle hashHaystack start
    = some (decide (hashHaystack = hashNeedle ∧ needle = window haystack0 start needle.length))
  := by
  obtain ⟨n, rest, rfl⟩ := List.exists_cons_of_ne_nil hneedle
  have hstart : start < haystack0.length := by
    rw [List.length_cons] at h
    omega
  have hc := List.getElem?_eq_getElem hstart
  have hrange : readRange haystack0 start (n :: rest).length
      = some (window haystack0 start (n :: rest).length) := if_pos h
  have hown : readRange (n :: rest) 0 (n :: rest).length = some (n :: rest) := by
    rw [readRange, Nat.zero_add, if_pos (Nat.le_refl _), List.drop_zero, List.take_length]
  rw [matchesAt]
  split
  next hne =>
    rw [decide_eq_false (fun hand => hne hand.1)]
  next heq =>
    rw [List.getElem?_cons_zero, hc, hrange, hown]
    dsimp only [Option.bind_eq_bind, Option.bind_some]
    split
    next hfirst =>
      rw [decide_eq_false]
      rintro ⟨-, hwindow⟩
      rw [List.length_cons, window_cons hc] at hwindow
      apply hfirst (List.cons.inj hwindow).1
    next =>
      rw [Option.some.injEq, decide_eq_decide]
      exact (and_iff_right (not_not.mp heq)).symm

/-- From one place to the next, the part of the first octet is taken off, or has left the word. -/
theorem hash_roll (w : ℕ) (charIsSigned : Bool) (length : ℕ) {first : UInt8}
    (h : start + length < haystack0.length)
    (hfirst : haystack0[start]? = some first) :
  (if length < w then
      PatternSearch.hash (charWord w charIsSigned) (window haystack0 start (length + 1))
        - charWord w charIsSigned first <<< length
    else PatternSearch.hash (charWord w charIsSigned) (window haystack0 start (length + 1)))
    = PatternSearch.hash (charWord w charIsSigned) (window haystack0 (start + 1) length)
  := by
  rw [window_cons hfirst, hash_cons, window_length (by omega)]
  split
  next =>
    rw [BitVec.add_comm, BitVec.add_sub_cancel]
  next hlong =>
    rw [BitVec.shiftLeft_eq_zero (Nat.not_lt.mp hlong), BitVec.zero_add]

/-- The sum that a round of the loop starts with lacks the last octet. -/
theorem findHash_isFirst (hneedle : needle ≠ []) {fuel : ℕ} {hashHaystack : BitVec w}
    (hpos : 0 < fuel) (hfuel : haystack0.length < fuel + start)
    (hhash : ∀ last, haystack0[start + (needle.length - 1)]? = some last →
      hashHaystack + charWord w charIsSigned last
        = PatternSearch.hash (charWord w charIsSigned) (window haystack0 start needle.length)) :
  ∃ result, findHash charIsSigned haystack0 needle
        (PatternSearch.hash (charWord w charIsSigned) needle) fuel start hashHaystack = some result
    ∧ IsFirst (OccursAt needle haystack0) start result
  := by
  have hlength := List.length_pos_iff.mpr hneedle
  induction fuel generalizing start hashHaystack with
  | zero => exact absurd hpos (Nat.lt_irrefl 0)
  | succ fuel ih =>
    rw [findHash]
    split
    next hplace =>
      have hlast : start + (needle.length - 1) < haystack0.length := by omega
      have hfirst : start < haystack0.length := by omega
      have hsum := hhash _ (List.getElem?_eq_getElem hlast)
      rw [List.getElem?_eq_getElem hlast, List.getElem?_eq_getElem hfirst]
      dsimp only [Option.bind_eq_bind, Option.bind_some]
      rw [matchesAt_eq hneedle hplace, Option.bind_some, hsum]
      split
      next hmatch =>
        obtain ⟨-, hwindow⟩ := of_decide_eq_true hmatch
        use some start, rfl, Nat.le_refl start, occursAt_window.mpr hwindow
        intro j hj hlt
        omega
      next hno_match =>
        have hnot : ¬OccursAt needle haystack0 start := by
          intro hoccurs
          have hwindow := occursAt_window.mp hoccurs
          apply hno_match
          rw [decide_eq_true_iff, ← hwindow]
          exact ⟨rfl, rfl⟩
        have hroll := hash_roll w charIsSigned (needle.length - 1) (by omega)
          (List.getElem?_eq_getElem hfirst)
        have hnext : ∀ last, haystack0[start + 1 + (needle.length - 1)]? = some last →
            (PatternSearch.hash (charWord w charIsSigned)
                (window haystack0 (start + 1) (needle.length - 1)) <<< 1)
              + charWord w charIsSigned last
            = PatternSearch.hash (charWord w charIsSigned)
              (window haystack0 (start + 1) needle.length) := by
          intro last hread
          have hwindow := window_succ hread
          rw [Nat.sub_add_cancel hlength] at hwindow
          rw [hwindow, hash_append_singleton, push]
        rw [Nat.sub_add_cancel hlength] at hroll
        rw [hroll]
        obtain ⟨result, hfind, hresult⟩ := ih (by omega) (by omega) hnext
        use result, hfind
        apply IsFirst.skip (Nat.le_succ start) _ hresult
        intro j hj hlt
        rwa [show j = start by omega]
    next hplace =>
      use none, rfl
      intro j hj hoccurs
      have hend := hoccurs.length_le hneedle
      omega

/-- The search reads only the haystack and the needle, ends, and finds the first place. -/
theorem qFindByteArray_isFirst (w : ℕ) (charIsSigned : Bool) {fuel : ℕ} (hneedle : needle ≠ [])
    (hstart : start + needle.length ≤ haystack0.length) (hfuel : haystack0.length < fuel) :
  ∃ result, qFindByteArray w charIsSigned fuel haystack0 start needle = some result
    ∧ IsFirst (OccursAt needle haystack0) start result
  := by
  have hlength := List.length_pos_iff.mpr hneedle
  have hlast : start + (needle.length - 1) < haystack0.length := by omega
  have hhashes := initialHashes_eq w charIsSigned hstart (Nat.zero_add needle.length)
  have hzero : (PatternSearch.hash (charWord w charIsSigned) (needle.take 0),
      PatternSearch.hash (charWord w charIsSigned) (window haystack0 start 0)) = (0#w, 0#w) := rfl
  rw [hzero] at hhashes
  rw [qFindByteArray, hhashes, List.getElem?_eq_getElem hlast]
  dsimp only [Option.bind_eq_bind, Option.bind_some]
  apply findHash_isFirst hneedle
  · omega
  · omega
  · intro last hread
    rw [List.getElem?_eq_getElem hlast, Option.some.injEq] at hread
    rw [← hread, BitVec.sub_add_cancel]

end Hash

/-- Both searches find the first place of the needle, whatever the width of a word and the sign of a
`char` are. -/
theorem byteSearches_isFirst (w : ℕ) (charIsSigned : Bool) (haystack : QByteArray)
    {needle : QByteArray} (start : ℕ) (h_needle : needle ≠ []) :
  ∃ result, IsFirst (OccursAt needle haystack) start result
    ∧ (∀ fuel, haystack.length < fuel →
      bmFind fuel haystack start needle (bmInitSkiptable needle) = some result)
    ∧ (start + needle.length ≤ haystack.length → ∀ fuel, haystack.length < fuel →
      qFindByteArray w charIsSigned fuel haystack start needle = some result)
  := by
  obtain ⟨result, -, h_result⟩ := bmFind_isFirst start h_needle (Nat.lt_succ_self haystack.length)
  use result, h_result
  constructor
  · intro fuel h_fuel
    obtain ⟨result', h_find, h_first⟩ := bmFind_isFirst start h_needle h_fuel
    rw [h_find, h_first.unique h_result]
  · intro h_end fuel h_fuel
    obtain ⟨result', h_find, h_first⟩ := qFindByteArray_isFirst w charIsSigned h_needle h_end h_fuel
    rw [h_find, h_first.unique h_result]

theorem byteSearches_isFirst_overlap :
  ∃ result, IsFirst (OccursAt ([1, 2, 1] : QByteArray) [1, 1, 2, 1, 2, 1]) 2 result
    ∧ (∀ fuel, 6 < fuel →
      bmFind fuel [1, 1, 2, 1, 2, 1] 2 [1, 2, 1] (bmInitSkiptable [1, 2, 1]) = some result)
    ∧ (2 + 3 ≤ 6 → ∀ fuel, 6 < fuel →
      qFindByteArray 64 true fuel [1, 1, 2, 1, 2, 1] 2 [1, 2, 1] = some result)
  := byteSearches_isFirst 64 true [1, 1, 2, 1, 2, 1] 2 (List.cons_ne_nil 1 [2, 1])

end QByteArrayMatcher
