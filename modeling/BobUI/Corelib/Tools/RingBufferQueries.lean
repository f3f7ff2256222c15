import BobUI.Corelib.Tools.RingBuffer

/-!
# Queries of a ring buffer

`readPointerAtPosition`, `indexOf` and `peek` of `qringbuffer.cpp` walk the chunks, each with
offsets of its own.  In every layout of chunks, empty ones included, what they find is found in
the octets of the chunks one behind the other.
-/

namespace QRingBuffer

/-! ### The walks over the chunks -/

/-- The loop of `readPointerAtPosition`; the pointer is given by the place of a chunk, where `n`
chunks have been passed, and by an offset into its octets. -/
def readPointerLoop : List QRingChunk → (n : ℕ) → (pos : ℤ) → Option (ℕ × ℤ) × ℤ
  | [], _, _ => (none, 0)
  | chunk :: chunks, n, pos =>
    let length : ℤ := chunk.size
    if length > pos then (some (n, pos), length - pos)
    else readPointerLoop chunks (n + 1) (pos - length)

/-- `readPointerAtPosition`: the pointer, and the number of octets to be read there. -/
def readPointerAtPosition (b : QRingBuffer) (pos : ℤ) : Option (ℕ × ℤ) × ℤ :=
  readPointerLoop b.buffers 0 pos

/-- `memchr`: the first place of an octet among the first `n`. -/
def memchr (ptr : QByteArray) (c : UInt8) (n : ℤ) : Option ℕ :=
  (ptr.take n.toNat).findIdx? (· == c)

/-- The loop of `indexOf`; `index` is the place of the next chunk, counted from `pos`. -/
def indexOfLoop (c : UInt8) (maxLength pos : ℤ) : List QRingChunk → (index : ℤ) → ℤ
  | [], _ => -1
  | chunk :: chunks, index =>
    let nextBlockIndex := min (index + chunk.size) maxLength
    if nextBlockIndex > 0 then
      let ptr := if index < 0 then chunk.data.drop (-index).toNat else chunk.data
      let index := if index < 0 then 0 else index
      match memchr ptr c (nextBlockIndex - index) with
      | some findPtr => findPtr + index + pos
      | none =>
        if nextBlockIndex = maxLength then -1
        else indexOfLoop c maxLength pos chunks nextBlockIndex
    else indexOfLoop c maxLength pos chunks nextBlockIndex

/-- `indexOf(char, qint64, qint64)`. -/
def indexOf (b : QRingBuffer) (c : UInt8) (maxLength pos : ℤ) : ℤ :=
  if maxLength = 0 then -1 else indexOfLoop c maxLength pos b.buffers (-pos)

/-- The loop of `peek`, with the octets written so far; `readSoFar` is their number. -/
def peekLoop (maxLength : ℤ) : List QRingChunk → (pos : ℤ) → (data : QByteArray) → QByteArray
  | [], _, data => data
  | chunk :: chunks, pos, data =>
    let readSoFar : ℤ := data.length
    if readSoFar = maxLength then data
    else
      let blockLength : ℤ := chunk.size
      if pos < blockLength then
        let blockLength := min (blockLength - pos) (maxLength - readSoFar)
        peekLoop maxLength chunks 0
          (data ++ (chunk.data.drop pos.toNat).take blockLength.toNat)
      else peekLoop maxLength chunks (pos - blockLength) data

/-- `peek(char *, qint64, qint64)`: what it returns, and the octets it writes. -/
def peek (b : QRingBuffer) (maxLength pos : ℤ) : ℤ × QByteArray :=
  let data := peekLoop maxLength b.buffers pos []
  (data.length, data)

/-! ### What they find -/

/-- The octets of chunks, one behind the other. -/
theorem contents_cons (chunk : QRingChunk) (chunks : List QRingChunk) :
  ((chunk :: chunks).map (·.data)).flatten = chunk.data ++ (chunks.map (·.data)).flatten
  := by
  rw [List.map_cons, List.flatten_cons]

theorem peekLoop_eq (maxLength : ℕ) (chunks : List QRingChunk) (pos : ℕ) (data : QByteArray)
    (h : data.length ≤ maxLength) :
  peekLoop maxLength chunks pos data
    = data ++ (((chunks.map (·.data)).flatten).drop pos).take (maxLength - data.length)
  := by
  induction chunks generalizing pos data with
  | nil => simp [peekLoop]
  | cons chunk chunks ih =>
    rw [peekLoop, contents_cons, List.drop_append, List.take_append]
    by_cases hfull : data.length = maxLength
    · simp [hfull]
    · have hroom : ¬ (data.length : ℤ) = maxLength := by omega
      rw [if_neg hroom]
      by_cases hhere : pos < chunk.data.length
      · have hblock : (pos : ℤ) < chunk.size := by exact_mod_cast hhere
        have hmin : (min ((chunk.size : ℤ) - pos) (maxLength - data.length)).toNat
            = min (maxLength - data.length) (chunk.data.drop pos).length := by
          rw [List.length_drop, QRingChunk.size]
          omega
        have htaken : (data ++ (chunk.data.drop pos).take
            (min (maxLength - data.length) (chunk.data.drop pos).length)).length
            = data.length + min (maxLength - data.length) (chunk.data.drop pos).length := by
          rw [List.length_append, List.length_take]
          omega
        have hnext := ih 0 (data ++ (chunk.data.drop pos).take
          (min (maxLength - data.length) (chunk.data.drop pos).length)) (by omega)
        rw [if_pos hblock]
        dsimp only
        rw [Int.toNat_natCast, hmin]
        rw [← Int.natCast_zero, hnext, htaken, List.append_assoc, List.drop_zero]
        rw [← List.take_take, List.take_length, Nat.sub_eq_zero_of_le hhere.le, List.drop_zero]
        congr 3
        omega
      · have hblock : ¬ (pos : ℤ) < chunk.size := by
          rw [QRingChunk.size]
          omega
        have hnext : (pos : ℤ) - chunk.size = (pos - chunk.data.length : ℕ) := by
          rw [QRingChunk.size]
          omega
        have hover : chunk.data.drop pos = [] := List.drop_of_length_le (by omega)
        rw [if_neg hblock, hnext, ih _ _ h, hover]
        simp

theorem indexOfLoop_eq (c : UInt8) (maxLength : ℕ) (pos : ℤ) (chunks : List QRingChunk) (index : ℤ)
    (hpositive : 0 < maxLength) (h : index < maxLength) :
  indexOfLoop c maxLength pos chunks index
    = match ((((chunks.map (·.data)).flatten).drop (-index).toNat).take
        (maxLength - max index 0).toNat).findIdx? (· == c) with
      | some i => i + max index 0 + pos
      | none => -1
  := by
  induction chunks generalizing index with
  | nil => simp [indexOfLoop]
  | cons chunk chunks ih =>
    rw [indexOfLoop, contents_cons, List.drop_append, List.take_append]
    by_cases hreached : 0 < index + chunk.size
    · have hptr : (if index < 0 then chunk.data.drop (-index).toNat else chunk.data)
          = chunk.data.drop (-index).toNat := by
        split_ifs with hneg
        · rfl
        · rw [Int.toNat_of_nonpos (by omega), List.drop_zero]
      have hindex : (if index < 0 then 0 else index) = max index 0 := by
        split_ifs
        · omega
        · omega
      have hlength : ((chunk.data.drop (-index).toNat).length : ℤ)
          = index + chunk.size - max index 0 := by
        rw [List.length_drop]
        rw [QRingChunk.size] at hreached ⊢
        omega
      have hpos : min (index + chunk.size) (maxLength : ℤ) > 0 := by omega
      have hunder : (-index).toNat - chunk.data.length = 0 := by
        rw [QRingChunk.size] at hreached
        omega
      dsimp only
      rw [if_pos hpos, hptr, hindex, memchr, hunder, List.drop_zero, List.findIdx?_append]
      by_cases hlast : (maxLength : ℤ) ≤ index + chunk.size
      · have hnone : (maxLength - max index 0).toNat - (chunk.data.drop (-index).toNat).length
            = 0 := by omega
        rw [Int.min_eq_right hlast, hnone, List.take_zero, List.findIdx?_nil, Option.map_none,
          Option.or_none, if_pos rfl]
      · have hwhole : (chunk.data.drop (-index).toNat).take (maxLength - max index 0).toNat
            = chunk.data.drop (-index).toNat := List.take_of_length_le (by omega)
        have hblock : (chunk.data.drop (-index).toNat).take
            (index + chunk.size - max index 0).toNat = chunk.data.drop (-index).toNat :=
          List.take_of_length_le (by omega)
        have hrest : (maxLength - max index 0).toNat - (chunk.data.drop (-index).toNat).length
            = (maxLength - max (index + chunk.size) 0).toNat := by omega
        have hstart : (-(index + chunk.size : ℤ)).toNat = 0 := by omega
        rw [Int.min_eq_left (by omega), hwhole, hblock, hrest]
        cases (chunk.data.drop (-index).toNat).findIdx? (· == c) with
        | some i => rfl
        | none =>
          rw [Option.none_or, if_neg (by omega), ih _ (by omega), hstart, List.drop_zero]
          cases (((chunks.map (·.data)).flatten).take
            (maxLength - max (index + chunk.size) 0).toNat).findIdx? (· == c) with
          | none => rfl
          | some i =>
            have hsum : (i : ℤ) + max (index + chunk.size) 0 + pos
                = (i + (chunk.data.drop (-index).toNat).length : ℕ) + max index 0 + pos := by
              omega
            apply hsum
    · have hmin : min (index + chunk.size) (maxLength : ℤ) = index + chunk.size := by omega
      have hover : chunk.data.drop (-index).toNat = [] := by
        apply List.drop_of_length_le
        rw [QRingChunk.size] at hreached
        omega
      have hrest : (-index).toNat - chunk.data.length = (-(index + chunk.size : ℤ)).toNat := by
        rw [QRingChunk.size] at hreached ⊢
        omega
      have hmax : max (index + chunk.size : ℤ) 0 = max index 0 := by omega
      dsimp only
      rw [hmin, if_neg hreached, ih _ (by omega), hover, hrest, hmax, List.take_nil,
        List.nil_append, List.length_nil, Nat.sub_zero]

theorem readPointerLoop_eq (chunks : List QRingChunk) (n pos : ℕ) :
  (((chunks.map (·.data)).flatten).length ≤ pos ∧ readPointerLoop chunks n pos = (none, 0)) ∨
    ∃ (i offset : ℕ) (chunk : QRingChunk), chunks[i]? = some chunk ∧ offset < chunk.size ∧
      readPointerLoop chunks n pos = (some (n + i, (offset : ℤ)), (chunk.size : ℤ) - offset) ∧
      chunk.data.drop offset <+: ((chunks.map (·.data)).flatten).drop pos
  := by
  induction chunks generalizing n pos with
  | nil =>
    left
    constructor
    · simp
    · rfl
  | cons chunk chunks ih =>
    rw [readPointerLoop, contents_cons, List.drop_append, List.length_append]
    by_cases hhere : pos < chunk.size
    · right
      have hblock : (chunk.size : ℤ) > pos := Int.ofNat_lt.mpr hhere
      use 0, pos, chunk, rfl, hhere
      constructor
      · rw [if_pos hblock, Nat.add_zero]
      · apply List.prefix_append
    · have hblock : ¬ (chunk.size : ℤ) > pos := by omega
      have hnext : (pos : ℤ) - chunk.size = (pos - chunk.data.length : ℕ) := by
        rw [QRingChunk.size] at hhere ⊢
        omega
      have hover : chunk.data.drop pos = [] := by
        apply List.drop_of_length_le
        rw [QRingChunk.size] at hhere
        omega
      rw [if_neg hblock, hnext, hover, List.nil_append]
      rcases ih (n + 1) (pos - chunk.data.length) with ⟨hend, heq⟩ |
        ⟨i, offset, c, hc, hoffset, heq, hrest⟩
      · left
        constructor
        · rw [QRingChunk.size] at hhere
          omega
        · apply heq
      · right
        use i + 1, offset, c, hc, hoffset
        constructor
        · rw [heq, Nat.add_assoc, Nat.add_comm 1]
        · apply hrest

/-! ### The queries of a buffer -/

/-- `i` is the first place of `c` among the places from `pos` on, `maxLength` of them, or -1
where it is at none of them. -/
def FirstFrom (s : QByteArray) (c : UInt8) (maxLength pos : ℕ) (i : ℤ) : Prop :=
  (∃ n : ℕ, i = n ∧ pos ≤ n ∧ n < pos + maxLength ∧ s[n]? = some c ∧
    ∀ k, pos ≤ k → k < n → s[k]? ≠ some c) ∨
  i = -1 ∧ ∀ k, pos ≤ k → k < pos + maxLength → s[k]? ≠ some c

theorem firstFrom_findIdx? (s : QByteArray) (c : UInt8) (maxLength pos : ℕ) :
  FirstFrom s c maxLength pos
    (match ((s.drop pos).take maxLength).findIdx? (· == c) with
      | some i => (i : ℤ) + pos
      | none => -1)
  := by
  have hget : ∀ k, ((s.drop pos).take maxLength)[k]?
      = if k < maxLength then s[pos + k]? else none := by
    intro k
    rw [List.getElem?_take, List.getElem?_drop]
  cases hfind : ((s.drop pos).take maxLength).findIdx? (· == c) with
  | none =>
    rw [List.findIdx?_eq_none_iff] at hfind
    right
    constructor
    · rfl
    · intro k hpos hk hc
      have hoctet : ((s.drop pos).take maxLength)[k - pos]? = some c := by
        rw [hget, if_pos (by omega), Nat.add_sub_cancel' hpos, hc]
      have hother := hfind c (List.mem_of_getElem? hoctet)
      simp at hother
  | some i =>
    rw [List.findIdx?_eq_some_iff_getElem] at hfind
    obtain ⟨hi, hc, hbefore⟩ := hfind
    have hlength := hi
    rw [List.length_take] at hlength
    left
    use i + pos
    constructor
    · rfl
    constructor
    · omega
    constructor
    · omega
    constructor
    · have hoctet := List.getElem?_eq_getElem hi
      rw [hget, if_pos (by omega), Nat.add_comm] at hoctet
      rw [hoctet, eq_of_beq hc]
    · intro k hpos hk heq
      have hoctet := List.getElem?_eq_getElem (Nat.lt_trans (by omega : k - pos < i) hi)
      rw [hget, if_pos (by omega), Nat.add_sub_cancel' hpos, heq] at hoctet
      apply hbefore (k - pos) (by omega)
      rw [← Option.some.inj hoctet]
      apply beq_self_eq_true

/-- In every layout of its chunks the queries of a buffer agree with the sequence of its octets:
`peek` reads the octets from a place on, `indexOf` finds the first place of an octet among
them, and `readPointerAtPosition` points at an octet, with what its chunk holds from there on
as the next octets of the sequence. -/
theorem queries_agree (b : QRingBuffer) (maxLength pos : ℕ) (c : UInt8) :
  b.peek maxLength pos = ((((b.contents.drop pos).take maxLength).length : ℤ),
    (b.contents.drop pos).take maxLength) ∧
  FirstFrom b.contents c maxLength pos (b.indexOf c maxLength pos) ∧
  (b.contents.length ≤ pos ∧ b.readPointerAtPosition pos = (none, 0) ∨
    ∃ (n offset : ℕ) (chunk : QRingChunk), b.buffers[n]? = some chunk ∧ offset < chunk.size ∧
      b.readPointerAtPosition pos = (some (n, (offset : ℤ)), (chunk.size : ℤ) - offset) ∧
      chunk.data.drop offset <+: b.contents.drop pos)
  := by
  constructor
  · have h_peek := peekLoop_eq maxLength b.buffers pos [] (Nat.zero_le _)
    rw [List.nil_append, List.length_nil, Nat.sub_zero] at h_peek
    rw [peek, h_peek]
    rfl
  constructor
  · rw [indexOf]
    by_cases h_zero : maxLength = 0
    · rw [if_pos (by omega), h_zero]
      right
      constructor
      · rfl
      · intro k h_pos h_k
        omega
    · have h_find := firstFrom_findIdx? b.contents c maxLength pos
      have h_start : max (-(pos : ℤ)) 0 = 0 := by omega
      have h_loop := indexOfLoop_eq c maxLength pos b.buffers (-pos) (by omega) (by omega)
      rw [h_start, Int.neg_neg, Int.toNat_natCast, Int.sub_zero, Int.toNat_natCast] at h_loop
      simp only [Int.add_zero] at h_loop
      rw [if_neg (by omega), h_loop]
      apply h_find
  · have h_pointer := readPointerLoop_eq b.buffers 0 pos
    simp only [Nat.zero_add] at h_pointer
    apply h_pointer

end QRingBuffer
