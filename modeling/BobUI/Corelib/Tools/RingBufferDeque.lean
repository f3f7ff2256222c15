import BobUI.Corelib.Tools.RingBuffer

/-!
# Ring buffers as deques

A ring buffer is well formed if its size is the number of its octets, and none of its chunks
is empty unless it is the only one.

* `run_refines_deque`: in a run that appends empty arrays to an empty buffer only, every call
  returns what the call on a sequence of octets returns, and leaves these octets in the chunks.
-/

/-- The chunks of a ring buffer: none is empty, unless a single block is kept around. -/
def ValidChunks (l : List QRingChunk) : Prop :=
  (∀ c ∈ l, c.data ≠ []) ∨ ∃ c, l = [c] ∧ c.data = [] ∧ c.headOffset = 0

theorem ValidChunks.reverse {l : List QRingChunk} (h : ValidChunks l) :
  ValidChunks l.reverse
  := by
  rcases h with h | ⟨c, rfl, h⟩
  · exact .inl fun c hc => h c (List.mem_reverse.mp hc)
  · exact .inr ⟨c, rfl, h⟩

namespace QRingBuffer

/-- The invariant of a ring buffer. -/
structure WellFormed (b : QRingBuffer) : Prop where
  size : b.bufferSize = b.contents.length
  chunks : ValidChunks b.buffers

variable {b : QRingBuffer} {c : QRingChunk} {octets : QByteArray}

theorem WellFormed.bufferSize_eq_zero (h : b.WellFormed) :
  b.bufferSize = 0 ↔ b.contents = []
  := by
  rw [h.size, Int.natCast_eq_zero, List.length_eq_zero_iff]

/-- A buffer of size zero has one block at most. -/
theorem WellFormed.of_size_zero (h : b.WellFormed) (hsize : b.bufferSize = 0) :
  b.buffers = [] ∨ ∃ c, b.buffers = [c] ∧ c.data = [] ∧ c.headOffset = 0
  := by
  rw [h.bufferSize_eq_zero, contents, List.flatten_eq_nil_iff] at hsize
  rcases h.chunks with hchunks | hchunks
  · refine .inl (List.eq_nil_iff_forall_not_mem.mpr fun c hc => hchunks c hc ?_)
    exact hsize _ (List.mem_map_of_mem hc)
  · exact .inr hchunks

theorem WellFormed.of_size_pos (h : b.WellFormed) (hsize : b.bufferSize ≠ 0) :
  b.buffers ≠ [] ∧ ∀ c ∈ b.buffers, c.data ≠ []
  := by
  rw [Ne, h.bufferSize_eq_zero] at hsize
  rcases h.chunks with hchunks | ⟨c, hc, hdata, -⟩
  · refine ⟨fun hnil => hsize ?_, hchunks⟩
    rw [contents, hnil]
    rfl
  · refine absurd ?_ hsize
    simp [contents, hc, hdata]

theorem wellFormed_new (growth : ℤ) :
  (new growth).WellFormed
  := ⟨rfl, .inl (by simp [new])⟩

/-! ### Giving up octets -/

/-- The loop of `free` and `chop` gives up the octets at its end; `view` reads a chunk from
this end. -/
theorem release_spec (shrink : QRingChunk → ℕ → QRingChunk) (view : QRingChunk → QByteArray)
    (hlength : ∀ c, (view c).length = c.size) (hshrink : ∀ c n, view (shrink c n) = (view c).drop n)
    (basicBlockSize : ℤ) {l : List QRingChunk} (hl : ∀ c ∈ l, c.data ≠ []) {n : ℕ}
    (hn : n ≤ (l.map view).flatten.length) :
  ∃ l', release shrink basicBlockSize l n (l.map view).flatten.length =
      some (l', ((l.map view).flatten.length : ℤ) - n) ∧
    (l'.map view).flatten = (l.map view).flatten.drop n ∧ ValidChunks l'
  := by
  induction l generalizing n with
  | nil =>
    obtain rfl : n = 0 := Nat.le_zero.mp hn
    exact ⟨[], by simp [release], rfl, .inl hl⟩
  | cons c l ih =>
    rw [List.forall_mem_cons] at hl
    have hnil : ∀ d : QRingChunk, d.data = [] → view d = [] := by
      intro d hd
      rw [← List.length_eq_zero_iff, hlength, QRingChunk.size, hd, List.length_nil]
    rw [List.map_cons, List.flatten_cons, List.length_append] at hn ⊢
    by_cases hzero : n = 0
    · subst hzero
      refine ⟨c :: l, ?_, by simp, .inl (List.forall_mem_cons.mpr hl)⟩
      simp [release]
    by_cases hlast : l = [] ∨ c.size > n
    · by_cases hall : (view c).length + (l.map view).flatten.length = n
      · have hempty : l = [] := by
          refine hlast.resolve_right fun hgt => ?_
          rw [hlength] at hall
          omega
        subst hempty
        by_cases hkeep : (c.capacity : ℤ) ≤ basicBlockSize ∧ (!c.shared) = true
        · refine ⟨[c.reset], ?_, ?_, .inr ⟨_, rfl, rfl, rfl⟩⟩
          · rw [release, if_neg (by omega), if_pos (.inl rfl), if_pos (by omega), if_pos hkeep]
            simp at hall ⊢
            omega
          · rw [List.drop_of_length_le (by simp at hall ⊢; omega)]
            simp [hnil c.reset rfl]
        · refine ⟨[.null], ?_, ?_, .inr ⟨_, rfl, rfl, rfl⟩⟩
          · rw [release, if_neg (by omega), if_pos (.inl rfl), if_pos (by omega), if_neg hkeep]
            simp at hall ⊢
            omega
          · rw [List.drop_of_length_le (by simp at hall ⊢; omega)]
            simp [hnil .null rfl]
      · have hlt : n < c.size := by
          rcases hlast with rfl | hgt
          · simp only [List.map_nil, List.flatten_nil, List.length_nil, hlength] at hall hn
            omega
          · exact hgt
        refine ⟨shrink c n :: l, ?_, ?_, .inl (List.forall_mem_cons.mpr ⟨?_, hl.2⟩)⟩
        · rw [release, if_neg (by omega), if_pos (hlast.imp_right fun h => by omega),
            if_neg (by omega)]
          simp
        · rw [List.map_cons, List.flatten_cons, hshrink, List.drop_append_of_le_length]
          rw [hlength]
          exact Nat.le_of_lt hlt
        · intro hdata
          have hview := congrArg List.length (hshrink c n)
          rw [hnil _ hdata, List.length_drop, hlength] at hview
          simp at hview
          omega
    · rw [not_or, Nat.not_lt] at hlast
      obtain ⟨l', hrelease, hflatten, hvalid⟩ := ih hl.2 (n := n - c.size)
        (by rw [hlength] at hn; omega)
      refine ⟨l', ?_, ?_, hvalid⟩
      · rw [release, if_neg (by omega), if_neg (by simp [hlast.1]; omega)]
        rw [hlength]
        have heq : ((c.size + (l.map view).flatten.length : ℕ) : ℤ) - c.size =
            (l.map view).flatten.length := by omega
        rw [Int.ofNat_sub hlast.2] at hrelease
        rw [heq, hrelease]
        congr 2
        omega
      · have hview : (view c).drop n = [] :=
          List.drop_of_length_le (by rw [hlength]; exact hlast.2)
        rw [hflatten, List.drop_append, hview, List.nil_append, hlength]

theorem release_zero (shrink : QRingChunk → ℕ → QRingChunk) (basicBlockSize : ℤ)
    (l : List QRingChunk) (bufferSize : ℤ) :
  release shrink basicBlockSize l 0 bufferSize = some (l, bufferSize)
  := by
  cases l <;> simp [release]

theorem WellFormed.free (h : b.WellFormed) {n : ℕ} (hn : n ≤ b.contents.length) :
  ∃ b', b.free n = some b' ∧ b'.WellFormed ∧ b'.contents = b.contents.drop n
  := by
  by_cases hzero : n = 0
  · subst hzero
    refine ⟨b, ?_, h, rfl⟩
    rw [QRingBuffer.free, Int.natCast_zero, release_zero]
    rfl
  · have hsize : b.bufferSize ≠ 0 := by
      rw [h.size]
      omega
    obtain ⟨l', hrelease, hflatten, hvalid⟩ := release_spec .advance (·.data) (fun _ => rfl)
      (fun _ _ => rfl) b.basicBlockSize (h.of_size_pos hsize).2 hn
    refine ⟨{ b with buffers := l', bufferSize := b.contents.length - n }, ?_, ⟨?_, hvalid⟩,
      hflatten⟩
    · rw [QRingBuffer.free, h.size]
      exact congrArg (Option.bind · _) hrelease
    · have hlength := congrArg List.length hflatten
      rw [List.length_drop] at hlength
      change _ = ((l'.map (·.data)).flatten.length : ℤ)
      rw [hlength]
      exact (Int.ofNat_sub hn).symm

theorem contents_reverse (l : List QRingChunk) :
  (l.reverse.map (·.data.reverse)).flatten = (l.map (·.data)).flatten.reverse
  := by
  rw [List.reverse_flatten, List.map_reverse, List.map_map]
  rfl

theorem WellFormed.chop (h : b.WellFormed) {n : ℕ} (hn : n ≤ b.contents.length) :
  ∃ b', b.chop n = some b' ∧ b'.WellFormed ∧
    b'.contents = b.contents.take (b.contents.length - n)
  := by
  by_cases hzero : n = 0
  · subst hzero
    refine ⟨b, ?_, h, by simp⟩
    rw [QRingBuffer.chop, Int.natCast_zero, release_zero]
    simp
  · have hsize : b.bufferSize ≠ 0 := by
      rw [h.size]
      omega
    have htotal : (b.buffers.reverse.map (·.data.reverse)).flatten.length = b.contents.length := by
      rw [contents_reverse, List.length_reverse]
      rfl
    obtain ⟨l', hrelease, hflatten, hvalid⟩ := release_spec .growBack (·.data.reverse)
      (fun _ => List.length_reverse) (fun _ _ => List.drop_reverse.symm)
      b.basicBlockSize (l := b.buffers.reverse)
      (fun c hc => (h.of_size_pos hsize).2 c (List.mem_reverse.mp hc)) (htotal ▸ hn)
    rw [htotal] at hrelease
    have hcontents : (l'.reverse.map (·.data)).flatten =
        b.contents.take (b.contents.length - n) := by
      have heq := contents_reverse l'.reverse
      rw [List.reverse_reverse, hflatten, contents_reverse, List.drop_reverse] at heq
      exact (List.reverse_injective heq).symm
    refine ⟨{ b with buffers := l'.reverse, bufferSize := b.contents.length - n }, ?_,
      ⟨?_, hvalid.reverse⟩, hcontents⟩
    · rw [QRingBuffer.chop, h.size]
      exact congrArg (Option.bind · _) hrelease
    · change _ = ((l'.reverse.map (·.data)).flatten.length : ℤ)
      rw [hcontents, List.length_take]
      dsimp only
      omega

/-! ### Taking octets -/

theorem length_le_chunkSize (b : QRingBuffer) (n : ℕ) :
  n ≤ b.chunkSize n
  := by
  rw [chunkSize]
  omega

theorem grow_spec (octets : QByteArray) (h : octets.length ≤ c.available) :
  ∃ c', c.grow octets = some c' ∧ c'.data = c.data ++ octets
  := ⟨_, if_pos h, rfl⟩

/-- The last chunk takes octets if it has room for them. -/
theorem growLast_spec (chunks : List QRingChunk) (hbuffers : b.buffers = chunks ++ [c])
    (hchunks : ∀ d ∈ chunks, d.data ≠ []) (hsize : b.bufferSize = b.contents.length)
    (hoctets : octets ≠ []) (hroom : octets.length ≤ c.available) :
  ∃ b', b.growLast octets = some b' ∧ b'.WellFormed ∧ b'.contents = b.contents ++ octets
  := by
  obtain ⟨c', hgrow, hdata⟩ := grow_spec octets hroom
  let b' : QRingBuffer :=
    { b with buffers := chunks ++ [c'], bufferSize := b.bufferSize + octets.length }
  have hcontents : b'.contents = b.contents ++ octets := by
    simp [contents, hbuffers, hdata, b']
  refine ⟨b', ?_, ⟨?_, .inl ?_⟩, hcontents⟩
  · simp [growLast, hbuffers, hgrow, b']
  · rw [hcontents, List.length_append, Int.natCast_add, ← hsize]
  · intro d hd
    rcases List.mem_append.mp hd with hd | hd
    · exact hchunks d hd
    · rw [List.mem_singleton] at hd
      simp [hd, hdata, hoctets]

theorem available_allocate (hdata : c.data = []) (hhead : c.headOffset = 0) (alloc : ℕ) :
  alloc ≤ (c.allocate alloc).available
  := by
  unfold QRingChunk.allocate
  split
  · simp [QRingChunk.tailOffset, QRingChunk.size, hdata, hhead]
  · rename_i h
    rw [not_or, QRingChunk.capacity, QRingChunk.tailOffset, QRingChunk.size, hdata, hhead] at h
    simpa using h.1

theorem data_allocate (c : QRingChunk) (alloc : ℕ) :
  (c.allocate alloc).data = c.data
  := by
  unfold QRingChunk.allocate
  split <;> rfl

theorem WellFormed.reserve (h : b.WellFormed) (hoctets : octets ≠ []) :
  ∃ b', b.reserve octets = some b' ∧ b'.WellFormed ∧ b'.contents = b.contents ++ octets
  := by
  have hle := b.length_le_chunkSize octets.length
  have hfresh : ({ b with buffers := b.buffers ++ [.ofSize (b.chunkSize octets.length)] } :
      QRingBuffer).contents = b.contents := by
    simp [contents, QRingChunk.ofSize]
  unfold QRingBuffer.reserve
  by_cases hsize : b.bufferSize = 0
  · rw [if_pos hsize]
    rcases h.of_size_zero hsize with hnil | ⟨c, hc, hdata, hhead⟩
    · have hgrow := growLast_spec (b := { b with
        buffers := b.buffers ++ [.ofSize (b.chunkSize octets.length)] }) b.buffers rfl (by simp [hnil])
        (by rw [hfresh]; exact h.size) hoctets hle
      rw [hfresh] at hgrow
      simpa only [hnil] using hgrow
    · have hcontents : ({ b with buffers := [c.allocate (b.chunkSize octets.length)] } :
          QRingBuffer).contents = b.contents := by
        simp [contents, hc, data_allocate]
      have hgrow := growLast_spec (b := { b with
        buffers := [c.allocate (b.chunkSize octets.length)] }) [] rfl (by simp)
        (by rw [hcontents]; exact h.size) hoctets
        (Nat.le_trans hle (available_allocate hdata hhead _))
      rw [hcontents] at hgrow
      simpa only [hc] using hgrow
  · rw [if_neg hsize]
    obtain ⟨hne, hchunks⟩ := h.of_size_pos hsize
    obtain ⟨chunks, c, hlast⟩ := List.eq_nil_or_concat' b.buffers |>.resolve_left hne
    have hget : b.buffers.getLast? = some c := by simp [hlast]
    simp only [hget]
    split
    · have hgrow := growLast_spec (b := { b with
        buffers := b.buffers ++ [.ofSize (b.chunkSize octets.length)] }) b.buffers rfl hchunks
        (by rw [hfresh]; exact h.size) hoctets hle
      rw [hfresh] at hgrow
      exact hgrow
    · rename_i hroom
      rw [not_or, not_or, Nat.not_lt] at hroom
      exact growLast_spec chunks hlast (fun d hd => hchunks d (by simp [hlast, hd])) h.size hoctets
        hroom.2.2

/-- The first chunk takes octets at the end of an array that has room for them. -/
theorem growFirst_spec {chunks : List QRingChunk} (hbuffers : b.buffers = c :: chunks)
    (hdata : c.data = []) (hchunks : ∀ d ∈ chunks, d.data ≠ [])
    (hsize : b.bufferSize = b.contents.length) (hoctets : octets ≠ []) {chunkSize : ℕ}
    (hle : octets.length ≤ chunkSize) (hroom : chunkSize ≤ c.available) :
  ∃ b', b.growFirst chunkSize octets = some b' ∧ b'.WellFormed ∧
    b'.contents = octets ++ b.contents
  := by
  obtain ⟨c', hgrow, hc'⟩ := grow_spec (c := c)
    (List.replicate (chunkSize - octets.length) 0 ++ octets) (by simp; omega)
  rw [hdata, List.nil_append] at hc'
  let b' : QRingBuffer := { b with
    buffers := c'.advance (chunkSize - octets.length) :: chunks
    bufferSize := b.bufferSize + octets.length }
  have hadvance : (c'.advance (chunkSize - octets.length)).data = octets := by
    simp [QRingChunk.advance, hc']
  have hcontents : b'.contents = octets ++ b.contents := by
    simp [contents, hbuffers, hdata, hadvance, b']
  refine ⟨b', ?_, ⟨?_, .inl ?_⟩, hcontents⟩
  · simp [growFirst, hbuffers, hgrow, b']
  · rw [hcontents, List.length_append, Nat.add_comm, Int.natCast_add, ← hsize]
  · rw [List.forall_mem_cons, hadvance]
    exact ⟨hoctets, hchunks⟩

theorem WellFormed.reserveFront (h : b.WellFormed) (hoctets : octets ≠ []) :
  ∃ b', b.reserveFront octets = some b' ∧ b'.WellFormed ∧ b'.contents = octets ++ b.contents
  := by
  have hle := b.length_le_chunkSize octets.length
  have hfresh : ({ b with buffers := .ofSize (b.chunkSize octets.length) :: b.buffers } :
      QRingBuffer).contents = b.contents := by
    simp [contents, QRingChunk.ofSize]
  unfold QRingBuffer.reserveFront
  by_cases hsize : b.bufferSize = 0
  · rw [if_pos hsize]
    rcases h.of_size_zero hsize with hnil | ⟨c, hc, hdata, hhead⟩
    · have hgrow := growFirst_spec (b := { b with
        buffers := .ofSize (b.chunkSize octets.length) :: b.buffers }) rfl rfl (by simp [hnil])
        (by rw [hfresh]; exact h.size) hoctets hle (Nat.le_refl _)
      rw [hfresh] at hgrow
      simpa only [hnil] using hgrow
    · have hcontents : ({ b with buffers := [c.allocate (b.chunkSize octets.length)] } :
          QRingBuffer).contents = b.contents := by
        simp [contents, hc, data_allocate]
      have hgrow := growFirst_spec (b := { b with
        buffers := [c.allocate (b.chunkSize octets.length)] }) rfl
        ((data_allocate _ _).trans hdata) (by simp)
        (by rw [hcontents]; exact h.size) hoctets hle (available_allocate hdata hhead _)
      rw [hcontents] at hgrow
      simpa only [hc] using hgrow
  · rw [if_neg hsize]
    obtain ⟨hne, hchunks⟩ := h.of_size_pos hsize
    obtain ⟨c, chunks, hfirst⟩ := List.exists_cons_of_ne_nil hne
    simp only [hfirst]
    split
    · have hgrow := growFirst_spec (b := { b with
        buffers := .ofSize (b.chunkSize octets.length) :: b.buffers }) rfl rfl hchunks
        (by rw [hfresh]; exact h.size) hoctets hle (Nat.le_refl _)
      rw [hfresh] at hgrow
      simpa only [hfirst] using hgrow
    · rename_i hroom
      rw [not_or, not_or, Nat.not_lt] at hroom
      rw [hfirst, List.forall_mem_cons] at hchunks
      let b' : QRingBuffer := { b with
        buffers := { c with
          headOffset := c.headOffset - octets.length, data := octets ++ c.data } :: chunks
        bufferSize := b.bufferSize + octets.length }
      have hcontents : b'.contents = octets ++ b.contents := by
        simp [contents, hfirst, b']
      refine ⟨b', ?_, ⟨?_, .inl ?_⟩, hcontents⟩
      · simp [QRingChunk.advanceBack, hroom.2.2, b']
      · rw [hcontents, List.length_append, Nat.add_comm, Int.natCast_add, ← h.size]
      · rw [List.forall_mem_cons]
        exact ⟨by simp [hoctets], hchunks.2⟩

theorem WellFormed.append (h : b.WellFormed) (data : QByteArray) :
  ∃ b', b.append data = some b' ∧ b'.WellFormed ∧ b'.contents = b.contents ++ data
  := by
  by_cases hdata : data = []
  · subst hdata
    exact ⟨b, if_pos rfl, h, (List.append_nil _).symm⟩
  · rw [QRingBuffer.append, if_neg hdata]
    exact h.reserve hdata

theorem WellFormed.buffers_appendArray (h : b.WellFormed) (qba : QByteArray) (shared : Bool) :
  (b.appendArray qba shared).buffers =
    (if b.bufferSize = 0 then [] else b.buffers) ++ [.ofArray qba shared]
  := by
  by_cases hsize : b.bufferSize = 0
  · rcases h.of_size_zero hsize with hnil | ⟨c, hc, -⟩
    · simp [QRingBuffer.appendArray, hnil]
    · simp [QRingBuffer.appendArray, hc, hsize]
  · simp [QRingBuffer.appendArray, hsize]

/-- An array is appended; an empty one must not stand behind other chunks. -/
theorem WellFormed.appendArray (h : b.WellFormed) {qba : QByteArray}
    (hqba : qba = [] → b.bufferSize = 0) (shared : Bool) :
  (b.appendArray qba shared).WellFormed ∧ (b.appendArray qba shared).contents = b.contents ++ qba
  := by
  have hcontents : (b.appendArray qba shared).contents = b.contents ++ qba := by
    rw [contents, h.buffers_appendArray]
    split
    · rename_i hsize
      rw [h.bufferSize_eq_zero.mp hsize]
      simp [QRingChunk.ofArray]
    · simp [contents, QRingChunk.ofArray]
  refine ⟨⟨?_, ?_⟩, hcontents⟩
  · rw [hcontents, List.length_append, Int.natCast_add, ← h.size]
    rfl
  · rw [h.buffers_appendArray]
    by_cases hempty : qba = []
    · rw [if_pos (hqba hempty)]
      exact .inr ⟨_, rfl, hempty, rfl⟩
    · left
      intro c hc
      rcases List.mem_append.mp hc with hc | hc
      · split at hc
        · cases hc
        · rename_i hsize
          exact (h.of_size_pos hsize).2 c hc
      · rw [List.mem_singleton] at hc
        rw [hc]
        exact hempty

theorem WellFormed.clear (h : b.WellFormed) :
  b.clear.WellFormed ∧ b.clear.contents = []
  := by
  unfold QRingBuffer.clear
  split
  · rename_i hnil
    exact ⟨h, by simp [contents, hnil]⟩
  · exact ⟨⟨rfl, .inr ⟨_, rfl, rfl, rfl⟩⟩, rfl⟩

/-! ### Reading -/

theorem WellFormed.nextDataBlock (h : b.WellFormed) (hne : b.contents ≠ []) :
  ∃ c chunks, b.buffers = c :: chunks ∧ b.nextDataBlock = some c.data ∧ c.data ≠ [] ∧
    b.contents = c.data ++ (chunks.map (·.data)).flatten
  := by
  have hsize : b.bufferSize ≠ 0 := fun hzero => hne (h.bufferSize_eq_zero.mp hzero)
  obtain ⟨hbuffers, hchunks⟩ := h.of_size_pos hsize
  obtain ⟨c, chunks, hfirst⟩ := List.exists_cons_of_ne_nil hbuffers
  refine ⟨c, chunks, hfirst, ?_, hchunks c (by simp [hfirst]), ?_⟩
  · simp [QRingBuffer.nextDataBlock, hsize, hfirst]
  · simp [contents, hfirst]

/-- Each turn of the loop reads an octet at least, so it ends. -/
theorem WellFormed.readLoop (h : b.WellFormed) {n : ℕ} (hn : n ≤ b.contents.length)
    (before : QByteArray) :
  ∃ b', b'.WellFormed ∧ b'.contents = b.contents.drop n ∧ ∀ turns, n ≤ turns →
    readLoop turns b (before.length + n : ℕ) before = some (before ++ b.contents.take n, b')
  := by
  induction n using Nat.strong_induction_on generalizing b before with
  | _ n ih =>
    by_cases hzero : n = 0
    · subst hzero
      refine ⟨b, h, rfl, fun turns _ => ?_⟩
      cases turns <;> simp [QRingBuffer.readLoop]
    · have hne : b.contents ≠ [] := by
        intro hnil
        rw [hnil] at hn
        exact hzero (Nat.le_zero.mp hn)
      obtain ⟨c, chunks, -, hblock, hdata, hcontents⟩ := h.nextDataBlock hne
      have hpos := List.length_pos_iff.mpr hdata
      obtain ⟨b₁, hfree, hb₁, hcontents₁⟩ := h.free (n := min n c.data.length) (by omega)
      obtain ⟨b', hb', hcontents', hloop⟩ := ih (n - min n c.data.length) (by omega) hb₁
        (by rw [hcontents₁, List.length_drop]; omega)
        (before ++ c.data.take (min n c.data.length))
      refine ⟨b', hb', ?_, fun turns hturns => ?_⟩
      · rw [hcontents', hcontents₁, List.drop_drop]
        congr 1
        omega
      · obtain ⟨turns, rfl⟩ := Nat.exists_eq_succ_of_ne_zero (Nat.ne_of_gt (by omega : 0 < turns))
        have hmin : min (((before.length + n : ℕ) : ℤ) - before.length) c.data.length =
            (min n c.data.length : ℕ) := by omega
        have htotal : (before ++ c.data.take (min n c.data.length)).length +
            (n - min n c.data.length) = before.length + n := by
          rw [List.length_append, List.length_take]
          omega
        have htake : c.data.take (min n c.data.length) ++
            (b.contents.drop (min n c.data.length)).take (n - min n c.data.length) =
            b.contents.take n := by
          have hfirst : b.contents.take (min n c.data.length) =
              c.data.take (min n c.data.length) := by
            rw [hcontents, List.take_append_of_le_length (Nat.min_le_right ..)]
          rw [← hfirst, ← List.take_add]
          congr 1
          omega
        have hrest := hloop turns (by omega)
        rw [htotal, hcontents₁, List.append_assoc, htake] at hrest
        rw [QRingBuffer.readLoop, if_pos (by omega), hblock]
        simp only [Option.bind_eq_bind, Option.bind_some, hmin, hfree, Int.toNat_natCast]
        exact hrest

theorem WellFormed.readFirst (h : b.WellFormed) :
  ∃ first b', b.readFirst = some (first, b') ∧ b'.WellFormed ∧
    b.contents = first ++ b'.contents ∧ (b.contents ≠ [] → first ≠ [])
  := by
  unfold QRingBuffer.readFirst
  by_cases hsize : b.bufferSize = 0
  · rw [if_pos hsize]
    exact ⟨[], b, rfl, h, rfl, fun hne => absurd (h.bufferSize_eq_zero.mp hsize) hne⟩
  · rw [if_neg hsize]
    obtain ⟨c, chunks, hfirst, -, hdata, hcontents⟩ := h.nextDataBlock
      (fun hnil => hsize (h.bufferSize_eq_zero.mpr hnil))
    simp only [hfirst]
    refine ⟨_, _, rfl, ⟨?_, .inl ?_⟩, hcontents, fun _ => hdata⟩
    · rw [h.size, hcontents, List.length_append, QRingChunk.size]
      simp [contents]
    · intro d hd
      exact (h.of_size_pos hsize).2 d (by simp [hfirst, show d ∈ chunks from hd])

theorem WellFormed.getChar (h : b.WellFormed) :
  (b.contents = [] ∧ b.getChar = some (-1, b)) ∨
    ∃ c rest b', b.contents = c :: rest ∧ b.getChar = some ((c.toNat : ℤ), b') ∧ b'.WellFormed ∧
      b'.contents = rest
  := by
  unfold QRingBuffer.getChar
  by_cases hsize : b.bufferSize = 0
  · rw [if_pos hsize]
    exact .inl ⟨h.bufferSize_eq_zero.mp hsize, rfl⟩
  · rw [if_neg hsize]
    obtain ⟨c, chunks, -, hblock, hdata, hcontents⟩ := h.nextDataBlock
      (fun hnil => hsize (h.bufferSize_eq_zero.mpr hnil))
    obtain ⟨octet, rest, hoctet⟩ := List.exists_cons_of_ne_nil hdata
    rw [hoctet, List.cons_append] at hcontents
    obtain ⟨b', hfree, hb', hcontents'⟩ := h.free (n := 1) (by simp [hcontents])
    refine .inr ⟨octet, _, b', hcontents, ?_, hb', ?_⟩
    · rw [hblock, hoctet]
      simp only [Int.natCast_one] at hfree
      simp [hfree]
    · rw [hcontents', hcontents]
      rfl

/-! ### Runs -/

/-- What a call does to a sequence of octets, and what it returns.  `read()` may return any
part in front, and returns none only where there are no octets. -/
def DequeStep (s : QByteArray) (call : Call) (returned : Returned) (s' : QByteArray) : Prop :=
  match call with
  | .append data => returned = .nothing ∧ s' = s ++ data
  | .appendArray qba _ => returned = .nothing ∧ s' = s ++ qba
  | .reserve octets => returned = .nothing ∧ s' = s ++ octets
  | .reserveFront octets => returned = .nothing ∧ s' = octets ++ s
  | .putChar c => returned = .nothing ∧ s' = s ++ [c]
  | .ungetChar c => returned = .nothing ∧ s' = [c] ++ s
  | .chop bytes => returned = .nothing ∧ s' = s.take (s.length - bytes.toNat)
  | .truncate pos => returned = .nothing ∧ s' = s.take pos.toNat
  | .free bytes => returned = .nothing ∧ s' = s.drop bytes.toNat
  | .skip length => returned = .number (min length s.length) ∧ s' = s.drop length.toNat
  | .read maxLength => returned = .octets (s.take maxLength.toNat) ∧ s' = s.drop maxLength.toNat
  | .readFirst => ∃ first, returned = .octets first ∧ s = first ++ s' ∧ (s ≠ [] → first ≠ [])
  | .getChar =>
    s = [] ∧ returned = .number (-1) ∧ s' = [] ∨
      ∃ c, s = c :: s' ∧ returned = .number c.toNat
  | .clear => returned = .nothing ∧ s' = []
  | .setChunkSize _ | .unshare _ => returned = .nothing ∧ s' = s

/-- What a run of calls does to a sequence of octets. -/
inductive DequeRun : QByteArray → List Call → List Returned → QByteArray → Prop where
  | nil (s : QByteArray) : DequeRun s [] [] s
  | cons {s s₁ s' : QByteArray} {call : Call} {calls : List Call} {returned : Returned}
      {results : List Returned} (h : DequeStep s call returned s₁)
      (h_run : DequeRun s₁ calls results s') :
      DequeRun s (call :: calls) (returned :: results) s'

/-- Arguments that are negative give up nothing. -/
theorem free_toNat (b : QRingBuffer) (bytes : ℤ) :
  b.free bytes = b.free (bytes.toNat : ℤ)
  := by
  by_cases h : 0 ≤ bytes
  · rw [Int.toNat_of_nonneg h]
  · have hle : bytes ≤ 0 := by omega
    rw [Int.toNat_of_nonpos hle, QRingBuffer.free, QRingBuffer.free]
    cases b.buffers <;> simp [release, hle]

theorem chop_toNat (b : QRingBuffer) (bytes : ℤ) :
  b.chop bytes = b.chop (bytes.toNat : ℤ)
  := by
  by_cases h : 0 ≤ bytes
  · rw [Int.toNat_of_nonneg h]
  · have hle : bytes ≤ 0 := by omega
    rw [Int.toNat_of_nonpos hle, QRingBuffer.chop, QRingBuffer.chop]
    cases b.buffers.reverse <;> simp [release, hle]

theorem read_toNat (turns : ℕ) (b : QRingBuffer) (maxLength : ℤ) :
  b.read turns maxLength = b.readLoop turns ((min b.bufferSize maxLength).toNat : ℤ) []
  := by
  rw [QRingBuffer.read]
  by_cases h : 0 ≤ min b.bufferSize maxLength
  · rw [Int.toNat_of_nonneg h]
  · have hle : min b.bufferSize maxLength ≤ 0 := by omega
    rw [Int.toNat_of_nonpos hle]
    cases turns <;>
      simp only [QRingBuffer.readLoop, List.length_nil, Int.natCast_zero, Int.not_lt.mpr hle,
        if_false, Int.lt_irrefl]

theorem map_data_unshare (l : List QRingChunk) (index : ℕ) :
  (l.modify index ({ · with shared := false })).map (fun c => (c.data, c.headOffset)) =
    l.map (fun c => (c.data, c.headOffset))
  := by
  induction l generalizing index with
  | nil => rw [List.modify_nil]
  | cons c l ih =>
    cases index with
    | zero => rfl
    | succ index => rw [List.modify_succ_cons, List.map_cons, List.map_cons, ih]

theorem WellFormed.unshare (h : b.WellFormed) (index : ℕ) :
  ({ b with buffers := b.buffers.modify index ({ · with shared := false }) } :
      QRingBuffer).WellFormed ∧
    ({ b with buffers := b.buffers.modify index ({ · with shared := false }) } :
      QRingBuffer).contents = b.contents
  := by
  have hmap := map_data_unshare b.buffers index
  have hcontents : ({ b with buffers := b.buffers.modify index ({ · with shared := false }) } :
      QRingBuffer).contents = b.contents := by
    have hdata := congrArg (fun l => (l.map Prod.fst).flatten) hmap
    simpa only [contents, List.map_map, Function.comp_def] using hdata
  refine ⟨⟨?_, ?_⟩, hcontents⟩
  · rw [hcontents]
    exact h.size
  · rcases h.chunks with hchunks | ⟨c, hc, hdata⟩
    · left
      intro c hc
      have hmem := List.mem_map_of_mem (f := fun c : QRingChunk => (c.data, c.headOffset)) hc
      rw [hmap] at hmem
      obtain ⟨d, hd, heq⟩ := List.mem_map.mp hmem
      rw [← (Prod.mk.inj heq).1]
      exact hchunks d hd
    · right
      cases index with
      | zero => exact ⟨{ c with shared := false }, by simp [hc], hdata⟩
      | succ index => exact ⟨c, by simp [hc], hdata⟩

/-- The calls keep the invariant, and do to the octets what they do to a sequence. -/
theorem WellFormed.perform (h : b.WellFormed) {call : Call} (hvalid : call.Valid b.bufferSize)
    (hcall : ∀ shared, call = .appendArray [] shared → b.bufferSize = 0) :
  ∃ returned b' least, (∀ turns, least ≤ turns → b.perform turns call = some (returned, b')) ∧
    b'.WellFormed ∧ DequeStep b.contents call returned b'.contents
  := by
  cases call with
  | append data =>
    obtain ⟨b', heq, hb', hcontents⟩ := h.append data
    exact ⟨.nothing, b', 0, fun _ _ => by simp [QRingBuffer.perform, heq], hb', rfl, hcontents⟩
  | appendArray qba shared =>
    obtain ⟨hb', hcontents⟩ := h.appendArray
      (fun hqba : qba = [] => hcall shared (by rw [hqba])) shared
    exact ⟨.nothing, _, 0, fun _ _ => rfl, hb', rfl, hcontents⟩
  | reserve octets =>
    obtain ⟨b', heq, hb', hcontents⟩ := h.reserve hvalid
    exact ⟨.nothing, b', 0, fun _ _ => by simp [QRingBuffer.perform, heq], hb', rfl, hcontents⟩
  | reserveFront octets =>
    obtain ⟨b', heq, hb', hcontents⟩ := h.reserveFront hvalid
    exact ⟨.nothing, b', 0, fun _ _ => by simp [QRingBuffer.perform, heq], hb', rfl, hcontents⟩
  | putChar c =>
    obtain ⟨b', heq, hb', hcontents⟩ := h.reserve (List.cons_ne_nil c [])
    exact ⟨.nothing, b', 0, fun _ _ => by simp [QRingBuffer.perform, putChar, heq], hb', rfl,
      hcontents⟩
  | ungetChar c =>
    obtain ⟨b', heq, hb', hcontents⟩ := h.reserveFront (List.cons_ne_nil c [])
    exact ⟨.nothing, b', 0, fun _ _ => by simp [QRingBuffer.perform, ungetChar, heq], hb', rfl,
      hcontents⟩
  | chop bytes =>
    obtain ⟨b', heq, hb', hcontents⟩ := h.chop (n := bytes.toNat)
      (by
        have hle : bytes ≤ b.bufferSize := hvalid
        rw [h.size] at hle
        omega)
    rw [← chop_toNat] at heq
    exact ⟨.nothing, b', 0, fun _ _ => by simp [QRingBuffer.perform, heq], hb', rfl, hcontents⟩
  | truncate pos =>
    obtain ⟨hpos, hle⟩ : 0 ≤ pos ∧ pos ≤ b.bufferSize := hvalid
    rw [h.size] at hle
    obtain ⟨b', heq, hb', hcontents⟩ := h.chop (n := (b.bufferSize - pos).toNat)
      (by rw [h.size]; omega)
    rw [← chop_toNat] at heq
    refine ⟨.nothing, b', 0, fun _ _ => ?_, hb', rfl, ?_⟩
    · simp [QRingBuffer.perform, QRingBuffer.truncate, heq]
    · rw [hcontents, h.size]
      congr 1
      omega
  | free bytes =>
    obtain ⟨b', heq, hb', hcontents⟩ := h.free (n := bytes.toNat)
      (by
        have hle : bytes ≤ b.bufferSize := hvalid
        rw [h.size] at hle
        omega)
    rw [← free_toNat] at heq
    exact ⟨.nothing, b', 0, fun _ _ => by simp [QRingBuffer.perform, heq], hb', rfl, hcontents⟩
  | skip length =>
    obtain ⟨b', heq, hb', hcontents⟩ := h.free (n := (min length b.bufferSize).toNat)
      (by rw [h.size]; omega)
    rw [← free_toNat] at heq
    refine ⟨.number (min length b.bufferSize), b', 0, fun _ _ => ?_, hb', by rw [h.size], ?_⟩
    · simp [QRingBuffer.perform, QRingBuffer.skip, heq]
    · rw [hcontents, h.size]
      by_cases hle : length ≤ b.contents.length
      · rw [Int.min_eq_left hle]
      · rw [List.drop_of_length_le (by omega), List.drop_of_length_le (by omega)]
  | read maxLength =>
    have hsize := h.size
    obtain ⟨b', hb', hcontents, hloop⟩ := h.readLoop
      (n := (min b.bufferSize maxLength).toNat) (by omega) []
    have htake : b.contents.take (min b.bufferSize maxLength).toNat =
        b.contents.take maxLength.toNat := by
      by_cases hle : maxLength ≤ b.bufferSize
      · rw [Int.min_eq_right hle]
      · rw [List.take_of_length_le (by omega), List.take_of_length_le (by omega)]
    have hdrop : b.contents.drop (min b.bufferSize maxLength).toNat =
        b.contents.drop maxLength.toNat := by
      by_cases hle : maxLength ≤ b.bufferSize
      · rw [Int.min_eq_right hle]
      · rw [List.drop_of_length_le (by omega), List.drop_of_length_le (by omega)]
    refine ⟨_, b', (min b.bufferSize maxLength).toNat, fun turns hturns => ?_, hb', rfl,
      hcontents.trans hdrop⟩
    have hread := hloop turns hturns
    rw [List.length_nil, Nat.zero_add, List.nil_append, htake] at hread
    rw [QRingBuffer.perform, read_toNat, hread]
    rfl
  | readFirst =>
    obtain ⟨first, b', heq, hb', hcontents⟩ := h.readFirst
    exact ⟨.octets first, b', 0, fun _ _ => by simp [QRingBuffer.perform, heq], hb', first, rfl,
      hcontents⟩
  | getChar =>
    rcases h.getChar with ⟨hnil, heq⟩ | ⟨c, rest, b', hcons, heq, hb', hcontents⟩
    · exact ⟨.number (-1), b, 0, fun _ _ => by simp [QRingBuffer.perform, heq], h,
        .inl ⟨hnil, rfl, hnil⟩⟩
    · exact ⟨.number c.toNat, b', 0, fun _ _ => by simp [QRingBuffer.perform, heq], hb',
        .inr ⟨c, by rw [hcontents, hcons], rfl⟩⟩
  | clear =>
    exact ⟨.nothing, b.clear, 0, fun _ _ => rfl, h.clear.1, rfl, h.clear.2⟩
  | setChunkSize size =>
    exact ⟨.nothing, { b with basicBlockSize := size }, 0, fun _ _ => rfl, ⟨h.size, h.chunks⟩,
      rfl, rfl⟩
  | unshare index =>
    exact ⟨.nothing, _, 0, fun _ _ => rfl, (h.unshare index).1, rfl, (h.unshare index).2⟩

theorem WellFormed.run (h : b.WellFormed) (calls : List Call)
    (hcalls : ∀ before call after results b', calls = before ++ call :: after →
      b.Runs before results b' →
      call.Valid b'.bufferSize ∧ ∀ shared, call = .appendArray [] shared → b'.bufferSize = 0) :
  ∃ results b', b.Runs calls results b' ∧ b'.WellFormed ∧
    DequeRun b.contents calls results b'.contents
  := by
  induction calls generalizing b with
  | nil => exact ⟨[], b, ⟨0, fun _ _ => rfl⟩, h, .nil _⟩
  | cons call calls ih =>
    obtain ⟨hvalid, hempty⟩ := hcalls [] call calls [] b rfl ⟨0, fun _ _ => rfl⟩
    obtain ⟨returned, b₁, least₁, hcall, hb₁, hstep⟩ := h.perform hvalid hempty
    obtain ⟨results, b', ⟨least, hrun⟩, hb', hdeque⟩ := ih hb₁ (by
      rintro before c after results b' rfl ⟨least, hrun⟩
      refine hcalls (call :: before) c after (returned :: results) b' rfl
        ⟨max least₁ least, fun turns hturns => ?_⟩
      simp [QRingBuffer.run, hcall turns (by omega), hrun turns (by omega)])
    refine ⟨returned :: results, b', ⟨max least₁ least, fun turns hturns => ?_⟩, hb',
      .cons hstep hdeque⟩
    simp [QRingBuffer.run, hcall turns (by omega), hrun turns (by omega)]

/-- In a run whose calls meet the assertions on their arguments, and which appends an empty
array to an empty buffer only, the buffer is a deque of octets: every call ends, returns what
the call on a sequence returns, and leaves the octets of the sequence in the chunks. -/
theorem run_refines_deque (growth : ℤ) (calls : List Call)
    (h : ∀ before call after results b, calls = before ++ call :: after →
      (new growth).Runs before results b →
      call.Valid b.bufferSize ∧ ∀ shared, call = .appendArray [] shared → b.bufferSize = 0) :
  ∃ results b, (new growth).Runs calls results b ∧
    DequeRun [] calls results b.contents ∧ b.bufferSize = b.contents.length
  := by
  obtain ⟨results, b, h_run, h_b, h_deque⟩ := (wellFormed_new growth).run calls h
  exact ⟨results, b, h_run, h_deque, h_b.size⟩

/-- An octet that is pushed back, and an array behind it. -/
theorem run_refines_deque_ungetChar :
  ∃ results b, (new 4096).Runs [.ungetChar 0x61, .appendArray [0x62] true] results b ∧
    DequeRun [] [.ungetChar 0x61, .appendArray [0x62] true] results b.contents ∧
    b.bufferSize = b.contents.length
  := by
  apply run_refines_deque
  intro before call after results b h_split _
  have h_mem : call ∈ [Call.ungetChar 0x61, .appendArray [0x62] true] := by
    rw [h_split]
    simp
  simp only [List.mem_cons, List.not_mem_nil, or_false] at h_mem
  rcases h_mem with rfl | rfl
  · exact ⟨trivial, fun _ h_eq => by cases h_eq⟩
  · exact ⟨trivial, fun _ h_eq => by cases h_eq⟩

/-- The loop of `read` stays where the first chunk is empty. -/
theorem readLoop_stuck {chunks : List QRingChunk} (hbuffers : b.buffers = c :: chunks)
    (hdata : c.data = []) (hsize : b.bufferSize ≠ 0) (bytesToRead : ℤ) (before : QByteArray)
    (hless : (before.length : ℤ) < bytesToRead) (turns : ℕ) :
  readLoop turns b bytesToRead before = none
  := by
  induction turns with
  | zero => rw [readLoop, if_pos hless]
  | succ turns ih =>
    have hfree : b.free 0 = some b := by
      rw [QRingBuffer.free, release_zero]
      rfl
    have hmin : min (bytesToRead - before.length) 0 = 0 := by omega
    rw [readLoop, if_pos hless]
    simp [QRingBuffer.nextDataBlock, hsize, hbuffers, hdata, hmin, hfree, ih]

/-- An empty array between two others: the loop of `read` does not end, for any number of turns. -/
theorem read_empty_hangs :
  (fun turns => run turns
    [.appendArray [0x61] true, .appendArray [] true, .appendArray [0x62] true, .read 2]
    (new 4096)) = fun _ => none
  := by
  funext turns
  let a : QRingChunk := .ofArray [0x61] true
  let e : QRingChunk := .ofArray [] true
  let c : QRingChunk := .ofArray [0x62] true
  have h_free : (⟨[a, e, c], 2, 4096⟩ : QRingBuffer).free 1 = some ⟨[e, c], 1, 4096⟩ := by decide
  have h_read : readLoop turns ⟨[a, e, c], 2, 4096⟩ 2 [] = none := by
    cases turns with
    | zero => rfl
    | succ turns =>
      have h_stuck := readLoop_stuck (b := ⟨[e, c], 1, 4096⟩) rfl rfl (by decide) 2 [0x61]
        (by decide) turns
      rw [readLoop, if_pos (by decide)]
      simpa [QRingBuffer.nextDataBlock, h_free, show a.data = [0x61] from rfl] using h_stuck
  simp only [a, e, c] at h_read
  simp [run, QRingBuffer.perform, QRingBuffer.appendArray, QRingBuffer.read, new, h_read]

end QRingBuffer
