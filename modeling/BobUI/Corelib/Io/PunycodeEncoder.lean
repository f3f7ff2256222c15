import BobUI.Corelib.Io.PunycodeIntegers

/-!
# The Punycode encoder

The encoder writes the insertion code of the characters, and none of its numbers overflows.
-/

namespace QUrlIdna

open InsertionCode

namespace Encoder

variable {b m : ℕ} {s s' s'' : Encoder} {st st' st'' : State} {before rest points : List ℕ}

/-- The encoder is where the list is built up to `st`. -/
structure Holds (b : ℕ) (s : Encoder) (st : State) : Prop where
  length : st.output.length = s.h
  firsttime : (s.h == b) = (st.i == 0)
  le : b ≤ s.h

/-- The integers that are written lead from one list to the other. -/
def Writes (s : Encoder) (st : State) (s' : Encoder) (st' : State) : Prop :=
  ∃ deltas text, st' = st.build deltas ∧ s'.output = s.output ++ text
    ∧ ∀ more, integers (st.i == 0) s.bias (s.h + 1) (deltas ++ more)
      = text ++ integers (st'.i == 0) s'.bias (s'.h + 1) more

theorem Writes.trans (h : Writes s st s' st') (h' : Writes s' st' s'' st'') :
  Writes s st s'' st''
  := by
  obtain ⟨deltas, text, rfl, houtput, htext⟩ := h
  obtain ⟨deltas', text', rfl, houtput', htext'⟩ := h'
  use deltas ++ deltas', text ++ text'
  refine ⟨?_, ?_, ?_⟩
  · rw [State.build, State.build, State.build, List.foldl_append]
  · rw [houtput', houtput, List.append_assoc]
  · intro more
    rw [List.append_assoc, htext, htext', List.append_assoc]

/-- Nothing is written while the number grows. -/
theorem writes_of_eq (houtput : s'.output = s.output) (hbias : s'.bias = s.bias)
    (hh : s'.h = s.h) :
  Writes s st s' st
  := by
  use [], []
  refine ⟨rfl, ?_, ?_⟩
  · rw [houtput, List.append_nil]
  · intro more
    rw [hbias, hh]
    rfl

/-- The characters are Unicode characters, and they are not too many for the numbers. -/
structure Small (points : List ℕ) : Prop where
  le : ∀ c ∈ points, c ≤ 0x10ffff
  length : points.length ≤ MaxDomainLabelLength * 2

/-- The number of the pairs that are passed over does not overflow. -/
theorem delta_le {delta : ℕ} (h : st.At m before rest delta) (hm : m ≤ 0x110000)
    (hlength : (before ++ rest).length ≤ MaxDomainLabelLength * 2) :
  delta < maxUint
  := by
  have houtput := congrArg List.length h.output
  have hbefore := List.length_filter_le (fun c => decide (c ≤ m)) before
  have hrest := List.length_filter_le (fun c => decide (c < m)) rest
  rw [List.length_append] at houtput hlength
  have hmax : MaxDomainLabelLength * 2 = 126 := rfl
  have hmul : (m - st.n) * (st.output.length + 1) ≤ 0x110000 * 127 := by
    apply Nat.mul_le_mul
    · omega
    · omega
  have hpassed := h.passed
  have huint : maxUint = 4294967295 := rfl
  omega

theorem qAddOverflow_of_le {v1 v2 : ℕ} (h : v1 + v2 ≤ maxUint) :
  qAddOverflow v1 v2 = some (v1 + v2)
  := if_pos h

/-- One character is visited. -/
theorem visit_spec {c : ℕ} (h : Holds b s st) (hat : st.At s.n before (c :: rest) s.delta)
    (hn : s.n ≤ 0x110000) (hlength : (before ++ c :: rest).length ≤ MaxDomainLabelLength * 2) :
  ∃ s' st', visit b s c = some s' ∧ Holds b s' st' ∧ s'.n = s.n
    ∧ st'.At s.n (before ++ [c]) rest s'.delta ∧ Writes s st s' st'
  := by
  rw [List.append_cons] at hlength
  unfold visit
  rcases Nat.lt_trichotomy c s.n with hc | hc | hc
  · have hnext := hat.lower hc
    have hne : ¬ c = s.n := Nat.ne_of_lt hc
    rw [if_pos hc, qAddOverflow_of_le (Nat.le_of_lt (delta_le hnext hn hlength))]
    use { s with delta := s.delta + 1 }, st
    refine ⟨?_, ⟨h.length, h.firsttime, h.le⟩, rfl, hnext, writes_of_eq rfl rfl rfl⟩
    exact if_neg hne
  · obtain rfl := hc
    obtain ⟨hnext, -⟩ := hat.equal
    rw [if_neg (Nat.lt_irrefl s.n)]
    use ⟨s.n, 0, adapt s.delta (s.h + 1) (s.h == b), s.h + 1,
      appendEncode s.output s.delta s.bias⟩, st.insert s.delta
    have hi : ((st.insert s.delta).i == 0) = false := rfl
    refine ⟨if_pos rfl, ⟨?_, ?_, ?_⟩, rfl, hnext, [s.delta], appendEncode [] s.delta s.bias, rfl,
      ?_, ?_⟩
    · rw [State.length_insert, h.length]
    · have hle := h.le
      have hne : ¬ s.h + 1 = b := by omega
      rw [hi]
      exact beq_false_of_ne hne
    · exact Nat.le_succ_of_le h.le
    · rfl
    · intro more
      rw [hi, List.singleton_append, integers, h.firsttime]
  · have hnext := hat.higher hc
    rw [if_neg (Nat.lt_asymm hc)]
    use s, st
    refine ⟨?_, h, rfl, hnext, writes_of_eq rfl rfl rfl⟩
    exact if_neg (Nat.ne_of_gt hc)

/-- All characters are visited. -/
theorem visits_spec (h : Holds b s st) (hat : st.At s.n before rest s.delta)
    (hn : s.n ≤ 0x110000) (hlength : (before ++ rest).length ≤ MaxDomainLabelLength * 2) :
  ∃ s' st', rest.foldlM (visit b) s = some s' ∧ Holds b s' st' ∧ s'.n = s.n
    ∧ st'.At s.n (before ++ rest) [] s'.delta ∧ Writes s st s' st'
  := by
  induction rest generalizing before s st with
  | nil =>
    rw [List.append_nil]
    exact ⟨s, st, rfl, h, rfl, hat, writes_of_eq rfl rfl rfl⟩
  | cons c rest ih =>
    obtain ⟨s₁, st₁, hvisit, hholds, hsame, hnext, hwrites⟩ :=
      visit_spec h hat hn hlength
    rw [List.append_cons] at hlength ⊢
    rw [← hsame] at hnext hn
    obtain ⟨s₂, st₂, hrun, hholds', hsame', hend, hwrites'⟩ :=
      ih hholds hnext hn hlength
    rw [hsame] at hsame' hend
    refine ⟨s₂, st₂, ?_, hholds', hsame', hend, hwrites.trans hwrites'⟩
    rw [List.foldlM_cons, hvisit]
    exact hrun

theorem foldl_lowest (n : ℕ) (points : List ℕ) (m : ℕ) :
  (points.foldl (fun m c => if n ≤ c ∧ c < m then c else m) m = m
      ∨ points.foldl (fun m c => if n ≤ c ∧ c < m then c else m) m ∈ points
        ∧ n ≤ points.foldl (fun m c => if n ≤ c ∧ c < m then c else m) m)
    ∧ points.foldl (fun m c => if n ≤ c ∧ c < m then c else m) m ≤ m
    ∧ ∀ c ∈ points, c < n ∨ points.foldl (fun m c => if n ≤ c ∧ c < m then c else m) m ≤ c
  := by
  induction points generalizing m with
  | nil => exact ⟨Or.inl rfl, Nat.le_refl _, fun c hc => nomatch hc⟩
  | cons d points ih =>
    rw [List.foldl_cons]
    by_cases h : n ≤ d ∧ d < m
    · obtain ⟨hfound, hle, hpoints⟩ := ih d
      rw [if_pos h]
      refine ⟨Or.inr ?_, Nat.le_trans hle (Nat.le_of_lt h.2), ?_⟩
      · rcases hfound with heq | ⟨hmem, hn⟩
        · rw [heq]
          exact ⟨List.mem_cons_self, h.1⟩
        · exact ⟨List.mem_cons_of_mem d hmem, hn⟩
      · intro c hc
        rcases List.mem_cons.mp hc with rfl | hc
        · exact Or.inr hle
        · exact hpoints c hc
    · obtain ⟨hfound, hle, hpoints⟩ := ih m
      rw [if_neg h]
      refine ⟨?_, hle, ?_⟩
      · rcases hfound with heq | ⟨hmem, hn⟩
        · exact Or.inl heq
        · exact Or.inr ⟨List.mem_cons_of_mem d hmem, hn⟩
      · intro c hc
        rcases List.mem_cons.mp hc with rfl | hc
        · omega
        · exact hpoints c hc

/-- The lowest character that is still to be encoded. -/
theorem lowest_spec {n : ℕ} (h : ∃ c ∈ points, n ≤ c) (hpoints : ∀ c ∈ points, c ≤ 0x10ffff) :
  lowest n points ∈ points ∧ n ≤ lowest n points ∧ ∀ c ∈ points, c < n ∨ lowest n points ≤ c
  := by
  obtain ⟨hfound, -, hlowest⟩ := foldl_lowest n points maxUint
  obtain ⟨c, hc, hn⟩ := h
  have hle := (hlowest c hc).resolve_left (Nat.not_lt_of_le hn)
  have hmax := hpoints c hc
  have huint : maxUint = 4294967295 := rfl
  have hmem := hfound.resolve_left (by omega)
  exact ⟨hmem.1, hmem.2, hlowest⟩

/-- The characters with the lowest value are encoded. -/
theorem pass_spec (h : Holds b s st) (hat : st.At s.n [] points s.delta) (hpoints : Small points)
    (hmore : ∃ c ∈ points, s.n ≤ c) :
  ∃ s' st', s.pass b points = some s' ∧ Holds b s' st' ∧ st'.At s'.n [] points s'.delta
    ∧ Writes s st s' st' ∧ s.h < s'.h
  := by
  obtain ⟨hmem, hle, hlowest⟩ := lowest_spec hmore hpoints.le
  have hraise := hat.raise hle hlowest
  have hm := hpoints.le _ hmem
  unfold pass
  generalize lowest s.n points = m at *
  have hdelta := delta_le hraise (by omega) hpoints.length
  have hmul : qMulOverflow (m - s.n) (s.h + 1) = some ((m - s.n) * (s.h + 1)) := by
    rw [← h.length]
    apply if_pos
    exact Nat.le_trans (Nat.le_add_left _ _) (Nat.le_of_lt hdelta)
  rw [h.length] at hraise hdelta
  obtain ⟨s', st', hrun, hholds, hsame, hend, hwrites⟩ :=
    visits_spec (s := { s with n := m, delta := s.delta + (m - s.n) * (s.h + 1) })
      ⟨h.length, h.firsttime, h.le⟩ hraise (Nat.le_trans hm (by decide)) hpoints.length
  dsimp only at hsame hend
  rw [List.nil_append] at hend
  have hnext := delta_le hend (by omega) (by rw [List.append_nil]; exact hpoints.length)
  have huint : maxUint = 2 ^ 32 - 1 := rfl
  have hwrap : (s'.delta + 1) % 2 ^ 32 = s'.delta + 1 := Nat.mod_eq_of_lt (by omega)
  have hwrap_n : (s'.n + 1) % 2 ^ 32 = m + 1 := by
    rw [hsame]
    exact Nat.mod_eq_of_lt (by omega)
  have hstart : Writes s st { s with n := m, delta := s.delta + (m - s.n) * (s.h + 1) } st :=
    writes_of_eq rfl rfl rfl
  have hstop : Writes s' st' { s' with delta := s'.delta + 1, n := m + 1 } st' :=
    writes_of_eq rfl rfl rfl
  use { s' with delta := s'.delta + 1, n := m + 1 }, st'
  refine ⟨?_, ⟨hholds.length, hholds.firsttime, hholds.le⟩, hend.next,
    hstart.trans (hwrites.trans hstop), ?_⟩
  · change (qMulOverflow (m - s.n) (s.h + 1)).bind _ = _
    rw [hmul]
    change (qAddOverflow s.delta ((m - s.n) * (s.h + 1))).bind _ = _
    rw [qAddOverflow_of_le (Nat.le_of_lt hdelta)]
    change (points.foldlM (visit b) _).bind _ = _
    rw [hrun, ← hwrap, ← hwrap_n]
    rfl
  · -- The character `m` is inserted.
    obtain ⟨deltas, text, hbuild, -, -⟩ := hwrites
    have hlength := State.length_build st deltas
    rw [← hbuild, h.length, hholds.length] at hlength
    have hne : deltas ≠ [] := by
      rintro rfl
      have hsame_output : st'.output = st.output := by
        rw [hbuild]
        rfl
      have hin : m ∈ st'.output := by
        rw [hend.output, List.mem_append, List.mem_filter]
        exact Or.inl ⟨hmem, decide_eq_true (Nat.le_refl m)⟩
      rw [hsame_output, hat.output, List.filter_nil, List.nil_append, List.mem_filter] at hin
      have hlt := of_decide_eq_true hin.2
      omega
    have hpos := List.length_pos_of_ne_nil hne
    change s.h < s'.h
    omega

/-- Where no character is left, the list is built. -/
theorem output_of_length {delta : ℕ} (h : st.At m [] points delta)
    (hlength : points.length ≤ st.output.length) :
  st.output = points
  := by
  have houtput := h.output
  rw [List.filter_nil, List.nil_append] at houtput
  rw [houtput] at hlength ⊢
  have hle := List.length_filter_le (fun c => decide (c < m)) points
  rw [List.filter_eq_self, ← List.length_filter_eq_length_iff]
  exact Nat.le_antisymm hle hlength

/-- All characters are encoded. -/
theorem run_spec {fuel : ℕ} (h : Holds b s st) (hat : st.At s.n [] points s.delta)
    (hpoints : Small points) (hfuel : points.length ≤ s.h + fuel) :
  ∃ s' st', run b points fuel s = some s' ∧ st'.output = points ∧ Writes s st s' st'
  := by
  induction fuel generalizing s st with
  | zero =>
    use s, st
    refine ⟨rfl, output_of_length hat ?_, writes_of_eq rfl rfl rfl⟩
    rw [h.length]
    exact hfuel
  | succ fuel ih =>
    rw [run]
    by_cases hmore : s.h < points.length
    · have hleft : ∃ c ∈ points, s.n ≤ c := by
        by_contra hnone
        have houtput := hat.output
        rw [List.filter_nil, List.nil_append, List.filter_eq_self.mpr] at houtput
        · have hlength := h.length
          rw [houtput] at hlength
          omega
        · intro c hc
          exact decide_eq_true (Nat.lt_of_not_le fun hle => hnone ⟨c, hc, hle⟩)
      obtain ⟨s₁, st₁, hpass, hholds, hnext, hwrites, hlt⟩ :=
        pass_spec h hat hpoints hleft
      obtain ⟨s', st', hrun, houtput, hwrites'⟩ := ih hholds hnext (by omega)
      refine ⟨s', st', ?_, houtput, hwrites.trans hwrites'⟩
      rw [if_pos hmore, hpass]
      exact hrun
    · use s, st
      refine ⟨if_neg hmore, output_of_length hat ?_, writes_of_eq rfl rfl rfl⟩
      rw [h.length]
      exact Nat.le_of_not_lt hmore

end Encoder

end QUrlIdna
