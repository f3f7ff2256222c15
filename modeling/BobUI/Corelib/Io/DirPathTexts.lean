import BobUI.Corelib.Io.DirPaths
import Mathlib.Data.List.DropRight
import Mathlib.Data.List.GetD
import Mathlib.Tactic.SplitIfs

/-!
# Path segments as texts

The places in the path stay in such an order that what is left to be read is never changed.  So the
path is rewritten as if it was read from one text and written to another one.
-/

namespace QDirPrivate

/-! ### The texts that are read and written -/

/-- What is written, up to the root and above it, and what is left to be read. -/
structure PathTexts where
  base : QString
  top : QString
  rest : QString
  ok : Bool

namespace PathTexts

/-- The slashes that are copied before a segment. -/
def slashes (isRemote : Bool) (t : PathTexts) : PathTexts :=
  { t with
    top := t.top ++ (if isRemote then t.rest.takeWhile (· = 0x2f)
      else (t.rest.takeWhile (· = 0x2f)).take 1)
    rest := t.rest.dropWhile (· = 0x2f) }

/-- Go back one slash if a segment follows, and skip slashes at the root. -/
def leave (relative : Bool) (t : PathTexts) : PathTexts :=
  let top := if t.rest ≠ [] ∧ t.top.getLast? = some 0x2f then t.top.dropLast else t.top
  if top = [] then
    { t with
      top := []
      rest := if relative then t.rest.dropWhile (· = 0x2f)
        else if t.rest.head? = some 0x2f then t.rest.tail else t.rest }
  else { t with top := top }

/-- The segment behind the slashes. -/
def segment (isRemote relative : Bool) (t : PathTexts) : PathTexts :=
  let name := t.rest.takeWhile (· ≠ 0x2f)
  let tail := t.rest.dropWhile (· ≠ 0x2f)
  if name = [0x2e] then leave relative { t with rest := tail }
  else if name = [0x2e, 0x2e] then
    if t.top = [] ∧ isRemote = false then
      ⟨t.base ++ [0x2e, 0x2e] ++ tail.take 1, [], tail.drop 1, false⟩
    else
      leave relative
        { t with
          top := t.top.dropLast.rdropWhile (· ≠ 0x2f)
          rest := tail
          ok := if t.top = [] then false else t.ok }
  else { t with top := t.top ++ name, rest := tail }

def segments (isRemote relative : Bool) : ℕ → PathTexts → PathTexts
  | 0, t => t
  | fuel + 1, t =>
    let t := (t.slashes isRemote).segment isRemote relative
    if t.rest = [] then t else segments isRemote relative fuel t

end PathTexts

/-- The first segment is ".". -/
theorem takeWhile_eq_dot_iff (rest : QString) :
  rest.takeWhile (· ≠ 0x2f) = [0x2e]
    ↔ rest.getD 0 0 = 0x2e ∧ (rest.length = 1 ∨ rest.getD 1 0 = 0x2f)
  := by
  rcases rest with _ | ⟨a, _ | ⟨b, rest⟩⟩
  · simp
  · simp only [List.takeWhile_cons, List.takeWhile_nil, List.getD_cons_zero, List.length_singleton]
    by_cases ha : a = 0x2f
    · simp [ha]
    · simp [ha]
  · simp only [List.takeWhile_cons, List.getD_cons_zero, List.getD_cons_succ, List.length_cons]
    by_cases ha : a = 0x2f
    · simp [ha]
    · by_cases hb : b = 0x2f
      · simp [ha, hb]
      · simp [ha, hb]

/-- The first segment is "..". -/
theorem takeWhile_eq_dots_iff (rest : QString) :
  rest.takeWhile (· ≠ 0x2f) = [0x2e, 0x2e]
    ↔ rest.getD 0 0 = 0x2e ∧ rest.getD 1 0 = 0x2e ∧ (rest.length = 2 ∨ rest.getD 2 0 = 0x2f)
  := by
  rcases rest with _ | ⟨a, rest⟩
  · simp
  · by_cases ha : a = 0x2f
    · simp [ha]
    · rw [List.takeWhile_cons_of_pos (by simpa using ha), List.cons.injEq, takeWhile_eq_dot_iff]
      have hlength : rest.length + 1 = 2 ↔ rest.length = 1 := by omega
      simp only [List.getD_cons_zero, List.getD_cons_succ, List.length_cons, hlength]

/-- A segment ends at a slash or at the end of the path. -/
theorem dropWhile_segment (rest : QString) :
  rest.dropWhile (· ≠ 0x2f) = [] ∨ (rest.dropWhile (· ≠ 0x2f)).head? = some 0x2f
  := by
  induction rest with
  | nil => exact Or.inl rfl
  | cons c rest ih =>
    by_cases hslash : c = 0x2f
    · right
      rw [List.dropWhile_cons_of_neg (by simpa using hslash), hslash]
      rfl
    · rw [List.dropWhile_cons_of_pos (by simpa using hslash)]
      exact ih

/-- A segment before a slash or the end of the path is read. -/
theorem takeWhile_segment {name tail : QString} (h : ∀ c ∈ name, c ≠ 0x2f)
    (htail : tail = [] ∨ tail.head? = some 0x2f) :
  (name ++ tail).takeWhile (· ≠ 0x2f) = name ∧ (name ++ tail).dropWhile (· ≠ 0x2f) = tail
  := by
  have hname : ∀ c ∈ name, decide (c ≠ (0x2f : UInt16)) = true := by
    intro c hc
    exact decide_eq_true (h c hc)
  rw [List.takeWhile_append_of_pos hname, List.dropWhile_append_of_pos hname]
  rcases htail with rfl | hslash
  · rw [List.takeWhile_nil, List.append_nil]
    exact ⟨rfl, rfl⟩
  · cases tail with
    | nil => cases hslash
    | cons c tail =>
      obtain rfl : c = 0x2f := Option.some.inj hslash
      rw [List.takeWhile_cons_of_neg (by decide), List.dropWhile_cons_of_neg (by decide),
        List.append_nil]
      exact ⟨rfl, rfl⟩

/-- A path begins with a segment, which may be empty. -/
theorem exists_segment (rest : QString) :
  ∃ name tail, rest = name ++ tail ∧ (∀ c ∈ name, c ≠ 0x2f)
    ∧ (tail = [] ∨ tail.head? = some 0x2f)
  := by
  use rest.takeWhile (· ≠ 0x2f), rest.dropWhile (· ≠ 0x2f)
  refine ⟨List.takeWhile_append_dropWhile.symm, ?_, dropWhile_segment rest⟩
  intro c hc
  have hne := List.mem_takeWhile_imp hc
  exact of_decide_eq_true hne

/-- A cursor has written and read the texts.  It writes at or behind the place that it reads, so
that what is left is not changed. -/
structure Cursor.Holds (isRemote : Bool) (s : Cursor) (t : PathTexts) : Prop where
  out_le : s.out ≤ s.input
  input_le : s.input ≤ s.data.length
  written : s.data.take s.out = t.base ++ t.top
  rest : s.data.drop s.input = t.rest
  start : s.start = t.base.length
  ok : s.ok = t.ok
  writes : isRemote = true → ∀ w ∈ s.writes, w.1 ≤ w.2

namespace Cursor.Holds

variable {isRemote : Bool} {s : Cursor} {t : PathTexts} {c : UInt16} {rest : QString}

theorem peek (h : s.Holds isRemote t) (k : ℕ) :
  s.peek k = t.rest.getD k 0
  := by
  rw [Cursor.peek, ← h.rest, List.getD_eq_getElem?_getD, List.getD_eq_getElem?_getD,
    List.getElem?_drop]

theorem left (h : s.Holds isRemote t) :
  s.left = t.rest.length
  := by
  rw [Cursor.left, ← h.rest, List.length_drop]

theorem end_iff (h : s.Holds isRemote t) (k : ℕ) :
  s.input + k = s.data.length ↔ t.rest.length = k
  := by
  have hle := h.input_le
  rw [← h.rest, List.length_drop]
  omega

theorem at_end_iff (h : s.Holds isRemote t) :
  s.input = s.data.length ↔ t.rest = []
  := by
  have hend := h.end_iff 0
  rw [Nat.add_zero] at hend
  rw [hend, List.length_eq_zero_iff]

theorem out_eq (h : s.Holds isRemote t) :
  s.out = s.start + t.top.length
  := by
  have hlength := congrArg List.length h.written
  have hle := h.out_le
  have hin := h.input_le
  rw [List.length_take, List.length_append] at hlength
  rw [h.start]
  omega

theorem top_nil_iff (h : s.Holds isRemote t) :
  s.out = s.start ↔ t.top = []
  := by
  rw [h.out_eq, ← List.length_eq_zero_iff]
  omega

/-- A character is skipped. -/
theorem skip (h : s.Holds isRemote t) (hrest : t.rest = c :: rest) :
  (s.skip 1).Holds isRemote { t with rest := rest }
  := by
  have hleft := h.left
  rw [hrest, List.length_cons, Cursor.left] at hleft
  constructor
  · exact le_trans h.out_le (Nat.le_succ _)
  · change s.input + 1 ≤ s.data.length
    omega
  · exact h.written
  · change s.data.drop (s.input + 1) = rest
    rw [← List.tail_drop, h.rest, hrest]
    rfl
  · exact h.start
  · exact h.ok
  · exact h.writes

/-- A character is copied. -/
theorem copy (h : s.Holds isRemote t) (hrest : t.rest = c :: rest) :
  s.copy.Holds isRemote { t with top := t.top ++ [c], rest := rest }
  := by
  have hle := h.out_le
  have hleft := h.left
  rw [hrest, List.length_cons, Cursor.left] at hleft
  have hpeek := h.peek 0
  rw [hrest, List.getD_cons_zero] at hpeek
  unfold Cursor.copy Cursor.put Cursor.skip
  rw [hpeek]
  constructor
  · dsimp only
    omega
  · dsimp only
    rw [List.length_set]
    omega
  · dsimp only
    rw [← List.append_assoc, ← h.written, List.take_add_one, List.take_set_of_le (le_refl _),
      List.getElem?_set_self (by omega)]
    rfl
  · dsimp only
    rw [List.drop_set_of_lt (by omega), ← List.tail_drop, h.rest, hrest]
    rfl
  · exact h.start
  · exact h.ok
  · intro hremote w hw
    rw [List.mem_append, List.mem_singleton] at hw
    rcases hw with hw | rfl
    · exact h.writes hremote w hw
    · exact hle

/-- The last character that is written is taken back. -/
theorem back {top : QString} (h : s.Holds isRemote t) (htop : t.top = top ++ [c]) :
  s.back.Holds isRemote { t with top := top } ∧ s.data.getD (s.out - 1) 0 = c
  := by
  have hout := h.out_eq
  have hle := h.out_le
  have hin := h.input_le
  rw [htop, List.length_append, List.length_singleton] at hout
  have hsucc : s.out = s.out - 1 + 1 := by omega
  have hwritten := h.written
  have hlt : s.out - 1 < s.data.length := by omega
  rw [hsucc, List.take_succ_eq_append_getElem hlt, htop, ← List.append_assoc] at hwritten
  obtain ⟨hbefore, hlast⟩ := List.append_inj' hwritten rfl
  constructor
  · constructor
    · change s.out - 1 ≤ s.input
      omega
    · exact h.input_le
    · exact hbefore
    · exact h.rest
    · exact h.start
    · exact h.ok
    · exact h.writes
  · rw [List.getD_eq_getElem _ _ hlt]
    exact List.singleton_inj.mp hlast

variable {base top name : QString} {ok : Bool}

theorem peek_cons (h : s.Holds isRemote ⟨base, top, c :: rest, ok⟩) :
  s.peek 0 = c
  := by
  rw [h.peek 0]
  rfl

theorem copySlashes (h : s.Holds isRemote ⟨base, top, rest, ok⟩) :
  (Cursor.copySlashes isRemote rest.length s).Holds isRemote
    ⟨base, top ++ (if isRemote then rest.takeWhile (· = 0x2f) else []),
      rest.dropWhile (· = 0x2f), ok⟩
  := by
  induction rest generalizing s top with
  | nil =>
    rw [List.takeWhile_nil, ite_self, List.append_nil]
    exact h
  | cons c rest ih =>
    rw [List.length_cons, Cursor.copySlashes, h.peek_cons]
    by_cases hslash : c = 0x2f
    · rw [if_pos hslash, List.takeWhile_cons_of_pos (by exact decide_eq_true hslash),
        List.dropWhile_cons_of_pos (by exact decide_eq_true hslash)]
      cases isRemote with
      | true =>
        have hcopied := ih (h.copy rfl)
        rw [if_pos rfl, List.append_assoc] at hcopied
        exact hcopied
      | false => exact ih (h.skip rfl)
    · rw [if_neg hslash, List.takeWhile_cons_of_neg (by simpa using hslash),
        List.dropWhile_cons_of_neg (by simpa using hslash), ite_self, List.append_nil]
      exact h

/-- The slashes before a segment are copied. -/
theorem slashes (h : s.Holds isRemote t) :
  (s.slashes isRemote).Holds isRemote (t.slashes isRemote)
  := by
  obtain ⟨base, top, rest, ok⟩ := t
  unfold Cursor.slashes PathTexts.slashes
  dsimp only
  cases rest with
  | nil =>
    have hpeek : s.peek 0 = 0 := h.peek 0
    have hne : ¬ s.peek 0 = 0x2f := by
      rw [hpeek]
      decide
    rw [if_neg hne, List.takeWhile_nil, List.take_nil, ite_self, List.append_nil]
    exact h
  | cons c rest =>
    rw [h.peek_cons]
    by_cases hslash : c = 0x2f
    · have hcopy := h.copy rfl
      have hleft : s.copy.left = rest.length := hcopy.left
      have hcopied := copySlashes hcopy
      rw [if_pos hslash, hleft, List.takeWhile_cons_of_pos (by exact decide_eq_true hslash),
        List.dropWhile_cons_of_pos (by exact decide_eq_true hslash)]
      dsimp only at hcopied
      rw [List.append_assoc] at hcopied
      cases isRemote with
      | true => exact hcopied
      | false => exact hcopied
    · rw [if_neg hslash, List.takeWhile_cons_of_neg (by simpa using hslash),
        List.dropWhile_cons_of_neg (by simpa using hslash), List.take_nil, ite_self,
        List.append_nil]
      exact h

theorem copySegment (h : s.Holds isRemote ⟨base, top, rest, ok⟩) :
  (Cursor.copySegment rest.length s).Holds isRemote
    ⟨base, top ++ rest.takeWhile (· ≠ 0x2f), rest.dropWhile (· ≠ 0x2f), ok⟩
  := by
  induction rest generalizing s top with
  | nil =>
    rw [List.takeWhile_nil, List.append_nil]
    exact h
  | cons c rest ih =>
    rw [List.length_cons, Cursor.copySegment, h.peek_cons]
    by_cases hslash : c = 0x2f
    · rw [if_pos hslash, List.takeWhile_cons_of_neg (by simpa using hslash),
        List.dropWhile_cons_of_neg (by simpa using hslash), List.append_nil]
      exact h
    · have hcopied := ih (h.copy rfl)
      rw [if_neg hslash, List.takeWhile_cons_of_pos (by simpa using hslash),
        List.dropWhile_cons_of_pos (by simpa using hslash)]
      dsimp only at hcopied
      rw [List.append_assoc] at hcopied
      exact hcopied

theorem skipSlashes (h : s.Holds isRemote ⟨base, top, rest, ok⟩) :
  (Cursor.skipSlashes rest.length s).Holds isRemote
    ⟨base, top, rest.dropWhile (· = 0x2f), ok⟩
  := by
  induction rest generalizing s with
  | nil => exact h
  | cons c rest ih =>
    rw [List.length_cons, Cursor.skipSlashes, h.peek_cons]
    by_cases hslash : c = 0x2f
    · rw [if_pos hslash, List.dropWhile_cons_of_pos (by exact decide_eq_true hslash)]
      exact ih (h.skip rfl)
    · rw [if_neg hslash, List.dropWhile_cons_of_neg (by simpa using hslash)]
      exact h

theorem backtrack (h : s.Holds isRemote ⟨base, top, rest, ok⟩) :
  (Cursor.backtrack top.length s).Holds isRemote
    ⟨base, top.rdropWhile (· ≠ 0x2f), rest, ok⟩
  := by
  induction top using List.reverseRecOn generalizing s with
  | nil => exact h
  | append_singleton top c ih =>
    obtain ⟨hback, hlast⟩ := h.back rfl
    rw [List.length_append, List.length_singleton, Cursor.backtrack, hlast]
    by_cases hslash : c = 0x2f
    · rw [if_pos hslash, List.rdropWhile_concat_neg _ _ _ (by simpa using hslash)]
      exact h
    · rw [if_neg hslash, List.rdropWhile_concat_pos _ _ _ (by simpa using hslash)]
      exact ih hback

theorem back_slash (h : s.Holds isRemote ⟨base, top, rest, ok⟩) :
  (if s.input ≠ s.data.length ∧ s.start < s.out ∧ s.data.getD (s.out - 1) 0 = 0x2f then s.back
      else s).Holds isRemote
    ⟨base, if rest ≠ [] ∧ top.getLast? = some 0x2f then top.dropLast else top, rest, ok⟩
  := by
  rcases List.eq_nil_or_concat top with rfl | ⟨above, c, rfl⟩
  · have hout : ¬ s.start < s.out := by
      rw [h.out_eq]
      exact lt_irrefl _
    rw [if_neg (fun hall => hout hall.2.1), List.dropLast_nil, ite_self]
    exact h
  · obtain ⟨hback, hlast⟩ := h.back (List.concat_eq_append ..)
    have hout : s.start < s.out := by
      rw [h.out_eq, List.concat_eq_append]
      dsimp only
      rw [List.length_append, List.length_singleton]
      omega
    have htop : (above.concat c).getLast? = some 0x2f ↔ c = 0x2f := by
      rw [List.concat_eq_append, List.getLast?_concat, Option.some_inj]
    have hend : s.input = s.data.length ↔ rest = [] := h.at_end_iff
    rw [hlast]
    by_cases hslash : rest ≠ [] ∧ c = 0x2f
    · rw [if_pos ⟨fun heq => hslash.1 (hend.mp heq), hout, hslash.2⟩,
        if_pos ⟨hslash.1, htop.mpr hslash.2⟩, List.concat_eq_append, List.dropLast_concat]
      exact hback
    · rw [if_neg (fun hall => hslash ⟨fun heq => hall.1 (hend.mpr heq), hall.2.2⟩),
        if_neg (fun hall => hslash ⟨hall.1, htop.mp hall.2⟩)]
      exact h

/-- The state is left behind a segment that is not copied. -/
theorem leave (h : s.Holds isRemote t) (prefixLength : ℕ) :
  (s.leave prefixLength).Holds isRemote (t.leave (prefixLength = 0))
  := by
  obtain ⟨base, top, rest, ok⟩ := t
  have hback := h.back_slash
  unfold Cursor.leave PathTexts.leave
  dsimp only
  generalize (if s.input ≠ s.data.length ∧ s.start < s.out ∧ s.data.getD (s.out - 1) 0 = 0x2f
    then s.back else s) = s at hback ⊢
  generalize (if rest ≠ [] ∧ top.getLast? = some 0x2f then top.dropLast else top) = top
    at hback ⊢
  by_cases htop : top = []
  · rw [if_pos (hback.top_nil_iff.mpr htop), if_pos htop]
    rw [htop] at hback
    have hskip : (if s.input ≠ s.data.length ∧ s.peek 0 = 0x2f then s.skip 1 else s).Holds
        isRemote ⟨base, [], if rest.head? = some 0x2f then rest.tail else rest, ok⟩ := by
      cases rest with
      | nil =>
        have hend := hback.at_end_iff.mpr rfl
        rw [if_neg (fun hall => hall.1 hend)]
        exact hback
      | cons c rest =>
        have hmore : s.input ≠ s.data.length := by
          intro hend
          have hnil := hback.at_end_iff.mp hend
          cases hnil
        have hhead : (c :: rest).head? = some 0x2f ↔ c = 0x2f := by
          rw [List.head?_cons, Option.some_inj]
        rw [hback.peek_cons]
        by_cases hslash : c = 0x2f
        · rw [if_pos ⟨hmore, hslash⟩, if_pos (hhead.mpr hslash)]
          exact hback.skip rfl
        · rw [if_neg (fun hall => hslash hall.2),
            if_neg (fun heq => hslash (hhead.mp heq))]
          exact hback
    by_cases hrelative : prefixLength = 0
    · have hall := skipSlashes hskip
      rw [if_pos hrelative, if_pos (decide_eq_true hrelative), hskip.left]
      have hdrop : (if rest.head? = some 0x2f then rest.tail else rest).dropWhile (· = 0x2f)
          = rest.dropWhile (· = 0x2f) := by
        cases rest with
        | nil => rfl
        | cons c rest =>
          have hhead : (c :: rest).head? = some 0x2f ↔ c = 0x2f := by
            rw [List.head?_cons, Option.some_inj]
          by_cases hslash : c = 0x2f
          · rw [if_pos (hhead.mpr hslash), List.tail_cons,
              List.dropWhile_cons_of_pos (by exact decide_eq_true hslash)]
          · rw [if_neg (fun heq => hslash (hhead.mp heq))]
      rw [hdrop] at hall
      exact hall
    · rw [if_neg hrelative, if_neg (fun heq => hrelative (of_decide_eq_true heq))]
      exact hskip
  · rw [if_neg (fun heq => htop (hback.top_nil_iff.mp heq)), if_neg htop]
    exact hback

/-- The kind of a segment, which is read up to the next slash. -/
theorem segmentType (h : s.Holds isRemote t) :
  s.segmentType = if t.rest.takeWhile (· ≠ 0x2f) = [0x2e] then .Dot
    else if t.rest.takeWhile (· ≠ 0x2f) = [0x2e, 0x2e] then .DotDot else .Nothing
  := by
  unfold Cursor.segmentType
  rw [h.peek 0, h.peek 1, h.peek 2]
  simp only [h.end_iff, takeWhile_eq_dot_iff, takeWhile_eq_dots_iff]
  split_ifs
  all_goals first
    | rfl
    | tauto

/-- What is written becomes the root. -/
theorem rebase (h : s.Holds false ⟨base, top, rest, ok⟩) (writes : List (ℕ × ℕ)) :
  ({ s with start := s.out, ok := false, writes := writes } : Cursor).Holds false
    ⟨base ++ top, [], rest, false⟩
  := by
  constructor
  · exact h.out_le
  · exact h.input_le
  · rw [List.append_nil]
    exact h.written
  · exact h.rest
  · have hout := h.out_eq
    rw [h.start] at hout
    rw [List.length_append]
    exact hout
  · rfl
  · intro hremote
    cases hremote

/-- Two dots are kept at the root. -/
theorem reRoot (h : s.Holds false ⟨base, [], 0x2e :: 0x2e :: rest, ok⟩)
    (hrest : rest = [] ∨ rest.head? = some 0x2f) :
  s.reRoot.Holds false ⟨base ++ [0x2e, 0x2e] ++ rest.take 1, [], rest.drop 1, false⟩
  := by
  have hone := h.copy rfl
  have htwo := hone.copy rfl
  have hend : s.input + 2 = s.data.length ↔ rest = [] := by
    rw [h.end_iff, ← List.length_eq_zero_iff]
    simp only [List.length_cons]
    omega
  have hsame : s.copy.copy = { (s.put 0x2e).put 0x2e with
      input := s.input + 2
      writes := s.copy.copy.writes } := by
    rw [Cursor.copy, hone.peek_cons, Cursor.copy, h.peek_cons]
    rfl
  unfold Cursor.reRoot
  dsimp only
  have hstop : (({ s with ok := false }.put 0x2e).put 0x2e).input + 2
      = (({ s with ok := false }.put 0x2e).put 0x2e).data.length ↔ rest = [] := by
    rw [← hend]
    unfold Cursor.put
    dsimp only
    rw [List.length_set, List.length_set]
  rcases hrest with rfl | hslash
  · rw [if_pos (hstop.mpr rfl), List.take_nil, List.append_nil]
    have hnew := htwo.rebase (({ s with ok := false }.put 0x2e).put 0x2e).writes
    rw [hsame] at hnew
    exact hnew
  · obtain ⟨rest, rfl⟩ : ∃ tail, rest = 0x2f :: tail := by
      cases rest with
      | nil => cases hslash
      | cons c tail => exact ⟨tail, by rw [Option.some.inj hslash]⟩
    have hthree := htwo.copy rfl
    have hnext : s.copy.copy.copy = { ((s.put 0x2e).put 0x2e).put 0x2f with
        input := s.input + 3
        writes := s.copy.copy.copy.writes } := by
      rw [Cursor.copy, htwo.peek_cons, hsame]
      rfl
    have hmore : ¬ (({ s with ok := false }.put 0x2e).put 0x2e).input + 2
        = (({ s with ok := false }.put 0x2e).put 0x2e).data.length := by
      intro heq
      have hnil := hstop.mp heq
      cases hnil
    have hnew := hthree.rebase
      ((({ s with ok := false }.put 0x2e).put 0x2e).put 0x2f).writes
    rw [hnext] at hnew
    rw [if_neg hmore, List.append_assoc]
    exact hnew

variable {prefixLength : ℕ}

/-- The segment is copied, skipped or taken back. -/
theorem segment (h : s.Holds isRemote t) :
  (s.segment isRemote prefixLength).Holds isRemote (t.segment isRemote (prefixLength = 0))
  := by
  obtain ⟨base, top, rest, ok⟩ := t
  have hsplit := List.takeWhile_append_dropWhile (p := (· ≠ 0x2f)) (l := rest)
  have htail := dropWhile_segment rest
  unfold Cursor.segment PathTexts.segment
  rw [h.segmentType]
  dsimp only
  by_cases hdot : rest.takeWhile (· ≠ 0x2f) = [0x2e]
  · rw [if_pos hdot, if_pos hdot]
    rw [hdot] at hsplit
    rw [← hsplit] at h
    exact (h.skip rfl).leave prefixLength
  · rw [if_neg hdot, if_neg hdot]
    by_cases hdots : rest.takeWhile (· ≠ 0x2f) = [0x2e, 0x2e]
    · rw [if_pos hdots, if_pos hdots]
      rw [hdots] at hsplit
      generalize rest.dropWhile (· ≠ 0x2f) = tail at *
      rw [← hsplit] at h
      rcases List.eq_nil_or_concat top with rfl | ⟨above, c, rfl⟩
      · have hout : s.out = s.start := h.top_nil_iff.mpr rfl
        cases isRemote with
        | true =>
          have hfailed : ({ s with ok := false } : Cursor).Holds true
              ⟨base, [], 0x2e :: 0x2e :: tail, false⟩ :=
            ⟨h.out_le, h.input_le, h.written, h.rest, h.start, rfl, h.writes⟩
          have hskip := (hfailed.skip rfl).skip rfl
          have hnot : ¬ ({ s with ok := false } : Cursor).start
              < ({ s with ok := false } : Cursor).out := by
            dsimp only
            omega
          have hzero : ({ s with ok := false } : Cursor).out
              - ({ s with ok := false } : Cursor).start = 0 := by
            dsimp only
            omega
          have hlocal : ¬ (s.out = s.start ∧ true = false) := fun hall => nomatch hall.2
          have htexts : ¬ (([] : QString) = [] ∧ true = false) := fun hall => nomatch hall.2
          rw [if_neg hlocal, if_pos hout, if_neg hnot, hzero, if_neg htexts, if_pos rfl]
          exact hskip.leave prefixLength
        | false =>
          rw [if_pos ⟨hout, rfl⟩, if_pos ⟨rfl, rfl⟩]
          exact h.reRoot htail
      · rw [List.concat_eq_append] at h ⊢
        have hout : s.out = s.start + (above.length + 1) := by
          rw [h.out_eq, List.length_append, List.length_singleton]
        have hback := (h.back rfl).1
        have habove : s.back.out - s.back.start = above.length := by
          change s.out - 1 - s.start = above.length
          omega
        have hroot := hback.backtrack
        have hskip := (hroot.skip rfl).skip rfl
        have hbelow : s.start < s.out := by omega
        have hne : ¬ s.out = s.start := by omega
        have htop : ¬ above ++ [c] = [] := List.append_ne_nil_of_right_ne_nil _ (by simp)
        have hcursor : ¬ (s.out = s.start ∧ isRemote = false) := fun hall => hne hall.1
        have htexts : ¬ (above ++ [c] = [] ∧ isRemote = false) := fun hall => htop hall.1
        rw [if_neg hcursor, if_neg hne, if_pos hbelow, habove, if_neg htexts,
          List.dropLast_concat, if_neg htop]
        exact hskip.leave prefixLength
    · rw [if_neg hdots, if_neg hdots]
      have hleft : s.left = rest.length := h.left
      dsimp only
      rw [hleft]
      exact h.copySegment

/-- The loop. -/
theorem segments (fuel : ℕ) (h : s.Holds isRemote t) :
  (s.segments isRemote prefixLength fuel).Holds isRemote
    (t.segments isRemote (prefixLength = 0) fuel)
  := by
  induction fuel generalizing s t with
  | zero => exact h
  | succ fuel ih =>
    have hstep : ((s.slashes isRemote).segment isRemote prefixLength).Holds isRemote
        ((t.slashes isRemote).segment isRemote (prefixLength = 0)) := h.slashes.segment
    have hend : ((s.slashes isRemote).segment isRemote prefixLength).input
        < ((s.slashes isRemote).segment isRemote prefixLength).data.length
        ↔ ((t.slashes isRemote).segment isRemote (prefixLength = 0)).rest ≠ [] := by
      have hle := hstep.input_le
      rw [ne_eq, ← hstep.at_end_iff]
      omega
    rw [Cursor.segments, PathTexts.segments]
    by_cases hmore : ((t.slashes isRemote).segment isRemote (prefixLength = 0)).rest = []
    · rw [if_neg (fun hlt => hend.mp hlt hmore), if_pos hmore]
      exact hstep
    · rw [if_pos (hend.mpr hmore), if_neg hmore]
      exact ih hstep

end Cursor.Holds

/-! ### The whole walk -/

namespace PathTexts

variable {isRemote relative : Bool} {t : PathTexts} {base top rest name tail before : QString}
  {ok : Bool} {c : UInt16}

theorem length_slashes_le (t : PathTexts) :
  (t.slashes isRemote).rest.length ≤ t.rest.length
  := (List.dropWhile_sublist _).length_le

theorem length_leave_le (t : PathTexts) :
  (t.leave relative).rest.length ≤ t.rest.length
  := by
  unfold leave
  dsimp only
  generalize (if t.rest ≠ [] ∧ t.top.getLast? = some 0x2f then t.top.dropLast else t.top) = top
  split_ifs
  · exact (List.dropWhile_sublist _).length_le
  · dsimp only
    rw [List.length_tail]
    apply Nat.sub_le
  · exact le_refl _
  · exact le_refl _

/-- A segment is read unless there is none. -/
theorem length_segment_lt (t : PathTexts) (h : t.rest.head? ≠ some 0x2f) (hrest : t.rest ≠ []) :
  (t.segment isRemote relative).rest.length < t.rest.length
  := by
  have htail : (t.rest.dropWhile (· ≠ 0x2f)).length < t.rest.length := by
    rcases List.exists_cons_of_ne_nil hrest with ⟨c, rest, hcons⟩
    rw [hcons] at h ⊢
    rw [List.dropWhile_cons_of_pos (by simpa using h), List.length_cons]
    apply Nat.lt_succ_of_le
    exact (List.dropWhile_sublist _).length_le
  unfold segment
  dsimp only
  split_ifs
  · exact lt_of_le_of_lt (length_leave_le _) htail
  · dsimp only
    rw [List.length_drop]
    exact lt_of_le_of_lt (Nat.sub_le _ _) htail
  · exact lt_of_le_of_lt (length_leave_le _) htail
  · exact lt_of_le_of_lt (length_leave_le _) htail
  · exact htail

theorem slashes_nil (h : t.rest = []) :
  t.slashes isRemote = t
  := by
  obtain ⟨base, top, rest, ok⟩ := t
  subst h
  unfold slashes
  dsimp only
  rw [List.takeWhile_nil, List.take_nil, ite_self, List.append_nil, List.dropWhile_nil]

theorem segment_nil (h : t.rest = []) :
  t.segment isRemote relative = t
  := by
  obtain ⟨base, top, rest, ok⟩ := t
  subst h
  unfold segment
  dsimp only
  rw [List.takeWhile_nil, if_neg (by decide), if_neg (by decide), List.append_nil,
    List.dropWhile_nil]

theorem head_slashes (t : PathTexts) :
  (t.slashes isRemote).rest.head? ≠ some 0x2f
  := by
  intro hhead
  have hnot := List.head?_dropWhile_not (p := (· = (0x2f : UInt16))) (l := t.rest)
  unfold slashes at hhead
  dsimp only at hhead
  rw [hhead] at hnot
  cases hnot

theorem length_segment_le (t : PathTexts) :
  (t.segment isRemote relative).rest.length ≤ t.rest.length
  := by
  have htail := (List.dropWhile_sublist (l := t.rest) fun c => decide (c ≠ 0x2f)).length_le
  unfold segment
  dsimp only
  split_ifs
  · exact le_trans (length_leave_le _) htail
  · dsimp only
    rw [List.length_drop]
    exact le_trans (Nat.sub_le _ _) htail
  · exact le_trans (length_leave_le _) htail
  · exact le_trans (length_leave_le _) htail
  · exact htail

theorem length_step_lt (isRemote relative : Bool) (t : PathTexts) (hrest : t.rest ≠ []) :
  ((t.slashes isRemote).segment isRemote relative).rest.length < t.rest.length
  := by
  by_cases hnil : (t.slashes isRemote).rest = []
  · rw [segment_nil hnil, hnil]
    exact List.length_pos_of_ne_nil hrest
  · exact lt_of_lt_of_le (length_segment_lt _ (head_slashes t) hnil) (length_slashes_le t)

/-- The path is read to its end. -/
def walk (isRemote relative : Bool) (t : PathTexts) : PathTexts :=
  t.segments isRemote relative t.rest.length

theorem segments_nil (fuel : ℕ) (h : t.rest = []) :
  t.segments isRemote relative fuel = t
  := by
  cases fuel with
  | zero => rfl
  | succ fuel => rw [segments, slashes_nil h, segment_nil h, if_pos h]

/-- The loop ends at the end of the path, however often it may be repeated. -/
theorem segments_congr {fuel fuel' : ℕ} (h : t.rest.length ≤ fuel) (h' : t.rest.length ≤ fuel') :
  t.segments isRemote relative fuel = t.segments isRemote relative fuel'
  := by
  induction fuel generalizing t fuel' with
  | zero =>
    have hnil := List.length_eq_zero_iff.mp (Nat.le_zero.mp h)
    rw [segments_nil 0 hnil, segments_nil fuel' hnil]
  | succ fuel ih =>
    by_cases hnil : t.rest = []
    · rw [segments_nil _ hnil, segments_nil _ hnil]
    · obtain ⟨fuel', rfl⟩ : ∃ n, fuel' = n + 1 := by
        have hpos := List.length_pos_of_ne_nil hnil
        exact ⟨fuel' - 1, by omega⟩
      have hlt := length_step_lt isRemote relative t hnil
      have hnext : ((t.slashes isRemote).segment isRemote relative).segments isRemote relative
          fuel = ((t.slashes isRemote).segment isRemote relative).segments isRemote relative
          fuel' := ih (by omega) (by omega)
      rw [segments, segments, hnext]

theorem segments_eq_walk {fuel : ℕ} (h : t.rest.length ≤ fuel) :
  t.segments isRemote relative fuel = t.walk isRemote relative
  := segments_congr h (le_refl _)

theorem walk_nil (h : t.rest = []) :
  t.walk isRemote relative = t
  := segments_nil _ h

theorem walk_step (t : PathTexts) :
  t.walk isRemote relative
    = ((t.slashes isRemote).segment isRemote relative).walk isRemote relative
  := by
  by_cases hnil : t.rest = []
  · rw [slashes_nil hnil, segment_nil hnil]
  · have hlt := length_step_lt isRemote relative t hnil
    have hpos : t.rest.length = t.rest.length - 1 + 1 := by omega
    unfold walk
    rw [hpos, segments]
    split
    next hend => rw [segments_nil _ hend]
    next => exact segments_congr (by omega) (le_refl _)

theorem walk_congr {t' : PathTexts} (h : t.slashes isRemote = t'.slashes isRemote) :
  t.walk isRemote relative = t'.walk isRemote relative
  := by
  rw [walk_step t, walk_step t', h]

end PathTexts

/-! ### The start of the loop -/

section Start

variable {isRemote relative : Bool} {before rest name tail : QString}

theorem getD_before (before rest : QString) (k : ℕ) :
  (before ++ rest).getD (before.length + k) 0 = rest.getD k 0
  := by
  rw [List.getD_append_right _ _ _ _ (Nat.le_add_right _ _), Nat.add_sub_cancel_left]

/-- Where a segment is "." or "..", the loop starts. -/
theorem findStart_dots (h : rest.takeWhile (· ≠ 0x2f) = [0x2e]
    ∨ rest.takeWhile (· ≠ 0x2f) = [0x2e, 0x2e]) :
  findStart isRemote (before ++ rest) rest.length before.length true = before.length
  := by
  have hzero : (before ++ rest).getD before.length 0 = rest.getD 0 0 := getD_before _ _ 0
  rw [takeWhile_eq_dot_iff, takeWhile_eq_dots_iff] at h
  cases rest with
  | nil => rfl
  | cons c rest =>
    have hend (k : ℕ) : before.length + k = (before ++ c :: rest).length
        ↔ (c :: rest).length = k := by
      rw [List.length_append]
      omega
    rw [← hzero, ← getD_before before _ 1, ← getD_before before _ 2, ← hend 1,
      ← hend 2] at h
    rw [List.length_cons, findStart]
    rcases h with ⟨hdot, hstop⟩ | ⟨hdot, htwo, hstop⟩
    · rw [if_pos ⟨rfl, hdot, hstop⟩]
    · by_cases hone : before.length + 1 = (before ++ c :: rest).length
          ∨ (before ++ c :: rest).getD (before.length + 1) 0 = 0x2f
      · rw [if_pos ⟨rfl, hdot, hone⟩]
      · rw [if_neg (fun hall => hone hall.2.2), if_pos ⟨rfl, hdot, htwo, hstop⟩]

/-- The characters of a segment behind the first one are passed. -/
theorem findStart_name (h : ∀ c ∈ name, c ≠ 0x2f) :
  findStart isRemote (before ++ (name ++ tail)) (name ++ tail).length before.length false
    = findStart isRemote (before ++ name ++ tail) tail.length (before ++ name).length false
  := by
  induction name generalizing before with
  | nil => rw [List.nil_append, List.append_nil]
  | cons c name ih =>
    have hfirst : (before ++ (c :: name ++ tail)).getD before.length 0 = c := getD_before _ _ 0
    have hc := h c List.mem_cons_self
    rw [List.cons_append, List.length_cons, findStart, ← List.cons_append]
    rw [if_neg (fun hall => nomatch hall.1), if_neg (fun hall => nomatch hall.1),
      if_neg (fun hall => nomatch hall.2.1), hfirst, decide_eq_false hc]
    have hrest : findStart isRemote (before ++ [c] ++ (name ++ tail)) (name ++ tail).length
        (before ++ [c]).length false
        = findStart isRemote (before ++ [c] ++ name ++ tail) tail.length
          (before ++ [c] ++ name).length false :=
      ih fun d hd => h d (List.mem_cons_of_mem c hd)
    have hlength : (before ++ [c]).length = before.length + 1 := by
      rw [List.length_append, List.length_singleton]
    rw [hlength] at hrest
    rw [List.append_cons before c name, List.cons_append, List.append_cons before c]
    exact hrest

/-- Behind a segment the end or a slash is found. -/
theorem findStart_tail (h : tail = [] ∨ tail.head? = some 0x2f) :
  findStart isRemote (before ++ tail) tail.length before.length false
    = if tail = [] then before.length
      else findStart isRemote (before ++ [0x2f] ++ tail.tail) tail.tail.length
        (before ++ [0x2f]).length true
  := by
  rcases h with rfl | hslash
  · rfl
  · obtain ⟨rest, rfl⟩ := List.head?_eq_some_iff.mp hslash
    have hfirst : (before ++ 0x2f :: rest).getD before.length 0 = 0x2f := getD_before _ _ 0
    rw [List.length_cons, findStart, if_neg (fun hall => nomatch hall.1),
      if_neg (fun hall => nomatch hall.1), if_neg (fun hall => nomatch hall.2.1), hfirst,
      if_neg (List.cons_ne_nil _ _), List.tail_cons, List.append_cons, List.length_append]
    rfl

/-- A segment that is neither "." nor ".." is passed. -/
theorem findStart_pass {c : UInt16} (h : ∀ d ∈ c :: name, d ≠ 0x2f)
    (htail : tail = [] ∨ tail.head? = some 0x2f) (hdot : c :: name ≠ [0x2e])
    (hdots : c :: name ≠ [0x2e, 0x2e]) :
  findStart isRemote (before ++ (c :: name ++ tail)) (c :: name ++ tail).length before.length true
    = if tail = [] then (before ++ c :: name).length
      else findStart isRemote (before ++ c :: name ++ [0x2f] ++ tail.tail) tail.tail.length
        (before ++ c :: name ++ [0x2f]).length true
  := by
  have htake := (takeWhile_segment h htail).1
  have hnot_dot := (takeWhile_eq_dot_iff (c :: name ++ tail)).not
  have hnot_dots := (takeWhile_eq_dots_iff (c :: name ++ tail)).not
  rw [htake] at hnot_dot hnot_dots
  have hfirst := hnot_dot.mp hdot
  have hsecond := hnot_dots.mp hdots
  have hend (k : ℕ) : before.length + k = (before ++ (c :: name ++ tail)).length
      ↔ (c :: name ++ tail).length = k := by
    rw [List.length_append]
    omega
  have hzero : (before ++ (c :: name ++ tail)).getD before.length 0
      = (c :: name ++ tail).getD 0 0 := getD_before _ _ 0
  rw [← hzero, ← getD_before before _ 1, ← hend] at hfirst hsecond
  rw [← getD_before before _ 2] at hsecond
  have hc : c ≠ 0x2f := h c List.mem_cons_self
  have hname : ∀ d ∈ name, d ≠ 0x2f := fun d hd => h d (List.mem_cons_of_mem c hd)
  have hchar : (before ++ (c :: name ++ tail)).getD before.length 0 = c := hzero
  have hslash : ¬ (before ++ (c :: name ++ tail)).getD before.length 0 = 0x2f := by
    rw [hchar]
    exact hc
  have hlength : (before ++ [c]).length = before.length + 1 := by
    rw [List.length_append, List.length_singleton]
  have hpass : findStart isRemote (before ++ [c] ++ (name ++ tail)) (name ++ tail).length
      (before ++ [c]).length false
      = findStart isRemote (before ++ [c] ++ name ++ tail) tail.length
        (before ++ [c] ++ name).length false := findStart_name hname
  rw [hlength] at hpass
  rw [List.cons_append, List.length_cons, findStart, ← List.cons_append,
    if_neg (fun hall => hfirst hall.2), if_neg (fun hall => hsecond hall.2),
    if_neg (fun hall => hslash hall.2.2.1), decide_eq_false hslash]
  rw [List.append_cons before c name, List.cons_append, List.append_cons before c,
    hpass, findStart_tail htail]

theorem segment_name {base top : QString} {ok : Bool} (h : ∀ c ∈ name, c ≠ 0x2f)
    (htail : tail = [] ∨ tail.head? = some 0x2f) (hdot : name ≠ [0x2e])
    (hdots : name ≠ [0x2e, 0x2e]) :
  (⟨base, top, name ++ tail, ok⟩ : PathTexts).segment isRemote relative
    = ⟨base, top ++ name, tail, ok⟩
  := by
  obtain ⟨htake, hdrop⟩ := takeWhile_segment h htail
  unfold PathTexts.segment
  dsimp only
  rw [htake, hdrop, if_neg hdot, if_neg hdots]

theorem slashes_of_head {t : PathTexts} (h : t.rest.head? ≠ some 0x2f) :
  t.slashes isRemote = t
  := by
  obtain ⟨base, top, rest, ok⟩ := t
  cases rest with
  | nil => exact PathTexts.slashes_nil rfl
  | cons c rest =>
    have hc : ¬ c = 0x2f := fun heq => h (congrArg some heq)
    unfold PathTexts.slashes
    dsimp only
    rw [List.takeWhile_cons_of_neg (by simpa using hc),
      List.dropWhile_cons_of_neg (by simpa using hc), List.take_nil, ite_self, List.append_nil]

/-- A segment that is passed is copied. -/
theorem walk_name {base top : QString} {ok : Bool} {c : UInt16} (h : ∀ d ∈ c :: name, d ≠ 0x2f)
    (htail : tail = [] ∨ tail.head? = some 0x2f) (hdot : c :: name ≠ [0x2e])
    (hdots : c :: name ≠ [0x2e, 0x2e]) :
  (⟨base, top, c :: name ++ tail, ok⟩ : PathTexts).walk isRemote relative
    = (⟨base, top ++ c :: name, tail, ok⟩ : PathTexts).walk isRemote relative
  := by
  have hhead : (c :: name ++ tail).head? ≠ some 0x2f := by
    intro heq
    exact h c List.mem_cons_self (Option.some.inj heq)
  rw [PathTexts.walk_step, slashes_of_head hhead, segment_name h htail hdot hdots]

/-- A single slash may be copied before the others. -/
theorem walk_slash {base top : QString} {ok : Bool}
    (h : isRemote = true ∨ rest.head? ≠ some 0x2f) :
  (⟨base, top, 0x2f :: rest, ok⟩ : PathTexts).walk isRemote relative
    = (⟨base, top ++ [0x2f], rest, ok⟩ : PathTexts).walk isRemote relative
  := by
  apply PathTexts.walk_congr
  unfold PathTexts.slashes
  dsimp only
  rw [List.takeWhile_cons_of_pos (by decide), List.dropWhile_cons_of_pos (by decide)]
  cases isRemote with
  | true => rw [if_pos rfl, if_pos rfl, List.append_cons top]
  | false =>
    have hhead : rest.head? ≠ some 0x2f := by
      rcases h with hremote | hhead
      · cases hremote
      · exact hhead
    have hnone : rest.takeWhile (· = 0x2f) = [] := by
      cases rest with
      | nil => rfl
      | cons c rest =>
        rw [List.takeWhile_cons_of_neg]
        intro heq
        exact hhead (congrArg some (of_decide_eq_true heq))
    rw [if_neg Bool.false_ne_true, if_neg Bool.false_ne_true, hnone, List.take_nil,
      List.append_nil]
    rfl

/-- A slash is passed by the start of the loop, unless it is one of several in a local path. -/
theorem findStart_slash :
  findStart isRemote (before ++ 0x2f :: rest) (0x2f :: rest).length before.length true
    = if isRemote = false ∧ before ≠ [] then before.length - 1
      else findStart isRemote (before ++ [0x2f] ++ rest) rest.length (before ++ [0x2f]).length true
  := by
  have hfirst : (before ++ 0x2f :: rest).getD before.length 0 = 0x2f := getD_before _ _ 0
  have hne : ¬ (before ++ 0x2f :: rest).getD before.length 0 = 0x2e := by
    rw [hfirst]
    decide
  rw [List.length_cons, findStart, if_neg (fun hall => hne hall.2.1),
    if_neg (fun hall => hne hall.2.1), hfirst]
  by_cases h : isRemote = false ∧ before ≠ []
  · rw [if_pos h, if_pos ⟨h.1, rfl, rfl, List.length_pos_of_ne_nil h.2⟩]
  · rw [if_neg h, if_neg (fun hall => h ⟨hall.1, List.ne_nil_of_length_pos hall.2.2.2⟩),
      List.append_cons, List.length_append]
    rfl

variable (isRemote relative) in
/-- The loop starts behind segments that it would copy. -/
theorem findStart_walk (before rest : QString) (h : isRemote = true ∨ rest.head? ≠ some 0x2f) :
  ∃ passed left, rest = passed ++ left
    ∧ findStart isRemote (before ++ rest) rest.length before.length true
      = (before ++ passed).length
    ∧ ∀ base top ok, (⟨base, top, rest, ok⟩ : PathTexts).walk isRemote relative
      = (⟨base, top ++ passed, left, ok⟩ : PathTexts).walk isRemote relative
  := by
  generalize hlength : rest.length = length
  induction length using Nat.strong_induction_on generalizing before rest with
  | _ length ih =>
    subst hlength
    obtain ⟨name, tail, rfl, hname, htail⟩ := exists_segment rest
    by_cases hdots : name = [0x2e] ∨ name = [0x2e, 0x2e]
    · use [], name ++ tail
      rw [List.append_nil]
      refine ⟨rfl, ?_, ?_⟩
      · apply findStart_dots
        rw [(takeWhile_segment hname htail).1]
        exact hdots
      · intro base top ok
        rw [List.append_nil]
    · rw [not_or] at hdots
      obtain ⟨hdot, htwo⟩ := hdots
      -- What is left is a slash and the segments behind it.
      have hnext (passed rest : QString) (hlt : rest.length < (name ++ tail).length)
          (hhead : isRemote = true ∨ rest.head? ≠ some 0x2f)
          (hsplit : name ++ tail = passed ++ 0x2f :: rest)
          (hstart : findStart isRemote (before ++ (name ++ tail)) (name ++ tail).length
            before.length true = findStart isRemote (before ++ passed ++ [0x2f] ++ rest)
              rest.length (before ++ passed ++ [0x2f]).length true)
          (hwalk : ∀ base top ok,
            (⟨base, top, name ++ tail, ok⟩ : PathTexts).walk isRemote relative
              = (⟨base, top ++ passed, 0x2f :: rest, ok⟩ : PathTexts).walk isRemote relative) :
          ∃ passed left, name ++ tail = passed ++ left
            ∧ findStart isRemote (before ++ (name ++ tail)) (name ++ tail).length before.length
              true = (before ++ passed).length
            ∧ ∀ base top ok, (⟨base, top, name ++ tail, ok⟩ : PathTexts).walk isRemote relative
              = (⟨base, top ++ passed, left, ok⟩ : PathTexts).walk isRemote relative := by
        obtain ⟨more, left, rfl, hfound, hmore⟩ := ih _ hlt (before ++ passed ++ [0x2f]) rest
          hhead rfl
        use passed ++ [0x2f] ++ more, left
        refine ⟨?_, ?_, ?_⟩
        · rw [hsplit]
          simp only [List.append_assoc, List.cons_append, List.nil_append]
        · rw [hstart, hfound]
          simp only [List.append_assoc]
        · intro base top ok
          rw [hwalk, walk_slash hhead, hmore]
          simp only [List.append_assoc]
      cases name with
      | nil =>
        rw [List.nil_append] at *
        rcases htail with rfl | hslash
        · use [], []
          refine ⟨rfl, ?_, ?_⟩
          · rw [List.append_nil]
            rfl
          · intro base top ok
            rw [List.append_nil]
        · obtain ⟨rest, rfl⟩ := List.head?_eq_some_iff.mp hslash
          have hremote : isRemote = true := by
            rcases h with hremote | hhead
            · exact hremote
            · exact absurd rfl hhead
          subst hremote
          apply hnext [] rest (Nat.lt_succ_self _) (Or.inl rfl) rfl
          · rw [findStart_slash, if_neg (fun hall => nomatch hall.1), List.append_nil]
          · intro base top ok
            rw [List.append_nil]
      | cons c name =>
        have hpass : findStart isRemote (before ++ (c :: name ++ tail))
            (c :: name ++ tail).length before.length true
            = if tail = [] then (before ++ c :: name).length
              else findStart isRemote (before ++ c :: name ++ [0x2f] ++ tail.tail)
                tail.tail.length (before ++ c :: name ++ [0x2f]).length true :=
          findStart_pass hname htail hdot htwo
        rcases htail with rfl | hslash
        · use c :: name, []
          rw [if_pos rfl] at hpass
          refine ⟨rfl, hpass, ?_⟩
          intro base top ok
          exact walk_name hname (Or.inl rfl) hdot htwo
        · obtain ⟨rest, rfl⟩ := List.head?_eq_some_iff.mp hslash
          rw [if_neg (List.cons_ne_nil _ _), List.tail_cons] at hpass
          have hwalk (base top : QString) (ok : Bool) :
              (⟨base, top, c :: name ++ 0x2f :: rest, ok⟩ : PathTexts).walk isRemote relative
                = (⟨base, top ++ c :: name, 0x2f :: rest, ok⟩ : PathTexts).walk isRemote
                  relative := walk_name hname (Or.inr rfl) hdot htwo
          by_cases hhead : isRemote = true ∨ rest.head? ≠ some 0x2f
          · apply hnext (c :: name) rest _ hhead rfl hpass hwalk
            simp only [List.length_append, List.length_cons]
            omega
          · obtain ⟨hlocal, hslashes⟩ := not_or.mp hhead
            use c :: name, 0x2f :: rest
            refine ⟨rfl, ?_, hwalk⟩
            obtain ⟨more, rfl⟩ : ∃ more, rest = 0x2f :: more := by
              cases rest with
              | nil => exact absurd (fun heq => nomatch heq) hslashes
              | cons c more => exact ⟨more, by rw [Option.some.inj (not_not.mp hslashes)]⟩
            rw [hpass, findStart_slash, if_pos]
            · rw [List.length_append, List.length_singleton, Nat.add_sub_cancel]
            · constructor
              · exact Bool.eq_false_iff.mpr hlocal
              · exact List.append_ne_nil_of_right_ne_nil _ (List.cons_ne_nil _ _)

end Start

/-- The texts where the walk begins. -/
def entry (isRemote : Bool) (path : QString) : PathTexts where
  base := path.take (rootLength path)
  top := []
  rest := if isRemote then path.drop (rootLength path)
    else (path.drop (rootLength path)).dropWhile (· = 0x2f)
  ok := true

/-- The texts where the walk ends. -/
def walked (path : QString) (flags : PathNormalizations) : PathTexts :=
  (entry flags.RemotePath path).walk flags.RemotePath (rootLength path = 0)

theorem rootLength_cases (path : QString) :
  rootLength path = 0 ∧ path.head? ≠ some 0x2f
    ∨ ∃ rest, path = 0x2f :: rest ∧ rootLength path = 1
  := by
  cases path with
  | nil => exact Or.inl ⟨rfl, fun h => nomatch h⟩
  | cons c rest =>
    rw [rootLength, List.getD_cons_zero]
    by_cases h : c = 0x2f
    · rw [if_pos h]
      exact Or.inr ⟨rest, by rw [h], rfl⟩
    · rw [if_neg h]
      exact Or.inl ⟨rfl, fun heq => h (Option.some.inj heq)⟩

theorem holds_new {isRemote : Bool} (path before passed left : QString)
    (hpath : path = before ++ passed ++ left) (hroot : rootLength path = before.length) :
  (Cursor.new path (before ++ passed).length).Holds isRemote ⟨before, passed, left, true⟩
  := by
  constructor
  · exact le_refl _
  · change (before ++ passed).length ≤ path.length
    have hlength := congrArg List.length hpath
    rw [List.length_append] at hlength
    omega
  · change path.take (before ++ passed).length = before ++ passed
    rw [hpath]
    exact List.take_left
  · change path.drop (before ++ passed).length = left
    rw [hpath]
    exact List.drop_left
  · exact hroot
  · rfl
  · intro _ w hw
    cases hw

/-- The first slash of a local path is copied to its place, and the others are skipped. -/
theorem holds_slashes (rest : QString) :
  ((Cursor.new (0x2f :: 0x2f :: rest) 0).slashes false).Holds false
    ⟨[0x2f], [], rest.dropWhile (· = 0x2f), true⟩
  := by
  have hcopy : (Cursor.new (0x2f :: 0x2f :: rest) 0).copy.Holds false
      ⟨[0x2f], [], 0x2f :: rest, true⟩ := by
    constructor
    · exact le_refl _
    · change 1 ≤ rest.length + 1 + 1
      omega
    · rfl
    · rfl
    · rfl
    · rfl
    · intro hremote
      cases hremote
  have hcopied := hcopy.copySlashes
  have hleft : (Cursor.new (0x2f :: 0x2f :: rest) 0).copy.left = (0x2f :: rest).length :=
    hcopy.left
  have hpeek : (Cursor.new (0x2f :: 0x2f :: rest) 0).peek 0 = 0x2f := rfl
  unfold Cursor.slashes
  rw [if_pos hpeek, hleft]
  exact hcopied

/-- The rewriting, if there is any, ends with the texts of the walk. -/
theorem rewritten_spec (path : QString) (flags : PathNormalizations) :
  (rewritten path flags = none
      ∧ (walked path flags).base ++ (walked path flags).top = path
      ∧ (walked path flags).ok = true)
    ∨ ∃ s, rewritten path flags = some s ∧ s.Holds flags.RemotePath (walked path flags)
  := by
  obtain ⟨isRemote⟩ := flags
  unfold rewritten walked entry findStartOfNonNormalizedPath
  dsimp only
  by_cases hhead : isRemote = true ∨ (path.drop (rootLength path)).head? ≠ some 0x2f
  · have hrest : (if isRemote = true then path.drop (rootLength path)
        else (path.drop (rootLength path)).dropWhile (· = 0x2f)) = path.drop (rootLength path) := by
      rcases hhead with rfl | hne
      · rfl
      · rw [ite_eq_left_iff]
        intro _
        cases hdrop : path.drop (rootLength path) with
        | nil => rfl
        | cons c rest =>
          rw [hdrop] at hne
          rw [List.dropWhile_cons_of_neg]
          intro heq
          exact hne (congrArg some (of_decide_eq_true heq))
    have hroot : rootLength path = (path.take (rootLength path)).length := by
      rw [List.length_take]
      rcases rootLength_cases path with ⟨hzero, -⟩ | ⟨rest, rfl, hone⟩
      · rw [hzero, Nat.zero_min]
      · rw [hone, List.length_cons]
        omega
    have hpath := List.take_append_drop (rootLength path) path
    obtain ⟨passed, left, hleft, hstart, hwalk⟩ := findStart_walk isRemote
      (rootLength path = 0) (path.take (rootLength path)) _ hhead
    rw [hpath, List.length_drop, ← hroot] at hstart
    rw [hrest, hwalk, List.nil_append, hstart]
    rw [hleft, ← List.append_assoc] at hpath
    by_cases hend : (path.take (rootLength path) ++ passed).length = path.length
    · left
      have hnil : left = [] := by
        have hlength := congrArg List.length hpath
        rw [List.length_append, hend] at hlength
        apply List.length_eq_zero_iff.mp
        omega
      rw [if_pos hend, hnil, PathTexts.walk_nil rfl]
      rw [hnil, List.append_nil] at hpath
      exact ⟨rfl, hpath, rfl⟩
    · right
      rw [if_neg hend]
      use (Cursor.new path (path.take (rootLength path) ++ passed).length).segments isRemote
        (rootLength path) (path.length - (path.take (rootLength path) ++ passed).length)
      constructor
      · rfl
      · have hholds : ((Cursor.new path (path.take (rootLength path) ++ passed).length).segments
            isRemote (rootLength path)
            (path.length - (path.take (rootLength path) ++ passed).length)).Holds isRemote
            ((⟨path.take (rootLength path), passed, left, true⟩ : PathTexts).segments isRemote
              (rootLength path = 0)
              (path.length - (path.take (rootLength path) ++ passed).length)) :=
          (holds_new path _ passed left hpath.symm hroot).segments _
        rw [PathTexts.segments_eq_walk] at hholds
        · exact hholds
        · have hlength := congrArg List.length hpath
          rw [List.length_append] at hlength
          change left.length ≤ _
          omega
  · rw [not_or, not_not] at hhead
    obtain ⟨hlocal, hslash⟩ := hhead
    obtain rfl := Bool.eq_false_iff.mpr hlocal
    rcases rootLength_cases path with ⟨hzero, hne⟩ | ⟨rest, rfl, hone⟩
    · rw [hzero] at hslash
      exact absurd hslash hne
    · rw [hone] at hslash ⊢
      obtain ⟨more, rfl⟩ : ∃ more, rest = 0x2f :: more := by
        cases rest with
        | nil => cases hslash
        | cons c more => exact ⟨more, by rw [Option.some.inj hslash]⟩
      have hstart : findStart false (0x2f :: 0x2f :: more) (0x2f :: more).length 1 true = 0 :=
       
        (findStart_slash : findStart false ([0x2f] ++ 0x2f :: more) (0x2f :: more).length
          ([0x2f] : QString).length true = _)
      have hleft : (0x2f :: 0x2f :: more).length - 1 = (0x2f :: more).length := rfl
      right
      use (Cursor.new (0x2f :: 0x2f :: more) 0).segments false 1 (more.length + 2)
      rw [hleft, hstart, if_neg (by simp)]
      constructor
      · rfl
      · have hstep : (((Cursor.new (0x2f :: 0x2f :: more) 0).slashes false).segment false 1).Holds
            false ((⟨[0x2f], [], more.dropWhile (· = 0x2f), true⟩ : PathTexts).segment false
              (1 = 0)) := (holds_slashes more).segment
        have hentry : (if false = true then List.drop 1 (0x2f :: 0x2f :: more)
            else (List.drop 1 (0x2f :: 0x2f :: more)).dropWhile (· = 0x2f))
            = more.dropWhile (· = 0x2f) := by
          rw [if_neg Bool.false_ne_true, List.drop_succ_cons, List.drop_zero,
            List.dropWhile_cons_of_pos (by decide)]
        have hslashed : ((⟨[0x2f], [], more, true⟩ : PathTexts).slashes false).rest.head?
            ≠ some 0x2f := PathTexts.head_slashes _
        have hhead : (⟨[0x2f], [], more.dropWhile (· = 0x2f), true⟩ : PathTexts).rest.head?
            ≠ some 0x2f := hslashed
        have hwalk : (⟨[0x2f], [], more.dropWhile (· = 0x2f), true⟩ : PathTexts).walk false (1 = 0)
            = (((⟨[0x2f], [], more.dropWhile (· = 0x2f), true⟩ : PathTexts).slashes false).segment
              false (1 = 0)).walk false (1 = 0) := PathTexts.walk_step _
        rw [slashes_of_head hhead] at hwalk
        rw [hentry]
        change Cursor.Holds false _
          ((⟨[0x2f], [], more.dropWhile (· = 0x2f), true⟩ : PathTexts).walk false (1 = 0))
        rw [hwalk, Cursor.segments]
        have hend := hstep.at_end_iff
        have hle := hstep.input_le
        split
        next hmore =>
          have hlength : ((⟨[0x2f], [], more.dropWhile (· = 0x2f), true⟩ : PathTexts).segment false
              (1 = 0)).rest.length ≤ more.length + 1 := by
            apply le_trans (PathTexts.length_segment_le _)
            apply le_trans (List.dropWhile_sublist _).length_le
            apply Nat.le_succ
          rw [← PathTexts.segments_eq_walk hlength]
          exact hstep.segments _
        next hstop =>
          rw [PathTexts.walk_nil (hend.mp (by omega))]
          exact hstep

/-- The result of the rewriting is what the walk has written. -/
theorem qt_normalizePathSegments_eq {path : QString} (h : path ≠ []) (flags : PathNormalizations) :
  qt_normalizePathSegments path flags
    = ((walked path flags).ok || rootLength path = 0,
      if flags.RemotePath = false ∧ (walked path flags).base ++ (walked path flags).top = []
      then [0x2e] else (walked path flags).base ++ (walked path flags).top)
  := by
  unfold qt_normalizePathSegments
  rcases rewritten_spec path flags with ⟨hnone, hpath, hok⟩ | ⟨s, hsome, hholds⟩
  · rw [hnone, hpath, hok, if_neg (fun hall => h hall.2)]
    rfl
  · rw [hsome]
    dsimp only
    rw [hholds.written, hholds.ok]

end QDirPrivate
