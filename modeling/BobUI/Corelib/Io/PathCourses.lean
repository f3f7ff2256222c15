import BobUI.Corelib.Io.DirPathTexts
import Mathlib.Data.List.Infix

/-!
# Segments of a local path

A local path is rewritten segment by segment: a name is added, and a ".." removes one or goes up.
Where slashes are doubled at the root, an empty segment is written there, and a ".." may remove it
instead.
-/

namespace QDirPrivate

/-! ### Places -/

/-- The place that a path leads to, with the names from the last one on. -/
structure Location where
  absolute : Bool
  ups : ℕ
  names : List QString
deriving DecidableEq, Repr

/-- An empty segment and "." stay, and ".." cancels a name if there is one. -/
def Location.enter (l : Location) (segment : QString) : Location :=
  if segment = [] ∨ segment = [0x2e] then l
  else if segment = [0x2e, 0x2e] then
    if l.names = [] then { l with ups := l.ups + 1 } else { l with names := l.names.tail }
  else { l with names := segment :: l.names }

def start (path : QString) : Location :=
  ⟨path.head? = some 0x2f, 0, []⟩

def location (path : QString) : Location :=
  (path.splitOn 0x2f).foldl Location.enter (start path)

/-- At least two slashes follow a segment that has these behind it. -/
def Doubled : List QString → Prop
  | [] :: _ :: _ => True
  | _ => False

instance : DecidablePred Doubled := fun rest =>
  match rest with
  | [] :: _ :: _ => isTrue trivial
  | [] => isFalse id
  | [[]] => isFalse id
  | (_ :: _) :: _ => isFalse id

/-- What is written of a path: the place, and an empty segment before the names. -/
structure Course where
  location : Location
  pending : Bool

namespace Course

/-- The root and the segments that go up. -/
def lower (c : Course) : List QString :=
  (if c.location.absolute then [[]] else []) ++ List.replicate c.location.ups [0x2e, 0x2e]

def upper (c : Course) : List QString :=
  (if c.pending then [[]] else []) ++ c.location.names.reverse

/-- No name is left, and the slashes that follow are written again. -/
def leave (c : Course) (rest : List QString) : Course :=
  if c.location.names = [] ∧ rest ≠ [] then
    ⟨c.location, Doubled rest ∧ c.location.absolute = true⟩
  else c

/-- A segment is read that has `rest` behind it. -/
def pass (c : Course) (segment : QString) (rest : List QString) : Course :=
  if segment = [0x2e] then c.leave rest
  else if segment = [0x2e, 0x2e] then
    if c.upper = [] then ⟨c.location.enter segment, Doubled rest⟩
    else if c.location.names = [] then leave ⟨c.location, false⟩ rest
    else leave ⟨c.location.enter segment, c.pending⟩ rest
  else ⟨c.location.enter segment, c.pending⟩

/-- All segments are read. -/
def after (c : Course) : List QString → Course
  | [] => c
  | segment :: rest => (c.pass segment rest).after rest

/-- Whether the last segment that is written has a slash behind it. -/
def isOpen (c : Course) (segment : QString) : Bool :=
  segment = [] ∨ segment = [0x2e] ∨ segment = [0x2e, 0x2e] ∧ c.upper ≠ []

def EndsOpen (c : Course) : List QString → Bool
  | [] => true
  | segment :: rest => if rest = [] then c.isOpen segment else (c.pass segment rest).EndsOpen rest

/-- The segments of the text that is written. -/
def written (c : Course) (ends_open : Bool) : List QString :=
  c.lower ++ c.upper ++ if ends_open then [[]] else []

/-- The segments that are written are names and at most one empty segment below them. -/
structure Valid (c : Course) : Prop where
  names : ∀ name ∈ c.location.names,
    name ≠ [] ∧ name ≠ [0x2e] ∧ name ≠ [0x2e, 0x2e] ∧ (0x2f : UInt16) ∉ name
  pending : c.pending = true → c.lower ≠ []

end Course

/-! ### Segments as texts -/

/-- Each segment with a slash behind it. -/
def slashed (segments : List QString) : QString :=
  (segments.map (· ++ [0x2f])).flatten

theorem slashed_append (segments rest : List QString) :
  slashed (segments ++ rest) = slashed segments ++ slashed rest
  := by
  unfold slashed
  rw [List.map_append, List.flatten_append]

theorem slashed_concat (segments : List QString) (segment : QString) :
  slashed (segments ++ [segment]) = slashed segments ++ segment ++ [0x2f]
  := by
  rw [slashed_append, List.append_assoc]
  unfold slashed
  rw [List.map_singleton, List.flatten_singleton]

theorem slashed_eq_nil {segments : List QString} :
  slashed segments = [] ↔ segments = []
  := by
  rcases List.eq_nil_or_concat segments with rfl | ⟨before, last, rfl⟩
  · exact iff_of_true rfl rfl
  · rw [List.concat_eq_append, slashed_concat]
    constructor
    · intro h
      exact absurd h (List.append_ne_nil_of_right_ne_nil _ (List.cons_ne_nil _ _))
    · intro h
      exact absurd h (List.append_ne_nil_of_right_ne_nil _ (List.cons_ne_nil _ _))

/-- A text is its segments, with slashes between them. -/
theorem intercalate_concat (segments : List QString) (last : QString) :
  [0x2f].intercalate (segments ++ [last]) = slashed segments ++ last
  := by
  induction segments with
  | nil => simp [slashed]
  | cons segment segments ih =>
    have hne : segments ++ [last] ≠ [] :=
      List.append_ne_nil_of_right_ne_nil _ (List.cons_ne_nil _ _)
    rw [List.cons_append, List.intercalate_cons_of_ne_nil hne, ih, List.append_cons]
    unfold slashed
    simp

/-! ### Reading the segments -/

/-- The texts are at a segment. -/
structure Course.At (c : Course) (t : PathTexts) : Prop where
  base : t.base = slashed c.lower
  top : t.top = slashed c.upper

section Texts

variable {relative : Bool} {base top more name tail : QString} {ok : Bool}

theorem slashes_local :
  (⟨base, top, 0x2f :: more, ok⟩ : PathTexts).slashes false
    = ⟨base, top ++ [0x2f], more.dropWhile (· = 0x2f), ok⟩
  := by
  unfold PathTexts.slashes
  dsimp only
  rw [if_neg Bool.false_ne_true, List.takeWhile_cons_of_pos (by decide),
    List.dropWhile_cons_of_pos (by decide), List.take_succ_cons, List.take_zero]

theorem leave_nil :
  (⟨base, top, [], ok⟩ : PathTexts).leave relative = ⟨base, top, [], ok⟩
  := by
  unfold PathTexts.leave
  dsimp only
  have htop : (if ([] : QString) ≠ [] ∧ top.getLast? = some 0x2f then top.dropLast else top)
      = top := if_neg fun h => h.1 rfl
  have hrest : (if relative = true then ([] : QString).dropWhile (· = 0x2f)
      else if ([] : QString).head? = some 0x2f then ([] : QString).tail else []) = [] := by
    cases relative with
    | true => rfl
    | false => rfl
  rw [htop, hrest, ite_eq_right_iff]
  intro h
  rw [h]

/-- Nothing is left above the root, and only the slashes of an absolute path are copied. -/
theorem leave_root {upper : List QString} (h : upper = [] ∨ upper = [[]]) :
  ((⟨base, slashed upper, 0x2f :: more, ok⟩ : PathTexts).leave relative).slashes false
    = ⟨base, if more.head? = some 0x2f ∧ relative = false then [0x2f] else [],
      more.dropWhile (· = 0x2f), ok⟩
  := by
  have htop : (if (0x2f : UInt16) :: more ≠ [] ∧ (slashed upper).getLast? = some 0x2f
      then (slashed upper).dropLast else slashed upper) = [] := by
    rcases h with rfl | rfl
    · rfl
    · rfl
  unfold PathTexts.leave
  dsimp only
  rw [htop, if_pos rfl]
  cases relative with
  | true =>
    rw [if_pos rfl, if_neg (fun h => nomatch h.2), List.dropWhile_cons_of_pos (by decide)]
    have hhead : ((⟨base, [], more, ok⟩ : PathTexts).slashes false).rest.head? ≠ some 0x2f :=
      PathTexts.head_slashes _
    exact slashes_of_head hhead
  | false =>
    rw [if_neg Bool.false_ne_true, List.head?_cons, if_pos rfl, List.tail_cons]
    cases more with
    | nil =>
      rw [PathTexts.slashes_nil rfl]
      rfl
    | cons c more =>
      by_cases hslash : c = 0x2f
      · rw [hslash, slashes_local, List.head?_cons, if_pos ⟨rfl, rfl⟩,
          List.dropWhile_cons_of_pos (by decide)]
        rfl
      · have hhead : (⟨base, [], c :: more, ok⟩ : PathTexts).rest.head? ≠ some 0x2f :=
          fun heq => hslash (Option.some.inj heq)
        rw [slashes_of_head hhead, if_neg (fun hall => hhead hall.1),
          List.dropWhile_cons_of_neg (by simpa using hslash)]

/-- The slash behind the last segment is taken back and copied again. -/
theorem leave_names {upper : List QString} (h : upper ≠ []) (hnames : upper ≠ [[]]) :
  ((⟨base, slashed upper, 0x2f :: more, ok⟩ : PathTexts).leave relative).slashes false
    = ⟨base, slashed upper, more.dropWhile (· = 0x2f), ok⟩
  := by
  rcases List.eq_nil_or_concat upper with rfl | ⟨before, last, rfl⟩
  · exact absurd rfl h
  · rw [List.concat_eq_append] at hnames ⊢
    have htop : slashed before ++ last ≠ [] := by
      intro hnil
      obtain ⟨hbefore, hlast⟩ := List.append_eq_nil_iff.mp hnil
      rw [slashed_eq_nil] at hbefore
      rw [hbefore, hlast] at hnames
      exact hnames rfl
    rw [slashed_concat]
    have hback : (if (0x2f : UInt16) :: more ≠ []
        ∧ (slashed before ++ last ++ [0x2f]).getLast? = some 0x2f
        then (slashed before ++ last ++ [0x2f]).dropLast else slashed before ++ last ++ [0x2f])
        = slashed before ++ last := by
      rw [List.dropLast_concat]
      exact if_pos ⟨List.cons_ne_nil _ _, List.getLast?_concat⟩
    unfold PathTexts.leave
    dsimp only
    rw [hback, if_neg htop, slashes_local]

end Texts

namespace Course

variable {c : Course} {name : QString} {rest : List QString}

/-! ### One segment -/

theorem upper_of_names (h : c.location.names = []) :
  c.upper = [] ∨ c.upper = [[]]
  := by
  unfold upper
  rw [h]
  cases c.pending with
  | true => exact Or.inr rfl
  | false => exact Or.inl rfl

theorem upper_ne (h : c.Valid) (hnames : c.location.names ≠ []) :
  c.upper ≠ [] ∧ c.upper ≠ [[]]
  := by
  obtain ⟨name, names, heq⟩ := List.exists_cons_of_ne_nil hnames
  have hname := h.names name (by rw [heq]; exact List.mem_cons_self)
  unfold upper
  rw [heq, List.reverse_cons, ← List.append_assoc]
  constructor
  · exact List.append_ne_nil_of_right_ne_nil _ (List.cons_ne_nil _ _)
  · intro hsingle
    rw [List.append_eq_singleton_iff] at hsingle
    rcases hsingle with ⟨-, hlast⟩ | ⟨-, hlast⟩
    · exact hname.1 (List.singleton_inj.mp hlast)
    · cases hlast

theorem doubled_splitOn (more : QString) :
  Doubled (more.splitOn 0x2f) ↔ more.head? = some 0x2f
  := by
  obtain ⟨name, tail, rfl, hname, htail⟩ := exists_segment more
  have hnot : (0x2f : UInt16) ∉ name := fun hmem => hname _ hmem rfl
  rcases htail with rfl | hslash
  · rw [List.append_nil, List.splitOn_eq_singleton hnot]
    cases name with
    | nil => exact iff_of_false (fun h => h) (fun h => nomatch h)
    | cons c name =>
      exact iff_of_false (fun h => h)
        (fun h => hname c List.mem_cons_self (Option.some.inj h))
  · obtain ⟨rest, rfl⟩ := List.head?_eq_some_iff.mp hslash
    rw [List.splitOn_append_cons_self_of_not_mem hnot]
    cases name with
    | nil =>
      obtain ⟨next, others, hsplit⟩ :=
        List.exists_cons_of_ne_nil (List.splitOn_ne_nil (0x2f : UInt16) rest)
      rw [hsplit]
      exact iff_of_true trivial rfl
    | cons c name =>
      exact iff_of_false (fun h => h)
        (fun h => hname c List.mem_cons_self (Option.some.inj h))

/-- The texts are at the next segment. -/
def Reaches (c : Course) (more : QString) (t : PathTexts) : Prop :=
  c.At t ∧ t.rest = more.dropWhile (· = 0x2f)

variable {base top more : QString} {ok : Bool}

theorem at_leave (h : c.Valid) (hat : c.At ⟨base, top, 0x2f :: more, ok⟩) :
  (c.leave (more.splitOn 0x2f)).Reaches more
    (((⟨base, top, 0x2f :: more, ok⟩ : PathTexts).leave (!c.location.absolute)).slashes false)
  := by
  obtain ⟨hbase, htop⟩ := hat
  dsimp only at hbase htop
  unfold leave
  by_cases hnames : c.location.names = []
  · have hdoubled : (decide (Doubled (more.splitOn 0x2f) ∧ c.location.absolute = true)) = true
        ↔ more.head? = some 0x2f ∧ (!c.location.absolute) = false := by
      rw [decide_eq_true_iff, doubled_splitOn, Bool.not_eq_false']
    rw [if_pos ⟨hnames, List.splitOn_ne_nil _ _⟩, htop, leave_root (upper_of_names hnames)]
    refine ⟨⟨hbase, ?_⟩, rfl⟩
    unfold upper
    rw [hnames]
    by_cases hslash : more.head? = some 0x2f ∧ (!c.location.absolute) = false
    · rw [if_pos hslash, if_pos (hdoubled.mpr hslash)]
      rfl
    · rw [if_neg hslash, if_neg (fun heq => hslash (hdoubled.mp heq))]
      rfl
  · obtain ⟨hne, hroot⟩ := upper_ne h hnames
    rw [if_neg (fun hall => hnames hall.1), htop, leave_names hne hroot]
    exact ⟨⟨hbase, rfl⟩, rfl⟩

/-- What is written before the last segment is left. -/
theorem rdropWhile_slashed {before : List QString} {last : QString}
    (h : (0x2f : UInt16) ∉ last) :
  (slashed (before ++ [last])).dropLast.rdropWhile (· ≠ 0x2f) = slashed before
  := by
  rw [slashed_concat, List.dropLast_concat]
  induction last using List.reverseRecOn with
  | nil =>
    rw [List.append_nil]
    rcases List.eq_nil_or_concat before with rfl | ⟨above, segment, rfl⟩
    · rfl
    · rw [List.concat_eq_append, slashed_concat, List.rdropWhile_concat_neg _ _ _ (by decide)]
  | append_singleton last c ih =>
    rw [List.mem_append, List.mem_singleton, not_or] at h
    rw [← List.append_assoc,
      List.rdropWhile_concat_pos _ _ _ (by simpa using fun heq => h.2 heq.symm)]
    exact ih h.1

/-- A ".." removes the last segment that is written. -/
theorem pass_dots (h : c.Valid) (hupper : c.upper ≠ []) :
  ∃ (last : QString) (c' : Course), c.upper = c'.upper ++ [last] ∧ (0x2f : UInt16) ∉ last
    ∧ c'.lower = c.lower ∧ c'.Valid ∧ c'.location.absolute = c.location.absolute
    ∧ ∀ rest, c.pass [0x2e, 0x2e] rest = c'.leave rest
  := by
  by_cases hnames : c.location.names = []
  · use [], ⟨c.location, false⟩
    refine ⟨?_, List.not_mem_nil, rfl, ⟨h.names, fun heq => nomatch heq⟩, rfl, ?_⟩
    · rcases upper_of_names hnames with hnil | hsingle
      · exact absurd hnil hupper
      · rw [hsingle]
        unfold upper
        rw [hnames]
        rfl
    · intro rest
      rw [pass, if_neg (by decide), if_pos rfl, if_neg hupper, if_pos hnames]
  · obtain ⟨name, names, heq⟩ := List.exists_cons_of_ne_nil hnames
    have henter : c.location.enter [0x2e, 0x2e] = { c.location with names := names } := by
      rw [Location.enter, if_neg (by decide), if_pos rfl, if_neg hnames, heq, List.tail_cons]
    use name, ⟨{ c.location with names := names }, c.pending⟩
    have hmem : name ∈ c.location.names := by
      rw [heq]
      exact List.mem_cons_self
    refine ⟨?_, (h.names name hmem).2.2.2, rfl, ⟨?_, h.pending⟩, rfl, ?_⟩
    · unfold upper
      rw [heq, List.reverse_cons, List.append_assoc]
    · intro other hother
      apply h.names
      rw [heq]
      exact List.mem_cons_of_mem name hother
    · intro rest
      rw [pass, if_neg (by decide), if_pos rfl, if_neg hupper, if_neg hnames, henter]

theorem enter_up {l : Location} (h : l.names = []) :
  l.enter [0x2e, 0x2e] = { l with ups := l.ups + 1 }
  := by
  rw [Location.enter, if_neg (by decide), if_pos rfl, if_pos h]

theorem lower_enter_up (h : c.location.names = []) (pending : Bool) :
  lower ⟨c.location.enter [0x2e, 0x2e], pending⟩ = c.lower ++ [[0x2e, 0x2e]]
  := by
  rw [enter_up h]
  unfold lower
  rw [List.replicate_succ', List.append_assoc]

theorem names_of_upper (h : c.upper = []) :
  c.location.names = [] ∧ c.pending = false
  := by
  obtain ⟨hpending, hnames⟩ := List.append_eq_nil_iff.mp h
  rw [List.reverse_eq_nil_iff] at hnames
  refine ⟨hnames, ?_⟩
  cases heq : c.pending with
  | true =>
    rw [heq] at hpending
    cases hpending
  | false => rfl

/-- A name is written behind the others. -/
theorem pass_name (h : name ≠ []) (hdot : name ≠ [0x2e]) (hdots : name ≠ [0x2e, 0x2e])
    (rest : List QString) :
  (c.pass name rest).lower = c.lower ∧ (c.pass name rest).upper = c.upper ++ [name]
    ∧ c.pass name rest = ⟨{ c.location with names := name :: c.location.names }, c.pending⟩
  := by
  have henter : c.location.enter name
      = { c.location with names := name :: c.location.names } := by
    rw [Location.enter, if_neg (not_or.mpr ⟨h, hdot⟩), if_neg hdots]
  rw [pass, if_neg hdot, if_neg hdots, henter]
  refine ⟨rfl, ?_, rfl⟩
  unfold upper
  rw [List.reverse_cons, List.append_assoc]

/-- A segment with a slash behind it is read. -/
theorem at_segment {t : PathTexts} (h : c.Valid) (hat : c.At t) (hnil : name ≠ [])
    (hname : ∀ c ∈ name, c ≠ 0x2f) (hrest : t.rest = name ++ 0x2f :: more) :
  (c.pass name (more.splitOn 0x2f)).Reaches more
    ((t.segment false (!c.location.absolute)).slashes false)
  := by
  obtain ⟨base, top, rest, ok⟩ := t
  obtain ⟨hbase, htop⟩ := hat
  dsimp only at hbase htop hrest
  obtain ⟨htake, hdrop⟩ := takeWhile_segment hname
    (Or.inr rfl : (0x2f : UInt16) :: more = [] ∨ ((0x2f : UInt16) :: more).head? = some 0x2f)
  rw [← hrest] at htake hdrop
  by_cases hdot : name = [0x2e]
  · unfold PathTexts.segment
    dsimp only
    rw [htake, hdrop, if_pos hdot, pass, if_pos hdot]
    exact at_leave h ⟨hbase, htop⟩
  · by_cases hdots : name = [0x2e, 0x2e]
    · unfold PathTexts.segment
      dsimp only
      rw [htake, hdrop, if_neg hdot, if_pos hdots]
      by_cases hupper : c.upper = []
      · have htop_nil : top = [] := by
          rw [htop, hupper]
          rfl
        obtain ⟨hnames, hpending⟩ := names_of_upper hupper
        rw [if_pos ⟨htop_nil, rfl⟩, pass, if_neg hdot, if_pos hdots, if_pos hupper, hdots,
          List.take_succ_cons, List.take_zero, List.drop_succ_cons, List.drop_zero]
        have hlower : base ++ [0x2e, 0x2e] ++ [0x2f]
            = slashed (lower ⟨c.location.enter [0x2e, 0x2e], Doubled (more.splitOn 0x2f)⟩) := by
          rw [lower_enter_up hnames, slashed_concat, hbase]
        have hlocation : (c.location.enter [0x2e, 0x2e]).names = [] := by
          rw [enter_up hnames]
          exact hnames
        by_cases hslash : more.head? = some 0x2f
        · obtain ⟨others, rfl⟩ : ∃ others, more = 0x2f :: others := by
            cases more with
            | nil => cases hslash
            | cons c others => exact ⟨others, by rw [Option.some.inj hslash]⟩
          rw [slashes_local]
          refine ⟨⟨hlower, ?_⟩, ?_⟩
          · unfold upper
            rw [hlocation, decide_eq_true ((doubled_splitOn _).mpr hslash)]
            rfl
          · rw [List.dropWhile_cons_of_pos (by decide)]
        · rw [slashes_of_head hslash]
          refine ⟨⟨hlower, ?_⟩, ?_⟩
          · unfold upper
            rw [hlocation, decide_eq_false (fun heq => hslash ((doubled_splitOn _).mp heq))]
            rfl
          · cases more with
            | nil => rfl
            | cons d others =>
              rw [List.dropWhile_cons_of_neg]
              intro heq
              exact hslash (congrArg some (of_decide_eq_true heq))
      · obtain ⟨last, c', hlast, hno_slash, hlower, hvalid, habsolute, hpass⟩ :=
          pass_dots h hupper
        have htop_ne : ¬ (top = [] ∧ false = false) := by
          rintro ⟨heq, -⟩
          rw [htop, slashed_eq_nil] at heq
          exact hupper heq
        rw [if_neg htop_ne, hdots, hpass, htop, hlast, rdropWhile_slashed hno_slash,
          ← habsolute]
        apply at_leave hvalid
        exact ⟨hbase.trans (congrArg slashed hlower.symm), rfl⟩
    · obtain ⟨hlower, hupper, -⟩ := pass_name (c := c) hnil hdot hdots (more.splitOn 0x2f)
      rw [hrest, segment_name hname (Or.inr rfl) hdot hdots, slashes_local]
      refine ⟨⟨?_, ?_⟩, rfl⟩
      · rw [hlower]
        exact hbase
      · rw [hupper, slashed_concat, ← htop]

/-- The last segment is read. -/
theorem at_last {t : PathTexts} (h : c.Valid) (hat : c.At t) (hname : ∀ c ∈ t.rest, c ≠ 0x2f) :
  (t.segment false (!c.location.absolute)).rest = []
    ∧ (t.segment false (!c.location.absolute)).base ++ (t.segment false (!c.location.absolute)).top
      = [0x2f].intercalate ((c.pass t.rest []).written (c.isOpen t.rest))
  := by
  obtain ⟨base, top, rest, ok⟩ := t
  obtain ⟨hbase, htop⟩ := hat
  dsimp only at hbase htop hname
  obtain ⟨htake, hdrop⟩ := takeWhile_segment hname (Or.inl rfl)
  rw [List.append_nil] at htake hdrop
  have hslashed (c' : Course) : slashed c'.lower ++ slashed c'.upper
      = [0x2f].intercalate (c'.written true) := by
    rw [written, if_pos rfl, intercalate_concat, slashed_append, List.append_nil]
  have hstay (c' : Course) : c'.leave [] = c' := by
    rw [leave, if_neg (fun hall => hall.2 rfl)]
  by_cases hdot : rest = [0x2e]
  · have hopen : c.isOpen rest = true := decide_eq_true (Or.inr (Or.inl hdot))
    unfold PathTexts.segment
    dsimp only
    rw [htake, hdrop, if_pos hdot, leave_nil, hopen, pass, if_pos hdot, hstay, hbase, htop]
    exact ⟨rfl, hslashed c⟩
  · by_cases hdots : rest = [0x2e, 0x2e]
    · unfold PathTexts.segment
      dsimp only
      rw [htake, hdrop, if_neg hdot, if_pos hdots]
      by_cases hupper : c.upper = []
      · have htop_nil : top = [] := by
          rw [htop, hupper]
          rfl
        obtain ⟨hnames, hpending⟩ := names_of_upper hupper
        have hopen : c.isOpen rest = false := by
          apply decide_eq_false
          rw [hdots]
          rintro (heq | heq | heq)
          · cases heq
          · cases heq
          · exact heq.2 hupper
        have hnone : upper ⟨c.location.enter rest, Doubled []⟩ = [] := by
          unfold upper
          rw [hdots, enter_up hnames, hnames]
          rfl
        rw [if_pos ⟨htop_nil, rfl⟩, pass, if_neg hdot, if_pos hdots, if_pos hupper, hopen,
          written, hnone, hdots, lower_enter_up hnames, if_neg Bool.false_ne_true,
          List.append_nil (c.lower ++ _), List.append_nil (c.lower ++ _), intercalate_concat,
          hbase]
        refine ⟨rfl, ?_⟩
        rw [List.take_nil, List.append_nil, List.append_nil]
      · obtain ⟨last, c', hlast, hno_slash, hlower, -, -, hpass⟩ := pass_dots h hupper
        have htop_ne : ¬ (top = [] ∧ false = false) := by
          rintro ⟨heq, -⟩
          rw [htop, slashed_eq_nil] at heq
          exact hupper heq
        have hopen : c.isOpen rest = true := decide_eq_true (Or.inr (Or.inr ⟨hdots, hupper⟩))
        rw [if_neg htop_ne, hopen, hdots, hpass, hstay, htop, hlast,
          rdropWhile_slashed hno_slash, leave_nil, hbase, ← hlower]
        exact ⟨rfl, hslashed c'⟩
    · have hsegment : (⟨base, top, rest ++ [], ok⟩ : PathTexts).segment false
          (!c.location.absolute) = ⟨base, top ++ rest, [], ok⟩ :=
        segment_name hname (Or.inl rfl) hdot hdots
      rw [List.append_nil] at hsegment
      rw [hsegment]
      by_cases hnil : rest = []
      · have hopen : c.isOpen rest = true := decide_eq_true (Or.inl hnil)
        have hpass : c.pass rest [] = c := by
          rw [pass, if_neg hdot, if_neg hdots, Location.enter, if_pos (Or.inl hnil)]
        rw [hopen, hpass, hnil, List.append_nil, hbase, htop]
        exact ⟨rfl, hslashed c⟩
      · have hopen : c.isOpen rest = false := by
          apply decide_eq_false
          rintro (heq | heq | heq)
          · exact hnil heq
          · exact hdot heq
          · exact hdots heq.1
        obtain ⟨hlower, hupper, -⟩ := pass_name (c := c) hnil hdot hdots []
        have hwritten : (c.pass rest []).written (c.isOpen rest)
            = c.lower ++ c.upper ++ [rest] := by
          rw [hopen, written, hlower, hupper, if_neg Bool.false_ne_true, List.append_nil,
            List.append_assoc]
        rw [hwritten, intercalate_concat, slashed_append, hbase, htop, List.append_assoc]
        exact ⟨rfl, rfl⟩

/-! ### All segments -/

theorem leave_valid (h : c.Valid) (rest : List QString) :
  (c.leave rest).Valid
  := by
  unfold leave
  split_ifs
  · refine ⟨h.names, fun hpending => ?_⟩
    obtain ⟨-, habsolute⟩ := of_decide_eq_true hpending
    unfold lower
    rw [if_pos habsolute]
    exact List.append_ne_nil_of_left_ne_nil (List.cons_ne_nil _ _) _
  · exact h

theorem leave_absolute (rest : List QString) :
  (c.leave rest).location.absolute = c.location.absolute
  := by
  unfold leave
  split_ifs
  · rfl
  · rfl

/-- Each segment keeps the root, and the segments are names. -/
theorem pass_valid (h : c.Valid) (hname : (0x2f : UInt16) ∉ name) (rest : List QString) :
  (c.pass name rest).Valid ∧ (c.pass name rest).location.absolute = c.location.absolute
  := by
  by_cases hnil : name = []
  · rw [hnil]
    exact ⟨h, rfl⟩
  · by_cases hdot : name = [0x2e]
    · rw [pass, if_pos hdot]
      exact ⟨leave_valid h rest, leave_absolute rest⟩
    · by_cases hdots : name = [0x2e, 0x2e]
      · by_cases hupper : c.upper = []
        · have hnames := (names_of_upper hupper).1
          rw [pass, if_neg hdot, if_pos hdots, if_pos hupper, hdots]
          refine ⟨⟨?_, ?_⟩, ?_⟩
          · rw [enter_up hnames]
            exact h.names
          · intro _
            rw [lower_enter_up hnames]
            exact List.append_ne_nil_of_right_ne_nil _ (List.cons_ne_nil _ _)
          · rw [enter_up hnames]
        · obtain ⟨last, c', -, -, -, hvalid, habsolute, hpass⟩ := pass_dots h hupper
          rw [hdots, hpass, leave_absolute]
          exact ⟨leave_valid hvalid rest, habsolute⟩
      · obtain ⟨-, -, hpass⟩ := pass_name (c := c) hnil hdot hdots rest
        rw [hpass]
        refine ⟨⟨?_, h.pending⟩, rfl⟩
        intro other hother
        rcases List.mem_cons.mp hother with rfl | hother
        · exact ⟨hnil, hdot, hdots, hname⟩
        · exact h.names other hother

/-- Empty segments change nothing. -/
theorem after_slashes (more : QString) :
  c.after (more.splitOn 0x2f) = c.after ((more.dropWhile (· = 0x2f)).splitOn 0x2f)
    ∧ c.EndsOpen (more.splitOn 0x2f) = c.EndsOpen ((more.dropWhile (· = 0x2f)).splitOn 0x2f)
  := by
  induction more with
  | nil => exact ⟨rfl, rfl⟩
  | cons d more ih =>
    by_cases hslash : d = 0x2f
    · have hsplit : (d :: more).splitOn 0x2f = [] :: more.splitOn 0x2f := by
        rw [hslash]
        exact List.splitOn_append_cons_self_of_not_mem List.not_mem_nil more
      have hpass : c.pass [] (more.splitOn 0x2f) = c := rfl
      rw [hsplit, List.dropWhile_cons_of_pos (by simpa using hslash), after, EndsOpen,
        if_neg (List.splitOn_ne_nil _ _), hpass]
      exact ih
    · rw [List.dropWhile_cons_of_neg (by simpa using hslash)]
      exact ⟨rfl, rfl⟩

/-- The walk writes the segments that are left. -/
theorem walk_written {t : PathTexts} (h : c.Valid) (hat : c.At t)
    (hhead : t.rest.head? ≠ some 0x2f) :
  (t.walk false (!c.location.absolute)).base ++ (t.walk false (!c.location.absolute)).top
    = [0x2f].intercalate
      ((c.after (t.rest.splitOn 0x2f)).written (c.EndsOpen (t.rest.splitOn 0x2f)))
  := by
  generalize hlength : t.rest.length = length
  induction length using Nat.strong_induction_on generalizing c t with
  | _ length ih =>
    obtain ⟨name, tail, hrest, hname, htail⟩ := exists_segment t.rest
    have hnot : (0x2f : UInt16) ∉ name := fun hmem => hname _ hmem rfl
    rcases htail with rfl | hslash
    · rw [List.append_nil] at hrest
      rw [← hrest] at hname hnot
      obtain ⟨hend, htext⟩ := at_last h hat hname
      rw [PathTexts.walk_step, slashes_of_head hhead, PathTexts.walk_nil hend, htext,
        List.splitOn_eq_singleton hnot]
      rfl
    · obtain ⟨more, rfl⟩ : ∃ more, tail = 0x2f :: more := by
        cases tail with
        | nil => cases hslash
        | cons d more => exact ⟨more, by rw [Option.some.inj hslash]⟩
      have hnil : name ≠ [] := by
        rintro rfl
        rw [hrest] at hhead
        exact hhead rfl
      obtain ⟨hnext, hleft⟩ := at_segment h hat hnil hname hrest
      obtain ⟨hvalid, habsolute⟩ := pass_valid h hnot (more.splitOn 0x2f)
      have hlt : (more.dropWhile (· = 0x2f)).length < length := by
        have hle := (List.dropWhile_sublist (l := more) fun d => decide (d = 0x2f)).length_le
        rw [← hlength, hrest, List.length_append, List.length_cons]
        omega
      have hfirst : ((t.segment false (!c.location.absolute)).slashes false).rest.head?
          ≠ some 0x2f := PathTexts.head_slashes _
      have hwalk : t.walk false (!c.location.absolute)
          = ((t.segment false (!c.location.absolute)).slashes false).walk false
            (!c.location.absolute) := by
        rw [PathTexts.walk_step t, slashes_of_head hhead]
        apply PathTexts.walk_congr
        rw [slashes_of_head hfirst]
      obtain ⟨hafter, hopen⟩ := after_slashes (c := c.pass name (more.splitOn 0x2f)) more
      have hwritten := ih _ hlt hvalid hnext hfirst (congrArg List.length hleft)
      rw [habsolute, hleft, ← hafter, ← hopen] at hwritten
      rw [hwalk, hwritten, hrest, List.splitOn_append_cons_self_of_not_mem hnot, after,
        EndsOpen, if_neg (List.splitOn_ne_nil _ _)]

end Course

/-- The segments of a local path when it is rewritten. -/
def cleaned (path : QString) : List QString :=
  (Course.after ⟨start path, false⟩ (path.splitOn 0x2f)).written
    (Course.EndsOpen ⟨start path, false⟩ (path.splitOn 0x2f))

/-- A local path becomes its segments when it is rewritten, or "." if these have no text. -/
theorem normalize_local {path : QString} (h : path ≠ []) :
  (qt_normalizePathSegments path DefaultNormalization).2
    = if [0x2f].intercalate (cleaned path) = [] then [0x2e] else [0x2f].intercalate (cleaned path)
  := by
  have hvalid : Course.Valid ⟨start path, false⟩ := by
    constructor
    · intro name hname
      cases hname
    · intro hpending
      cases hpending
  have hrest : (entry false path).rest = path.dropWhile (· = 0x2f) := by
    change (path.drop (rootLength path)).dropWhile (· = 0x2f) = _
    rcases rootLength_cases path with ⟨hzero, -⟩ | ⟨rest, rfl, hone⟩
    · rw [hzero, List.drop_zero]
    · rw [hone, List.dropWhile_cons_of_pos (by decide)]
      rfl
  have hrelative : decide (rootLength path = 0) = !(start path).absolute := by
    change _ = !decide (path.head? = some 0x2f)
    rcases rootLength_cases path with ⟨hzero, hhead⟩ | ⟨rest, rfl, hone⟩
    · rw [hzero, decide_eq_false hhead]
      rfl
    · rw [hone]
      rfl
  have hbase : (entry false path).base = slashed (Course.lower ⟨start path, false⟩) := by
    change path.take (rootLength path) = slashed ((if decide (path.head? = some 0x2f) = true
      then [[]] else []) ++ List.replicate 0 [0x2e, 0x2e])
    rw [List.replicate_zero, List.append_nil]
    rcases rootLength_cases path with ⟨hzero, hhead⟩ | ⟨rest, rfl, hone⟩
    · rw [hzero, if_neg (fun heq => hhead (of_decide_eq_true heq))]
      rfl
    · rw [hone]
      rfl
  have hhead : (entry false path).rest.head? ≠ some 0x2f := by
    rw [hrest]
    have hslashes : ((⟨[], [], path, true⟩ : PathTexts).slashes false).rest.head? ≠ some 0x2f :=
      PathTexts.head_slashes _
    exact hslashes
  obtain ⟨hafter, hopen⟩ := Course.after_slashes (c := ⟨start path, false⟩) path
  have hwalk := Course.walk_written hvalid ⟨hbase, rfl⟩ hhead
  rw [hrest, ← hafter, ← hopen, ← hrelative] at hwalk
  have htext : (walked path DefaultNormalization).base ++ (walked path DefaultNormalization).top
      = [0x2f].intercalate (cleaned path) := hwalk
  rw [qt_normalizePathSegments_eq h, htext]
  dsimp only
  by_cases hnil : [0x2f].intercalate (cleaned path) = []
  · rw [if_pos ⟨rfl, hnil⟩, if_pos hnil]
  · rw [if_neg (fun hall => hnil hall.2), if_neg hnil]

end QDirPrivate
