import BobUI.Corelib.Io.PathCourses
import Mathlib.Data.List.Chain

/-!
# Clean local paths

A local path is rewritten to a normal form that leads to the same place, except where slashes are
doubled behind a dot segment that leaves no name: the second one is copied there, and a ".." may
then remove it instead of going up.
-/

namespace QDirPrivate

/-- The result is a normal form of the path. -/
structure NormalFormOf (path result : QString) : Prop where
  no_slashes : ¬ [0x2f, 0x2f] <:+: result
  no_dot : result = [0x2e] ∨ [0x2e] ∉ result.splitOn 0x2f
  dots_first : ∃ root ups rest,
    result.splitOn 0x2f = root ++ List.replicate ups [0x2e, 0x2e] ++ rest
      ∧ (root = [] ∨ root = [[]]) ∧ [0x2e, 0x2e] ∉ rest
  location : location result = location path
  again : (qt_normalizePathSegments result DefaultNormalization).2 = result

/-- A dot segment that leaves no name. -/
def AtRoot (l : Location) (segment : QString) : Prop :=
  (segment = [0x2e] ∨ segment = [0x2e, 0x2e]) ∧ (l.enter segment).names = []

/-- A ".." that has no name to cancel. -/
def GoesUp (l : Location) (segment : QString) : Prop :=
  segment = [0x2e, 0x2e] ∧ l.names = []

instance (l : Location) (segment : QString) : Decidable (AtRoot l segment) :=
  inferInstanceAs (Decidable (_ ∧ _))

instance (l : Location) (segment : QString) : Decidable (GoesUp l segment) :=
  inferInstanceAs (Decidable (_ ∧ _))

/-- Where slashes are doubled behind a dot segment that leaves no name (in a relative path: one that
goes up), the next dot segment that leaves no name does not go up and has a slash behind it;
`pending` is whether that one is still to come. -/
def Kept (l : Location) (pending : Bool) : List QString → Prop
  | [] => pending = false
  | segment :: rest =>
    if AtRoot l segment then
      (pending = true → ¬ GoesUp l segment ∧ rest ≠ [])
        ∧ Kept (l.enter segment) (Doubled rest ∧ (l.absolute = true ∨ GoesUp l segment)) rest
    else Kept (l.enter segment) pending rest

/-! ### The segments that are written -/

section Segments

variable {l : Location} {pending : Bool} {c : Course} {segment : QString}
  {rest segments : List QString}

theorem GoesUp.atRoot (h : GoesUp l segment) :
  AtRoot l segment
  := by
  obtain ⟨rfl, hnames⟩ := h
  refine ⟨Or.inr rfl, ?_⟩
  rw [Course.enter_up hnames]
  exact hnames

theorem pass_up (h : GoesUp l segment) :
  Course.pass ⟨l, false⟩ segment rest = ⟨l.enter segment, Doubled rest⟩
  := by
  obtain ⟨rfl, hnames⟩ := h
  have hupper : Course.upper ⟨l, false⟩ = [] := by
    unfold Course.upper
    rw [hnames]
    rfl
  rw [Course.pass, if_neg (by decide), if_pos rfl, if_pos hupper]

/-- A ".." removes the second slash. -/
theorem pass_slash (h : GoesUp l segment) :
  Course.pass ⟨l, true⟩ segment rest = ⟨l, Doubled rest ∧ l.absolute = true⟩
  := by
  obtain ⟨rfl, hnames⟩ := h
  have hupper : Course.upper ⟨l, true⟩ ≠ [] :=
    List.append_ne_nil_of_left_ne_nil (List.cons_ne_nil _ _) _
  rw [Course.pass, if_neg (by decide), if_pos rfl, if_neg hupper, if_pos hnames, Course.leave]
  by_cases hrest : rest = []
  · have hnot : ¬ (Doubled rest ∧ l.absolute = true) := by
      rintro ⟨hdoubled, -⟩
      rw [hrest] at hdoubled
      exact hdoubled
    rw [if_neg (fun hall => hall.2 hrest), decide_eq_false hnot]
  · rw [if_pos ⟨hnames, hrest⟩]

/-- A segment is read that does not go up. -/
theorem pass_enter (h : ¬ GoesUp l segment) :
  Course.pass ⟨l, pending⟩ segment rest
    = ⟨l.enter segment,
      if AtRoot l segment ∧ rest ≠ [] then Doubled rest ∧ l.absolute = true else pending⟩
  := by
  unfold Course.pass
  by_cases hdot : segment = [0x2e]
  · have henter : l.enter segment = l := by
      rw [Location.enter, if_pos (Or.inr hdot)]
    have hroot : AtRoot l segment ∧ rest ≠ [] ↔ l.names = [] ∧ rest ≠ [] := by
      rw [AtRoot, henter, and_iff_right (Or.inl hdot)]
    rw [if_pos hdot, Course.leave, henter]
    simp only [hroot]
    by_cases hall : l.names = [] ∧ rest ≠ []
    · rw [if_pos hall, if_pos hall]
    · rw [if_neg hall, if_neg hall]
  · by_cases hdots : segment = [0x2e, 0x2e]
    · have hnames : l.names ≠ [] := fun hnames => h ⟨hdots, hnames⟩
      have hupper : Course.upper ⟨l, pending⟩ ≠ [] := by
        apply List.append_ne_nil_of_right_ne_nil
        rw [ne_eq, List.reverse_eq_nil_iff]
        exact hnames
      have hroot : AtRoot l segment ∧ rest ≠ []
          ↔ (l.enter segment).names = [] ∧ rest ≠ [] := by
        rw [AtRoot, and_iff_right (Or.inr hdots)]
      have habsolute : (l.enter segment).absolute = l.absolute := by
        rw [hdots, Location.enter, if_neg (by decide), if_pos rfl, if_neg hnames]
      rw [if_neg hdot, if_pos hdots, if_neg hupper, if_neg hnames, Course.leave]
      simp only [hroot]
      by_cases hall : (l.enter segment).names = [] ∧ rest ≠ []
      · rw [if_pos hall, if_pos hall, habsolute]
      · rw [if_neg hall, if_neg hall]
    · have hroot : ¬ (AtRoot l segment ∧ rest ≠ []) := by
        rintro ⟨⟨heq | heq, -⟩, -⟩
        · exact hdot heq
        · exact hdots heq
      rw [if_neg hdot, if_neg hdots, if_neg hroot]

/-- No slash is doubled, or it is lost in time. -/
theorem after_kept (h : Kept l pending segments) :
  Course.after ⟨l, pending⟩ segments = ⟨segments.foldl Location.enter l, false⟩
  := by
  induction segments generalizing l pending with
  | nil =>
    rw [Kept] at h
    rw [h]
    rfl
  | cons segment rest ih =>
    rw [Kept] at h
    rw [Course.after, List.foldl_cons]
    by_cases hroot : AtRoot l segment
    · rw [if_pos hroot] at h
      obtain ⟨hlost, hkept⟩ := h
      rw [← ih hkept]
      by_cases hup : GoesUp l segment
      · have hpending : pending = false := by
          rw [← Bool.not_eq_true]
          exact fun hpending => (hlost hpending).1 hup
        have hdoubled : Doubled rest ∧ (l.absolute = true ∨ GoesUp l segment) ↔ Doubled rest :=
          and_iff_left (Or.inr hup)
        rw [hpending, pass_up hup]
        simp only [hdoubled]
      · have hdoubled : Doubled rest ∧ (l.absolute = true ∨ GoesUp l segment)
            ↔ Doubled rest ∧ l.absolute = true := by
          rw [or_iff_left hup]
        rw [pass_enter hup]
        simp only [hdoubled]
        by_cases hrest : rest = []
        · have hpending : pending = false := by
            rw [← Bool.not_eq_true]
            exact fun hpending => (hlost hpending).2 hrest
          have hnot : ¬ (Doubled rest ∧ l.absolute = true) := by
            rintro ⟨htwo, -⟩
            rw [hrest] at htwo
            exact htwo
          rw [if_neg (fun hall => hall.2 hrest), hpending, decide_eq_false hnot]
        · rw [if_pos ⟨hroot, hrest⟩]
    · rw [if_neg hroot] at h
      have hup : ¬ GoesUp l segment := fun hup => hroot hup.atRoot
      rw [pass_enter hup, if_neg (fun hall => hroot hall.1), ← ih h]

/-- A ".." that is lost is not made up for. -/
theorem after_behind (habsolute : c.location.absolute = l.absolute)
    (hnames : c.location.names = l.names) (hups : c.location.ups < l.ups) :
  (c.after segments).location.ups < (segments.foldl Location.enter l).ups
  := by
  induction segments generalizing c l with
  | nil => exact hups
  | cons segment rest ih =>
    rw [Course.after, List.foldl_cons]
    obtain ⟨written, pending⟩ := c
    dsimp only at habsolute hnames hups
    by_cases hup : segment = [0x2e, 0x2e] ∧ written.names = []
    · have hgoes : GoesUp written segment := hup
      have henter : l.enter segment = { l with ups := l.ups + 1 } := by
        rw [hup.1, Course.enter_up (hnames.symm.trans hup.2)]
      rw [henter]
      cases pending with
      | true =>
        rw [pass_slash hgoes]
        apply ih habsolute hnames
        dsimp only
        omega
      | false =>
        rw [pass_up hgoes, hup.1, Course.enter_up hup.2]
        apply ih habsolute hnames
        dsimp only
        omega
    · rw [pass_enter (fun hgoes => hup hgoes)]
      have hsame : (written.enter segment).absolute = (l.enter segment).absolute
          ∧ (written.enter segment).names = (l.enter segment).names
          ∧ (written.enter segment).ups < (l.enter segment).ups := by
        unfold Location.enter
        rw [← hnames]
        split_ifs with hdot hdots hnil
        · exact ⟨habsolute, hnames, hups⟩
        · exact absurd ⟨hdots, hnil⟩ hup
        · exact ⟨habsolute, rfl, hups⟩
        · exact ⟨habsolute, rfl, hups⟩
      exact ih hsame.1 hsame.2.1 hsame.2.2

/-- A slash that is doubled stays so, or a ".." is lost with it. -/
theorem after_lost (h : ¬ Kept l pending segments) :
  (Course.after ⟨l, pending⟩ segments).pending = true
    ∨ (Course.after ⟨l, pending⟩ segments).location.ups < (segments.foldl Location.enter l).ups
  := by
  induction segments generalizing l pending with
  | nil =>
    rw [Kept, Bool.not_eq_false] at h
    exact Or.inl h
  | cons segment rest ih =>
    rw [Kept] at h
    rw [Course.after, List.foldl_cons]
    by_cases hroot : AtRoot l segment
    · rw [if_pos hroot, not_and_or] at h
      by_cases hup : GoesUp l segment
      · have henter : l.enter segment = { l with ups := l.ups + 1 } := by
          rw [hup.1, Course.enter_up hup.2]
        cases pending with
        | true =>
          right
          rw [pass_slash hup, henter]
          exact after_behind rfl rfl (Nat.lt_succ_self _)
        | false =>
          have hdoubled : Doubled rest ∧ (l.absolute = true ∨ GoesUp l segment)
              ↔ Doubled rest := and_iff_left (Or.inr hup)
          simp only [hdoubled] at h
          rw [pass_up hup]
          exact ih (h.resolve_left fun hlost => hlost (by rintro ⟨⟩))
      · have hdoubled : Doubled rest ∧ (l.absolute = true ∨ GoesUp l segment)
            ↔ Doubled rest ∧ l.absolute = true := by
          rw [or_iff_left hup]
        rw [pass_enter hup]
        by_cases hrest : rest = []
        · rw [hrest, if_neg (fun hall => hall.2 rfl)]
          rcases h with hlost | hkept
          · left
            by_contra hpending
            exact hlost fun heq => absurd heq hpending
          · exfalso
            apply hkept
            rw [hrest, Kept]
            exact decide_eq_false fun hall => hall.1
        · simp only [hdoubled] at h
          rw [if_pos ⟨hroot, hrest⟩]
          exact ih (h.resolve_left fun hlost => hlost fun _ => ⟨hup, hrest⟩)
    · rw [if_neg hroot] at h
      have hup : ¬ GoesUp l segment := fun hup => hroot hup.atRoot
      rw [pass_enter hup, if_neg (fun hall => hroot hall.1)]
      exact ih h

/-! ### The last segment -/

/-- Behind a doubled slash there is a name or another slash. -/
theorem endsOpen_pending (h : c.EndsOpen segments = false)
    (hnames : (c.after segments).location.names = []) :
  (c.after segments).pending = false
  := by
  induction segments generalizing c with
  | nil => cases h
  | cons segment rest ih =>
    rw [Course.EndsOpen] at h
    rw [Course.after] at hnames ⊢
    by_cases hrest : rest = []
    · rw [if_pos hrest] at h
      rw [hrest, Course.after] at hnames ⊢
      have hopen := of_decide_eq_false h
      obtain ⟨written, pending⟩ := c
      by_cases hdots : segment = [0x2e, 0x2e]
      · have hupper : Course.upper ⟨written, pending⟩ = [] := by
          by_contra hne
          exact hopen (Or.inr (Or.inr ⟨hdots, hne⟩))
        rw [Course.pass, if_neg (fun hdot => hopen (Or.inr (Or.inl hdot))), if_pos hdots,
          if_pos hupper]
        exact decide_eq_false fun hdoubled => hdoubled
      · obtain ⟨-, -, hpass⟩ := Course.pass_name (c := ⟨written, pending⟩)
          (fun hnil => hopen (Or.inl hnil)) (fun hdot => hopen (Or.inr (Or.inl hdot)))
          hdots []
        rw [hpass] at hnames
        cases hnames
    · rw [if_neg hrest] at h
      exact ih h hnames

/-- Without a slash behind it, the last segment that is written is a name or goes up. -/
theorem endsOpen_closed (h : c.EndsOpen segments = false) :
  (c.after segments).location.names ≠ [] ∨ 0 < (c.after segments).location.ups
  := by
  induction segments generalizing c with
  | nil => cases h
  | cons segment rest ih =>
    rw [Course.EndsOpen] at h
    rw [Course.after]
    by_cases hrest : rest = []
    · rw [if_pos hrest] at h
      rw [hrest, Course.after]
      have hopen := of_decide_eq_false h
      by_cases hdots : segment = [0x2e, 0x2e]
      · have hupper : c.upper = [] := by
          by_contra hne
          exact hopen (Or.inr (Or.inr ⟨hdots, hne⟩))
        right
        rw [Course.pass, if_neg (fun hdot => hopen (Or.inr (Or.inl hdot))), if_pos hdots,
          if_pos hupper, hdots, Course.enter_up (Course.names_of_upper hupper).1]
        exact Nat.succ_pos _
      · obtain ⟨-, -, hpass⟩ := Course.pass_name (c := c)
          (fun hnil => hopen (Or.inl hnil)) (fun hdot => hopen (Or.inr (Or.inl hdot)))
          hdots []
        left
        rw [hpass]
        exact List.cons_ne_nil _ _
    · rw [if_neg hrest] at h
      exact ih h

theorem after_valid (h : c.Valid) (hsegments : ∀ name ∈ segments, (0x2f : UInt16) ∉ name) :
  (c.after segments).Valid ∧ (c.after segments).location.absolute = c.location.absolute
  := by
  induction segments generalizing c with
  | nil => exact ⟨h, rfl⟩
  | cons segment rest ih =>
    obtain ⟨hvalid, habsolute⟩ :=
      Course.pass_valid h (hsegments segment List.mem_cons_self) rest
    obtain ⟨hafter, hsame⟩ :=
      ih hvalid fun name hname => hsegments name (List.mem_cons_of_mem segment hname)
    exact ⟨hafter, hsame.trans habsolute⟩

/-! ### The text that is written -/

/-- The segments of the text that is written have no slash. -/
theorem not_mem_written (h : c.Valid) (ends_open : Bool) :
  ∀ name ∈ c.written ends_open, (0x2f : UInt16) ∉ name
  := by
  intro name hname
  unfold Course.written Course.lower Course.upper at hname
  simp only [List.mem_append] at hname
  have hempty (b : Bool) (hmem : name ∈ if b then ([[]] : List QString) else []) :
      (0x2f : UInt16) ∉ name := by
    cases b with
    | true =>
      rw [if_pos rfl, List.mem_singleton] at hmem
      rw [hmem]
      exact List.not_mem_nil
    | false => cases hmem
  rcases hname with ((hroot | hdots) | (hpending | hname)) | hlast
  · exact hempty _ hroot
  · rw [List.eq_of_mem_replicate hdots]
    decide
  · exact hempty _ hpending
  · exact (h.names name (List.mem_reverse.mp hname)).2.2.2
  · exact hempty _ hlast

theorem foldl_dots (l : Location) (h : l.names = []) (n : ℕ) :
  (List.replicate n [0x2e, 0x2e]).foldl Location.enter l = { l with ups := l.ups + n }
  := by
  induction n generalizing l with
  | zero => rfl
  | succ n ih =>
    rw [List.replicate_succ, List.foldl_cons, Course.enter_up h, ih]
    · dsimp only
      congr 1
      omega
    · exact h

theorem foldl_names (l : Location) (names : List QString)
    (h : ∀ name ∈ names, name ≠ [] ∧ name ≠ [0x2e] ∧ name ≠ [0x2e, 0x2e]) :
  names.foldl Location.enter l = { l with names := names.reverse ++ l.names }
  := by
  induction names generalizing l with
  | nil => rfl
  | cons name names ih =>
    obtain ⟨hnil, hdot, hdots⟩ := h name List.mem_cons_self
    have henter : l.enter name = { l with names := name :: l.names } := by
      rw [Location.enter, if_neg (not_or.mpr ⟨hnil, hdot⟩), if_neg hdots]
    rw [List.foldl_cons, henter, ih, List.reverse_cons, List.append_assoc]
    · rfl
    · intro other hother
      exact h other (List.mem_cons_of_mem name hother)

/-- The segments that are written lead to the place. -/
theorem foldl_written (h : c.Valid) (hpending : c.pending = false) (ends_open : Bool) :
  (c.written ends_open).foldl Location.enter ⟨c.location.absolute, 0, []⟩ = c.location
  := by
  have hempty (b : Bool) (l : Location) :
      (if b then ([[]] : List QString) else []).foldl Location.enter l = l := by
    cases b with
    | true => rfl
    | false => rfl
  unfold Course.written Course.lower Course.upper
  rw [hpending, if_neg Bool.false_ne_true, List.nil_append]
  simp only [List.foldl_append]
  rw [hempty, hempty, foldl_dots _ rfl, foldl_names]
  · rw [List.reverse_reverse, List.append_nil, Nat.zero_add]
  · intro name hname
    obtain ⟨hnil, hdot, hdots, -⟩ := h.names name (List.mem_reverse.mp hname)
    exact ⟨hnil, hdot, hdots⟩

/-- The segments behind the root are not empty. -/
theorem ne_nil_of_mem (h : c.Valid) (hpending : c.pending = false) :
  ∀ name ∈ List.replicate c.location.ups [0x2e, 0x2e] ++ c.upper, name ≠ []
  := by
  intro name hname
  unfold Course.upper at hname
  rw [hpending, if_neg Bool.false_ne_true, List.nil_append, List.mem_append,
    List.mem_reverse] at hname
  rcases hname with hdots | hname
  · rw [List.eq_of_mem_replicate hdots]
    exact List.cons_ne_nil _ _
  · exact (h.names name hname).1

theorem head_intercalate {name : QString} (h : name ≠ []) (names : List QString) :
  ([0x2f].intercalate (name :: names)).head? = name.head?
  := by
  by_cases hnames : names = []
  · rw [hnames, List.intercalate_singleton]
  · rw [List.intercalate_cons_of_ne_nil hnames, List.append_assoc,
      List.head?_append_of_ne_nil _ h]

variable {ends_open : Bool}

/-- The text that is written begins with a slash if the path does. -/
theorem start_written (h : c.Valid) (hpending : c.pending = false)
    (htext : [0x2f].intercalate (c.written ends_open) ≠ []) :
  start ([0x2f].intercalate (c.written ends_open)) = ⟨c.location.absolute, 0, []⟩
  := by
  have hhead : (([0x2f].intercalate (c.written ends_open)).head? = some 0x2f)
      ↔ c.location.absolute = true := by
    have hnames := ne_nil_of_mem h hpending
    have hslashes := not_mem_written h ends_open
    have hwritten : c.written ends_open = (if c.location.absolute then [[]] else [])
        ++ (List.replicate c.location.ups [0x2e, 0x2e] ++ c.upper
          ++ if ends_open then [[]] else []) := by
      unfold Course.written Course.lower
      simp only [List.append_assoc]
    rw [hwritten] at htext hslashes ⊢
    generalize List.replicate c.location.ups [0x2e, 0x2e] ++ c.upper = names at *
    by_cases habsolute : c.location.absolute = true
    · rw [if_pos habsolute, List.singleton_append] at htext ⊢
      have hne : names ++ (if ends_open then [[]] else []) ≠ [] := by
        intro hnil
        rw [hnil] at htext
        exact htext rfl
      rw [List.intercalate_cons_of_ne_nil hne]
      exact iff_of_true rfl habsolute
    · rw [if_neg habsolute, List.nil_append] at htext hslashes ⊢
      refine iff_of_false ?_ habsolute
      cases names with
      | nil =>
        exfalso
        apply htext
        cases ends_open with
        | true => rfl
        | false => rfl
      | cons name names =>
        rw [List.cons_append, head_intercalate (hnames name List.mem_cons_self)]
        intro hslash
        exact hslashes name List.mem_cons_self (List.mem_of_mem_head? hslash)
  have habsolute : decide (([0x2f].intercalate (c.written ends_open)).head? = some 0x2f)
      = c.location.absolute := by
    rw [Bool.eq_iff_iff, decide_eq_true_iff]
    exact hhead
  rw [start, habsolute]

/-- The text that is written leads to the place. -/
theorem location_written (h : c.Valid) (hpending : c.pending = false)
    (htext : [0x2f].intercalate (c.written ends_open) ≠ []) :
  ([0x2f].intercalate (c.written ends_open)).splitOn 0x2f = c.written ends_open
    ∧ location ([0x2f].intercalate (c.written ends_open)) = c.location
  := by
  have hne : c.written ends_open ≠ [] := by
    intro hnil
    rw [hnil] at htext
    exact htext rfl
  have hsplit := List.splitOn_intercalate (0x2f : UInt16) (not_mem_written h ends_open) hne
  refine ⟨hsplit, ?_⟩
  rw [location, start_written h hpending htext, hsplit, foldl_written h hpending]

theorem intercalate_eq_nil (h : [0x2f].intercalate segments = ([] : QString)) :
  segments = [] ∨ segments = [[]]
  := by
  rcases List.eq_nil_or_concat segments with rfl | ⟨before, last, rfl⟩
  · exact Or.inl rfl
  · rw [List.concat_eq_append, intercalate_concat, List.append_eq_nil_iff, slashed_eq_nil] at h
    right
    rw [List.concat_eq_append, h.1, h.2, List.nil_append]

/-- No text is written only for the place where a relative path starts. -/
theorem location_of_nil (h : c.Valid)
    (hclosed : ends_open = false → c.location.names ≠ [] ∨ 0 < c.location.ups)
    (htext : [0x2f].intercalate (c.written ends_open) = []) :
  c = ⟨⟨false, 0, []⟩, false⟩
  := by
  have hsegments := intercalate_eq_nil htext
  have hnone : c.lower ++ c.upper = [] := by
    cases ends_open with
    | true =>
      unfold Course.written at hsegments
      rw [if_pos rfl] at hsegments
      rcases hsegments with hnil | hsingle
      · exact absurd hnil (List.append_ne_nil_of_right_ne_nil _ (List.cons_ne_nil _ _))
      · exact (List.append_inj' (hsingle.trans (List.nil_append _).symm) rfl).1
    | false =>
      unfold Course.written at hsegments
      rw [if_neg Bool.false_ne_true, List.append_nil] at hsegments
      rcases hsegments with hnil | hsingle
      · exact hnil
      · exfalso
        rcases hclosed rfl with hnames | hups
        · obtain ⟨name, names, heq⟩ := List.exists_cons_of_ne_nil hnames
          have hname : name ∈ c.location.names := by
            rw [heq]
            exact List.mem_cons_self
          have hmem : name ∈ c.lower ++ c.upper :=
            List.mem_append_right _ (List.mem_append_right _ (List.mem_reverse.mpr hname))
          rw [hsingle, List.mem_singleton] at hmem
          exact (h.names name hname).1 hmem
        · have hmem : [0x2e, 0x2e] ∈ c.lower ++ c.upper :=
            List.mem_append_left _ (List.mem_append_right _
              (List.mem_replicate.mpr ⟨hups.ne', rfl⟩))
          rw [hsingle, List.mem_singleton] at hmem
          cases hmem
  obtain ⟨hlower, hupper⟩ := List.append_eq_nil_iff.mp hnone
  obtain ⟨hroot, hdots⟩ := List.append_eq_nil_iff.mp hlower
  obtain ⟨hnames, hpending⟩ := Course.names_of_upper hupper
  obtain ⟨⟨absolute, ups, names⟩, pending⟩ := c
  dsimp only at hroot hdots hnames hpending
  rw [List.replicate_eq_nil_iff] at hdots
  cases absolute with
  | true => cases hroot
  | false => rw [hnames, hdots, hpending]

/-! ### Written again -/

/-- Without empty segments before the last one, no slash is doubled. -/
theorem kept_of_not_mem (h : [] ∉ segments.dropLast) :
  Kept l false segments
  := by
  induction segments generalizing l with
  | nil => rfl
  | cons segment rest ih =>
    have hrest : [] ∉ rest.dropLast := by
      cases rest with
      | nil => exact List.not_mem_nil
      | cons next rest =>
        rw [List.dropLast_cons_cons] at h
        exact fun hmem => h (List.mem_cons_of_mem segment hmem)
    rw [Kept]
    split_ifs
    · have hsingle : ¬ (Doubled rest ∧ (l.absolute = true ∨ GoesUp l segment)) := by
        rintro ⟨hdoubled, -⟩
        match rest, hdoubled with
        | [] :: _ :: _, _ => exact hrest List.mem_cons_self
      rw [decide_eq_false hsingle]
      constructor
      · intro heq
        cases heq
      · exact ih hrest
    · exact ih hrest

theorem endsOpen_concat {last : QString} (h : ∀ c : Course, c.isOpen last = ends_open) :
  c.EndsOpen (segments ++ [last]) = ends_open
  := by
  induction segments generalizing c with
  | nil =>
    rw [List.nil_append, Course.EndsOpen, if_pos rfl]
    exact h c
  | cons segment rest ih =>
    rw [List.cons_append, Course.EndsOpen,
      if_neg (List.append_ne_nil_of_right_ne_nil _ (List.cons_ne_nil _ _))]
    exact ih

theorem endsOpen_dots (h : l.names = []) (n : ℕ) :
  Course.EndsOpen ⟨l, false⟩ (List.replicate (n + 1) [0x2e, 0x2e]) = false
  := by
  induction n generalizing l with
  | zero =>
    apply decide_eq_false
    rintro (heq | heq | ⟨-, hupper⟩)
    · cases heq
    · cases heq
    · apply hupper
      unfold Course.upper
      rw [h]
      rfl
  | succ n ih =>
    have hup : GoesUp l [0x2e, 0x2e] := ⟨rfl, h⟩
    have hsingle : ¬ Doubled (List.replicate (n + 1) [0x2e, 0x2e]) := by
      rw [List.replicate_succ]
      exact fun hdoubled => hdoubled
    rw [List.replicate_succ, Course.EndsOpen, if_neg (by rw [List.replicate_succ]; simp),
      pass_up hup, decide_eq_false hsingle, Course.enter_up h]
    exact ih h

/-- The segments behind the root are read again. -/
theorem cons_root {root : Bool} :
  (Kept l false segments → Kept l false ((if root then [[]] else []) ++ segments))
    ∧ (segments ≠ [] → Course.EndsOpen ⟨l, false⟩ ((if root then [[]] else []) ++ segments)
      = Course.EndsOpen ⟨l, false⟩ segments)
  := by
  cases root with
  | true =>
    constructor
    · intro h
      have hroot : ¬ AtRoot l [] := by
        rintro ⟨heq | heq, -⟩
        · cases heq
        · cases heq
      rw [if_pos rfl, List.singleton_append, Kept, if_neg hroot]
      exact h
    · intro h
      rw [if_pos rfl, List.singleton_append, Course.EndsOpen, if_neg h]
      rfl
  | false => exact ⟨fun h => h, fun _ => rfl⟩

/-- The last segment that is written ends as before when it is read again. -/
theorem endsOpen_written (h : c.Valid) (hpending : c.pending = false)
    (hclosed : ends_open = false → c.location.names ≠ [] ∨ 0 < c.location.ups) :
  Course.EndsOpen ⟨⟨c.location.absolute, 0, []⟩, false⟩ (c.written ends_open) = ends_open
  := by
  cases ends_open with
  | true =>
    unfold Course.written
    rw [if_pos rfl]
    apply endsOpen_concat
    intro c'
    exact decide_eq_true (Or.inl rfl)
  | false =>
    unfold Course.written Course.upper
    rw [hpending, if_neg Bool.false_ne_true, List.append_nil, List.nil_append]
    by_cases hnames : c.location.names = []
    · obtain ⟨n, hups⟩ : ∃ n, c.location.ups = n + 1 := by
        have hpos := (hclosed rfl).resolve_left fun hne => hne hnames
        exact ⟨c.location.ups - 1, by omega⟩
      unfold Course.lower
      rw [hnames, hups, List.reverse_nil, List.append_nil, cons_root.2]
      · exact endsOpen_dots rfl n
      · rw [List.replicate_succ]
        exact List.cons_ne_nil _ _
    · obtain ⟨name, names, heq⟩ := List.exists_cons_of_ne_nil hnames
      obtain ⟨hnil, hdot, hdots, -⟩ :=
        h.names name (by rw [heq]; exact List.mem_cons_self)
      rw [heq, List.reverse_cons, ← List.append_assoc]
      apply endsOpen_concat
      intro c'
      apply decide_eq_false
      rintro (hname | hname | hname)
      · exact hnil hname
      · exact hdot hname
      · exact hdots hname.1

/-- The text that is written is not changed any more. -/
theorem cleaned_written (h : c.Valid) (hpending : c.pending = false)
    (hclosed : ends_open = false → c.location.names ≠ [] ∨ 0 < c.location.ups)
    (htext : [0x2f].intercalate (c.written ends_open) ≠ []) :
  cleaned ([0x2f].intercalate (c.written ends_open)) = c.written ends_open
  := by
  have hsplit := (location_written h hpending htext).1
  have hnames := ne_nil_of_mem h hpending
  have hkept : Kept ⟨c.location.absolute, 0, []⟩ false (c.written ends_open) := by
    unfold Course.written Course.lower
    rw [List.append_assoc, List.append_assoc]
    apply cons_root.1
    apply kept_of_not_mem
    rw [← List.append_assoc]
    intro hmem
    cases ends_open with
    | true =>
      rw [if_pos rfl, List.dropLast_concat] at hmem
      exact hnames [] hmem rfl
    | false =>
      rw [if_neg Bool.false_ne_true, List.append_nil] at hmem
      exact hnames [] (List.dropLast_subset _ hmem) rfl
  have hafter := after_kept hkept
  rw [foldl_written h hpending] at hafter
  unfold cleaned
  rw [start_written h hpending htext, hsplit, hafter, endsOpen_written h hpending hclosed]
  obtain ⟨place, pending⟩ := c
  dsimp only at hpending
  rw [hpending]

/-- No slash is doubled in the text that is written. -/
theorem no_slashes_written (h : c.Valid) (hpending : c.pending = false)
    (htext : [0x2f].intercalate (c.written ends_open) ≠ []) :
  ¬ [0x2f, 0x2f] <:+: [0x2f].intercalate (c.written ends_open)
  := by
  rintro ⟨before, behind, heq⟩
  have hsplit := (location_written h hpending htext).1
  have hnames := ne_nil_of_mem h hpending
  have hdoubled : before ++ [0x2f, 0x2f] ++ behind = before ++ 0x2f :: ([] ++ 0x2f :: behind) := by
    rw [List.append_assoc]
    rfl
  rw [← heq, hdoubled, List.splitOn_append_cons_self, List.splitOn_append_cons_self,
    List.splitOn_nil] at hsplit
  obtain ⟨first, above, habove⟩ :=
    List.exists_cons_of_ne_nil (List.splitOn_ne_nil (0x2f : UInt16) before)
  have hbelow := List.splitOn_ne_nil (0x2f : UInt16) behind
  -- The empty segment is neither the first one nor the last one.
  have hwritten : c.written ends_open = (if c.location.absolute then [[]] else [])
      ++ (List.replicate c.location.ups [0x2e, 0x2e] ++ c.upper
        ++ if ends_open then [[]] else []) := by
    unfold Course.written Course.lower
    simp only [List.append_assoc]
  rw [hwritten, habove] at hsplit
  generalize List.replicate c.location.ups [0x2e, 0x2e] ++ c.upper = names at *
  generalize behind.splitOn 0x2f = below at *
  have hinner : ∃ above, above ++ [[]] ++ below
      = names ++ if ends_open then [[]] else [] := by
    cases habsolute : c.location.absolute with
    | true =>
      rw [habsolute, if_pos rfl, List.singleton_append, List.cons_append] at hsplit
      exact ⟨above, by rw [List.append_assoc]; exact (List.cons.inj hsplit).2⟩
    | false =>
      rw [habsolute, if_neg Bool.false_ne_true, List.nil_append] at hsplit
      exact ⟨first :: above, by rw [List.append_assoc]; exact hsplit⟩
  obtain ⟨above, hinner⟩ := hinner
  cases ends_open with
  | true =>
    have hlast := congrArg List.dropLast hinner
    rw [if_pos rfl, List.dropLast_concat, List.dropLast_append_of_ne_nil hbelow] at hlast
    exact hnames [] (by rw [← hlast]; simp) rfl
  | false =>
    rw [if_neg Bool.false_ne_true, List.append_nil] at hinner
    exact hnames [] (by rw [← hinner]; simp) rfl

/-- A slash that stays doubled is written so. -/
theorem slashes_of_pending (h : c.Valid) (hpending : c.pending = true)
    (hlost : ends_open = false → c.location.names = [] → c.pending = false) :
  [0x2f, 0x2f] <:+: [0x2f].intercalate (c.written ends_open)
  := by
  have hbehind : c.location.names.reverse ++ (if ends_open then [[]] else []) ≠ [] := by
    cases ends_open with
    | true => exact List.append_ne_nil_of_right_ne_nil _ (List.cons_ne_nil _ _)
    | false =>
      apply List.append_ne_nil_of_left_ne_nil
      rw [ne_eq, List.reverse_eq_nil_iff]
      intro hnames
      have hfalse := hlost rfl hnames
      rw [hpending] at hfalse
      cases hfalse
  obtain ⟨above, first, hlower⟩ :=
    (List.eq_nil_or_concat c.lower).resolve_left (h.pending hpending)
  obtain ⟨names, last, hlast⟩ := (List.eq_nil_or_concat _).resolve_left hbehind
  have hwritten : c.written ends_open = above ++ [first] ++ [[]] ++ names ++ [last] := by
    unfold Course.written Course.upper
    rw [List.concat_eq_append] at hlower hlast
    rw [hpending, if_pos rfl, List.append_assoc, List.append_assoc, hlast, hlower]
    simp only [List.append_assoc]
  rw [hwritten, intercalate_concat, slashed_append, slashed_concat, slashed_concat]
  use slashed above ++ first, slashed names ++ last
  simp only [List.append_assoc, List.nil_append, List.cons_append]

theorem normalFormOf_written {path : QString} (h : c.Valid) (hpending : c.pending = false)
    (hclosed : ends_open = false → c.location.names ≠ [] ∨ 0 < c.location.ups)
    (htext : [0x2f].intercalate (c.written ends_open) ≠ [])
    (hpath : c.location = QDirPrivate.location path) :
  NormalFormOf path ([0x2f].intercalate (c.written ends_open))
  := by
  obtain ⟨hsplit, hlocation⟩ := location_written h hpending htext
  have hrest : c.written ends_open = (if c.location.absolute then [[]] else [])
      ++ List.replicate c.location.ups [0x2e, 0x2e]
      ++ (c.location.names.reverse ++ if ends_open then [[]] else []) := by
    unfold Course.written Course.lower Course.upper
    rw [hpending, if_neg Bool.false_ne_true, List.nil_append]
    simp only [List.append_assoc]
  have hempty (b : Bool) {segment : QString} (hne : segment ≠ []) :
      segment ∉ if b then ([[]] : List QString) else [] := by
    cases b with
    | true => exact fun hmem => hne (List.mem_singleton.mp hmem)
    | false => exact List.not_mem_nil
  constructor
  · exact no_slashes_written h hpending htext
  · right
    rw [hsplit, hrest]
    simp only [List.mem_append, List.mem_reverse, not_or]
    refine ⟨⟨hempty _ (List.cons_ne_nil _ _), ?_⟩, ?_, hempty _ (List.cons_ne_nil _ _)⟩
    · intro hmem
      have hdots := List.eq_of_mem_replicate hmem
      cases hdots
    · intro hmem
      exact (h.names _ hmem).2.1 rfl
  · refine ⟨_, _, _, hsplit.trans hrest, ?_, ?_⟩
    · cases c.location.absolute with
      | true => exact Or.inr rfl
      | false => exact Or.inl rfl
    · simp only [List.mem_append, List.mem_reverse, not_or]
      refine ⟨?_, hempty _ (List.cons_ne_nil _ _)⟩
      intro hmem
      exact (h.names _ hmem).2.2.1 rfl
  · exact hlocation.trans hpath
  · rw [normalize_local htext, cleaned_written h hpending hclosed htext, if_neg htext]

end Segments

theorem not_mem_of_mem_splitOn (path : QString) :
  ∀ name ∈ path.splitOn 0x2f, (0x2f : UInt16) ∉ name
  := by
  induction path with
  | nil =>
    intro name hname
    rw [List.splitOn_nil, List.mem_singleton] at hname
    rw [hname]
    exact List.not_mem_nil
  | cons d path ih =>
    intro name hname
    obtain ⟨first, names, hsplit⟩ :=
      List.exists_cons_of_ne_nil (List.splitOn_ne_nil (0x2f : UInt16) path)
    rw [hsplit] at ih
    rw [List.splitOn_cons_eq_if_modifyHead, hsplit] at hname
    split_ifs at hname with hslash
    · rcases List.mem_cons.mp hname with rfl | hname
      · exact List.not_mem_nil
      · exact ih name hname
    · rw [List.modifyHead_cons] at hname
      rcases List.mem_cons.mp hname with rfl | hname
      · rw [List.mem_cons, not_or]
        constructor
        · rintro rfl
          exact hslash rfl
        · exact ih first List.mem_cons_self
      · exact ih name (List.mem_cons_of_mem first hname)

theorem normalFormOf_nil :
  NormalFormOf [] (qt_normalizePathSegments [] DefaultNormalization).2
  := by
  have hsame : (qt_normalizePathSegments [] DefaultNormalization).2 = [] := rfl
  rw [hsame]
  constructor
  · decide
  · decide
  · exact ⟨[], 0, [[]], rfl, Or.inl rfl, by decide⟩
  · rfl
  · rfl

theorem normalFormOf_dot {path : QString} (h : location path = ⟨false, 0, []⟩) :
  NormalFormOf path [0x2e]
  := by
  constructor
  · decide
  · exact Or.inl rfl
  · exact ⟨[], 0, [[0x2e]], rfl, Or.inl rfl, by decide⟩
  · rw [h]
    rfl
  · rfl

/-- A local path becomes a normal form of itself if and only if no second slash that is copied
behind a dot segment stays or makes a ".." disappear. -/
theorem normalize_local_iff (path : QString) :
  NormalFormOf path (qt_normalizePathSegments path DefaultNormalization).2
    ↔ Kept (start path) false (path.splitOn 0x2f)
  := by
  by_cases h_path : path = []
  · rw [h_path]
    refine iff_of_true normalFormOf_nil (kept_of_not_mem ?_)
    exact List.not_mem_nil
  · rw [normalize_local h_path]
    have h_start : Course.Valid ⟨start path, false⟩ := by
      constructor
      · intro name h_name
        cases h_name
      · intro h_pending
        cases h_pending
    have h_valid := (after_valid h_start (not_mem_of_mem_splitOn path)).1
    have h_closed (h_open : Course.EndsOpen ⟨start path, false⟩ (path.splitOn 0x2f) = false) :=
      endsOpen_closed h_open
    have h_lost (h_open : Course.EndsOpen ⟨start path, false⟩ (path.splitOn 0x2f) = false) :=
      endsOpen_pending h_open
    have h_location : location path = (path.splitOn 0x2f).foldl Location.enter (start path) := rfl
    unfold cleaned
    by_cases h_kept : Kept (start path) false (path.splitOn 0x2f)
    · refine iff_of_true ?_ h_kept
      rw [after_kept h_kept, ← h_location] at h_valid h_closed ⊢
      by_cases h_text : [0x2f].intercalate (Course.written ⟨location path, false⟩
          (Course.EndsOpen ⟨start path, false⟩ (path.splitOn 0x2f))) = []
      · rw [if_pos h_text]
        have h_none := location_of_nil h_valid h_closed h_text
        exact normalFormOf_dot (congrArg Course.location h_none)
      · rw [if_neg h_text]
        exact normalFormOf_written h_valid rfl h_closed h_text rfl
    · refine iff_of_false ?_ h_kept
      intro h_form
      have h_after := after_lost h_kept
      rw [← h_location] at h_after
      generalize Course.after ⟨start path, false⟩ (path.splitOn 0x2f) = c at *
      generalize Course.EndsOpen ⟨start path, false⟩ (path.splitOn 0x2f) = ends_open at *
      cases h_pending : c.pending with
      | true =>
        have h_infix := slashes_of_pending h_valid h_pending h_lost
        have h_text : [0x2f].intercalate (c.written ends_open) ≠ [] := by
          intro h_nil
          rw [h_nil, List.infix_nil] at h_infix
          cases h_infix
        rw [if_neg h_text] at h_form
        exact h_form.no_slashes h_infix
      | false =>
        have h_ups := h_after.resolve_left fun h_eq => nomatch h_pending.symm.trans h_eq
        have h_same : c.location = location path := by
          rw [← h_form.location]
          split_ifs with h_text
          · rw [location_of_nil h_valid h_closed h_text]
            rfl
          · rw [(location_written h_valid h_pending h_text).2]
        rw [h_same] at h_ups
        exact lt_irrefl _ h_ups

/-- The path "..//..": a ".." removes the second slash and is lost. -/
theorem normalize_local_doubled :
  (qt_normalizePathSegments [0x2e, 0x2e, 0x2f, 0x2f, 0x2e, 0x2e] DefaultNormalization).2
      = [0x2e, 0x2e, 0x2f]
    ∧ ¬ NormalFormOf [0x2e, 0x2e, 0x2f, 0x2f, 0x2e, 0x2e] [0x2e, 0x2e, 0x2f]
  := by
  refine ⟨by decide, ?_⟩
  intro h
  have h_not : location [0x2e, 0x2e, 0x2f] ≠ location [0x2e, 0x2e, 0x2f, 0x2f, 0x2e, 0x2e] := by
    decide
  exact h_not h.location

end QDirPrivate
