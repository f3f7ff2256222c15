import BobUI.Gui.Util.UndoStack

/-!
# The clean state of the undo stack

A command has an effect on the document.  Whatever the commands do in a run, a stack that is clean
has the document that it had when it was made clean, if no command inside a macro becomes obsolete.
-/

/-! ### Effects -/

/-- The effect of a command on a document; an obsolete command has none. -/
structure Effect (C D : Type) [UserCommand C] where
  apply : C → D → D
  obsolete : ∀ cmd, UserCommand.isObsolete cmd = true → ∀ d, apply cmd d = d

/-- The virtual functions do what their documentation says: redoing a command has its effect, and
undoing it reverts the document; either may make the command obsolete.  Redoing a command that
has merged has the effect of both. -/
structure Virtuals.Lawful {C D : Type} [UserCommand C] (virtuals : Virtuals C D)
    (effect : Effect C D) : Prop where
  redo_document : ∀ cmd d, (virtuals.redo cmd d).2 = effect.apply (virtuals.redo cmd d).1 d
  redo_effect : ∀ cmd d, UserCommand.isObsolete (virtuals.redo cmd d).1 = true
    ∨ effect.apply (virtuals.redo cmd d).1 = effect.apply cmd
  undo_document : ∀ cmd d, (virtuals.undo cmd (effect.apply cmd d)).2 = d
  undo_effect : ∀ cmd d, UserCommand.isObsolete (virtuals.undo cmd d).1 = true
    ∨ effect.apply (virtuals.undo cmd d).1 = effect.apply cmd
  merge_effect : ∀ cur cmd merged, virtuals.mergeWith cur cmd = some merged →
    ∀ d, effect.apply merged d = effect.apply cmd (effect.apply cur d)

namespace QUndoCommand

variable {C D : Type} [UserCommand C] (effect : Effect C D)

mutual

/-- A macro has the effects of its commands. -/
def apply : QUndoCommand C → D → D
  | derived cmd, d => effect.apply cmd d
  | base _ child_list, d => applyAll child_list d

def applyAll : List (QUndoCommand C) → D → D
  | [], d => d
  | cmd :: rest, d => applyAll rest (apply cmd d)

end

mutual

/-- The commands of the application in a command. -/
def leaves : QUndoCommand C → List C
  | derived cmd => [cmd]
  | base _ child_list => leavesAll child_list

def leavesAll : List (QUndoCommand C) → List C
  | [] => []
  | cmd :: rest => leaves cmd ++ leavesAll rest

end

/-- The commands of the application inside a macro. -/
def inside : QUndoCommand C → List C
  | derived _ => []
  | base _ child_list => leavesAll child_list

theorem applyAll_append (xs ys : List (QUndoCommand C)) (d : D) :
  applyAll effect (xs ++ ys) d = applyAll effect ys (applyAll effect xs d)
  := by
  induction xs generalizing d with
  | nil => rfl
  | cons x xs ih => exact ih (apply effect x d)

variable {effect}

theorem apply_obsolete {cmd : QUndoCommand C} (h : cmd.isObsolete = true) (d : D) :
  apply effect cmd d = d
  := by
  cases cmd with
  | derived cmd => exact effect.obsolete cmd h d
  | base text child_list => cases h

/-- A command does not become obsolete by being undone or redone. -/
def Steady (virtuals : Virtuals C D) (cmd : C) : Prop :=
  UserCommand.isObsolete cmd = false → ∀ d : D,
    UserCommand.isObsolete (virtuals.redo cmd d).1 = false
      ∧ UserCommand.isObsolete (virtuals.undo cmd d).1 = false

theorem Steady.effects {virtuals : Virtuals C D} (hlawful : virtuals.Lawful effect) {cmd : C}
    (h : Steady virtuals cmd) (d : D) :
  effect.apply (virtuals.redo cmd d).1 = effect.apply cmd
    ∧ effect.apply (virtuals.undo cmd d).1 = effect.apply cmd
  := by
  have hsame : ∀ cmd', (UserCommand.isObsolete cmd' = true ∨ effect.apply cmd' = effect.apply cmd) →
      (UserCommand.isObsolete cmd = false → UserCommand.isObsolete cmd' = false) →
      effect.apply cmd' = effect.apply cmd := by
    intro cmd' hor hnot
    rcases hor with hobsolete | heq
    · cases hcmd : UserCommand.isObsolete cmd with
      | true =>
        funext d
        rw [effect.obsolete cmd' hobsolete, effect.obsolete cmd hcmd]
      | false =>
        rw [hnot hcmd] at hobsolete
        cases hobsolete
    · exact heq
  exact ⟨hsame _ (hlawful.redo_effect cmd d) fun hcmd => (h hcmd d).1,
    hsame _ (hlawful.undo_effect cmd d) fun hcmd => (h hcmd d).2⟩

mutual

/-- Redoing a command that is steady has its effect, which it keeps. -/
theorem redo_steady {virtuals : Virtuals C D} (hlawful : virtuals.Lawful effect) :
    ∀ (cmd : QUndoCommand C), (∀ c ∈ cmd.leaves, Steady virtuals c) → ∀ d,
      (redo virtuals cmd d).2 = apply effect cmd d
        ∧ apply effect (redo virtuals cmd d).1 = apply effect cmd
  | derived cmd, h, d => by
      have hsame := (Steady.effects hlawful (h cmd (by rw [leaves]; exact List.mem_singleton_self cmd)) d).1
      have hdocument := hlawful.redo_document cmd d
      rw [hsame] at hdocument
      refine ⟨?_, ?_⟩
      · rw [redo, apply]
        exact hdocument
      · funext d'
        rw [redo, apply, apply, hsame]
  | base text child_list, h, d => by
      obtain ⟨hdocument, hsame⟩ := redoAll_steady hlawful child_list h d
      refine ⟨?_, ?_⟩
      · rw [redo, apply]
        exact hdocument
      · funext d'
        rw [redo, apply, apply, hsame]

theorem redoAll_steady {virtuals : Virtuals C D} (hlawful : virtuals.Lawful effect) :
    ∀ (cmds : List (QUndoCommand C)), (∀ c ∈ leavesAll cmds, Steady virtuals c) → ∀ d,
      (redoAll virtuals cmds d).2 = applyAll effect cmds d
        ∧ applyAll effect (redoAll virtuals cmds d).1 = applyAll effect cmds
  | [], _, d => ⟨by rw [redoAll, applyAll], by rw [redoAll]⟩
  | cmd :: rest, h, d => by
      rw [leavesAll] at h
      obtain ⟨hdocument, hsame⟩ := redo_steady hlawful cmd
        (fun c hc => h c (List.mem_append_left _ hc)) d
      obtain ⟨hrest, hall⟩ := redoAll_steady hlawful rest
        (fun c hc => h c (List.mem_append_right _ hc)) (redo virtuals cmd d).2
      refine ⟨?_, ?_⟩
      · rw [redoAll, applyAll, ← hdocument]
        exact hrest
      · funext d'
        rw [redoAll, applyAll, applyAll, hall, hsame]

end

mutual

/-- Undoing a command that is steady reverts its effect, which it keeps. -/
theorem undo_steady {virtuals : Virtuals C D} (hlawful : virtuals.Lawful effect) :
    ∀ (cmd : QUndoCommand C), (∀ c ∈ cmd.leaves, Steady virtuals c) → ∀ d,
      (undo virtuals cmd (apply effect cmd d)).2 = d
        ∧ ∀ d', apply effect (undo virtuals cmd d').1 = apply effect cmd
  | derived cmd, h, d => by
      refine ⟨?_, fun d' => ?_⟩
      · rw [undo, apply]
        exact hlawful.undo_document cmd d
      · funext d''
        rw [undo, apply, apply, (Steady.effects hlawful (h cmd (by rw [leaves]; exact List.mem_singleton_self cmd)) d').2]
  | base text child_list, h, d => by
      obtain ⟨hdocument, hsame⟩ := undoAll_steady hlawful child_list h d
      refine ⟨?_, fun d' => ?_⟩
      · rw [undo, apply]
        exact hdocument
      · funext d''
        rw [undo, apply, apply, hsame]

theorem undoAll_steady {virtuals : Virtuals C D} (hlawful : virtuals.Lawful effect) :
    ∀ (cmds : List (QUndoCommand C)), (∀ c ∈ leavesAll cmds, Steady virtuals c) → ∀ d,
      (undoAll virtuals cmds (applyAll effect cmds d)).2 = d
        ∧ ∀ d', applyAll effect (undoAll virtuals cmds d').1 = applyAll effect cmds
  | [], _, d => ⟨by rw [undoAll, applyAll], fun d' => by rw [undoAll]⟩
  | cmd :: rest, h, d => by
      rw [leavesAll] at h
      obtain ⟨hdocument, hsame⟩ := undo_steady hlawful cmd
        (fun c hc => h c (List.mem_append_left _ hc)) d
      obtain ⟨hrest, hall⟩ := undoAll_steady hlawful rest
        (fun c hc => h c (List.mem_append_right _ hc)) (apply effect cmd d)
      refine ⟨?_, fun d' => ?_⟩
      · rw [undoAll, applyAll]
        dsimp only
        rw [hrest, hdocument]
      · funext d''
        rw [undoAll, applyAll, applyAll, hall, hsame]

end

/-- A command on the stack is redone, unless it is obsolete already. -/
theorem redo_spec {virtuals : Virtuals C D} (hlawful : virtuals.Lawful effect)
    {cmd : QUndoCommand C} (h : ∀ c ∈ cmd.inside, Steady virtuals c) (d : D)
    {redone : QUndoCommand C × D}
    (hredone : redone = if cmd.isObsolete then (cmd, d) else cmd.redo virtuals d) :
  redone.2 = apply effect redone.1 d
    ∧ (redone.1.isObsolete = true ∨ apply effect redone.1 = apply effect cmd)
  := by
  subst hredone
  split
  next hobsolete => exact ⟨(apply_obsolete hobsolete d).symm, .inl hobsolete⟩
  next =>
    cases cmd with
    | derived cmd =>
      refine ⟨?_, ?_⟩
      · rw [redo, apply]
        exact hlawful.redo_document cmd d
      · rcases hlawful.redo_effect cmd d with hobsolete | hsame
        · exact .inl hobsolete
        · refine .inr ?_
          funext d'
          rw [redo, apply, apply, hsame]
    | base text child_list =>
      obtain ⟨hdocument, hsame⟩ := redo_steady hlawful (base text child_list) h d
      exact ⟨hdocument.trans (congrFun hsame d).symm, .inr hsame⟩

/-- A command on the stack is undone. -/
theorem undo_spec {virtuals : Virtuals C D} (hlawful : virtuals.Lawful effect)
    {cmd : QUndoCommand C} (h : ∀ c ∈ cmd.inside, Steady virtuals c) (d : D) :
  (undo virtuals cmd (apply effect cmd d)).2 = d
    ∧ ∀ d', (undo virtuals cmd d').1.isObsolete = true
      ∨ apply effect (undo virtuals cmd d').1 = apply effect cmd
  := by
  cases cmd with
  | derived cmd =>
    refine ⟨?_, fun d' => ?_⟩
    · rw [undo, apply]
      exact hlawful.undo_document cmd d
    · rcases hlawful.undo_effect cmd d' with hobsolete | hsame
      · exact .inl hobsolete
      · refine .inr ?_
        funext d''
        rw [undo, apply, apply, hsame]
  | base text child_list =>
    obtain ⟨hdocument, hsame⟩ := undo_steady hlawful (base text child_list) h d
    exact ⟨hdocument, fun d' => .inr (hsame d')⟩

theorem applyAll_set {list : List (QUndoCommand C)} {i : ℕ} {cmd cmd' : QUndoCommand C}
    (h : list[i]? = some cmd) (hsame : apply effect cmd' = apply effect cmd) (n : ℕ) :
  applyAll effect ((list.set i cmd').take n) = applyAll effect (list.take n)
  := by
  induction list generalizing i n with
  | nil => rfl
  | cons c list ih =>
    cases n with
    | zero => rfl
    | succ n =>
      funext d
      cases i with
      | zero =>
        obtain rfl : c = cmd := Option.some.inj h
        rw [List.set_cons_zero, List.take_succ_cons, List.take_succ_cons, applyAll, applyAll,
          hsame]
      | succ i =>
        rw [List.set_cons_succ, List.take_succ_cons, List.take_succ_cons, applyAll, applyAll,
          ih h]

theorem applyAll_take_succ {list : List (QUndoCommand C)} {i : ℕ} {cmd : QUndoCommand C}
    (h : list[i]? = some cmd) (d : D) :
  applyAll effect (list.take (i + 1)) d = apply effect cmd (applyAll effect (list.take i) d)
  := by
  rw [List.take_add_one, h, Option.toList_some, applyAll_append, applyAll, applyAll]

end QUndoCommand

namespace QUndoStack

open QUndoCommand (applyAll Steady)

variable {C D : Type} [UserCommand C] {effect : Effect C D} {virtuals : Virtuals C D}
  {q : QUndoStack C D} {saved bottom : D}

/-! ### The document at an index -/

/-- The commands below `i` are applied to the document, above what was deleted from the bottom of
the stack; and those below the clean index, if there is one, were applied to the document that is
saved. -/
structure At (effect : Effect C D) (q : QUndoStack C D) (saved bottom : D) (i : ℤ) : Prop where
  closed : q.macro_stack = 0
  nonneg : 0 ≤ i
  le : i ≤ q.count
  document : q.document = applyAll effect (q.command_list.take i.toNat) bottom
  clean : q.clean_index = -1 ∨ 0 ≤ q.clean_index ∧ q.clean_index ≤ q.count
    ∧ saved = applyAll effect (q.command_list.take q.clean_index.toNat) bottom

theorem setIndexPrivate_frame (q : QUndoStack C D) (idx : ℤ) (clean : Bool) :
  ∃ undoState redoState emitted, q.setIndexPrivate idx clean = { q with
    index := idx
    clean_index := if clean then idx else q.clean_index
    undoActionState := undoState
    redoActionState := redoState
    emitted := emitted }
  := by
  have hundo : ∀ (q : QUndoStack C D) b, ∃ state emitted,
      q.announceUndo b = { q with undoActionState := state, emitted := emitted } := by
    intro q b
    unfold announceUndo
    dsimp only
    split
    · exact ⟨_, _, rfl⟩
    · exact ⟨_, _, rfl⟩
  have hredo : ∀ (q : QUndoStack C D) b, ∃ state emitted,
      q.announceRedo b = { q with redoActionState := state, emitted := emitted } := by
    intro q b
    unfold announceRedo
    dsimp only
    split
    · exact ⟨_, _, rfl⟩
    · exact ⟨_, _, rfl⟩
  unfold setIndexPrivate
  dsimp only
  have hmoved : ∃ emitted, (if decide (idx ≠ q.index) = true then
      { q with index := idx }.emit (.indexChanged idx) else q)
      = { q with index := idx, emitted := emitted } := by
    by_cases h : idx = q.index
    · rw [if_neg (by rw [decide_eq_true_eq]; exact not_not.mpr h), h]
      exact ⟨_, rfl⟩
    · rw [if_pos (decide_eq_true h)]
      exact ⟨_, rfl⟩
  obtain ⟨e₁, h₁⟩ := hmoved
  rw [h₁]
  obtain ⟨undoState, e₂, h₂⟩ := hundo { q with index := idx, emitted := e₁ }
    (decide (idx ≠ q.index))
  rw [h₂]
  obtain ⟨redoState, e₃, h₃⟩ := hredo { q with
    index := idx, undoActionState := undoState, emitted := e₂ } (decide (idx ≠ q.index))
  dsimp only at h₃ ⊢
  rw [h₃]
  cases clean with
  | true =>
    rw [if_pos rfl]
    dsimp only
    split
    · exact ⟨_, _, _, rfl⟩
    · exact ⟨_, _, _, rfl⟩
  | false =>
    rw [if_neg Bool.false_ne_true]
    dsimp only
    split
    · exact ⟨_, _, _, rfl⟩
    · exact ⟨_, _, _, rfl⟩

omit [UserCommand C] in
theorem takeObsolete_frame (q : QUndoStack C D) (idx : ℤ) :
  ∃ emitted, q.takeObsolete idx = { q with
    command_list := q.command_list.eraseIdx idx.toNat
    clean_index := if idx < q.clean_index then -1 else q.clean_index
    emitted := emitted }
  := by
  unfold takeObsolete resetClean
  dsimp only
  split
  · split
    · exact ⟨_, rfl⟩
    · exact ⟨_, rfl⟩
  · exact ⟨_, rfl⟩

omit [UserCommand C] in
theorem command_eq_some_iff {idx : ℤ} {cmd : QUndoCommand C} :
  q.command idx = some cmd ↔ 0 ≤ idx ∧ q.command_list[idx.toNat]? = some cmd
  := by
  unfold command
  split
  next h => exact ⟨fun hcmd => ⟨h, hcmd⟩, fun hcmd => hcmd.2⟩
  next h => exact iff_of_false (fun hcmd => nomatch hcmd) (fun hcmd => h hcmd.1)

/-- A command is replaced by one with the same effect. -/
theorem At.keep {i i' idx : ℤ} (h : At effect q saved bottom i) {cmd : QUndoCommand C}
    {done : QUndoCommand C × D} (hcmd : q.command idx = some cmd)
    (hsame : QUndoCommand.apply effect done.1 = QUndoCommand.apply effect cmd)
    (hnonneg : 0 ≤ i') (hle : i' ≤ q.count)
    (hdocument : done.2 = applyAll effect (q.command_list.take i'.toNat) bottom) :
  At effect (q.setCommand idx done) saved bottom i'
  := by
  obtain ⟨-, hat⟩ := command_eq_some_iff.mp hcmd
  have hcount : (q.setCommand idx done).count = q.count := by
    unfold count setCommand
    dsimp only
    rw [List.length_set]
  have htake : ∀ n, applyAll effect ((q.setCommand idx done).command_list.take n)
      = applyAll effect (q.command_list.take n) := QUndoCommand.applyAll_set hat hsame
  refine ⟨h.closed, hnonneg, hcount ▸ hle, ?_, ?_⟩
  · rw [htake]
    exact hdocument
  · rw [hcount, htake]
    exact h.clean

/-- A command that is obsolete is deleted, at or above the new index. -/
theorem At.erase {i i' idx : ℤ} (h : At effect q saved bottom i) {cmd : QUndoCommand C}
    {done : QUndoCommand C × D} (hcmd : q.command idx = some cmd)
    (hnonneg : 0 ≤ i') (hle : i' ≤ idx)
    (hdocument : done.2 = applyAll effect (q.command_list.take i'.toNat) bottom) :
  At effect ((q.setCommand idx done).takeObsolete idx) saved bottom i'
  := by
  obtain ⟨hidx, hat⟩ := command_eq_some_iff.mp hcmd
  have hlt := (List.getElem?_eq_some_iff.mp hat).1
  obtain ⟨emitted, hframe⟩ := takeObsolete_frame (q.setCommand idx done) idx
  rw [hframe]
  have hcount : (((q.command_list.set idx.toNat done.1).eraseIdx idx.toNat).length : ℤ)
      = q.count - 1 := by
    unfold count
    rw [List.length_eraseIdx_of_lt (by rw [List.length_set]; exact hlt), List.length_set]
    omega
  have htake : ∀ n ≤ idx.toNat,
      ((q.command_list.set idx.toNat done.1).eraseIdx idx.toNat).take n
        = q.command_list.take n := by
    intro n hn
    rw [List.take_eraseIdx_eq_take_of_le _ _ _ hn, List.take_set_of_le hn]
  refine ⟨h.closed, hnonneg, ?_, ?_, ?_⟩
  · refine Int.le_trans hle (Int.le_of_lt_add_one ?_)
    change idx < (((q.command_list.set idx.toNat done.1).eraseIdx idx.toNat).length : ℤ) + 1
    unfold count at hcount
    omega
  · dsimp only [setCommand]
    rw [htake _ (by omega)]
    exact hdocument
  · by_cases hclean : idx < (q.setCommand idx done).clean_index
    · rw [if_pos hclean]
      exact .inl rfl
    · rw [if_neg hclean]
      dsimp only [setCommand] at hclean ⊢
      rcases h.clean with hnone | ⟨hzero, hend, hsaved⟩
      · exact .inl hnone
      · refine .inr ⟨hzero, ?_, ?_⟩
        · change q.clean_index
            ≤ (((q.command_list.set idx.toNat done.1).eraseIdx idx.toNat).length : ℤ)
          unfold count at hcount
          omega
        · rw [htake _ (by omega)]
          exact hsaved

theorem At.redo {i : ℤ} (h : At effect q saved bottom i) (hlawful : virtuals.Lawful effect)
    {cmd : QUndoCommand C} (hcmd : q.command i = some cmd)
    (hsteady : ∀ c ∈ cmd.inside, Steady virtuals c) {redone : QUndoCommand C × D}
    (hredone : redone
      = if cmd.isObsolete then (cmd, q.document) else cmd.redo virtuals q.document) :
  if redone.1.isObsolete then
    At effect ((q.setCommand i redone).takeObsolete i) saved bottom i
  else At effect (q.setCommand i redone) saved bottom (i + 1)
  := by
  obtain ⟨hdocument, heffect⟩ := QUndoCommand.redo_spec hlawful hsteady q.document hredone
  obtain ⟨hidx, hat⟩ := command_eq_some_iff.mp hcmd
  have hlt := (List.getElem?_eq_some_iff.mp hat).1
  split
  next hobsolete =>
    refine h.erase hcmd h.nonneg (Int.le_refl i) ?_
    rw [hdocument, QUndoCommand.apply_obsolete hobsolete]
    exact h.document
  next hobsolete =>
    have hsame := heffect.resolve_left hobsolete
    refine h.keep hcmd hsame (by omega) (by unfold count; omega) ?_
    rw [show (i + 1).toNat = i.toNat + 1 by omega, QUndoCommand.applyAll_take_succ hat,
      ← h.document, hdocument, hsame]

theorem At.undo {i : ℤ} (h : At effect q saved bottom i) (hlawful : virtuals.Lawful effect)
    {cmd : QUndoCommand C} (hcmd : q.command (i - 1) = some cmd)
    (hsteady : ∀ c ∈ cmd.inside, Steady virtuals c) {undone : QUndoCommand C × D}
    (hundone : undone = cmd.undo virtuals q.document
      ∨ undone = if cmd.isObsolete then (cmd, q.document) else cmd.undo virtuals q.document) :
  At effect (if undone.1.isObsolete then (q.setCommand (i - 1) undone).takeObsolete (i - 1)
    else q.setCommand (i - 1) undone) saved bottom (i - 1)
  := by
  obtain ⟨hidx, hat⟩ := command_eq_some_iff.mp hcmd
  have hlt := (List.getElem?_eq_some_iff.mp hat).1
  have hbefore : q.document = QUndoCommand.apply effect cmd
      (applyAll effect (q.command_list.take (i - 1).toNat) bottom) := by
    rw [h.document, ← QUndoCommand.applyAll_take_succ hat]
    congr 3
    omega
  obtain ⟨hdocument, heffect⟩ := QUndoCommand.undo_spec hlawful hsteady
    (applyAll effect (q.command_list.take (i - 1).toNat) bottom)
  have hspec : undone.2 = applyAll effect (q.command_list.take (i - 1).toNat) bottom
      ∧ (undone.1.isObsolete = true
        ∨ QUndoCommand.apply effect undone.1 = QUndoCommand.apply effect cmd) := by
    have hcalled : (cmd.undo virtuals q.document).2
        = applyAll effect (q.command_list.take (i - 1).toNat) bottom := by
      rw [hbefore]
      exact hdocument
    rcases hundone with rfl | rfl
    · exact ⟨hcalled, heffect _⟩
    · split
      next hobsolete =>
        refine ⟨?_, .inl hobsolete⟩
        rw [hbefore]
        exact QUndoCommand.apply_obsolete hobsolete _
      next => exact ⟨hcalled, heffect _⟩
  split
  next hobsolete => exact h.erase hcmd hidx (Int.le_refl _) hspec.1
  next hobsolete =>
    exact h.keep hcmd (hspec.2.resolve_left hobsolete) hidx (by unfold count; omega) hspec.1

theorem At.setIndexPrivate {idx : ℤ} (h : At effect q saved bottom idx) :
  At effect (q.setIndexPrivate idx false) saved bottom (q.setIndexPrivate idx false).index
  := by
  obtain ⟨undoState, redoState, emitted, hframe⟩ := setIndexPrivate_frame q idx false
  rw [hframe]
  exact ⟨h.closed, h.nonneg, h.le, h.document, h.clean⟩

/-- Redoing the commands from an index on. -/
theorem At.redoLoop (hlawful : virtuals.Lawful effect) {n : ℕ} {i : ℤ}
    (h : At effect q saved bottom i)
    (hsteady : ∀ cmd ∈ q.command_list.drop i.toNat, ∀ c ∈ cmd.inside, Steady virtuals c) :
  At effect (QUndoStack.redoLoop virtuals n i q).2 saved bottom
    (QUndoStack.redoLoop virtuals n i q).1
  := by
  induction n generalizing q i with
  | zero => exact h
  | succ n ih =>
    rw [QUndoStack.redoLoop]
    cases hcmd : q.command i with
    | none => exact h
    | some cmd =>
      dsimp only
      generalize hredone : (if cmd.isObsolete = true then (cmd, q.document)
        else cmd.redo virtuals q.document) = redone
      obtain ⟨hidx, hat⟩ := command_eq_some_iff.mp hcmd
      obtain ⟨hlt, hget⟩ := List.getElem?_eq_some_iff.mp hat
      have hdrop : q.command_list.drop i.toNat
          = cmd :: q.command_list.drop (i.toNat + 1) := by
        rw [List.drop_eq_getElem_cons hlt, hget]
      rw [hdrop] at hsteady
      have hstep := h.redo hlawful hcmd (hsteady cmd List.mem_cons_self) hredone.symm
      have hrest := fun cmd' hcmd' => hsteady cmd' (List.mem_cons_of_mem _ hcmd')
      split at hstep
      next hobsolete =>
        rw [if_pos hobsolete]
        apply ih hstep
        obtain ⟨emitted, hframe⟩ := takeObsolete_frame (q.setCommand i redone) i
        rw [hframe]
        dsimp only [setCommand]
        rw [List.eraseIdx_set_eq, List.eraseIdx_eq_take_drop_succ,
          List.drop_left' (by rw [List.length_take]; omega)]
        exact hrest
      next hobsolete =>
        rw [if_neg hobsolete]
        apply ih hstep
        dsimp only [setCommand]
        rw [show (i + 1).toNat = i.toNat + 1 by omega, List.drop_set_of_lt (by omega)]
        exact hrest

/-- Undoing the commands below an index. -/
theorem At.undoLoop (hlawful : virtuals.Lawful effect) {n : ℕ} {i : ℤ}
    (h : At effect q saved bottom i) (hn : n ≤ i)
    (hsteady : ∀ cmd ∈ q.command_list.take i.toNat, ∀ c ∈ cmd.inside, Steady virtuals c) :
  At effect (QUndoStack.undoLoop virtuals n i q) saved bottom (i - n)
  := by
  induction n generalizing q i with
  | zero =>
    rw [QUndoStack.undoLoop]
    exact (Int.sub_zero i).symm ▸ h
  | succ n ih =>
    rw [QUndoStack.undoLoop]
    have hle := h.le
    unfold count at hle
    obtain ⟨cmd, hat⟩ : ∃ cmd, q.command_list[(i - 1).toNat]? = some cmd :=
      ⟨_, List.getElem?_eq_getElem (by omega)⟩
    have hcmd : q.command (i - 1) = some cmd := command_eq_some_iff.mpr ⟨by omega, hat⟩
    rw [hcmd]
    dsimp only
    have htake : q.command_list.take i.toNat = q.command_list.take (i - 1).toNat ++ [cmd] := by
      rw [show i.toNat = (i - 1).toNat + 1 by omega, List.take_add_one, hat,
        Option.toList_some]
    rw [htake] at hsteady
    have hstep := h.undo hlawful hcmd
      (hsteady cmd (List.mem_append_right _ (List.mem_singleton_self cmd))) (.inl rfl)
    generalize cmd.undo virtuals q.document = undone at hstep ⊢
    rw [show i - ((n + 1 : ℕ) : ℤ) = i - 1 - n by omega]
    apply ih hstep (by omega)
    intro cmd' hcmd'
    refine hsteady cmd' (List.mem_append_left _ ?_)
    split at hcmd'
    next =>
      obtain ⟨emitted, hframe⟩ := takeObsolete_frame (q.setCommand (i - 1) undone) (i - 1)
      rw [hframe] at hcmd'
      dsimp only [setCommand] at hcmd'
      rw [List.take_eraseIdx_eq_take_of_le _ _ _ (le_refl _), List.take_set_of_le (le_refl _)]
        at hcmd'
      exact hcmd'
    next =>
      dsimp only [setCommand] at hcmd'
      rw [List.take_set_of_le (le_refl _)] at hcmd'
      exact hcmd'

/-! ### Open macros -/

/-- Each open macro is the last command of the one around it. -/
def Spine : ℕ → List (QUndoCommand C) → Prop
  | 0, _ => True
  | n + 1, list => ∃ text children, list.getLast? = some (.base text children) ∧ Spine n children

/-- The stack while macros are open: they are behind the index, and what is in them is applied. -/
structure Open (effect : Effect C D) (q : QUndoStack C D) (saved bottom : D) : Prop where
  open_macro : q.macro_stack ≠ 0
  nonneg : 0 ≤ q.index
  last : q.index + 1 = q.count
  spine : Spine q.macro_stack q.command_list
  document : q.document = applyAll effect q.command_list bottom
  clean : q.clean_index = -1 ∨ 0 ≤ q.clean_index ∧ q.clean_index ≤ q.index
    ∧ saved = applyAll effect (q.command_list.take q.clean_index.toNat) bottom

/-- A stack in a run: the commands below the index are applied, and those of open macros. -/
def Sound (effect : Effect C D) (q : QUndoStack C D) (saved : D) : Prop :=
  ∃ bottom, At effect q saved bottom q.index ∨ Open effect q saved bottom

omit [UserCommand C] in
theorem spine_of_succ {n : ℕ} {list : List (QUndoCommand C)} (h : Spine (n + 1) list) :
  Spine n list
  := by
  induction n generalizing list with
  | zero => trivial
  | succ n ih =>
    obtain ⟨text, children, hlast, hchildren⟩ := h
    exact ⟨text, children, hlast, ih hchildren⟩

/-- A change in the innermost open macro whose effect comes last. -/
theorem spine_modify {f : List (QUndoCommand C) → List (QUndoCommand C)} {n : ℕ}
    {list : List (QUndoCommand C)} (h : Spine n list) {g : D → D}
    (hf : ∀ d, applyAll effect (f (lastChildList n list)) d
      = g (applyAll effect (lastChildList n list) d)) :
  Spine n (modifyLastChildList f n list)
    ∧ ∀ d, applyAll effect (modifyLastChildList f n list) d = g (applyAll effect list d)
  := by
  induction n generalizing list with
  | zero => exact ⟨trivial, hf⟩
  | succ n ih =>
    obtain ⟨text, children, hlast, hchildren⟩ := h
    rw [lastChildList, hlast] at hf
    obtain ⟨hspine, happly⟩ := ih hchildren hf
    rw [modifyLastChildList, hlast]
    refine ⟨⟨text, _, ?_, hspine⟩, fun d => ?_⟩
    · rw [List.getLast?_append, List.getLast?_singleton, Option.some_or]
    · obtain ⟨front, rfl⟩ := List.getLast?_eq_some_iff.mp hlast
      rw [List.dropLast_concat, QUndoCommand.applyAll_append, QUndoCommand.applyAll_append,
        applyAll, applyAll, applyAll, applyAll, QUndoCommand.apply, QUndoCommand.apply, happly]

omit [UserCommand C] in
theorem take_modifyLastChildList (f : List (QUndoCommand C) → List (QUndoCommand C)) {n k : ℕ}
    {list : List (QUndoCommand C)} (h : n ≠ 0) (hk : k < list.length) :
  (modifyLastChildList f n list).take k = list.take k
    ∧ (modifyLastChildList f n list).length = list.length
  := by
  cases n with
  | zero => exact absurd rfl h
  | succ n =>
    rw [modifyLastChildList]
    split
    next hlast =>
      constructor
      · rw [List.take_append_of_le_length (by rw [List.length_dropLast]; omega),
          List.dropLast_eq_take, List.take_take]
        congr 1
        omega
      · rw [List.length_append, List.length_dropLast, List.length_singleton]
        omega
    next => exact ⟨rfl, rfl⟩

omit [UserCommand C] in
theorem spine_append {n : ℕ} {list : List (QUndoCommand C)} (h : Spine n list) (text : String) :
  Spine (n + 1) (modifyLastChildList (fun children => children ++ [.base text []]) n list)
  := by
  induction n generalizing list with
  | zero =>
    refine ⟨text, [], ?_, trivial⟩
    rw [modifyLastChildList, List.getLast?_append, List.getLast?_singleton, Option.some_or]
  | succ n ih =>
    obtain ⟨text', children, hlast, hchildren⟩ := h
    rw [modifyLastChildList, hlast]
    refine ⟨text', _, ?_, ih hchildren⟩
    rw [List.getLast?_append, List.getLast?_singleton, Option.some_or]

/-- The commands of the innermost open macro change, and so does the document. -/
theorem Open.with_children (h : Open effect q saved bottom)
    {f : List (QUndoCommand C) → List (QUndoCommand C)} {d : D} {g : D → D}
    (hdocument : d = g q.document)
    (hf : ∀ d, applyAll effect (f (lastChildList q.macro_stack q.command_list)) d
      = g (applyAll effect (lastChildList q.macro_stack q.command_list) d)) :
  Open effect { q with
    document := d
    command_list := modifyLastChildList f q.macro_stack q.command_list } saved bottom
  := by
  obtain ⟨hspine, happly⟩ := spine_modify h.spine hf
  have hlast := h.last
  have hnonneg := h.nonneg
  unfold count at hlast
  have hlength := (take_modifyLastChildList f h.open_macro
    (show 0 < q.command_list.length by omega)).2
  refine ⟨h.open_macro, h.nonneg, ?_, hspine, ?_, ?_⟩
  · unfold count
    dsimp only
    rw [hlength]
    exact hlast
  · dsimp only
    rw [hdocument, happly, h.document]
  · rcases h.clean with hnone | ⟨hzero, hle, hsaved⟩
    · exact .inl hnone
    · refine .inr ⟨hzero, hle, ?_⟩
      dsimp only
      rw [(take_modifyLastChildList f h.open_macro (by omega)).1]
      exact hsaved

/-! ### The operations -/

theorem At.sound (h : At effect q saved bottom q.index) :
  Sound effect q saved
  := ⟨bottom, .inl h⟩

theorem sound_setIndexPrivate {idx : ℤ} (bottom : D) (h : At effect q saved bottom idx) :
  Sound effect (q.setIndexPrivate idx false) saved
  := h.setIndexPrivate.sound

/-- A command is put on the stack, which may delete others from the bottom. -/
theorem sound_append (bottom : D) (hclosed : q.macro_stack = 0) (hnonneg : 0 ≤ q.index)
    (hcount : q.index + 1 = q.count)
    (hdocument : q.document = applyAll effect q.command_list bottom)
    (hclean : q.clean_index = -1 ∨ 0 ≤ q.clean_index ∧ q.clean_index ≤ q.index
      ∧ saved = applyAll effect (q.command_list.take q.clean_index.toNat) bottom) :
  Sound effect (q.checkUndoLimit.setIndexPrivate (q.checkUndoLimit.index + 1) false) saved
  := by
  have hall : ∀ list : List (QUndoCommand C), applyAll effect (list.take list.length) bottom
      = applyAll effect list bottom := fun list => by rw [List.take_length]
  unfold count at hcount
  unfold checkUndoLimit
  split
  next =>
    refine sound_setIndexPrivate bottom ⟨hclosed, by omega, ?_, ?_, ?_⟩
    · exact Int.le_of_eq hcount
    · rw [show (q.index + 1).toNat = q.command_list.length by omega, hall]
      exact hdocument
    · rcases hclean with hnone | ⟨hzero, hle, hsaved⟩
      · exact .inl hnone
      · exact .inr ⟨hzero, by unfold count; omega, hsaved⟩
  next hlimit =>
    unfold count at hlimit ⊢
    dsimp only
    generalize hdel : (q.command_list.length : ℤ) - q.undo_limit = del_count
    have hsplit : ∀ n : ℕ, del_count ≤ n → ∀ d,
        applyAll effect ((q.command_list.drop del_count.toNat).take (n - del_count.toNat))
          (applyAll effect (q.command_list.take del_count.toNat) d)
        = applyAll effect (q.command_list.take n) d := by
      intro n hn d
      rw [← QUndoCommand.applyAll_append, ← List.drop_take]
      congr 1
      rw [show q.command_list.take del_count.toNat
        = (q.command_list.take n).take del_count.toNat by
          rw [List.take_take]
          congr 1
          omega]
      exact List.take_append_drop _ _
    refine sound_setIndexPrivate
      (applyAll effect (q.command_list.take del_count.toNat) bottom) ?_
    refine ⟨hclosed, ?_, ?_, ?_, ?_⟩
    · omega
    · unfold count
      dsimp only
      rw [List.length_drop]
      omega
    · dsimp only
      rw [show (q.index - del_count + 1).toNat = q.command_list.length - del_count.toNat by omega,
        hsplit _ (by omega), hall]
      exact hdocument
    · unfold count
      dsimp only
      rw [List.length_drop]
      rcases hclean with hnone | ⟨hzero, hle, hsaved⟩
      · rw [if_pos hnone]
        exact .inl rfl
      · rw [if_neg (by omega)]
        by_cases hdeleted : q.clean_index < del_count
        · rw [if_pos hdeleted]
          exact .inl rfl
        · rw [if_neg hdeleted]
          refine .inr ⟨by omega, by omega, ?_⟩
          rw [show (q.clean_index - del_count).toNat = q.clean_index.toNat - del_count.toNat by omega,
            hsplit _ (by omega)]
          exact hsaved

/-- The undone commands are deleted. -/
theorem At.deleteRedone (h : At effect q saved bottom q.index) (document : D) :
  ({ q with document := document }.deleteRedone).count = q.index
    ∧ (({ q with document := document }.deleteRedone).clean_index = -1
      ∨ 0 ≤ ({ q with document := document }.deleteRedone).clean_index
        ∧ ({ q with document := document }.deleteRedone).clean_index ≤ q.index
        ∧ saved = applyAll effect (({ q with document := document }.deleteRedone).command_list.take
          ({ q with document := document }.deleteRedone).clean_index.toNat) bottom)
  := by
  have hnonneg := h.nonneg
  have hle := h.le
  unfold count at hle
  unfold QUndoStack.deleteRedone count
  dsimp only
  constructor
  · rw [List.length_take]
    omega
  · by_cases hpast : q.index < q.clean_index
    · rw [if_pos hpast]
      exact .inl rfl
    · rw [if_neg hpast]
      rcases h.clean with hnone | ⟨hzero, -, hsaved⟩
      · exact .inl hnone
      · refine .inr ⟨hzero, by omega, ?_⟩
        rw [List.take_take, min_eq_left (by omega)]
        exact hsaved

/-- The command that is pushed, and the document after it. -/
theorem execute_spec (hlawful : virtuals.Lawful effect) (cmd : C) :
  (q.execute virtuals cmd).2 = effect.apply (q.execute virtuals cmd).1 q.document
  := by
  unfold execute
  split
  next hobsolete => exact (effect.obsolete cmd hobsolete q.document).symm
  next => exact hlawful.redo_document cmd q.document

/-- A command that merges has the effect of both. -/
theorem tryMerge_spec (hlawful : virtuals.Lawful effect) {cur : Option (QUndoCommand C)} {cmd : C}
    {allowed : Bool} {merged : QUndoCommand C} (h : tryMerge virtuals cur cmd allowed = some merged) :
  allowed = true ∧ ∃ c, cur = some c ∧ ∀ d,
    QUndoCommand.apply effect merged d
      = effect.apply cmd (QUndoCommand.apply effect c d)
  := by
  obtain ⟨c, rfl, hmerge⟩ := Option.bind_eq_some_iff.mp h
  split at hmerge
  next hcond =>
    refine ⟨hcond.2.2, c, rfl, ?_⟩
    cases c with
    | derived c =>
      obtain ⟨m, hm, rfl⟩ := Option.map_eq_some_iff.mp hmerge
      exact hlawful.merge_effect c cmd m hm
    | base text child_list => cases hmerge
  next => cases hmerge

theorem Sound.push (h : Sound effect q saved) (hlawful : virtuals.Lawful effect) (cmd : C) :
  Sound effect (q.push virtuals cmd) saved
  := by
  have hdocument := execute_spec (q := q) hlawful cmd
  have hobsolete : ∀ merged : QUndoCommand C, merged.isObsolete = true →
      ∀ d, QUndoCommand.apply effect merged d = d :=
    fun merged hmerged d => QUndoCommand.apply_obsolete hmerged d
  unfold QUndoStack.push
  dsimp only
  obtain ⟨bottom, hat | hopen⟩ := h
  · rw [if_neg (not_not.mpr hat.closed)]
    obtain ⟨hcount, hclean⟩ := hat.deleteRedone (q.execute virtuals cmd).2
    have hnonneg := hat.nonneg
    have hle := hat.le
    generalize hmerged : tryMerge virtuals _ _ _ = merged
    cases merged with
    | some merged =>
      obtain ⟨hallowed, cur, hcur, heffect⟩ := tryMerge_spec hlawful hmerged
      rw [decide_eq_true_eq] at hallowed
      dsimp only
      -- The command that is merged is the last one, above the clean index.
      have hpos : 0 < q.index := by
        by_contra hnot
        rw [if_neg hnot] at hcur
        cases hcur
      rw [if_pos hpos] at hcur
      obtain ⟨-, hlast⟩ := command_eq_some_iff.mp hcur
      change q.command_list[(q.index - 1).toNat]? = some cur at hlast
      have hlist : q.command_list.take q.index.toNat
          = q.command_list.take (q.index - 1).toNat ++ [cur] := by
        rw [show q.index.toNat = (q.index - 1).toNat + 1 by omega, List.take_add_one, hlast,
          Option.toList_some]
      have happlied : q.document = QUndoCommand.apply effect cur
          (applyAll effect (q.command_list.take (q.index - 1).toNat) bottom) := by
        rw [hat.document, hlist, QUndoCommand.applyAll_append, applyAll, applyAll]
      have hdropLast : (q.command_list.take q.index.toNat).dropLast
          = q.command_list.take (q.index - 1).toNat := by
        rw [hlist, List.dropLast_concat]
      have hle' := hat.le
      unfold count at hle'
      have hlength : ((q.command_list.take (q.index - 1).toNat).length : ℤ) = q.index - 1 := by
        rw [List.length_take]
        omega
      have hlow : ({ q with document := (q.execute virtuals cmd).2 }.deleteRedone).clean_index = -1
          ∨ 0 ≤ ({ q with document := (q.execute virtuals cmd).2 }.deleteRedone).clean_index
            ∧ ({ q with document := (q.execute virtuals cmd).2 }.deleteRedone).clean_index
              ≤ q.index - 1
            ∧ ∀ list, saved = applyAll effect ((q.command_list.take (q.index - 1).toNat
              ++ list).take ({ q with
                document := (q.execute virtuals cmd).2 }.deleteRedone).clean_index.toNat)
              bottom := by
        rcases hclean with hnone | ⟨hzero, hend, hsaved⟩
        · exact .inl hnone
        · change q.index ≠ _ at hallowed
          refine .inr ⟨hzero, by omega, fun list => ?_⟩
          rw [hsaved]
          change applyAll effect (List.take _ (q.command_list.take q.index.toNat)) bottom = _
          rw [hlist, List.take_append_of_le_length (by omega),
            List.take_append_of_le_length (by omega)]
      split
      next hnone =>
        refine sound_setIndexPrivate bottom ?_
        refine ⟨hat.closed, ?_, ?_, ?_, ?_⟩
        · change 0 ≤ q.index - 1
          omega
        · change q.index - 1 ≤ ((q.command_list.take q.index.toNat).dropLast.length : ℤ)
          rw [hdropLast, hlength]
        · change (q.execute virtuals cmd).2 = applyAll effect
            ((q.command_list.take q.index.toNat).dropLast.take (q.index - 1).toNat) bottom
          rw [hdropLast, List.take_take, min_self, hdocument, happlied, ← heffect,
            hobsolete merged hnone]
        · rcases hlow with hno | ⟨hzero, hend, hsaved⟩
          · exact .inl hno
          · refine .inr ⟨hzero, ?_, ?_⟩
            · refine Int.le_trans hend (Int.le_of_eq ?_)
              change _ = ((q.command_list.take q.index.toNat).dropLast.length : ℤ)
              rw [hdropLast, hlength]
            · change saved
                = applyAll effect ((q.command_list.take q.index.toNat).dropLast.take _) bottom
              rw [hdropLast, ← List.append_nil (q.command_list.take (q.index - 1).toNat)]
              exact hsaved []
      next =>
        have hend' : ((((q.command_list.take q.index.toNat).dropLast ++ [merged]).length : ℕ) : ℤ)
            = q.index := by
          rw [hdropLast, List.length_append, List.length_singleton]
          omega
        refine ⟨bottom, .inl ⟨hat.closed, hnonneg, Int.le_of_eq hend'.symm, ?_, ?_⟩⟩
        · change (q.execute virtuals cmd).2 = applyAll effect
            (((q.command_list.take q.index.toNat).dropLast ++ [merged]).take q.index.toNat) bottom
          rw [List.take_of_length_le (by omega), hdropLast, QUndoCommand.applyAll_append,
            applyAll, applyAll, heffect, ← happlied, hdocument]
        · rcases hlow with hno | ⟨hzero, hend, hsaved⟩
          · exact .inl hno
          · refine .inr ⟨hzero, Int.le_trans hend ?_, ?_⟩
            · exact Int.le_trans (show q.index - 1 ≤ q.index by omega) (Int.le_of_eq hend'.symm)
            · change saved = applyAll effect
                (((q.command_list.take q.index.toNat).dropLast ++ [merged]).take _) bottom
              rw [hdropLast]
              exact hsaved [merged]
    | none =>
      dsimp only
      split
      next hcmd =>
        rw [effect.obsolete _ hcmd] at hdocument
        refine ⟨bottom, .inl ⟨hat.closed, hnonneg, Int.le_of_eq hcount.symm, ?_, ?_⟩⟩
        · change (q.execute virtuals cmd).2
            = applyAll effect ((q.command_list.take q.index.toNat).take q.index.toNat) bottom
          rw [List.take_take, min_self, hdocument]
          exact hat.document
        · rw [hcount]
          exact hclean
      next =>
        refine sound_append bottom hat.closed hnonneg ?_ ?_ ?_
        · change q.index + 1 = ((q.command_list.take q.index.toNat ++ [_]).length : ℤ)
          rw [List.length_append, List.length_singleton, Int.natCast_add]
          exact congrArg (· + 1) hcount.symm
        · change (q.execute virtuals cmd).2
            = applyAll effect (q.command_list.take q.index.toNat
              ++ [.derived (q.execute virtuals cmd).1]) bottom
          rw [QUndoCommand.applyAll_append, applyAll, applyAll, QUndoCommand.apply, hdocument,
            hat.document]
        · rcases hclean with hnone | ⟨hzero, hend, hsaved⟩
          · exact .inl hnone
          · refine .inr ⟨hzero, hend, ?_⟩
            rw [hsaved]
            congr 1
            refine (List.take_append_of_le_length ?_).symm
            unfold count at hcount
            have hend' := hend
            omega
  · rw [if_pos hopen.open_macro]
    generalize hmerged : tryMerge virtuals _ _ _ = merged
    cases merged with
    | some merged =>
      obtain ⟨-, cur, hcur, heffect⟩ := tryMerge_spec hlawful hmerged
      obtain ⟨front, hfront⟩ := List.getLast?_eq_some_iff.mp hcur
      dsimp only
      split
      next hnone =>
        refine ⟨bottom, .inr (hopen.with_children hdocument fun d => ?_)⟩
        rw [hfront, List.dropLast_concat, QUndoCommand.applyAll_append, applyAll, applyAll,
          ← heffect, hobsolete merged hnone]
      next =>
        refine ⟨bottom, .inr (hopen.with_children hdocument fun d => ?_)⟩
        rw [hfront, List.dropLast_concat, QUndoCommand.applyAll_append,
          QUndoCommand.applyAll_append, applyAll, applyAll, applyAll, applyAll, heffect]
    | none =>
      dsimp only
      split
      next hcmd =>
        rw [effect.obsolete _ hcmd] at hdocument
        refine ⟨bottom, .inr ⟨hopen.open_macro, hopen.nonneg, hopen.last, hopen.spine, ?_,
          hopen.clean⟩⟩
        exact hdocument.trans hopen.document
      next =>
        refine ⟨bottom, .inr (hopen.with_children hdocument fun d => ?_)⟩
        rw [QUndoCommand.applyAll_append, applyAll, applyAll, QUndoCommand.apply]

/-- The commands inside macros do not become obsolete when they are undone or redone. -/
def MacrosSteady (virtuals : Virtuals C D) (q : QUndoStack C D) (_ : Op C) : Prop :=
  ∀ cmd ∈ q.command_list, ∀ c ∈ cmd.inside, Steady virtuals c

theorem Sound.undo (h : Sound effect q saved) (hlawful : virtuals.Lawful effect)
    (hsteady : ∀ cmd ∈ q.command_list, ∀ c ∈ cmd.inside, Steady virtuals c) :
  Sound effect (q.undo virtuals) saved
  := by
  obtain ⟨bottom, hat | hopen⟩ := h
  · unfold QUndoStack.undo
    split
    next => exact hat.sound
    next =>
      rw [if_neg (not_not.mpr hat.closed)]
      dsimp only
      cases hcmd : q.command (q.index - 1) with
      | none => exact hat.sound
      | some cmd =>
        dsimp only
        obtain ⟨-, hget⟩ := command_eq_some_iff.mp hcmd
        have hundone := hat.undo hlawful hcmd (hsteady cmd (List.mem_of_getElem? hget))
          (.inr rfl)
        exact hundone.setIndexPrivate.sound
  · unfold QUndoStack.undo
    split
    next => exact ⟨bottom, .inr hopen⟩
    next =>
      rw [if_pos hopen.open_macro]
      exact ⟨bottom, .inr hopen⟩

theorem Sound.redo (h : Sound effect q saved) (hlawful : virtuals.Lawful effect)
    (hsteady : ∀ cmd ∈ q.command_list, ∀ c ∈ cmd.inside, Steady virtuals c) :
  Sound effect (q.redo virtuals) saved
  := by
  obtain ⟨bottom, hat | hopen⟩ := h
  · unfold QUndoStack.redo
    split
    next => exact hat.sound
    next =>
      rw [if_neg (not_not.mpr hat.closed)]
      dsimp only
      cases hcmd : q.command q.index with
      | none => exact hat.sound
      | some cmd =>
        dsimp only
        obtain ⟨-, hget⟩ := command_eq_some_iff.mp hcmd
        generalize hredone : (if cmd.isObsolete = true then (cmd, q.document)
          else cmd.redo virtuals q.document) = redone
        have hstep := hat.redo hlawful hcmd (hsteady cmd (List.mem_of_getElem? hget))
          hredone.symm
        split at hstep
        next hobsolete =>
          rw [if_pos hobsolete]
          exact hstep.setIndexPrivate.sound
        next hobsolete =>
          rw [if_neg hobsolete]
          exact hstep.setIndexPrivate.sound
  · unfold QUndoStack.redo
    split
    next => exact ⟨bottom, .inr hopen⟩
    next =>
      rw [if_pos hopen.open_macro]
      exact ⟨bottom, .inr hopen⟩

theorem Sound.setIndex (h : Sound effect q saved) (hlawful : virtuals.Lawful effect)
    (hsteady : ∀ cmd ∈ q.command_list, ∀ c ∈ cmd.inside, Steady virtuals c) (idx : ℤ) :
  Sound effect (q.setIndex virtuals idx) saved
  := by
  obtain ⟨bottom, hat | hopen⟩ := h
  · unfold QUndoStack.setIndex
    rw [if_neg (not_not.mpr hat.closed)]
    dsimp only
    have hnonneg := hat.nonneg
    have hle := hat.le
    have hrange : ∃ target, (if idx < 0 then 0 else if q.count < idx then q.count else idx) = target
        ∧ 0 ≤ target ∧ target ≤ q.count := by
      refine ⟨_, rfl, ?_⟩
      split
      next => omega
      next =>
        split
        next => omega
        next => omega
    obtain ⟨target, htarget, hzero, hcount⟩ := hrange
    rw [htarget]
    split
    next =>
      exact (hat.redoLoop hlawful fun cmd hcmd =>
        hsteady cmd (List.mem_of_mem_drop hcmd)).setIndexPrivate.sound
    next hnot =>
      have hundone := hat.undoLoop hlawful (n := (q.index - target).toNat) (by omega)
        fun cmd hcmd => hsteady cmd (List.mem_of_mem_take hcmd)
      rw [show q.index - ((q.index - target).toNat : ℤ) = target by omega] at hundone
      exact hundone.setIndexPrivate.sound
  · unfold QUndoStack.setIndex
    rw [if_pos hopen.open_macro]
    exact ⟨bottom, .inr hopen⟩

theorem Sound.beginMacro (h : Sound effect q saved) (text : String) :
  Sound effect (q.beginMacro text) saved
  := by
  have hsignals : ∀ r : QUndoStack C D, Sound effect r saved →
      Sound effect (if r.macro_stack = 1 then r.emit (.canUndoChanged false)
        |>.emit (.undoTextChanged "") |>.emit (.canRedoChanged false)
        |>.emit (.redoTextChanged "") else r) saved := by
    rintro r ⟨bottom, hat | hopen⟩
    · split
      · exact ⟨bottom, .inl ⟨hat.closed, hat.nonneg, hat.le, hat.document, hat.clean⟩⟩
      · exact ⟨bottom, .inl hat⟩
    · split
      · exact ⟨bottom, .inr ⟨hopen.open_macro, hopen.nonneg, hopen.last, hopen.spine,
          hopen.document, hopen.clean⟩⟩
      · exact ⟨bottom, .inr hopen⟩
  unfold QUndoStack.beginMacro
  dsimp only
  obtain ⟨bottom, hat | hopen⟩ := h
  · rw [if_pos hat.closed]
    refine hsignals { q.deleteRedone with
      command_list :=
        q.deleteRedone.command_list ++ [QUndoCommand.base (QUndoCommand.actionTextOf text) []]
      macro_stack := q.deleteRedone.macro_stack + 1 } ?_
    obtain ⟨hcount, hclean⟩ := hat.deleteRedone q.document
    have hdepths : q.macro_stack + 1 = 1 := by rw [hat.closed]
    refine ⟨bottom, .inr ⟨Nat.succ_ne_zero _, hat.nonneg, ?_, ?_, ?_, ?_⟩⟩
    · change q.index + 1 = ((q.command_list.take q.index.toNat ++ [_]).length : ℤ)
      rw [List.length_append, List.length_singleton, Int.natCast_add]
      exact congrArg (· + 1) hcount.symm
    · change Spine (q.macro_stack + 1) _
      rw [hdepths]
      refine ⟨QUndoCommand.actionTextOf text, [], ?_, trivial⟩
      rw [List.getLast?_append, List.getLast?_singleton, Option.some_or]
    · change q.document = applyAll effect (q.command_list.take q.index.toNat ++ [_]) bottom
      rw [QUndoCommand.applyAll_append, applyAll, applyAll, QUndoCommand.apply, applyAll]
      exact hat.document
    · rcases hclean with hnone | ⟨hzero, hend, hsaved⟩
      · exact .inl hnone
      · refine .inr ⟨hzero, hend, ?_⟩
        rw [hsaved]
        congr 1
        refine (List.take_append_of_le_length ?_).symm
        unfold count at hcount
        have hend' := hend
        omega
  · rw [if_neg hopen.open_macro]
    refine hsignals { q with
      command_list := modifyLastChildList
        (fun children => children ++ [.base (QUndoCommand.actionTextOf text) []])
        q.macro_stack q.command_list
      macro_stack := q.macro_stack + 1 } ?_
    have hchildren := hopen.with_children (d := q.document) (g := fun d => d)
      (f := fun children => children ++ [.base (QUndoCommand.actionTextOf text) []]) rfl
      (fun d => by
        rw [QUndoCommand.applyAll_append, applyAll, applyAll, QUndoCommand.apply, applyAll])
    exact ⟨bottom, .inr ⟨Nat.succ_ne_zero _, hchildren.nonneg, hchildren.last,
      spine_append hopen.spine _, hchildren.document, hchildren.clean⟩⟩

theorem Sound.endMacro (h : Sound effect q saved) :
  Sound effect q.endMacro saved
  := by
  obtain ⟨bottom, hat | hopen⟩ := h
  · unfold QUndoStack.endMacro
    rw [if_pos hat.closed]
    exact hat.sound
  · unfold QUndoStack.endMacro
    rw [if_neg hopen.open_macro]
    dsimp only
    split
    next hlast =>
      exact sound_append (q := { q with macro_stack := q.macro_stack - 1 }) bottom hlast hopen.nonneg
        hopen.last hopen.document hopen.clean
    next hmore =>
      refine ⟨bottom, .inr ⟨hmore, hopen.nonneg, hopen.last, ?_, hopen.document,
        hopen.clean⟩⟩
      have hspine := hopen.spine
      rw [show q.macro_stack = q.macro_stack - 1 + 1 by omega] at hspine
      exact spine_of_succ hspine

/-! ### The clean state -/

/-- The document that is saved: the one at the last `setClean` outside a macro, or `clear`. -/
def savedAfter (q : QUndoStack C D) (saved : D) : Op C → D
  | .setClean => if q.macro_stack = 0 then q.document else saved
  | .clear => q.document
  | _ => saved

omit [UserCommand C] in
theorem resetClean_frame (q : QUndoStack C D) :
  ∃ emitted, q.resetClean = { q with clean_index := -1, emitted := emitted }
  := by
  unfold resetClean
  dsimp only
  split
  · exact ⟨_, rfl⟩
  · exact ⟨_, rfl⟩

theorem Sound.resetClean (h : Sound effect q saved) :
  Sound effect q.resetClean saved
  := by
  obtain ⟨emitted, hframe⟩ := resetClean_frame q
  rw [hframe]
  obtain ⟨bottom, hat | hopen⟩ := h
  · exact ⟨bottom, .inl ⟨hat.closed, hat.nonneg, hat.le, hat.document, .inl rfl⟩⟩
  · exact ⟨bottom, .inr ⟨hopen.open_macro, hopen.nonneg, hopen.last, hopen.spine,
      hopen.document, .inl rfl⟩⟩

theorem Sound.setClean (h : Sound effect q saved) :
  Sound effect q.setClean (q.savedAfter saved .setClean)
  := by
  unfold QUndoStack.setClean savedAfter
  obtain ⟨bottom, hat | hopen⟩ := h
  · rw [if_neg (not_not.mpr hat.closed), if_pos hat.closed]
    obtain ⟨undoState, redoState, emitted, hframe⟩ := setIndexPrivate_frame q q.index true
    rw [hframe]
    exact ⟨bottom, .inl ⟨hat.closed, hat.nonneg, hat.le, hat.document,
      .inr ⟨hat.nonneg, hat.le, hat.document⟩⟩⟩
  · rw [if_pos hopen.open_macro, if_neg hopen.open_macro]
    exact ⟨bottom, .inr hopen⟩

theorem Sound.clear (h : Sound effect q saved) :
  Sound effect q.clear q.document
  := by
  unfold QUndoStack.clear
  split
  next hempty =>
    obtain ⟨bottom, hat | hopen⟩ := h
    · have hdocument := hat.document
      rw [hempty, List.take_nil, applyAll] at hdocument
      refine ⟨bottom, .inl ⟨hat.closed, hat.nonneg, hat.le, hat.document, ?_⟩⟩
      rcases hat.clean with hnone | ⟨hzero, hend, -⟩
      · exact .inl hnone
      · refine .inr ⟨hzero, hend, ?_⟩
        rw [hdocument, hempty, List.take_nil, applyAll]
    · have hlast := hopen.last
      have hnonneg := hopen.nonneg
      unfold count at hlast
      rw [hempty, List.length_nil] at hlast
      omega
  next =>
    dsimp only
    have hvalues : ∀ r : QUndoStack C D, r.command_list = [] → r.macro_stack = 0 → r.index = 0 →
        r.clean_index = 0 → r.document = q.document → Sound effect r q.document := by
      intro r hlist hdepth hindex hclean hdocument
      refine ⟨q.document, .inl ⟨hdepth, by omega, ?_, ?_, .inr ⟨by omega, ?_, ?_⟩⟩⟩
      · unfold count
        omega
      · rw [hlist, List.take_nil, applyAll, hdocument]
      · unfold count
        omega
      · rw [hlist, List.take_nil, applyAll]
    split
    · exact hvalues _ rfl rfl rfl rfl rfl
    · exact hvalues _ rfl rfl rfl rfl rfl

theorem Sound.setUndoLimit (h : Sound effect q saved) (limit : ℤ) :
  Sound effect (q.setUndoLimit limit) saved
  := by
  unfold QUndoStack.setUndoLimit
  split
  next => exact h
  next hempty =>
    split
    next => exact h
    next =>
      have hstay : { q with undo_limit := limit }.checkUndoLimit
          = { q with undo_limit := limit } := by
        have hcount : q.count = 0 := by
          rw [count, not_not.mp hempty]
          rfl
        unfold checkUndoLimit
        rw [if_pos]
        change limit ≤ 0 ∨ q.macro_stack ≠ 0 ∨ q.count ≤ limit
        omega
      rw [hstay]
      obtain ⟨bottom, hat | hopen⟩ := h
      · exact ⟨bottom, .inl ⟨hat.closed, hat.nonneg, hat.le, hat.document, hat.clean⟩⟩
      · exact ⟨bottom, .inr ⟨hopen.open_macro, hopen.nonneg, hopen.last, hopen.spine,
          hopen.document, hopen.clean⟩⟩

/-- Each operation keeps the invariant. -/
theorem Sound.perform (h : Sound effect q saved) (hlawful : virtuals.Lawful effect) (op : Op C)
    (hsteady : q.MacrosSteady virtuals op) :
  Sound effect (q.perform virtuals op) (q.savedAfter saved op)
  := by
  cases op with
  | push cmd => exact h.push hlawful cmd
  | undo => exact h.undo hlawful hsteady
  | redo => exact h.redo hlawful hsteady
  | setIndex idx => exact h.setIndex hlawful hsteady idx
  | beginMacro text => exact h.beginMacro text
  | endMacro => exact h.endMacro
  | setClean => exact h.setClean
  | resetClean => exact h.resetClean
  | clear => exact h.clear
  | setUndoLimit limit => exact h.setUndoLimit limit

/-- The document that is saved after a run. -/
def savedRun (q : QUndoStack C D) (saved : D) : List (Virtuals C D × Op C) → D
  | [] => saved
  | step :: steps => savedRun (q.perform step.1 step.2) (q.savedAfter saved step.2) steps

theorem Sound.run (h : Sound effect q saved) {steps : List (Virtuals C D × Op C)}
    (hlawful : ∀ step ∈ steps, step.1.Lawful effect) (hsteady : q.AllSteps MacrosSteady steps) :
  Sound effect (q.run steps) (q.savedRun saved steps)
  := by
  induction steps generalizing q saved with
  | nil => exact h
  | cons step steps ih =>
    exact ih (h.perform (hlawful step List.mem_cons_self) step.2 hsteady.1)
      (fun step' hstep' => hlawful step' (List.mem_cons_of_mem _ hstep')) hsteady.2

theorem sound_new (effect : Effect C D) (document : D) :
  Sound effect (new document) document
  := ⟨document, .inl ⟨rfl, Int.le_refl 0, Int.le_refl 0, rfl,
    .inr ⟨Int.le_refl 0, Int.le_refl 0, rfl⟩⟩⟩

/-- In every run in which the commands inside macros do not become obsolete, the index and the
clean index are those of commands whenever no macro is open, and a stack that is clean has the
document that is saved. -/
theorem clean_run (effect : Effect C D) (document : D) {steps : List (Virtuals C D × Op C)}
    (h_lawful : ∀ step ∈ steps, step.1.Lawful effect)
    (h_steady : (new document).AllSteps MacrosSteady steps)
    (h_closed : ((new document).run steps).macro_stack = 0) :
  (0 ≤ ((new document).run steps).index
      ∧ ((new document).run steps).index ≤ ((new document).run steps).count)
    ∧ (((new document).run steps).clean_index = -1
      ∨ 0 ≤ ((new document).run steps).clean_index
        ∧ ((new document).run steps).clean_index ≤ ((new document).run steps).count)
    ∧ (((new document).run steps).isClean = true →
      ((new document).run steps).document = (new document).savedRun document steps)
  := by
  obtain ⟨bottom, h_at | h_open⟩ := (sound_new effect document).run h_lawful h_steady
  · refine ⟨⟨h_at.nonneg, h_at.le⟩, ?_, fun h_clean => ?_⟩
    · rcases h_at.clean with h_none | ⟨h_zero, h_end, -⟩
      · exact .inl h_none
      · exact .inr ⟨h_zero, h_end⟩
    · rw [isClean, if_neg (not_not.mpr h_closed), decide_eq_true_eq] at h_clean
      have h_nonneg := h_at.nonneg
      rcases h_at.clean with h_none | ⟨-, -, h_saved⟩
      · omega
      · rw [h_saved, h_clean]
        exact h_at.document
  · exact absurd h_closed h_open.open_macro

/-- The effect of a command that appends a line. -/
def appendEffect : Effect AppendLine (List String) where
  apply cmd document := if cmd.obsolete then document else document ++ [cmd.line]
  obsolete _ h _ := if_pos h

theorem lawful_append : AppendLine.virtuals.Lawful appendEffect := by
  constructor
  · rintro ⟨line, once, obsolete⟩ d
    cases obsolete <;> rfl
  · rintro ⟨line, once, obsolete⟩ d
    cases obsolete
    · exact .inr rfl
    · exact .inl rfl
  · rintro ⟨line, once, obsolete⟩ d
    cases obsolete
    · exact List.dropLast_concat
    · rfl
  · rintro ⟨line, once, obsolete⟩ d
    cases obsolete
    · cases once
      · exact .inr rfl
      · exact .inl rfl
    · exact .inl rfl
  · intro cur cmd merged h
    cases h

/-- A line is appended, saved, undone and redone. -/
theorem clean_run_append :
  ((new ([] : List String)).run [(AppendLine.virtuals, .push ⟨"a", false, false⟩), (AppendLine.virtuals, .setClean),
      (AppendLine.virtuals, .undo), (AppendLine.virtuals, .redo)]).document
    = (new ([] : List String)).savedRun [] [(AppendLine.virtuals, .push ⟨"a", false, false⟩),
      (AppendLine.virtuals, .setClean), (AppendLine.virtuals, .undo), (AppendLine.virtuals, .redo)]
  := by
  refine (clean_run appendEffect [] ?_ ?_ rfl).2.2 rfl
  · intro step h_step
    simp only [List.mem_cons, List.not_mem_nil, or_false] at h_step
    rcases h_step with rfl | rfl | rfl | rfl
    · exact lawful_append
    · exact lawful_append
    · exact lawful_append
    · exact lawful_append
  · refine ⟨?_, ?_, ?_, ?_, trivial⟩
    · intro cmd h_cmd
      cases h_cmd
    · rintro cmd (_ | ⟨_, h_cmd⟩) c h_c
      · cases h_c
      · cases h_cmd
    · rintro cmd (_ | ⟨_, h_cmd⟩) c h_c
      · cases h_c
      · cases h_cmd
    · rintro cmd (_ | ⟨_, h_cmd⟩) c h_c
      · cases h_c
      · cases h_cmd

/-- A command inside a macro that becomes obsolete when it is undone: after the macro is redone the
stack is clean, and the document has lost a line. -/
theorem clean_run_obsolete :
  ((new ([] : List String)).run [(AppendLine.virtuals, .beginMacro "m"), (AppendLine.virtuals, .push ⟨"a", false, false⟩),
      (AppendLine.virtuals, .push ⟨"b", true, false⟩), (AppendLine.virtuals, .endMacro), (AppendLine.virtuals, .setClean),
      (AppendLine.virtuals, .undo), (AppendLine.virtuals, .redo)]).isClean = true
    ∧ ((new ([] : List String)).run [(AppendLine.virtuals, .beginMacro "m"),
      (AppendLine.virtuals, .push ⟨"a", false, false⟩), (AppendLine.virtuals, .push ⟨"b", true, false⟩),
      (AppendLine.virtuals, .endMacro), (AppendLine.virtuals, .setClean), (AppendLine.virtuals, .undo),
      (AppendLine.virtuals, .redo)]).document = ["a"]
    ∧ (new ([] : List String)).savedRun [] [(AppendLine.virtuals, .beginMacro "m"),
      (AppendLine.virtuals, .push ⟨"a", false, false⟩), (AppendLine.virtuals, .push ⟨"b", true, false⟩),
      (AppendLine.virtuals, .endMacro), (AppendLine.virtuals, .setClean), (AppendLine.virtuals, .undo), (AppendLine.virtuals, .redo)]
      = ["a", "b"]
    ∧ AppendLine.virtuals.Lawful appendEffect
  := ⟨by decide, by decide, by decide, lawful_append⟩

end QUndoStack
