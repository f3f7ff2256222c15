import BobUI.Gui.Util.UndoClean
import Mathlib.Logic.Function.Iterate

/-!
# Jumping and stepping

`setIndex` repeats the work of `undo` and `redo` in loops of its own.  Going up it does what `redo`
does; going down it undoes also the commands that are obsolete already, which `undo` does not.
-/

/-- A call of a virtual function of a command of the application. -/
inductive VirtualCall (C : Type) where
  | redo (cmd : C)
  | undo (cmd : C)

/-- The virtual functions, which also record that they are called. -/
def Virtuals.recorded {C D : Type} (virtuals : Virtuals C D) :
    Virtuals C (D × List (VirtualCall C)) where
  redo cmd document :=
    let redone := virtuals.redo cmd document.1
    (redone.1, redone.2, document.2 ++ [.redo cmd])
  undo cmd document :=
    let undone := virtuals.undo cmd document.1
    (undone.1, undone.2, document.2 ++ [.undo cmd])
  mergeWith := virtuals.mergeWith

namespace QUndoStack

variable {C D : Type} [UserCommand C]

/-! ### Steps -/

/-- The members of a stack that stepping changes, apart from the index. -/
structure Core (C D : Type) where
  command_list : List (QUndoCommand C)
  clean_index : ℤ
  document : D

def core (q : QUndoStack C D) : Core C D :=
  ⟨q.command_list, q.clean_index, q.document⟩

namespace Core

def command (c : Core C D) (idx : ℤ) : Option (QUndoCommand C) :=
  if 0 ≤ idx then c.command_list[idx.toNat]? else none

/-- A command is replaced by what it is after a call, and deleted if it is obsolete then. -/
def replace (c : Core C D) (idx : ℤ) (done : QUndoCommand C × D) : Core C D :=
  if done.1.isObsolete then
    ⟨c.command_list.eraseIdx idx.toNat, if idx < c.clean_index then -1 else c.clean_index, done.2⟩
  else ⟨c.command_list.set idx.toNat done.1, c.clean_index, done.2⟩

/-- Redo the command at the index. -/
def redo (virtuals : Virtuals C D) (p : ℤ × Core C D) : ℤ × Core C D :=
  match p.2.command p.1 with
  | none => p
  | some cmd =>
    let redone :=
      if cmd.isObsolete then (cmd, p.2.document) else cmd.redo virtuals p.2.document
    (if redone.1.isObsolete then p.1 else p.1 + 1, p.2.replace p.1 redone)

/-- Undo the command below the index; `check` is whether an obsolete command is left out. -/
def undo (check : Bool) (virtuals : Virtuals C D) (p : ℤ × Core C D) : ℤ × Core C D :=
  match p.2.command (p.1 - 1) with
  | none => p
  | some cmd =>
    let undone :=
      if check && cmd.isObsolete then (cmd, p.2.document) else cmd.undo virtuals p.2.document
    (p.1 - 1, p.2.replace (p.1 - 1) undone)

end Core

variable {q : QUndoStack C D} {virtuals : Virtuals C D}

theorem setIndexPrivate_core (q : QUndoStack C D) (idx : ℤ) :
  (q.setIndexPrivate idx false).core = q.core ∧ (q.setIndexPrivate idx false).index = idx
    ∧ (q.setIndexPrivate idx false).macro_stack = q.macro_stack
  := by
  obtain ⟨undoState, redoState, emitted, h⟩ := setIndexPrivate_frame q idx false
  rw [h]
  exact ⟨rfl, rfl, rfl⟩

omit [UserCommand C] in
theorem takeObsolete_setCommand_core (q : QUndoStack C D) (idx : ℤ) (done : QUndoCommand C × D) :
  ((q.setCommand idx done).takeObsolete idx).core
      = ⟨q.command_list.eraseIdx idx.toNat,
        if idx < q.clean_index then -1 else q.clean_index, done.2⟩
    ∧ ((q.setCommand idx done).takeObsolete idx).macro_stack = q.macro_stack
  := by
  obtain ⟨emitted, h⟩ := takeObsolete_frame (q.setCommand idx done) idx
  rw [h]
  constructor
  · unfold core setCommand
    dsimp only
    rw [List.eraseIdx_set_eq]
  · rfl

/-- The loops and the steps replace a command in the same way. -/
theorem replace_core (q : QUndoStack C D) (idx : ℤ) (done : QUndoCommand C × D) :
  (if done.1.isObsolete then (q.setCommand idx done).takeObsolete idx
      else q.setCommand idx done).core = q.core.replace idx done
    ∧ (if done.1.isObsolete then (q.setCommand idx done).takeObsolete idx
      else q.setCommand idx done).macro_stack = q.macro_stack
  := by
  rw [Core.replace]
  split
  · apply takeObsolete_setCommand_core
  · exact ⟨rfl, rfl⟩

/-! ### The steps and the loops -/

/-- The index and the members that stepping changes. -/
def indexed (q : QUndoStack C D) : ℤ × Core C D :=
  (q.index, q.core)

/-- The index is at a command or behind the last one. -/
def Core.InRange (p : ℤ × Core C D) : Prop :=
  0 ≤ p.1 ∧ p.1 ≤ p.2.command_list.length

omit [UserCommand C] in
theorem Core.command_eq_none {c : Core C D} {idx : ℤ}
    (h : idx < 0 ∨ (c.command_list.length : ℤ) ≤ idx) :
  c.command idx = none
  := by
  unfold Core.command
  rw [ite_eq_right_iff]
  intro hnonneg
  apply List.getElem?_eq_none
  omega

omit [UserCommand C] in
theorem Core.command_eq_some {c : Core C D} {idx : ℤ} (hnonneg : 0 ≤ idx)
    (hlt : idx < c.command_list.length) :
  ∃ cmd, c.command idx = some cmd
  := by
  unfold Core.command
  rw [if_pos hnonneg]
  have h : idx.toNat < c.command_list.length := by omega
  exact ⟨_, List.getElem?_eq_getElem h⟩

variable {p : ℤ × Core C D} {cmd : QUndoCommand C}

theorem Core.redo_eq {redone : QUndoCommand C × D} (hcmd : p.2.command p.1 = some cmd)
    (hredone :
      (if cmd.isObsolete then (cmd, p.2.document) else cmd.redo virtuals p.2.document) = redone) :
  Core.redo virtuals p
    = (if redone.1.isObsolete then p.1 else p.1 + 1, p.2.replace p.1 redone)
  := by
  rw [Core.redo, hcmd, ← hredone]

theorem Core.redo_fixed (hnone : p.2.command p.1 = none) :
  Core.redo virtuals p = p
  := by
  rw [Core.redo, hnone]

theorem Core.undo_eq {check : Bool} {undone : QUndoCommand C × D}
    (hcmd : p.2.command (p.1 - 1) = some cmd) (hundone :
      (if check && cmd.isObsolete then (cmd, p.2.document) else cmd.undo virtuals p.2.document)
        = undone) :
  Core.undo check virtuals p = (p.1 - 1, p.2.replace (p.1 - 1) undone)
  := by
  rw [Core.undo, hcmd, ← hundone]

theorem Core.undo_fixed {check : Bool} (hnone : p.2.command (p.1 - 1) = none) :
  Core.undo check virtuals p = p
  := by
  rw [Core.undo, hnone]

/-- A step up is the same on the members that it changes. -/
theorem redo_indexed (hclosed : q.macro_stack = 0) (h : Core.InRange q.indexed)
    (virtuals : Virtuals C D) :
  (q.redo virtuals).indexed = Core.redo virtuals q.indexed
    ∧ (q.redo virtuals).macro_stack = 0
  := by
  rcases h with ⟨hnonneg, hle⟩
  change 0 ≤ q.index at hnonneg
  change q.index ≤ q.count at hle
  unfold QUndoStack.redo
  by_cases hend : q.index = q.count
  · rw [if_pos hend]
    have hnone : q.indexed.2.command q.indexed.1 = none := by
      apply Core.command_eq_none
      right
      apply le_of_eq
      exact hend.symm
    rw [Core.redo_fixed hnone]
    exact ⟨rfl, hclosed⟩
  · obtain ⟨cmd, hcmd⟩ : ∃ cmd, q.core.command q.index = some cmd := by
      apply Core.command_eq_some hnonneg
      exact lt_of_le_of_ne hle hend
    have hcommand : q.command q.index = some cmd := hcmd
    have hindexed : q.indexed.2.command q.indexed.1 = some cmd := hcmd
    rw [if_neg hend, if_neg (not_not.mpr hclosed)]
    dsimp only
    rw [hcommand]
    dsimp only
    generalize hredone : (if cmd.isObsolete = true then (cmd, q.document)
      else cmd.redo virtuals q.document) = redone
    rw [Core.redo_eq hindexed hredone]
    obtain ⟨hcore, hmacro⟩ := replace_core q q.index redone
    split
    next hobsolete =>
      rw [if_pos hobsolete] at hcore hmacro
      obtain ⟨hkept, hindex, hdepth⟩ :=
        setIndexPrivate_core ((q.setCommand q.index redone).takeObsolete q.index) q.index
      rw [indexed, hkept, hindex, hdepth, hcore, hmacro]
      exact ⟨rfl, hclosed⟩
    next hlive =>
      rw [if_neg hlive] at hcore hmacro
      obtain ⟨hkept, hindex, hdepth⟩ :=
        setIndexPrivate_core (q.setCommand q.index redone) (q.index + 1)
      have hsame : (q.setCommand q.index redone).index = q.index := rfl
      rw [hsame, indexed, hkept, hindex, hdepth, hcore, hmacro]
      exact ⟨rfl, hclosed⟩

/-- A step down is the same on the members that it changes. -/
theorem undo_indexed (hclosed : q.macro_stack = 0) (h : Core.InRange q.indexed)
    (virtuals : Virtuals C D) :
  (q.undo virtuals).indexed = Core.undo true virtuals q.indexed
    ∧ (q.undo virtuals).macro_stack = 0
  := by
  rcases h with ⟨hnonneg, hle⟩
  change 0 ≤ q.index at hnonneg
  change q.index ≤ q.count at hle
  unfold QUndoStack.undo
  by_cases hend : q.index = 0
  · rw [if_pos hend]
    have hnone : q.indexed.2.command (q.indexed.1 - 1) = none := by
      apply Core.command_eq_none
      left
      change q.index - 1 < 0
      omega
    rw [Core.undo_fixed hnone]
    exact ⟨rfl, hclosed⟩
  · obtain ⟨cmd, hcmd⟩ : ∃ cmd, q.core.command (q.index - 1) = some cmd := by
      apply Core.command_eq_some
      · omega
      · change q.index - 1 < q.count
        omega
    have hcommand : q.command (q.index - 1) = some cmd := hcmd
    have hindexed : q.indexed.2.command (q.indexed.1 - 1) = some cmd := hcmd
    rw [if_neg hend, if_neg (not_not.mpr hclosed)]
    dsimp only
    rw [hcommand]
    dsimp only
    generalize hundone : (if cmd.isObsolete = true then (cmd, q.document)
      else cmd.undo virtuals q.document) = undone
    have hstep : Core.undo true virtuals q.indexed
        = (q.index - 1, q.core.replace (q.index - 1) undone) := by
      apply Core.undo_eq hindexed
      rw [Bool.true_and]
      exact hundone
    obtain ⟨hcore, hmacro⟩ := replace_core q (q.index - 1) undone
    obtain ⟨hkept, hindex, hdepth⟩ := setIndexPrivate_core
      (if undone.1.isObsolete = true then
        (q.setCommand (q.index - 1) undone).takeObsolete (q.index - 1)
      else q.setCommand (q.index - 1) undone) (q.index - 1)
    rw [hstep, indexed, hkept, hindex, hdepth, hcore, hmacro]
    exact ⟨rfl, hclosed⟩

/-- The loop up repeats the step up. -/
theorem redoLoop_core (virtuals : Virtuals C D) (n : ℕ) (i : ℤ) (q : QUndoStack C D) :
  ((redoLoop virtuals n i q).1, (redoLoop virtuals n i q).2.core)
      = (Core.redo virtuals)^[n] (i, q.core)
    ∧ (redoLoop virtuals n i q).2.macro_stack = q.macro_stack
  := by
  induction n generalizing i q with
  | zero => exact ⟨rfl, rfl⟩
  | succ n ih =>
    rw [redoLoop, Function.iterate_succ_apply]
    cases hcmd : q.command i with
    | none =>
      have hnone : (i, q.core).2.command (i, q.core).1 = none := hcmd
      rw [Core.redo_fixed hnone, Function.iterate_fixed (Core.redo_fixed hnone)]
      exact ⟨rfl, rfl⟩
    | some cmd =>
      have hindexed : (i, q.core).2.command (i, q.core).1 = some cmd := hcmd
      dsimp only
      generalize hredone : (if cmd.isObsolete = true then (cmd, q.document)
        else cmd.redo virtuals q.document) = redone
      rw [Core.redo_eq hindexed hredone]
      obtain ⟨hcore, hmacro⟩ := replace_core q i redone
      split
      next hobsolete =>
        rw [if_pos hobsolete] at hcore hmacro
        obtain ⟨hloop, hdepth⟩ := ih i ((q.setCommand i redone).takeObsolete i)
        rw [hloop, hdepth, hcore]
        exact ⟨rfl, hmacro⟩
      next hlive =>
        rw [if_neg hlive] at hcore hmacro
        obtain ⟨hloop, hdepth⟩ := ih (i + 1) (q.setCommand i redone)
        rw [hloop, hdepth, hcore]
        exact ⟨rfl, hmacro⟩

/-- The loop down repeats the step down, without the check. -/
theorem undoLoop_core (virtuals : Virtuals C D) (n : ℕ) (i : ℤ) (q : QUndoStack C D) :
  (undoLoop virtuals n i q).core = ((Core.undo false virtuals)^[n] (i, q.core)).2
    ∧ (undoLoop virtuals n i q).macro_stack = q.macro_stack
  := by
  induction n generalizing i q with
  | zero => exact ⟨rfl, rfl⟩
  | succ n ih =>
    rw [undoLoop, Function.iterate_succ_apply]
    cases hcmd : q.command (i - 1) with
    | none =>
      have hnone : (i, q.core).2.command ((i, q.core).1 - 1) = none := hcmd
      rw [Core.undo_fixed hnone, Function.iterate_fixed (Core.undo_fixed hnone)]
      exact ⟨rfl, rfl⟩
    | some cmd =>
      have hindexed : (i, q.core).2.command ((i, q.core).1 - 1) = some cmd := hcmd
      dsimp only
      generalize hundone : cmd.undo virtuals q.document = undone
      have hstep : Core.undo false virtuals (i, q.core)
          = (i - 1, q.core.replace (i - 1) undone) := by
        apply Core.undo_eq hindexed
        rw [Bool.false_and, if_neg Bool.false_ne_true]
        exact hundone
      obtain ⟨hcore, hmacro⟩ := replace_core q (i - 1) undone
      obtain ⟨hloop, hdepth⟩ := ih (i - 1)
        (if undone.1.isObsolete = true then (q.setCommand (i - 1) undone).takeObsolete (i - 1)
        else q.setCommand (i - 1) undone)
      rw [hstep, hloop, hdepth, hcore]
      exact ⟨rfl, hmacro⟩

/-! ### Repeated steps -/

omit [UserCommand C] in
/-- A function that closes a gap by one does nothing more once the gap is closed. -/
theorem iterate_min {α : Type} {f : α → α} {gap : α → ℕ} {P : α → Prop}
    (hstep : ∀ p, P p → P (f p) ∧ gap (f p) = gap p - 1)
    (hclosed : ∀ p, P p → gap p = 0 → f p = p) {p : α} (h : P p) (n : ℕ) :
  f^[n] p = f^[min n (gap p)] p
  := by
  induction n generalizing p with
  | zero => rw [Nat.zero_min]
  | succ n ih =>
    rcases Nat.eq_zero_or_pos (gap p) with hzero | hpos
    · rw [hzero, Nat.min_zero]
      apply Function.iterate_fixed
      apply hclosed p h hzero
    · obtain ⟨hnext, hgap⟩ := hstep p h
      have hmin : min (n + 1) (gap p) = min n (gap (f p)) + 1 := by
        rw [hgap]
        omega
      rw [hmin, Function.iterate_succ_apply, Function.iterate_succ_apply]
      apply ih hnext

namespace Core

omit [UserCommand C] in
theorem command_range {c : Core C D} {idx : ℤ} {cmd : QUndoCommand C}
    (h : c.command idx = some cmd) :
  0 ≤ idx ∧ idx < c.command_list.length
  := by
  by_contra hout
  rw [command_eq_none (by omega)] at h
  cases h

theorem length_replace {c : Core C D} {idx : ℤ} (hnonneg : 0 ≤ idx)
    (hlt : idx < c.command_list.length) (done : QUndoCommand C × D) :
  ((c.replace idx done).command_list.length : ℤ)
    = if done.1.isObsolete then (c.command_list.length : ℤ) - 1 else c.command_list.length
  := by
  rw [replace]
  split
  next =>
    dsimp only
    rw [List.length_eraseIdx_of_lt (by omega)]
    omega
  next =>
    dsimp only
    rw [List.length_set]

theorem replace_document (c : Core C D) (idx : ℤ) (done : QUndoCommand C × D) :
  (c.replace idx done).document = done.2
  := by
  rw [replace]
  split
  · rfl
  · rfl

/-- The commands below the one that is replaced stay. -/
theorem command_replace (c : Core C D) {idx : ℤ} (done : QUndoCommand C × D) {j : ℤ}
    (h : j < idx) :
  (c.replace idx done).command j = c.command j
  := by
  unfold command
  split
  next hnonneg =>
    rw [replace]
    split
    · dsimp only
      apply List.getElem?_eraseIdx_of_lt
      omega
    · dsimp only
      apply List.getElem?_set_ne
      omega
  next => rfl

/-- The commands above the index. -/
def above (p : ℤ × Core C D) : ℕ :=
  (p.2.command_list.length - p.1).toNat

theorem redo_step (virtuals : Virtuals C D) (p : ℤ × Core C D) (h : InRange p) :
  InRange (redo virtuals p) ∧ above (redo virtuals p) = above p - 1
  := by
  rcases h with ⟨hnonneg, hle⟩
  cases hcmd : p.2.command p.1 with
  | none =>
    rw [redo_fixed hcmd]
    have hend : ¬ p.1 < p.2.command_list.length := by
      intro hlt
      obtain ⟨cmd, hsome⟩ := command_eq_some hnonneg hlt
      rw [hcmd] at hsome
      cases hsome
    constructor
    · exact ⟨hnonneg, hle⟩
    · unfold above
      omega
  | some cmd =>
    obtain ⟨-, hlt⟩ := command_range hcmd
    rw [redo_eq hcmd rfl]
    generalize (if cmd.isObsolete = true then (cmd, p.2.document)
      else cmd.redo virtuals p.2.document) = redone
    have hlength := length_replace hnonneg hlt redone
    unfold InRange above
    dsimp only
    split
    next hobsolete =>
      rw [if_pos hobsolete] at hlength
      omega
    next hlive =>
      rw [if_neg hlive] at hlength
      omega

theorem redo_above (virtuals : Virtuals C D) (p : ℤ × Core C D) (_ : InRange p)
    (hzero : above p = 0) :
  redo virtuals p = p
  := by
  apply redo_fixed
  apply command_eq_none
  unfold above at hzero
  omega

theorem undo_step (check : Bool) (virtuals : Virtuals C D) (p : ℤ × Core C D) (h : InRange p) :
  InRange (undo check virtuals p) ∧ (undo check virtuals p).1.toNat = p.1.toNat - 1
  := by
  rcases h with ⟨hnonneg, hle⟩
  rcases Int.lt_or_le (p.1 - 1) 0 with hneg | hcommand
  · rw [undo_fixed (command_eq_none (Or.inl hneg))]
    constructor
    · exact ⟨hnonneg, hle⟩
    · omega
  · have hlt : p.1 - 1 < p.2.command_list.length := by omega
    obtain ⟨cmd, hcmd⟩ := command_eq_some hcommand hlt
    rw [undo_eq hcmd rfl]
    generalize (if (check && cmd.isObsolete) = true then (cmd, p.2.document)
      else cmd.undo virtuals p.2.document) = undone
    have hlength := length_replace hcommand hlt undone
    unfold InRange
    dsimp only
    split at hlength
    · omega
    · omega

theorem undo_zero (check : Bool) (virtuals : Virtuals C D) (p : ℤ × Core C D) (_ : InRange p)
    (hzero : p.1.toNat = 0) :
  undo check virtuals p = p
  := by
  apply undo_fixed
  apply command_eq_none
  omega

end Core

theorem redo_iterate (hclosed : q.macro_stack = 0) (h : Core.InRange q.indexed)
    (virtuals : Virtuals C D) (n : ℕ) :
  ((QUndoStack.redo virtuals)^[n] q).indexed = (Core.redo virtuals)^[n] q.indexed
  := by
  induction n generalizing q with
  | zero => rfl
  | succ n ih =>
    obtain ⟨hstep, hmacro⟩ := redo_indexed hclosed h virtuals
    rw [Function.iterate_succ_apply, Function.iterate_succ_apply, ← hstep]
    apply ih hmacro
    rw [hstep]
    exact (Core.redo_step virtuals q.indexed h).1

theorem undo_iterate (hclosed : q.macro_stack = 0) (h : Core.InRange q.indexed)
    (virtuals : Virtuals C D) (n : ℕ) :
  ((QUndoStack.undo virtuals)^[n] q).indexed = (Core.undo true virtuals)^[n] q.indexed
  := by
  induction n generalizing q with
  | zero => rfl
  | succ n ih =>
    obtain ⟨hstep, hmacro⟩ := undo_indexed hclosed h virtuals
    rw [Function.iterate_succ_apply, Function.iterate_succ_apply, ← hstep]
    apply ih hmacro
    rw [hstep]
    exact (Core.undo_step true virtuals q.indexed h).1

theorem Core.undo_iterate_index (check : Bool) (virtuals : Virtuals C D) (n : ℕ) (h : InRange p)
    (hn : n ≤ p.1.toNat) :
  ((Core.undo check virtuals)^[n] p).1 = p.1 - n
  := by
  induction n generalizing p with
  | zero =>
    rw [Function.iterate_zero_apply]
    omega
  | succ n ih =>
    obtain ⟨hnext, hindex⟩ := undo_step check virtuals p h
    rw [Function.iterate_succ_apply, ih hnext (by omega)]
    have hnonneg := hnext.1
    omega

/-- Jumping up repeats the step up. -/
theorem setIndex_up (hclosed : q.macro_stack = 0) (h : Core.InRange q.indexed)
    (virtuals : Virtuals C D) {target : ℤ} (hup : q.index < target) :
  (q.setIndex virtuals target).indexed
    = (Core.redo virtuals)^[(target - q.index).toNat] q.indexed
  := by
  have hnonneg : 0 ≤ q.index := h.1
  have hle : q.index ≤ q.count := h.2
  have hsteps : (Core.redo virtuals)^[(target - q.index).toNat] q.indexed
      = (Core.redo virtuals)^[(min target q.count - q.index).toNat] q.indexed := by
    rw [iterate_min (Core.redo_step virtuals) (Core.redo_above virtuals) h]
    congr 2
    change min (target - q.index).toNat (q.count - q.index).toNat = _
    omega
  have hclamp : (if target < 0 then 0 else if q.count < target then q.count else target)
      = min target q.count := by
    split
    · omega
    · split
      · omega
      · omega
  unfold QUndoStack.setIndex
  rw [if_neg (not_not.mpr hclosed), hclamp, hsteps]
  dsimp only
  split
  next =>
    obtain ⟨hkept, hindex, -⟩ := setIndexPrivate_core
      (redoLoop virtuals (min target q.count - q.index).toNat q.index q).2
      (redoLoop virtuals (min target q.count - q.index).toNat q.index q).1
    rw [indexed, hkept, hindex]
    exact (redoLoop_core virtuals _ q.index q).1
  next hend =>
    have hnone : q.index = min target q.count := by omega
    rw [← hnone, Int.sub_self]
    obtain ⟨hkept, hindex, -⟩ := setIndexPrivate_core q q.index
    rw [Int.toNat_zero, Function.iterate_zero_apply, undoLoop, indexed, hkept, hindex]
    rfl

/-- Jumping down repeats the step down, without the check. -/
theorem setIndex_down (hclosed : q.macro_stack = 0) (h : Core.InRange q.indexed)
    (virtuals : Virtuals C D) {target : ℤ} (hdown : target ≤ q.index) :
  (q.setIndex virtuals target).indexed
    = (Core.undo false virtuals)^[(q.index - target).toNat] q.indexed
  := by
  have hnonneg : 0 ≤ q.index := h.1
  have hle : q.index ≤ q.count := h.2
  have hsteps : (Core.undo false virtuals)^[(q.index - target).toNat] q.indexed
      = (Core.undo false virtuals)^[(q.index - max target 0).toNat] q.indexed := by
    rw [iterate_min (Core.undo_step false virtuals) (Core.undo_zero false virtuals) h]
    congr 2
    change min (q.index - target).toNat q.index.toNat = _
    omega
  have hclamp : (if target < 0 then 0 else if q.count < target then q.count else target)
      = max target 0 := by
    split
    · omega
    · split
      · omega
      · omega
  unfold QUndoStack.setIndex
  rw [if_neg (not_not.mpr hclosed), hclamp, hsteps]
  dsimp only
  rw [if_neg (by omega)]
  obtain ⟨hkept, hindex, -⟩ := setIndexPrivate_core
    (undoLoop virtuals (q.index - max target 0).toNat q.index q) (max target 0)
  rw [indexed, hkept, hindex, (undoLoop_core virtuals _ q.index q).1]
  have hend := Core.undo_iterate_index false virtuals (q.index - max target 0).toNat h
    (by change _ ≤ q.index.toNat; omega)
  apply Prod.ext
  · rw [hend]
    change max target 0 = q.index - _
    omega
  · rfl

/-! ### The calls -/

section Calls

variable {C D : Type} (virtuals : Virtuals C D)

mutual

/-- Undoing a command calls every command of the application in it. -/
theorem length_undo_recorded :
    ∀ (cmd : QUndoCommand C) (document : D × List (VirtualCall C)),
      (cmd.undo virtuals.recorded document).2.2.length
        = document.2.length + cmd.leaves.length
  | .derived cmd, document => by
      rw [QUndoCommand.undo, QUndoCommand.leaves]
      exact List.length_append
  | .base text child_list, document => by
      rw [QUndoCommand.undo, QUndoCommand.leaves]
      exact length_undoAll_recorded child_list document

theorem length_undoAll_recorded :
    ∀ (cmds : List (QUndoCommand C)) (document : D × List (VirtualCall C)),
      (QUndoCommand.undoAll virtuals.recorded cmds document).2.2.length
        = document.2.length + (QUndoCommand.leavesAll cmds).length
  | [], document => by
      rw [QUndoCommand.undoAll, QUndoCommand.leavesAll]
      rfl
  | cmd :: rest, document => by
      rw [QUndoCommand.undoAll, QUndoCommand.leavesAll]
      dsimp only
      rw [length_undo_recorded cmd, length_undoAll_recorded rest, List.length_append]
      omega

end

end Calls

theorem leaves_obsolete (h : cmd.isObsolete = true) :
  cmd.leaves.length = 1
  := by
  cases cmd with
  | derived cmd =>
    rw [QUndoCommand.leaves]
    rfl
  | base text child_list => cases h

namespace Core

/-- A command that is obsolete is among the `n` below the index. -/
def ObsoleteBelow (n : ℕ) (p : ℤ × Core C D) : Prop :=
  ∃ i cmd, p.1 - n ≤ i ∧ i < p.1 ∧ p.2.command i = some cmd ∧ cmd.isObsolete = true

/-- Without an obsolete command below the index, the check makes no difference. -/
theorem undo_iterate_eq (virtuals : Virtuals C D) (n : ℕ) {p : ℤ × Core C D}
    (h : ¬ ObsoleteBelow n p) :
  (undo false virtuals)^[n] p = (undo true virtuals)^[n] p
  := by
  induction n generalizing p with
  | zero => rfl
  | succ n ih =>
    rw [Function.iterate_succ_apply, Function.iterate_succ_apply]
    cases hcmd : p.2.command (p.1 - 1) with
    | none =>
      rw [undo_fixed hcmd, undo_fixed hcmd]
      apply ih
      rintro ⟨i, cmd, hfrom, hbelow, hat⟩
      exact h ⟨i, cmd, by omega, hbelow, hat⟩
    | some cmd =>
      have hlive : cmd.isObsolete = false := by
        rw [← Bool.not_eq_true]
        intro hobsolete
        exact h ⟨p.1 - 1, cmd, by omega, by omega, hcmd, hobsolete⟩
      have hsame : undo false virtuals p = undo true virtuals p := by
        rw [undo_eq hcmd rfl, undo_eq hcmd rfl, hlive]
        rfl
      rw [hsame]
      apply ih
      rw [undo_eq hcmd rfl]
      rintro ⟨i, other, hfrom, hbelow, hat, hobsolete⟩
      dsimp only at hfrom hbelow hat
      rw [command_replace _ _ hbelow] at hat
      exact h ⟨i, other, by omega, by omega, hat, hobsolete⟩

/-- The calls that are recorded. -/
def calls (c : Core C (D × List (VirtualCall C))) : List (VirtualCall C) :=
  c.document.2

theorem calls_replace (c : Core C (D × List (VirtualCall C))) (idx : ℤ)
    (done : QUndoCommand C × D × List (VirtualCall C)) :
  (c.replace idx done).calls = done.2.2
  := by
  rw [calls, replace_document]

/-- With the check there are fewer calls if a command below the index is obsolete. -/
theorem undo_iterate_calls (virtuals : Virtuals C D) (n : ℕ)
    {i : ℤ} {c c' : Core C (D × List (VirtualCall C))} (h : InRange (i, c))
    (hsame : ∀ j < i, c'.command j = c.command j)
    (hcalls : c'.calls.length ≤ c.calls.length) :
  ((undo true virtuals.recorded)^[n] (i, c')).2.calls.length
      ≤ ((undo false virtuals.recorded)^[n] (i, c)).2.calls.length
    ∧ (c'.calls.length < c.calls.length ∨ ObsoleteBelow n (i, c) →
      ((undo true virtuals.recorded)^[n] (i, c')).2.calls.length
        < ((undo false virtuals.recorded)^[n] (i, c)).2.calls.length)
  := by
  induction n generalizing i c c' with
  | zero =>
    constructor
    · exact hcalls
    · rintro (hlt | ⟨j, cmd, hfrom, hbelow, -⟩)
      · exact hlt
      · dsimp only at hfrom hbelow
        omega
  | succ n ih =>
    rw [Function.iterate_succ_apply, Function.iterate_succ_apply]
    have hat_same := hsame (i - 1) (by omega)
    have hlength : i ≤ c.command_list.length := h.2
    cases hcmd : c.command (i - 1) with
    | none =>
      have hstep : undo false virtuals.recorded (i, c) = (i, c) := undo_fixed hcmd
      have hstep' : undo true virtuals.recorded (i, c') = (i, c') :=
        undo_fixed (hat_same.trans hcmd)
      rw [hstep, hstep']
      obtain ⟨hle, hlt⟩ := ih h hsame hcalls
      constructor
      · exact hle
      · intro hor
        apply hlt
        rcases hor with hfewer | ⟨j, cmd, -, hbelow, hat, -⟩
        · exact Or.inl hfewer
        · exfalso
          have hnonneg := (command_range hat).1
          dsimp only at hbelow
          have hcommand : 0 ≤ i - 1 := by omega
          have hlt : i - 1 < c.command_list.length := by omega
          obtain ⟨other, hother⟩ := command_eq_some hcommand hlt
          rw [hcmd] at hother
          cases hother
    | some cmd =>
      have hstep : undo false virtuals.recorded (i, c)
          = (i - 1, c.replace (i - 1) (cmd.undo virtuals.recorded c.document)) :=
        undo_eq hcmd rfl
      have hstep' : undo true virtuals.recorded (i, c')
          = (i - 1, c'.replace (i - 1) (if cmd.isObsolete then (cmd, c'.document)
            else cmd.undo virtuals.recorded c'.document)) :=
        undo_eq (hat_same.trans hcmd) rfl
      have hnext := (undo_step false virtuals.recorded (i, c) h).1
      rw [hstep] at hnext ⊢
      rw [hstep']
      have hdone : (c.replace (i - 1) (cmd.undo virtuals.recorded c.document)).calls.length
          = c.calls.length + cmd.leaves.length := by
        rw [calls_replace, length_undo_recorded]
        rfl
      have hdone' : (c'.replace (i - 1) (if cmd.isObsolete then (cmd, c'.document)
            else cmd.undo virtuals.recorded c'.document)).calls.length
          = if cmd.isObsolete then c'.calls.length
            else c'.calls.length + cmd.leaves.length := by
        rw [calls_replace]
        split
        · rfl
        · rw [length_undo_recorded]
          rfl
      have hfewer : (c'.calls.length < c.calls.length ∨ cmd.isObsolete = true →
          (c'.replace (i - 1) (if cmd.isObsolete then (cmd, c'.document)
            else cmd.undo virtuals.recorded c'.document)).calls.length
          < (c.replace (i - 1) (cmd.undo virtuals.recorded c.document)).calls.length)
          ∧ (c'.replace (i - 1) (if cmd.isObsolete then (cmd, c'.document)
            else cmd.undo virtuals.recorded c'.document)).calls.length
          ≤ (c.replace (i - 1) (cmd.undo virtuals.recorded c.document)).calls.length := by
        rw [hdone, hdone']
        cases hobsolete : cmd.isObsolete with
        | true =>
          rw [if_pos rfl, leaves_obsolete hobsolete]
          omega
        | false =>
          rw [if_neg Bool.false_ne_true]
          constructor
          · rintro (hlt | hfalse)
            · omega
            · cases hfalse
          · omega
      obtain ⟨hle, hlt⟩ := ih hnext (fun j hj => by
        rw [command_replace _ _ hj, command_replace _ _ hj]
        exact hsame j (by omega)) hfewer.2
      constructor
      · exact hle
      · rintro (hbefore | ⟨j, other, hfrom, hbelow, hat, hobsolete⟩)
        · exact hlt (Or.inl (hfewer.1 (Or.inl hbefore)))
        · dsimp only at hfrom hbelow hat
          rcases eq_or_ne j (i - 1) with rfl | hne
          · rw [hcmd] at hat
            cases hat
            exact hlt (Or.inl (hfewer.1 (Or.inr hobsolete)))
          · apply hlt
            right
            refine ⟨j, other, ?_, ?_, ?_, hobsolete⟩
            · dsimp only
              omega
            · dsimp only
              omega
            · dsimp only
              rw [command_replace _ _ (by omega)]
              exact hat

end Core

/-! ### Jumping -/

/-- Call `undo` or `redo` as often as the target is away from the index. -/
def stepTo (virtuals : Virtuals C D) (q : QUndoStack C D) (target : ℤ) : QUndoStack C D :=
  if target ≤ q.index then (QUndoStack.undo virtuals)^[(q.index - target).toNat] q
  else (QUndoStack.redo virtuals)^[(target - q.index).toNat] q

/-- Jumping calls the same functions on the same commands as stepping and ends with the same
commands, index and clean index just when no command that is to be undone is obsolete already. -/
theorem setIndex_eq_stepTo_iff (virtuals : Virtuals C D)
    (q : QUndoStack C (D × List (VirtualCall C))) (target : ℤ) (h_closed : q.macro_stack = 0)
    (h_nonneg : 0 ≤ q.index) (h_le : q.index ≤ q.count) :
  ((q.setIndex virtuals.recorded target).document.2 = (q.stepTo virtuals.recorded target).document.2
      ∧ (q.setIndex virtuals.recorded target).command_list
        = (q.stepTo virtuals.recorded target).command_list
      ∧ (q.setIndex virtuals.recorded target).index = (q.stepTo virtuals.recorded target).index
      ∧ (q.setIndex virtuals.recorded target).clean_index
        = (q.stepTo virtuals.recorded target).clean_index)
    ↔ ∀ i cmd, target ≤ i → i < q.index → q.command i = some cmd → cmd.isObsolete = false
  := by
  have h : Core.InRange q.indexed := ⟨h_nonneg, h_le⟩
  have h_same : (q.setIndex virtuals.recorded target).indexed
      = (q.stepTo virtuals.recorded target).indexed →
      (q.setIndex virtuals.recorded target).document.2
          = (q.stepTo virtuals.recorded target).document.2
        ∧ (q.setIndex virtuals.recorded target).command_list
          = (q.stepTo virtuals.recorded target).command_list
        ∧ (q.setIndex virtuals.recorded target).index = (q.stepTo virtuals.recorded target).index
        ∧ (q.setIndex virtuals.recorded target).clean_index
          = (q.stepTo virtuals.recorded target).clean_index := by
    intro h_eq
    have h_index := congrArg Prod.fst h_eq
    have h_core := congrArg Prod.snd h_eq
    have h_list := congrArg Core.command_list h_core
    have h_clean := congrArg Core.clean_index h_core
    have h_calls := congrArg Core.calls h_core
    exact ⟨h_calls, h_list, h_index, h_clean⟩
  rcases Int.lt_or_le q.index target with h_up | h_down
  · constructor
    · intro _ i cmd h_from h_below
      omega
    · intro _
      apply h_same
      rw [stepTo, if_neg (by omega), setIndex_up h_closed h _ h_up, redo_iterate h_closed h]
  · have h_jump := setIndex_down h_closed h virtuals.recorded h_down
    have h_step : (q.stepTo virtuals.recorded target).indexed
        = (Core.undo true virtuals.recorded)^[(q.index - target).toNat] q.indexed := by
      rw [stepTo, if_pos h_down, undo_iterate h_closed h]
    constructor
    · rintro ⟨h_calls, -⟩ i cmd h_from h_below h_at
      rw [← Bool.not_eq_true]
      intro h_obsolete
      have h_fewer := (Core.undo_iterate_calls virtuals (q.index - target).toNat h
        (fun j _ => rfl) (le_refl _)).2
        (Or.inr ⟨i, cmd, by dsimp only; omega, h_below, h_at, h_obsolete⟩)
      have h_jump_calls := congrArg (fun p => p.2.calls.length) h_jump
      have h_step_calls := congrArg (fun p => p.2.calls.length) h_step
      have h_length := congrArg List.length h_calls
      change _ = (q.stepTo virtuals.recorded target).indexed.2.calls.length at h_length
      rw [h_step_calls] at h_length
      change (q.setIndex virtuals.recorded target).indexed.2.calls.length = _ at h_length
      rw [h_jump_calls] at h_length
      exact absurd h_length (ne_of_gt h_fewer)
    · intro h_live
      apply h_same
      rw [h_jump, h_step]
      apply Core.undo_iterate_eq
      rintro ⟨i, cmd, h_from, h_below, h_at, h_obsolete⟩
      dsimp only [indexed] at h_from h_below h_at
      rw [h_live i cmd (by omega) h_below h_at] at h_obsolete
      cases h_obsolete

/-- A stack with commands that are all redone. -/
def linesStack (cmds : List AppendLine) :
    QUndoStack AppendLine (List String × List (VirtualCall AppendLine)) :=
  let q : QUndoStack AppendLine (List String × List (VirtualCall AppendLine)) :=
    new (cmds.map AppendLine.line, [])
  { q with command_list := cmds.map .derived, index := cmds.length }

/-- Two lines are taken back. -/
theorem setIndex_eq_stepTo_append :
  ((linesStack [⟨"a", false, false⟩, ⟨"b", true, false⟩]).setIndex
      AppendLine.virtuals.recorded 0).document.2
    = ((linesStack [⟨"a", false, false⟩, ⟨"b", true, false⟩]).stepTo
      AppendLine.virtuals.recorded 0).document.2
  := by
  have h := (setIndex_eq_stepTo_iff AppendLine.virtuals
    (linesStack [⟨"a", false, false⟩, ⟨"b", true, false⟩]) 0 rfl (by decide) (by decide)).mpr
  apply And.left
  apply h
  intro i cmd h_from h_below h_at
  have h_index : (linesStack [⟨"a", false, false⟩, ⟨"b", true, false⟩]).index = 2 := rfl
  have h_place : i = 0 ∨ i = 1 := by omega
  rcases h_place with rfl | rfl
  · cases h_at
    rfl
  · cases h_at
    rfl

/-- The command below the index has been made obsolete: jumping calls it, stepping does not. -/
theorem setIndex_obsolete :
  ((linesStack [⟨"a", false, true⟩]).setIndex AppendLine.virtuals.recorded 0).document.2
      = [.undo ⟨"a", false, true⟩]
    ∧ ((linesStack [⟨"a", false, true⟩]).stepTo AppendLine.virtuals.recorded 0).document.2 = []
  := ⟨rfl, rfl⟩

end QUndoStack
