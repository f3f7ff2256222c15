import BobUI.Gui.Util.UndoStack
import Mathlib.Tactic.Linarith

/-!
# What the signals of the undo stack say

The values that the signals announce are those of the stack whenever no macro is open, in a run
without the two kinds of calls that change the stack without a signal.
-/

namespace QUndoStack

/-! ### The values that are announced -/

/-- The values that the signals have announced last. -/
structure Announced where
  index : ℤ
  canUndo : Bool
  canRedo : Bool
  undoText : String
  redoText : String
  clean : Bool

def Announced.hear (a : Announced) : QUndoSignal → Announced
  | .indexChanged idx => { a with index := idx }
  | .canUndoChanged canUndo => { a with canUndo := canUndo }
  | .canRedoChanged canRedo => { a with canRedo := canRedo }
  | .undoTextChanged undoText => { a with undoText := undoText }
  | .redoTextChanged redoText => { a with redoText := redoText }
  | .cleanChanged clean => { a with clean := clean }

variable {C D : Type}

/-- The values announced last, from those of an empty stack on. -/
def announced (q : QUndoStack C D) : Announced :=
  q.emitted.foldl Announced.hear ⟨0, false, false, "", "", true⟩

@[simp]
theorem announced_emit (q : QUndoStack C D) (signal : QUndoSignal) :
  (q.emit signal).announced = q.announced.hear signal
  := by
  rw [announced, emit, List.foldl_append]
  rfl

variable [UserCommand C]

/-- The values announced last are those of the stack. -/
structure Tracks (q : QUndoStack C D) : Prop where
  index : q.announced.index = q.index
  canUndo : q.announced.canUndo = q.canUndo
  canRedo : q.announced.canRedo = q.canRedo
  undoText : q.announced.undoText = q.undoText
  redoText : q.announced.redoText = q.redoText
  clean : q.announced.clean = q.isClean

/-! ### Setting the index -/

theorem announceUndo_eq (q : QUndoStack C D) (indexChanged : Bool)
    (h : indexChanged = false → q.undoActionState = ⟨q.canUndo, q.undoText⟩ →
      q.announced.canUndo = q.canUndo ∧ q.announced.undoText = q.undoText) :
  ∃ state emitted,
    q.announceUndo indexChanged = { q with undoActionState := state, emitted := emitted }
    ∧ (q.announceUndo indexChanged).announced
      = { q.announced with canUndo := q.canUndo, undoText := q.undoText }
  := by
  unfold announceUndo
  dsimp only
  split
  next =>
    refine ⟨_, _, rfl, ?_⟩
    rw [announced_emit, announced_emit]
    rfl
  next hsame =>
    simp only [Bool.or_eq_true, decide_eq_true_eq, not_or, Bool.not_eq_true, ne_eq, not_not]
      at hsame
    obtain ⟨hcanUndo, hundoText⟩ := h hsame.1 hsame.2.symm
    refine ⟨_, _, rfl, ?_⟩
    rw [← hcanUndo, ← hundoText]

theorem announceRedo_eq (q : QUndoStack C D) (indexChanged : Bool)
    (h : indexChanged = false → q.redoActionState = ⟨q.canRedo, q.redoText⟩ →
      q.announced.canRedo = q.canRedo ∧ q.announced.redoText = q.redoText) :
  ∃ emitted,
    q.announceRedo indexChanged
      = { q with redoActionState := ⟨q.canRedo, q.redoText⟩, emitted := emitted }
    ∧ (q.announceRedo indexChanged).announced
      = { q.announced with canRedo := q.canRedo, redoText := q.redoText }
  := by
  unfold announceRedo
  dsimp only
  split
  next =>
    refine ⟨_, rfl, ?_⟩
    rw [announced_emit, announced_emit]
    rfl
  next hsame =>
    simp only [Bool.or_eq_true, decide_eq_true_eq, not_or, Bool.not_eq_true, ne_eq, not_not]
      at hsame
    obtain ⟨hcanRedo, hredoText⟩ := h hsame.1 hsame.2.symm
    refine ⟨q.emitted, ?_, ?_⟩
    · rw [hsame.2]
    · rw [← hcanRedo, ← hredoText]

/-- What is announced when the index is set, if what is not announced is the same as before. -/
theorem setIndexPrivate_eq (q : QUndoStack C D) (idx : ℤ) (clean : Bool)
    (hindex : idx = q.index → q.announced.index = q.index)
    (hclean : q.announced.clean = decide (q.index = q.clean_index))
    (hundo : idx = q.index → q.undoActionState = ⟨q.canUndo, q.undoText⟩ →
      q.announced.canUndo = q.canUndo ∧ q.announced.undoText = q.undoText)
    (hredo : idx = q.index → q.redoActionState = ⟨q.canRedo, q.redoText⟩ →
      q.announced.canRedo = q.canRedo ∧ q.announced.redoText = q.redoText) :
  ∃ state emitted,
    q.setIndexPrivate idx clean
      = { q with
        index := idx
        clean_index := if clean then idx else q.clean_index
        undoActionState := state
        redoActionState :=
          ⟨{ q with index := idx }.canRedo, { q with index := idx }.redoText⟩
        emitted := emitted }
    ∧ (q.setIndexPrivate idx clean).announced
      = ⟨idx, { q with index := idx }.canUndo, { q with index := idx }.canRedo,
        { q with index := idx }.undoText, { q with index := idx }.redoText,
        decide (idx = if clean then idx else q.clean_index)⟩
  := by
  have hmoved : ∃ emitted,
      (if decide (idx ≠ q.index) = true then { q with index := idx }.emit (.indexChanged idx)
        else q) = { q with index := idx, emitted := emitted }
      ∧ (if decide (idx ≠ q.index) = true then { q with index := idx }.emit (.indexChanged idx)
        else q).announced = { q.announced with index := idx } := by
    by_cases h : idx = q.index
    · rw [if_neg (by rw [decide_eq_true_eq]; exact not_not.mpr h)]
      refine ⟨q.emitted, by rw [h], ?_⟩
      rw [h, ← hindex h]
    · rw [if_pos (decide_eq_true h)]
      refine ⟨_, rfl, ?_⟩
      rw [announced_emit]
      rfl
  obtain ⟨e₁, hq₁, ha₁⟩ := hmoved
  unfold setIndexPrivate
  dsimp only
  rw [hq₁] at ha₁ ⊢
  obtain ⟨state, e₂, hq₂, ha₂⟩ := announceUndo_eq { q with index := idx, emitted := e₁ }
    (decide (idx ≠ q.index)) (by
      intro hsame hstate
      have heq : idx = q.index := not_not.mp (of_decide_eq_false hsame)
      rw [ha₁]
      subst heq
      exact hundo rfl hstate)
  rw [hq₂] at ha₂ ⊢
  obtain ⟨e₃, hq₃, ha₃⟩ := announceRedo_eq
    { q with index := idx, undoActionState := state, emitted := e₂ }
    (decide (idx ≠ q.index)) (by
      intro hsame hstate
      have heq : idx = q.index := not_not.mp (of_decide_eq_false hsame)
      rw [ha₂, ha₁]
      subst heq
      exact hredo rfl hstate)
  rw [hq₃] at ha₃ ⊢
  rw [ha₂, ha₁] at ha₃
  have hset : ∀ r : QUndoStack C D, (if clean = true then { r with clean_index := r.index } else r)
      = { r with clean_index := if clean then r.index else r.clean_index } := by
    intro r
    split
    · rfl
    · rfl
  rw [hset]
  dsimp only
  change e₃.foldl Announced.hear ⟨0, false, false, "", "", true⟩ = _ at ha₃
  by_cases hdiffers : decide (idx = if clean = true then idx else q.clean_index)
      ≠ decide (q.index = q.clean_index)
  · rw [if_pos hdiffers]
    refine ⟨state, _, rfl, ?_⟩
    rw [announced_emit]
    change (e₃.foldl Announced.hear ⟨0, false, false, "", "", true⟩).hear _ = _
    rw [ha₃]
    rfl
  · rw [if_neg hdiffers]
    refine ⟨state, e₃, rfl, ?_⟩
    change e₃.foldl Announced.hear ⟨0, false, false, "", "", true⟩ = _
    rw [ha₃, not_not.mp hdiffers, ← hclean]
    rfl

/-! ### The invariant -/

/-- The signals have announced the index and the clean state, and also the commands next to the
index if no macro is open.  An open macro is the command behind the index. -/
structure Synced (q : QUndoStack C D) : Prop where
  index_nonneg : 0 ≤ q.index
  index_le : q.index ≤ q.count
  open_last : q.macro_stack ≠ 0 → q.index + 1 = q.count
  index : q.announced.index = q.index
  clean : q.announced.clean = decide (q.index = q.clean_index)
  undo : q.macro_stack = 0 → q.announced.canUndo = q.canUndo ∧ q.announced.undoText = q.undoText
  redo : q.macro_stack = 0 → q.announced.canRedo = q.canRedo ∧ q.announced.redoText = q.redoText
  redo_state : q.macro_stack = 0 → q.index < q.count →
    q.redoActionState = ⟨q.announced.canRedo, q.announced.redoText⟩

variable {q : QUndoStack C D}

theorem Synced.tracks (h : q.Synced) (hdepth : q.macro_stack = 0) :
  q.Tracks
  := by
  refine ⟨h.index, (h.undo hdepth).1, (h.redo hdepth).1, (h.undo hdepth).2,
    (h.redo hdepth).2, ?_⟩
  rw [h.clean, isClean, if_neg (not_not.mpr hdepth)]
  exact decide_eq_decide.mpr eq_comm

theorem synced_new (document : D) :
  (new document : QUndoStack C D).Synced
  := by
  refine ⟨Int.le_refl 0, Int.le_refl 0, ?_, rfl, rfl, fun _ => ⟨rfl, rfl⟩, fun _ => ⟨rfl, rfl⟩, ?_⟩
  · intro h
    exact absurd rfl h
  · intro _ h
    exact absurd h (Int.lt_irrefl 0)

/-- Setting the index announces what it changes. -/
theorem synced_setIndexPrivate {idx : ℤ} {clean : Bool} (hdepth : q.macro_stack = 0)
    (hnonneg : 0 ≤ idx) (hle : idx ≤ q.count)
    (hindex : idx = q.index → q.announced.index = q.index)
    (hclean : q.announced.clean = decide (q.index = q.clean_index))
    (hundo : idx = q.index → q.undoActionState = ⟨q.canUndo, q.undoText⟩ →
      q.announced.canUndo = q.canUndo ∧ q.announced.undoText = q.undoText)
    (hredo : idx = q.index → q.redoActionState = ⟨q.canRedo, q.redoText⟩ →
      q.announced.canRedo = q.canRedo ∧ q.announced.redoText = q.redoText) :
  (q.setIndexPrivate idx clean).Synced
  := by
  obtain ⟨state, emitted, hq, hannounced⟩ :=
    setIndexPrivate_eq q idx clean hindex hclean hundo hredo
  constructor
  · rw [hq]
    exact hnonneg
  · rw [hq]
    exact hle
  · rw [hq]
    intro h
    exact absurd hdepth h
  · rw [hannounced, hq]
  · rw [hannounced, hq]
  · rw [hannounced, hq]
    intro _
    exact ⟨rfl, rfl⟩
  · rw [hannounced, hq]
    intro _
    exact ⟨rfl, rfl⟩
  · rw [hannounced, hq]
    intro _ _
    rfl

/-- Another index announces everything. -/
theorem synced_setIndexPrivate_of_ne {idx : ℤ} {clean : Bool} (hdepth : q.macro_stack = 0)
    (hnonneg : 0 ≤ idx) (hle : idx ≤ q.count) (hne : idx ≠ q.index)
    (hclean : q.announced.clean = decide (q.index = q.clean_index)) :
  (q.setIndexPrivate idx clean).Synced
  := synced_setIndexPrivate hdepth hnonneg hle (fun h => absurd h hne) hclean
    (fun h => absurd h hne) (fun h => absurd h hne)

omit [UserCommand C] in
/-- The limit deletes commands below the index only. -/
theorem checkUndoLimit_eq (hnonneg : 0 ≤ q.index) (hcount : q.index + 1 = q.count) :
  ∃ list index clean,
    q.checkUndoLimit = { q with command_list := list, index := index, clean_index := clean }
    ∧ 0 ≤ index ∧ index + 1 = (list.length : ℤ)
    ∧ decide (index = clean) = decide (q.index = q.clean_index)
  := by
  unfold checkUndoLimit
  split
  next => exact ⟨_, _, _, rfl, hnonneg, hcount, rfl⟩
  next hlimit =>
    refine ⟨_, _, _, rfl, by omega, ?_, ?_⟩
    · rw [List.length_drop]
      unfold count at hcount hlimit ⊢
      omega
    · rw [decide_eq_decide]
      split
      next => omega
      next =>
        split
        next => omega
        next => omega

omit [UserCommand C] in
theorem takeObsolete_eq {i : ℤ} (hdepth : q.macro_stack = 0) (hnonneg : 0 ≤ q.index)
    (hclean : q.announced.clean = decide (q.index = q.clean_index)) :
  ∃ clean emitted,
    q.takeObsolete i = { q with
      command_list := q.command_list.eraseIdx i.toNat
      clean_index := clean
      emitted := emitted }
    ∧ (q.takeObsolete i).announced = { q.announced with clean := decide (q.index = clean) }
  := by
  unfold takeObsolete resetClean isClean
  dsimp only
  rw [if_neg (not_not.mpr hdepth)]
  split
  next hpast =>
    split
    next hwas =>
      refine ⟨-1, _, rfl, ?_⟩
      rw [announced_emit, decide_eq_false (by omega)]
      rfl
    next hwas =>
      refine ⟨-1, _, rfl, ?_⟩
      rw [decide_eq_true_eq] at hwas
      rw [decide_eq_false (Ne.symm hwas)] at hclean
      rw [decide_eq_false (by omega), ← hclean]
      rfl
  next =>
    refine ⟨q.clean_index, _, rfl, ?_⟩
    rw [← hclean]
    rfl

/-! ### The operations -/

omit [UserCommand C] in
theorem command_eq_some {idx : ℤ} {cmd : QUndoCommand C} (h : q.command idx = some cmd) :
  0 ≤ idx ∧ idx < q.count
  := by
  unfold command at h
  split at h
  next hnonneg =>
    have hlt := (List.getElem?_eq_some_iff.mp h).1
    unfold count
    omega
  next => cases h

/-- What can be undone depends on the commands below the index only. -/
theorem undoText_congr {r : QUndoStack C D} (hdepth : r.macro_stack = q.macro_stack)
    (hindex : r.index = q.index)
    (hlist : r.command_list.take q.index.toNat = q.command_list.take q.index.toNat) :
  r.canUndo = q.canUndo ∧ r.undoText = q.undoText
  := by
  unfold canUndo undoText
  rw [hdepth, hindex]
  refine ⟨rfl, ?_⟩
  split
  next => rfl
  next =>
    split
    next hpos =>
      have hcommand : r.command (q.index - 1) = q.command (q.index - 1) := by
        unfold command
        rw [if_pos (by omega), if_pos (by omega),
          ← List.getElem?_take_of_lt (l := r.command_list) (show _ < q.index.toNat by omega),
          ← List.getElem?_take_of_lt (l := q.command_list) (show _ < q.index.toNat by omega), hlist]
      rw [hcommand]
    next => rfl

theorem Synced.undo_synced (h : q.Synced) (virtuals : Virtuals C D) :
  (q.undo virtuals).Synced
  := by
  unfold QUndoStack.undo
  split
  next => exact h
  next hindex =>
    split
    next => exact h
    next hdepth =>
      have hclosed := not_not.mp hdepth
      have hnonneg := h.index_nonneg
      have hle := h.index_le
      have hne : q.index - 1 ≠ q.index := by omega
      dsimp only
      cases hcmd : q.command (q.index - 1) with
      | none => exact h
      | some cmd =>
        dsimp only
        generalize (if cmd.isObsolete = true then (cmd, q.document)
          else cmd.undo virtuals q.document) = undone
        split
        next =>
          obtain ⟨clean, emitted, heq, hannounced⟩ := takeObsolete_eq
            (q := q.setCommand (q.index - 1) undone) (i := q.index - 1) hclosed hnonneg
            h.clean
          rw [heq] at hannounced ⊢
          refine synced_setIndexPrivate_of_ne hclosed (by omega) ?_ hne ?_
          · unfold count at hle ⊢
            dsimp only [setCommand]
            rw [List.length_eraseIdx_of_lt (by rw [List.length_set]; omega), List.length_set]
            omega
          · rw [hannounced]
        next =>
          refine synced_setIndexPrivate_of_ne hclosed (by omega) ?_ hne h.clean
          unfold count at hle ⊢
          dsimp only [setCommand]
          rw [List.length_set]
          omega

theorem Synced.redo_synced (h : q.Synced) (virtuals : Virtuals C D) :
  (q.redo virtuals).Synced
  := by
  unfold QUndoStack.redo
  split
  next => exact h
  next hindex =>
    split
    next => exact h
    next hdepth =>
      have hclosed := not_not.mp hdepth
      have hnonneg := h.index_nonneg
      have hle := h.index_le
      have hlt : q.index < q.count := by omega
      dsimp only
      cases hcmd : q.command q.index with
      | none => exact h
      | some cmd =>
        dsimp only
        generalize (if cmd.isObsolete = true then (cmd, q.document)
          else cmd.redo virtuals q.document) = redone
        split
        next =>
          -- The index stays, so that the signals depend on the state that was stored.
          obtain ⟨clean, emitted, heq, hannounced⟩ := takeObsolete_eq
            (q := q.setCommand q.index redone) (i := q.index) hclosed hnonneg h.clean
          rw [heq] at hannounced ⊢
          refine synced_setIndexPrivate hclosed hnonneg ?_ (fun _ => ?_) ?_
            (fun _ _ => ?_) (fun _ hstate => ?_)
          · unfold count at hlt ⊢
            dsimp only [setCommand]
            rw [List.length_eraseIdx_of_lt (by rw [List.length_set]; omega), List.length_set]
            omega
          · rw [hannounced]
            exact h.index
          · rw [hannounced]
          · rw [hannounced]
            have hundo := undoText_congr (q := q) (r := { q.setCommand q.index redone with
              command_list := (q.setCommand q.index redone).command_list.eraseIdx q.index.toNat
              clean_index := clean
              emitted := emitted }) rfl rfl (by
                dsimp only [setCommand]
                rw [List.take_eraseIdx_eq_take_of_le _ _ _ (le_refl _), List.take_set_of_le (le_refl _)])
            rw [hundo.1, hundo.2]
            exact h.undo hclosed
          · rw [hannounced]
            have hcached := h.redo_state hclosed hlt
            exact ActionState.mk.inj (hcached.symm.trans hstate)
        next =>
          refine synced_setIndexPrivate_of_ne hclosed ?_ ?_ ?_ h.clean
          · change 0 ≤ q.index + 1
            omega
          · unfold count at hlt ⊢
            dsimp only [setCommand]
            rw [List.length_set]
            omega
          · change q.index + 1 ≠ q.index
            omega

/-- What a loop of `setIndex` keeps: the index, the signals but for the clean state, and the
commands below a position. -/
structure Kept (q r : QUndoStack C D) (below : ℤ) : Prop where
  macro_stack : r.macro_stack = q.macro_stack
  index : r.index = q.index
  undoActionState : r.undoActionState = q.undoActionState
  redoActionState : r.redoActionState = q.redoActionState
  announced : r.announced = { q.announced with clean := decide (q.index = r.clean_index) }
  list : r.command_list.take below.toNat = q.command_list.take below.toNat

omit [UserCommand C] in
theorem Kept.trans {r s : QUndoStack C D} {below : ℤ} (h : q.Kept r below) (h' : r.Kept s below) :
  q.Kept s below
  := by
  refine ⟨h'.macro_stack.trans h.macro_stack, h'.index.trans h.index,
    h'.undoActionState.trans h.undoActionState, h'.redoActionState.trans h.redoActionState, ?_,
    h'.list.trans h.list⟩
  rw [h'.announced, h.announced, h.index]

omit [UserCommand C] in
/-- A command at or above a position is executed, and deleted if it is obsolete then. -/
theorem kept_setCommand {b i : ℤ} (hbelow : b ≤ i) (hdepth : q.macro_stack = 0)
    (hnonneg : 0 ≤ q.index) (hclean : q.announced.clean = decide (q.index = q.clean_index))
    (done : QUndoCommand C × D) :
  q.Kept (q.setCommand i done) b ∧ q.Kept ((q.setCommand i done).takeObsolete i) b
  := by
  have htoNat : b.toNat ≤ i.toNat := Int.toNat_le_toNat hbelow
  have hset : q.Kept (q.setCommand i done) b := by
    refine ⟨rfl, rfl, rfl, rfl, ?_, ?_⟩
    · change q.announced = { q.announced with clean := decide (q.index = q.clean_index) }
      rw [← hclean]
    · exact List.take_set_of_le htoNat
  refine ⟨hset, ?_⟩
  obtain ⟨clean, emitted, heq, hannounced⟩ := takeObsolete_eq (q := q.setCommand i done)
    (i := i) hdepth hnonneg hclean
  rw [heq] at hannounced ⊢
  refine ⟨rfl, rfl, rfl, rfl, hannounced, ?_⟩
  dsimp only [setCommand]
  rw [List.take_eraseIdx_eq_take_of_le _ _ _ htoNat, List.take_set_of_le htoNat]

/-- The loop that redoes commands keeps those below the first one of them. -/
theorem redoLoop_kept (virtuals : Virtuals C D) {b : ℤ} {n : ℕ} {i : ℤ}
    (hbelow : b ≤ i) (hi : 0 ≤ i) (hle : i + n ≤ q.count) (hdepth : q.macro_stack = 0)
    (hnonneg : 0 ≤ q.index) (hclean : q.announced.clean = decide (q.index = q.clean_index)) :
  q.Kept (redoLoop virtuals n i q).2 b ∧ i ≤ (redoLoop virtuals n i q).1
    ∧ (redoLoop virtuals n i q).1 ≤ (redoLoop virtuals n i q).2.count
  := by
  have hrefl : q.Kept q b := by
    refine ⟨rfl, rfl, rfl, rfl, ?_, rfl⟩
    rw [← hclean]
  induction n generalizing q i with
  | zero => exact ⟨hrefl, le_refl _, by rw [redoLoop]; dsimp only; omega⟩
  | succ n ih =>
    rw [redoLoop]
    cases hcmd : q.command i with
    | none => exact ⟨hrefl, le_refl _, by dsimp only; omega⟩
    | some cmd =>
      have hlt := command_eq_some hcmd
      dsimp only
      generalize (if cmd.isObsolete = true then (cmd, q.document)
        else cmd.redo virtuals q.document) = redone
      obtain ⟨hset, htake⟩ := kept_setCommand hbelow hdepth hnonneg hclean redone
      unfold count at hlt hle ih
      have hlength : ((q.setCommand i redone).command_list.length : ℤ)
          = q.command_list.length := by
        dsimp only [setCommand]
        rw [List.length_set]
      split
      next =>
        obtain ⟨clean, emitted, heq, -⟩ := takeObsolete_eq (q := q.setCommand i redone)
          (i := i) hdepth hnonneg hclean
        have herased : (((q.setCommand i redone).takeObsolete i).command_list.length : ℤ)
            = q.command_list.length - 1 := by
          rw [heq]
          dsimp only
          rw [List.length_eraseIdx_of_lt (by omega)]
          omega
        obtain ⟨hkept, hge, hle⟩ := ih (q := (q.setCommand i redone).takeObsolete i) hbelow
          hi (by omega) (htake.macro_stack.trans hdepth) (htake.index ▸ hnonneg) (by
            rw [htake.announced, htake.index]) (by
            refine ⟨rfl, rfl, rfl, rfl, ?_, rfl⟩
            rw [htake.announced, htake.index])
        exact ⟨htake.trans hkept, hge, hle⟩
      next =>
        obtain ⟨hkept, hge, hle⟩ := ih (q := q.setCommand i redone) (i := i + 1)
          (by omega) (by omega) (by omega) (hset.macro_stack.trans hdepth)
          (hset.index ▸ hnonneg) (by rw [hset.announced, hset.index]) (by
            refine ⟨rfl, rfl, rfl, rfl, ?_, rfl⟩
            rw [hset.announced, hset.index])
        exact ⟨hset.trans hkept, by omega, hle⟩

/-- The loop that undoes commands keeps those below the last one of them. -/
theorem undoLoop_kept (virtuals : Virtuals C D) {n : ℕ} {i : ℤ} (hi : n ≤ i)
    (hle : i ≤ q.count) (hdepth : q.macro_stack = 0)
    (hnonneg : 0 ≤ q.index) (hclean : q.announced.clean = decide (q.index = q.clean_index)) :
  q.Kept (undoLoop virtuals n i q) (i - n) ∧ i - n ≤ (undoLoop virtuals n i q).count
  := by
  have hrefl : q.Kept q (i - n) := by
    refine ⟨rfl, rfl, rfl, rfl, ?_, rfl⟩
    rw [← hclean]
  induction n generalizing q i with
  | zero => exact ⟨hrefl, by rw [undoLoop]; omega⟩
  | succ n ih =>
    rw [undoLoop]
    cases hcmd : q.command (i - 1) with
    | none => exact ⟨hrefl, by dsimp only; omega⟩
    | some cmd =>
      have hlt := command_eq_some hcmd
      dsimp only
      generalize cmd.undo virtuals q.document = undone
      obtain ⟨hset, htake⟩ := kept_setCommand (b := i - (n + 1 : ℕ)) (i := i - 1)
        (by omega) hdepth hnonneg hclean undone
      unfold count at hlt hle ih
      have hlength : ((q.setCommand (i - 1) undone).command_list.length : ℤ)
          = q.command_list.length := by
        dsimp only [setCommand]
        rw [List.length_set]
      have hnext : i - 1 - (n : ℤ) = i - (n + 1 : ℕ) := by omega
      have hstep : ∃ r, r = (if undone.1.isObsolete = true then
          (q.setCommand (i - 1) undone).takeObsolete (i - 1)
          else q.setCommand (i - 1) undone) ∧ q.Kept r (i - (n + 1 : ℕ))
          ∧ i - 1 ≤ (r.command_list.length : ℤ) := by
        refine ⟨_, rfl, ?_⟩
        split
        next =>
          obtain ⟨clean, emitted, heq, -⟩ := takeObsolete_eq
            (q := q.setCommand (i - 1) undone) (i := i - 1) hdepth hnonneg hclean
          refine ⟨htake, ?_⟩
          rw [heq]
          dsimp only
          rw [List.length_eraseIdx_of_lt (by omega)]
          omega
        next => exact ⟨hset, by omega⟩
      obtain ⟨r, hr, hkept, hcount⟩ := hstep
      rw [← hr]
      have hrest := ih (q := r) (i := i - 1) (by omega) hcount
        (hkept.macro_stack.trans hdepth) (hkept.index ▸ hnonneg)
        (by rw [hkept.announced, hkept.index]) (by
          refine ⟨rfl, rfl, rfl, rfl, ?_, rfl⟩
          rw [hkept.announced, hkept.index])
      rw [hnext] at hrest
      exact ⟨hkept.trans hrest.1, hrest.2⟩

theorem Synced.setIndex_synced (h : q.Synced) (virtuals : Virtuals C D) (idx : ℤ) :
  (q.setIndex virtuals idx).Synced
  := by
  have hnonneg := h.index_nonneg
  have hle := h.index_le
  unfold QUndoStack.setIndex
  split
  next => exact h
  next hdepth =>
    have hclosed := not_not.mp hdepth
    dsimp only
    have hrange : ∃ target, (if idx < 0 then 0 else if q.count < idx then q.count else idx) = target
        ∧ 0 ≤ target ∧ target ≤ q.count := by
      refine ⟨_, rfl, ?_⟩
      split
      next => omega
      next =>
        split
        next => omega
        next => omega
    obtain ⟨target, htarget, hzero, hcount⟩ := hrange
    rw [htarget]
    split
    next hredo =>
      obtain ⟨hkept, hge, hend⟩ := redoLoop_kept virtuals (b := q.index)
        (n := (target - q.index).toNat) (le_refl q.index) hnonneg (by omega) hclosed hnonneg
        h.clean
      generalize redoLoop virtuals (target - q.index).toNat q.index q = redone at *
      have hundo := undoText_congr hkept.macro_stack hkept.index hkept.list
      refine synced_setIndexPrivate (hkept.macro_stack.trans hclosed) (by omega) hend
        (fun _ => ?_) ?_ (fun _ _ => ?_) (fun _ hstate => ?_)
      · rw [hkept.announced, hkept.index]
        exact h.index
      · rw [hkept.announced, hkept.index]
      · rw [hkept.announced, hundo.1, hundo.2]
        exact h.undo hclosed
      · rw [hkept.announced]
        have hcached := h.redo_state hclosed (by omega)
        rw [hkept.redoActionState] at hstate
        exact ActionState.mk.inj (hcached.symm.trans hstate)
    next hundo =>
      by_cases hsame : target = q.index
      · subst hsame
        rw [Int.sub_self]
        exact synced_setIndexPrivate hclosed hzero hcount (fun _ => h.index) h.clean
          (fun _ _ => h.undo hclosed) (fun _ _ => h.redo hclosed)
      · obtain ⟨hkept, hend⟩ := undoLoop_kept virtuals (n := (q.index - target).toNat)
          (i := q.index) (by omega) hle hclosed hnonneg h.clean
        rw [show q.index - ((q.index - target).toNat : ℤ) = target by omega] at hkept hend
        refine synced_setIndexPrivate_of_ne (hkept.macro_stack.trans hclosed) hzero hend
          (by rw [hkept.index]; exact hsame) ?_
        rw [hkept.announced, hkept.index]

theorem Synced.setClean_synced (h : q.Synced) :
  q.setClean.Synced
  := by
  unfold QUndoStack.setClean
  split
  next => exact h
  next hdepth =>
    have hclosed := not_not.mp hdepth
    exact synced_setIndexPrivate hclosed h.index_nonneg h.index_le (fun _ => h.index) h.clean
      (fun _ _ => h.undo hclosed) (fun _ _ => h.redo hclosed)

/-- The clean state is reset with a signal, unless a macro is open and the stack was clean before
it. -/
theorem Synced.resetClean_synced (h : q.Synced)
    (hclean : q.macro_stack = 0 ∨ q.index ≠ q.clean_index) :
  q.resetClean.Synced
  := by
  have hnonneg := h.index_nonneg
  unfold QUndoStack.resetClean
  dsimp only
  split
  next hwas =>
    refine ⟨h.index_nonneg, h.index_le, h.open_last, ?_, ?_, ?_, ?_, ?_⟩
    · rw [announced_emit]
      exact h.index
    · rw [announced_emit]
      exact (decide_eq_false (show q.index ≠ -1 by omega)).symm
    · rw [announced_emit]
      exact h.undo
    · rw [announced_emit]
      exact h.redo
    · rw [announced_emit]
      exact h.redo_state
  next hwas =>
    refine ⟨h.index_nonneg, h.index_le, h.open_last, h.index, ?_, h.undo, h.redo, h.redo_state⟩
    have hne : q.index ≠ q.clean_index := by
      rcases hclean with hclosed | hne
      · rw [isClean, if_neg (not_not.mpr hclosed), decide_eq_true_eq] at hwas
        exact Ne.symm hwas
      · exact hne
    have hbefore := h.clean
    rw [decide_eq_false hne] at hbefore
    exact hbefore.trans (decide_eq_false (show q.index ≠ -1 by omega)).symm

theorem Synced.clear_synced (h : q.Synced) :
  q.clear.Synced
  := by
  unfold QUndoStack.clear
  split
  next => exact h
  next =>
    dsimp only
    have hvalues : ∀ r : QUndoStack C D, r.announced = ⟨0, false, false, "", "", true⟩ →
        r.command_list = [] → r.macro_stack = 0 → r.index = 0 → r.clean_index = 0 → r.Synced := by
      intro r hannounced hlist hdepth hindex hclean
      have hcount : r.count = 0 := by
        rw [count, hlist]
        rfl
      refine ⟨by omega, by omega, fun hopen => absurd hdepth hopen, ?_, ?_, fun _ => ?_,
        fun _ => ?_, fun _ hlt => absurd hlt (by omega)⟩
      · rw [hannounced, hindex]
      · rw [hannounced, hindex, hclean]
        rfl
      · rw [hannounced, canUndo, undoText, hdepth, hindex]
        exact ⟨rfl, rfl⟩
      · rw [hannounced, canRedo, redoText, hdepth, hindex, hcount]
        exact ⟨rfl, rfl⟩
    split
    next hwas =>
      refine hvalues _ ?_ rfl rfl rfl rfl
      have hclean := h.clean
      rw [isClean] at hwas
      split at hwas
      next => cases hwas
      next =>
        rw [decide_eq_true_eq] at hwas
        rw [decide_eq_true hwas.symm] at hclean
        simp only [announced_emit, Announced.hear]
        change Announced.mk 0 false false "" "" q.announced.clean = _
        rw [hclean]
    next =>
      refine hvalues _ ?_ rfl rfl rfl rfl
      simp only [announced_emit, Announced.hear]

theorem Synced.setUndoLimit_synced (h : q.Synced) (limit : ℤ) :
  (q.setUndoLimit limit).Synced
  := by
  unfold QUndoStack.setUndoLimit
  split
  next => exact h
  next hempty =>
    split
    next => exact h
    next =>
      have hcount : q.count = 0 := by
        rw [count, not_not.mp hempty]
        rfl
      have hstay : { q with undo_limit := limit }.checkUndoLimit = { q with undo_limit := limit } := by
        unfold checkUndoLimit
        rw [if_pos]
        change limit ≤ 0 ∨ q.macro_stack ≠ 0 ∨ q.count ≤ limit
        omega
      rw [hstay]
      exact ⟨h.index_nonneg, h.index_le, h.open_last, h.index, h.clean, h.undo, h.redo,
        h.redo_state⟩

omit [UserCommand C] in
theorem length_modifyLastChildList (f : List (QUndoCommand C) → List (QUndoCommand C)) {n : ℕ}
    (h : n ≠ 0) (list : List (QUndoCommand C)) :
  (modifyLastChildList f n list).length = list.length
  := by
  cases n with
  | zero => exact absurd rfl h
  | succ n =>
    rw [modifyLastChildList]
    split
    next hlast =>
      have hpos := List.length_pos_of_mem (List.mem_of_getLast? hlast)
      rw [List.length_append, List.length_dropLast, List.length_singleton]
      omega
    next => rfl

/-- The commands of an open macro change. -/
theorem Synced.with_children (h : q.Synced) (hopen : q.macro_stack ≠ 0)
    (f : List (QUndoCommand C) → List (QUndoCommand C)) (document : D) :
  ({ q with
    document := document
    command_list := modifyLastChildList f q.macro_stack q.command_list } : QUndoStack C D).Synced
  := by
  have hcount : ({ q with
      document := document
      command_list := modifyLastChildList f q.macro_stack q.command_list } : QUndoStack C D).count
      = q.count := by
    unfold count
    dsimp only
    rw [length_modifyLastChildList f hopen]
  refine ⟨h.index_nonneg, ?_, ?_, h.index, h.clean, fun hdepth => absurd hdepth hopen,
    fun hdepth => absurd hdepth hopen, fun hdepth => absurd hdepth hopen⟩
  · rw [hcount]
    exact h.index_le
  · rw [hcount]
    exact h.open_last

/-- The command that the pushed one merges into outside a macro. -/
def mergedCommand (virtuals : Virtuals C D) (q : QUndoStack C D) (cmd : C) :
    Option (QUndoCommand C) :=
  tryMerge virtuals (if 0 < q.index then q.command (q.index - 1) else none)
    (q.execute virtuals cmd).1 (q.deleteRedone.index ≠ q.deleteRedone.clean_index)

/-- The step does not change the stack without a signal: a command that is pushed outside a macro
is merged or kept, or there are no undone commands; the clean state is not reset in a macro that
was begun in it. -/
def Signalled (virtuals : Virtuals C D) (q : QUndoStack C D) : Op C → Prop
  | .push cmd =>
    q.macro_stack ≠ 0 ∨ q.index = q.count ∨ q.mergedCommand virtuals cmd ≠ none
      ∨ UserCommand.isObsolete (q.execute virtuals cmd).1 = false
  | .resetClean => q.macro_stack = 0 ∨ q.index ≠ q.clean_index
  | _ => True

/-- The undone commands are deleted without a signal. -/
theorem Synced.deleteRedone (h : q.Synced) :
  q.deleteRedone.count = q.index
    ∧ q.deleteRedone.announced.clean
      = decide (q.deleteRedone.index = q.deleteRedone.clean_index)
  := by
  have hnonneg := h.index_nonneg
  have hle := h.index_le
  unfold QUndoStack.deleteRedone count at *
  dsimp only
  constructor
  · rw [List.length_take]
    omega
  · refine h.clean.trans (decide_eq_decide.mpr ?_)
    split
    next => omega
    next => exact Iff.rfl

/-- A command is put on the stack. -/
theorem synced_append (hdepth : q.macro_stack = 0) (hnonneg : 0 ≤ q.index)
    (hcount : q.index + 1 = q.count)
    (hclean : q.announced.clean = decide (q.index = q.clean_index)) :
  (q.checkUndoLimit.setIndexPrivate (q.checkUndoLimit.index + 1) false).Synced
  := by
  obtain ⟨list, index, clean, heq, hindex, hlength, hsame⟩ := checkUndoLimit_eq hnonneg hcount
  rw [heq]
  refine synced_setIndexPrivate_of_ne hdepth ?_ ?_ ?_ ?_
  · change 0 ≤ index + 1
    omega
  · exact Int.le_of_eq hlength
  · change index + 1 ≠ index
    omega
  · exact hclean.trans hsame.symm

theorem Synced.push_synced (h : q.Synced) (virtuals : Virtuals C D) (cmd : C)
    (hsignalled : q.Signalled virtuals (.push cmd)) :
  (q.push virtuals cmd).Synced
  := by
  have hnonneg := h.index_nonneg
  have hle := h.index_le
  unfold QUndoStack.push
  dsimp only
  by_cases hdepth : q.macro_stack ≠ 0
  · rw [if_pos hdepth]
    split
    next =>
      split
      next => exact h.with_children hdepth _ _
      next => exact h.with_children hdepth _ _
    next =>
      split
      next =>
        exact ⟨h.index_nonneg, h.index_le, h.open_last, h.index, h.clean, h.undo, h.redo,
          h.redo_state⟩
      next => exact h.with_children hdepth _ _
  · rw [if_neg hdepth]
    have hclosed := not_not.mp hdepth
    obtain ⟨hcount, hclean⟩ := h.deleteRedone
    generalize hmerged : tryMerge virtuals _ _ _ = merged
    change q.mergedCommand virtuals cmd = merged at hmerged
    cases merged with
    | some cur =>
      have hpos : 0 < q.index := by
        by_contra hnot
        rw [mergedCommand, if_neg hnot, tryMerge, Option.bind_none] at hmerged
        cases hmerged
      dsimp only
      split
      next =>
        refine synced_setIndexPrivate_of_ne hclosed ?_ ?_ ?_ hclean
        · change 0 ≤ q.index - 1
          omega
        · change q.index - 1 ≤ ((q.deleteRedone.command_list.dropLast).length : ℤ)
          unfold count at hcount
          rw [List.length_dropLast]
          omega
        · change q.index - 1 ≠ q.index
          omega
      next =>
        have hlength : (((q.deleteRedone.command_list.dropLast) ++ [cur]).length : ℤ)
            = q.index := by
          unfold count at hcount
          rw [List.length_append, List.length_dropLast, List.length_singleton]
          omega
        refine ⟨hnonneg, Int.le_of_eq hlength.symm, fun hopen => absurd hclosed hopen, ?_,
          ?_, fun _ => ?_, fun _ => ?_, fun _ hlt => ?_⟩
        · simp only [announced_emit, Announced.hear]
          rfl
        · simp only [announced_emit, Announced.hear]
          exact hclean
        · simp only [announced_emit, Announced.hear]
          exact ⟨rfl, rfl⟩
        · simp only [announced_emit, Announced.hear]
          exact ⟨rfl, rfl⟩
        · change q.index < _ at hlt
          exact absurd hlt (by
            change ¬ q.index < (((q.deleteRedone.command_list.dropLast) ++ [cur]).length : ℤ)
            omega)
    | none =>
      dsimp only
      split
      next hobsolete =>
        -- Nothing is deleted.
        have hall : q.index = q.count := by
          rcases hsignalled with hopen | hall | hsome | hkept
          · exact absurd hclosed hopen
          · exact hall
          · exact absurd hmerged hsome
          · rw [hkept] at hobsolete
            cases hobsolete
        have hlist : q.deleteRedone.command_list = q.command_list := by
          unfold count at hall
          exact List.take_of_length_le (by omega)
        change ({ q with
          document := (q.execute virtuals cmd).2
          command_list := q.deleteRedone.command_list
          clean_index := q.deleteRedone.clean_index } : QUndoStack C D).Synced
        rw [hlist]
        exact ⟨hnonneg, hle, h.open_last, h.index, hclean, h.undo, h.redo, h.redo_state⟩
      next =>
        exact synced_append hclosed hnonneg (by
          change q.index + 1
            = ((q.deleteRedone.command_list ++ [QUndoCommand.derived _]).length : ℤ)
          unfold count at hcount
          rw [List.length_append, List.length_singleton]
          omega) hclean

theorem Synced.beginMacro_synced (h : q.Synced) (text : String) :
  (q.beginMacro text).Synced
  := by
  unfold QUndoStack.beginMacro
  dsimp only
  by_cases hclosed : q.macro_stack = 0
  · rw [if_pos hclosed]
    obtain ⟨hcount, hclean⟩ := h.deleteRedone
    have hone : q.deleteRedone.macro_stack + 1 = 1 := by
      change q.macro_stack + 1 = 1
      omega
    rw [if_pos hone]
    have hopen : q.deleteRedone.macro_stack + 1 ≠ 0 := by omega
    have hlength : q.index + 1 = ((q.deleteRedone.command_list
        ++ [QUndoCommand.base (QUndoCommand.actionTextOf text) []]).length : ℤ) := by
      unfold count at hcount
      rw [List.length_append, List.length_singleton]
      omega
    refine ⟨h.index_nonneg, ?_, fun _ => hlength, ?_, ?_, fun hdepth => absurd hdepth hopen,
      fun hdepth => absurd hdepth hopen, fun hdepth => absurd hdepth hopen⟩
    · exact Int.le_trans (show q.index ≤ q.index + 1 by omega) (Int.le_of_eq hlength)
    · simp only [announced_emit, Announced.hear]
      exact h.index
    · simp only [announced_emit, Announced.hear]
      exact hclean
  · rw [if_neg hclosed, if_neg (by dsimp only; omega)]
    have hchildren := h.with_children hclosed
      (fun children => children ++ [QUndoCommand.base (QUndoCommand.actionTextOf text) []])
      q.document
    have hopen : q.macro_stack + 1 ≠ 0 := by omega
    exact ⟨h.index_nonneg, hchildren.index_le, fun _ => hchildren.open_last hclosed, h.index,
      h.clean, fun hdepth => absurd hdepth hopen, fun hdepth => absurd hdepth hopen,
      fun hdepth => absurd hdepth hopen⟩

theorem Synced.endMacro_synced (h : q.Synced) :
  q.endMacro.Synced
  := by
  unfold QUndoStack.endMacro
  split
  next => exact h
  next hopen =>
    dsimp only
    split
    next hlast =>
      exact synced_append (q := { q with macro_stack := q.macro_stack - 1 }) hlast h.index_nonneg
        (h.open_last hopen) h.clean
    next hmore =>
      exact ⟨h.index_nonneg, h.index_le, fun _ => h.open_last hopen, h.index, h.clean,
        fun hdepth => absurd hdepth hmore, fun hdepth => absurd hdepth hmore,
        fun hdepth => absurd hdepth hmore⟩

/-- A step that does not change the stack without a signal. -/
theorem Synced.perform (h : q.Synced) (virtuals : Virtuals C D) (op : Op C)
    (hsignalled : q.Signalled virtuals op) :
  (q.perform virtuals op).Synced
  := by
  cases op with
  | push cmd => exact h.push_synced virtuals cmd hsignalled
  | undo => exact h.undo_synced virtuals
  | redo => exact h.redo_synced virtuals
  | setIndex idx => exact h.setIndex_synced virtuals idx
  | beginMacro text => exact h.beginMacro_synced text
  | endMacro => exact h.endMacro_synced
  | setClean => exact h.setClean_synced
  | resetClean => exact h.resetClean_synced hsignalled
  | clear => exact h.clear_synced
  | setUndoLimit limit => exact h.setUndoLimit_synced limit

theorem Synced.run (h : q.Synced) {steps : List (Virtuals C D × Op C)}
    (hsignalled : q.AllSteps Signalled steps) :
  (q.run steps).Synced
  := by
  induction steps generalizing q with
  | nil => exact h
  | cons step steps ih => exact ih (h.perform step.1 step.2 hsignalled.1) hsignalled.2

/-- In a run whose steps do not change the stack without a signal, the values announced last are
those of the stack whenever no macro is open. -/
theorem announced_run (document : D) {steps : List (Virtuals C D × Op C)}
    (h_signalled : (new document).AllSteps Signalled steps)
    (h_closed : ((new document).run steps).macro_stack = 0) :
  ((new document).run steps).Tracks
  := ((synced_new document).run h_signalled).tracks h_closed

open AppendLine (virtuals)

/-- A line is appended, undone and redone. -/
theorem announced_run_append :
  ((new ([] : List String)).run
    [(virtuals, .push ⟨"a", false, false⟩), (virtuals, .undo), (virtuals, .redo)]).Tracks
  := by
  refine announced_run [] ⟨?_, trivial, trivial, trivial⟩ rfl
  exact .inr (.inl rfl)

/-- A command that is obsolete takes the place of one that was undone, which is still announced;
and a clean state that is reset in a macro is announced after it. -/
theorem announced_run_unsignalled :
  ((new ([] : List String)).run [(virtuals, .push ⟨"a", false, false⟩), (virtuals, .undo),
      (virtuals, .push ⟨"b", false, true⟩)]).macro_stack = 0
    ∧ ¬ ((new ([] : List String)).run [(virtuals, .push ⟨"a", false, false⟩), (virtuals, .undo),
      (virtuals, .push ⟨"b", false, true⟩)]).Tracks
    ∧ ((new ([] : List String)).run [(virtuals, .beginMacro "m"), (virtuals, .resetClean),
      (virtuals, .endMacro)]).macro_stack = 0
    ∧ ¬ ((new ([] : List String)).run [(virtuals, .beginMacro "m"), (virtuals, .resetClean),
      (virtuals, .endMacro)]).Tracks
  := by
  refine ⟨by decide, ?_, by decide, ?_⟩
  · intro h
    have h_canRedo := h.canRedo
    revert h_canRedo
    decide
  · intro h
    have h_clean := h.clean
    revert h_clean
    decide

end QUndoStack
