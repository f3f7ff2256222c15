import Mathlib.Algebra.Order.Group.Int
import Mathlib.Data.List.InsertIdx

/-!
# The undo stack

The commands of an application are of a type `C` and are executed on a document of a type `D`.
What their virtual functions do may differ from one call of the stack to the next.  The signals
are recorded in the order in which they are emitted.
-/

/-- What the stack reads of a command of the application. -/
class UserCommand (C : Type) where
  isObsolete : C → Bool
  id : C → ℤ
  actionText : C → String

/-- The virtual functions of the commands of an application.  A command that merges with another
one becomes a command that stands for both. -/
structure Virtuals (C D : Type) where
  redo : C → D → C × D
  undo : C → D → C × D
  mergeWith : C → C → Option C

/-- A command of the application, or one of the base class, which the stack makes for a macro. -/
inductive QUndoCommand (C : Type) where
  | derived (cmd : C)
  | base (actionText : String) (child_list : List (QUndoCommand C))

namespace QUndoCommand

variable {C D : Type} [UserCommand C]

/-- The action text of a command whose text is set. -/
def actionTextOf (text : String) : String :=
  let cdpos := text.toList.idxOf '\n'
  if 0 < cdpos ∧ cdpos < text.toList.length then String.ofList (text.toList.drop (cdpos + 1))
  else text

def isObsolete : QUndoCommand C → Bool
  | derived cmd => UserCommand.isObsolete cmd
  | base _ _ => false

def id : QUndoCommand C → ℤ
  | derived cmd => UserCommand.id cmd
  | base _ _ => -1

def actionText : QUndoCommand C → String
  | derived cmd => UserCommand.actionText cmd
  | base text _ => text

def mergeWith (virtuals : Virtuals C D) : QUndoCommand C → C → Option (QUndoCommand C)
  | derived cur, cmd => (virtuals.mergeWith cur cmd).map derived
  | base _ _, _ => none

mutual

/-- A macro redoes its commands one after the other. -/
def redo (virtuals : Virtuals C D) : QUndoCommand C → D → QUndoCommand C × D
  | derived cmd, document =>
    let redone := virtuals.redo cmd document
    (derived redone.1, redone.2)
  | base text child_list, document =>
    let redone := redoAll virtuals child_list document
    (base text redone.1, redone.2)

def redoAll (virtuals : Virtuals C D) :
    List (QUndoCommand C) → D → List (QUndoCommand C) × D
  | [], document => ([], document)
  | cmd :: rest, document =>
    let redone := redo virtuals cmd document
    let others := redoAll virtuals rest redone.2
    (redone.1 :: others.1, others.2)

end

mutual

/-- A macro undoes its commands in reverse order. -/
def undo (virtuals : Virtuals C D) : QUndoCommand C → D → QUndoCommand C × D
  | derived cmd, document =>
    let undone := virtuals.undo cmd document
    (derived undone.1, undone.2)
  | base text child_list, document =>
    let undone := undoAll virtuals child_list document
    (base text undone.1, undone.2)

def undoAll (virtuals : Virtuals C D) :
    List (QUndoCommand C) → D → List (QUndoCommand C) × D
  | [], document => ([], document)
  | cmd :: rest, document =>
    let others := undoAll virtuals rest document
    let undone := undo virtuals cmd others.2
    (undone.1 :: others.1, undone.2)

end

end QUndoCommand

inductive QUndoSignal where
  | indexChanged (idx : ℤ)
  | canUndoChanged (canUndo : Bool)
  | canRedoChanged (canRedo : Bool)
  | undoTextChanged (undoText : String)
  | redoTextChanged (redoText : String)
  | cleanChanged (clean : Bool)
deriving DecidableEq, Repr

/-- The presentation state for an undo or redo command. -/
structure ActionState where
  enabled : Bool
  text : String
deriving DecidableEq, Repr

/-- The stack with its document and the signals that are emitted so far.  Each open macro is the
last command of the one around it, so `macro_stack` is their number. -/
structure QUndoStack (C D : Type) where
  command_list : List (QUndoCommand C)
  macro_stack : ℕ
  index : ℤ
  clean_index : ℤ
  undo_limit : ℤ
  undoActionState : ActionState
  redoActionState : ActionState
  document : D
  emitted : List QUndoSignal

namespace QUndoStack

variable {C D : Type}

/-- The stack that is constructed for a document. -/
def new (document : D) : QUndoStack C D where
  command_list := []
  macro_stack := 0
  index := 0
  clean_index := 0
  undo_limit := 0
  undoActionState := ⟨false, ""⟩
  redoActionState := ⟨false, ""⟩
  document := document
  emitted := []

def emit (q : QUndoStack C D) (signal : QUndoSignal) : QUndoStack C D :=
  { q with emitted := q.emitted ++ [signal] }

def count (q : QUndoStack C D) : ℤ :=
  q.command_list.length

def isClean (q : QUndoStack C D) : Bool :=
  if q.macro_stack ≠ 0 then false else q.clean_index = q.index

def canUndo (q : QUndoStack C D) : Bool :=
  if q.macro_stack ≠ 0 then false else 0 < q.index

def canRedo (q : QUndoStack C D) : Bool :=
  if q.macro_stack ≠ 0 then false else q.index < q.count

/-- The command at an index. -/
def command (q : QUndoStack C D) (idx : ℤ) : Option (QUndoCommand C) :=
  if 0 ≤ idx then q.command_list[idx.toNat]? else none

section Texts

variable [UserCommand C]

def undoText (q : QUndoStack C D) : String :=
  if q.macro_stack ≠ 0 then ""
  else if 0 < q.index then ((q.command (q.index - 1)).map QUndoCommand.actionText).getD "" else ""

def redoText (q : QUndoStack C D) : String :=
  if q.macro_stack ≠ 0 then ""
  else if q.index < q.count then ((q.command q.index).map QUndoCommand.actionText).getD "" else ""

def announceUndo (q : QUndoStack C D) (indexChanged : Bool) : QUndoStack C D :=
  let newUndoState : ActionState := ⟨q.canUndo, q.undoText⟩
  if indexChanged || newUndoState ≠ q.undoActionState then
    { q with undoActionState := newUndoState }.emit (.canUndoChanged newUndoState.enabled)
      |>.emit (.undoTextChanged newUndoState.text)
  else q

def announceRedo (q : QUndoStack C D) (indexChanged : Bool) : QUndoStack C D :=
  let newRedoState : ActionState := ⟨q.canRedo, q.redoText⟩
  if indexChanged || newRedoState ≠ q.redoActionState then
    { q with redoActionState := newRedoState }.emit (.canRedoChanged newRedoState.enabled)
      |>.emit (.redoTextChanged newRedoState.text)
  else q

/-- Set the current index and emit the signals for what has changed. -/
def setIndexPrivate (q : QUndoStack C D) (idx : ℤ) (clean : Bool) : QUndoStack C D :=
  let was_clean : Bool := q.index = q.clean_index
  let indexChanged : Bool := idx ≠ q.index
  let q := if indexChanged then { q with index := idx }.emit (.indexChanged idx) else q
  let q := q.announceUndo indexChanged
  let q := q.announceRedo indexChanged
  let q := if clean then { q with clean_index := q.index } else q
  let is_clean : Bool := q.index = q.clean_index
  if is_clean ≠ was_clean then q.emit (.cleanChanged is_clean) else q

end Texts

/-- Delete commands from the bottom of the stack if there are more than the limit. -/
def checkUndoLimit (q : QUndoStack C D) : QUndoStack C D :=
  if q.undo_limit ≤ 0 ∨ q.macro_stack ≠ 0 ∨ q.count ≤ q.undo_limit then q
  else
    let del_count := q.count - q.undo_limit
    { q with
      command_list := q.command_list.drop del_count.toNat
      index := q.index - del_count
      clean_index :=
        if q.clean_index = -1 then -1
        else if q.clean_index < del_count then -1
        else q.clean_index - del_count }

/-- Clear the stack; nothing is done if it is empty. -/
def clear (q : QUndoStack C D) : QUndoStack C D :=
  if q.command_list = [] then q
  else
    let was_clean := q.isClean
    let q := { q with macro_stack := 0, command_list := [], index := 0, clean_index := 0 }
    let q := q.emit (.indexChanged 0) |>.emit (.canUndoChanged false) |>.emit (.undoTextChanged "")
      |>.emit (.canRedoChanged false) |>.emit (.redoTextChanged "")
    if was_clean then q else q.emit (.cleanChanged true)

def resetClean (q : QUndoStack C D) : QUndoStack C D :=
  let was_clean := q.isClean
  let q := { q with clean_index := -1 }
  if was_clean then q.emit (.cleanChanged false) else q

/-- Delete the commands that are undone, before another one takes their place. -/
def deleteRedone (q : QUndoStack C D) : QUndoStack C D :=
  { q with
    command_list := q.command_list.take q.index.toNat
    clean_index := if q.index < q.clean_index then -1 else q.clean_index }

/-- The commands of the innermost of `macros` open macros. -/
def lastChildList : ℕ → List (QUndoCommand C) → List (QUndoCommand C)
  | 0, child_list => child_list
  | macros + 1, child_list =>
    match child_list.getLast? with
    | some (.base _ child_list) => lastChildList macros child_list
    | _ => []

/-- Change the commands of the innermost of `macros` open macros. -/
def modifyLastChildList (f : List (QUndoCommand C) → List (QUndoCommand C)) :
    ℕ → List (QUndoCommand C) → List (QUndoCommand C)
  | 0, child_list => f child_list
  | macros + 1, child_list =>
    match child_list.getLast? with
    | some (.base text children) =>
      child_list.dropLast ++ [.base text (modifyLastChildList f macros children)]
    | _ => child_list

variable [UserCommand C]

/-- The command that `cmd` merges into, if it merges. -/
def tryMerge (virtuals : Virtuals C D) (cur : Option (QUndoCommand C)) (cmd : C)
    (allowed : Bool) : Option (QUndoCommand C) :=
  cur.bind fun cur =>
    if cur.id ≠ -1 ∧ cur.id = UserCommand.id cmd ∧ allowed = true then cur.mergeWith virtuals cmd
    else none

/-- The command that is pushed and the document, after it is redone. -/
def execute (virtuals : Virtuals C D) (q : QUndoStack C D) (cmd : C) : C × D :=
  if UserCommand.isObsolete cmd then (cmd, q.document) else virtuals.redo cmd q.document

/-- Execute a command and push it on the stack, or on the innermost open macro, or merge it with
the last one there.  A command that is obsolete is not kept. -/
def push (virtuals : Virtuals C D) (q : QUndoStack C D) (cmd : C) : QUndoStack C D :=
  let redone := q.execute virtuals cmd
  let cmd := redone.1
  let q := { q with document := redone.2 }
  if q.macro_stack ≠ 0 then
    let children := lastChildList q.macro_stack q.command_list
    let change (f : List (QUndoCommand C) → List (QUndoCommand C)) : QUndoStack C D :=
      { q with command_list := modifyLastChildList f q.macro_stack q.command_list }
    match tryMerge virtuals children.getLast? cmd true with
    | some cur =>
      if cur.isObsolete then change List.dropLast
      else change fun children => children.dropLast ++ [cur]
    | none =>
      if UserCommand.isObsolete cmd then q else change fun children => children ++ [.derived cmd]
  else
    let cur := if 0 < q.index then q.command (q.index - 1) else none
    let q := q.deleteRedone
    match tryMerge virtuals cur cmd (q.index ≠ q.clean_index) with
    | some cur =>
      if cur.isObsolete then
        { q with command_list := q.command_list.dropLast }.setIndexPrivate (q.index - 1) false
      else
        let q := { q with command_list := q.command_list.dropLast ++ [cur] }
        q.emit (.indexChanged q.index) |>.emit (.canUndoChanged q.canUndo)
          |>.emit (.undoTextChanged q.undoText) |>.emit (.canRedoChanged q.canRedo)
          |>.emit (.redoTextChanged q.redoText)
    | none =>
      if UserCommand.isObsolete cmd then q
      else
        let q := { q with command_list := q.command_list ++ [QUndoCommand.derived cmd] }.checkUndoLimit
        q.setIndexPrivate (q.index + 1) false

def setClean (q : QUndoStack C D) : QUndoStack C D :=
  if q.macro_stack ≠ 0 then q else q.setIndexPrivate q.index true

/-- A command at an index is deleted, and so is the clean state if it can no longer be reached. -/
def takeObsolete (q : QUndoStack C D) (idx : ℤ) : QUndoStack C D :=
  let q := { q with command_list := q.command_list.eraseIdx idx.toNat }
  if idx < q.clean_index then q.resetClean else q

/-- A command at an index is redone or undone and replaced by what it is then. -/
def setCommand (q : QUndoStack C D) (idx : ℤ) (done : QUndoCommand C × D) : QUndoStack C D :=
  { q with command_list := q.command_list.set idx.toNat done.1, document := done.2 }

def undo (virtuals : Virtuals C D) (q : QUndoStack C D) : QUndoStack C D :=
  if q.index = 0 then q
  else if q.macro_stack ≠ 0 then q
  else
    let idx := q.index - 1
    match q.command idx with
    | none => q
    | some cmd =>
      let undone := if cmd.isObsolete then (cmd, q.document) else cmd.undo virtuals q.document
      let q := q.setCommand idx undone
      let q := if undone.1.isObsolete then q.takeObsolete idx else q
      q.setIndexPrivate idx false

def redo (virtuals : Virtuals C D) (q : QUndoStack C D) : QUndoStack C D :=
  if q.index = q.count then q
  else if q.macro_stack ≠ 0 then q
  else
    let idx := q.index
    match q.command idx with
    | none => q
    | some cmd =>
      let redone := if cmd.isObsolete then (cmd, q.document) else cmd.redo virtuals q.document
      let q := q.setCommand idx redone
      if redone.1.isObsolete then (q.takeObsolete idx).setIndexPrivate idx false
      else q.setIndexPrivate (q.index + 1) false

/-- Redo `n` commands from `i` on; the result has the index that is reached. -/
def redoLoop (virtuals : Virtuals C D) : ℕ → ℤ → QUndoStack C D → ℤ × QUndoStack C D
  | 0, i, q => (i, q)
  | n + 1, i, q =>
    match q.command i with
    | none => (i, q)
    | some cmd =>
      let redone := if cmd.isObsolete then (cmd, q.document) else cmd.redo virtuals q.document
      let q := q.setCommand i redone
      if redone.1.isObsolete then redoLoop virtuals n i (q.takeObsolete i)
      else redoLoop virtuals n (i + 1) q

/-- Undo `n` commands below `i`. -/
def undoLoop (virtuals : Virtuals C D) : ℕ → ℤ → QUndoStack C D → QUndoStack C D
  | 0, _, q => q
  | n + 1, i, q =>
    match q.command (i - 1) with
    | none => q
    | some cmd =>
      let undone := cmd.undo virtuals q.document
      let q := q.setCommand (i - 1) undone
      undoLoop virtuals n (i - 1)
        (if undone.1.isObsolete then q.takeObsolete (i - 1) else q)

def setIndex (virtuals : Virtuals C D) (q : QUndoStack C D) (idx : ℤ) : QUndoStack C D :=
  if q.macro_stack ≠ 0 then q
  else
    let idx := if idx < 0 then 0 else if q.count < idx then q.count else idx
    if q.index < idx then
      -- Each command that is deleted brings the target one index closer.
      let redone := redoLoop virtuals (idx - q.index).toNat q.index q
      redone.2.setIndexPrivate redone.1 false
    else (undoLoop virtuals (q.index - idx).toNat q.index q).setIndexPrivate idx false

def beginMacro (q : QUndoStack C D) (text : String) : QUndoStack C D :=
  let cmd := QUndoCommand.base (QUndoCommand.actionTextOf text) []
  let q : QUndoStack C D :=
    if q.macro_stack = 0 then
      let q := q.deleteRedone
      { q with command_list := q.command_list ++ [cmd] }
    else
      { q with
        command_list :=
          modifyLastChildList (fun children => children ++ [cmd]) q.macro_stack q.command_list }
  let q := { q with macro_stack := q.macro_stack + 1 }
  if q.macro_stack = 1 then
    q.emit (.canUndoChanged false) |>.emit (.undoTextChanged "")
      |>.emit (.canRedoChanged false) |>.emit (.redoTextChanged "")
  else q

def endMacro (q : QUndoStack C D) : QUndoStack C D :=
  if q.macro_stack = 0 then q
  else
    let q := { q with macro_stack := q.macro_stack - 1 }
    if q.macro_stack = 0 then
      let q := q.checkUndoLimit
      q.setIndexPrivate (q.index + 1) false
    else q

def setUndoLimit (q : QUndoStack C D) (limit : ℤ) : QUndoStack C D :=
  if q.command_list ≠ [] then q
  else if limit = q.undo_limit then q
  else { q with undo_limit := limit }.checkUndoLimit

/-! ### Runs -/

/-- The public operations. -/
inductive Op (C : Type) where
  | push (cmd : C)
  | undo
  | redo
  | setIndex (idx : ℤ)
  | beginMacro (text : String)
  | endMacro
  | setClean
  | resetClean
  | clear
  | setUndoLimit (limit : ℤ)

def perform (virtuals : Virtuals C D) (q : QUndoStack C D) : Op C → QUndoStack C D
  | .push cmd => q.push virtuals cmd
  | .undo => q.undo virtuals
  | .redo => q.redo virtuals
  | .setIndex idx => q.setIndex virtuals idx
  | .beginMacro text => q.beginMacro text
  | .endMacro => q.endMacro
  | .setClean => q.setClean
  | .resetClean => q.resetClean
  | .clear => q.clear
  | .setUndoLimit limit => q.setUndoLimit limit

/-- The virtual functions may do something else in each step of a run. -/
def run (q : QUndoStack C D) (steps : List (Virtuals C D × Op C)) : QUndoStack C D :=
  steps.foldl (fun q step => q.perform step.1 step.2) q

/-- Each step of a run meets a condition, which may depend on the stack before it. -/
def AllSteps (P : Virtuals C D → QUndoStack C D → Op C → Prop) :
    QUndoStack C D → List (Virtuals C D × Op C) → Prop
  | _, [] => True
  | q, step :: steps => P step.1 q step.2 ∧ AllSteps P (q.perform step.1 step.2) steps

end QUndoStack

/-! ### A small application -/

/-- A command that appends a line to a document.  One that is `once` cannot be redone after it is
undone. -/
structure AppendLine where
  line : String
  once : Bool
  obsolete : Bool

namespace AppendLine

instance : UserCommand AppendLine where
  isObsolete cmd := cmd.obsolete
  id _ := -1
  actionText cmd := cmd.line

def virtuals : Virtuals AppendLine (List String) where
  redo cmd document :=
    if cmd.obsolete then (cmd, document) else (cmd, document ++ [cmd.line])
  undo cmd document :=
    if cmd.obsolete then (cmd, document)
    else ({ cmd with obsolete := cmd.once }, document.dropLast)
  mergeWith _ _ := none

end AppendLine
