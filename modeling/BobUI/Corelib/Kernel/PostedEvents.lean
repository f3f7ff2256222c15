import Mathlib.Data.Int.Notation
import Mathlib.Data.Nat.Notation
import Mathlib.Logic.Function.Basic

/-!
# Posted events

The list of posted events of a thread, and what `postEvent`, `sendPostedEvents`,
`removePostedEvents` and `removePostedEvent` do to it.  An event that is sent may post, send and
remove other events, so passes over the list are nested: the passes that are going on are a
stack, and either the loop of the innermost one runs, or the code of the application.

An event is known by a number in place of its address.  The numbers of the events that have
been accepted, delivered and removed are kept, for the statements about them.
-/

namespace QCoreApplication

/-- What must not happen: an index or an iterator out of range, or an assertion that fails. -/
inductive Fault where
  | index
  | range
  | assertion
  deriving DecidableEq, Repr

/-- An event, with the timer of a `QTimerEvent` and the levels of a `QDeferredDeleteEvent`. -/
structure QEvent where
  id : ℕ
  type : ℤ
  timerId : ℤ
  loopLevel : ℤ
  scopeLevel : ℤ
  deriving DecidableEq, Repr

namespace QEvent

def typeTimer : ℤ := 1

def typeQuit : ℤ := 20

def typeDeferredDelete : ℤ := 52

end QEvent

structure QPostEvent (R : Type) where
  receiver : R
  event : Option QEvent
  priority : ℤ

structure QThreadData (R : Type) where
  postEventList : List (QPostEvent R)
  recursion : ℕ
  startOffset : ℤ
  insertionOffset : ℤ
  canWait : Bool
  loopLevel : ℤ
  scopeLevel : ℤ

/-- A call of `sendPostedEvents` that goes on, with its own copy of the start offset. -/
structure Pass (R : Type) where
  receiver : Option R
  eventType : ℤ
  startOffset : ℤ

structure State (R : Type) where
  data : QThreadData R
  /-- The counters of the receivers. -/
  postedEvents : R → ℤ
  /-- `m_posted` of the events. -/
  posted : ℕ → Bool
  passes : List (Pass R)
  /-- Whether the code of the application runs. -/
  running : Bool
  created : ℕ
  accepted : List ℕ
  delivered : List ℕ
  removed : List ℕ

variable {R : Type}

/-! ### The list -/

/-- `std::upper_bound` from `first` over `len` entries, for at most as many turns. -/
def upperBound (list : List (QPostEvent R)) (priority : ℤ) : ℕ → ℕ → ℕ → Except Fault ℕ
  | 0, first, _ => .ok first
  | turns + 1, first, len =>
    if len = 0 then .ok first
    else
      match list[first + len / 2]? with
      | none => .error .range
      | some pe =>
        if pe.priority < priority then upperBound list priority turns first (len / 2)
        else upperBound list priority turns (first + len / 2 + 1) (len - len / 2 - 1)

def addEvent (ev : QPostEvent R) (data : QThreadData R) : Except Fault (QThreadData R) :=
  let list := data.postEventList
  if list.getLast?.all (ev.priority ≤ ·.priority) ∨ (list.length : ℤ) ≤ data.insertionOffset then
    .ok { data with postEventList := list ++ [ev] }
  else if data.insertionOffset < 0 then .error .range
  else do
    let first := data.insertionOffset.toNat
    let at' ← upperBound list ev.priority list.length first (list.length - first)
    if list.length < at' then throw .range
    pure { data with postEventList := list.take at' ++ ev :: list.drop at' }

/-- `pe.event = nullptr` for the entry at an index. -/
def nullEvent (i : ℕ) (data : QThreadData R) : QThreadData R :=
  { data with postEventList := data.postEventList.modify i fun pe => { pe with event := none } }

/-- The counter of a receiver is lowered. -/
def uncount [DecidableEq R] (r : R) (s : State R) : State R :=
  { s with postedEvents := Function.update s.postedEvents r (s.postedEvents r - 1) }

def setPosted (id : ℕ) (posted : Bool) (s : State R) : State R :=
  { s with posted := Function.update s.posted id posted }

/-! ### Posting -/

/-- The `compressEvent` of `QCoreApplication`: a timer event or a quit event is compressed away
if there is one for the receiver already. -/
def compressEvent [DecidableEq R] (event : QEvent) (receiver : R) (list : List (QPostEvent R)) :
    Bool :=
  if event.type = QEvent.typeTimer then
    list.any fun cur => cur.event.any fun e =>
      e.type = QEvent.typeTimer ∧ cur.receiver = receiver ∧ e.timerId = event.timerId
  else if event.type = QEvent.typeQuit then
    list.any fun cur => cur.event.any fun e => cur.receiver = receiver ∧ e.type = event.type
  else false

/-- The virtual function `compressEvent` of the application, where there is one. -/
abbrev Compress (R : Type) := Option (QEvent → R → List (QPostEvent R) → Bool)

/-- `postEvent` with an event that has just been created. -/
def postEvent (self : Compress R) (receiver : Option R) (type timerId loopLevel scopeLevel : ℤ)
    (priority : ℤ) [DecidableEq R] (s : State R) : Except Fault (State R) :=
  let event : QEvent := ⟨s.created, type, timerId, loopLevel, scopeLevel⟩
  let s := { s with created := s.created + 1 }
  match receiver with
  | none => .ok s
  | some r =>
    if s.postedEvents r ≠ 0 ∧ self.any (fun compress => compress event r s.data.postEventList) then
      .ok s
    else do
      let data ← addEvent ⟨r, some event, priority⟩ s.data
      let s := setPosted event.id true { s with data := data }
      pure { s with
        postedEvents := Function.update s.postedEvents r (s.postedEvents r + 1),
        data := { data with canWait := false },
        accepted := event.id :: s.accepted }

/-! ### Sending -/

def Pass.isFull (p : Pass R) : Bool :=
  p.eventType = 0 ∧ p.receiver.isNone

/-- `sendPostedEvents` up to its loop. -/
def sendPostedEvents (receiver : Option R) (eventType : ℤ) (s : State R) : State R :=
  let eventType := if eventType = -1 then 0 else eventType
  let size : ℤ := s.data.postEventList.length
  if size = 0 ∨ receiver.any (fun r => s.postedEvents r = 0) then
    { s with data := { s.data with canWait := size = 0 } }
  else
    { s with
      data := { s.data with
        recursion := s.data.recursion + 1, canWait := true, insertionOffset := size },
      passes := ⟨receiver, eventType, s.data.startOffset⟩ :: s.passes,
      running := false }

/-- The destructor of `CleanUp`. -/
def cleanUp (p : Pass R) (exceptionCaught : Bool) (data : QThreadData R) :
    Except Fault (QThreadData R) :=
  let data := { data with
    canWait := data.canWait && !exceptionCaught, recursion := data.recursion - 1 }
  if p.isFull ∧ 0 ≤ data.startOffset then
    if (data.postEventList.length : ℤ) < data.startOffset then .error .range
    else
      let insertionOffset := data.insertionOffset - data.startOffset
      if insertionOffset < 0 then .error .assertion
      else .ok { data with
        postEventList := data.postEventList.drop data.startOffset.toNat,
        insertionOffset := insertionOffset,
        startOffset := 0 }
  else .ok data

/-- The index `i` of a pass: a full pass has that of the list, by reference. -/
def index (p : Pass R) (data : QThreadData R) : ℤ :=
  if p.isFull then data.startOffset else p.startOffset

/-- `++i`. -/
def advance (p : Pass R) (passes : List (Pass R)) (s : State R) : State R :=
  if p.isFull then
    { s with data := { s.data with startOffset := s.data.startOffset + 1 } }
  else { s with passes := { p with startOffset := p.startOffset + 1 } :: passes }

/-- Whether a deferred delete may be sent in a pass for events of a type. -/
def allowDeferredDelete (eventType : ℤ) (event : QEvent) (data : QThreadData R) : Bool :=
  data.loopLevel + data.scopeLevel < event.loopLevel + event.scopeLevel
    ∨ event.loopLevel = 0 ∧ 0 < data.loopLevel
    ∨ eventType = QEvent.typeDeferredDelete
      ∧ event.loopLevel + event.scopeLevel = data.loopLevel + data.scopeLevel

variable [DecidableEq R]

/-- The event at an index is sent to its receiver, and the code of the application runs. -/
def deliver (i : ℕ) (r : R) (event : QEvent) (s : State R) : Except Fault (State R) :=
  if s.postedEvents r ≤ 0 then .error .assertion
  else
    let s := uncount r (setPosted event.id false s)
    .ok { s with
      data := nullEvent i s.data,
      running := true,
      delivered := event.id :: s.delivered }

/-- A turn of the loop of the pass `p`, or its end. -/
def turn (p : Pass R) (passes : List (Pass R)) (s : State R) : Except Fault (State R) :=
  let i := index p s.data
  if (s.data.postEventList.length : ℤ) ≤ i ∨ s.data.insertionOffset ≤ i then do
    let data ← cleanUp p false s.data
    pure { s with data := data, passes := passes, running := true }
  else if i < 0 then .error .index
  else
    match s.data.postEventList[i.toNat]? with
    | none => .error .index
    | some pe =>
      let s := advance p passes s
      match pe.event with
      | none => .ok s
      | some event =>
        if p.receiver.any (· ≠ pe.receiver) ∨ p.eventType ≠ 0 ∧ p.eventType ≠ event.type then
          .ok { s with data := { s.data with canWait := false } }
        else if event.type = QEvent.typeDeferredDelete
            ∧ !allowDeferredDelete p.eventType event s.data then
          if p.isFull then do
            -- The event is posted again, with the event pointer intact.
            let data ← addEvent pe (nullEvent i.toNat s.data)
            pure { s with data := data }
          else .ok s
        else deliver i.toNat pe.receiver event s

/-! ### Removing -/

/-- The event of an entry, if it is to be removed. -/
def matching (receiver : Option R) (eventType : ℤ) (pe : QPostEvent R) : Option QEvent :=
  pe.event.filter fun e =>
    receiver.all (pe.receiver = ·) ∧ (eventType = 0 ∨ e.type = eventType)

/-- The loop of `removePostedEvents` from the index `i`, for as many turns; `j` is the number of
entries that are kept where the list is truncated. -/
def removeLoop (receiver : Option R) (eventType : ℤ) :
    ℕ → ℕ → ℕ → State R → Except Fault (State R × ℕ)
  | 0, _, j, s => .ok (s, j)
  | turns + 1, i, j, s =>
    match s.data.postEventList[i]? with
    | none => .error .index
    | some pe =>
      match matching receiver eventType pe with
      | some e =>
        let s := setPosted e.id false (uncount pe.receiver s)
        removeLoop receiver eventType turns (i + 1) j
          { s with data := nullEvent i s.data, removed := e.id :: s.removed }
      | none =>
        if s.data.recursion = 0 then
          match s.data.postEventList[j]? with
          | none => .error .index
          | some other =>
            let list := (s.data.postEventList.set i other).set j pe
            removeLoop receiver eventType turns (i + 1) (j + 1)
              { s with data := { s.data with postEventList := list } }
        else removeLoop receiver eventType turns (i + 1) j s

def removePostedEvents (receiver : Option R) (eventType : ℤ) (s : State R) :
    Except Fault (State R) :=
  if receiver.any (fun r => s.postedEvents r = 0) then .ok s
  else do
    let (s, j) ← removeLoop receiver eventType s.data.postEventList.length 0 0 s
    if receiver.any (fun r => s.postedEvents r ≠ 0) ∧ eventType = 0 then throw .assertion
    if s.data.recursion = 0 then
      if s.data.postEventList.length < j then throw .range
      pure { s with data := { s.data with postEventList := s.data.postEventList.take j } }
    else pure s

/-- `removePostedEvent` for the event of a number. -/
def removePostedEvent (id : ℕ) (s : State R) : State R :=
  if !s.posted id then s
  else
    match s.data.postEventList.findIdx? fun pe => pe.event.any (·.id = id) with
    | none => s
    | some i =>
      match s.data.postEventList[i]? with
      | none => s
      | some pe =>
        let s := setPosted id false (uncount pe.receiver s)
        { s with data := nullEvent i s.data, removed := id :: s.removed }

/-! ### Runs -/

/-- What may happen next: a turn of the loop of the innermost pass, or, where the code of the
application runs, a call, the end of the delivery, an exception that leaves it, or another level
of event loops. -/
inductive Action (R : Type) where
  | turn
  | post (receiver : Option R) (type timerId loopLevel scopeLevel priority : ℤ)
  | send (receiver : Option R) (eventType : ℤ)
  | remove (receiver : Option R) (eventType : ℤ)
  | removeEvent (id : ℕ)
  | levels (loopLevel scopeLevel : ℤ)
  | leave
  | raise

/-- An action that is not possible changes nothing. -/
def step (self : Compress R) (s : State R) : Action R → Except Fault (State R)
  | .turn =>
    match s.passes with
    | [] => .ok s
    | p :: passes => if s.running then .ok s else turn p passes s
  | .post receiver type timerId loopLevel scopeLevel priority =>
    if s.running then postEvent self receiver type timerId loopLevel scopeLevel priority s
    else .ok s
  | .send receiver eventType =>
    .ok (if s.running then sendPostedEvents receiver eventType s else s)
  | .remove receiver eventType =>
    if s.running then removePostedEvents receiver eventType s else .ok s
  | .removeEvent id => .ok (if s.running then removePostedEvent id s else s)
  | .levels loopLevel scopeLevel =>
    .ok (if s.running then
      { s with data := { s.data with loopLevel := loopLevel, scopeLevel := scopeLevel } } else s)
  | .leave => .ok (if s.running ∧ s.passes ≠ [] then { s with running := false } else s)
  | .raise =>
    match s.passes with
    | [] => .ok s
    | p :: passes =>
      if s.running then do
        let data ← cleanUp p true s.data
        pure { s with data := data, passes := passes }
      else .ok s

/-- A thread before any event has been posted. -/
def initial (R : Type) : State R where
  data := ⟨[], 0, 0, 0, false, 0, 0⟩
  postedEvents _ := 0
  posted _ := false
  passes := []
  running := true
  created := 0
  accepted := []
  delivered := []
  removed := []

def run (self : Compress R) (s : State R) (actions : List (Action R)) : Except Fault (State R) :=
  actions.foldlM (step self) s

end QCoreApplication
