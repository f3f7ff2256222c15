import BobUI.Corelib.Text.Strings

/-!
# Path segments

`qt_normalizePathSegments` of `qdir.cpp` as it is built for Unix.  It rewrites the path in place:
it reads at one place and writes at another one.
-/

namespace QDirPrivate

/-- `PathNormalizations`, as far as the flags are read on Unix. -/
structure PathNormalizations where
  RemotePath : Bool
deriving DecidableEq, Repr

def DefaultNormalization : PathNormalizations :=
  ⟨false⟩

def RemotePath : PathNormalizations :=
  ⟨true⟩

/-- The length of the root part of an absolute path. -/
def rootLength (name : QString) : ℕ :=
  if name.getD 0 0 = 0x2f then 1 else 0

/-- `findStartOfNonNormalizedPath` from `i` on, where `left` characters are left. -/
def findStart (isRemote : Bool) (path : QString) : ℕ → ℕ → Bool → ℕ
  | 0, i, _ => i
  | left + 1, i, lastWasSlash =>
    if lastWasSlash = true ∧ path.getD i 0 = 0x2e
        ∧ (i + 1 = path.length ∨ path.getD (i + 1) 0 = 0x2f) then i
    else if lastWasSlash = true ∧ path.getD i 0 = 0x2e ∧ path.getD (i + 1) 0 = 0x2e
        ∧ (i + 2 = path.length ∨ path.getD (i + 2) 0 = 0x2f) then i
    else if isRemote = false ∧ lastWasSlash = true ∧ path.getD i 0 = 0x2f ∧ 0 < i then i - 1
    else findStart isRemote path left (i + 1) (path.getD i 0 = 0x2f)

def findStartOfNonNormalizedPath (path : QString) (i : ℕ) (flags : PathNormalizations) : ℕ :=
  findStart flags.RemotePath path (path.length - i) i true

/-- The path while it is rewritten: the places `in` and `out`, and for each character that is
written where that is and how far has been read then. -/
structure Cursor where
  data : QString
  input : ℕ
  out : ℕ
  start : ℕ
  ok : Bool
  writes : List (ℕ × ℕ)

inductive SegmentType where
  | Nothing | Dot | DotDot
deriving DecidableEq, Repr

namespace Cursor

/-- `in[k]`; behind the last character there is a null. -/
def peek (s : Cursor) (k : ℕ) : UInt16 :=
  s.data.getD (s.input + k) 0

/-- The characters from `in` up to `end`. -/
def left (s : Cursor) : ℕ :=
  s.data.length - s.input

def skip (s : Cursor) (k : ℕ) : Cursor :=
  { s with input := s.input + k }

/-- `*out++ = c`. -/
def put (s : Cursor) (c : UInt16) : Cursor :=
  { s with
    data := s.data.set s.out c
    out := s.out + 1
    writes := s.writes ++ [(s.out, s.input)] }

/-- `*out++ = *in++`. -/
def copy (s : Cursor) : Cursor :=
  (s.put (s.peek 0)).skip 1

def back (s : Cursor) : Cursor :=
  { s with out := s.out - 1 }

/-- The slashes behind the first one; only those of a URL are copied. -/
def copySlashes (isRemote : Bool) : ℕ → Cursor → Cursor
  | 0, s => s
  | left + 1, s =>
    if s.peek 0 = 0x2f then copySlashes isRemote left (if isRemote then s.copy else s.skip 1)
    else s

/-- Copy the slashes before a segment. -/
def slashes (isRemote : Bool) (s : Cursor) : Cursor :=
  if s.peek 0 = 0x2f then copySlashes isRemote s.copy.left s.copy else s

/-- Whether the segment is "." or "..". -/
def segmentType (s : Cursor) : SegmentType :=
  if s.peek 0 = 0x2e then
    if s.input + 1 = s.data.length ∨ s.peek 1 = 0x2f then .Dot
    else if s.peek 1 = 0x2e ∧ (s.input + 2 = s.data.length ∨ s.peek 2 = 0x2f) then .DotDot
    else .Nothing
  else .Nothing

def copySegment : ℕ → Cursor → Cursor
  | 0, s => s
  | left + 1, s => if s.peek 0 = 0x2f then s else copySegment left s.copy

/-- The path cannot go further up: it gets a new root. -/
def reRoot (s : Cursor) : Cursor :=
  let s := { s with ok := false }
  let s := (s.put 0x2e).put 0x2e
  let s := if s.input + 2 = s.data.length then s else (s.put 0x2f).skip 1
  { s with start := s.out }.skip 2

/-- Go back to the slash before the previous segment. -/
def backtrack : ℕ → Cursor → Cursor
  | 0, s => s
  | above + 1, s =>
    if s.data.getD (s.out - 1) 0 = 0x2f then s else backtrack above s.back

def skipSlashes : ℕ → Cursor → Cursor
  | 0, s => s
  | left + 1, s => if s.peek 0 = 0x2f then skipSlashes left (s.skip 1) else s

/-- Go back one slash if a segment follows, and skip slashes at the root. -/
def leave (prefixLength : ℕ) (s : Cursor) : Cursor :=
  let s :=
    if s.input ≠ s.data.length ∧ s.start < s.out ∧ s.data.getD (s.out - 1) 0 = 0x2f then s.back
    else s
  if s.out = s.start then
    let s := if s.input ≠ s.data.length ∧ s.peek 0 = 0x2f then s.skip 1 else s
    if prefixLength = 0 then s.skipSlashes s.left else s
  else s

/-- The segment behind the slashes. -/
def segment (isRemote : Bool) (prefixLength : ℕ) (s : Cursor) : Cursor :=
  match s.segmentType with
  | .Nothing => s.copySegment s.left
  | .DotDot =>
    if s.out = s.start ∧ isRemote = false then s.reRoot
    else
      let s := if s.out = s.start then { s with ok := false } else s
      let s := if s.start < s.out then s.back else s
      let s := s.backtrack (s.out - s.start)
      (s.skip 2).leave prefixLength
  | .Dot => (s.skip 1).leave prefixLength

/-- The loop, which reads at least one character each time. -/
def segments (isRemote : Bool) (prefixLength : ℕ) : ℕ → Cursor → Cursor
  | 0, s => s
  | fuel + 1, s =>
    let s := (s.slashes isRemote).segment isRemote prefixLength
    if s.input < s.data.length then segments isRemote prefixLength fuel s else s

end Cursor

/-- The path where the loop begins. -/
def Cursor.new (path : QString) (i : ℕ) : Cursor where
  data := path
  input := i
  out := i
  start := rootLength path
  ok := true
  writes := []

/-- The state after the loop, if there is something to rewrite. -/
def rewritten (path : QString) (flags : PathNormalizations) : Option Cursor :=
  let i := findStartOfNonNormalizedPath path (rootLength path) flags
  if i = path.length then none
  else some ((Cursor.new path i).segments flags.RemotePath (rootLength path) (path.length - i))

/-- Whether the path is left in place, and the new path. -/
def qt_normalizePathSegments (path : QString) (flags : PathNormalizations) : Bool × QString :=
  match rewritten path flags with
  | none => (true, path)
  | some s =>
    let result := s.data.take s.out
    (s.ok || rootLength path = 0,
      if flags.RemotePath = false ∧ result = [] then [0x2e] else result)

end QDirPrivate
