import Mathlib.Data.Int.Notation
import Mathlib.Tactic.Common
import Mathlib.Tactic.SplitIfs

/-!
# Regions

`QRegionPrivate` of `qregion.cpp`: the rectangles of a region from top to bottom and from left to
right, in a list that may be longer, or one rectangle that is the extents.  `append` and `prepend`
put a region behind or in front of another one; at the seam they merge rectangles in place before
they copy.
-/

/-- The rectangle between two corners, which belong to it. -/
structure QRect where
  left : ℤ
  top : ℤ
  right : ℤ
  bottom : ℤ
deriving DecidableEq, Repr

namespace QRect

/-- `QRect()`. -/
def null : QRect :=
  ⟨0, 0, -1, -1⟩

def width (r : QRect) : ℤ :=
  r.right - r.left + 1

def height (r : QRect) : ℤ :=
  r.bottom - r.top + 1

def isEmpty (r : QRect) : Bool :=
  r.left > r.right || r.top > r.bottom

/-- The coordinates that `append` and `prepend` give the extents. -/
def united (r s : QRect) : QRect :=
  ⟨min r.left s.left, min r.top s.top, max r.right s.right, max r.bottom s.bottom⟩

end QRect

structure QRegionPrivate where
  numRects : ℕ
  innerArea : ℤ
  rects : List QRect
  extents : QRect
  innerRect : QRect
deriving DecidableEq, Repr

namespace QRegionPrivate

/-- Where a pointer points to in a region. -/
inductive Place where
  | extents
  | rects (i : ℕ)
deriving DecidableEq, Repr

/-- `rects.data()[i]`. -/
def rect (d : QRegionPrivate) (i : ℕ) : QRect :=
  d.rects.getD i .null

def read (d : QRegionPrivate) : Place → QRect
  | .extents => d.extents
  | .rects i => d.rect i

def write (d : QRegionPrivate) (r : QRect) : Place → QRegionPrivate
  | .extents => { d with extents := r }
  | .rects i => { d with rects := d.rects.set i r }

/-- The rectangles from `begin()` to `end()`. -/
def rectangles (d : QRegionPrivate) : List QRect :=
  if d.numRects = 1 then [d.extents] else d.rects.take d.numRects

def containsRect (d : QRegionPrivate) (r2 : QRect) : Bool :=
  r2.left ≥ d.innerRect.left && r2.right ≤ d.innerRect.right && r2.top ≥ d.innerRect.top
    && r2.bottom ≤ d.innerRect.bottom

/-- `contains`, for a region. -/
def contains (d r : QRegionPrivate) : Bool :=
  d.containsRect r.extents

def updateInnerRect (d : QRegionPrivate) (rect : QRect) : QRegionPrivate :=
  let area := rect.width * rect.height
  if area > d.innerArea then { d with innerArea := area, innerRect := rect } else d

def vectorize (d : QRegionPrivate) : QRegionPrivate :=
  if d.numRects = 1 then
    { d with rects := (if d.rects = [] then [.null] else d.rects).set 0 d.extents }
  else d

/-! ### Merging rectangles -/

def canMergeFromRight (left right : QRect) : Bool :=
  right.top = left.top && right.bottom = left.bottom && right.left ≤ left.right + 1

def canMergeFromLeft (right left : QRect) : Bool :=
  canMergeFromRight left right

/-- `mergeFromRight`; `none` if the rectangles cannot be merged. -/
def mergeFromRight (d : QRegionPrivate) (left : Place) (right : QRect) : Option QRegionPrivate :=
  if canMergeFromRight (d.read left) right then
    let merged := { d.read left with right := right.right }
    some ((d.write merged left).updateInnerRect merged)
  else none

def mergeFromLeft (d : QRegionPrivate) (right : Place) (left : QRect) : Option QRegionPrivate :=
  if canMergeFromLeft (d.read right) left then
    let merged := { d.read right with left := left.left }
    some ((d.write merged right).updateInnerRect merged)
  else none

/-- A null pointer is `none`. -/
def canMergeFromBelow (top bottom : QRect) (nextToTop nextToBottom : Option QRect) : Bool :=
  if nextToTop.any (·.top = top.top) then false
  else if nextToBottom.any (·.top = bottom.top) then false
  else top.bottom ≥ bottom.top - 1 && top.left = bottom.left && top.right = bottom.right

def mergeFromBelow (d : QRegionPrivate) (top : Place) (bottom : QRect)
    (nextToTop nextToBottom : Option QRect) : Option QRegionPrivate :=
  if canMergeFromBelow (d.read top) bottom nextToTop nextToBottom then
    let merged := { d.read top with bottom := bottom.bottom }
    some ((d.write merged top).updateInnerRect merged)
  else none

def mergeFromAbove (d : QRegionPrivate) (bottom : Place) (top : QRect)
    (nextToBottom nextToTop : Option QRect) : Option QRegionPrivate :=
  if canMergeFromBelow top (d.read bottom) nextToTop nextToBottom then
    let merged := { d.read bottom with top := top.top }
    some ((d.write merged bottom).updateInnerRect merged)
  else none

/-! ### Rectangles -/

/-- `resize` of the list, if it is too short. -/
def enlarge (rects : List QRect) (size : ℕ) : List QRect :=
  if size > rects.length then rects ++ List.replicate (size - rects.length) .null else rects

/-- `memmove` or `memcpy` of rectangles to the place `dest`. -/
def copy (rects : List QRect) (dest : ℕ) (block : List QRect) : List QRect :=
  rects.take dest ++ block ++ rects.drop (dest + block.length)

/-- `append`, of a rectangle. -/
def appendRect (d : QRegionPrivate) (r : QRect) : QRegionPrivate :=
  let myLast := if d.numRects = 1 then Place.extents else .rects (d.numRects - 1)
  let d :=
    match d.mergeFromRight myLast r with
    | some d =>
      if d.numRects > 1 then
        let nextToTop := if d.numRects > 2 then some (d.rect (d.numRects - 3)) else none
        match d.mergeFromBelow (.rects (d.numRects - 2)) (d.read myLast) nextToTop none with
        | some d => { d with numRects := d.numRects - 1 }
        | none => d
      else d
    | none =>
      let nextToTop := if d.numRects > 1 then some (d.rect (d.numRects - 2)) else none
      match d.mergeFromBelow myLast r nextToTop none with
      | some d => d
      | none =>
        let d := d.vectorize
        let d := { d with numRects := d.numRects + 1 }.updateInnerRect r
        { d with rects := (enlarge d.rects d.numRects).set (d.numRects - 1) r }
  { d with extents := d.extents.united r }

/-- `prepend`, of a rectangle. -/
def prependRect (d : QRegionPrivate) (r : QRect) : QRegionPrivate :=
  let myFirst := if d.numRects = 1 then Place.extents else .rects 0
  let d :=
    match d.mergeFromLeft myFirst r with
    | some d =>
      if d.numRects > 1 then
        let nextToFirst := if d.numRects > 2 then some (d.rect 2) else none
        match d.mergeFromAbove (.rects 1) (d.read myFirst) nextToFirst none with
        | some d =>
          { d with
            numRects := d.numRects - 1
            rects := copy d.rects 0 ((d.rects.drop 1).take (d.numRects - 1)) }
        | none => d
      else d
    | none =>
      let nextToBottom := if d.numRects > 1 then some (d.rect 1) else none
      match d.mergeFromAbove myFirst r nextToBottom none with
      | some d => d
      | none =>
        let d := d.vectorize
        let d := { d with numRects := d.numRects + 1 }.updateInnerRect r
        { d with rects := r :: d.rects }
  { d with extents := d.extents.united r }

def canAppendRect (d : QRegionPrivate) (r : QRect) : Bool :=
  let myLast := if d.numRects = 1 then d.extents else d.rect (d.numRects - 1)
  if r.top > myLast.bottom then true
  else r.top = myLast.top && r.height = myLast.height && r.left > myLast.right

def canPrependRect (d : QRegionPrivate) (r : QRect) : Bool :=
  let myFirst := if d.numRects = 1 then d.extents else d.rect 0
  if r.bottom < myFirst.top then true
  else r.top = myFirst.top && r.height = myFirst.height && r.right < myFirst.left

/-! ### Regions -/

def canAppend (d r : QRegionPrivate) : Bool :=
  d.canAppendRect (if r.numRects = 1 then r.extents else r.rect 0)

def canPrepend (d r : QRegionPrivate) : Bool :=
  d.canPrependRect (if r.numRects = 1 then r.extents else r.rect (r.numRects - 1))

/-- The variables of `append` when it has tried to merge rectangles: where to copy to, and the first
rectangle to copy and how many there are. -/
structure Appending where
  region : QRegionPrivate
  destRect : ℕ
  srcRect : ℕ
  numAppend : ℕ
deriving DecidableEq, Repr

/-- The last rectangle has grown to the right: it is merged with the band above it. -/
def mergeLastBand (s : Appending) (r : QRegionPrivate) (myLast : ℕ) : Appending :=
  if s.region.numRects > 1 then
    let nextToLast := if s.region.numRects > 2 then some (s.region.rect (myLast - 2)) else none
    let rNextToFirst := if s.numAppend > 0 then some (r.rect s.srcRect) else none
    match s.region.mergeFromBelow (.rects (myLast - 1)) (s.region.rect myLast) nextToLast
        rNextToFirst with
    | some d =>
      { s with region := { d with numRects := d.numRects - 1 }, destRect := s.destRect - 1 }
    | none => s
  else s

/-- The first block of `append`. -/
def tryMergeAppend (d r : QRegionPrivate) : Appending :=
  let destRect := d.numRects
  let myLast := destRect - 1
  let nextToLast := if d.numRects > 1 then some (d.rect (myLast - 1)) else none
  match d.mergeFromRight (.rects myLast) (r.rect 0) with
  | some d =>
    let numAppend := r.numRects - 1
    let rNextToFirst := if numAppend > 1 then some (r.rect 2) else none
    let s : Appending :=
      match d.mergeFromBelow (.rects myLast) (r.rect 1) nextToLast rNextToFirst with
      | some d => ⟨d, destRect, 2, numAppend - 1⟩
      | none => ⟨d, destRect, 1, numAppend⟩
    mergeLastBand s r myLast
  | none =>
    match d.mergeFromBelow (.rects myLast) (r.rect 0) nextToLast (some (r.rect 1)) with
    | some d => ⟨d, destRect, 1, r.numRects - 1⟩
    | none => ⟨d, destRect, 0, r.numRects⟩

/-- The rectangles are appended that have not been merged. -/
def copyAppend (s : Appending) (r : QRegionPrivate) : QRegionPrivate :=
  if s.numAppend > 0 then
    let newNumRects := s.region.numRects + s.numAppend
    let destRect :=
      if newNumRects > s.region.rects.length then s.region.numRects else s.destRect
    { s.region with
      rects := copy (enlarge s.region.rects newNumRects) destRect
        ((r.rects.drop s.srcRect).take s.numAppend)
      numRects := newNumRects }
  else s.region

/-- The inner rectangle and the extents of `append` and `prepend`. -/
def updateBounds (d r : QRegionPrivate) : QRegionPrivate :=
  let d :=
    if d.innerArea < r.innerArea then { d with innerArea := r.innerArea, innerRect := r.innerRect }
    else d
  { d with extents := d.extents.united r.extents }

def append (d r : QRegionPrivate) : QRegionPrivate :=
  if r.numRects = 1 then d.appendRect r.extents
  else updateBounds (copyAppend (tryMergeAppend d.vectorize r) r) r

/-- The variables of `prepend` when it has tried to merge rectangles. -/
structure Prepending where
  region : QRegionPrivate
  numPrepend : ℕ
  numSkip : ℕ
deriving DecidableEq, Repr

/-- The first rectangle has grown to the left: it is merged with the band below it. -/
def mergeFirstBand (s : Prepending) (r : QRegionPrivate) : Prepending :=
  if s.region.numRects > 1 then
    let nextToFirst := if s.region.numRects > 2 then some (s.region.rect 2) else none
    let rNextToLast := if s.numPrepend > 0 then some (r.rect (s.numPrepend - 1)) else none
    match s.region.mergeFromAbove (.rects 1) (s.region.rect 0) nextToFirst rNextToLast with
    | some d => ⟨{ d with numRects := d.numRects - 1 }, s.numPrepend, s.numSkip + 1⟩
    | none => s
  else s

/-- The first block of `prepend`. -/
def tryMergePrepend (d r : QRegionPrivate) : Prepending :=
  let nextToFirst := if d.numRects > 1 then some (d.rect 1) else none
  let rNextToLast := if r.numRects > 1 then some (r.rect (r.numRects - 2)) else none
  match d.mergeFromLeft (.rects 0) (r.rect (r.numRects - 1)) with
  | some d =>
    let numPrepend := r.numRects - 1
    let rNextToLast := if numPrepend > 1 then some (r.rect (numPrepend - 2)) else none
    -- `rLast` stands at the last rectangle that is left.
    let s : Prepending :=
      match d.mergeFromAbove (.rects 0) (r.rect (numPrepend - 1)) nextToFirst rNextToLast with
      | some d => ⟨d, numPrepend - 1, 0⟩
      | none => ⟨d, numPrepend, 0⟩
    mergeFirstBand s r
  | none =>
    match d.mergeFromAbove (.rects 0) (r.rect (r.numRects - 1)) nextToFirst rNextToLast with
    | some d => ⟨d, r.numRects - 1, 0⟩
    | none => ⟨d, r.numRects, 0⟩

/-- The rectangles are prepended that have not been merged; only then those of the region are
moved. -/
def copyPrepend (s : Prepending) (r : QRegionPrivate) : QRegionPrivate :=
  if s.numPrepend > 0 then
    let newNumRects := s.region.numRects + s.numPrepend
    let rects := enlarge s.region.rects newNumRects
    let rects := copy rects s.numPrepend ((rects.drop s.numSkip).take s.region.numRects)
    { s.region with
      rects := copy rects 0 (r.rects.take s.numPrepend)
      numRects := newNumRects }
  else s.region

def prepend (d r : QRegionPrivate) : QRegionPrivate :=
  if r.numRects = 1 then d.prependRect r.extents
  else updateBounds (copyPrepend (tryMergePrepend d.vectorize r) r) r

end QRegionPrivate
