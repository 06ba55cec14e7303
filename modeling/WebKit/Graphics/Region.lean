import Mathlib.Algebra.Order.Ring.Int
import WebKit.Lib.MachineInt
import WebKit.Lib.Scanline

/-!
# `Region`: rectangles, shapes and the scanline operation

The classes `IntRect`, `Region::Shape` and `Region`. A shape is two vectors: the spans, each a row's
`y` with the index of its first segment edge, and the edges of all rows. The span after the last
row carries no edges. Coordinates are values of `int`; their sums and differences wrap around.
-/

namespace WebKit.Graphics

open MachineInt.IntType (int)

structure IntPoint where
  x : Int
  y : Int
  deriving DecidableEq

structure IntRect where
  x : Int := 0
  y : Int := 0
  width : Int := 0
  height : Int := 0
  deriving DecidableEq

namespace IntRect

variable (r : IntRect)

def maxX : Int := int.convert (r.x + r.width)

def maxY : Int := int.convert (r.y + r.height)

def isEmpty : Bool := r.width ≤ 0 || r.height ≤ 0

/-- `contains(const IntPoint&)`. -/
def contains (p : IntPoint) : Bool :=
  p.x ≥ r.x && p.x < r.maxX && p.y ≥ r.y && p.y < r.maxY

variable (r other : IntRect)

/-- `contains(const IntRect&)`. -/
def containsRect : Bool :=
  r.x ≤ other.x && r.maxX ≥ other.maxX && r.y ≤ other.y && r.maxY ≥ other.maxY

def intersects : Bool :=
  !r.isEmpty && !other.isEmpty && r.x < other.maxX && other.x < r.maxX
    && r.y < other.maxY && other.y < r.maxY

def unite : IntRect :=
  if other.isEmpty then r
  else if r.isEmpty then other
  else
    let l := min r.x other.x
    let t := min r.y other.y
    let right := max r.maxX other.maxX
    let b := max r.maxY other.maxY
    ⟨l, t, int.convert (right - l), int.convert (b - t)⟩

end IntRect

/-- `Region::Span`: where a row starts, and where its edges start in the vector
of segments. -/
structure Span where
  y : Int
  segmentIndex : Nat
  deriving DecidableEq

/-- A span as the iterators see it: the row's `y` and its edges. -/
abbrev Row := Int × List Int

structure Shape where
  segments : List Int := []
  spans : List Span := []
  deriving DecidableEq

namespace Shape

def isEmpty (s : Shape) : Bool := s.spans.isEmpty

variable (s : Shape)

def isRect : Bool := s.spans.length ≤ 2 && s.segments.length ≤ 2

/-- The edges from `segments_begin(it)` to `segments_end(it)`; `next` is the span
`it + 1`. -/
def segmentsOf (segments : List Int) (it : Span) (next : Option Span) : List Int :=
  -- Check if this span has any segments.
  if it.segmentIndex = segments.length then []
  else
    match next with
    | some after => (segments.drop it.segmentIndex).take (after.segmentIndex - it.segmentIndex)
    | none => [] -- `ASSERT(it + 1 < m_spans.data() + m_spans.size())`

/-- The rows that an iteration over `spans` sees. -/
def rowsFrom (segments : List Int) : List Span → List Row
  | [] => []
  | it :: rest => (it.y, segmentsOf segments it rest.head?) :: rowsFrom segments rest

/-- The rows from `spans_begin` to `spans_end`. -/
def rows : List Row := rowsFrom s.segments s.spans

/-- `appendSpan(int y)`. -/
def appendSpanAt (y : Int) : Shape :=
  { s with spans := s.spans ++ [⟨y, s.segments.length⟩] }

def appendSegment (x : Int) : Shape :=
  { s with segments := s.segments ++ [x] }

def ofRect (rect : IntRect) : Shape :=
  ((((({} : Shape).appendSpanAt rect.y).appendSegment rect.x).appendSegment rect.maxX).appendSpanAt
    rect.maxY)

/-- Do the edges equal those of the last span? -/
def canCoalesce (edges : List Int) : Bool :=
  match s.spans.getLast? with
  | none => false
  | some last => s.segments.drop last.segmentIndex == edges

/-- `appendSpan(int y, SegmentIterator begin, SegmentIterator end)`. -/
def appendSpan (y : Int) (edges : List Int) : Shape :=
  if s.canCoalesce edges then s
  else
    let t := s.appendSpanAt y
    { t with segments := t.segments ++ edges }

def appendSpans (rows : List Row) : Shape :=
  rows.foldl (fun t row => t.appendSpan row.1 row.2) s

/-- The loop of `Shape::bounds`, on the pair `(minX, maxX)`. An empty row between two others reads
the first edge after it and the last one before it. -/
def boundsLoop (segments : List Int) : List Span → Int × Int → Int × Int
  | it :: next :: rest, (minX, maxX) =>
    if it.segmentIndex = segments.length then
      boundsLoop segments (next :: rest) (minX, maxX)
    else
      let firstSegment := segments.getD it.segmentIndex 0
      let lastSegment := segments.getD (next.segmentIndex - 1) 0
      boundsLoop segments (next :: rest)
        (if firstSegment < minX then firstSegment else minX,
         if lastSegment > maxX then lastSegment else maxX)
  | _, acc => acc

def intMax : Int := 2147483647

def intMin : Int := -2147483648

def bounds : IntRect :=
  match s.spans.head?, s.spans.getLast? with
  | some span, some lastSpan =>
    let (minX, maxX) := boundsLoop s.segments s.spans (intMax, intMin)
    ⟨minX, span.y, int.convert (maxX - minX), int.convert (lastSpan.y - span.y)⟩
  | _, _ => {}

/-! ### The scanline operation -/

/-- The three `Operation` classes. -/
inductive Operation where
  | union
  | intersect
  | subtract
  deriving DecidableEq

namespace Operation

def opCode : Operation → Nat
  | union => 0
  | intersect => 3
  | subtract => 1

def shouldAddRemainingSegmentsFromSpan1 : Operation → Bool
  | union => true
  | intersect => false
  | subtract => true

def shouldAddRemainingSegmentsFromSpan2 : Operation → Bool
  | union => true
  | intersect => false
  | subtract => false

def shouldAddRemainingSpansFromShape1 : Operation → Bool
  | union => true
  | intersect => false
  | subtract => true

def shouldAddRemainingSpansFromShape2 : Operation → Bool
  | union => true
  | intersect => false
  | subtract => false

def trySimpleOperation : Operation → Shape → Shape → Option Shape
  | union, shape1, shape2 => if shape1.isEmpty then some shape2 else none
  | intersect, _, _ => none
  | subtract, _, _ => none

end Operation

/-- `if (flag == opCode || oldFlag == opCode) segments.append(x)`, before the edges
that follow. -/
def emit (op : Operation) (oldFlag flag : Nat) (x : Int) (rest : List Int) : List Int :=
  if flag = op.opCode ∨ oldFlag = op.opCode then x :: rest else rest

/-- The edges of one row of the result. At the head of the loop `oldFlag` is `flag`. The sign of the
difference decides which edge comes first. -/
def mergeSegments (op : Operation) : List Int → List Int → Nat → List Int
  | e1 :: s1, e2 :: s2, flag =>
    if int.convert (e1 - e2) < 0 then
      emit op flag (flag ^^^ 1) e1 (mergeSegments op s1 (e2 :: s2) (flag ^^^ 1))
    else if 0 < int.convert (e1 - e2) then
      emit op flag (flag ^^^ 2) e2 (mergeSegments op (e1 :: s1) s2 (flag ^^^ 2))
    else
      emit op flag (flag ^^^ 1 ^^^ 2) e2 (mergeSegments op s1 s2 (flag ^^^ 1 ^^^ 2))
  | s1, s2, _ =>
    if op.shouldAddRemainingSegmentsFromSpan1 ∧ s1 ≠ [] then s1
    else if op.shouldAddRemainingSegmentsFromSpan2 ∧ s2 ≠ [] then s2
    else []
termination_by s1 s2 => s1.length + s2.length

/-- Add the span, unless it is empty and nothing precedes it. -/
def addSpan (result : Shape) (y : Int) (segments : List Int) : Shape :=
  if segments ≠ [] ∨ ¬ result.isEmpty then result.appendSpan y segments else result

/-- The loop over the spans. `segments1` and `segments2` are the edges of the rows the scanline is
in. -/
def spanLoop (op : Operation) (spans1 spans2 : List Row) (segments1 segments2 : List Int)
    (result : Shape) : Shape :=
  match spans1, spans2 with
  | row1 :: rest1, row2 :: rest2 =>
    if int.convert (row1.1 - row2.1) < 0 then
      spanLoop op rest1 (row2 :: rest2) row1.2 segments2
        (result.addSpan row1.1 (mergeSegments op row1.2 segments2 0))
    else if 0 < int.convert (row1.1 - row2.1) then
      spanLoop op (row1 :: rest1) rest2 segments1 row2.2
        (result.addSpan row2.1 (mergeSegments op segments1 row2.2 0))
    else
      spanLoop op rest1 rest2 row1.2 row2.2
        (result.addSpan row2.1 (mergeSegments op row1.2 row2.2 0))
  | spans1, spans2 =>
    -- Add any remaining spans.
    if op.shouldAddRemainingSpansFromShape1 ∧ spans1 ≠ [] then result.appendSpans spans1
    else if op.shouldAddRemainingSpansFromShape2 ∧ spans2 ≠ [] then result.appendSpans spans2
    else result
termination_by spans1.length + spans2.length

def shapeOperation (op : Operation) (shape1 shape2 : Shape) : Shape :=
  match op.trySimpleOperation shape1 shape2 with
  | some result => result
  | none => spanLoop op shape1.rows shape2.rows [] [] {}

variable (shape1 shape2 : Shape)

def unionShapes : Shape := shapeOperation .union shape1 shape2

def intersectShapes : Shape := shapeOperation .intersect shape1 shape2

def subtractShapes : Shape := shapeOperation .subtract shape1 shape2

/-! ### Comparing two shapes -/

/-- The two `CompareOperation` classes. -/
inductive CompareOperation where
  | contains
  | intersects
  deriving DecidableEq

namespace CompareOperation

def defaultResult : CompareOperation → Bool
  | contains => true
  | intersects => false

-- A callback that returns true ends the comparison with the result it has set:
-- that result is the value here, and `none` says that the comparison goes on.

def aOutsideB : CompareOperation → Option Bool
  | contains => none
  | intersects => none

def bOutsideA : CompareOperation → Option Bool
  | contains => some false
  | intersects => none

def aOverlapsB : CompareOperation → Option Bool
  | contains => none
  | intersects => some true

end CompareOperation

/-- `if (condition && callback(result)) return result`. -/
def stopIf (condition : Bool) (callback : Option Bool) : Option Bool :=
  if condition then callback else none

/-- The comparison of two overlapping rows. -/
def compareSegments (op : CompareOperation) : List Int → List Int → Option Bool
  | aX :: aMaxX :: as, bX :: bMaxX :: bs =>
    stopIf (bMaxX > aX && bX < aMaxX) op.aOverlapsB <|>
    stopIf (aX < bX) op.aOutsideB <|>
    stopIf (bX < aX) op.bOutsideA <|>
    (if aMaxX < bMaxX then compareSegments op as (bX :: bMaxX :: bs)
     else if bMaxX < aMaxX then compareSegments op (aX :: aMaxX :: as) bs
     else compareSegments op as bs)
  | as, bs => stopIf (as ≠ []) op.aOutsideB <|> stopIf (bs ≠ []) op.bOutsideA
termination_by as bs => as.length + bs.length

/-- The loop of `compareShapes` over the spans of both shapes, and the checks
after it. -/
def compareRows (op : CompareOperation) (as bs : List Row)
    (aHadSegmentInPreviousSpan bHadSegmentInPreviousSpan : Bool) : Bool :=
  match as, bs with
  | a :: a' :: as, b :: b' :: bs =>
    let aHasSegmentInSpan : Bool := a.2 ≠ []
    let bHasSegmentInSpan : Bool := b.2 ≠ []
    let stop :=
      stopIf (a.1 < b.1 && !bHadSegmentInPreviousSpan && aHasSegmentInSpan) op.aOutsideB <|>
      stopIf (b.1 < a.1 && !aHadSegmentInPreviousSpan && bHasSegmentInSpan) op.bOutsideA <|>
      (if b'.1 > a.1 ∧ b.1 < a'.1 then compareSegments op a.2 b.2 else none)
    match stop with
    | some result => result
    | none =>
      if a'.1 < b'.1 then
        compareRows op (a' :: as) (b :: b' :: bs) aHasSegmentInSpan bHasSegmentInSpan
      else if b'.1 < a'.1 then
        compareRows op (a :: a' :: as) (b' :: bs) aHasSegmentInSpan bHasSegmentInSpan
      else compareRows op (a' :: as) (b' :: bs) aHasSegmentInSpan bHasSegmentInSpan
  | as, bs =>
    (stopIf (2 ≤ as.length) op.aOutsideB <|> stopIf (2 ≤ bs.length) op.bOutsideA).getD
      op.defaultResult
termination_by as.length + bs.length

def compareShapes (op : CompareOperation) (aShape bShape : Shape) : Bool :=
  compareRows op aShape.rows bShape.rows false false

end Shape

/-- `Region`: a shape and its bounding box. -/
structure Region where
  bounds : IntRect := {}
  shape : Shape := {}
  deriving DecidableEq

namespace Region

def ofRect (rect : IntRect) : Region := ⟨rect, Shape.ofRect rect⟩

def isEmpty (r : Region) : Bool := r.bounds.isEmpty

def isRect (r : Region) : Bool := r.shape.isRect

def rowRects (y height : Int) : List Int → List IntRect
  | x :: maxX :: rest => ⟨x, y, int.convert (maxX - x), height⟩ :: rowRects y height rest
  | _ => []

/-- The outer loop of `rects`: every row but the last. -/
def rectsFrom : List Row → List IntRect
  | row :: next :: rest => rowRects row.1 (int.convert (next.1 - row.1)) row.2 ++ rectsFrom (next :: rest)
  | _ => []

def rects (r : Region) : List IntRect := rectsFrom r.shape.rows

variable (r region : Region)

/-- `contains(const Region&)`. -/
def containsRegion : Bool :=
  if !r.bounds.containsRect region.bounds then false
  else Shape.compareShapes .contains r.shape region.shape

/-- The loop of `contains(const IntPoint&)` over the segments of a row. -/
def rowContains (px : Int) : List Int → Bool
  | x :: maxX :: rest =>
    if x > px then false
    else if maxX > px then true
    else rowContains px rest
  | _ => false

/-- The loop of `contains(const IntPoint&)` over the spans. -/
def rowsContain (p : IntPoint) : List Row → Bool
  | row :: next :: rest =>
    if row.1 > p.y then false
    else if next.1 ≤ p.y then rowsContain p (next :: rest)
    else rowContains p.x row.2 || rowsContain p (next :: rest)
  | _ => false

/-- `contains(const IntPoint&)`. -/
def contains (r : Region) (p : IntPoint) : Bool :=
  if !r.bounds.contains p then false else rowsContain p r.shape.rows

/-- `intersects(const Region&)`. -/
def intersects (r region : Region) : Bool :=
  if !r.bounds.intersects region.bounds then false
  else Shape.compareShapes .intersects r.shape region.shape

def intersect : Region :=
  if r.bounds.isEmpty then r
  else if !r.bounds.intersects region.bounds then {}
  else
    let shape := Shape.intersectShapes r.shape region.shape
    ⟨shape.bounds, shape⟩

def unite (r region : Region) : Region :=
  if region.isEmpty then r
  else if r.isRect && r.bounds.containsRect region.bounds then r
  else if region.isRect && region.bounds.containsRect r.bounds then region
  else if !r.isRect && r.containsRegion region then r
  else ⟨r.bounds.unite region.bounds, Shape.unionShapes r.shape region.shape⟩

def subtract : Region :=
  if r.bounds.isEmpty then r
  else if region.isEmpty then r
  else if !r.bounds.intersects region.bounds then r
  else
    let shape := Shape.subtractShapes r.shape region.shape
    ⟨shape.bounds, shape⟩

end Region

end WebKit.Graphics
