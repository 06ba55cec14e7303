import Mathlib.Logic.Function.Basic
import WebKit.Lib.Runs

/-!
# Lines and pages of bmalloc's small objects

`Heap` hands out runs of free lines of a page as bump ranges. A line counts the objects that start
in it and are not free, a page its lines with objects. Pages with free lines wait in a list for
each size class, pages without objects in `m_smallPages` or the `VMHeap`.

All operations run under the lock of the heap: an event is one of them, or a thread that takes an
object from a bump range. Lists are vectors with the last element first.
-/

namespace WebKit.Bmalloc

/-! ## Sizes -/

def lineSize : Nat := 256

/-- `SmallPage::lineCount`, on a platform with pages of 4 kB. -/
def lineCount : Nat := 16

def vmPageSize : Nat := lineSize * lineCount

def bumpRangeCacheCapacity : Nat := 3

/-- The number of size classes of small objects, `smallMax / alignment`. -/
def sizeClassCount : Nat := 32

def objectSize (sizeClass : Nat) : Nat := (sizeClass + 1) * 8

/-! ## Metadata of lines -/

/-- Quotient and remainder. -/
def divideRoundingUp (numerator denominator : Nat) : Nat × Nat :=
  let quotient := numerator / denominator
  let remainder := numerator % denominator
  (if remainder ≠ 0 then quotient + 1 else quotient, remainder)

/-- `startOffset` of a line: objects of the line before may reach into it. -/
def startOffset (size : Nat) : Nat → Nat
  | 0 => 0
  | lineNumber + 1 =>
    let remainder := (divideRoundingUp (lineSize - startOffset size lineNumber) size).2
    if remainder ≠ 0 then size - remainder else 0

/-- `objectCount` of a line. The last line rounds down: its objects end in it. -/
def objectCount (size lineNumber : Nat) : Nat :=
  if lineNumber + 1 < lineCount then
    (divideRoundingUp (lineSize - startOffset size lineNumber) size).1
  else (lineSize - startOffset size lineNumber) / size

/-- The end of the lines that can hold objects. -/
def usableLines (size : Nat) : Nat :=
  if objectCount size (lineCount - 1) = 0 then lineCount - 1 else lineCount

/-! ## The heap -/

abbrev PageId : Type := Nat

/-- The address of an object, in its page. -/
structure Object where
  page : PageId
  offset : Nat
  deriving DecidableEq

/-- The number of the line an object starts in. -/
def Object.line (o : Object) : Nat := o.offset / lineSize

/-- Objects that a thread can hand out, with the size of its allocator. -/
structure BumpRange where
  page : PageId
  begin : Nat
  objectCount : Nat
  size : Nat
  deriving DecidableEq

def BumpRange.objects (r : BumpRange) : List Object :=
  (List.range r.objectCount).map fun k => ⟨r.page, r.begin + k * r.size⟩

structure Heap where
  /-- The lines of all chunks. -/
  lineRef : PageId → Nat → Nat
  pageRef : PageId → Nat
  pageClass : PageId → Nat
  smallPagesWithFreeLines : Nat → List PageId
  smallPages : List PageId
  /-- `m_smallPages` of the `VMHeap`. -/
  vmPages : List PageId
  /-- Pages whose memory the scavenger is releasing, without the lock. -/
  releasing : List PageId
  /-- All pages of all chunks. -/
  pages : List PageId
  /-- The bump ranges of all threads. -/
  ranges : List BumpRange
  /-- Objects that were handed out and whose line has not been dereferenced since. -/
  live : List Object

namespace Heap

def initial : Heap where
  lineRef _ _ := 0
  pageRef _ := 0
  pageClass _ := 0
  smallPagesWithFreeLines _ := []
  smallPages := []
  vmPages := []
  releasing := []
  pages := []
  ranges := []
  live := []

def setFreeLines (h : Heap) (sizeClass : Nat) (list : List PageId) : Heap :=
  { h with smallPagesWithFreeLines := Function.update h.smallPagesWithFreeLines sizeClass list }

/-! ## `allocateSmallBumpRanges` -/

/-- The first page of the list that was not promoted to the list of pages, and the rest. -/
def popPage (h : Heap) (sizeClass : Nat) : List PageId → Option (PageId × List PageId)
  | [] => none
  | page :: rest =>
    if h.pageRef page = 0 ∨ h.pageClass page ≠ sizeClass then h.popPage sizeClass rest
    else some (page, rest)

/-- `VMHeap::grow`. The pages of a new chunk are not known. -/
def grow (h : Heap) (fresh : List PageId) : Option Heap :=
  if fresh ≠ [] ∧ fresh.Nodup ∧ ∀ page ∈ fresh, page ∉ h.pages then
    some { h with vmPages := fresh ++ h.vmPages, pages := fresh ++ h.pages }
  else none

/-- `VMHeap::allocateSmallPage`. -/
def allocateVMPage (h : Heap) (fresh : List PageId) : Option (PageId × Heap) :=
  match h.vmPages with
  | page :: rest => some (page, { h with vmPages := rest })
  | [] => do
    let h ← h.grow fresh
    match h.vmPages with
    | page :: rest => some (page, { h with vmPages := rest })
    | [] => none

/-- A page without objects. -/
def allocateEmptyPage (h : Heap) (fresh : List PageId) : Option (PageId × Heap) :=
  match h.smallPages with
  | page :: rest => some (page, { h with smallPages := rest })
  | [] => h.allocateVMPage fresh

def allocateSmallPage (h : Heap) (sizeClass : Nat) (fresh : List PageId) :
    Option (PageId × Heap) :=
  match h.popPage sizeClass (h.smallPagesWithFreeLines sizeClass) with
  | some (page, rest) => some (page, h.setFreeLines sizeClass rest)
  | none => do
    let (page, h) ← (h.setFreeLines sizeClass []).allocateEmptyPage fresh
    some (page, { h with pageClass := Function.update h.pageClass page sizeClass })

end Heap

/-- A page while its lines are scanned. -/
structure Scan where
  lineRef : Nat → Nat
  pageRef : Nat
  ranges : List BumpRange := []
  /-- A free range did not fit in the cache. -/
  overflow : Bool := false

namespace Scan

/-- `ref` of the line and of the page. -/
def ref (s : Scan) (lineNumber count : Nat) : Scan :=
  { s with lineRef := Function.update s.lineRef lineNumber count, pageRef := s.pageRef + 1 }

def push (s : Scan) (r : BumpRange) : Scan := { s with ranges := s.ranges ++ [r] }

/-- The size of the cache: the first range goes to the allocator. -/
def cacheSize (s : Scan) : Nat := s.ranges.length - 1

def beginRange (page : PageId) (size lineNumber : Nat) : BumpRange :=
  ⟨page, lineNumber * lineSize + startOffset size lineNumber, objectCount size lineNumber, size⟩

/-- The range with the objects of the next line. -/
def extendRange (r : BumpRange) (lineNumber : Nat) : BumpRange :=
  { r with objectCount := r.objectCount + objectCount r.size lineNumber }

/-- The two loops of `allocateSmallBumpRanges`, over the lines that remain. The inner one has a
range that free lines are merged with. -/
def lines (page : PageId) (size : Nat) : List Nat → Option BumpRange → Scan → Scan
  | [], none, s => s
  | [], some r, s => s.push r
  | lineNumber :: rest, none, s =>
    if s.lineRef lineNumber ≠ 0 then lines page size rest none s
    else if s.cacheSize = bumpRangeCacheCapacity then { s with overflow := true }
    else lines page size rest (some (beginRange page size lineNumber))
      (s.ref lineNumber (objectCount size lineNumber))
  | lineNumber :: rest, some r, s =>
    if s.lineRef lineNumber ≠ 0 then lines page size rest none (s.push r)
    else lines page size rest (some (extendRange r lineNumber))
      (s.ref lineNumber (objectCount size lineNumber))

end Scan

namespace Heap

def scan (h : Heap) (page : PageId) (sizeClass : Nat) : Scan :=
  Scan.lines page (objectSize sizeClass) (List.range (usableLines (objectSize sizeClass))) none
    { lineRef := h.lineRef page, pageRef := h.pageRef page }

def withScan (h : Heap) (page : PageId) (sizeClass : Nat) (s : Scan) : Heap :=
  let h := { h with
    lineRef := Function.update h.lineRef page s.lineRef
    pageRef := Function.update h.pageRef page s.pageRef
    ranges := h.ranges ++ s.ranges }
  if s.overflow then h.setFreeLines sizeClass (page :: h.smallPagesWithFreeLines sizeClass)
  else h

def allocateSmallBumpRanges (h : Heap) (sizeClass : Nat) (fresh : List PageId) : Option Heap := do
  let (page, h) ← h.allocateSmallPage sizeClass fresh
  some (h.withScan page sizeClass (h.scan page sizeClass))

/-! ## Frees -/

def deallocateSmallLine (h : Heap) (page : PageId) : Heap :=
  let refCount := h.pageRef page
  let h := { h with pageRef := Function.update h.pageRef page (refCount - 1) }
  if refCount = lineCount then
    h.setFreeLines (h.pageClass page) (page :: h.smallPagesWithFreeLines (h.pageClass page))
  else if refCount = 1 then { h with smallPages := page :: h.smallPages }
  else h

def derefLine (h : Heap) (page : PageId) (lineNumber : Nat) : Heap :=
  { h with
    lineRef := Function.update h.lineRef page
      (Function.update (h.lineRef page) lineNumber (h.lineRef page lineNumber - 1)) }

/-- `derefSmallLine` of the line of an object. -/
def derefSmallLine (h : Heap) (o : Object) : Heap :=
  let h := h.derefLine o.page o.line
  if h.lineRef o.page o.line = 0 then h.deallocateSmallLine o.page else h

end Heap

/-! ## The machine -/

inductive Event
  /-- `allocateSmallBumpRanges` of a thread without a range. If the `VMHeap` grows, the new chunk
  has these pages. -/
  | allocate (sizeClass : Nat) (fresh : List PageId)
  /-- A thread hands out the next object of one of its ranges. -/
  | handOut (range : Nat)
  /-- An object that was handed out is freed. -/
  | free (o : Object)
  /-- The `VMHeap` grows for other objects. -/
  | grow (fresh : List PageId)
  /-- The scavenger takes a page and drops the lock. -/
  | scavengeBegin
  /-- It has released the memory of a page and has the lock again. -/
  | scavengeEnd (page : PageId)
  deriving DecidableEq

namespace Heap

/-- `BumpAllocator::allocate`. -/
def handOut (h : Heap) (range : Nat) : Option Heap :=
  match h.ranges[range]? with
  | none => none
  | some r =>
    if r.objectCount = 0 then none
    else some { h with
      ranges := h.ranges.set range
        { r with begin := r.begin + r.size, objectCount := r.objectCount - 1 }
      live := ⟨r.page, r.begin⟩ :: h.live }

def step (h : Heap) : Event → Option Heap
  | .allocate sizeClass fresh =>
    if sizeClass < sizeClassCount then h.allocateSmallBumpRanges sizeClass fresh else none
  | .handOut range => h.handOut range
  | .free o =>
    if o ∈ h.live then some ({ h with live := h.live.erase o }.derefSmallLine o) else none
  | .grow fresh => h.grow fresh
  | .scavengeBegin =>
    match h.smallPages with
    | [] => none
    | page :: rest => some { h with smallPages := rest, releasing := page :: h.releasing }
  | .scavengeEnd page =>
    if page ∈ h.releasing then
      some { h with releasing := h.releasing.erase page, vmPages := page :: h.vmPages }
    else none

end Heap

end WebKit.Bmalloc
