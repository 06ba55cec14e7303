import WebKit.Lib.RangeOverlay

/-!
# `MutableRangeList`

Ranges in a vector, linked by index: the first range is element zero, and an index of zero means
that there is no next range. `extend` merges a sorted sequence of ranges into the list, splitting
ranges where the two overlap.

An access outside the vector is `none`. That the indices form one chain is a field of
`MutableRangeList`.
-/

namespace WebKit.ContentExtensions

open RangeOverlay

variable {α β : Type}

structure MutableRange (α : Type) where
  data : α
  nextRangeIndex : Nat
  first : Nat
  last : Nat

/-- How data of the other sequence becomes data of this list, alone or added to existing data. -/
structure DataConverter (α β : Type) where
  convert : β → α
  extend : α → β → α

/-- The range without its link. -/
def MutableRange.toRange (r : MutableRange α) : Range α := ⟨r.first, r.last, r.data⟩

namespace RangeVector

/-- The vector, and the two indices it updates. Inserting before element zero moves that to the end.
-/
def insertBetween (ranges : List (MutableRange α)) (leftRangeIndex rightRangeIndex : Nat)
    (first last : Nat) (data : α) : Option (List (MutableRange α) × Nat × Nat) :=
  if rightRangeIndex = 0 then do
    let front ← ranges[0]?
    let movedRangeIndex := ranges.length
    let inserted : MutableRange α := ⟨data, movedRangeIndex, first, last⟩
    some ((ranges ++ [front]).set 0 inserted, 0, movedRangeIndex)
  else do
    let newRangeIndex := ranges.length
    let inserted : MutableRange α := ⟨data, rightRangeIndex, first, last⟩
    let left ← ranges[leftRangeIndex]?
    some ((ranges ++ [inserted]).set leftRangeIndex
      { left with nextRangeIndex := newRangeIndex }, newRangeIndex, rightRangeIndex)

/-- `appendRange`: the vector, and the index of the new range. -/
def appendRange (ranges : List (MutableRange α)) (lastRangeIndex first last : Nat) (data : α) :
    Option (List (MutableRange α) × Nat) :=
  let newRangeIndex := ranges.length
  let appended : List (MutableRange α) := ranges ++ [⟨data, 0, first, last⟩]
  if newRangeIndex = 0 then some (appended, 0)
  else do
    let previous ← ranges[lastRangeIndex]?
    some (appended.set lastRangeIndex { previous with nextRangeIndex := newRangeIndex },
      newRangeIndex)

/-- What is left of the other sequence is appended. Its first range starts `otherRangeOffset` later.
-/
def appendAll (convert : β → α) (ranges : List (MutableRange α)) (lastSelfRangeIndex : Nat) :
    List (Range β) → Nat → Option (List (MutableRange α))
  | [], _ => some ranges
  | other :: rest, otherRangeOffset => do
    let (ranges, lastSelfRangeIndex) ← appendRange ranges lastSelfRangeIndex
      (other.first + otherRangeOffset) other.last (convert other.data)
    appendAll convert ranges lastSelfRangeIndex rest 0

/-- The variables of the main loop, with what the other iterator has still to visit. -/
structure LoopState (α β : Type) where
  ranges : List (MutableRange α)
  lastSelfRangeIndex : Nat
  selfRangeIndex : Nat
  reachedSelfEnd : Bool
  others : List (Range β)
  otherRangeOffset : Nat

/-- `lastSelfRangeIndex = selfRangeIndex; selfRangeIndex = activeSelfRange->nextRangeIndex;
reachedSelfEnd = !selfRangeIndex`. -/
def LoopState.advanceSelf (st : LoopState α β) (active : MutableRange α) : LoopState α β :=
  { st with
    lastSelfRangeIndex := st.selfRangeIndex
    selfRangeIndex := active.nextRangeIndex
    reachedSelfEnd := active.nextRangeIndex == 0 }

/-- `++otherIterator; otherRangeOffset = 0`. -/
def LoopState.advanceOther (st : LoopState α β) : LoopState α β :=
  { st with others := st.others.tail, otherRangeOffset := 0 }

variable (conv : DataConverter α β)

/-- The part on the left of the two colliding ranges, if any, becomes a range of
its own. -/
def splitLeft (st : LoopState α β) (active : MutableRange α)
    (other : Range β) : Option (LoopState α β) :=
  if active.first < other.first + st.otherRangeOffset then do
    let shrunk := st.ranges.set st.selfRangeIndex
      { active with first := other.first + st.otherRangeOffset }
    let (ranges, left, right) ← insertBetween shrunk st.lastSelfRangeIndex st.selfRangeIndex
      active.first (other.first + st.otherRangeOffset - 1) active.data
    some { st with ranges := ranges, lastSelfRangeIndex := left, selfRangeIndex := right }
  else if other.first + st.otherRangeOffset < active.first then do
    let (ranges, left, right) ← insertBetween st.ranges st.lastSelfRangeIndex st.selfRangeIndex
      (other.first + st.otherRangeOffset) (active.first - 1) (conv.convert other.data)
    let active ← ranges[right]?
    some { st with
      ranges := ranges
      lastSelfRangeIndex := left
      selfRangeIndex := right
      otherRangeOffset := active.first - other.first }
  else some st

/-- Both ranges start at the same point: merges the part that intersects. -/
def mergeIntersection (st : LoopState α β) (other : Range β) :
    Option (LoopState α β) := do
  let active ← st.ranges[st.selfRangeIndex]?
  if active.last = other.last then
    let merged := { active with data := conv.extend active.data other.data }
    some (({ st with ranges := st.ranges.set st.selfRangeIndex merged }.advanceSelf
      merged).advanceOther)
  else if other.last < active.last then
    let shrunk := st.ranges.set st.selfRangeIndex { active with first := other.last + 1 }
    let (ranges, left, right) ← insertBetween shrunk st.lastSelfRangeIndex st.selfRangeIndex
      active.first other.last (conv.extend active.data other.data)
    some ({ st with
      ranges := ranges, lastSelfRangeIndex := left, selfRangeIndex := right }.advanceOther)
  else
    let merged := { active with data := conv.extend active.data other.data }
    some ({ st with
      ranges := st.ranges.set st.selfRangeIndex merged
      otherRangeOffset := active.last - other.first + 1 }.advanceSelf merged)

/-- One iteration of the main loop of `extend`. -/
def extendStep (st : LoopState α β) (other : Range β) :
    Option (LoopState α β) := do
  let active ← st.ranges[st.selfRangeIndex]?
  if active.last < other.first + st.otherRangeOffset then some (st.advanceSelf active)
  else if other.last < active.first then
    let (ranges, left, right) ← insertBetween st.ranges st.lastSelfRangeIndex st.selfRangeIndex
      (other.first + st.otherRangeOffset) other.last (conv.convert other.data)
    some ({ st with
      ranges := ranges, lastSelfRangeIndex := left, selfRangeIndex := right }.advanceOther)
  else
    let st ← splitLeft conv st active other
    mergeIntersection conv st other

/-- The main loop of `extend`, with a bound on the number of iterations. -/
def extendLoop (conv : DataConverter α β) : Nat → LoopState α β → Option (LoopState α β)
  | 0, _ => none
  | fuel + 1, st =>
    if st.reachedSelfEnd then some st
    else
      match st.others with
      | [] => some st
      | other :: _ => do
        let st ← extendStep conv st other
        extendLoop conv fuel st

/-- `initializeFrom`: the vector of a list that was empty, linked in order. -/
def initializeFrom (convert : β → α) (others : List (Range β)) : List (MutableRange α) :=
  others.mapIdx fun i other =>
    ⟨convert other.data, if i + 1 = others.length then 0 else i + 1, other.first, other.last⟩

def extend (ranges : List (MutableRange α))
    (others : List (Range β)) : Option (List (MutableRange α)) :=
  if others.isEmpty then some ranges
  else if ranges.isEmpty then some (initializeFrom conv.convert others)
  else do
    let st ← extendLoop conv (ranges.length + others.length + 1)
      ⟨ranges, 0, 0, false, others, 0⟩
    appendAll conv.convert st.ranges st.lastSelfRangeIndex st.others st.otherRangeOffset

/-- The iterator: the ranges from an index on, following the links. -/
def iterate (ranges : List (MutableRange α)) : Nat → Nat → List (Range α)
  | 0, _ => []
  | fuel + 1, index =>
    match ranges[index]? with
    | none => []
    | some r =>
      r.toRange :: if r.nextRangeIndex = 0 then [] else iterate ranges fuel r.nextRangeIndex

end RangeVector

end WebKit.ContentExtensions
