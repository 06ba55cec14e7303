import WebKit.Dfg.Int32Block

/-!
# `IntegerCheckCombiningPhase`

Checked additions of constants to one value, and bounds checks of one value plus constants against
one length, are combined: checks for the smallest and the largest constant come before the first of
them, and none needs a check of its own. For constant indices only the largest is checked, so
nothing checks the negative ones.
-/

namespace WebKit.Dfg

/-- `RangeKey`. A bounds check of a constant has no source. -/
inductive RangeKey where
  | addition (source : Nat)
  | arrayBounds (source : Option Nat) (key : Nat)
  deriving DecidableEq

/-- `Range`, without the code origins. -/
structure Range where
  minBound : Int32
  maxBound : Int32
  count : Nat
  hoisted : Bool
  deriving DecidableEq

namespace Range

def empty : Range := ⟨0, 0, 0, false⟩

def extend (range : Range) (addend : Int32) : Range :=
  if range.count ≠ 0 then
    if range.maxBound.toInt < addend.toInt then
      { range with maxBound := addend, count := range.count + 1 }
    else if addend.toInt < range.minBound.toInt then
      { range with minBound := addend, count := range.count + 1 }
    else { range with count := range.count + 1 }
  else { range with minBound := addend, maxBound := addend, count := range.count + 1 }

end Range

abbrev RangeMap := RangeKey → Range

def isValid (key : RangeKey) (range : Range) : Bool :=
  if range.count < 2 then false
  else
    match key with
    | .arrayBounds _ _ => (range.maxBound - range.minBound) >>> 31 == 0
    | .addition _ => true

namespace BasicBlock

variable (b : BasicBlock)

/-- `isInt32Constant()` and `asInt32()`. -/
def int32Constant (node : Nat) : Option Int32 :=
  match b.op node with
  | .constant value => some value
  | _ => none

/-- The source and the addend of an index. -/
def indexSource (index : Nat) : Option Nat × Int32 :=
  match b.int32Constant index with
  | some addend => (none, addend)
  | none =>
    match b.op index with
    | .arithAdd child1 child2 _ =>
      match b.int32Constant child2 with
      | some addend => (some child1, addend)
      | none => (some index, 0)
    | _ => (some index, 0)

def rangeKeyAndAddend (node : Nat) : Option (RangeKey × Int32) :=
  match b.op node with
  | .arithAdd child1 child2 mode =>
    if mode = .unchecked then none
    else (b.int32Constant child2).map (fun addend => (.addition child1, addend))
  | .checkInBounds index length =>
    let (source, addend) := b.indexSource index
    some (.arrayBounds source length, addend)
  | _ => none

/-- The first loop of `handleBlock`. -/
def collectRanges : RangeMap → List Nat → RangeMap
  | ranges, [] => ranges
  | ranges, node :: rest =>
    match b.rangeKeyAndAddend node with
    | none => collectRanges ranges rest
    | some (key, addend) =>
      collectRanges (Function.update ranges key ((ranges key).extend addend)) rest

end BasicBlock

/-! ## Hoisting -/

/-- What is inserted, and the next number for a new node. -/
structure Inserted where
  instructions : List (Nat × Op)
  fresh : Nat

/-- `insertAdd`: the node of the sum, and what is inserted. -/
def insertAdd (fresh source : Nat) (addend : Int32) (mode : ArithMode) : Nat × Inserted :=
  if addend = 0 then (source, ⟨[], fresh⟩)
  else
    (fresh + 1,
      ⟨[(fresh, .constant addend), (fresh + 1, .arithAdd source fresh mode)], fresh + 2⟩)

def hoist (fresh : Nat) (key : RangeKey) (range : Range) : Inserted :=
  match key with
  | .addition source =>
    let first : Inserted :=
      if range.minBound.toInt < 0 then
        (insertAdd fresh source range.minBound .checkOverflow).2
      else ⟨[], fresh⟩
    let second : Inserted :=
      if 0 < range.maxBound.toInt then
        (insertAdd first.fresh source range.maxBound .checkOverflow).2
      else ⟨[], first.fresh⟩
    ⟨first.instructions ++ second.instructions, second.fresh⟩
  | .arrayBounds none length =>
    ⟨[(fresh, .constant range.maxBound), (fresh + 1, .checkInBounds fresh length)], fresh + 2⟩
  | .arrayBounds (some source) length =>
    let (minNode, first) := insertAdd fresh source range.minBound .unchecked
    let (maxNode, second) := insertAdd first.fresh source range.maxBound .unchecked
    ⟨first.instructions ++ second.instructions ++
      [(second.fresh, .checkInBounds minNode length),
        (second.fresh + 1, .checkInBounds maxNode length)], second.fresh + 2⟩

/-- The elimination of `handleBlock`: `setArithMode(Arith::Unchecked)` or `remove()`. -/
def eliminate : RangeKey → Op → Op
  | .addition _, .arithAdd child1 child2 _ => .arithAdd child1 child2 .unchecked
  | .addition _, op => op
  | .arrayBounds _ _, _ => .check

namespace BasicBlock

variable (b : BasicBlock)

/-- The second loop of `handleBlock`, with the inserted nodes in their places. -/
def transformLoop : RangeMap → Nat → List Nat → List (Nat × Op)
  | _, _, [] => []
  | ranges, fresh, node :: rest =>
    match b.rangeKeyAndAddend node with
    | none => (node, b.op node) :: transformLoop ranges fresh rest
    | some (key, _) =>
      let range := ranges key
      if !isValid key range then (node, b.op node) :: transformLoop ranges fresh rest
      else if range.hoisted then
        (node, eliminate key (b.op node)) :: transformLoop ranges fresh rest
      else
        let inserted := hoist fresh key range
        let ranges := Function.update ranges key { range with hoisted := true }
        inserted.instructions ++
          (node, eliminate key (b.op node)) :: transformLoop ranges inserted.fresh rest

/-- The ranges after the first loop. -/
def ranges : RangeMap := b.collectRanges (fun _ => .empty) b.nodes

def handleBlock : List (Nat × Op) := b.transformLoop b.ranges b.size b.nodes

/-- Where the transformed block runs to its end the block itself does, with the same values. -/
def PreservesChecks : Prop :=
  ∀ values, b.Inputs values → ∀ values', run values b.handleBlock = some values' →
    ∃ values'', run values (b.instructions b.nodes) = some values'' ∧
      ∀ node < b.size, values'' node = values' node

/-- Of the constant indices that are combined, none is negative. -/
def ConstantIndicesNonneg : Prop :=
  ∀ length, isValid (.arrayBounds none length) (b.ranges (.arrayBounds none length)) = true →
    0 ≤ (b.ranges (.arrayBounds none length)).minBound.toInt

end BasicBlock

end WebKit.Dfg
