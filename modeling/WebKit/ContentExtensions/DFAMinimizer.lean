import WebKit.ContentExtensions.DFA
import WebKit.ContentExtensions.MutableRangeListExtend
import WebKit.ContentExtensions.Partition
import Mathlib.Algebra.Ring.Nat

/-!
# `DFAMinimizer`

Merging the nodes that no string tells apart. The transitions are cut into singular ranges, which
no range of any node cuts, and sorted by counting: by target, and by singular range. Nodes are
partitioned by their actions first, then by the sets of transitions, one after the other.

Counters and positions are unbounded here; an automaton with fewer than `2 ^ 25` nodes does not
exceed their 32 bits.
-/

namespace WebKit.ContentExtensions

open RangeOverlay Vectors

/-! ## Singular transitions -/

/-- The first loop of `iterateIntersections`, to the first singular range that starts at the
character. The list starts at `index`. -/
def skipTo (firstCharacter : Nat) : List Nat → Nat → List Nat × Nat
  | [], index => ([], index)
  | first :: rest, index =>
    if first ≠ firstCharacter then skipTo firstCharacter rest (index + 1)
    else (first :: rest, index)

/-- The second loop of `iterateIntersections`: the singular ranges that start up to the last
character. -/
def takeUpTo (lastCharacter : Nat) : List Nat → Nat → List Nat × List Nat × Nat
  | [], index => ([], [], index)
  | first :: rest, index =>
    if first ≤ lastCharacter then
      let handled := takeUpTo lastCharacter rest (index + 1)
      (index :: handled.1, handled.2)
    else ([], first :: rest, index)

/-- The loop of `iterateIntersections`, as the list of the calls of the handler. -/
def intersectionsFrom : List (Range Nat) → List Nat → Nat → List (Nat × Range Nat)
  | [], _, _ => []
  | other :: others, firsts, index =>
    let skipped := skipTo other.first firsts index
    let handled := takeUpTo other.last (skipped.1.drop 1) (skipped.2 + 1)
    (skipped.2 :: handled.1).map (fun index => (index, other)) ++
      intersectionsFrom others handled.2.1 handled.2.2

/-- `iterateIntersections`: the singular ranges that the transitions are made of. -/
def iterateIntersections (singularTransitionsFirsts : List Nat)
    (iterableTransitionList : List (Range Nat)) : List (Nat × Range Nat) :=
  intersectionsFrom iterableTransitionList singularTransitionsFirsts 0

def counterConverter : DataConverter Nat Nat where
  convert _ := 1
  extend destination _ := destination + 1

variable (dfa : DFA)

/-- The singular ranges of an automaton, each with the number of nodes that have it. -/
def singularTransitions : MutableRangeList Nat :=
  dfa.nodes.foldl
    (fun ranges node =>
      if node.isKilled then ranges else ranges.extend counterConverter (node.transitions dfa))
    MutableRangeList.empty

/-- A transition from one node to another on a singular range. -/
structure SingularTransition where
  singular : Nat
  source : Nat
  target : Nat
deriving DecidableEq

/-- The singular transitions of a node. -/
def singularTransitionsOf (firsts : List Nat) (dfa : DFA) (index : Nat) :
    List SingularTransition :=
  match dfa.nodes[index]? with
  | none => []
  | some node =>
    if node.isKilled then []
    else (iterateIntersections firsts (node.transitions dfa)).map fun call =>
      ⟨call.1, index, call.2.data⟩

/-- The singular transitions of all nodes, in the order the handlers see them. -/
def allSingularTransitions (firsts : List Nat) (dfa : DFA) : List SingularTransition :=
  (List.range dfa.nodes.length).flatMap (singularTransitionsOf firsts dfa)

/-! ## The graph -/

/-- `FullGraphPartition`. A flattened transition is its source. -/
structure FullGraphPartition where
  flattenedTransitionsStartOffsetPerNode : List Nat
  flattenedTransitionsSizePerNode : List Nat
  flattenedTransitions : List Nat
  nodePartition : Partition
  transitionPartition : Partition
  nextTransitionSetToProcess : Nat := 0
deriving DecidableEq

/-- Adding a set for each singular range, of the size of its counter. -/
def addTransitionSets : List (Range Nat) → Nat → Partition → Partition
  | [], _, p => p
  | range :: rest, rangeIndexAccumulator, p =>
    addTransitionSets rest (rangeIndexAccumulator + range.data)
      (p.addSetUnchecked rangeIndexAccumulator range.data)

/-- Counting the transitions into each node. -/
def countIncoming (nodeCount : Nat) (transitions : List SingularTransition) : List Nat :=
  transitions.foldl (fun counts t => counts.set t.target (counts.getD t.target 0 + 1))
    (List.replicate nodeCount 0)

/-- Turning counts into the start of each bucket. -/
def accumulate : List Nat → Nat → List Nat
  | [], _ => []
  | count :: rest, accumulator => accumulator :: accumulate rest (accumulator + count)

/-- What the last loop of the constructor fills. -/
structure FillState where
  sizePerNode : List Nat
  perRangeOffset : List Nat
  flattened : List Nat
  partition : Partition

/-- One call of the handler of the last loop of the constructor. -/
def fillTransition (startOffsetPerNode : List Nat) (st : FillState) (t : SingularTransition) :
    FillState :=
  let positionInFlattenedTransitions :=
    startOffsetPerNode.getD t.target 0 + st.sizePerNode.getD t.target 0
  let inRangeOffset := st.perRangeOffset.getD t.singular 0
  let positionInTransitionPartition := st.partition.startOffsetOfSet t.singular + inRangeOffset
  { sizePerNode := st.sizePerNode.set t.target (st.sizePerNode.getD t.target 0 + 1)
    perRangeOffset := st.perRangeOffset.set t.singular (inRangeOffset + 1)
    flattened := st.flattened.set positionInFlattenedTransitions t.source
    partition := st.partition.setElementUnchecked positionInFlattenedTransitions
      positionInTransitionPartition t.singular }

namespace FullGraphPartition

/-- The constructor of `FullGraphPartition`. -/
def ofDFA : FullGraphPartition :=
  let singular := (singularTransitions dfa).toList
  let firsts := singular.map (·.first)
  let transitions := allSingularTransitions firsts dfa
  let startOffsets := accumulate (countIncoming dfa.nodes.length transitions) 0
  let sets := addTransitionSets singular 0 {}
  let filled := transitions.foldl (fillTransition startOffsets)
    ⟨List.replicate dfa.nodes.length 0, List.replicate sets.sets.length 0,
      List.replicate transitions.length 0,
      sets.reserveUninitializedCapacity transitions.length⟩
  { flattenedTransitionsStartOffsetPerNode := startOffsets
    flattenedTransitionsSizePerNode := filled.sizePerNode
    flattenedTransitions := filled.flattened
    nodePartition := Partition.initializePartition dfa.nodes.length
    transitionPartition := filled.partition }

variable (g : FullGraphPartition) (nodeIndex : Nat)

def markNode : FullGraphPartition :=
  { g with nodePartition := g.nodePartition.markElementInCurrentGeneration nodeIndex }

/-- The transitions into a node, by their position. -/
def incomingTransitions : List Nat :=
  List.range' (g.flattenedTransitionsStartOffsetPerNode.getD nodeIndex 0)
    (g.flattenedTransitionsSizePerNode.getD nodeIndex 0)

/-- What `refinePartitions` does with a new set: the transitions into it are split from the others.
-/
def splitTransitions (nodes : Partition) (smallestSetIndex : Nat)
    (transitions : Partition) : Partition :=
  let marked := (nodes.iterateSet smallestSetIndex).foldl
    (fun transitions nodeIndex => (g.incomingTransitions nodeIndex).foldl
      Partition.markElementInCurrentGeneration transitions) transitions
  (marked.refineGeneration (fun _ _ state => state) ()).1

def refinePartitions : FullGraphPartition :=
  let refined := g.nodePartition.refineGeneration g.splitTransitions g.transitionPartition
  { g with nodePartition := refined.1, transitionPartition := refined.2 }

/-- Marking the sources of the set of transitions that is processed. -/
def markSources : FullGraphPartition :=
  (g.transitionPartition.iterateSet g.nextTransitionSetToProcess).foldl
    (fun g transitionIndex => g.markNode (g.flattenedTransitions.getD transitionIndex 0)) g

/-- `FullGraphPartition::splitByUniqueTransitions`, with a bound on the iterations. -/
def splitByUniqueTransitions : Nat → FullGraphPartition → Option FullGraphPartition
  | 0, _ => none
  | fuel + 1, g =>
    if g.nextTransitionSetToProcess < g.transitionPartition.sets.length then
      let refined := g.markSources.refinePartitions
      splitByUniqueTransitions fuel
        { refined with nextTransitionSetToProcess := refined.nextTransitionSetToProcess + 1 }
    else some g

def nodeReplacement : Nat :=
  g.nodePartition.firstElementInSet (g.nodePartition.setIndex nodeIndex)

end FullGraphPartition

/-! ## Minimizing -/

/-- Adding a node to the entry of its actions. -/
def addFinalState (actions : List Nat) (index : Nat) :
    List (List Nat × List Nat) → List (List Nat × List Nat)
  | [] => [(actions, [index])]
  | (key, value) :: rest =>
    if key = actions then (key, value ++ [index]) :: rest
    else (key, value) :: addFinalState actions index rest

/-- The map `finalStates`: the nodes that have actions, by their actions. -/
def finalStates : List (List Nat × List Nat) :=
  (List.range dfa.nodes.length).foldl
    (fun map i =>
      match dfa.nodes[i]? with
      | none => map
      | some node => if node.hasActions then addFinalState (node.actions dfa) i map else map)
    []

/-- The order in which a hash map is iterated. -/
structure SlotOrder where
  slots : List (List Nat × List Nat) → List (List Nat × List Nat)
  perm : ∀ map, (slots map).Perm map

/-- `DFANode::kill` overwrites the memory of the node, too; a range of `-1` is one of 255. -/
def DFA.kill (index : Nat) : DFA :=
  match dfa.nodes[index]? with
  | none => dfa
  | some node =>
    { dfa with
      nodes := dfa.nodes.set index ⟨0, 0, 0, 0, true⟩
      transitionRanges := (List.range' node.transitionsStart node.transitionsLength).foldl
        (fun ranges i => ranges.set i ⟨255, 255⟩) dfa.transitionRanges
      transitionDestinations := (List.range' node.transitionsStart node.transitionsLength).foldl
        (fun destinations i => destinations.set i (2 ^ 32 - 1)) dfa.transitionDestinations
      actions := (List.range' node.actionsStart node.actionsLength).foldl
        (fun actions i => actions.set i (2 ^ 64 - 1)) dfa.actions }

/-- The loop that fills the relocation vector and kills the nodes that are replaced. -/
def killReplaced (replacement : Nat → Nat) (dfa : DFA) : List Nat × DFA :=
  (List.range dfa.nodes.length).foldl
    (fun (st : List Nat × DFA) i =>
      if i ≠ replacement i then (st.1.set i (replacement i), st.2.kill i) else st)
    (List.range dfa.nodes.length, dfa)

/-- The transitions of a node led to the nodes that replace their targets. -/
def DFA.relocateTransitions (relocationVector : List Nat) (dfa : DFA) (index : Nat) : DFA :=
  match dfa.nodes[index]? with
  | none => dfa
  | some node =>
    if node.isKilled then dfa
    else
      { dfa with
        transitionDestinations :=
          (List.range' node.transitionsStart node.transitionsLength).foldl
            (fun destinations i => destinations.set i
              (relocationVector.getD (destinations.getD i 0) 0)) dfa.transitionDestinations }

/-- The loops of `minimize` that rewrite the automaton. -/
def relocate (replacement : Nat → Nat) (dfa : DFA) : DFA :=
  let killed := killReplaced replacement dfa
  let rooted := { killed.2 with root := killed.1.getD killed.2.root 0 }
  (List.range rooted.nodes.length).foldl (DFA.relocateTransitions killed.1) rooted

/-- Splitting the nodes of one entry of the map of final states from the others. -/
def splitFinalStates (g : FullGraphPartition) (slot : List Nat × List Nat) :
    FullGraphPartition :=
  (slot.2.foldl FullGraphPartition.markNode g).refinePartitions

/-- `DFAMinimizer::minimize`. The number of transitions bounds the number of iterations. -/
def minimize (order : SlotOrder) (dfa : DFA) : Option DFA := do
  let graph := FullGraphPartition.ofDFA dfa
  let graph := (order.slots (finalStates dfa)).foldl splitFinalStates graph
  let graph ← graph.splitByUniqueTransitions (graph.flattenedTransitions.length + 1)
  some (relocate graph.nodeReplacement dfa)

end WebKit.ContentExtensions
