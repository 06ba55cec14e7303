import WebKit.ContentExtensions.NFA
import WebKit.ContentExtensions.DFAConstruction
import WebKit.ContentExtensions.MutableRangeListExtend

/-!
# `NFAToDFA::convert`

The subset construction. A node of the result stands for a set of nodes that is closed under
epsilon transitions; its transitions are found by merging the ranges of all nodes of the set, and
sets are compared by size and membership.

The order in which a hash set is iterated is any permutation for every node of the result
(`iteration`).
-/

namespace WebKit.ContentExtensions

open RangeOverlay

/-- `NodeIdSet`, the elements in the order they were added. -/
structure NodeIdSet where
  elements : List Nat
  nodup : elements.Nodup

namespace NodeIdSet

instance : Membership Nat NodeIdSet := ⟨fun s n => n ∈ s.elements⟩

instance (n : Nat) (s : NodeIdSet) : Decidable (n ∈ s) :=
  inferInstanceAs (Decidable (n ∈ s.elements))

def empty : NodeIdSet := ⟨[], List.nodup_nil⟩

def add (s : NodeIdSet) (n : Nat) : NodeIdSet :=
  if h : n ∈ s.elements then s
  else ⟨s.elements ++ [n], by
    rw [List.nodup_append]
    refine ⟨s.nodup, List.nodup_singleton n, ?_⟩
    intro a ha b hb hab
    rw [List.mem_singleton] at hb
    exact h (hb ▸ hab ▸ ha)⟩

def addAll (s : NodeIdSet) (ns : List Nat) : NodeIdSet := ns.foldl add s

end NodeIdSet

/-! ## Epsilon closures -/

/-- The variables of `epsilonClosureExcludingSelf`, with the top of the stack first. -/
structure ClosureState where
  closure : NodeIdSet
  unprocessedNodes : List Nat
  output : List Nat

/-- An epsilon target of the node that is processed: a new one is added. -/
def visitEpsilonTarget (st : ClosureState) (targetNodeId : Nat) : ClosureState :=
  if targetNodeId ∈ st.closure then st
  else ⟨st.closure.add targetNodeId, targetNodeId :: st.unprocessedNodes,
    st.output ++ [targetNodeId]⟩

/-- The loop of `epsilonClosureExcludingSelf`, with a bound on the iterations. -/
def closureLoop (nfa : NFA) : Nat → ClosureState → ClosureState
  | 0, st => st
  | fuel + 1, st =>
    match st.unprocessedNodes with
    | [] => st
    | nodeId :: rest =>
      closureLoop nfa fuel ((nfa.epsilonTargets nodeId).foldl visitEpsilonTarget
        { st with unprocessedNodes := rest })

variable (nfa : NFA)

def epsilonClosureExcludingSelf (nodeId : Nat) : List Nat :=
  (closureLoop nfa (nfa.nodes.length + 1) ⟨NodeIdSet.empty.add nodeId, [nodeId], []⟩).output

def resolveEpsilonClosures : List (List Nat) :=
  (List.range nfa.nodes.length).map (epsilonClosureExcludingSelf nfa)

variable (nfaNodeClosures : List (List Nat))

/-- `nfaNodeClosures[nodeId]`. -/
def closureOf (nodeId : Nat) : List Nat :=
  nfaNodeClosures.getD nodeId []

def extendSetWithClosure (nodeId : Nat) (set : NodeIdSet) : NodeIdSet :=
  set.addAll (closureOf nfaNodeClosures nodeId)

/-! ## Combined transitions -/

/-- The closure of a target is added only if the target itself is new. -/
def dataConverterWithEpsilonClosure :
    DataConverter NodeIdSet (List Nat) where
  convert iterable := iterable.foldl
    (fun result nodeId => (result.add nodeId).addAll (closureOf nfaNodeClosures nodeId))
    NodeIdSet.empty
  extend destination iterable := iterable.foldl
    (fun destination nodeId =>
      if nodeId ∈ destination then destination
      else (destination.add nodeId).addAll (closureOf nfaNodeClosures nodeId))
    destination

/-- `createCombinedTransition`: the ranges of all nodes of the set, merged. -/
def createCombinedTransition (nfaNodeClosures : List (List Nat))
    (sourceNodeSet : NodeIdSet) : MutableRangeList NodeIdSet :=
  sourceNodeSet.elements.foldl
    (fun combinedRangeList nodeId => combinedRangeList.extend
      (dataConverterWithEpsilonClosure nfaNodeClosures) (nfa.transitionsForNode nodeId))
    MutableRangeList.empty

/-! ## The conversion -/

/-- The orders in which hash sets are iterated, for each node of the result. -/
structure Iteration where
  nodes : Nat → List Nat → List Nat
  actions : Nat → List Nat → List Nat
  nodes_perm : ∀ i l, (nodes i l).Perm l
  actions_perm : ∀ i l, (actions i l).Perm l

/-- `UniqueNodeIdSet::operator==(const NodeIdSet&)`. -/
def uniqueNodeIdSetEqual (unique other : NodeIdSet) : Bool :=
  unique.elements.length == other.elements.length &&
    unique.elements.all fun n => decide (n ∈ other)

/-- The set of the actions of all nodes of a set, in the order they are added. -/
def actionsOfSet (set : NodeIdSet) : NodeIdSet :=
  NodeIdSet.empty.addAll (set.elements.flatMap nfa.actionsOf)

/-- What `NFAToDFA::convert` makes of node sets. The constructor of `UniqueNodeIdSet` copies the set
in iteration order; `translate` collects the actions and asserts that their number fits in sixteen
bits. -/
def subsetConstruction (iteration : Iteration) (nfa : NFA) : Construction NodeIdSet where
  same := uniqueNodeIdSetEqual
  stored index set := ⟨iteration.nodes index set.elements,
    (iteration.nodes_perm index set.elements).nodup_iff.mpr set.nodup⟩
  transitions set := (createCombinedTransition nfa (resolveEpsilonClosures nfa) set).toList
  actions index set :=
    let actions := iteration.actions index (actionsOfSet nfa set).elements
    if actions.length ≤ 2 ^ 16 - 1 then some (actions, actions.length) else none

/-- The set of the root: `{ nfa.root() }` with its closure. -/
def initialSet : NodeIdSet :=
  extendSetWithClosure (resolveEpsilonClosures nfa) nfa.root (NodeIdSet.empty.add nfa.root)

/-- `NFAToDFA::convert`. The number of subsets bounds the number of iterations. -/
def convert (iteration : Iteration) (nfa : NFA) : Option DFA :=
  (subsetConstruction iteration nfa).build (2 ^ nfa.nodes.length + 1) (initialSet nfa)

end WebKit.ContentExtensions
