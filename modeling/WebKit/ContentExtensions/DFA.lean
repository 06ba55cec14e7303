import WebKit.Lib.RangeOverlay
import WebKit.Lib.Vectors

/-!
# `DFA` and `DFANode`

The automaton of the content extension compiler: nodes refer by position and length into shared
vectors of actions, transition ranges and destinations. A node that was merged away is killed in
place.

The vectors are unbounded here. The code crashes when one of them outgrows its 32-bit size
(`VectorBufferBase::allocateBuffer`), as it does when memory runs out.
-/

namespace WebKit.ContentExtensions

open RangeOverlay Vectors

structure CharRange where
  first : Nat
  last : Nat
deriving DecidableEq

structure DFANode where
  actionsStart : Nat := 0
  transitionsStart : Nat := 0
  actionsLength : Nat := 0
  transitionsLength : Nat := 0
  isKilled : Bool := false
deriving DecidableEq

structure DFA where
  nodes : List DFANode := []
  actions : List Nat := []
  transitionRanges : List CharRange := []
  transitionDestinations : List Nat := []
  root : Nat := 0
deriving DecidableEq

variable (node : DFANode)

/-- `DFANode::transitions`: the ranges of a node with their targets. -/
def DFANode.transitions (dfa : DFA) : List (Range Nat) :=
  List.zipWith (fun range target => ⟨range.first, range.last, target⟩)
    (slice dfa.transitionRanges node.transitionsStart node.transitionsLength)
    (slice dfa.transitionDestinations node.transitionsStart node.transitionsLength)

def DFANode.actions (node : DFANode) (dfa : DFA) : List Nat :=
  slice dfa.actions node.actionsStart node.actionsLength

def DFANode.hasActions : Bool := node.actionsLength != 0

namespace DFA

variable (dfa : DFA)

/-- `DFA::graphSize`: the number of nodes that are not killed. -/
def graphSize : Nat := dfa.nodes.countP fun node => !node.isKilled

variable (index : Nat)

/-- The transitions of the node at an index. -/
def transitionsOf : List (Range Nat) :=
  match dfa.nodes[index]? with
  | some node => node.transitions dfa
  | none => []

/-- The actions of the node at an index. -/
def actionsOf : List Nat :=
  match dfa.nodes[index]? with
  | some node => node.actions dfa
  | none => []

/-- The node at the index, if it is there and has not been killed. -/
def LiveNode (node : DFANode) : Prop :=
  dfa.nodes[index]? = some node ∧ node.isKilled = false

/-- The node at the index is there and has not been killed. -/
def Live : Prop := ∃ node, dfa.LiveNode index node

/-! ## Runs -/

/-- The node a transition on a character leads to, if there is one. -/
def step (index c : Nat) : Option Nat := find (dfa.transitionsOf index) c

/-- The node a string leads to from a node; none when the automaton gets stuck. -/
def runFrom (dfa : DFA) : Nat → List Nat → Option Nat
  | index, [] => some index
  | index, c :: rest => (dfa.step index c).bind fun next => dfa.runFrom next rest

/-- The node a string leads to from the root. -/
def run (string : List Nat) : Option Nat := dfa.runFrom dfa.root string

/-! ## Well-formed automata -/

/-- The positions a node refers to in the transition vectors. -/
def InTransitions (position : Nat) : Prop :=
  node.transitionsStart ≤ position ∧ position < node.transitionsStart + node.transitionsLength

/-- The positions a node refers to in the action vector. -/
def InActions (position : Nat) : Prop :=
  node.actionsStart ≤ position ∧ position < node.actionsStart + node.actionsLength

/-- Live nodes refer to the inside of the vectors and share nothing, and their transitions are
sorted ranges that lead to live nodes. -/
structure Intact (dfa : DFA) : Prop where
  root_live : dfa.Live dfa.root
  destinations : dfa.transitionDestinations.length = dfa.transitionRanges.length
  actions_le : ∀ i node, dfa.LiveNode i node →
    node.actionsStart + node.actionsLength ≤ dfa.actions.length
  transitions_le : ∀ i node, dfa.LiveNode i node →
    node.transitionsStart + node.transitionsLength ≤ dfa.transitionRanges.length
  sorted : ∀ i, dfa.Live i → Sorted (dfa.transitionsOf i)
  target_live : ∀ i, dfa.Live i → ∀ r ∈ dfa.transitionsOf i, dfa.Live r.data
  actions_apart : ∀ i j ni nj, i ≠ j → dfa.LiveNode i ni → dfa.LiveNode j nj →
    ∀ k, InActions ni k → ¬ InActions nj k
  transitions_apart : ∀ i j ni nj, i ≠ j → dfa.LiveNode i ni → dfa.LiveNode j nj →
    ∀ k, InTransitions ni k → ¬ InTransitions nj k

/-- An automaton of the compiler is intact, with transitions on characters below 128. -/
structure WellFormed (dfa : DFA) : Prop extends Intact dfa where
  ascii : ∀ i, dfa.Live i → ∀ r ∈ dfa.transitionsOf i, r.last < 128

/-! ## Reading runs -/

theorem transitionsOf_eq {dfa : DFA} {i : Nat} {node : DFANode}
    (h : dfa.nodes[i]? = some node) : dfa.transitionsOf i = node.transitions dfa := by
  unfold transitionsOf
  rw [h]

theorem actionsOf_eq {dfa : DFA} {i : Nat} {node : DFANode}
    (h : dfa.nodes[i]? = some node) : dfa.actionsOf i = node.actions dfa := by
  unfold actionsOf
  rw [h]

@[simp] theorem runFrom_cons (i c : Nat) (rest : List Nat) :
    dfa.runFrom i (c :: rest) = (dfa.step i c).bind fun next => dfa.runFrom next rest := rfl

end DFA

end WebKit.ContentExtensions
