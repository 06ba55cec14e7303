import WebKit.ContentExtensions.DFA

/-!
# `ImmutableNFA`

The nondeterministic automaton of the combined url filters. Its nodes refer into shared vectors. A
range of characters may lead to several targets, and epsilon transitions may form cycles.
-/

namespace WebKit.ContentExtensions

open RangeOverlay Vectors

structure ImmutableRange where
  targetStart : Nat
  targetEnd : Nat
  first : Nat
  last : Nat
deriving DecidableEq

structure ImmutableNFANode where
  rangesStart : Nat := 0
  rangesEnd : Nat := 0
  epsilonTransitionTargetsStart : Nat := 0
  epsilonTransitionTargetsEnd : Nat := 0
  actionStart : Nat := 0
  actionEnd : Nat := 0
deriving DecidableEq

structure NFA where
  nodes : List ImmutableNFANode := []
  transitions : List ImmutableRange := []
  targets : List Nat := []
  epsilonTransitionsTargets : List Nat := []
  actions : List Nat := []
deriving DecidableEq

/-- The elements of a vector from `start` up to but not including `stop`. -/
def segment {α : Type} (l : List α) (start stop : Nat) : List α := slice l start (stop - start)

namespace NFA

/-- `ImmutableNFA::transitionsForNode`: the ranges of a node with their targets. -/
def transitionsForNode (nfa : NFA) (nodeId : Nat) : List (Range (List Nat)) :=
  match nfa.nodes[nodeId]? with
  | none => []
  | some node => (segment nfa.transitions node.rangesStart node.rangesEnd).map fun range =>
    ⟨range.first, range.last, segment nfa.targets range.targetStart range.targetEnd⟩

/-- The targets of the epsilon transitions of a node. -/
def epsilonTargets (nfa : NFA) (nodeId : Nat) : List Nat :=
  match nfa.nodes[nodeId]? with
  | none => []
  | some node => segment nfa.epsilonTransitionsTargets node.epsilonTransitionTargetsStart
      node.epsilonTransitionTargetsEnd

def actionsOf (nfa : NFA) (nodeId : Nat) : List Nat :=
  match nfa.nodes[nodeId]? with
  | none => []
  | some node => segment nfa.actions node.actionStart node.actionEnd

def root (_ : NFA) : Nat := 0

/-- A finalized automaton has a root, transitions lead to nodes, and the ranges of a node are sorted
ranges of characters below 128 with a target each. -/
structure WellFormed (nfa : NFA) : Prop where
  nonempty : nfa.nodes ≠ []
  epsilon_lt : ∀ i, ∀ t ∈ nfa.epsilonTargets i, t < nfa.nodes.length
  target_lt : ∀ i, ∀ r ∈ nfa.transitionsForNode i, ∀ t ∈ r.data, t < nfa.nodes.length
  targets_ne : ∀ i, ∀ r ∈ nfa.transitionsForNode i, r.data ≠ []
  sorted : ∀ i, Sorted (nfa.transitionsForNode i)
  ascii : ∀ i, ∀ r ∈ nfa.transitionsForNode i, r.last < 128

/-! ## Runs -/

/-- Epsilon transitions lead from one node to the other. -/
inductive EpsilonReach (nfa : NFA) : Nat → Nat → Prop
  | refl (n : Nat) : EpsilonReach nfa n n
  | tail {n m t : Nat} : EpsilonReach nfa n m → t ∈ nfa.epsilonTargets m → EpsilonReach nfa n t

/-- The string leads from the root to the node, with epsilon transitions taken
anywhere. -/
inductive Reaches (nfa : NFA) : List Nat → Nat → Prop
  | root : Reaches nfa [] nfa.root
  | epsilon {w : List Nat} {n t : Nat} :
      Reaches nfa w n → t ∈ nfa.epsilonTargets n → Reaches nfa w t
  | char {w : List Nat} {n c t : Nat} {r : Range (List Nat)} :
      Reaches nfa w n → r ∈ nfa.transitionsForNode n → r.Covers c → t ∈ r.data →
      Reaches nfa (w ++ [c]) t

variable {nfa : NFA}

theorem EpsilonReach.trans {a b c : Nat} (h : EpsilonReach nfa a b)
    (h' : EpsilonReach nfa b c) : EpsilonReach nfa a c := by
  induction h' with
  | refl => exact h
  | tail _ ht ih => exact ih.tail ht

theorem Reaches.epsilonReach {w : List Nat} {n t : Nat} (h : Reaches nfa w n)
    (h' : EpsilonReach nfa n t) : Reaches nfa w t := by
  induction h' with
  | refl => exact h
  | tail _ ht ih => exact ih.epsilon ht

theorem reaches_nil {t : Nat} : Reaches nfa [] t ↔ EpsilonReach nfa nfa.root t := by
  constructor
  · intro h
    generalize hw : ([] : List Nat) = w at h
    induction h with
    | root => exact EpsilonReach.refl _
    | epsilon _ ht ih => exact (ih hw).tail ht
    | char => simp at hw
  · intro h
    exact Reaches.root.epsilonReach h

theorem reaches_snoc {w : List Nat} {c t : Nat} :
    Reaches nfa (w ++ [c]) t ↔ ∃ n r m, Reaches nfa w n ∧ r ∈ nfa.transitionsForNode n ∧
      r.Covers c ∧ m ∈ r.data ∧ EpsilonReach nfa m t := by
  constructor
  · intro h
    generalize hw : w ++ [c] = v at h
    induction h with
    | root => simp at hw
    | epsilon _ ht ih =>
      obtain ⟨n, r, m, hn, hr, hc, hm, he⟩ := ih hw
      exact ⟨n, r, m, hn, hr, hc, hm, he.tail ht⟩
    | @char w' n c' t r hn hr hc ht _ =>
      obtain ⟨rfl, ⟨⟩⟩ := List.append_inj' hw rfl
      exact ⟨n, r, t, hn, hr, hc, ht, EpsilonReach.refl _⟩
  · rintro ⟨n, r, m, hn, hr, hc, hm, he⟩
    exact (Reaches.char hn hr hc hm).epsilonReach he

end NFA

end WebKit.ContentExtensions
