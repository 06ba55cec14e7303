import Mathlib.Algebra.Ring.Int.Defs
import Mathlib.Data.List.Nodup

/-!
# Basic blocks of `int32` operations

A node is executed once for each execution of its block, and its value stays until the next. A
check that fails leaves the optimized code. Additions and bounds checks are those of the DFG; any
other operation is an arbitrary one that may fail and otherwise gives a value.

`BasicBlock` has the scoping of the SSA form: what a node uses comes before it in the block or is
outside, and what is outside uses nothing of the block.
-/

namespace WebKit.Dfg

open List Function

abbrev Int32 := BitVec 32

inductive ArithMode where
  | unchecked
  | checkOverflow
  | checkOverflowAndNegativeZero
  deriving DecidableEq

/-- An operation, with the nodes it uses. -/
inductive Op where
  | constant (value : Int32)
  | arithAdd (child1 child2 : Nat) (mode : ArithMode)
  | checkInBounds (index length : Nat)
  /-- What a removed node becomes. -/
  | check
  | other (children : List Nat) (execute : List Int32 → Option Int32)

def Op.operands : Op → List Nat
  | .constant _ => []
  | .arithAdd child1 child2 _ => [child1, child2]
  | .checkInBounds index length => [index, length]
  | .check => []
  | .other children _ => children

/-! ## Execution -/

/-- The sum is one of `int32`. -/
def AddFits (x y : Int32) : Prop := -2 ^ 31 ≤ x.toInt + y.toInt ∧ x.toInt + y.toInt < 2 ^ 31

/-- The index is one of an array of this length. -/
def InBounds (index length : Int32) : Prop := 0 ≤ index.toInt ∧ index.toInt < length.toInt

instance (x y : Int32) : Decidable (AddFits x y) := inferInstanceAs (Decidable (_ ∧ _))

instance (index length : Int32) : Decidable (InBounds index length) :=
  inferInstanceAs (Decidable (_ ∧ _))

abbrev Values := Nat → Int32

/-- One node. An unchecked addition wraps around. -/
def execute (values : Values) (node : Nat) : Op → Option Values
  | .constant value => some (Function.update values node value)
  | .arithAdd child1 child2 mode =>
    if mode = .unchecked ∨ AddFits (values child1) (values child2) then
      some (Function.update values node (values child1 + values child2))
    else none
  | .checkInBounds index length =>
    if InBounds (values index) (values length) then some values else none
  | .check => some values
  | .other children f => (f (children.map values)).map (Function.update values node)

def run (values : Values) : List (Nat × Op) → Option Values
  | [] => some values
  | (node, op) :: rest =>
    match execute values node op with
    | none => none
    | some values => run values rest

variable {values values' : Values}

theorem run_cons {node : Nat} {op : Op} {rest : List (Nat × Op)} :
    run values ((node, op) :: rest) = some values' ↔
      ∃ next, execute values node op = some next ∧ run next rest = some values' := by
  rw [run]
  cases execute values node op with
  | none => simp
  | some next => simp

theorem run_append {fst snd : List (Nat × Op)} :
    run values (fst ++ snd) = some values' ↔
      ∃ next, run values fst = some next ∧ run next snd = some values' := by
  induction fst generalizing values with
  | nil => simp [run]
  | cons instruction fst ih =>
    obtain ⟨node, op⟩ := instruction
    rw [cons_append, run_cons]
    simp only [ih, run_cons]
    constructor
    · rintro ⟨next, hnx, between, hfst, hsnd⟩
      exact ⟨between, ⟨next, hnx, hfst⟩, hsnd⟩
    · rintro ⟨between, ⟨next, hnx, hfst⟩, hsnd⟩
      exact ⟨next, hnx, between, hfst, hsnd⟩

theorem execute_of_ne {node other : Nat} {op : Op}
    (h : execute values node op = some values') (hne : other ≠ node) :
    values' other = values other := by
  cases op with
  | constant val =>
    cases h
    exact update_of_ne hne _ _
  | arithAdd child1 child2 mode =>
    obtain ⟨_, ⟨⟩⟩ := Option.ite_none_right_eq_some.mp h
    exact update_of_ne hne _ _
  | checkInBounds idx len =>
    obtain ⟨_, ⟨⟩⟩ := Option.ite_none_right_eq_some.mp h
    rfl
  | check =>
    cases h
    rfl
  | other chi f =>
    obtain ⟨val, -, rfl⟩ := Option.map_eq_some_iff.mp h
    exact update_of_ne hne _ _

theorem execute_agree {values values' next : Values} {node bound : Nat} {op : Op}
    (hagr : ∀ i < bound, values i = values' i) (hop : ∀ i ∈ op.operands, i < bound)
    (h : execute values node op = some next) :
    ∃ next', execute values' node op = some next' ∧ ∀ i < bound, next i = next' i := by
  have hupd : ∀ val : Int32, ∀ i < bound, update values node val i = update values' node val i := by
    intro val i hi
    rw [update_apply, update_apply, hagr i hi]
  cases op with
  | constant val =>
    cases h
    exact ⟨_, rfl, hupd val⟩
  | arithAdd child1 child2 mode =>
    have h1 := hagr child1 (hop child1 (by simp [Op.operands]))
    have h2 := hagr child2 (hop child2 (by simp [Op.operands]))
    obtain ⟨hft, ⟨⟩⟩ := Option.ite_none_right_eq_some.mp h
    rw [execute, ← h1, ← h2, if_pos hft]
    exact ⟨_, rfl, hupd _⟩
  | checkInBounds idx len =>
    have hidx := hagr idx (hop idx (by simp [Op.operands]))
    have hl := hagr len (hop len (by simp [Op.operands]))
    obtain ⟨hin, ⟨⟩⟩ := Option.ite_none_right_eq_some.mp h
    rw [execute, ← hidx, ← hl, if_pos hin]
    exact ⟨_, rfl, hagr⟩
  | check =>
    cases h
    exact ⟨values', rfl, hagr⟩
  | other chi f =>
    obtain ⟨val, hv, rfl⟩ := Option.map_eq_some_iff.mp h
    have hchi : chi.map values' = chi.map values :=
      map_congr_left (fun i hi => (hagr i (hop i hi)).symm)
    refine ⟨_, ?_, hupd val⟩
    rw [execute, hchi, hv]
    rfl

/-! ## Blocks -/

/-- A block of the graph, whose nodes have numbers below `size`. -/
structure BasicBlock where
  size : Nat
  op : Nat → Op
  nodes : List Nat
  nodup : nodes.Nodup
  node_lt : ∀ node ∈ nodes, node < size
  operand_lt : ∀ node < size, ∀ i ∈ (op node).operands, i < size
  /-- A node uses what comes before it. -/
  operand_before : ∀ before node after, nodes = before ++ node :: after →
    ∀ i ∈ (op node).operands, i ∉ node :: after
  /-- What is outside of the block uses nothing of it. -/
  operand_outside : ∀ node < size, node ∉ nodes → ∀ i ∈ (op node).operands, i ∉ nodes

namespace BasicBlock

variable (b : BasicBlock)

def instructions (nodes : List Nat) : List (Nat × Op) := nodes.map (fun node => (node, b.op node))

/-- A node has the value of its operation, and if it is a check of the block, it holds. -/
def NodeHolds (values : Values) (node : Nat) : Prop :=
  match b.op node with
  | .constant value => values node = value
  | .arithAdd child1 child2 _ => values node = values child1 + values child2
  | .checkInBounds index length => node ∈ b.nodes → InBounds (values index) (values length)
  | _ => True

/-- All nodes hold except for those that are still to come. -/
def HoldsBefore (values : Values) (rest : List Nat) : Prop :=
  ∀ node < b.size, node ∉ rest → b.NodeHolds values node

/-- Constants and sums of other blocks have their values; anything else is arbitrary. -/
def Inputs (values : Values) : Prop := b.HoldsBefore values b.nodes

variable {b} {values values' : Values} {before rest : List Nat} {node : Nat}

theorem operand_not_mem (hn : b.nodes = before ++ rest) (hnd : node < b.size)
    (hnot : node ∉ rest) : ∀ i ∈ (b.op node).operands, i ∉ rest := by
  intro i hi hm
  by_cases hin : node ∈ b.nodes
  · have hbef : node ∈ before := by
      rw [hn, mem_append] at hin
      exact hin.resolve_right hnot
    obtain ⟨fst, snd, rfl⟩ := append_of_mem hbef
    rw [append_assoc, cons_append] at hn
    refine b.operand_before _ _ _ hn i hi ?_
    exact mem_cons_of_mem _ (mem_append_right _ hm)
  · refine b.operand_outside node hnd hin i hi ?_
    rw [hn]
    exact mem_append_right _ hm

theorem NodeHolds.congr (h : b.NodeHolds values node) (hnd : values' node = values node)
    (hor : ∀ i ∈ (b.op node).operands, values' i = values i) : b.NodeHolds values' node := by
  unfold NodeHolds at h ⊢
  cases hop : b.op node with
  | constant val =>
    rw [hop] at h
    exact hnd.trans h
  | arithAdd child1 child2 mode =>
    rw [hop] at h hor
    simp only [Op.operands, mem_cons, not_mem_nil, or_false, forall_eq_or_imp, forall_eq] at hor
    simp only at h ⊢
    rw [hnd, hor.1, hor.2]
    exact h
  | checkInBounds idx len =>
    rw [hop] at h hor
    simp only [Op.operands, mem_cons, not_mem_nil, or_false, forall_eq_or_imp, forall_eq] at hor
    simp only at h ⊢
    rw [hor.1, hor.2]
    exact h
  | check => trivial
  | other chi f => trivial

theorem nodeHolds_execute (hsf : node ∉ (b.op node).operands)
    (h : execute values node (b.op node) = some values') : b.NodeHolds values' node := by
  have hsm : ∀ i ∈ (b.op node).operands, values' i = values i := fun i hi =>
    execute_of_ne h (fun heq => hsf (heq ▸ hi))
  unfold NodeHolds
  cases hop : b.op node with
  | constant val =>
    rw [hop] at h
    cases h
    exact update_self _ _ _
  | arithAdd child1 child2 mode =>
    rw [hop] at h hsm
    simp only [Op.operands, mem_cons, not_mem_nil, or_false, forall_eq_or_imp, forall_eq] at hsm
    simp only
    rw [hsm.1, hsm.2]
    obtain ⟨_, ⟨⟩⟩ := Option.ite_none_right_eq_some.mp h
    exact update_self _ _ _
  | checkInBounds idx len =>
    rw [hop] at h
    obtain ⟨hin, ⟨⟩⟩ := Option.ite_none_right_eq_some.mp h
    exact fun _ => hin
  | check => trivial
  | other chi f => trivial

/-- **Steps.** A node that is executed holds, and so do those before it still. -/
theorem HoldsBefore.execute (h : b.HoldsBefore values (node :: rest))
    (hnds : b.nodes = before ++ node :: rest)
    (hexe : execute values node (b.op node) = some values') : b.HoldsBefore values' rest := by
  intro oth hoth hn
  by_cases heq : oth = node
  · subst heq
    refine nodeHolds_execute (fun hsf => ?_) hexe
    exact b.operand_before _ _ _ hnds oth hsf mem_cons_self
  have hn' : oth ∉ node :: rest := fun hm =>
    (mem_cons.mp hm).elim heq hn
  refine (h oth hoth hn').congr (execute_of_ne hexe heq) (fun i hi => ?_)
  have hi' := operand_not_mem hnds hoth hn' i hi
  exact execute_of_ne hexe (fun hnd => hi' (hnd ▸ mem_cons_self))

/-- **Runs.** A block that runs to its end leaves values with which all nodes hold. -/
theorem HoldsBefore.run (h : b.HoldsBefore values rest) (hn : b.nodes = before ++ rest)
    (hr : run values (b.instructions rest) = some values') : b.HoldsBefore values' [] := by
  induction rest generalizing values before with
  | nil =>
    cases hr
    exact h
  | cons node rest ih =>
    obtain ⟨next, hnx, hrest⟩ := run_cons.mp hr
    have hn' : b.nodes = (before ++ [node]) ++ rest := by
      rw [append_assoc]
      exact hn
    exact ih (h.execute hn hnx) hn' hrest

end BasicBlock

end WebKit.Dfg
