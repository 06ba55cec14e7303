import WebKit.ContentExtensions.NFAToDFA
import Mathlib.Data.Set.Card

/-!
# The subset construction is correct

The set of a node of the result is the set of all nodes that a string leads to. Adding a target to
a set that has it already does not look at its closure again; this misses nothing, because the sets
are closed at any time.
-/

namespace WebKit.ContentExtensions

open RangeOverlay Vectors List NodeIdSet Construction

/-! ## Sets -/

namespace NodeIdSet

variable {s : NodeIdSet}

theorem mem_def {n : Nat} : n ∈ s ↔ n ∈ s.elements := Iff.rfl

@[simp] theorem not_mem_empty (n : Nat) : n ∉ empty := not_mem_nil

@[simp] theorem mem_add {n m : Nat} : m ∈ s.add n ↔ m ∈ s ∨ m = n := by
  unfold add
  split
  case isTrue h =>
    constructor
    · exact .inl
    · rintro (hm | rfl)
      · exact hm
      · exact h
  case isFalse =>
    rw [mem_def, mem_append, mem_singleton]
    rfl

@[simp] theorem mem_addAll {ns : List Nat} {m : Nat} : m ∈ s.addAll ns ↔ m ∈ s ∨ m ∈ ns := by
  unfold addAll
  induction ns generalizing s with
  | nil => simp
  | cons n rest ih => rw [foldl_cons, ih, mem_add, mem_cons, or_assoc]

theorem perm_of_mem_iff {t : NodeIdSet} (h : ∀ n, n ∈ s ↔ n ∈ t) : s.elements.Perm t.elements :=
  (perm_ext_iff_of_nodup s.nodup t.nodup).mpr h

end NodeIdSet

theorem uniqueNodeIdSetEqual_iff {s t : NodeIdSet} :
    uniqueNodeIdSetEqual s t = true ↔ ∀ n, n ∈ s ↔ n ∈ t := by
  unfold uniqueNodeIdSetEqual
  simp only [Bool.and_eq_true, beq_iff_eq, all_eq_true, decide_eq_true_eq]
  constructor
  · rintro ⟨hl, hs⟩
    have hpr : s.elements.Perm t.elements :=
      (subperm_of_subset s.nodup hs).perm_of_length_le (hl.symm.le)
    intro n
    exact hpr.mem_iff
  · intro h
    exact ⟨(perm_of_mem_iff h).length_eq, fun n hn => (h n).mp hn⟩

/-! ## Epsilon closures -/

section Closure

variable {nfa : NFA}

/-- The invariant of the closure loop. The targets of the nodes in `pending` may be missing still.
-/
structure ClosureInv (nfa : NFA) (start : Nat) (pending : List Nat) (st : ClosureState) :
    Prop where
  elements : st.closure.elements = start :: st.output
  below : ∀ m ∈ st.closure, m < nfa.nodes.length
  sound : ∀ m ∈ st.closure, nfa.EpsilonReach start m
  stack : ∀ m ∈ st.unprocessedNodes, m ∈ st.closure
  closed : ∀ m ∈ st.closure, m ∉ st.unprocessedNodes → m ∉ pending →
    ∀ t ∈ nfa.epsilonTargets m, t ∈ st.closure

variable {start node : Nat} {st : ClosureState}

theorem ClosureInv.length_le {pend : List Nat} (h : ClosureInv nfa start pend st) :
    st.closure.elements.length ≤ nfa.nodes.length := by
  have hs : st.closure.elements ⊆ List.range nfa.nodes.length := fun m hm =>
    mem_range.mpr (h.below m hm)
  have hle := (subperm_of_subset st.closure.nodup hs).length_le
  rwa [length_range] at hle

/-- What is left to do: nodes not met yet, and nodes on the stack. -/
def closureWork (nfa : NFA) (st : ClosureState) : Nat :=
  nfa.nodes.length - st.closure.elements.length + st.unprocessedNodes.length

theorem mem_visitEpsilonTarget {t m : Nat} :
    m ∈ (visitEpsilonTarget st t).closure ↔ m ∈ st.closure ∨ m = t := by
  have hc : (visitEpsilonTarget st t).closure = st.closure.add t := by
    unfold visitEpsilonTarget
    split
    case isTrue ht => rw [add, dif_pos (mem_def.mp ht)]
    case isFalse => rfl
  rw [hc, mem_add]

section

variable (hwf : nfa.WellFormed)

include hwf

/-- Visiting a target keeps the invariant: it was met before, or it moves to the stack. -/
theorem ClosureInv.visit {t : Nat} (h : ClosureInv nfa start [node] st)
    (hnd : node ∈ st.closure) (ht : t ∈ nfa.epsilonTargets node) :
    ClosureInv nfa start [node] (visitEpsilonTarget st t) ∧
      closureWork nfa (visitEpsilonTarget st t) = closureWork nfa st := by
  by_cases hmet : t ∈ st.closure
  · have hvst : visitEpsilonTarget st t = st := if_pos hmet
    rw [hvst]
    exact ⟨h, rfl⟩
  have hvst : visitEpsilonTarget st t =
      ⟨st.closure.add t, t :: st.unprocessedNodes, st.output ++ [t]⟩ := if_neg hmet
  have ha : (st.closure.add t).elements = st.closure.elements ++ [t] := by
    unfold add
    split
    case isTrue h' => exact absurd h' hmet
    case isFalse => rfl
  have hi : ClosureInv nfa start [node]
      ⟨st.closure.add t, t :: st.unprocessedNodes, st.output ++ [t]⟩ := by
    refine ⟨?_, ?_, ?_, ?_, ?_⟩
    · show (st.closure.add t).elements = start :: (st.output ++ [t])
      rw [ha, h.elements]
      rfl
    · intro m hm
      rcases mem_add.mp hm with hm | rfl
      · exact h.below m hm
      · exact hwf.epsilon_lt node m ht
    · intro m hm
      rcases mem_add.mp hm with hm | rfl
      · exact h.sound m hm
      · exact (h.sound node hnd).tail ht
    · exact forall_mem_cons.mpr ⟨mem_add.mpr (.inr rfl),
        fun m hm => mem_add.mpr (.inl (h.stack m hm))⟩
    · intro m hm hn hne x hx
      rcases mem_add.mp hm with hm | rfl
      · refine mem_add.mpr (.inl (h.closed m hm ?_ hne x hx))
        exact fun hmem => hn (mem_cons_of_mem t hmem)
      · exact absurd mem_cons_self hn
  rw [hvst]
  refine ⟨hi, ?_⟩
  have hle : (st.closure.add t).elements.length ≤ nfa.nodes.length := hi.length_le
  show nfa.nodes.length - (st.closure.add t).elements.length
    + (t :: st.unprocessedNodes).length = closureWork nfa st
  unfold closureWork
  rw [ha, length_append, length_singleton] at hle ⊢
  rw [length_cons]
  omega

theorem ClosureInv.visitAll (targets : List Nat)
    (htgs : ∀ t ∈ targets, t ∈ nfa.epsilonTargets node) (h : ClosureInv nfa start [node] st)
    (hnd : node ∈ st.closure) :
    ClosureInv nfa start [node] (targets.foldl visitEpsilonTarget st) ∧
      closureWork nfa (targets.foldl visitEpsilonTarget st) = closureWork nfa st ∧
      ∀ m, m ∈ (targets.foldl visitEpsilonTarget st).closure ↔ m ∈ st.closure ∨ m ∈ targets := by
  induction targets generalizing st with
  | nil => exact ⟨h, rfl, fun m => by simp⟩
  | cons t rest ih =>
    rw [foldl_cons]
    obtain ⟨hvst, hwr⟩ := ClosureInv.visit hwf h hnd (htgs t mem_cons_self)
    obtain ⟨h', hwr', hm⟩ :=
      ih (fun x hx => htgs x (mem_cons_of_mem t hx)) hvst (mem_visitEpsilonTarget.mpr (.inl hnd))
    refine ⟨h', hwr'.trans hwr, ?_⟩
    intro m
    rw [hm, mem_visitEpsilonTarget, mem_cons, or_assoc]

theorem ClosureInv.step {rest : List Nat} (h : ClosureInv nfa start [] st)
    (hs : st.unprocessedNodes = node :: rest) :
    ClosureInv nfa start [] ((nfa.epsilonTargets node).foldl visitEpsilonTarget
        { st with unprocessedNodes := rest }) ∧
      closureWork nfa ((nfa.epsilonTargets node).foldl visitEpsilonTarget
        { st with unprocessedNodes := rest }) + 1 = closureWork nfa st := by
  have hnd : node ∈ st.closure := h.stack node (by rw [hs]; exact mem_cons_self)
  have hpp : ClosureInv nfa start [node] { st with unprocessedNodes := rest } := by
    refine ⟨h.elements, h.below, h.sound, ?_, ?_⟩
    · intro m hm
      exact h.stack m (by rw [hs]; exact mem_cons_of_mem node hm)
    · intro m hm hn hne t ht
      refine h.closed m hm ?_ not_mem_nil t ht
      rw [hs, mem_cons]
      rintro (rfl | hmem)
      · exact hne mem_cons_self
      · exact hn hmem
  obtain ⟨h', hwr, hmem⟩ :=
    ClosureInv.visitAll hwf (nfa.epsilonTargets node) (fun t ht => ht) hpp hnd
  refine ⟨⟨h'.elements, h'.below, h'.sound, h'.stack, ?_⟩, ?_⟩
  · -- the node worked on has all its targets now
    intro m hm hn _ t ht
    by_cases hne : m = node
    · subst hne
      exact (hmem t).mpr (.inr ht)
    · exact h'.closed m hm hn (fun hmem => hne (mem_singleton.mp hmem)) t ht
  · rw [hwr]
    unfold closureWork
    dsimp only
    rw [hs, length_cons]
    omega

theorem ClosureInv.run (fuel : Nat) (h : ClosureInv nfa start [] st)
    (hfl : closureWork nfa st < fuel) :
    ClosureInv nfa start [] (closureLoop nfa fuel st) ∧
      (closureLoop nfa fuel st).unprocessedNodes = [] := by
  induction fuel generalizing st with
  | zero => omega
  | succ fuel ih =>
    unfold closureLoop
    cases hs : st.unprocessedNodes with
    | nil => exact ⟨h, hs⟩
    | cons node rest =>
      obtain ⟨h', hwr⟩ := ClosureInv.step hwf h hs
      exact ih h' (by omega)

/-- **Closures.** A node and its closure are the nodes that epsilon transitions lead to from it. -/
theorem mem_epsilonClosure_iff {n : Nat} (hn : n < nfa.nodes.length) (m : Nat) :
    m = n ∨ m ∈ epsilonClosureExcludingSelf nfa n ↔ nfa.EpsilonReach n m := by
  have hin : ClosureInv nfa n [] ⟨empty.add n, [n], []⟩ := by
    have hone : ∀ m ∈ empty.add n, m = n := fun m hm =>
      (mem_add.mp hm).resolve_left (not_mem_empty m)
    refine ⟨rfl, ?_, ?_, ?_, ?_⟩
    · exact fun m hm => hone m hm ▸ hn
    · intro m hm
      rw [hone m hm]
      exact NFA.EpsilonReach.refl n
    · exact fun m hm => mem_add.mpr (.inr (mem_singleton.mp hm))
    · exact fun m hm hnot => absurd (mem_singleton.mpr (hone m hm)) hnot
  obtain ⟨h, hnil⟩ := ClosureInv.run hwf (nfa.nodes.length + 1) hin (by
    show nfa.nodes.length - 1 + 1 < _
    omega)
  have hmem : ∀ m, m = n ∨ m ∈ epsilonClosureExcludingSelf nfa n ↔
      m ∈ (closureLoop nfa (nfa.nodes.length + 1) ⟨empty.add n, [n], []⟩).closure := by
    intro m
    rw [mem_def, h.elements, mem_cons]
    rfl
  rw [hmem]
  constructor
  · exact h.sound m
  · intro hrch
    induction hrch with
    | refl => exact (hmem n).mp (.inl rfl)
    | tail _ ht ih =>
      refine h.closed _ ih ?_ not_mem_nil _ ht
      rw [hnil]
      exact not_mem_nil

theorem mem_closureOf_iff {n : Nat} (hn : n < nfa.nodes.length) (m : Nat) :
    m = n ∨ m ∈ closureOf (resolveEpsilonClosures nfa) n ↔ nfa.EpsilonReach n m := by
  have : closureOf (resolveEpsilonClosures nfa) n = epsilonClosureExcludingSelf nfa n := by
    unfold closureOf resolveEpsilonClosures
    rw [getD_eq_getElem?_getD, getElem?_map, getElem?_range hn]
    rfl
  rw [this]
  exact mem_epsilonClosure_iff hwf hn m

end

end Closure

/-! ## Closed sets -/

section Closed

variable {nfa : NFA}

/-- Epsilon transitions do not leave the set. -/
def EpsilonClosed (nfa : NFA) (set : NodeIdSet) : Prop :=
  ∀ n ∈ set, ∀ m, nfa.EpsilonReach n m → m ∈ set

variable (hwf : nfa.WellFormed)

include hwf

theorem mem_add_addAll_closureOf {n : Nat} (hn : n < nfa.nodes.length)
    (set : NodeIdSet) (m : Nat) :
    m ∈ (set.add n).addAll (closureOf (resolveEpsilonClosures nfa) n) ↔
      m ∈ set ∨ nfa.EpsilonReach n m := by
  rw [mem_addAll, mem_add, or_assoc, mem_closureOf_iff hwf hn]

theorem mem_convert (tgs : List Nat)
    (hlt : ∀ t ∈ tgs, t < nfa.nodes.length) (m : Nat) :
    m ∈ (dataConverterWithEpsilonClosure (resolveEpsilonClosures nfa)).convert tgs ↔
      ∃ t ∈ tgs, nfa.EpsilonReach t m := by
  have key : ∀ set : NodeIdSet,
      m ∈ tgs.foldl (fun res nodeId =>
        (res.add nodeId).addAll (closureOf (resolveEpsilonClosures nfa) nodeId)) set ↔
      m ∈ set ∨ ∃ t ∈ tgs, nfa.EpsilonReach t m := by
    induction tgs with
    | nil => simp
    | cons t rest ih =>
      intro set
      rw [foldl_cons, ih (fun x hx => hlt x (mem_cons_of_mem t hx)),
        mem_add_addAll_closureOf hwf (hlt t mem_cons_self), or_assoc,
        exists_mem_cons_iff]
  show m ∈ tgs.foldl _ empty ↔ _
  rw [key empty]
  simp

/-- A target that is in the closed set brings nothing new, so its closure is not looked at. -/
theorem mem_extend (tgs : List Nat)
    (hlt : ∀ t ∈ tgs, t < nfa.nodes.length) {set : NodeIdSet}
    (hcld : EpsilonClosed nfa set) (m : Nat) :
    m ∈ (dataConverterWithEpsilonClosure (resolveEpsilonClosures nfa)).extend set tgs ↔
      m ∈ set ∨ ∃ t ∈ tgs, nfa.EpsilonReach t m := by
  show m ∈ tgs.foldl _ set ↔ _
  induction tgs generalizing set with
  | nil => simp
  | cons t rest ih =>
    have hrest := fun x hx => hlt x (mem_cons_of_mem t hx)
    rw [foldl_cons, exists_mem_cons_iff]
    by_cases ht : t ∈ set
    · rw [if_pos ht, ih hrest hcld]
      constructor
      · rintro (hm | hm)
        · exact .inl hm
        · exact .inr (.inr hm)
      · rintro (hm | hm | hm)
        · exact .inl hm
        · exact .inl (hcld t ht m hm)
        · exact .inr hm
    · rw [if_neg ht]
      have hmem := mem_add_addAll_closureOf hwf (hlt t mem_cons_self) set
      have hcld' : EpsilonClosed nfa
          ((set.add t).addAll (closureOf (resolveEpsilonClosures nfa) t)) := by
        intro n hn k hk
        rcases (hmem n).mp hn with hn | hn
        · exact (hmem k).mpr (.inl (hcld n hn k hk))
        · exact (hmem k).mpr (.inr (hn.trans hk))
      rw [ih hrest hcld', hmem m, or_assoc]

end Closed

/-! ## Combined transitions -/

section Combined

variable {nfa : NFA}

/-- The node has a transition on the character. -/
def CanMove (nfa : NFA) (n c : Nat) : Prop := ∃ r ∈ nfa.transitionsForNode n, r.Covers c

/-- The character leads from one node to the other, epsilon transitions after it
included. -/
def Moves (nfa : NFA) (n c m : Nat) : Prop :=
  ∃ r ∈ nfa.transitionsForNode n, r.Covers c ∧ ∃ t ∈ r.data, nfa.EpsilonReach t m

/-- The ranges say where the nodes of the list lead. -/
structure CombinedInv (nfa : NFA) (nodes : List Nat) (ranges : List (Range NodeIdSet)) :
    Prop where
  sorted : Sorted ranges
  ascii : ∀ r ∈ ranges, r.last < 128
  closed : ∀ r ∈ ranges, EpsilonClosed nfa r.data
  none_iff : ∀ c, find ranges c = none ↔ ∀ n ∈ nodes, ¬ CanMove nfa n c
  mem_iff : ∀ c set, find ranges c = some set → ∀ m, m ∈ set ↔ ∃ n ∈ nodes, Moves nfa n c m

theorem CombinedInv.exists_canMove {nodes : List Nat} {ranges : List (Range NodeIdSet)} {c : Nat}
    {set : NodeIdSet} (h : CombinedInv nfa nodes ranges) (hs : find ranges c = some set) :
    ∃ n ∈ nodes, CanMove nfa n c := by
  by_contra hno
  have hnone := (h.none_iff c).mpr (fun n hn hcan => hno ⟨n, hn, hcan⟩)
  cases hs.symm.trans hnone

theorem combinedInv_nil : CombinedInv nfa [] [] := by
  refine ⟨sorted_nil, ?_, ?_, ?_, ?_⟩
  · rintro r ⟨⟩
  · rintro r ⟨⟩
  · intro c
    simp [find_nil]
  · rintro c set ⟨⟩

theorem not_canMove_iff (n c : Nat) :
    ¬ CanMove nfa n c ↔ find (nfa.transitionsForNode n) c = none := by
  rw [find_eq_none_iff]
  unfold CanMove
  push Not
  exact Iff.rfl

variable {n c : Nat}

theorem not_moves (h : find (nfa.transitionsForNode n) c = none) (m : Nat) : ¬ Moves nfa n c m := by
  rintro ⟨r, hr, hc, _⟩
  exact find_eq_none_iff.mp h r hr hc

variable (hwf : nfa.WellFormed)

include hwf

theorem moves_iff {tgs : List Nat}
    (h : find (nfa.transitionsForNode n) c = some tgs) (m : Nat) :
    Moves nfa n c m ↔ ∃ t ∈ tgs, nfa.EpsilonReach t m := by
  obtain ⟨r, hr, hc, rfl⟩ := mem_of_find h
  constructor
  · rintro ⟨r', hr', hc', ht⟩
    have h' := (hwf.sorted n).find_eq hr' hc'
    rw [h] at h'
    rw [Option.some.inj h']
    exact ht
  · intro ht
    exact ⟨r, hr, hc, ht⟩

variable {ranges : List (Range NodeIdSet)} {nodes : List Nat}

theorem CombinedInv.mem_combine (h : CombinedInv nfa nodes ranges)
    {set : NodeIdSet} (hs : combine (dataConverterWithEpsilonClosure (resolveEpsilonClosures
      nfa)).convert (dataConverterWithEpsilonClosure (resolveEpsilonClosures nfa)).extend (find
      ranges c) (find (nfa.transitionsForNode n) c) = some set) (m : Nat) :
    m ∈ set ↔ ∃ k ∈ nodes ++ [n], Moves nfa k c m := by
  have hspl : (∃ k ∈ nodes ++ [n], Moves nfa k c m) ↔
      (∃ k ∈ nodes, Moves nfa k c m) ∨ Moves nfa n c m := by
    simp [or_and_right, exists_or]
  have hlt : ∀ tgs, find (nfa.transitionsForNode n) c = some tgs →
      ∀ t ∈ tgs, t < nfa.nodes.length := by
    intro tgs hfn t ht
    obtain ⟨r, hr, _, rfl⟩ := mem_of_find hfn
    exact hwf.target_lt n r hr t ht
  rw [hspl]
  cases hsf : find ranges c with
  | none =>
    have hno : ¬ ∃ k ∈ nodes, Moves nfa k c m := by
      rintro ⟨k, hk, hmv⟩
      exact not_moves ((not_canMove_iff k c).mp ((h.none_iff c).mp hsf k hk)) m hmv
    cases hoth : find (nfa.transitionsForNode n) c <;> rw [hsf, hoth] at hs <;> cases hs
    case some.refl tgs =>
      rw [mem_convert hwf tgs (hlt tgs hoth), moves_iff hwf hoth]
      exact (or_iff_right hno).symm
  | some old =>
    have hold := h.mem_iff c old hsf m
    cases hoth : find (nfa.transitionsForNode n) c <;> rw [hsf, hoth] at hs <;> cases hs
    case none.refl =>
      rw [hold]
      exact (or_iff_left (not_moves hoth m)).symm
    case some.refl tgs =>
      obtain ⟨r, hr, _, hdt⟩ := mem_of_find hsf
      have hcld : EpsilonClosed nfa old := hdt ▸ h.closed r hr
      rw [mem_extend hwf tgs (hlt tgs hoth) hcld, hold, moves_iff hwf hoth]

theorem CombinedInv.extend (h : CombinedInv nfa nodes ranges) (n : Nat) :
    CombinedInv nfa (nodes ++ [n])
      (overlay (dataConverterWithEpsilonClosure (resolveEpsilonClosures nfa)).convert
        (dataConverterWithEpsilonClosure (resolveEpsilonClosures nfa)).extend ranges
        (nfa.transitionsForNode n)) := by
  have hn := hwf.sorted n
  refine ⟨overlay_sorted ranges _ h.sorted hn,
    overlay_upper ranges _ h.ascii (hwf.ascii n) h.sorted hn, ?_, ?_, ?_⟩
  · -- the data of a range is what is found at its first character
    intro r hr k hk m hm
    have hfn := (overlay_sorted ranges _ h.sorted hn).find_eq hr
      ⟨le_rfl, (overlay_sorted ranges _ h.sorted hn).nonempty r hr⟩
    rw [find_overlay ranges _ h.sorted hn] at hfn
    obtain ⟨j, hj, r', hr', hc, t, ht, hrch⟩ := (h.mem_combine hwf hfn k).mp hk
    exact (h.mem_combine hwf hfn m).mpr ⟨j, hj, r', hr', hc, t, ht, hrch.trans hm⟩
  · intro c
    rw [find_overlay ranges _ h.sorted hn, combine_eq_none_iff, h.none_iff, ← not_canMove_iff]
    simp [or_imp, forall_and]
  · intro c set hs
    rw [find_overlay ranges _ h.sorted hn] at hs
    exact h.mem_combine hwf hs

/-- **Combined transitions.** The ranges of a set say where its nodes lead. -/
theorem createCombinedTransition_spec (set : NodeIdSet) :
    CombinedInv nfa set.elements
      (createCombinedTransition nfa (resolveEpsilonClosures nfa) set).toList := by
  unfold createCombinedTransition
  -- by induction from the right: the last node is merged in last
  induction set.elements using List.reverseRecOn with
  | nil =>
    exact combinedInv_nil
  | append_singleton nodes n ih =>
    rw [foldl_concat, MutableRangeList.toList_extend]
    exact ih.extend hwf n

end Combined

/-! ## The deterministic system of the sets -/

section Subsets

variable {nfa : NFA}

/-- Where a set of nodes leads: nowhere if no node of it can move. -/
noncomputable def subsetStep (nfa : NFA) (nodes : Set Nat) (c : Nat) : Option (Set Nat) :=
  open Classical in
  if ∃ n ∈ nodes, CanMove nfa n c then some { m | ∃ n ∈ nodes, Moves nfa n c m } else none

def nodesOf (set : NodeIdSet) : Set Nat := { n | n ∈ set }

theorem nodesOf_eq_iff {s t : NodeIdSet} : nodesOf s = nodesOf t ↔ ∀ n, n ∈ s ↔ n ∈ t := Set.ext_iff

variable {w : List Nat}

theorem reaches_snoc_iff_moves {c m : Nat} :
    nfa.Reaches (w ++ [c]) m ↔ ∃ n, nfa.Reaches w n ∧ Moves nfa n c m := by
  rw [NFA.reaches_snoc]
  constructor
  · rintro ⟨n, r, t, hn, hr, hc, ht, he⟩
    exact ⟨n, hn, r, hr, hc, t, ht, he⟩
  · rintro ⟨n, hn, r, hr, hc, t, ht, he⟩
    exact ⟨n, r, t, hn, hr, hc, ht, he⟩

variable {n : Nat}

variable (hwf : nfa.WellFormed)

include hwf

theorem canMove_iff_exists_moves {c : Nat} :
    CanMove nfa n c ↔ ∃ m, Moves nfa n c m := by
  constructor
  · rintro ⟨r, hr, hc⟩
    obtain ⟨t, ht⟩ := exists_mem_of_ne_nil r.data (hwf.targets_ne n r hr)
    exact ⟨t, r, hr, hc, t, ht, NFA.EpsilonReach.refl t⟩
  · rintro ⟨m, r, hr, hc, _⟩
    exact ⟨r, hr, hc⟩

theorem abstractRun_subsetStep (w : List Nat) :
    (abstractRun (subsetStep nfa) { m | nfa.EpsilonReach nfa.root m } w = none ∧
        ∀ n, ¬ nfa.Reaches w n) ∨
      (abstractRun (subsetStep nfa) { m | nfa.EpsilonReach nfa.root m } w =
          some { n | nfa.Reaches w n } ∧ ∃ n, nfa.Reaches w n) := by
  induction w using List.reverseRecOn with
  | nil =>
    refine .inr ⟨?_, nfa.root, NFA.Reaches.root⟩
    show some { m | nfa.EpsilonReach nfa.root m } = some { n | nfa.Reaches [] n }
    congr 1
    ext m
    exact NFA.reaches_nil.symm
  | append_singleton w c ih =>
    rw [abstractRun_append]
    rcases ih with ⟨hr, hno⟩ | ⟨hr, _⟩
    · refine .inl ⟨by rw [hr]; rfl, ?_⟩
      intro m hm
      obtain ⟨n, hn, _⟩ := reaches_snoc_iff_moves.mp hm
      exact hno n hn
    · rw [hr]
      show ((subsetStep nfa { n | nfa.Reaches w n } c).bind some = none ∧ _) ∨
        ((subsetStep nfa { n | nfa.Reaches w n } c).bind some = _ ∧ _)
      rw [Option.bind_fun_some]
      unfold subsetStep
      by_cases hmv : ∃ n ∈ { n | nfa.Reaches w n }, CanMove nfa n c
      · right
        rw [if_pos hmv]
        refine ⟨?_, ?_⟩
        · congr 1
          ext m
          exact reaches_snoc_iff_moves.symm
        · obtain ⟨n, hn, hcan⟩ := hmv
          obtain ⟨m, hm⟩ := (canMove_iff_exists_moves hwf).mp hcan
          exact ⟨m, reaches_snoc_iff_moves.mpr ⟨n, hn, hm⟩⟩
      · left
        rw [if_neg hmv]
        refine ⟨rfl, ?_⟩
        intro m hm
        obtain ⟨n, hn, hm⟩ := reaches_snoc_iff_moves.mp hm
        exact hmv ⟨n, hn, (canMove_iff_exists_moves hwf).mpr ⟨m, hm⟩⟩

theorem root_lt : nfa.root < nfa.nodes.length :=
  length_pos_of_ne_nil hwf.nonempty

theorem reaches_lt (h : nfa.Reaches w n) : n < nfa.nodes.length := by
  induction h with
  | root => exact root_lt hwf
  | epsilon _ ht _ => exact hwf.epsilon_lt _ _ ht
  | char _ hr _ ht _ => exact hwf.target_lt _ _ hr _ ht

/-- A set that the construction meets: the nodes that some string leads to. -/
def ReachedSet (nfa : NFA) (set : NodeIdSet) : Prop :=
  ∃ w, (∃ n, nfa.Reaches w n) ∧ ∀ n, n ∈ set ↔ nfa.Reaches w n

theorem mem_initialSet (m : Nat) :
    m ∈ initialSet nfa ↔ nfa.EpsilonReach nfa.root m := by
  unfold initialSet extendSetWithClosure
  rw [mem_add_addAll_closureOf hwf (root_lt hwf)]
  exact or_iff_right (not_mem_empty m)

theorem reachedSet_initialSet : ReachedSet nfa (initialSet nfa) := by
  refine ⟨[], ⟨nfa.root, NFA.Reaches.root⟩, ?_⟩
  intro n
  rw [mem_initialSet hwf, NFA.reaches_nil]

theorem find_createCombinedTransition (set : NodeIdSet) (c : Nat) :
    (find (createCombinedTransition nfa (resolveEpsilonClosures nfa) set).toList c).map nodesOf =
      subsetStep nfa (nodesOf set) c := by
  have hsp := createCombinedTransition_spec hwf set
  unfold subsetStep
  cases hfn : find (createCombinedTransition nfa (resolveEpsilonClosures nfa) set).toList c with
  | none =>
    have hnn := (hsp.none_iff c).mp hfn
    rw [if_neg (fun ⟨n, hn, hcan⟩ => hnn n hn hcan)]
    rfl
  | some tgt =>
    refine Eq.trans ?_ (if_pos (hsp.exists_canMove hfn)).symm
    show some (nodesOf tgt) = _
    congr 1
    ext m
    exact hsp.mem_iff c tgt hfn m

theorem ReachedSet.next {set : NodeIdSet} (h : ReachedSet nfa set)
    {r : Range NodeIdSet}
    (hr : r ∈ (createCombinedTransition nfa (resolveEpsilonClosures nfa) set).toList) :
    ReachedSet nfa r.data := by
  obtain ⟨w, _, hw⟩ := h
  have hsp := createCombinedTransition_spec hwf set
  have hfn := hsp.sorted.find_eq hr ⟨le_rfl, hsp.sorted.nonempty r hr⟩
  have hmem : ∀ m, m ∈ r.data ↔ nfa.Reaches (w ++ [r.first]) m := by
    intro m
    rw [hsp.mem_iff r.first r.data hfn, reaches_snoc_iff_moves]
    simp only [← mem_def, hw]
  refine ⟨w ++ [r.first], ?_, hmem⟩
  -- some node of the set can move, and it leads somewhere
  obtain ⟨n, hn, hcan⟩ := hsp.exists_canMove hfn
  obtain ⟨m, hm⟩ := (canMove_iff_exists_moves hwf).mp hcan
  exact ⟨m, reaches_snoc_iff_moves.mpr ⟨n, (hw n).mp hn, hm⟩⟩

end Subsets

/-! ## The construction -/

section Construct

variable {nfa : NFA} (iteration : Iteration) {set : NodeIdSet} {w : List Nat}

theorem mem_stored {idx : Nat} {n : Nat} :
    n ∈ (subsetConstruction iteration nfa).stored idx set ↔ n ∈ set :=
  (iteration.nodes_perm idx set.elements).mem_iff

theorem same_iff {s t : NodeIdSet} :
    (subsetConstruction iteration nfa).same s t = true ↔ ∀ n, n ∈ s ↔ n ∈ t :=
  uniqueNodeIdSetEqual_iff

theorem subsetConstruction_lawful (hwf : nfa.WellFormed) :
    (subsetConstruction iteration nfa).Lawful (ReachedSet nfa) where
  actions_le := by
    intro i k acts len h
    change (if _ then _ else _) = _ at h
    split at h
    · cases h
      exact le_rfl
    · cases h
  stored_valid := by
    rintro i k ⟨w, hne, hw⟩
    exact ⟨w, hne, fun n => (mem_stored iteration).trans (hw n)⟩
  stored_same := by
    intro i k _
    exact (same_iff iteration).mpr (fun n => mem_stored iteration)
  same_stored := by
    intro i k k'
    rw [Bool.eq_iff_iff, same_iff, same_iff]
    simp only [mem_stored]
  next_valid := fun k hk r hr => hk.next hwf hr
  sorted := fun k _ => (createCombinedTransition_spec hwf k).sorted
  ascii := fun k _ => (createCombinedTransition_spec hwf k).ascii

theorem length_le_of_pairwise (hwf : nfa.WellFormed) (keys : List NodeIdSet)
    (hvld : ∀ k ∈ keys, ReachedSet nfa k)
    (hne : keys.Pairwise fun k k' => (subsetConstruction iteration nfa).same k k' = false) :
    keys.length ≤ 2 ^ nfa.nodes.length := by
  have hnd : (keys.map fun k => k.elements.toFinset).Nodup := by
    refine pairwise_map.mpr (hne.imp ?_)
    intro k k' hsm heq
    have : (subsetConstruction iteration nfa).same k k' = true := by
      refine (same_iff iteration).mpr (fun n => ?_)
      rw [mem_def, mem_def, ← mem_toFinset, heq, mem_toFinset]
    rw [hsm] at this
    exact Bool.false_ne_true this
  have hs : (keys.map fun k => k.elements.toFinset).toFinset ⊆
      (Finset.range nfa.nodes.length).powerset := by
    intro f hf
    obtain ⟨k, hk, rfl⟩ := mem_map.mp (mem_toFinset.mp hf)
    refine Finset.mem_powerset.mpr (fun n hn => Finset.mem_range.mpr ?_)
    obtain ⟨w, _, hw⟩ := hvld k hk
    exact reaches_lt hwf ((hw n).mp (mem_toFinset.mp hn))
  have hcr := Finset.card_le_card hs
  rwa [toFinset_card_of_nodup hnd, length_map, Finset.card_powerset, Finset.card_range] at hcr

/-! ## Actions -/

/-- The actions of all nodes that the string leads to. -/
def reachedActions (nfa : NFA) (w : List Nat) : Set Nat :=
  { a | ∃ n, nfa.Reaches w n ∧ a ∈ nfa.actionsOf n }

section

variable (hw : ∀ n, n ∈ set ↔ nfa.Reaches w n)

include hw

theorem mem_actionsOfSet (a : Nat) : a ∈ actionsOfSet nfa set ↔ a ∈ reachedActions nfa w := by
  unfold actionsOfSet
  rw [mem_addAll, mem_flatMap]
  constructor
  · rintro (h | ⟨n, hn, ha⟩)
    · exact absurd h (not_mem_empty a)
    · exact ⟨n, (hw n).mp hn, ha⟩
  · rintro ⟨n, hn, ha⟩
    exact .inr ⟨n, (hw n).mpr hn, ha⟩

theorem ncard_reachedActions :
    (reachedActions nfa w).ncard = (actionsOfSet nfa set).elements.length := by
  have : reachedActions nfa w = ((actionsOfSet nfa set).elements.toFinset : Set Nat) := by
    ext a
    rw [← mem_actionsOfSet hw a, Finset.mem_coe, mem_toFinset]
    rfl
  rw [this, Set.ncard_coe_finset, toFinset_card_of_nodup (actionsOfSet nfa set).nodup]

theorem subsetConstruction_actions (i : Nat) :
    ((subsetConstruction iteration nfa).actions i set = none ∧
        2 ^ 16 - 1 < (reachedActions nfa w).ncard) ∨
      ∃ acts, (subsetConstruction iteration nfa).actions i set =
          some (acts, acts.length) ∧ (reachedActions nfa w).ncard ≤ 2 ^ 16 - 1 ∧
        ∀ a, a ∈ acts ↔ a ∈ reachedActions nfa w := by
  have hpr := iteration.actions_perm i (actionsOfSet nfa set).elements
  rw [ncard_reachedActions hw, ← hpr.length_eq]
  by_cases h : (iteration.actions i (actionsOfSet nfa set).elements).length ≤ 2 ^ 16 - 1
  · refine .inr ⟨_, if_pos h, h, ?_⟩
    intro a
    rw [hpr.mem_iff, ← mem_actionsOfSet hw a]
    rfl
  · exact .inl ⟨if_neg h, Nat.lt_of_not_le h⟩

end

/-- The automaton is stuck and no node is reached, or it is at the node of the set of those reached.
-/
theorem run_convert (hwf : nfa.WellFormed) {dfa : DFA} {tbl : List NodeIdSet}
    (hblt : Construction.Built (subsetConstruction iteration nfa) (ReachedSet nfa)
      (initialSet nfa) tbl dfa) (w : List Nat) :
    (dfa.run w = none ∧ ∀ n, ¬ nfa.Reaches w n) ∨
      ∃ i set, dfa.run w = some i ∧ tbl[i]? = some set ∧ (∃ n, nfa.Reaches w n) ∧
        ∀ n, n ∈ set ↔ nfa.Reaches w n := by
  have hrt : nodesOf (initialSet nfa) = { m | nfa.EpsilonReach nfa.root m } := by
    ext m
    exact mem_initialSet hwf m
  have hr := hblt.run nodesOf (subsetStep nfa)
    (fun k k' h => nodesOf_eq_iff.mpr ((same_iff iteration).mp h))
    (fun k _ c => find_createCombinedTransition hwf k c) w
  rw [hrt] at hr
  rcases hr with ⟨hnn, habs⟩ | ⟨i, set, hi, hs, habs⟩
  · rcases abstractRun_subsetStep hwf w with ⟨_, hno⟩ | ⟨hso, _⟩
    · exact .inl ⟨hnn, hno⟩
    · rw [habs] at hso
      cases hso
  · rcases abstractRun_subsetStep hwf w with ⟨hno, _⟩ | ⟨hso, hex⟩
    · rw [habs] at hno
      cases hno
    · rw [habs] at hso
      refine .inr ⟨i, set, hi, hs, hex, ?_⟩
      intro n
      exact Set.ext_iff.mp (Option.some.inj hso) n

theorem reachedActions_eq_empty (h : ∀ n, ¬ nfa.Reaches w n) : reachedActions nfa w = ∅ := by
  ext a
  constructor
  · rintro ⟨n, hn, _⟩
    exact absurd hn (h n)
  · exact fun ha => absurd ha (Set.notMem_empty a)

/-- The conversion succeeds unless more actions come together than a node can
count. -/
theorem convert_isSome_iff (hwf : nfa.WellFormed) :
    (convert iteration nfa).isSome = true ↔ ∀ w, (reachedActions nfa w).ncard ≤ 2 ^ 16 - 1 := by
  have hlaw := subsetConstruction_lawful iteration hwf
  have hin := reachedSet_initialSet hwf
  constructor
  · intro hso w
    obtain ⟨dfa, hdfa⟩ := Option.isSome_iff_exists.mp hso
    obtain ⟨tbl, hblt⟩ := build_spec hlaw hin hdfa
    rcases run_convert iteration hwf hblt w with ⟨_, hno⟩ | ⟨i, set, _, hs, _, hw⟩
    · rw [reachedActions_eq_empty hno, Set.ncard_empty]
      exact Nat.zero_le _
    obtain ⟨acts, len, hacn, _⟩ := hblt.actions i set hs
    rcases subsetConstruction_actions iteration hw i with ⟨hnn, _⟩ | ⟨_, _, hle, _⟩
    · rw [hnn] at hacn
      cases hacn
    · exact hle
  · intro hle
    by_contra hno
    have hnn : convert iteration nfa = none := Option.not_isSome_iff_eq_none.mp hno
    obtain ⟨set, ⟨w, _, hw⟩, i, hi⟩ := build_eq_none hlaw
      (length_le_of_pairwise iteration hwf) hin hnn
    rcases subsetConstruction_actions iteration hw i with ⟨_, hlt⟩ | ⟨_, hso, _⟩
    · exact absurd (hle w) (Nat.not_le_of_lt hlt)
    · rw [hi] at hso
      cases hso

/-- **The conversion is a correct subset construction.** It succeeds if and only if no string brings
more than 65535 actions together (else a release assertion fails). The result runs on the strings
that lead to some node, its node has exactly the actions of all nodes that the string leads to, and
its ranges are sorted and disjoint. -/
theorem convert_subset_construction (hwf : nfa.WellFormed) :
    ((convert iteration nfa).isSome = true ↔
      ∀ w, (reachedActions nfa w).ncard ≤ 2 ^ 16 - 1) ∧
    ∀ dfa, convert iteration nfa = some dfa →
      (∀ w, (dfa.run w).isSome = true ↔ ∃ n, nfa.Reaches w n) ∧
      (∀ w i, dfa.run w = some i → ∀ a, a ∈ dfa.actionsOf i ↔
        ∃ n, nfa.Reaches w n ∧ a ∈ nfa.actionsOf n) ∧
      ∀ i, Sorted (dfa.transitionsOf i) := by
  refine ⟨convert_isSome_iff iteration hwf, ?_⟩
  intro dfa hdfa
  have hlaw := subsetConstruction_lawful iteration hwf
  obtain ⟨table, hblt⟩ :=
    Construction.build_spec hlaw (reachedSet_initialSet hwf) hdfa
  refine ⟨?_, ?_, ?_⟩
  · intro w
    rcases run_convert iteration hwf hblt w with ⟨hnone, hno⟩ | ⟨i, _, hi, _, hex, _⟩
    · rw [hnone]
      simp [hno]
    · rw [hi]
      simp [hex]
  · intro w i hi a
    rcases run_convert iteration hwf hblt w with ⟨hnone, _⟩ | ⟨j, set, hj, hset, _, hw⟩
    · rw [hi] at hnone
      cases hnone
    rw [hi] at hj
    cases hj
    obtain ⟨actions, length, hacn, hof⟩ := hblt.actions i set hset
    rcases subsetConstruction_actions iteration hw i with ⟨hnone, _⟩ | ⟨_, hsome, _, hmem⟩
    · rw [hnone] at hacn
      cases hacn
    · rw [hsome] at hacn
      cases hacn
      rw [hof, take_length]
      exact hmem a
  · intro i
    cases hnode : dfa.nodes[i]? with
    | none =>
      have hnil : dfa.transitionsOf i = [] := by
        unfold DFA.transitionsOf
        rw [hnode]
      rw [hnil]
      exact sorted_nil
    | some node => exact hblt.wellFormed.sorted i ⟨node, hnode, hblt.live i node hnode⟩

end Construct

/-- Hash sets iterated in insertion order. -/
def Iteration.insertionOrder : Iteration :=
  ⟨fun _ l => l, fun _ l => l, fun _ l => List.Perm.refl l, fun _ l => List.Perm.refl l⟩

/-- Two nodes with epsilon transitions to each other; from the second, `a` leads to both, `b` to the
first. -/
def epsilonCycle : NFA where
  nodes := [⟨0, 0, 0, 1, 0, 1⟩, ⟨0, 2, 1, 2, 1, 2⟩]
  transitions := [⟨0, 2, 97, 97⟩, ⟨2, 3, 98, 98⟩]
  targets := [0, 1, 0]
  epsilonTransitionsTargets := [1, 0]
  actions := [7, 8]

theorem epsilonCycle_wellFormed : epsilonCycle.WellFormed := by
  have hn : ∀ i, 2 ≤ i → epsilonCycle.nodes[i]? = none := fun i hi =>
    getElem?_eq_none hi
  have htrs : ∀ i, epsilonCycle.transitionsForNode i = [] ∨
      epsilonCycle.transitionsForNode i = [⟨97, 97, [0, 1]⟩, ⟨98, 98, [0]⟩] := by
    intro i
    match i with
    | 0 => exact .inl rfl
    | 1 => exact .inr rfl
    | i + 2 =>
      left
      unfold NFA.transitionsForNode
      rw [hn (i + 2) (by omega)]
  have heps : ∀ i, ∀ t ∈ epsilonCycle.epsilonTargets i, t < 2 := by
    intro i
    match i with
    | 0 => decide
    | 1 => decide
    | i + 2 =>
      exact forall_mem_nil _
  refine ⟨by decide, heps, ?_, ?_, ?_, ?_⟩
  all_goals
    intro i
    rcases htrs i with h | h <;> rw [h]
  · exact forall_mem_nil _
  · decide
  · exact forall_mem_nil _
  · decide
  · exact sorted_nil
  · exact ⟨by decide, by decide⟩
  · exact forall_mem_nil _
  · decide

open Iteration

theorem convert_subset_construction_epsilonCycle :
    ((convert insertionOrder epsilonCycle).isSome = true ↔
      ∀ w, (reachedActions epsilonCycle w).ncard ≤ 2 ^ 16 - 1) ∧
    ∀ dfa, convert insertionOrder epsilonCycle = some dfa →
      (∀ w, (dfa.run w).isSome = true ↔ ∃ n, epsilonCycle.Reaches w n) ∧
      (∀ w i, dfa.run w = some i → ∀ a, a ∈ dfa.actionsOf i ↔
        ∃ n, epsilonCycle.Reaches w n ∧ a ∈ epsilonCycle.actionsOf n) ∧
      ∀ i, Sorted (dfa.transitionsOf i) :=
  convert_subset_construction insertionOrder epsilonCycle_wellFormed

/-- A root with the given number of actions. -/
def crowdedRoot (count : Nat) : NFA where
  nodes := [⟨0, 0, 0, 0, 0, count⟩]
  actions := List.range count

theorem crowdedRoot_wellFormed (cnt : Nat) : (crowdedRoot cnt).WellFormed := by
  have htrs : ∀ i, (crowdedRoot cnt).transitionsForNode i = [] := by
    intro i
    match i with
    | 0 => rfl
    | i + 1 => rfl
  have heps : ∀ i, (crowdedRoot cnt).epsilonTargets i = [] := by
    intro i
    match i with
    | 0 => rfl
    | i + 1 => rfl
  refine ⟨cons_ne_nil _ _, ?_, ?_, ?_, ?_, ?_⟩
  · intro i t ht
    rw [heps] at ht
    cases ht
  all_goals
    intro i
    rw [htrs]
  · exact forall_mem_nil _
  · exact forall_mem_nil _
  · exact sorted_nil
  · exact forall_mem_nil _

theorem ncard_reachedActions_crowdedRoot (count : Nat) :
    (reachedActions (crowdedRoot count) []).ncard = count := by
  have hm : ∀ a, a ∈ (crowdedRoot count).actionsOf 0 ↔ a < count := by
    intro a
    show a ∈ segment (List.range count) 0 count ↔ _
    unfold segment slice
    rw [drop_zero, Nat.sub_zero, take_of_length_le (by rw [length_range]), mem_range]
  have heq : reachedActions (crowdedRoot count) [] = (Finset.range count : Set Nat) := by
    ext a
    rw [Finset.mem_coe, Finset.mem_range]
    constructor
    · rintro ⟨n, hn, ha⟩
      have hlt : n < 1 := reaches_lt (crowdedRoot_wellFormed count) hn
      obtain rfl : n = 0 := Nat.lt_one_iff.mp hlt
      exact (hm a).mp ha
    · intro ha
      exact ⟨0, NFA.Reaches.root, (hm a).mpr ha⟩
  rw [heq, Set.ncard_coe_finset, Finset.card_range]

/-- With one action more than a node can count, no result is returned. -/
theorem convert_crowdedRoot : (crowdedRoot (2 ^ 16)).WellFormed ∧
      convert insertionOrder (crowdedRoot (2 ^ 16)) = none := by
  refine ⟨crowdedRoot_wellFormed _, ?_⟩
  by_contra hne
  have hle := (convert_isSome_iff insertionOrder (crowdedRoot_wellFormed _)).mp
    (Option.isSome_iff_ne_none.mpr hne) []
  rw [ncard_reachedActions_crowdedRoot] at hle
  omega

end WebKit.ContentExtensions
