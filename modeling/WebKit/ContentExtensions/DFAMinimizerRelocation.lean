import WebKit.ContentExtensions.DFAMinimizerCorrect

/-!
# Minimizing an automaton

The nodes that are replaced are killed with the memory they refer to, and the transitions of the
others are led to the replacements. No memory is shared between nodes.
-/

namespace WebKit.ContentExtensions

open RangeOverlay Vectors List WebKit.ContentExtensions.DFA Option

/-! ## Killing -/

/-- The nodes before `k` that are replaced have been killed. -/
structure KillInv (replacement : Nat → Nat) (dfa : DFA) (k : Nat) (st : List Nat × DFA) :
    Prop where
  vector_length : st.1.length = dfa.nodes.length
  vector : ∀ i, i < dfa.nodes.length → st.1.getD i 0 = if i < k then replacement i else i
  nodes : ∀ i, st.2.nodes[i]? = dfa.nodes[i]?.map fun node =>
    if i < k ∧ i ≠ replacement i then ⟨0, 0, 0, 0, true⟩ else node
  root : st.2.root = dfa.root
  ranges_length : st.2.transitionRanges.length = dfa.transitionRanges.length
  destinations_length : st.2.transitionDestinations.length = dfa.transitionDestinations.length
  actions_length : st.2.actions.length = dfa.actions.length
  transitions : ∀ (position : Nat), (∀ (i : Nat) (node : DFANode), i < k → i ≠ replacement i →
      dfa.nodes[i]? = some node → ¬ DFA.InTransitions node position) →
    st.2.transitionRanges[position]? = dfa.transitionRanges[position]? ∧
      st.2.transitionDestinations[position]? = dfa.transitionDestinations[position]?
  actions : ∀ (position : Nat), (∀ (i : Nat) (node : DFANode), i < k → i ≠ replacement i →
      dfa.nodes[i]? = some node → ¬ DFA.InActions node position) →
    st.2.actions[position]? = dfa.actions[position]?

section Kill

variable {replacement : Nat → Nat} {dfa : DFA}

theorem killInv_zero (replacement : Nat → Nat) (dfa : DFA) :
    KillInv replacement dfa 0 (range dfa.nodes.length, dfa) := by
  refine ⟨length_range, ?_, ?_, rfl, rfl, rfl, rfl, fun _ _ => ⟨rfl, rfl⟩, fun _ _ => rfl⟩
  · intro i hi
    rw [getD_eq_getElem?_getD, getElem?_range hi, if_neg (Nat.not_lt_zero i)]
    rfl
  · intro i
    simp

theorem KillInv.step {k : Nat} {st : List Nat × DFA} (h : KillInv replacement dfa k st)
    (hk : k < dfa.nodes.length) :
    KillInv replacement dfa (k + 1)
      (if k ≠ replacement k then (st.1.set k (replacement k), st.2.kill k) else st) := by
  have htrs := fun position (hps : ∀ i node, i < k + 1 → _) =>
    h.transitions position fun i node hi => hps i node (Nat.lt_succ_of_lt hi)
  have hacn := fun position (hps : ∀ i node, i < k + 1 → _) =>
    h.actions position fun i node hi => hps i node (Nat.lt_succ_of_lt hi)
  by_cases hrep : k ≠ replacement k
  · rw [if_pos hrep]
    have hg := getElem?_eq_getElem hk
    have hnd : st.2.nodes[k]? = some dfa.nodes[k] := by
      rw [h.nodes, hg, map_some, if_neg (fun hand => lt_irrefl k hand.1)]
    have hkl : st.2.kill k =
        { st.2 with
          nodes := st.2.nodes.set k ⟨0, 0, 0, 0, true⟩
          transitionRanges := (range' (dfa.nodes[k]).transitionsStart
            (dfa.nodes[k]).transitionsLength).foldl
              (fun rgs i => rgs.set i ⟨255, 255⟩) st.2.transitionRanges
          transitionDestinations := (range' (dfa.nodes[k]).transitionsStart
            (dfa.nodes[k]).transitionsLength).foldl
              (fun destinations i => destinations.set i (2 ^ 32 - 1)) st.2.transitionDestinations
          actions := (range' (dfa.nodes[k]).actionsStart (dfa.nodes[k]).actionsLength).foldl
            (fun actions i => actions.set i (2 ^ 64 - 1)) st.2.actions } := by
      unfold kill
      rw [hnd]
    rw [hkl]
    have hkn : k < st.2.nodes.length := lt_of_getElem? hnd
    refine ⟨?_, ?_, ?_, h.root, ?_, ?_, ?_, ?_, ?_⟩
    · rw [length_set]
      exact h.vector_length
    · intro i hi
      rw [getD_set_of_lt (by rw [h.vector_length]; exact hk), h.vector i hi]
      grind
    · intro i
      show (st.2.nodes.set k _)[i]? = _
      by_cases hik : k = i
      · subst hik
        rw [getElem?_set_self hkn, hg, map_some, if_pos ⟨Nat.lt_succ_self k, hrep⟩]
      · rw [getElem?_set_ne hik, h.nodes i]
        simp only [Nat.lt_succ_iff_lt_or_eq, Ne.symm hik, or_false]
    · exact (length_foldl_set _ _ _).trans h.ranges_length
    · exact (length_foldl_set _ _ _).trans h.destinations_length
    · exact (length_foldl_set _ _ _).trans h.actions_length
    · intro position hps
      have ho : position ∉ range' (dfa.nodes[k]).transitionsStart
          (dfa.nodes[k]).transitionsLength := by
        intro hm
        exact hps k _ (Nat.lt_succ_self k) hrep hg (mem_range'_1.mp hm)
      obtain ⟨hr, hd⟩ := htrs position hps
      exact ⟨(getElem?_foldl_set_of_notMem _ _ _ ho).trans hr,
        (getElem?_foldl_set_of_notMem _ _ _ ho).trans hd⟩
    · intro position hps
      have ho : position ∉ range' (dfa.nodes[k]).actionsStart (dfa.nodes[k]).actionsLength := by
        intro hm
        exact hps k _ (Nat.lt_succ_self k) hrep hg (mem_range'_1.mp hm)
      exact (getElem?_foldl_set_of_notMem _ _ _ ho).trans (hacn position hps)
  · rw [if_neg hrep]
    have hmn : ∀ i, i < k ∧ i ≠ replacement i ↔ i < k + 1 ∧ i ≠ replacement i := by grind
    refine ⟨h.vector_length, ?_, ?_, h.root, h.ranges_length, h.destinations_length,
      h.actions_length, htrs, hacn⟩
    · intro i hi
      rw [h.vector i hi]
      grind
    · intro i
      simp only [h.nodes i, hmn i]

theorem killReplaced_spec (replacement : Nat → Nat) (dfa : DFA) :
    KillInv replacement dfa dfa.nodes.length (killReplaced replacement dfa) := by
  have key : ∀ k ≤ dfa.nodes.length, KillInv replacement dfa k
      ((range k).foldl (fun (st : List Nat × DFA) i =>
        if i ≠ replacement i then (st.1.set i (replacement i), st.2.kill i) else st)
        (range dfa.nodes.length, dfa)) := by
    intro k
    induction k with
    | zero => exact fun _ => killInv_zero replacement dfa
    | succ k ih =>
      intro hk
      rw [range_succ, foldl_concat]
      exact (ih (le_of_lt hk)).step hk
  exact key dfa.nodes.length (le_refl _)

end Kill

/-! ## Leading the transitions to the replacements -/

/-- The transitions of the live nodes before `k` have been led to the replacements. -/
structure RelocateInv (vector : List Nat) (dfa : DFA) (k : Nat) (st : DFA) : Prop where
  nodes : st.nodes = dfa.nodes
  ranges : st.transitionRanges = dfa.transitionRanges
  actions : st.actions = dfa.actions
  root : st.root = dfa.root
  destinations_length : st.transitionDestinations.length = dfa.transitionDestinations.length
  relocated : ∀ (i position : Nat) (node : DFANode), i < k → dfa.LiveNode i node →
    DFA.InTransitions node position → st.transitionDestinations[position]? =
      dfa.transitionDestinations[position]?.map fun target => vector.getD target 0
  untouched : ∀ (position : Nat), (∀ (i : Nat) (node : DFANode), i < k → dfa.LiveNode i node →
    ¬ DFA.InTransitions node position) →
    st.transitionDestinations[position]? = dfa.transitionDestinations[position]?

section Relocate

variable {vector : List Nat} {dfa : DFA}
  (hapt : ∀ (i j : Nat) (ni nj : DFANode), i ≠ j → dfa.LiveNode i ni → dfa.LiveNode j nj →
    ∀ position, DFA.InTransitions ni position → ¬ DFA.InTransitions nj position)

theorem relocateTransitions_of_dead {k : Nat} {st : DFA} (hn : st.nodes = dfa.nodes)
    (hdd : ∀ node, ¬ dfa.LiveNode k node) : st.relocateTransitions vector k = st := by
  unfold relocateTransitions
  rw [hn]
  cases hg : dfa.nodes[k]? with
  | none => rfl
  | some node => exact if_pos (by simpa [DFA.LiveNode, hg] using hdd node)

include hapt

theorem RelocateInv.step {k : Nat} {st : DFA} (h : RelocateInv vector dfa k st) :
    RelocateInv vector dfa (k + 1) (st.relocateTransitions vector k) := by
  by_cases hdd : ∀ node, ¬ dfa.LiveNode k node
  · rw [relocateTransitions_of_dead h.nodes hdd]
    refine ⟨h.nodes, h.ranges, h.actions, h.root, h.destinations_length, ?_, ?_⟩
    · intro i position node hi hlv
      have hne : i ≠ k := fun heq => hdd node (heq ▸ hlv)
      exact h.relocated i position node (lt_of_le_of_ne (Nat.le_of_lt_succ hi) hne) hlv
    · intro position hps
      exact h.untouched position (fun i node hi => hps i node (Nat.lt_succ_of_lt hi))
  · simp only [not_forall, Classical.not_not] at hdd
    obtain ⟨node, hnd⟩ := hdd
    have hg := hnd.1
    have heq : st.relocateTransitions vector k =
        { st with
          transitionDestinations :=
            (range' node.transitionsStart node.transitionsLength).foldl
              (fun destinations i => destinations.set i
                (vector.getD (destinations.getD i 0) 0)) st.transitionDestinations } := by
      unfold relocateTransitions
      rw [h.nodes, hg]
      exact if_neg (by rw [hnd.2]; exact Bool.false_ne_true)
    rw [heq]
    have hv := fun position => getElem?_foldl_modify (fun tgt => vector.getD tgt 0) 0
      (range' node.transitionsStart node.transitionsLength) nodup_range'
      st.transitionDestinations position
    refine ⟨h.nodes, h.ranges, h.actions, h.root, ?_, ?_, ?_⟩
    · exact (length_foldl_modify id (fun l i => vector.getD (l.getD i 0) 0) _ _).trans
        h.destinations_length
    · intro i position node' hi hlv hin
      refine (hv position).trans ?_
      rcases Nat.lt_succ_iff_lt_or_eq.mp hi with hi | rfl
      · -- an earlier node: the positions of this one are elsewhere
        have ho := hapt i k node' node hi.ne hlv hnd position hin
        rw [if_neg (fun hm => ho (mem_range'_1.mp hm))]
        exact h.relocated i position node' hi hlv hin
      · obtain rfl := some.inj (hg.symm.trans hlv.1)
        rw [if_pos (mem_range'_1.mpr hin), h.untouched position]
        intro j oth hj hoth hir
        exact hapt j i oth node hj.ne hoth hnd position hir hin
    · intro position hps
      refine (hv position).trans ?_
      have ho := hps k node (Nat.lt_succ_self k) hnd
      rw [if_neg (fun hm => ho (mem_range'_1.mp hm))]
      exact h.untouched position (fun i oth hi => hps i oth (Nat.lt_succ_of_lt hi))

variable (vector dfa) in
theorem relocateTransitions_spec :
    RelocateInv vector dfa dfa.nodes.length
      ((range dfa.nodes.length).foldl (relocateTransitions vector) dfa) := by
  have key : ∀ k, RelocateInv vector dfa k ((range k).foldl (relocateTransitions vector) dfa) := by
    intro k
    induction k with
    | zero =>
      exact ⟨rfl, rfl, rfl, rfl, rfl, nofun, fun _ _ => rfl⟩
    | succ k ih =>
      rw [range_succ, foldl_concat]
      exact ih.step hapt
  exact key dfa.nodes.length

end Relocate

/-! ## The automaton after the relocation -/

/-- A transition led to the replacement of its target. -/
def relocateRange (replacement : Nat → Nat) (r : Range Nat) : Range Nat :=
  ⟨r.first, r.last, replacement r.data⟩

theorem find_map_relocateRange (replacement : Nat → Nat) (l : List (Range Nat)) (c : Nat) :
    find (l.map (relocateRange replacement)) c = (find l c).map replacement := by
  induction l with
  | nil => rfl
  | cons r rest ih =>
    rw [map_cons]
    by_cases hc : r.Covers c
    · rw [find_cons_pos hc, find_cons_pos (r := relocateRange replacement r) hc]
      rfl
    · rw [find_cons_neg hc, find_cons_neg (r := relocateRange replacement r) hc, ih]

theorem sorted_map_relocateRange {replacement : Nat → Nat} {l : List (Range Nat)}
    (h : Sorted l) : Sorted (l.map (relocateRange replacement)) := by
  refine ⟨?_, pairwise_map.mpr h.apart⟩
  intro r hr
  obtain ⟨s, hs, rfl⟩ := mem_map.mp hr
  exact h.nonempty s hs

/-- The nodes that replace themselves stay, with their actions, and their transitions led to
replacements. -/
structure Relocated (replacement : Nat → Nat) (dfa dfa' : DFA) : Prop where
  root : dfa'.root = replacement dfa.root
  liveNode_iff : ∀ i node, dfa'.LiveNode i node ↔ dfa.nodes[i]? = some node ∧ i = replacement i
  ranges_length : dfa'.transitionRanges.length = dfa.transitionRanges.length
  destinations_length : dfa'.transitionDestinations.length = dfa.transitionDestinations.length
  actions_length : dfa'.actions.length = dfa.actions.length
  transitionsOf : ∀ i, i < dfa.nodes.length → i = replacement i →
    dfa'.transitionsOf i = (dfa.transitionsOf i).map (relocateRange replacement)
  actionsOf : ∀ i, i < dfa.nodes.length → i = replacement i → dfa'.actionsOf i = dfa.actionsOf i

section Relocated

variable {replacement : Nat → Nat} {dfa : DFA}

/-- The input of the minimizer: an intact automaton without killed nodes. -/
structure Fresh (dfa : DFA) : Prop where
  intact : dfa.Intact
  live : ∀ node ∈ dfa.nodes, node.isKilled = false

variable {i : Nat}

theorem Fresh.liveNode (h : Fresh dfa) {node : DFANode} (hi : dfa.nodes[i]? = some node) :
    dfa.LiveNode i node :=
  ⟨hi, h.live node (mem_of_getElem? hi)⟩

theorem Fresh.live_iff (h : Fresh dfa) : dfa.Live i ↔ i < dfa.nodes.length := by
  constructor
  · rintro ⟨node, hg, _⟩
    exact lt_of_getElem? hg
  · intro hi
    exact ⟨dfa.nodes[i], h.liveNode (getElem?_eq_getElem hi)⟩

theorem transitionsOf_eq_nil (hi : dfa.nodes.length ≤ i) : dfa.transitionsOf i = [] := by
  unfold transitionsOf
  rw [getElem?_eq_none hi]

theorem Fresh.minimizable (h : Fresh dfa) : Minimizable dfa := by
  refine ⟨h.live, ?_, ?_, ?_⟩
  · intro node hnd
    obtain ⟨i, hi⟩ := mem_iff_getElem?.mp hnd
    exact h.intact.actions_le i node (h.liveNode hi)
  · intro i
    by_cases hi : i < dfa.nodes.length
    · exact h.intact.sorted i (h.live_iff.mpr hi)
    · rw [transitionsOf_eq_nil (not_lt.mp hi)]
      exact sorted_nil
  · intro i r hr
    by_cases hi : i < dfa.nodes.length
    · exact h.live_iff.mp (h.intact.target_live i (h.live_iff.mpr hi) r hr)
    · rw [transitionsOf_eq_nil (not_lt.mp hi)] at hr
      cases hr

theorem getElem?_transitions (node : DFANode) (dfa : DFA) (j : Nat) : (node.transitions dfa)[j]? =
      if j < node.transitionsLength then
        dfa.transitionRanges[node.transitionsStart + j]?.bind fun rng =>
          dfa.transitionDestinations[node.transitionsStart + j]?.map fun tgt =>
            ⟨rng.first, rng.last, tgt⟩
      else none := by
  unfold DFANode.transitions
  rw [getElem?_zipWith, getElem?_slice, getElem?_slice]
  by_cases hj : j < node.transitionsLength
  · rw [if_pos hj, if_pos hj, if_pos hj]
    cases dfa.transitionRanges[node.transitionsStart + j]? <;>
      cases dfa.transitionDestinations[node.transitionsStart + j]? <;> rfl
  · rw [if_neg hj, if_neg hj, if_neg hj]

variable (replacement) in
theorem liveNode_killReplaced_iff (h : Fresh dfa) (i : Nat) (node : DFANode) :
    (killReplaced replacement dfa).2.LiveNode i node ↔
      dfa.nodes[i]? = some node ∧ i = replacement i := by
  unfold DFA.LiveNode
  rw [(killReplaced_spec replacement dfa).nodes i]
  cases hg : dfa.nodes[i]? with
  | none => simp
  | some old =>
    have hi := lt_of_getElem? hg
    rw [map_some]
    by_cases hne : i = replacement i
    · rw [if_neg (fun hand => hand.2 hne)]
      constructor
      · rintro ⟨heq, _⟩
        exact ⟨heq, hne⟩
      · rintro ⟨heq, _⟩
        exact ⟨heq, (some.inj heq) ▸ h.live old (mem_of_getElem? hg)⟩
    · rw [if_pos ⟨hi, hne⟩]
      constructor
      · rintro ⟨heq, hlv⟩
        rw [← some.inj heq] at hlv
        cases hlv
      · rintro ⟨_, heq⟩
        exact absurd heq hne

variable (replacement) in
/-- **Relocation.** -/
theorem relocate_spec (h : Fresh dfa) : Relocated replacement dfa (relocate replacement dfa) := by
  have hkl := killReplaced_spec replacement dfa
  have hlv := liveNode_killReplaced_iff replacement h
  have hrt := h.live_iff.mp h.intact.root_live
  set killed := killReplaced replacement dfa
  have hrel := relocateTransitions_spec killed.1
    ({ killed.2 with root := killed.1.getD killed.2.root 0 }) (by
    intro i j ni nj hij hi hj
    exact h.intact.transitions_apart i j ni nj hij (h.liveNode ((hlv i ni).mp hi).1)
      (h.liveNode ((hlv j nj).mp hj).1))
  have hf : ∀ i node, (relocate replacement dfa).LiveNode i node ↔
      dfa.nodes[i]? = some node ∧ i = replacement i := by
    intro i node
    rw [← hlv i node]
    unfold DFA.LiveNode
    rw [show (relocate replacement dfa).nodes = killed.2.nodes from hrel.nodes]
  -- positions of a node that survives are not those of a node that is killed
  have htrs : ∀ (i position : Nat) (node : DFANode), dfa.nodes[i]? = some node →
      i = replacement i → DFA.InTransitions node position →
      (relocate replacement dfa).transitionRanges[position]? = dfa.transitionRanges[position]? ∧
      (relocate replacement dfa).transitionDestinations[position]? =
        dfa.transitionDestinations[position]?.map fun tgt => killed.1.getD tgt 0 := by
    intro i position node hg hi hin
    obtain ⟨hrgs, hds⟩ := hkl.transitions position (by
      intro j oth hj hne hoth hin'
      have hji : j ≠ i := fun heq => hne (heq ▸ hi)
      exact h.intact.transitions_apart j i oth node hji (h.liveNode hoth)
        (h.liveNode hg) position hin' hin)
    have hnd := (hlv i node).mpr ⟨hg, hi⟩
    refine ⟨?_, ?_⟩
    · rw [← hrgs]
      exact congrArg (fun l : List CharRange => l[position]?) hrel.ranges
    · rw [← hds]
      exact hrel.relocated i position node (lt_of_getElem? hnd.1) hnd hin
  have hacn : ∀ (i position : Nat) (node : DFANode), dfa.nodes[i]? = some node →
      i = replacement i → DFA.InActions node position →
      (relocate replacement dfa).actions[position]? = dfa.actions[position]? := by
    intro i position node hg hi hin
    rw [← hkl.actions position (by
      intro j oth hj hne hoth hin'
      have hji : j ≠ i := fun heq => hne (heq ▸ hi)
      exact h.intact.actions_apart j i oth node hji (h.liveNode hoth)
        (h.liveNode hg) position hin' hin)]
    exact congrArg (fun l : List Nat => l[position]?) hrel.actions
  refine ⟨?_, hf, ?_, ?_, ?_, ?_, ?_⟩
  · refine hrel.root.trans ?_
    show killed.1.getD killed.2.root 0 = _
    rw [hkl.root, hkl.vector _ hrt, if_pos hrt]
  · exact (congrArg length hrel.ranges).trans hkl.ranges_length
  · exact hrel.destinations_length.trans hkl.destinations_length
  · exact (congrArg length hrel.actions).trans hkl.actions_length
  · intro i hi hrep
    have hg := getElem?_eq_getElem hi
    have hg' := ((hf i _).mpr ⟨hg, hrep⟩).1
    have hm : (dfa.transitionsOf i).map (relocateRange replacement) =
        (dfa.transitionsOf i).map (fun r => ⟨r.first, r.last, killed.1.getD r.data 0⟩) := by
      refine map_congr_left ?_
      intro r hr
      have hlt := h.minimizable.target_lt i r hr
      unfold relocateRange
      rw [hkl.vector _ hlt, if_pos hlt]
    rw [hm, transitionsOf_eq hg, transitionsOf_eq hg']
    refine ext_getElem? (fun j => ?_)
    rw [getElem?_map, getElem?_transitions, getElem?_transitions]
    by_cases hj : j < (dfa.nodes[i]).transitionsLength
    · obtain ⟨hr, hd⟩ := htrs i ((dfa.nodes[i]).transitionsStart + j) _ hg hrep ⟨by omega, by omega⟩
      rw [if_pos hj, if_pos hj, hr, hd]
      cases dfa.transitionRanges[(dfa.nodes[i]).transitionsStart + j]? <;>
        cases dfa.transitionDestinations[(dfa.nodes[i]).transitionsStart + j]? <;> rfl
    · rw [if_neg hj, if_neg hj]
      rfl
  · intro i hi hrep
    have hg := getElem?_eq_getElem hi
    have hg' := ((hf i _).mpr ⟨hg, hrep⟩).1
    rw [actionsOf_eq hg, actionsOf_eq hg']
    unfold DFANode.actions
    refine ext_getElem? (fun j => ?_)
    rw [getElem?_slice, getElem?_slice]
    by_cases hj : j < (dfa.nodes[i]).actionsLength
    · rw [if_pos hj, if_pos hj]
      exact hacn i _ _ hg hrep ⟨by omega, by omega⟩
    · rw [if_neg hj, if_neg hj]

end Relocated

/-! ## The behaviour of the result -/

section Behaviour

variable {replacement : Nat → Nat} {dfa dfa' : DFA} (h : Fresh dfa)
  (hrep : Replacement dfa replacement) (hrel : Relocated replacement dfa dfa') {i : Nat}

include hrel in
theorem Relocated.live_iff : dfa'.Live i ↔ i < dfa.nodes.length ∧ i = replacement i := by
  constructor
  · rintro ⟨node, hnd⟩
    obtain ⟨hg, hi⟩ := (hrel.liveNode_iff i node).mp hnd
    exact ⟨lt_of_getElem? hg, hi⟩
  · rintro ⟨hlt, hi⟩
    exact ⟨dfa.nodes[i], (hrel.liveNode_iff i _).mpr ⟨getElem?_eq_getElem hlt, hi⟩⟩

include hrep hrel in
theorem Relocated.live_replacement (hi : i < dfa.nodes.length) : dfa'.Live (replacement i) :=
  hrel.live_iff.mpr ⟨hrep.lt i hi, (hrep.idem hi).symm⟩

include h in
theorem Fresh.runFrom_lt {j : Nat} {w : List Nat} (hi : i < dfa.nodes.length)
    (hrun : dfa.runFrom i w = some j) : j < dfa.nodes.length := by
  induction w generalizing i with
  | nil => exact (some.inj hrun) ▸ hi
  | cons c w ih =>
    cases hst : dfa.step i c with
    | none =>
      rw [runFrom_cons, hst] at hrun
      cases hrun
    | some tgt =>
      rw [runFrom_cons_some hst] at hrun
      obtain ⟨r, hr, _, rfl⟩ := mem_of_find hst
      exact ih (h.minimizable.target_lt i r hr) hrun

include h hrep in
theorem Replacement.runFrom_eq {p q : Nat} (hp : p < dfa.nodes.length)
    (hq : q < dfa.nodes.length) (hpq : SameBehaviour dfa p q) (w : List Nat) :
    (dfa.runFrom p w).map replacement = (dfa.runFrom q w).map replacement := by
  induction w generalizing p q with
  | nil => exact congrArg some (hrep.unique p q hp hq hpq)
  | cons c w ih =>
    have ht : ∀ {i tgt : Nat}, dfa.step i c = some tgt → tgt < dfa.nodes.length := by
      intro i tgt hst
      obtain ⟨r, hr, _, rfl⟩ := mem_of_find hst
      exact h.minimizable.target_lt i r hr
    cases hst : dfa.step p c with
    | some tgt =>
      obtain ⟨tgt', hst', hsm⟩ := hpq.step hst
      rw [runFrom_cons_some hst, runFrom_cons_some hst']
      exact ih (ht hst) (ht hst') hsm
    | none =>
      cases hst' : dfa.step q c with
      | none => rw [runFrom_cons, runFrom_cons, hst, hst']
      | some tgt =>
        obtain ⟨_, hp', _⟩ := hpq.symm.step hst'
        rw [hst] at hp'
        cases hp'

include h hrep hrel

theorem Relocated.runFrom_eq (hi : dfa'.Live i) (w : List Nat) :
    dfa'.runFrom i w = (dfa.runFrom i w).map replacement := by
  induction w generalizing i with
  | nil => exact congrArg some (hrel.live_iff.mp hi).2
  | cons c w ih =>
    obtain ⟨hlt, heq⟩ := hrel.live_iff.mp hi
    have hst : dfa'.step i c = (dfa.step i c).map replacement := by
      unfold step
      rw [hrel.transitionsOf i hlt heq, find_map_relocateRange]
    cases hold : dfa.step i c with
    | none =>
      rw [runFrom_cons, runFrom_cons, hst, hold]
      rfl
    | some tgt =>
      rw [hold] at hst
      obtain ⟨r, hr, _, rfl⟩ := mem_of_find hold
      have ht := h.minimizable.target_lt i r hr
      rw [runFrom_cons_some hold, runFrom_cons_some hst, ih (hrel.live_replacement hrep ht)]
      exact hrep.runFrom_eq h (hrep.lt _ ht) ht (hrep.same _ ht).symm w

omit h in
theorem Relocated.actions_replacement (hi : i < dfa.nodes.length) :
    dfa'.actionsOf (replacement i) = dfa.actionsOf i := by
  rw [hrel.actionsOf _ (hrep.lt i hi) (hrep.idem hi).symm]
  exact (hrep.same i hi).actions_eq.symm

theorem Relocated.runFrom_actions (hi : dfa'.Live i) (w : List Nat) :
    (dfa'.runFrom i w).map dfa'.actionsOf = (dfa.runFrom i w).map dfa.actionsOf := by
  rw [hrel.runFrom_eq h hrep hi w]
  cases hr : dfa.runFrom i w with
  | none => rfl
  | some j =>
    have hj := h.runFrom_lt (hrel.live_iff.mp hi).1 hr
    exact congrArg some (hrel.actions_replacement hrep hj)

theorem Relocated.intact : dfa'.Intact := by
  have hrt := h.live_iff.mp h.intact.root_live
  have hold : ∀ i node, dfa'.LiveNode i node → dfa.LiveNode i node :=
    fun i node hnd => h.liveNode ((hrel.liveNode_iff i node).mp hnd).1
  refine ⟨?_, ?_, ?_, ?_, ?_, ?_, ?_, ?_⟩
  · rw [hrel.root]
    exact hrel.live_replacement hrep hrt
  · rw [hrel.destinations_length, hrel.ranges_length]
    exact h.intact.destinations
  · intro i node hnd
    rw [hrel.actions_length]
    exact h.intact.actions_le i node (hold i node hnd)
  · intro i node hnd
    rw [hrel.ranges_length]
    exact h.intact.transitions_le i node (hold i node hnd)
  · intro i hi
    obtain ⟨hlt, heq⟩ := hrel.live_iff.mp hi
    rw [hrel.transitionsOf i hlt heq]
    exact sorted_map_relocateRange (h.minimizable.sorted i)
  · intro i hi r hr
    obtain ⟨hlt, heq⟩ := hrel.live_iff.mp hi
    rw [hrel.transitionsOf i hlt heq] at hr
    obtain ⟨s, hs, rfl⟩ := mem_map.mp hr
    exact hrel.live_replacement hrep (h.minimizable.target_lt i s hs)
  · intro i j ni nj hij hi hj
    exact h.intact.actions_apart i j ni nj hij (hold i ni hi) (hold j nj hj)
  · intro i j ni nj hij hi hj
    exact h.intact.transitions_apart i j ni nj hij (hold i ni hi) (hold j nj hj)

end Behaviour

/-- A minimized automaton is intact, runs as before, and its live nodes behave differently. -/
theorem minimize_spec (order : SlotOrder) {dfa : DFA} (h : Fresh dfa) :
    ∃ dfa', minimize order dfa = some dfa' ∧ dfa'.Intact ∧
      (∀ w, (dfa'.run w).map dfa'.actionsOf = (dfa.run w).map dfa.actionsOf) ∧
      ∀ i j, dfa'.Live i → dfa'.Live j → SameBehaviour dfa' i j → i = j := by
  have hrt := h.live_iff.mp h.intact.root_live
  obtain ⟨replacement, hrep, heq⟩ :=
    minimize_eq order h.minimizable (lt_of_le_of_lt (Nat.zero_le _) hrt)
  have hrel := relocate_spec replacement h
  refine ⟨_, heq, hrel.intact h hrep, ?_, ?_⟩
  · intro w
    unfold run
    have hlv := hrel.live_replacement hrep hrt
    rw [hrel.root, hrel.runFrom_actions h hrep hlv]
    exact ((hrep.same _ hrt) w).symm
  · intro i j hi hj hsm
    obtain ⟨hilt, hir⟩ := hrel.live_iff.mp hi
    obtain ⟨hjlt, hjr⟩ := hrel.live_iff.mp hj
    have hold : SameBehaviour dfa i j := by
      intro w
      rw [← hrel.runFrom_actions h hrep hi, ← hrel.runFrom_actions h hrep hj]
      exact hsm w
    rw [hir, hjr]
    exact hrep.unique i j hilt hjlt hold

/-- Hash maps iterated in insertion order. -/
def SlotOrder.insertionOrder : SlotOrder := ⟨fun map => map, fun map => List.Perm.refl map⟩

/-- A root from which two characters lead to nodes of the same behaviour. -/
def twins : DFA where
  nodes := [⟨0, 0, 0, 2, false⟩, ⟨0, 2, 1, 0, false⟩, ⟨1, 2, 1, 0, false⟩]
  actions := [7, 7]
  transitionRanges := [⟨97, 97⟩, ⟨98, 105⟩]
  transitionDestinations := [1, 2]

theorem twins_fresh : Fresh twins := by
  have hnd : ∀ (i : Nat) (node : DFANode), twins.nodes[i]? = some node →
      (i = 0 ∧ node = ⟨0, 0, 0, 2, false⟩) ∨ (i = 1 ∧ node = ⟨0, 2, 1, 0, false⟩) ∨
        (i = 2 ∧ node = ⟨1, 2, 1, 0, false⟩) := by
    intro i node hi
    match i with
    | 0 => exact .inl ⟨rfl, (some.inj hi).symm⟩
    | 1 => exact .inr (.inl ⟨rfl, (some.inj hi).symm⟩)
    | 2 => exact .inr (.inr ⟨rfl, (some.inj hi).symm⟩)
    | i + 3 => cases hi
  have hlv : ∀ i < 3, twins.Live i := by
    intro i hi
    match i with
    | 0 => exact ⟨_, rfl, rfl⟩
    | 1 => exact ⟨_, rfl, rfl⟩
    | 2 => exact ⟨_, rfl, rfl⟩
  have htrs : ∀ i, twins.Live i →
      twins.transitionsOf i = [] ∨ twins.transitionsOf i = [⟨97, 97, 1⟩, ⟨98, 105, 2⟩] := by
    rintro i ⟨node, hi, _⟩
    rcases hnd i node hi with ⟨rfl, _⟩ | ⟨rfl, _⟩ | ⟨rfl, _⟩
    · exact .inr rfl
    · exact .inl rfl
    · exact .inl rfl
  refine ⟨⟨hlv 0 (by decide), rfl, ?_, ?_, ?_, ?_, ?_, ?_⟩, by decide⟩
  iterate 2
    rintro i node ⟨hi, _⟩
    rcases hnd i node hi with ⟨_, rfl⟩ | ⟨_, rfl⟩ | ⟨_, rfl⟩ <;> decide
  · intro i hi
    rcases htrs i hi with h | h <;> rw [h]
    · exact sorted_nil
    · exact ⟨by decide, by decide⟩
  · intro i hi r hr
    rcases htrs i hi with h | h <;> rw [h] at hr
    · cases hr
    · have : ∀ r ∈ ([⟨97, 97, 1⟩, ⟨98, 105, 2⟩] : List (Range Nat)), r.data < 3 := by decide
      exact hlv _ (this r hr)
  all_goals
    rintro i j ni nj hij ⟨hi, _⟩ ⟨hj, _⟩ k ⟨h1, h2⟩ ⟨h3, h4⟩
    rcases hnd i ni hi with ⟨rfl, rfl⟩ | ⟨rfl, rfl⟩ | ⟨rfl, rfl⟩ <;>
      rcases hnd j nj hj with ⟨rfl, rfl⟩ | ⟨rfl, rfl⟩ | ⟨rfl, rfl⟩ <;>
      dsimp only at h1 h2 h3 h4 <;> omega

/-- One of the two nodes is killed, and its transition led to the other one. -/
example : (minimize SlotOrder.insertionOrder twins).map
    (fun dfa => (dfa.graphSize, dfa.transitionDestinations)) = some (2, [1, 1]) := by
  decide +kernel

end WebKit.ContentExtensions
