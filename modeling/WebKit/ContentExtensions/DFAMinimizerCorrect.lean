import WebKit.ContentExtensions.DFAMinimizerGraph

/-!
# The minimizer partitions the nodes by their behaviour

The two partitions are refined as the abstract algorithm does (`RefineInv`), for the relation that
no string tells two nodes apart (`SameBehaviour`). 
-/

namespace WebKit.ContentExtensions

open RangeOverlay Vectors CountingSort PartitionRefinement List
open WebKit.ContentExtensions.Partition FullGraphPartition

/-! ## Behaviour -/

/-- Each string leads to the same actions from both nodes, or gets stuck. -/
def SameBehaviour (dfa : DFA) (p q : Nat) : Prop :=
  ∀ w, (dfa.runFrom p w).map dfa.actionsOf = (dfa.runFrom q w).map dfa.actionsOf

variable {dfa : DFA} {p q index : Nat} {actions : List Nat} {map : List (List Nat × List Nat)}

theorem SameBehaviour.symm (h : SameBehaviour dfa p q) :
    SameBehaviour dfa q p := fun w => (h w).symm

theorem SameBehaviour.actions_eq (h : SameBehaviour dfa p q) :
    dfa.actionsOf p = dfa.actionsOf q := Option.some.inj (h [])

variable {c tgt : Nat}

theorem runFrom_cons_some (hst : dfa.step p c = some tgt) (w : List Nat) :
    dfa.runFrom p (c :: w) = dfa.runFrom tgt w := by
  rw [DFA.runFrom_cons, hst]
  rfl

theorem SameBehaviour.step (h : SameBehaviour dfa p q) (hst : dfa.step p c = some tgt) :
    ∃ tgt', dfa.step q c = some tgt' ∧ SameBehaviour dfa tgt tgt' := by
  cases hq : dfa.step q c with
  | none =>
    have hc := h [c]
    rw [runFrom_cons_some hst, DFA.runFrom_cons, hq] at hc
    cases hc
  | some tgt' =>
    refine ⟨tgt', rfl, ?_⟩
    intro w
    have hw := h (c :: w)
    rwa [runFrom_cons_some hst, runFrom_cons_some hq] at hw

/-! ## The abstract graph -/

section Abstract

variable {dfa : DFA} (h : Minimizable dfa)

include h in
theorem Minimizable.source_lt (e : Fin (edges dfa).length) :
    (edges dfa)[e].source < dfa.nodes.length :=
  ((h.mem_edges _).mp (getElem_mem e.isLt)).1

/-- The graph of the singular transitions. -/
def Minimizable.graph : Graph (Fin dfa.nodes.length) (Fin (edges dfa).length) Nat where
  label e := (edges dfa)[e].singular
  source e := ⟨(edges dfa)[e].source, h.source_lt e⟩
  head e := ⟨(edges dfa)[e].target, h.target_lt_of_mem (getElem_mem e.isLt)⟩
  deterministic := by
    intro e f hsource hlabel
    have hsource : (edges dfa)[e].source = (edges dfa)[f].source := Fin.mk.inj_iff.mp hsource
    have hpair := pairwise_iff_getElem.mp h.edges_pairwise
    rcases Nat.lt_trichotomy e f with hlt | heq | hgt
    · rcases hpair e f e.isLt f.isLt hlt with hne | ⟨_, hne⟩
      · exact absurd hsource (ne_of_lt hne)
      · exact absurd hlabel (ne_of_lt hne)
    · exact Fin.ext heq
    · rcases hpair f e f.isLt e.isLt hgt with hne | ⟨_, hne⟩
      · exact absurd hsource.symm (ne_of_lt hne)
      · exact absurd hlabel.symm (ne_of_lt hne)

/-- The relation on the nodes of the graph. -/
def Minimizable.related (_ : Minimizable dfa) (p q : Fin dfa.nodes.length) : Prop :=
  SameBehaviour dfa p q

theorem Minimizable.step_of_edge (e : Fin (edges dfa).length) :
    ∃ (c : Nat) (s : Range Nat), (singularTransitions dfa).toList[h.graph.label e]? = some s ∧
      s.Covers c ∧ dfa.step (h.graph.source e) c = some (h.graph.head e : Nat) := by
  have hm : (edges dfa)[e] ∈ edges dfa := getElem_mem e.isLt
  obtain ⟨hi, _, _, _, f, hf, _⟩ := (h.mem_edges _).mp hm
  unfold singularFirsts at hf
  rw [getElem?_map, Option.map_eq_some_iff] at hf
  obtain ⟨s, hs, rfl⟩ := hf
  have hc : s.Covers s.first := ⟨le_rfl, h.countedRanges.sorted.nonempty s (mem_of_getElem? hs)⟩
  exact ⟨s.first, s, hs, hc, (h.step_eq_some_iff hi).mpr ⟨_, s, hs, hc, hm⟩⟩

theorem Minimizable.edge_of_step {p : Fin dfa.nodes.length} (hst : dfa.step p c = some tgt) :
    ∃ (e : Fin (edges dfa).length) (s : Range Nat), h.graph.source e = p ∧
      (h.graph.head e : Nat) = tgt ∧
      (singularTransitions dfa).toList[h.graph.label e]? = some s ∧ s.Covers c := by
  obtain ⟨j, s, hs, hc, hed⟩ := (h.step_eq_some_iff p.isLt).mp hst
  obtain ⟨e, hget⟩ : ∃ e : Fin (edges dfa).length, (edges dfa)[e] = ⟨j, p, tgt⟩ := by
    obtain ⟨e, he, hget⟩ := mem_iff_getElem.mp hed
    exact ⟨⟨e, he⟩, hget⟩
  refine ⟨e, s, ?_, ?_, ?_, hc⟩
  · refine Fin.ext ?_
    show (edges dfa)[e].source = p
    rw [hget]
  · show (edges dfa)[e].target = tgt
    rw [hget]
  · show (singularTransitions dfa).toList[(edges dfa)[e].singular]? = some s
    rw [hget]
    exact hs

include h in
theorem Minimizable.singular_unique {i j c : Nat} {s t : Range Nat}
    (hi : (singularTransitions dfa).toList[i]? = some s)
    (hj : (singularTransitions dfa).toList[j]? = some t) (hs : s.Covers c) (ht : t.Covers c) :
    i = j := by
  have hsrt := h.countedRanges.sorted.apart
  obtain ⟨hi', rfl⟩ := List.getElem?_eq_some_iff.mp hi
  obtain ⟨hj', rfl⟩ := List.getElem?_eq_some_iff.mp hj
  have hapt := pairwise_iff_getElem.mp hsrt
  obtain ⟨hs1, hs2⟩ := hs
  obtain ⟨ht1, ht2⟩ := ht
  rcases lt_trichotomy i j with hlt | heq | hgt
  · have := hapt i j hi' hj' hlt
    omega
  · exact heq
  · have := hapt j i hj' hi' hgt
    omega

theorem Minimizable.bisimulation : Bisimulation h.graph h.related where
  symm := fun p q hpq => SameBehaviour.symm hpq
  forth := by
    intro e q hr
    obtain ⟨c, s, hs, hc, hst⟩ := h.step_of_edge e
    obtain ⟨tgt', hst', hr'⟩ := SameBehaviour.step hr hst
    obtain ⟨f, t, hsrc, hhd, ht, hct⟩ := h.edge_of_step hst'
    refine ⟨f, hsrc, h.singular_unique ht hs hct hc, ?_⟩
    show SameBehaviour dfa (h.graph.head e) (h.graph.head f)
    rw [hhd]
    exact hr'

theorem Minimizable.sameBehaviour_of_stable {blk : Fin dfa.nodes.length → Nat}
    (hacn : ∀ p q, blk p = blk q → dfa.actionsOf p = dfa.actionsOf q)
    (hse : ∀ e q, blk (h.graph.source e) = blk q → ∃ f, h.graph.source f = q ∧
      h.graph.label f = h.graph.label e ∧ blk (h.graph.head f) = blk (h.graph.head e)) :
    ∀ p q, blk p = blk q → SameBehaviour dfa p q := by
  -- one direction of a step: what one node does the other does
  have hfth : ∀ p q c tgt, blk p = blk q → dfa.step p c = some tgt →
      ∃ (tgt' : Fin dfa.nodes.length) (targetFin : Fin dfa.nodes.length),
        (targetFin : Nat) = tgt ∧ dfa.step q c = some (tgt' : Nat) ∧
        blk targetFin = blk tgt' := by
    intro p q c tgt hpq hst
    obtain ⟨e, s, hsrc, hhd, hs, hc⟩ := h.edge_of_step hst
    obtain ⟨f, hsrc', hl, hblo⟩ := hse e q (by rw [hsrc, hpq])
    refine ⟨h.graph.head f, h.graph.head e, hhd, ?_, hblo.symm⟩
    refine (h.step_eq_some_iff q.isLt).mpr ⟨h.graph.label f, s, by rw [hl]; exact hs, hc, ?_⟩
    have hm : (edges dfa)[f] ∈ edges dfa := getElem_mem f.isLt
    have hq : (edges dfa)[f].source = q := congrArg Fin.val hsrc'
    have heq : (edges dfa)[f] = ⟨h.graph.label f, q, h.graph.head f⟩ := by
      rw [← hq]
      rfl
    rwa [heq] at hm
  intro p q hpq w
  induction w generalizing p q with
  | nil => exact congrArg some (hacn p q hpq)
  | cons c w ih =>
    cases hp : dfa.step p c with
    | some tgt =>
      obtain ⟨tgt', targetFin, rfl, hq, hblo⟩ := hfth p q c tgt hpq hp
      rw [runFrom_cons_some hp, runFrom_cons_some hq]
      exact ih targetFin tgt' hblo
    | none =>
      cases hq : dfa.step q c with
      | none => rw [DFA.runFrom_cons, DFA.runFrom_cons, hp, hq]
      | some tgt =>
        obtain ⟨_, _, _, hp', _⟩ := hfth q p c tgt hpq.symm hq
        rw [hp] at hp'
        cases hp'

end Abstract

/-! ## Splitting the transitions -/

/-- The set of each transition. -/
def cordOf (dfa : DFA) (transitions : Partition) (e : Fin (edges dfa).length) : Nat :=
  transitions.setIndex (slot (targetKeys dfa) e)

/-- Two nodes are in one set. -/
abbrev FullGraphPartition.SameSet {n : Nat} (g : FullGraphPartition) (p q : Fin n) : Prop :=
  g.nodePartition.part n p = g.nodePartition.part n q

/-- A partition without marks. -/
structure Clean (p : Partition) (n : Nat) : Prop where
  inv : Partition.Inv p n []
  unmarked : p.setsMarkedInCurrentGeneration = []

theorem Clean.markAll {p : Partition} {n : Nat} (hp : Clean p n) {xs : List Nat}
    (hnd : xs.Nodup) (hlt : ∀ x ∈ xs, x < n) :
    let q := xs.foldl markElementInCurrentGeneration p
    Partition.Inv q n q.setsMarkedInCurrentGeneration ∧ (∀ x, q.setIndex x = p.setIndex x) ∧
      q.sets.length = p.sets.length ∧ ∀ x < n, (q.Marked x ↔ x ∈ xs) := by
  have hi : Partition.Inv p n p.setsMarkedInCurrentGeneration := by
    rw [hp.unmarked]
    exact hp.inv
  obtain ⟨h1, h2, h3, h4⟩ := hi.markAll xs hnd hlt
    (fun x hx => hp.inv.not_marked (hlt x hx) not_mem_nil)
  refine ⟨h1, h2, h3, ?_⟩
  intro x hx
  rw [h4 x hx]
  exact or_iff_right (hp.inv.not_marked hx not_mem_nil)

section Refinement

variable {dfa : DFA} (h : Minimizable dfa)

include h

omit h in
theorem slotT_lt (e : Fin (edges dfa).length) : slot (targetKeys dfa) e < (edges dfa).length :=
  slot_map_lt e.isLt

variable {g : FullGraphPartition}

theorem mem_incoming (hg : GraphOf dfa g) {nds : Partition} {rest : List Nat}
    (hn : Partition.Inv nds dfa.nodes.length rest) {s : Nat} (hs : s < nds.sets.length)
    (e : Fin (edges dfa).length) :
    slot (targetKeys dfa) e ∈ (nds.iterateSet s).flatMap g.incomingTransitions ↔
      nds.part dfa.nodes.length (h.graph.head e) = s := by
  rw [mem_flatMap]
  constructor
  · rintro ⟨k, hk, hin⟩
    obtain ⟨hlt, hset⟩ := (hn.mem_iterateSet hs k).mp hk
    obtain ⟨f, t, hf, rfl, hsl⟩ := (hg.incoming k hlt _).mp hin
    have hfe : f = e := slot_map_inj (lt_of_getElem? hf) e.isLt hsl
    subst hfe
    have hget : (edges dfa)[e] = t := Option.some.inj ((getElem?_eq_getElem e.isLt).symm.trans hf)
    show nds.setIndex (edges dfa)[e].target = s
    rw [hget]
    exact hset
  · intro hset
    have hhd : (h.graph.head e : Nat) < dfa.nodes.length := (h.graph.head e).isLt
    refine ⟨h.graph.head e, (hn.mem_iterateSet hs _).mpr ⟨hhd, hset⟩, ?_⟩
    exact (hg.incoming _ hhd _).mpr ⟨e, (edges dfa)[e], getElem?_eq_getElem e.isLt, rfl, rfl⟩

/-- **New sets of nodes.** The transitions are split by whether they lead into the
new set. -/
theorem splitTransitions_spec (hg : GraphOf dfa g) {nds : Partition} {rest : List Nat}
    (hn : Partition.Inv nds dfa.nodes.length rest) {s : Nat} (hs : s < nds.sets.length)
    {trs : Partition} (ht : Clean trs (edges dfa).length) :
    Clean (g.splitTransitions nds s trs) (edges dfa).length ∧
      SplitBy (fun e => nds.part dfa.nodes.length (h.graph.head e) = s)
        (cordOf dfa trs) (cordOf dfa (g.splitTransitions nds s trs))
        trs.sets.length (g.splitTransitions nds s trs).sets.length := by
  have hnd : ((nds.iterateSet s).flatMap g.incomingTransitions).Nodup := by
    rw [nodup_flatMap]
    refine ⟨fun k _ => nodup_range', ?_⟩
    refine (hn.nodup_iterateSet s).imp_of_mem ?_
    intro k l hk hl hkl i hi hi'
    obtain ⟨e, t, he, rfl, hsl⟩ := (hg.incoming k ((hn.mem_iterateSet hs k).mp hk).1 i).mp hi
    obtain ⟨e', t', he', rfl, hsl'⟩ := (hg.incoming l ((hn.mem_iterateSet hs l).mp hl).1 i).mp hi'
    have hee : e = e' := slot_map_inj (lt_of_getElem? he) (lt_of_getElem? he') (hsl.trans hsl'.symm)
    subst hee
    rw [he] at he'
    exact hkl (congrArg SingularTransition.target (Option.some.inj he'))
  have hlt : ∀ i ∈ (nds.iterateSet s).flatMap g.incomingTransitions, i < (edges dfa).length := by
    intro i hi
    obtain ⟨k, hk, hin⟩ := mem_flatMap.mp hi
    obtain ⟨e, t, he, _, rfl⟩ := (hg.incoming k ((hn.mem_iterateSet hs k).mp hk).1 i).mp hin
    exact slotT_lt ⟨e, lt_of_getElem? he⟩
  obtain ⟨hinv, hset, hlen, hmkd⟩ := ht.markAll hnd hlt
  have heq : g.splitTransitions nds s trs =
      (refineGeneration (fun _ _ st => st)
        (((nds.iterateSet s).flatMap g.incomingTransitions).foldl
          markElementInCurrentGeneration trs) ()).1 := by
    unfold splitTransitions
    rw [foldl_flatMap]
  set marked := ((nds.iterateSet s).flatMap g.incomingTransitions).foldl
    markElementInCurrentGeneration trs
  have hspl := refineGeneration_splitBy hinv
  obtain ⟨hcl, _⟩ := refineGeneration_spec (fun _ _ st => st)
    (fun _ _ (_ : Unit) => True) hinv (fun _ _ _ _ _ _ _ _ _ _ _ => trivial) () trivial
  rw [heq]
  refine ⟨⟨hcl, rfl⟩, ?_, ?_, ?_, ?_⟩
  · exact fun e => hspl.lt ⟨_, slotT_lt e⟩
  · rw [← hlen]
    exact hspl.count_le
  · intro e
    rw [← hlen]
    rcases hspl.keep ⟨_, slotT_lt e⟩ with hkp | hnew
    · exact .inl (hkp.trans (hset _))
    · exact .inr hnew
  · intro e f
    have hiff := hspl.same_iff ⟨_, slotT_lt e⟩ ⟨_, slotT_lt f⟩
    have hmr : ∀ a : Fin (edges dfa).length, marked.Marked (slot (targetKeys dfa) a) ↔
        nds.part dfa.nodes.length (h.graph.head a) = s := by
      intro a
      rw [hmkd _ (slotT_lt a)]
      exact mem_incoming h hg hn hs a
    have hold : ∀ a : Fin (edges dfa).length, marked.part (edges dfa).length
        ⟨slot (targetKeys dfa) a, slotT_lt a⟩ = cordOf dfa trs a := fun a => hset _
    rw [hold e, hold f] at hiff
    simp only [hmr] at hiff
    exact hiff

omit h in
/-- The two partitions between two generations, as the abstract algorithm has them. -/
structure RefineInv (h : Minimizable dfa) (g : FullGraphPartition) : Prop where
  graphOf : GraphOf dfa g
  nodes : Clean g.nodePartition dfa.nodes.length
  transitions : Clean g.transitionPartition (edges dfa).length
  inv : Inv h.graph h.related (g.nodePartition.part dfa.nodes.length)
    (cordOf dfa g.transitionPartition) g.transitionPartition.sets.length
    g.nextTransitionSetToProcess

omit h in
/-- The graph with some nodes marked. -/
def markNodes (g : FullGraphPartition) (xs : List Nat) : FullGraphPartition :=
  { g with nodePartition := xs.foldl Partition.markElementInCurrentGeneration g.nodePartition }

/-- **A generation.** Nodes that the relation does not cut off are marked and split from the others.
-/
theorem RefineInv.refine (hg : RefineInv h g) {xs : List Nat} (hnd : xs.Nodup)
    (hlt : ∀ x ∈ xs, x < dfa.nodes.length)
    (hr : ∀ p q : Fin dfa.nodes.length, h.related p q → (p : Nat) ∈ xs → (q : Nat) ∈ xs) :
    RefineInv h (markNodes g xs).refinePartitions ∧
      (∀ p q : Fin dfa.nodes.length,
        (markNodes g xs).refinePartitions.SameSet p q →
          g.SameSet p q ∧ ((p : Nat) ∈ xs ↔ (q : Nat) ∈ xs)) ∧
      Evolves (cordOf dfa g.transitionPartition)
        (cordOf dfa (markNodes g xs).refinePartitions.transitionPartition)
        g.transitionPartition.sets.length
        (markNodes g xs).refinePartitions.transitionPartition.sets.length := by
  obtain ⟨hmks, hs, hl, hmkd⟩ := hg.nodes.markAll hnd hlt
  set marked := xs.foldl markElementInCurrentGeneration g.nodePartition
  have hpr : marked.part dfa.nodes.length = g.nodePartition.part dfa.nodes.length :=
    funext fun p => hs p
  have hm : ∀ p : Fin dfa.nodes.length, marked.Marked p ↔ (p : Nat) ∈ xs := fun p => hmkd p p.isLt
  -- what every split keeps
  obtain ⟨hi, ⟨hcl, habs, hev, hrfn⟩, hdn⟩ :=
    refineGeneration_spec (markNodes g xs).splitTransitions
      (fun part cnt (trs : Partition) =>
        Clean trs (edges dfa).length ∧
        Inv h.graph h.related part (cordOf dfa trs) trs.sets.length g.nextTransitionSetToProcess ∧
        Evolves (cordOf dfa g.transitionPartition) (cordOf dfa trs)
          g.transitionPartition.sets.length trs.sets.length ∧
        ∀ p q, part p = part q → g.SameSet p q)
      hmks (by
        intro q q' s side pend rest trs hq hq' hspl ⟨hcl, habs, hev, hrfn⟩
        have hoff := hspl.splitOff hq
        have hnew : q.sets.length < q'.sets.length := by
          rw [hspl.sets_length]
          exact Nat.lt_succ_self _
        obtain ⟨hcl', hcr⟩ := splitTransitions_spec h (g := markNodes g xs)
          ⟨hg.graphOf.flattened_length, hg.graphOf.source, hg.graphOf.incoming⟩ hq' hnew hcl
        refine ⟨hcl', ?_, hev.trans hcr.evolves, ?_⟩
        · refine habs.split hoff ?_ hcr
          intro a b hab
          have hmks : marked.Marked a ↔ marked.Marked b := by
            rw [hm a, hm b]
            exact ⟨hr a b hab, hr b a (SameBehaviour.symm hab)⟩
          rw [habs.coarse_block a b hab, hmks]
        · intro a b hab
          exact hrfn a b ((hoff.same_iff a b).mp hab).1)
      g.transitionPartition (by
        rw [hpr]
        exact ⟨hg.transitions, hg.inv, Evolves.refl _ _, fun _ _ hpq => hpq⟩)
  refine ⟨⟨⟨hg.graphOf.flattened_length, hg.graphOf.source, hg.graphOf.incoming⟩, ⟨hi, rfl⟩,
    hcl, habs⟩, ?_, hev⟩
  intro p q hpq
  refine ⟨hrfn p q hpq, ?_⟩
  rw [← hm p, ← hm q]
  exact hdn p q hpq

omit h in
theorem foldl_markNode (xs : List Nat) (g : FullGraphPartition) :
    xs.foldl markNode g = markNodes g xs := by
  induction xs generalizing g with
  | nil => rfl
  | cons x rest ih =>
    rw [foldl_cons, ih]
    rfl

end Refinement

/-! ## Final states -/

/-- What a map of final states holds for the nodes with actions among those it has seen. -/
structure FinalStates (actionsOf : Nat → List Nat) (seen : Nat → Prop)
    (map : List (List Nat × List Nat)) : Prop where
  distinct : (map.map (·.1)).Nodup
  key_ne : ∀ slot ∈ map, slot.1 ≠ []
  nodup : ∀ slot ∈ map, slot.2.Nodup
  mem_iff : ∀ slot ∈ map, ∀ i, i ∈ slot.2 ↔ seen i ∧ actionsOf i = slot.1
  complete : ∀ i, seen i → actionsOf i ≠ [] → ∃ slot ∈ map, i ∈ slot.2

theorem fst_mem_addFinalState {key : List Nat} :
    key ∈ (addFinalState actions index map).map (·.1) ↔ key = actions ∨ key ∈ map.map (·.1) := by
  induction map with
  | nil => simp [addFinalState]
  | cons slot rest ih =>
    rw [addFinalState]
    split
    case isTrue heq =>
      subst heq
      simp
    case isFalse =>
      rw [map_cons, mem_cons, ih, map_cons, mem_cons]
      tauto

theorem nodup_addFinalState (h : (map.map (·.1)).Nodup) :
    ((addFinalState actions index map).map (·.1)).Nodup := by
  induction map with
  | nil => exact nodup_singleton _
  | cons slot rest ih =>
    obtain ⟨hn, hrest⟩ := nodup_cons.mp h
    rw [addFinalState]
    split
    case isTrue => exact h
    case isFalse hne =>
      refine nodup_cons.mpr ⟨?_, ih hrest⟩
      intro hm
      rcases fst_mem_addFinalState.mp hm with heq | hm
      · exact hne heq
      · exact hn hm

/-- A slot after an addition: that of another key, or that of the key with the new index. -/
theorem mem_addFinalState (h : (map.map (·.1)).Nodup) {slot : List Nat × List Nat}
    (hsl : slot ∈ addFinalState actions index map) :
    (slot.1 ≠ actions ∧ slot ∈ map) ∨
      (slot.1 = actions ∧ ∃ old, slot.2 = old ++ [index] ∧
        ((actions, old) ∈ map ∨ actions ∉ map.map (·.1) ∧ old = [])) := by
  induction map with
  | nil =>
    rw [addFinalState, mem_singleton] at hsl
    subst hsl
    exact .inr ⟨rfl, [], rfl, .inr ⟨not_mem_nil, rfl⟩⟩
  | cons fst rest ih =>
    obtain ⟨key, val⟩ := fst
    obtain ⟨hn, hrest⟩ := nodup_cons.mp h
    rw [addFinalState] at hsl
    split at hsl
    case isTrue heq =>
      subst heq
      rcases mem_cons.mp hsl with rfl | hm
      · exact .inr ⟨rfl, val, rfl, .inl mem_cons_self⟩
      · refine .inl ⟨?_, mem_cons_of_mem _ hm⟩
        intro heq
        exact hn (mem_map.mpr ⟨slot, hm, heq⟩)
    case isFalse hne =>
      rcases mem_cons.mp hsl with rfl | hm
      · exact .inl ⟨hne, mem_cons_self⟩
      rcases ih hrest hm with ⟨hk, hm⟩ | ⟨hk, old, hv, hold | ⟨hno, hnil⟩⟩
      · exact .inl ⟨hk, mem_cons_of_mem _ hm⟩
      · exact .inr ⟨hk, old, hv, .inl (mem_cons_of_mem _ hold)⟩
      · refine .inr ⟨hk, old, hv, .inr ⟨?_, hnil⟩⟩
        rw [map_cons, mem_cons]
        rintro (heq | hm)
        · exact hne heq.symm
        · exact hno hm

theorem lt_succ_and_iff {P : Nat → Prop} {k : Nat} (h : ¬P k) (i : Nat) :
    i < k ∧ P i ↔ i < k + 1 ∧ P i := by
  refine and_congr_left fun hi => ?_
  have hne : i ≠ k := by
    rintro rfl
    exact h hi
  omega

theorem FinalStates.add {actionsOf : Nat → List Nat} {k : Nat}
    (h : FinalStates actionsOf (· < k) map) (hne : actionsOf k ≠ []) :
    FinalStates actionsOf (· < k + 1) (addFinalState (actionsOf k) k map) := by
  have hm : ∀ slot ∈ addFinalState (actionsOf k) k map,
      slot.2.Nodup ∧ ∀ i, i ∈ slot.2 ↔ i < k + 1 ∧ actionsOf i = slot.1 := by
    intro slot hsl
    rcases mem_addFinalState h.distinct hsl with ⟨hk, hm⟩ | ⟨hk, old, hv, hor⟩
    · refine ⟨h.nodup slot hm, fun i => (h.mem_iff slot hm i).trans ?_⟩
      exact lt_succ_and_iff (P := (actionsOf · = slot.1)) (Ne.symm hk) i
    have hold : old.Nodup ∧ ∀ i, i ∈ old ↔ i < k ∧ actionsOf i = actionsOf k := by
      rcases hor with hold | ⟨hno, rfl⟩
      · exact ⟨h.nodup _ hold, h.mem_iff _ hold⟩
      · refine ⟨nodup_nil, fun i => iff_of_false not_mem_nil ?_⟩
        rintro ⟨hi, ha⟩
        -- an earlier node with these actions would have made a slot
        obtain ⟨slot', hsl', hin⟩ := h.complete i hi (by rw [ha]; exact hne)
        refine absurd (mem_map.mpr ⟨slot', hsl', ?_⟩) hno
        rw [← ((h.mem_iff slot' hsl' i).mp hin).2, ha]
    rw [hv, hk]
    constructor
    · rw [nodup_append]
      refine ⟨hold.1, nodup_singleton _, ?_⟩
      intro a ha b hb
      rw [mem_singleton.mp hb]
      exact ne_of_lt ((hold.2 a).mp ha).1
    · intro i
      rw [mem_append, mem_singleton, hold.2 i]
      constructor
      · rintro (⟨hi, ha⟩ | rfl)
        · exact ⟨Nat.lt_succ_of_lt hi, ha⟩
        · exact ⟨Nat.lt_succ_self _, rfl⟩
      · rintro ⟨hi, ha⟩
        rcases Nat.lt_succ_iff_lt_or_eq.mp hi with hi | rfl
        · exact .inl ⟨hi, ha⟩
        · exact .inr rfl
  refine ⟨nodup_addFinalState h.distinct, ?_, fun slot hsl => (hm slot hsl).1,
    fun slot hsl => (hm slot hsl).2, ?_⟩
  · intro slot hsl
    rcases mem_addFinalState h.distinct hsl with ⟨_, hold⟩ | ⟨hk, _⟩
    · exact h.key_ne slot hold
    · rw [hk]
      exact hne
  intro i hi hai
  -- the slot of the actions of `i` is there
  have hk : actionsOf i ∈ (addFinalState (actionsOf k) k map).map (·.1) := by
    refine fst_mem_addFinalState.mpr ?_
    rcases Nat.lt_succ_iff_lt_or_eq.mp hi with hi | rfl
    · obtain ⟨slot, hsl, hin⟩ := h.complete i hi hai
      right
      exact mem_map.mpr ⟨slot, hsl, ((h.mem_iff slot hsl i).mp hin).2.symm⟩
    · exact .inl rfl
  obtain ⟨slot, hsl, hfst⟩ := mem_map.mp hk
  exact ⟨slot, hsl, ((hm slot hsl).2 i).mpr ⟨hi, hfst.symm⟩⟩

section Final

variable {dfa : DFA} (h : Minimizable dfa)

include h

theorem Minimizable.hasActions_iff {i : Nat} {node : DFANode} (hi : dfa.nodes[i]? = some node) :
    node.hasActions = true ↔ dfa.actionsOf i ≠ [] := by
  have hle := h.actions_le node (mem_of_getElem? hi)
  rw [DFA.actionsOf_eq hi]
  unfold DFANode.hasActions DFANode.actions
  rw [bne_iff_ne, ← length_pos_iff, length_slice hle]
  exact Nat.pos_iff_ne_zero.symm

/-- **The map of final states.** The nodes with actions, by their actions. -/
theorem Minimizable.finalStates_spec :
    FinalStates dfa.actionsOf (· < dfa.nodes.length) (finalStates dfa) := by
  unfold finalStates
  obtain ⟨k, hl⟩ : ∃ k, k = dfa.nodes.length := ⟨_, rfl⟩
  have hk : k ≤ dfa.nodes.length := le_of_eq hl
  rw [← hl]
  clear hl
  induction k with
  | zero => exact ⟨nodup_nil, forall_mem_nil _, forall_mem_nil _, forall_mem_nil _, nofun⟩
  | succ k ih =>
    have hls := ih (le_of_lt hk)
    have hget := getElem?_eq_getElem hk
    rw [range_succ, foldl_concat, hget]
    dsimp only
    have hacn : dfa.actionsOf k = (dfa.nodes[k]).actions dfa := DFA.actionsOf_eq hget
    by_cases hhas : (dfa.nodes[k]).hasActions = true
    · rw [if_pos hhas, ← hacn]
      exact hls.add ((h.hasActions_iff hget).mp hhas)
    -- a node without actions is in no slot
    rw [if_neg hhas]
    have hnil : dfa.actionsOf k = [] := by
      by_contra hne
      exact hhas ((h.hasActions_iff hget).mpr hne)
    refine ⟨hls.distinct, hls.key_ne, hls.nodup, ?_, ?_⟩
    · refine fun slot hsl i => (hls.mem_iff slot hsl i).trans ?_
      refine lt_succ_and_iff (P := (dfa.actionsOf · = slot.1)) (fun ha => ?_) i
      exact hls.key_ne slot hsl (ha.symm.trans hnil)
    · intro i hi hai
      rcases Nat.lt_succ_iff_lt_or_eq.mp hi with hi | rfl
      · exact hls.complete i hi hai
      · exact absurd hnil hai

theorem Minimizable.refineInv (hn : 0 < dfa.nodes.length) : RefineInv h (ofDFA dfa) := by
  obtain ⟨hnds, hnm, hns⟩ := initializePartition_inv hn
  obtain ⟨htrs, htm, hts⟩ := h.transitionPartition_inv
  have hcr : ∀ e, cordOf dfa (ofDFA dfa).transitionPartition e =
      h.graph.label e := fun e => hts e _ (getElem?_eq_getElem e.isLt)
  refine ⟨h.graphOf, ⟨hnds, hnm⟩, ⟨htrs, htm⟩, inv_init ?_ ?_ ?_⟩
  · intro p q
    exact (hns p p.isLt).trans (hns q q.isLt).symm
  · exact fun e => htrs.setIndex_lt _ (slotT_lt e)
  · intro e f
    rw [hcr e, hcr f]

/-- Splitting by the slots of the map: the nodes of a slot are apart from all others. -/
theorem splitFinalStates_spec (map : List (List Nat × List Nat))
    (hmap : ∀ slot ∈ map, slot.2.Nodup ∧
      ∀ i, i ∈ slot.2 ↔ i < dfa.nodes.length ∧ dfa.actionsOf i = slot.1)
    {g : FullGraphPartition} (hg : RefineInv h g) :
    RefineInv h (map.foldl splitFinalStates g) ∧
      ∀ p q : Fin dfa.nodes.length,
        (map.foldl splitFinalStates g).SameSet p q →
          g.SameSet p q ∧ ∀ slot ∈ map, ((p : Nat) ∈ slot.2 ↔ (q : Nat) ∈ slot.2) := by
  induction map generalizing g with
  | nil => exact ⟨hg, fun p q hpq => ⟨hpq, forall_mem_nil _⟩⟩
  | cons slot rest ih =>
    obtain ⟨hnd, hm⟩ := hmap slot mem_cons_self
    obtain ⟨hg', hspl, _⟩ := RefineInv.refine h hg hnd (fun x hx => ((hm x).mp hx).1) (by
      intro p q hpq hp
      refine (hm q).mpr ⟨q.isLt, ?_⟩
      rw [← SameBehaviour.actions_eq hpq]
      exact ((hm p).mp hp).2)
    rw [← foldl_markNode] at hg' hspl
    obtain ⟨hf, hrest⟩ := ih (forall_mem_cons.mp hmap).2 hg'
    refine ⟨hf, ?_⟩
    intro p q hpq
    obtain ⟨hpr, hsls⟩ := hrest p q hpq
    obtain ⟨hold, hin⟩ := hspl p q hpr
    refine ⟨hold, ?_⟩
    exact forall_mem_cons.mpr ⟨hin, hsls⟩

theorem actions_eq_of_slots (order : SlotOrder) {p q : Fin dfa.nodes.length}
    (hsls : ∀ slot ∈ order.slots (finalStates dfa), ((p : Nat) ∈ slot.2 ↔ (q : Nat) ∈ slot.2)) :
    dfa.actionsOf p = dfa.actionsOf q := by
  have hsp := h.finalStates_spec
  have hi : ∀ slot ∈ finalStates dfa, ((p : Nat) ∈ slot.2 ↔ (q : Nat) ∈ slot.2) :=
    fun slot hsl => hsls slot ((order.perm _).mem_iff.mpr hsl)
  by_cases hp : dfa.actionsOf p = []
  · by_cases hq : dfa.actionsOf q = []
    · rw [hp, hq]
    · obtain ⟨slot, hsl, hin⟩ := hsp.complete q q.isLt hq
      have hin' := (hi slot hsl).mpr hin
      rw [((hsp.mem_iff slot hsl p).mp hin').2, ((hsp.mem_iff slot hsl q).mp hin).2]
  · obtain ⟨slot, hsl, hin⟩ := hsp.complete p p.isLt hp
    have hin' := (hi slot hsl).mp hin
    rw [((hsp.mem_iff slot hsl p).mp hin).2, ((hsp.mem_iff slot hsl q).mp hin').2]

end Final

/-! ## Using the sets of transitions -/

section Cords

variable {dfa : DFA} (h : Minimizable dfa)

/-- The sources of the set that is processed. -/
def sourcesOf (g : FullGraphPartition) : List Nat :=
  (g.transitionPartition.iterateSet g.nextTransitionSetToProcess).map
    fun i => g.flattenedTransitions.getD i 0

theorem markSources_eq (g : FullGraphPartition) : g.markSources = markNodes g (sourcesOf g) := by
  have key : ∀ (is : List Nat) (g : FullGraphPartition),
      is.foldl (fun g i => g.markNode (g.flattenedTransitions.getD i 0)) g =
        markNodes g (is.map fun i => g.flattenedTransitions.getD i 0) := by
    intro is
    induction is with
    | nil => exact fun _ => rfl
    | cons i rest ih =>
      intro g
      rw [foldl_cons, ih]
      rfl
  exact key _ g

include h

variable {g : FullGraphPartition}

section

variable (hg : RefineInv h g)
  (hnext : g.nextTransitionSetToProcess < g.transitionPartition.sets.length)

include hg hnext

theorem sourcesOf_spec : (sourcesOf g).Nodup ∧ (∀ x ∈ sourcesOf g, x < dfa.nodes.length) ∧
      ∀ p : Fin dfa.nodes.length, (p : Nat) ∈ sourcesOf g ↔
        ∃ e, h.graph.source e = p ∧
          cordOf dfa g.transitionPartition e = g.nextTransitionSetToProcess := by
  -- the elements of the set are the places of transitions
  have hpla : ∀ i ∈ g.transitionPartition.iterateSet g.nextTransitionSetToProcess,
      ∃ e : Fin (edges dfa).length, slot (targetKeys dfa) e = i ∧
        cordOf dfa g.transitionPartition e = g.nextTransitionSetToProcess ∧
        g.flattenedTransitions.getD i 0 = (h.graph.source e : Nat) := by
    intro i hi
    obtain ⟨hlt, hset⟩ := (hg.transitions.inv.mem_iterateSet hnext i).mp hi
    obtain ⟨e, t, he, rfl⟩ : ∃ e t, _ ∧ slot (targetKeys dfa) e = i := exists_slot_map hlt
    exact ⟨⟨e, lt_of_getElem? he⟩, rfl, hset, hg.graphOf.source e _ (getElem?_eq_getElem _)⟩
  refine ⟨?_, ?_, ?_⟩
  · unfold sourcesOf
    refine List.Nodup.map_on ?_ (hg.transitions.inv.nodup_iterateSet _)
    intro i hi j hj hij
    obtain ⟨e, rfl, hce, hse⟩ := hpla i hi
    obtain ⟨f, rfl, hcf, hsf⟩ := hpla j hj
    have hs : h.graph.source e = h.graph.source f := by
      refine Fin.ext ?_
      rw [← hse, ← hsf, hij]
    rw [h.graph.deterministic e f hs (hg.inv.cord_label e f (hce.trans hcf.symm))]
  · intro x hx
    obtain ⟨i, hi, rfl⟩ := mem_map.mp hx
    obtain ⟨e, _, _, hse⟩ := hpla i hi
    rw [hse]
    exact (h.graph.source e).isLt
  · intro p
    constructor
    · intro hp
      obtain ⟨i, hi, hip⟩ := mem_map.mp hp
      obtain ⟨e, _, hce, hse⟩ := hpla i hi
      exact ⟨e, Fin.ext (hse.symm.trans hip), hce⟩
    · rintro ⟨e, rfl, hce⟩
      refine mem_map.mpr ⟨slot (targetKeys dfa) e, ?_, ?_⟩
      · exact (hg.transitions.inv.mem_iterateSet hnext _).mpr ⟨slotT_lt e, hce⟩
      · exact hg.graphOf.source e _ (getElem?_eq_getElem e.isLt)

/-- **One iteration of `splitByUniqueTransitions`.** -/
theorem RefineInv.iterate :
    RefineInv h { g.markSources.refinePartitions with
        nextTransitionSetToProcess :=
          g.markSources.refinePartitions.nextTransitionSetToProcess + 1 } ∧
      ∀ p q : Fin dfa.nodes.length,
        g.markSources.refinePartitions.SameSet p q → g.SameSet p q := by
  obtain ⟨hnd, hlt, hm⟩ := sourcesOf_spec h hg hnext
  rw [markSources_eq]
  obtain ⟨hg', hspl, hev⟩ := RefineInv.refine h hg hnd hlt (by
    intro p q hpq hp
    exact (hm q).mpr (hg.inv.sources_coarse h.bisimulation hpq ((hm p).mp hp)))
  refine ⟨⟨⟨hg'.graphOf.flattened_length, hg'.graphOf.source, hg'.graphOf.incoming⟩, hg'.nodes,
    hg'.transitions, ?_⟩, fun p q hpq => (hspl p q hpq).1⟩
  refine hg'.inv.advance hev hnext hg.inv.cord_label ?_
  intro p q hpq hp
  exact (hm q).mp ((hspl p q hpq).2.mp ((hm p).mpr hp))

end

/-- **The loop over the sets of transitions.** It ends with every set processed. -/
theorem splitByUniqueTransitions_spec (fuel : Nat) (hg : RefineInv h g)
    (hfl : (edges dfa).length < g.nextTransitionSetToProcess + fuel) :
    ∃ g', g.splitByUniqueTransitions fuel = some g' ∧ RefineInv h g' ∧
      g'.nextTransitionSetToProcess = g'.transitionPartition.sets.length ∧
      ∀ p q : Fin dfa.nodes.length, g'.SameSet p q → g.SameSet p q := by
  induction fuel generalizing g with
  | zero =>
    -- there are no more sets than transitions
    have h1 := hg.inv.next_le
    have h2 := hg.transitions.inv.sets_length_le
    omega
  | succ fuel ih =>
    rw [splitByUniqueTransitions]
    by_cases hnext : g.nextTransitionSetToProcess < g.transitionPartition.sets.length
    · rw [if_pos hnext]
      obtain ⟨hg₁, hrfn⟩ := RefineInv.iterate h hg hnext
      obtain ⟨g', heq, hg', hdn, hrfn'⟩ := ih hg₁ (by
        show (edges dfa).length <
          g.markSources.refinePartitions.nextTransitionSetToProcess + 1 + fuel
        have : g.markSources.refinePartitions.nextTransitionSetToProcess =
            g.nextTransitionSetToProcess := by
          rw [markSources_eq]
          rfl
        omega)
      exact ⟨g', heq, hg', hdn, fun p q hpq => hrfn p q (hrfn' p q hpq)⟩
    · rw [if_neg hnext]
      refine ⟨g, rfl, hg, ?_, fun p q hpq => hpq⟩
      exact le_antisymm hg.inv.next_le (not_lt.mp hnext)

end Cords

/-! ## Replacements -/

/-- A choice of one node for each behaviour. -/
structure Replacement (dfa : DFA) (replacement : Nat → Nat) : Prop where
  lt : ∀ p, p < dfa.nodes.length → replacement p < dfa.nodes.length
  same : ∀ p, p < dfa.nodes.length → SameBehaviour dfa p (replacement p)
  unique : ∀ p q, p < dfa.nodes.length → q < dfa.nodes.length → SameBehaviour dfa p q →
    replacement p = replacement q

theorem Replacement.idem {repl : Nat → Nat} (h : Replacement dfa repl)
    (hp : p < dfa.nodes.length) : repl (repl p) = repl p :=
  (h.unique p (repl p) hp (h.lt p hp) (h.same p hp)).symm

theorem RefineInv.replacement {h : Minimizable dfa} {g : FullGraphPartition} (hg : RefineInv h g)
    (hsm : ∀ p q : Fin dfa.nodes.length, g.SameSet p q → SameBehaviour dfa p q) : Replacement dfa g.nodeReplacement := by
  have hfst : ∀ p < dfa.nodes.length, g.nodeReplacement p < dfa.nodes.length ∧
      g.nodePartition.setIndex (g.nodeReplacement p) = g.nodePartition.setIndex p :=
    fun p hp => hg.nodes.inv.firstElementInSet_spec (hg.nodes.inv.setIndex_lt p hp)
  refine ⟨fun p hp => (hfst p hp).1, ?_, ?_⟩
  · intro p hp
    exact hsm ⟨p, hp⟩ ⟨_, (hfst p hp).1⟩ (hfst p hp).2.symm
  · intro p q hp hq hpq
    have hs : g.nodePartition.setIndex p = g.nodePartition.setIndex q :=
      hg.inv.coarse_block ⟨p, hp⟩ ⟨q, hq⟩ hpq
    unfold nodeReplacement
    rw [hs]

/-- **The partition.** Minimizing replaces every node by one node of its behaviour. -/
theorem minimize_eq (order : SlotOrder) (h : Minimizable dfa) (hn : 0 < dfa.nodes.length) :
    ∃ repl, Replacement dfa repl ∧ minimize order dfa = some (relocate repl dfa) := by
  have hsp := h.finalStates_spec
  obtain ⟨hg₁, hsls⟩ := splitFinalStates_spec h (order.slots (finalStates dfa))
    (by
      intro slot hsl
      have hm := (order.perm _).mem_iff.mp hsl
      exact ⟨hsp.nodup slot hm, hsp.mem_iff slot hm⟩)
    (h.refineInv hn)
  obtain ⟨g, heq, hg, hdn, hrfn⟩ := splitByUniqueTransitions_spec h
    (((order.slots (finalStates dfa)).foldl splitFinalStates
      (ofDFA dfa)).flattenedTransitions.length + 1) hg₁ (by
        rw [hg₁.graphOf.flattened_length]
        omega)
  refine ⟨g.nodeReplacement, hg.replacement ?_, ?_⟩
  · refine h.sameBehaviour_of_stable ?_ ?_
    · intro p q hpq
      exact actions_eq_of_slots h order (hsls p q (hrfn p q hpq)).2
    · intro e q hq
      have hi := hg.inv
      rw [hdn] at hi
      exact hi.stable hq
  · show (splitByUniqueTransitions _ _).bind _ = _
    rw [heq]
    rfl

end WebKit.ContentExtensions
