import WebKit.ContentExtensions.NFAToDFACorrect
import WebKit.ContentExtensions.DFAMinimizerRelocation

/-!
# `DFACombiner`

Small automata are merged until they are large enough to be compiled. `DFAMerger` builds the
synchronous product: a node of the result stands for a node of each automaton, of which one may be
stuck (`invalidNodeIndex`, which is `none` here). Vectors of nodes are shorter than `2 ^ 32 - 1`.
-/

namespace WebKit.ContentExtensions

open RangeOverlay List Construction

/-! ## `DFAMerger` -/

namespace DFAMerger

inductive WhichDFA
  | A
  | B

/-- A node of each automaton. -/
abbrev Signature := Option Nat × Option Nat

def setHalfSignature (signature : Signature) (value : Nat) : WhichDFA → Signature
  | .A => (some value, signature.2)
  | .B => (signature.1, some value)

def targetConverter (whichDFA : WhichDFA) : DataConverter Signature Nat where
  convert target := setHalfSignature (none, none) target whichDFA
  extend destination target := setHalfSignature destination target whichDFA

/-- The transitions of a node are merged into those of a combined node. -/
def extendTransitions (whichDFA : WhichDFA) (dfa : DFA) (index : Option Nat)
    (combinedTransitions : MutableRangeList Signature) : MutableRangeList Signature :=
  match index with
  | some index => combinedTransitions.extend (targetConverter whichDFA) (dfa.transitionsOf index)
  | none => combinedTransitions

/-- The actions of a node of a combined node. -/
def actionsOfIndex (dfa : DFA) (index : Option Nat) : List Nat :=
  match index with
  | some index => dfa.actionsOf index
  | none => []

variable (iteration : Iteration) (a b : DFA)

/-- What `DFAMerger` makes of signatures. The number of actions is narrowed to sixteen bits. -/
def combinedNodes : Construction Signature where
  same := (· == ·)
  stored _ signature := signature
  transitions signature := (extendTransitions .B b signature.2
    (extendTransitions .A a signature.1 .empty)).toList
  actions index signature :=
    let actions := iteration.actions index (NodeIdSet.empty.addAll
      (actionsOfIndex a signature.1 ++ actionsOfIndex b signature.2)).elements
    some (actions, actions.length % 2 ^ 16)

/-- `DFAMerger::merge`. The number of signatures bounds the number of iterations. -/
def merge : Option DFA :=
  (combinedNodes iteration a b).build ((a.nodes.length + 1) * (b.nodes.length + 1) + 1)
    (some a.root, some b.root)

end DFAMerger

open DFAMerger

/-! ## `DFACombiner` -/

section

variable (order : SlotOrder) (iteration : Iteration) (minimumSize : Nat)

/-- Two automata are merged, and the result is minimized if it is large or the last one. -/
def combinePair (isLast : Bool) (a b : DFA) : Option DFA := do
  let c ← merge iteration a b
  if c.graphSize > minimumSize || isLast then minimize order c else some c

/-- The loop of `combineDFAs`, with the last automaton first: what it passes to the handler. -/
def combineLoop : List DFA → Option (List DFA)
  | [] => some []
  | [dfa] => some [dfa]
  | a :: b :: dfas => do
    let c ← combinePair order iteration minimumSize dfas.isEmpty a b
    if c.graphSize > minimumSize then
      let handled ← combineLoop dfas
      some (c :: handled)
    else combineLoop (c :: dfas)
termination_by dfas => dfas.length

/-- `DFACombiner::combineDFAs`: what it passes to the handler. -/
def combineDFAs (dfas : List DFA) : Option (List DFA) := do
  let large := fun dfa : DFA => decide (dfa.graphSize > minimumSize)
  let handled ← combineLoop order iteration minimumSize (dfas.reverse.filter (!large ·))
  some (dfas.reverse.filter large ++ handled)

def addDFA (dfas : List DFA) (dfa : DFA) : Option (List DFA) := do
  let dfa ← minimize order dfa
  some (dfas ++ [dfa])

/-- The automata for the url filters with domains, or without; the combiner has the second list. -/
def compileNFAs (smallDFASize : Nat) : List NFA → List DFA → Option (List DFA)
  | [], smallDFAs => combineDFAs order iteration smallDFASize smallDFAs
  | nfa :: nfas, smallDFAs => do
    let dfa ← convert iteration nfa
    if dfa.graphSize < smallDFASize then
      let smallDFAs ← addDFA order smallDFAs dfa
      compileNFAs smallDFASize nfas smallDFAs
    else
      let dfa ← minimize order dfa
      let lowered ← compileNFAs smallDFASize nfas smallDFAs
      some (dfa :: lowered)

end

/-! ## The product -/

/-- The actions that an automaton has for a string. -/
def DFA.actionsOn (dfa : DFA) (w : List Nat) : List Nat := actionsOfIndex dfa (dfa.run w)

/-- The actions that some automata have for a string. -/
def actionsFound (dfas : List DFA) (w : List Nat) : Finset Nat :=
  (dfas.flatMap (·.actionsOn w)).toFinset

theorem actionsFound_singleton (d : DFA) (w : List Nat) :
    actionsFound [d] w = (d.actionsOn w).toFinset := by
  rw [actionsFound, flatMap_singleton]

theorem actionsFound_append (ds es : List DFA) (w : List Nat) :
    actionsFound (ds ++ es) w = actionsFound ds w ∪ actionsFound es w := by
  simp [actionsFound]

theorem Construction.Built.not_killed {κ : Type} {c : Construction κ} {Valid : κ → Prop} {root : κ}
    {table : List κ} {dfa : DFA} (h : Built c Valid root table dfa) :
    ∀ node ∈ dfa.nodes, node.isKilled = false := by
  intro node hn
  obtain ⟨i, hi⟩ := mem_iff_getElem?.mp hn
  exact h.live i node hi

namespace DFAMerger

/-- The states of two automata, unless both are stuck. -/
def unlessStuck : Signature → Option Signature
  | (none, none) => none
  | s => some s

/-- Both automata read a character. -/
def pairStep (a b : DFA) (s : Signature) (c : Nat) : Option Signature :=
  unlessStuck (s.1.bind (a.step · c), s.2.bind (b.step · c))

variable {a b : DFA} {s : Signature} (it : Iteration)

theorem abstractRun_pairStep (w : List Nat) (hs : s ≠ (none, none)) :
    abstractRun (pairStep a b) s w =
      unlessStuck (s.1.bind (a.runFrom · w), s.2.bind (b.runFrom · w)) := by
  induction w generalizing s with
  | nil =>
    obtain ⟨_ | i, _ | j⟩ := s
    · exact absurd rfl hs
    all_goals rfl
  | cons c w ih =>
    have hr : ∀ (d : DFA) (p : Option Nat),
        p.bind (d.runFrom · (c :: w)) = (p.bind (d.step · c)).bind (d.runFrom · w) := by
      intro d p
      cases p <;> rfl
    rw [hr, hr, abstractRun, pairStep]
    generalize s.1.bind (a.step · c) = p
    generalize s.2.bind (b.step · c) = q
    cases p <;> cases q
    · rfl
    all_goals exact ih (by simp)

theorem extendTransitions_spec {d : DFA} (hd : d.WellFormed) {p : Option Nat}
    (hp : ∀ i ∈ p, d.Live i) (w : WhichDFA) {l : MutableRangeList Signature}
    (hl : Sorted l.toList) (hu : ∀ r ∈ l.toList, r.last < 128) :
    Sorted (extendTransitions w d p l).toList ∧
    (∀ r ∈ (extendTransitions w d p l).toList, r.last < 128) ∧
    ∀ c, find (extendTransitions w d p l).toList c =
      combine (targetConverter w).convert (targetConverter w).extend (find l.toList c)
        (p.bind (d.step · c)) := by
  cases p with
  | none =>
    refine ⟨hl, hu, fun c => ?_⟩
    rw [extendTransitions]
    cases find l.toList c <;> rfl
  | some i =>
    have ho := hd.sorted i (hp i rfl)
    rw [extendTransitions, MutableRangeList.toList_extend]
    exact ⟨overlay_sorted _ _ hl ho, overlay_upper _ _ hu (hd.ascii i (hp i rfl)) hl ho,
      fun c => find_overlay _ _ hl ho c⟩

/-- The signatures that the merger meets. -/
def Valid (a b : DFA) (s : Signature) : Prop := (∀ i ∈ s.1, a.Live i) ∧ ∀ i ∈ s.2, b.Live i

theorem live_step {d : DFA} (hd : d.WellFormed) {p : Option Nat} (hp : ∀ i ∈ p, d.Live i)
    {c i : Nat} (hi : i ∈ p.bind (d.step · c)) : d.Live i := by
  obtain ⟨j, hj, hst⟩ := Option.bind_eq_some_iff.mp hi
  obtain ⟨r, hr, _, rfl⟩ := mem_of_find hst
  exact hd.target_live j (hp j hj) r hr

theorem eq_none_of_unlessStuck {p q : Option Nat} (h : unlessStuck (p, q) = none) :
    p = none ∧ q = none := by
  cases p <;> cases q <;> cases h
  exact ⟨rfl, rfl⟩

theorem eq_of_unlessStuck {t : Signature} (h : unlessStuck s = some t) : s = t := by
  obtain ⟨_ | i, _ | j⟩ := s <;> cases h <;> rfl

/-- There are no more signatures than pairs of a node or none. -/
theorem length_le_of_distinct {keys : List Signature} (hk : ∀ s ∈ keys, Valid a b s)
    (hnd : keys.Nodup) : keys.length ≤ (a.nodes.length + 1) * (b.nodes.length + 1) := by
  have hm : ∀ (d : DFA) (p : Option Nat), (∀ i ∈ p, d.Live i) →
      p ∈ Finset.insertNone (Finset.range d.nodes.length) := by
    intro d p hp
    refine Finset.mem_insertNone.mpr fun i hi => Finset.mem_range.mpr ?_
    obtain ⟨node, hn, _⟩ := hp i hi
    exact Vectors.lt_of_getElem? hn
  have hsub : keys.toFinset ⊆ Finset.insertNone (Finset.range a.nodes.length) ×ˢ
      Finset.insertNone (Finset.range b.nodes.length) := by
    intro s hs
    have hv := hk s (mem_toFinset.mp hs)
    exact Finset.mem_product.mpr ⟨hm a s.1 hv.1, hm b s.2 hv.2⟩
  have hle := Finset.card_le_card hsub
  rwa [toFinset_card_of_nodup hnd, Finset.card_product, Finset.card_insertNone,
    Finset.card_insertNone, Finset.card_range, Finset.card_range] at hle

/-- The actions of a signature, where they can be counted. -/
theorem combinedNodes_actions {w : List Nat} (hact : (actionsFound [a, b] w).card < 2 ^ 16)
    (i : Nat) : ∃ actions, (combinedNodes it a b).actions i (a.run w, b.run w) =
      some (actions, actions.length) ∧ actions.toFinset = actionsFound [a, b] w := by
  set set := NodeIdSet.empty.addAll (a.actionsOn w ++ b.actionsOn w)
  have hpr := it.actions_perm i set.elements
  have hfin : (it.actions i set.elements).toFinset = actionsFound [a, b] w := by
    ext n
    have hmem : n ∈ set ↔ _ := NodeIdSet.mem_addAll
    rw [mem_toFinset, hpr.mem_iff, ← NodeIdSet.mem_def, hmem]
    simp [actionsFound]
  refine ⟨_, ?_, hfin⟩
  rw [← hfin, toFinset_card_of_nodup (hpr.nodup_iff.mpr set.nodup)] at hact
  show some (it.actions i set.elements, (it.actions i set.elements).length % 2 ^ 16) = _
  rw [Nat.mod_eq_of_lt hact]

section

variable (ha : a.WellFormed) (hb : b.WellFormed)

include ha hb

/-- The transitions of a signature are the steps of the two automata. -/
theorem transitions_spec (hs : Valid a b s) :
    Sorted ((combinedNodes it a b).transitions s) ∧
    (∀ r ∈ (combinedNodes it a b).transitions s, r.last < 128) ∧
    ∀ c, find ((combinedNodes it a b).transitions s) c = pairStep a b s c := by
  obtain ⟨h1, h2, h3⟩ :=
    extendTransitions_spec ha hs.1 .A (l := .empty) sorted_nil (forall_mem_nil _)
  obtain ⟨g1, g2, g3⟩ := extendTransitions_spec hb hs.2 .B h1 h2
  refine ⟨g1, g2, fun c => (g3 c).trans ?_⟩
  rw [h3, pairStep]
  cases s.1.bind (a.step · c) <;> cases s.2.bind (b.step · c) <;> rfl

theorem combinedNodes_lawful : (combinedNodes it a b).Lawful (Valid a b) where
  actions_le := by
    rintro i k acts len ⟨⟩
    exact Nat.mod_le _ _
  stored_valid _ _ h := h
  stored_same _ _ _ := beq_self_eq_true _
  same_stored _ _ _ := rfl
  next_valid s hs r hr := by
    obtain ⟨hsr, _, hst⟩ := transitions_spec it ha hb hs
    have h := hst r.first
    rw [hsr.find_eq hr ⟨le_rfl, hsr.nonempty r hr⟩] at h
    rw [← eq_of_unlessStuck h.symm]
    exact ⟨fun i => live_step ha hs.1, fun i => live_step hb hs.2⟩
  sorted _ h := (transitions_spec it ha hb h).1
  ascii _ h := (transitions_spec it ha hb h).2.1

/-- **The product.** The merged automaton finds what one of the two finds, as long as no string has
more actions than sixteen bits can count. -/
theorem merge_spec (hact : ∀ w, (actionsFound [a, b] w).card < 2 ^ 16) :
    ∃ c, merge it a b = some c ∧ c.WellFormed ∧ (∀ node ∈ c.nodes, node.isKilled = false) ∧
      ∀ w, actionsFound [c] w = actionsFound [a, b] w := by
  have hlaw := combinedNodes_lawful it ha hb
  have hrt : Valid a b (some a.root, some b.root) :=
    ⟨by rintro _ ⟨⟩; exact ha.root_live, by rintro _ ⟨⟩; exact hb.root_live⟩
  cases hm : merge it a b with
  | none =>
    obtain ⟨s, _, i, hi⟩ := build_eq_none hlaw (fun keys hv hp =>
      length_le_of_distinct hv (hp.imp fun h => ne_of_beq_false h)) hrt hm
    cases hi
  | some c =>
    obtain ⟨table, hblt⟩ := build_spec hlaw hrt hm
    refine ⟨c, rfl, hblt.wellFormed, hblt.not_killed, fun w => ?_⟩
    have hr := hblt.run id (pairStep a b) (fun s t h => eq_of_beq h)
      (fun s hs c => by rw [Option.map_id]; exact (transitions_spec it ha hb hs).2.2 c) w
    rw [id, abstractRun_pairStep w (by simp)] at hr
    rw [actionsFound_singleton, DFA.actionsOn]
    rcases hr with ⟨hno, hst⟩ | ⟨i, s, hi, hs, hst⟩
    · have hboth : a.run w = none ∧ b.run w = none := eq_none_of_unlessStuck hst
      rw [hno, actionsFound, flatMap_cons, flatMap_singleton, DFA.actionsOn, DFA.actionsOn,
        hboth.1, hboth.2]
      rfl
    · obtain rfl := eq_of_unlessStuck hst
      obtain ⟨actions, hac, hfin⟩ := combinedNodes_actions it (hact w) i
      obtain ⟨actions', length, hac', hof⟩ := hblt.actions i _ hs
      cases hac.symm.trans hac'
      rw [hi, actionsOfIndex, hof, take_length, hfin]

end

end DFAMerger

/-- Minimizing keeps the actions, and what the merger expects. -/
theorem minimize_wellFormed (order : SlotOrder) {c : DFA} (hc : c.WellFormed)
    (hlv : ∀ node ∈ c.nodes, node.isKilled = false) :
    ∃ c', minimize order c = some c' ∧ c'.WellFormed ∧ ∀ w, c'.actionsOn w = c.actionsOn w := by
  have hf : Fresh c := ⟨hc.toIntact, hlv⟩
  have hn : 0 < c.nodes.length := lt_of_le_of_lt (Nat.zero_le _) (hf.live_iff.mp hc.root_live)
  obtain ⟨replacement, _, heq⟩ := minimize_eq order hf.minimizable hn
  obtain ⟨c', heq', hin, hrun, _⟩ := minimize_spec order hf
  cases heq.symm.trans heq'
  have hrel := relocate_spec replacement hf
  refine ⟨_, heq, ⟨hin, fun i hi r hr => ?_⟩, fun w => ?_⟩
  · obtain ⟨hlt, hi⟩ := hrel.live_iff.mp hi
    rw [hrel.transitionsOf i hlt hi] at hr
    obtain ⟨s, hs, rfl⟩ := mem_map.mp hr
    exact hc.ascii i (hf.live_iff.mpr hlt) s hs
  · have hw := hrun w
    unfold DFA.actionsOn
    cases h : (relocate replacement c).run w <;> cases h' : c.run w <;> simp_all [actionsOfIndex]

section Combine

variable (order : SlotOrder) (it : Iteration) (minimumSize : Nat) {dfas : List DFA}

theorem combinePair_spec {a b : DFA} (ha : a.WellFormed) (hb : b.WellFormed) (isLast : Bool)
    (hact : ∀ w, (actionsFound [a, b] w).card < 2 ^ 16) :
    ∃ c, combinePair order it minimumSize isLast a b = some c ∧ c.WellFormed ∧
      ∀ w, actionsFound [c] w = actionsFound [a, b] w := by
  obtain ⟨c, hm, hc, hlv, hw⟩ := merge_spec it ha hb hact
  rw [combinePair, hm]
  simp only [Option.bind_eq_bind, Option.bind_some]
  split_ifs
  · obtain ⟨c', heq, hc', hw'⟩ := minimize_wellFormed order hc hlv
    refine ⟨c', heq, hc', fun w => ?_⟩
    rw [← hw, actionsFound_singleton, hw', actionsFound_singleton]
  · exact ⟨c, rfl, hc, hw⟩

theorem combineLoop_spec (n : Nat) (hn : dfas.length ≤ n) (hd : ∀ d ∈ dfas, d.WellFormed)
    (hact : ∀ w, (actionsFound dfas w).card < 2 ^ 16) :
    ∃ handled, combineLoop order it minimumSize dfas = some handled ∧
      ∀ w, actionsFound handled w = actionsFound dfas w := by
  -- each iteration leaves fewer automata
  induction n generalizing dfas with
  | zero =>
    rw [length_eq_zero_iff.mp (Nat.le_zero.mp hn), combineLoop]
    exact ⟨[], rfl, fun _ => rfl⟩
  | succ n ih =>
    match dfas with
    | [] | [d] =>
      rw [combineLoop]
      exact ⟨_, rfl, fun _ => rfl⟩
    | a :: b :: ds =>
      obtain ⟨ha, hb, hds⟩ : a.WellFormed ∧ b.WellFormed ∧ ∀ d ∈ ds, d.WellFormed := by
        simpa using hd
      have hsub := actionsFound_append [a, b] ds
      obtain ⟨c, hm, hc, hw⟩ := combinePair_spec order it minimumSize ha hb ds.isEmpty fun w =>
        (Finset.card_le_card (hsub w ▸ Finset.subset_union_left)).trans_lt (hact w)
      have hwith : ∀ es w, actionsFound (c :: es) w = actionsFound [a, b] w ∪ actionsFound es w :=
        fun es w => hw w ▸ actionsFound_append [c] es w
      rw [length_cons, length_cons] at hn
      rw [combineLoop, hm]
      simp only [Option.bind_eq_bind, Option.bind_some]
      split_ifs
      · obtain ⟨handled, hl, h⟩ := ih (by omega) hds fun w =>
          (Finset.card_le_card (hsub w ▸ Finset.subset_union_right)).trans_lt (hact w)
        exact ⟨c :: handled, by rw [hl]; rfl, fun w => by rw [hwith, h]; exact (hsub w).symm⟩
      · have hall : ∀ w, actionsFound (c :: ds) w = actionsFound (a :: b :: ds) w :=
          fun w => (hwith ds w).trans (hsub w).symm
        obtain ⟨handled, hl, h⟩ := ih (by rw [length_cons]; omega)
          (forall_mem_cons.mpr ⟨hc, hds⟩) fun w => hall w ▸ hact w
        exact ⟨handled, hl, fun w => (h w).trans (hall w)⟩

/-- **The combiner loses and invents nothing.** -/
theorem combineDFAs_spec (hd : ∀ d ∈ dfas, d.WellFormed)
    (hact : ∀ w, (actionsFound dfas w).card < 2 ^ 16) :
    ∃ handled, combineDFAs order it minimumSize dfas = some handled ∧
      ∀ w, actionsFound handled w = actionsFound dfas w := by
  set large := fun dfa : DFA => decide (dfa.graphSize > minimumSize) with hlg
  have hpr : (dfas.reverse.filter large ++ dfas.reverse.filter (!large ·)).Perm dfas :=
    (filter_append_perm _ _).trans (reverse_perm dfas)
  have hf : ∀ w, actionsFound (dfas.reverse.filter large) w ∪
      actionsFound (dfas.reverse.filter (!large ·)) w = actionsFound dfas w := by
    intro w
    rw [← actionsFound_append]
    exact toFinset_eq_of_perm _ _ (hpr.flatMap_right _)
  obtain ⟨handled, hl, h⟩ := combineLoop_spec order it minimumSize _ le_rfl
    (fun d hm => hd d (mem_reverse.mp (mem_filter.mp hm).1))
    (fun w => (Finset.card_le_card (hf w ▸ Finset.subset_union_right)).trans_lt (hact w))
  refine ⟨_, by rw [combineDFAs, ← hlg, hl]; rfl, fun w => ?_⟩
  rw [actionsFound_append, h, hf]

end Combine

section Compile

variable (order : SlotOrder) (it : Iteration) (smallDFASize : Nat) {A : Finset Nat}
  (hA : A.card < 2 ^ 16)

theorem reachedActions_subset {nfa : NFA} (hnfa : ∀ n ∈ nfa.actions, n ∈ A) (w : List Nat) :
    reachedActions nfa w ⊆ A := by
  rintro n ⟨i, -, hn⟩
  unfold NFA.actionsOf at hn
  split at hn
  · cases hn
  · exact hnfa n (mem_of_mem_drop (mem_of_mem_take hn))

include hA

/-- The conversion gives an automaton that the minimizer and the combiner can work with. -/
theorem convert_wellFormed {nfa : NFA} (hwf : nfa.WellFormed) (hnfa : ∀ n ∈ nfa.actions, n ∈ A) :
    ∃ dfa, convert it nfa = some dfa ∧ dfa.WellFormed ∧
      (∀ node ∈ dfa.nodes, node.isKilled = false) ∧
      ∀ w n, n ∈ dfa.actionsOn w ↔ n ∈ reachedActions nfa w := by
  have hle : ∀ w, (reachedActions nfa w).ncard ≤ 2 ^ 16 - 1 := by
    intro w
    have := Set.ncard_le_ncard (reachedActions_subset hnfa w) A.finite_toSet
    rw [Set.ncard_coe_finset] at this
    omega
  obtain ⟨dfa, hdfa⟩ := Option.isSome_iff_exists.mp ((convert_isSome_iff it hwf).mpr hle)
  obtain ⟨table, hblt⟩ := build_spec (subsetConstruction_lawful it hwf)
    (reachedSet_initialSet hwf) hdfa
  refine ⟨dfa, hdfa, hblt.wellFormed, hblt.not_killed, fun w n => ?_⟩
  unfold DFA.actionsOn
  rcases run_convert it hwf hblt w with ⟨hno, hnr⟩ | ⟨i, set, hi, hset, -, hw⟩
  · rw [hno, reachedActions_eq_empty hnr]
    simp [actionsOfIndex]
  · obtain ⟨actions, length, hac, hof⟩ := hblt.actions i set hset
    rcases subsetConstruction_actions it hw i with ⟨hnone, -⟩ | ⟨_, hsome, -, hmem⟩
    · cases hac.symm.trans hnone
    · cases hac.symm.trans hsome
      rw [hi, actionsOfIndex, hof, take_length]
      exact hmem n

theorem compileNFAs_spec {nfas : List NFA} {small : List DFA} (hwf : ∀ nfa ∈ nfas, nfa.WellFormed)
    (hnfas : ∀ nfa ∈ nfas, ∀ n ∈ nfa.actions, n ∈ A) (hd : ∀ d ∈ small, d.WellFormed)
    (hs : ∀ w, actionsFound small w ⊆ A) :
    ∃ dfas, compileNFAs order it smallDFASize nfas small = some dfas ∧ ∀ w n,
      n ∈ actionsFound dfas w ↔
        n ∈ actionsFound small w ∨ ∃ nfa ∈ nfas, n ∈ reachedActions nfa w := by
  induction nfas generalizing small with
  | nil =>
    obtain ⟨dfas, heq, h⟩ := combineDFAs_spec order it smallDFASize hd fun w =>
      (Finset.card_le_card (hs w)).trans_lt hA
    exact ⟨dfas, heq, fun w n => by simp [h]⟩
  | cons nfa nfas ih =>
    rw [forall_mem_cons] at hwf hnfas
    obtain ⟨dfa, hdfa, hc, hlv, hr⟩ := convert_wellFormed it hA hwf.1 hnfas.1
    obtain ⟨dfa', heq, hc', hw⟩ := minimize_wellFormed order hc hlv
    have hone : ∀ w n, n ∈ actionsFound [dfa'] w ↔ n ∈ reachedActions nfa w := by
      intro w n
      rw [← hr, ← hw, actionsFound_singleton, mem_toFinset]
    rw [compileNFAs, hdfa]
    simp only [Option.bind_eq_bind, Option.bind_some, addDFA, heq]
    split_ifs
    · have hd' : ∀ d ∈ small ++ [dfa'], d.WellFormed := by
        simpa [or_imp, forall_and] using ⟨hd, hc'⟩
      have hs' : ∀ w, actionsFound (small ++ [dfa']) w ⊆ A := by
        intro w
        rw [actionsFound_append]
        exact Finset.union_subset (hs w) fun n hn =>
          reachedActions_subset hnfas.1 w ((hone w n).mp hn)
      obtain ⟨dfas, hl, h⟩ := ih hwf.2 hnfas.2 hd' hs'
      refine ⟨dfas, hl, fun w n => ?_⟩
      rw [h, actionsFound_append, Finset.mem_union, hone]
      simp [or_assoc]
    · obtain ⟨dfas, hl, h⟩ := ih hwf.2 hnfas.2 hd hs
      refine ⟨dfa' :: dfas, by rw [hl]; rfl, fun w n => ?_⟩
      rw [← singleton_append, actionsFound_append, Finset.mem_union, hone, h]
      simp [or_left_comm]

end Compile

end WebKit.ContentExtensions
