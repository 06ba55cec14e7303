import WebKit.ContentExtensions.DFA
import Mathlib.Data.List.Nodup
import Mathlib.Algebra.Group.Nat.Defs

/-!
# Building an automaton node by node

`NFAToDFA::convert` and `DFAMerger::merge` build their result in the same way. Each node stands for
a key: a set of nodes, or a pair. A table maps keys to nodes. Nodes wait on a stack until their
transitions are computed, as ranges whose data are keys that are looked up or created. A
`Construction` is what the two have in their own way.
-/

namespace WebKit.ContentExtensions

open RangeOverlay Vectors List Option List.Forall₂

variable {κ : Type}

structure Construction (κ : Type) where
  /-- Is the key of the table the key that is looked for? -/
  same : κ → κ → Bool
  /-- The key as the table keeps it for the new node at an index. -/
  stored : Nat → κ → κ
  /-- The transitions of a node with this key. -/
  transitions : κ → List (Range κ)
  /-- The actions appended for a new node, whose index is the number, and the length that it stores;
  none when the code gives up. -/
  actions : Nat → κ → Option (List Nat × Nat)

/-- The automaton built so far, the key of each node, and the nodes whose transitions are still to
be computed, the next one first. -/
structure ConstructionState (κ : Type) where
  dfa : DFA := {}
  table : List κ := []
  unprocessed : List (κ × Nat) := []

namespace Construction

variable (c : Construction κ) (st : ConstructionState κ)

/-- The node for a key: the one in the table, or a new one. -/
def getOrCreateNode (key : κ) :
    Option (Nat × ConstructionState κ) :=
  match st.table.findIdx? fun k => c.same k key with
  | some index => some (index, st)
  | none => do
    let index := st.dfa.nodes.length
    let key := c.stored index key
    let (actions, actionsLength) ← c.actions index key
    let node : DFANode :=
      { actionsStart := st.dfa.actions.length, actionsLength := actionsLength }
    some (index,
      { dfa := { st.dfa with
          nodes := st.dfa.nodes ++ [node]
          actions := st.dfa.actions ++ actions }
        table := st.table ++ [key]
        unprocessed := (key, index) :: st.unprocessed })

/-- The loop over the ranges of a node: a transition for each of them. -/
def addTransitions (c : Construction κ) :
    List (Range κ) → ConstructionState κ → Option (ConstructionState κ)
  | [], st => some st
  | range :: rest, st => do
    let (target, st) ← c.getOrCreateNode st range.data
    addTransitions c rest { st with dfa := { st.dfa with
      transitionRanges := st.dfa.transitionRanges ++ [⟨range.first, range.last⟩]
      transitionDestinations := st.dfa.transitionDestinations ++ [target] } }

/-- The transitions of the node of a key, and `setTransitions`, which stores their number in eight
bits. -/
def processNode (key : κ) (index : Nat) :
    Option (ConstructionState κ) := do
  let transitionsStart := st.dfa.transitionRanges.length
  let st ← c.addTransitions (c.transitions key) st
  let transitionsLength := st.dfa.transitionRanges.length - transitionsStart
  let node ← st.dfa.nodes[index]?
  some { st with dfa := { st.dfa with
    nodes := st.dfa.nodes.set index { node with
      transitionsStart := transitionsStart
      transitionsLength := transitionsLength % 2 ^ 8 } } }

/-- Takes nodes off the stack until there are none, with a bound on their number. -/
def processAll (c : Construction κ) :
    Nat → ConstructionState κ → Option (ConstructionState κ)
  | 0, _ => none
  | fuel + 1, st =>
    match st.unprocessed with
    | [] => some st
    | (key, index) :: rest => do
      let st ← c.processNode { st with unprocessed := rest } key index
      processAll c fuel st

/-- The whole construction, from the key of the root. -/
def build (fuel : Nat) (root : κ) : Option DFA := do
  let (_, st) ← c.getOrCreateNode {} root
  let st ← c.processAll fuel st
  some st.dfa

/-! ## The invariant -/

/-- The transitions of a node: those of its key, leading to the nodes of the keys. -/
def Targets (table : List κ) (ranges : List (Range κ)) (transitions : List (Range Nat)) : Prop :=
  List.Forall₂ (fun r t => t.first = r.first ∧ t.last = r.last ∧
    ∃ key, table[t.data]? = some key ∧ c.same key r.data = true) ranges transitions

/-- The invariant, while the nodes `busy` are worked on in addition to those on the stack. -/
structure Inv (c : Construction κ) (Valid : κ → Prop) (st : ConstructionState κ)
    (busy : List Nat) : Prop where
  length : st.table.length = st.dfa.nodes.length
  root : st.dfa.root = 0
  destinations : st.dfa.transitionDestinations.length = st.dfa.transitionRanges.length
  valid : ∀ key ∈ st.table, Valid key
  distinct : st.table.Pairwise fun k k' => c.same k k' = false
  node : ∀ i node, st.dfa.nodes[i]? = some node → node.isKilled = false ∧
    node.transitionsStart + node.transitionsLength ≤ st.dfa.transitionRanges.length ∧
    ∃ key actions, st.table[i]? = some key ∧
      c.actions i key = some (actions, node.actionsLength) ∧
      node.actionsStart + actions.length ≤ st.dfa.actions.length ∧
      slice st.dfa.actions node.actionsStart actions.length = actions
  actionsApart : ∀ (i j : Nat) (ni nj : DFANode), i < j → st.dfa.nodes[i]? = some ni →
    st.dfa.nodes[j]? = some nj → ni.actionsStart + ni.actionsLength ≤ nj.actionsStart
  transitionsApart : ∀ (i j : Nat) (ni nj : DFANode), i ≠ j → st.dfa.nodes[i]? = some ni →
    st.dfa.nodes[j]? = some nj → ∀ k, DFA.InTransitions ni k → ¬ DFA.InTransitions nj k
  stack : ∀ entry ∈ st.unprocessed, st.table[entry.2]? = some entry.1
  open_nodup : (st.unprocessed.map Prod.snd ++ busy).Nodup
  open_node : ∀ i ∈ st.unprocessed.map Prod.snd ++ busy, ∀ node : DFANode,
    st.dfa.nodes[i]? = some node → node.transitionsLength = 0
  closed_node : ∀ i node key, st.dfa.nodes[i]? = some node → st.table[i]? = some key →
    i ∉ st.unprocessed.map Prod.snd ++ busy →
    Targets c st.table (c.transitions key) (node.transitions st.dfa)

theorem inv_empty {c : Construction κ} {Valid : κ → Prop} :
    Inv c Valid ({} : ConstructionState κ) [] := by
  refine ⟨rfl, rfl, rfl, forall_mem_nil _, List.Pairwise.nil, ?_, ?_, ?_, forall_mem_nil _,
    nodup_nil, forall_mem_nil _, ?_⟩
  · intro i node h; cases h
  · intro i j ni nj _ h; cases h
  · intro i j ni nj _ h; cases h
  · intro i node key h; cases h

/-- What is assumed: valid keys lead to valid keys, by sorted ranges of characters, the key in the
table stands for the one that was looked for, and no node stores more actions than were appended for
it. -/
structure Lawful (c : Construction κ) (Valid : κ → Prop) : Prop where
  actions_le : ∀ i k actions length, c.actions i k = some (actions, length) →
    length ≤ actions.length
  stored_valid : ∀ i k, Valid k → Valid (c.stored i k)
  stored_same : ∀ i k, Valid k → c.same (c.stored i k) k = true
  same_stored : ∀ i k k', c.same k' (c.stored i k) = c.same k' k
  next_valid : ∀ k, Valid k → ∀ r ∈ c.transitions k, Valid r.data
  sorted : ∀ k, Valid k → Sorted (c.transitions k)
  ascii : ∀ k, Valid k → ∀ r ∈ c.transitions k, r.last < 128

theorem Lawful.length_lt {c : Construction κ} {Valid : κ → Prop} (hc : Lawful c Valid) {k : κ}
    (hk : Valid k) : (c.transitions k).length < 2 ^ 8 := by
  have := (hc.sorted k hk).length_le 0 (fun r _ => Nat.zero_le _) (hc.ascii k hk) (Nat.zero_le _)
  omega

/-- Everything in the earlier state is still there, at the same place. -/
structure Extends (st st' : ConstructionState κ) : Prop where
  table : ∃ more, st'.table = st.table ++ more
  nodes : ∃ more, st'.dfa.nodes = st.dfa.nodes ++ more ∧
    ∀ node ∈ more, node.transitionsLength = 0
  ranges : ∃ more, st'.dfa.transitionRanges = st.dfa.transitionRanges ++ more
  destinations : ∃ more, st'.dfa.transitionDestinations = st.dfa.transitionDestinations ++ more
  open_nodes : st'.unprocessed.length + st.table.length =
    st.unprocessed.length + st'.table.length

variable {c : Construction κ} {Valid : κ → Prop}

theorem Extends.refl : Extends st st :=
  ⟨⟨[], (append_nil _).symm⟩,
    ⟨[], (append_nil _).symm, forall_mem_nil _⟩,
    ⟨[], (append_nil _).symm⟩, ⟨[], (append_nil _).symm⟩, rfl⟩

variable {st st' : ConstructionState κ} {key root : κ} {table : List κ} {ranges : List (Range κ)}
  {transitions : List (Range Nat)} {dfa : DFA} {busy : List Nat}

theorem Extends.get (h : Extends st st') {i : Nat} (hi : st.table[i]? = some key) :
    st'.table[i]? = some key := by
  obtain ⟨more, hmr⟩ := h.table
  rw [hmr, List.getElem?_append_left (lt_of_getElem? hi)]
  exact hi

theorem Targets.mono {table' : List κ} (h : Targets c table ranges transitions)
    (hg : ∀ (i : Nat) (key : κ), table[i]? = some key → table'[i]? = some key) :
    Targets c table' ranges transitions := by
  refine imp ?_ h
  rintro r t ⟨hf, hl, key, hk, hsm⟩
  exact ⟨hf, hl, key, hg _ _ hk, hsm⟩

theorem targets_zipWith {tgs : List Nat}
    (h : List.Forall₂ (fun r t => ∃ key, table[t]? = some key ∧ c.same key r.data = true)
      ranges tgs) :
    Targets c table ranges (List.zipWith (fun r t => ⟨r.first, r.last, t⟩) ranges tgs) := by
  induction h with
  | nil => exact nil
  | cons hhd _ ih => exact cons ⟨rfl, rfl, hhd⟩ ih

theorem Targets.mem (h : Targets c table ranges transitions) {t : Range Nat}
    (ht : t ∈ transitions) :
    ∃ r ∈ ranges, t.first = r.first ∧ t.last = r.last ∧
      ∃ key, table[t.data]? = some key ∧ c.same key r.data = true := by
  induction h with
  | nil => cases ht
  | cons hhd _ ih =>
    rcases mem_cons.mp ht with rfl | ht
    · exact ⟨_, mem_cons_self, hhd⟩
    · obtain ⟨r, hr, hrest⟩ := ih ht
      exact ⟨r, mem_cons_of_mem _ hr, hrest⟩

theorem transitions_append {node : DFANode} {dfa' : DFA}
    (hle : node.transitionsStart + node.transitionsLength ≤ dfa.transitionRanges.length)
    (hd : dfa.transitionDestinations.length = dfa.transitionRanges.length)
    (hr : ∃ more, dfa'.transitionRanges = dfa.transitionRanges ++ more)
    (hd' : ∃ more, dfa'.transitionDestinations = dfa.transitionDestinations ++ more) :
    node.transitions dfa' = node.transitions dfa := by
  obtain ⟨r, hr⟩ := hr
  obtain ⟨d, hd'⟩ := hd'
  unfold DFANode.transitions
  rw [hr, hd', slice_append_left hle, slice_append_left (by rwa [hd])]

theorem Inv.lt_nodes (h : Inv c Valid st busy) {i : Nat} (hi : st.table[i]? = some key) :
    i < st.dfa.nodes.length := h.length ▸ lt_of_getElem? hi

/-! ## Looking up or creating a node -/

section

variable (hc : Lawful c Valid) (h : Inv c Valid st busy) (hv : Valid key)
  (hbusy : ∀ i ∈ busy, i < st.dfa.nodes.length)

include hc h hv hbusy

theorem Inv.create (hnew : ∀ k ∈ st.table, c.same k key = false) {actions : List Nat}
    {actionsLength : Nat}
    (ha : c.actions st.dfa.nodes.length key = some (actions, actionsLength)) :
    Inv c Valid
      { dfa := { st.dfa with
          nodes := st.dfa.nodes ++
            [{ actionsStart := st.dfa.actions.length, actionsLength := actionsLength }]
          actions := st.dfa.actions ++ actions }
        table := st.table ++ [key]
        unprocessed := (key, st.dfa.nodes.length) :: st.unprocessed } busy := by
  have hop : ∀ i ∈ st.unprocessed.map Prod.snd ++ busy, i < st.dfa.nodes.length := by
    refine forall_mem_append.mpr ⟨fun i hi => ?_, hbusy⟩
    obtain ⟨ent, he, rfl⟩ := mem_map.mp hi
    exact h.lt_nodes (h.stack ent he)
  refine ⟨?_, h.root, h.destinations, ?_, ?_, ?_, ?_, ?_, ?_, ?_, ?_, ?_⟩
  · simp only [length_append, length_singleton, h.length]
  · exact forall_mem_append.mpr ⟨h.valid, forall_mem_singleton.mpr hv⟩
  · refine pairwise_append.mpr ⟨h.distinct, pairwise_singleton _ _, ?_⟩
    intro k hk k' hk'
    rw [mem_singleton.mp hk']
    exact hnew k hk
  · intro i node hi
    rcases getElem?_concat.mp hi with hi | ⟨rfl, rfl⟩
    · obtain ⟨hkld, hle', k, acts, hk, hac, hb, hslc⟩ := h.node i node hi
      refine ⟨hkld, hle', k, acts, getElem?_concat.mpr (.inl hk), hac, ?_, ?_⟩
      · rw [length_append]
        omega
      · rw [slice_append_left hb]
        exact hslc
    · refine ⟨rfl, Nat.zero_le _, key, actions,
        getElem?_concat.mpr (.inr ⟨h.length.symm, rfl⟩), ha, ?_, ?_⟩
      · exact Nat.le_of_eq length_append.symm
      · exact slice_append_right _ _
  · intro i j ni nj hij hi hj
    rcases getElem?_concat.mp hj with hj | ⟨rfl, rfl⟩
    · have hjlt := lt_of_getElem? hj
      have hi := (getElem?_concat.mp hi).resolve_right (by omega)
      exact h.actionsApart i j ni nj hij hi hj
    -- the actions of earlier nodes end before those of the new one
    have hi := (getElem?_concat.mp hi).resolve_right (by omega)
    obtain ⟨_, _, k, acts, _, hac, hb, _⟩ := h.node i ni hi
    have := hc.actions_le i k acts _ hac
    show ni.actionsStart + ni.actionsLength ≤ st.dfa.actions.length
    omega
  · intro i j ni nj hij hi hj k hki hkj
    rcases getElem?_concat.mp hi with hi | ⟨_, rfl⟩
    · rcases getElem?_concat.mp hj with hj | ⟨_, rfl⟩
      · exact h.transitionsApart i j ni nj hij hi hj k hki hkj
      · exact absurd hkj.2 (Nat.not_lt.mpr (Nat.zero_le _))
    · exact absurd hki.2 (Nat.not_lt.mpr (Nat.zero_le _))
  · exact forall_mem_cons.mpr ⟨getElem?_concat.mpr (.inr ⟨h.length.symm, rfl⟩),
      fun ent he => getElem?_concat.mpr (.inl (h.stack ent he))⟩
  · show (st.dfa.nodes.length :: (st.unprocessed.map Prod.snd ++ busy)).Nodup
    refine nodup_cons.mpr ⟨?_, h.open_nodup⟩
    intro hm
    exact absurd (hop _ hm) (Nat.lt_irrefl _)
  · intro i hi node hnd
    rcases getElem?_concat.mp hnd with hnd | ⟨_, rfl⟩
    · rcases mem_cons.mp hi with rfl | hi
      · exact absurd (lt_of_getElem? hnd) (Nat.lt_irrefl _)
      · exact h.open_node i hi node hnd
    · rfl
  · intro i node k hi hk hn
    rcases getElem?_concat.mp hi with hi | ⟨rfl, rfl⟩
    · have hilt := lt_of_getElem? hi
      have hl := h.length
      have hk := (getElem?_concat.mp hk).resolve_right (by omega)
      have hn : i ∉ st.unprocessed.map Prod.snd ++ busy := fun hm =>
        hn (mem_cons_of_mem _ hm)
      refine (h.closed_node i node k hi hk hn).mono ?_
      intro j key' hj
      exact getElem?_concat.mpr (.inl hj)
    · exact absurd mem_cons_self hn

theorem Inv.getOrCreate {index : Nat} (heq : c.getOrCreateNode st key = some (index, st')) :
    Inv c Valid st' busy ∧ Extends st st' ∧
      st'.dfa.transitionRanges = st.dfa.transitionRanges ∧
      ∃ k, st'.table[index]? = some k ∧ c.same k key = true := by
  unfold getOrCreateNode at heq
  cases hfn : st.table.findIdx? fun k => c.same k key with
  | some i =>
    rw [hfn] at heq
    cases heq
    obtain ⟨hlt, hsm, _⟩ := findIdx?_eq_some_iff_getElem.mp hfn
    exact ⟨h, Extends.refl st, rfl, _, getElem?_eq_getElem hlt, hsm⟩
  | none =>
    rw [hfn] at heq
    obtain ⟨⟨acts, actionsLength⟩, ha, heq⟩ := bind_eq_some_iff.mp heq
    cases heq
    have hnew : ∀ k ∈ st.table, c.same k (c.stored st.dfa.nodes.length key) = false := by
      intro k hk
      rw [hc.same_stored]
      exact findIdx?_eq_none_iff.mp hfn k hk
    refine ⟨Inv.create hc h (hc.stored_valid _ _ hv) hbusy hnew ha, ?_, rfl,
      c.stored st.dfa.nodes.length key, ?_, hc.stored_same _ _ hv⟩
    · refine ⟨⟨_, rfl⟩, ⟨_, rfl, ?_⟩, ⟨[], (append_nil _).symm⟩, ⟨[], (append_nil _).symm⟩, ?_⟩
      · intro node hnd
        rw [mem_singleton.mp hnd]
      simp only [length_cons, length_append, length_nil]
      omega
    · exact getElem?_concat.mpr (.inr ⟨h.length.symm, rfl⟩)

end

theorem getOrCreateNode_eq_none (heq : c.getOrCreateNode st key = none) :
    ∃ i, c.actions i (c.stored i key) = none := by
  unfold getOrCreateNode at heq
  split at heq
  case h_1 => cases heq
  case h_2 =>
    cases ha : c.actions st.dfa.nodes.length (c.stored st.dfa.nodes.length key) with
    | none => exact ⟨_, ha⟩
    | some pair =>
      dsimp only at heq
      rw [ha] at heq
      cases heq

/-! ## The transitions of a node -/

theorem Inv.addRange (h : Inv c Valid st busy) (rng : CharRange) (tgt : Nat) :
    Inv c Valid { st with dfa := { st.dfa with
      transitionRanges := st.dfa.transitionRanges ++ [rng]
      transitionDestinations := st.dfa.transitionDestinations ++ [tgt] } } busy := by
  refine ⟨h.length, h.root, ?_, h.valid, h.distinct, ?_, h.actionsApart, h.transitionsApart,
    h.stack, h.open_nodup, h.open_node, ?_⟩
  · simp only [length_append, length_singleton, h.destinations]
  · intro i node hi
    obtain ⟨hkld, hle, hrest⟩ := h.node i node hi
    refine ⟨hkld, ?_, hrest⟩
    show _ ≤ (st.dfa.transitionRanges ++ [rng]).length
    rw [length_append]
    omega
  · intro i node key hi hk hn
    have heq : node.transitions { st.dfa with
        transitionRanges := st.dfa.transitionRanges ++ [rng]
        transitionDestinations := st.dfa.transitionDestinations ++ [tgt] } =
        node.transitions st.dfa :=
      transitions_append (h.node i node hi).2.1 h.destinations ⟨_, rfl⟩ ⟨_, rfl⟩
    show Targets c st.table (c.transitions key) (node.transitions _)
    rw [heq]
    exact h.closed_node i node key hi hk hn

theorem Extends.nodes_le (h : Extends st st') (hi : Inv c Valid st busy)
    (hi' : Inv c Valid st' busy) :
    st.dfa.nodes.length ≤ st'.dfa.nodes.length := by
  obtain ⟨more, hmr⟩ := h.table
  rw [← hi.length, ← hi'.length, hmr, length_append]
  omega

section Steps

variable (hc : Lawful c Valid)
include hc

variable {st st' : ConstructionState κ} {key : κ} {index : Nat}

theorem Inv.addTransitions {busy : List Nat} (ranges : List (Range κ))
    (hv : ∀ r ∈ ranges, Valid r.data) (h : Inv c Valid st busy)
    (hbusy : ∀ i ∈ busy, i < st.dfa.nodes.length) (heq : c.addTransitions ranges st = some st') :
    Inv c Valid st' busy ∧ Extends st st' ∧ ∃ targets,
      st'.dfa.transitionRanges =
        st.dfa.transitionRanges ++ ranges.map (fun r => ⟨r.first, r.last⟩) ∧
      st'.dfa.transitionDestinations = st.dfa.transitionDestinations ++ targets ∧
      List.Forall₂ (fun r t => ∃ key, st'.table[t]? = some key ∧ c.same key r.data = true)
        ranges targets := by
  induction ranges generalizing st with
  | nil =>
    cases heq
    exact ⟨h, Extends.refl _, [], (append_nil _).symm, (append_nil _).symm, nil⟩
  | cons rng rest ih =>
    obtain ⟨⟨tgt, st₁⟩, hg, hrest⟩ := bind_eq_some_iff.mp heq
    obtain ⟨h₁, hext₁, hrgs₁, key, hk, hsm⟩ := Inv.getOrCreate hc h (hv rng mem_cons_self) hbusy hg
    have hdest₁ : st₁.dfa.transitionDestinations = st.dfa.transitionDestinations := by
      obtain ⟨more, hmr⟩ := hext₁.destinations
      have hl := h₁.destinations
      rw [hrgs₁, ← h.destinations, hmr, length_append] at hl
      rw [hmr, length_eq_zero_iff.mp (by omega : more.length = 0), append_nil]
    obtain ⟨h', hext', targets, hr', hd', htgs⟩ :=
      ih (forall_mem_cons.mp hv).2 (h₁.addRange _ tgt)
        (fun i hi => Nat.lt_of_lt_of_le (hbusy i hi) (hext₁.nodes_le h h₁)) hrest
    rw [hrgs₁, append_assoc] at hr'
    rw [hdest₁, append_assoc] at hd'
    refine ⟨h', ⟨?_, ?_, ⟨_, hr'⟩, ⟨_, hd'⟩, ?_⟩, tgt :: targets, hr', hd', ?_⟩
    · obtain ⟨more, hmr⟩ := hext₁.table
      obtain ⟨more', hmr'⟩ := hext'.table
      exact ⟨more ++ more', by rw [hmr', hmr, append_assoc]⟩
    · obtain ⟨more, hmr, hz⟩ := hext₁.nodes
      obtain ⟨more', hmr', hz'⟩ := hext'.nodes
      exact ⟨more ++ more', by rw [hmr', hmr, append_assoc], forall_mem_append.mpr ⟨hz, hz'⟩⟩
    · have h1 := hext₁.open_nodes
      have h2 := hext'.open_nodes
      dsimp only at h2
      omega
    · exact cons ⟨key, hext'.get hk, hsm⟩ htgs

omit hc in
theorem addTransitions_eq_none (ranges : List (Range κ)) (heq : c.addTransitions ranges st = none) :
    ∃ r ∈ ranges, ∃ i, c.actions i (c.stored i r.data) = none := by
  induction ranges generalizing st with
  | nil => cases heq
  | cons rng rest ih =>
    unfold addTransitions at heq
    cases hg : c.getOrCreateNode st rng.data with
    | none => exact ⟨rng, mem_cons_self, getOrCreateNode_eq_none hg⟩
    | some pair =>
      rw [hg] at heq
      obtain ⟨r, hr, hno⟩ := ih heq
      exact ⟨r, mem_cons_of_mem _ hr, hno⟩

omit hc in
theorem Inv.pop {rest : List (κ × Nat)} (h : Inv c Valid st [])
    (hs : st.unprocessed = (key, index) :: rest) :
    Inv c Valid { st with unprocessed := rest } [index] ∧ st.table[index]? = some key ∧
      Valid key := by
  have hop : st.unprocessed.map Prod.snd ++ [] = index :: rest.map Prod.snd := by
    rw [hs, append_nil]
    rfl
  have hm : ∀ i, i ∈ rest.map Prod.snd ++ [index] ↔ i ∈ st.unprocessed.map Prod.snd ++ [] := by
    intro i
    rw [hop, mem_append, mem_singleton, mem_cons, or_comm]
  have hstk := h.stack
  rw [hs] at hstk
  obtain ⟨hk, hrest⟩ := forall_mem_cons.mp hstk
  refine ⟨⟨h.length, h.root, h.destinations, h.valid, h.distinct, h.node, h.actionsApart,
    h.transitionsApart, hrest, ?_, ?_, ?_⟩, hk, h.valid key (mem_of_getElem? hk)⟩
  · have hnd := h.open_nodup
    rw [hop] at hnd
    exact nodup_append_comm.mp hnd
  · intro i hi
    exact h.open_node i ((hm i).mp hi)
  · intro i node k hi hk hn
    exact h.closed_node i node k hi hk fun hm' => hn ((hm i).mpr hm')

theorem Inv.process (h : Inv c Valid st [index]) (hkey : st.table[index]? = some key)
    (hkv : Valid key) (heq : c.processNode st key index = some st') :
    Inv c Valid st' [] ∧ (∃ more, st'.table = st.table ++ more) ∧
      st'.unprocessed.length + st.table.length = st.unprocessed.length + st'.table.length := by
  obtain ⟨st₁, ha, heq⟩ := bind_eq_some_iff.mp heq
  obtain ⟨node, hnd, heq⟩ := bind_eq_some_iff.mp heq
  have hbusy : ∀ i ∈ [index], i < st.dfa.nodes.length :=
    forall_mem_singleton.mpr (h.lt_nodes hkey)
  obtain ⟨h₁, hext₁, targets, hr₁, hd₁, htgs⟩ :=
    Inv.addTransitions hc _ (hc.next_valid key hkv) h hbusy ha
  have hkey₁ := hext₁.get hkey
  have htl := htgs.length_eq
  have hidx := lt_of_getElem? hnd
  have hcnt : st₁.dfa.transitionRanges.length - st.dfa.transitionRanges.length =
      (c.transitions key).length := by
    rw [hr₁, length_append, length_map]
    omega
  rw [hcnt, Nat.mod_eq_of_lt (hc.length_lt hkv)] at heq
  set updated : DFANode := { node with
    transitionsStart := st.dfa.transitionRanges.length
    transitionsLength := (c.transitions key).length }
  cases heq
  -- the transitions that the node now refers to
  have hnew : updated.transitions st₁.dfa =
      List.zipWith (fun r t => ⟨r.first, r.last, t⟩) (c.transitions key) targets := by
    unfold DFANode.transitions
    have h1 : slice st₁.dfa.transitionRanges st.dfa.transitionRanges.length
        (c.transitions key).length = (c.transitions key).map fun r => ⟨r.first, r.last⟩ := by
      rw [hr₁]
      have := slice_append_right st.dfa.transitionRanges
        ((c.transitions key).map fun r => (⟨r.first, r.last⟩ : CharRange))
      rwa [length_map] at this
    have h2 : slice st₁.dfa.transitionDestinations st.dfa.transitionRanges.length
        (c.transitions key).length = targets := by
      rw [hd₁, ← h.destinations, htl]
      exact slice_append_right _ _
    rw [h1, h2, zipWith_map_left]
  have hg : ∀ i n, (st₁.dfa.nodes.set index updated)[i]? = some n →
      (i = index ∧ n = updated) ∨ (i ≠ index ∧ st₁.dfa.nodes[i]? = some n) := by
    intro i n hi
    by_cases hii : index = i
    · subst hii
      rw [getElem?_set_self hidx] at hi
      exact .inl ⟨rfl, (some.inj hi).symm⟩
    · rw [getElem?_set_ne hii] at hi
      exact .inr ⟨fun h => hii h.symm, hi⟩
  -- no other node refers to the new transitions
  have hfre : ∀ i n, i ≠ index → st₁.dfa.nodes[i]? = some n → ∀ k, DFA.InTransitions n k →
      k < st.dfa.transitionRanges.length := by
    intro i n hne hi k hk
    obtain ⟨more, hmr, hz⟩ := hext₁.nodes
    rw [hmr] at hi
    rcases Nat.lt_or_ge i st.dfa.nodes.length with hlt | hge
    · rw [getElem?_append_left hlt] at hi
      exact Nat.lt_of_lt_of_le hk.2 (h.node i n hi).2.1
    rw [getElem?_append_right hge] at hi
    have := hz n (mem_of_getElem? hi)
    have := hk.1
    have := hk.2
    omega
  refine ⟨⟨?_, h₁.root, h₁.destinations, h₁.valid, h₁.distinct, ?_, ?_, ?_, h₁.stack, ?_, ?_, ?_⟩,
    hext₁.table, hext₁.open_nodes⟩
  · show st₁.table.length = (st₁.dfa.nodes.set index _).length
    rw [length_set]
    exact h₁.length
  · intro i n hi
    rcases hg i n hi with ⟨rfl, rfl⟩ | ⟨_, hi⟩
    · obtain ⟨hkld, _, hrest⟩ := h₁.node i node hnd
      refine ⟨hkld, ?_, hrest⟩
      show st.dfa.transitionRanges.length + (c.transitions key).length ≤
        st₁.dfa.transitionRanges.length
      exact Nat.le_of_eq (by rw [hr₁, length_append, length_map])
    · exact h₁.node i n hi
  · -- the actions of the node are the same as before
    intro i j ni nj hij hi hj
    rcases hg i ni hi with ⟨rfl, rfl⟩ | ⟨_, hold⟩
    · rcases hg j nj hj with ⟨rfl, rfl⟩ | ⟨_, hj⟩
      · exact absurd hij (Nat.lt_irrefl _)
      · exact h₁.actionsApart i j node nj hij hnd hj
    · rcases hg j nj hj with ⟨rfl, rfl⟩ | ⟨_, hj⟩
      · exact h₁.actionsApart i j ni node hij hold hnd
      · exact h₁.actionsApart i j ni nj hij hold hj
  · intro i j ni nj hij hi hj k hki hkj
    rcases hg i ni hi with ⟨rfl, rfl⟩ | ⟨hine, hold⟩
    · rcases hg j nj hj with ⟨rfl, rfl⟩ | ⟨hjne, hj⟩
      · exact hij rfl
      · exact absurd (hfre j nj hjne hj k hkj) (Nat.not_lt.mpr hki.1)
    · rcases hg j nj hj with ⟨rfl, rfl⟩ | ⟨_, hj⟩
      · exact absurd (hfre i ni hine hold k hki) (Nat.not_lt.mpr hkj.1)
      · exact h₁.transitionsApart i j ni nj hij hold hj k hki hkj
  · rw [append_nil]
    exact (nodup_append.mp h₁.open_nodup).1
  · intro i hi n hn
    rw [append_nil] at hi
    rcases hg i n hn with ⟨rfl, rfl⟩ | ⟨_, hn⟩
    · have hne := (nodup_append.mp h₁.open_nodup).2.2 i hi i (mem_singleton.mpr rfl)
      exact absurd rfl hne
    · exact h₁.open_node i (mem_append_left _ hi) n hn
  · intro i n k hi hk hnot
    rw [append_nil] at hnot
    rcases hg i n hi with ⟨rfl, rfl⟩ | ⟨hne, hi⟩
    · obtain rfl := Option.some.inj (hkey₁.symm.trans hk)
      show Targets c st₁.table (c.transitions key) (DFANode.transitions _ st₁.dfa)
      rw [hnew]
      exact targets_zipWith htgs
    · refine h₁.closed_node i n k hi hk ?_
      intro hm
      rcases mem_append.mp hm with hm | hm
      · exact hnot hm
      · exact hne (mem_singleton.mp hm)

omit hc in
theorem processNode_eq_none (h : ∀ st', c.addTransitions (c.transitions key) st = some st' →
      index < st'.dfa.nodes.length) (heq : c.processNode st key index = none) :
    ∃ r ∈ c.transitions key, ∃ i, c.actions i (c.stored i r.data) = none := by
  unfold processNode at heq
  cases ha : c.addTransitions (c.transitions key) st with
  | none => exact addTransitions_eq_none _ ha
  | some st₁ =>
    rw [ha] at heq
    have hg := getElem?_eq_getElem (h st₁ ha)
    simp only [bind_eq_bind, bind_some, hg] at heq
    cases heq

/-- The loop keeps the invariant, and ends with an empty stack. -/
theorem Inv.processAll (fuel : Nat) (h : Inv c Valid st [])
    (heq : c.processAll fuel st = some st') :
    Inv c Valid st' [] ∧ st'.unprocessed = [] ∧ ∃ more, st'.table = st.table ++ more := by
  induction fuel generalizing st with
  | zero => cases heq
  | succ fuel ih =>
    unfold Construction.processAll at heq
    cases hs : st.unprocessed with
    | nil =>
      rw [hs] at heq
      cases heq
      exact ⟨h, hs, [], (append_nil _).symm⟩
    | cons ent rest =>
      obtain ⟨key, index⟩ := ent
      rw [hs] at heq
      obtain ⟨st₁, hpr, hrest⟩ := bind_eq_some_iff.mp heq
      obtain ⟨hpop, hk, hvld⟩ := h.pop hs
      obtain ⟨h₁, ⟨more₁, hmr₁⟩, _⟩ := Inv.process hc hpop hk hvld hpr
      obtain ⟨h', hnil, more', hmr'⟩ := ih h₁ hrest
      exact ⟨h', hnil, more₁ ++ more', by rw [hmr', hmr₁, append_assoc]⟩

/-- With enough fuel the loop ends, unless a key that it met has no actions. -/
theorem Inv.processAll_eq_none (bound : Nat) (hb : ∀ keys : List κ, (∀ k ∈ keys, Valid k) →
      keys.Pairwise (fun k k' => c.same k k' = false) → keys.length ≤ bound) (fuel : Nat)
    (h : Inv c Valid st []) (hfl : bound + st.unprocessed.length < fuel + st.table.length)
    (heq : c.processAll fuel st = none) : ∃ key, Valid key ∧ ∃ i, c.actions i key = none := by
  induction fuel generalizing st with
  | zero =>
    have := hb st.table h.valid h.distinct
    omega
  | succ fuel ih =>
    unfold Construction.processAll at heq
    cases hs : st.unprocessed with
    | nil =>
      rw [hs] at heq
      cases heq
    | cons ent rest =>
      obtain ⟨key, index⟩ := ent
      rw [hs] at heq
      obtain ⟨hpop, hk, hvld⟩ := h.pop hs
      cases hpr : c.processNode { st with unprocessed := rest } key index with
      | none =>
        obtain ⟨r, hr, i, hno⟩ := processNode_eq_none (by
          intro st' ha
          obtain ⟨h', hext, _⟩ := Inv.addTransitions hc _ (hc.next_valid key hvld) hpop
            (forall_mem_singleton.mpr (h.lt_nodes hk)) ha
          exact Nat.lt_of_lt_of_le (h.lt_nodes hk) (hext.nodes_le hpop h')) hpr
        exact ⟨c.stored i r.data, hc.stored_valid i _ (hc.next_valid key hvld r hr), i, hno⟩
      | some st₁ =>
        dsimp only at heq
        rw [hpr] at heq
        obtain ⟨h₁, _, hop⟩ := Inv.process hc hpop hk hvld hpr
        refine ih h₁ ?_ heq
        rw [hs, length_cons] at hfl
        dsimp only at hop
        omega

end Steps

/-! ## The result -/

/-- The automaton, and for each node the key it stands for. -/
structure Built (c : Construction κ) (Valid : κ → Prop) (root : κ) (table : List κ)
    (dfa : DFA) : Prop where
  wellFormed : dfa.WellFormed
  live : ∀ (i : Nat) (node : DFANode), dfa.nodes[i]? = some node → node.isKilled = false
  length : table.length = dfa.nodes.length
  root_key : ∃ key, table[dfa.root]? = some key ∧ c.same key root = true
  valid : ∀ key ∈ table, Valid key
  actions : ∀ i key, table[i]? = some key → ∃ actions length,
    c.actions i key = some (actions, length) ∧ dfa.actionsOf i = actions.take length
  transitions : ∀ i key, table[i]? = some key →
    Targets c table (c.transitions key) (dfa.transitionsOf i)

theorem Targets.sorted (h : Targets c table ranges transitions) (hs : Sorted ranges) :
    Sorted transitions := by
  induction h with
  | nil => exact sorted_nil
  | @cons r t ranges transitions hhd htl ih =>
    obtain ⟨hne, hap, hrest⟩ := sorted_cons.mp hs
    refine sorted_cons.mpr ⟨by omega, ?_, ih hrest⟩
    intro t' ht'
    obtain ⟨r', hr', hfst, _⟩ := Targets.mem htl ht'
    have := hap r' hr'
    omega

theorem Targets.find (h : Targets c table ranges transitions) (ch : Nat) :
    (RangeOverlay.find transitions ch = none ∧ RangeOverlay.find ranges ch = none) ∨
      ∃ i key k, RangeOverlay.find transitions ch = some i ∧
        RangeOverlay.find ranges ch = some k ∧ table[i]? = some key ∧
        c.same key k = true := by
  induction h with
  | nil => exact .inl ⟨rfl, rfl⟩
  | @cons r t ranges transitions hhd _ ih =>
    obtain ⟨hfst, hls, key, hk, hsm⟩ := hhd
    have hi : t.Covers ch ↔ r.Covers ch := by
      unfold Range.Covers
      rw [hfst, hls]
    by_cases hc : r.Covers ch
    · exact .inr ⟨t.data, key, r.data, find_cons_pos (hi.mpr hc), find_cons_pos hc, hk, hsm⟩
    · rw [find_cons_neg hc, find_cons_neg fun h => hc (hi.mp h)]
      exact ih

/-- **The construction.** When it succeeds, every node has the actions and the
transitions of its key. -/
theorem build_spec (hc : Lawful c Valid) {fuel : Nat} (hrt : Valid root)
    (heq : c.build fuel root = some dfa) :
    ∃ table, Built c Valid root table dfa := by
  obtain ⟨⟨index, st₁⟩, hg, heq⟩ := bind_eq_some_iff.mp heq
  obtain ⟨st, ha, heq⟩ := bind_eq_some_iff.mp heq
  cases heq
  obtain ⟨h₁, hext₁, _, key, hkey, hsm⟩ := Inv.getOrCreate hc inv_empty hrt (forall_mem_nil _) hg
  obtain ⟨h, hnil, more, hmr⟩ := Inv.processAll hc fuel h₁ ha
  have hidx : index = 0 := by
    obtain ⟨_, _, ⟨⟩⟩ := bind_eq_some_iff.mp hg
    rfl
  subst hidx
  have hg' : ∀ (i : Nat) k, st₁.table[i]? = some k → st.table[i]? = some k := by
    intro i k hi
    rw [hmr, getElem?_append_left (lt_of_getElem? hi)]
    exact hi
  -- every node has its key, and its transitions have been set
  have hnd : ∀ (i : Nat) k, st.table[i]? = some k → ∃ node, st.dfa.nodes[i]? = some node := by
    exact fun i k hi => ⟨_, getElem?_eq_getElem (h.lt_nodes hi)⟩
  have hcld : ∀ (i : Nat) k, st.table[i]? = some k →
      Targets c st.table (c.transitions k) (st.dfa.transitionsOf i) := by
    intro i k hi
    obtain ⟨node, hn⟩ := hnd i k hi
    rw [DFA.transitionsOf_eq hn]
    refine h.closed_node i node k hn hi ?_
    rw [hnil]
    exact not_mem_nil
  have hkeyOf : ∀ (i : Nat) node, st.dfa.nodes[i]? = some node → ∃ k, st.table[i]? = some k := by
    intro i node hi
    obtain ⟨_, _, k, _, hk, _⟩ := h.node i node hi
    exact ⟨k, hk⟩
  have hlv : ∀ (i : Nat) k, st.table[i]? = some k → st.dfa.Live i := by
    intro i k hi
    obtain ⟨node, hn⟩ := hnd i k hi
    exact ⟨node, hn, (h.node i node hn).1⟩
  have hb : ∀ (i : Nat) node, st.dfa.nodes[i]? = some node →
      node.actionsStart + node.actionsLength ≤ st.dfa.actions.length := by
    intro i node hi
    obtain ⟨_, _, k, acts, _, hac, hle, _⟩ := h.node i node hi
    have := hc.actions_le i k acts _ hac
    omega
  refine ⟨st.table, ⟨⟨?_, h.destinations, ?_, ?_, ?_, ?_, ?_, ?_⟩, ?_⟩, ?_, h.length, ?_, h.valid,
    ?_, hcld⟩
  · rw [h.root]
    exact hlv 0 key (hg' 0 key hkey)
  · rintro i node ⟨hi, _⟩
    exact hb i node hi
  · rintro i node ⟨hi, _⟩
    exact (h.node i node hi).2.1
  · rintro i ⟨node, hi, _⟩
    obtain ⟨k, hk⟩ := hkeyOf i node hi
    exact (hcld i k hk).sorted (hc.sorted k (h.valid k (mem_of_getElem? hk)))
  · rintro i ⟨node, hi, _⟩ t ht
    obtain ⟨k, hk⟩ := hkeyOf i node hi
    obtain ⟨_, _, _, _, k', hk', _⟩ := (hcld i k hk).mem ht
    exact hlv _ k' hk'
  · rintro i j ni nj hij ⟨hi, _⟩ ⟨hj, _⟩ k hki hkj
    have h1 := hki.1
    have h2 := hki.2
    have h3 := hkj.1
    have h4 := hkj.2
    rcases Nat.lt_or_gt_of_ne hij with hlt | hgt
    · have := h.actionsApart i j ni nj hlt hi hj
      omega
    · have := h.actionsApart j i nj ni hgt hj hi
      omega
  · rintro i j ni nj hij ⟨hi, _⟩ ⟨hj, _⟩
    exact h.transitionsApart i j ni nj hij hi hj
  · rintro i ⟨node, hi, _⟩ t ht
    obtain ⟨k, hk⟩ := hkeyOf i node hi
    obtain ⟨r, hr, _, hls, _⟩ := (hcld i k hk).mem ht
    rw [hls]
    exact hc.ascii k (h.valid k (mem_of_getElem? hk)) r hr
  · intro i node hi
    exact (h.node i node hi).1
  · refine ⟨key, ?_, hsm⟩
    rw [h.root]
    exact hg' 0 key hkey
  · intro i k hk
    obtain ⟨node, hn⟩ := hnd i k hk
    obtain ⟨_, _, k', acts, hk', hac, _, hslc⟩ := h.node i node hn
    obtain rfl := Option.some.inj (hk.symm.trans hk')
    refine ⟨acts, node.actionsLength, hac, ?_⟩
    rw [DFA.actionsOf_eq hn]
    unfold DFANode.actions
    rw [slice_take (hc.actions_le i k acts _ hac), hslc]

/-- **Termination.** With fuel for every key it succeeds, unless a key that it met has no actions.
-/
theorem build_eq_none (hc : Lawful c Valid) {bound : Nat}
    (hb : ∀ keys : List κ, (∀ k ∈ keys, Valid k) →
      keys.Pairwise (fun k k' => c.same k k' = false) → keys.length ≤ bound) (hrt : Valid root)
    (heq : c.build (bound + 1) root = none) :
    ∃ key, Valid key ∧ ∃ i, c.actions i key = none := by
  unfold build at heq
  cases hg : c.getOrCreateNode {} root with
  | none =>
    obtain ⟨i, hno⟩ := getOrCreateNode_eq_none hg
    exact ⟨c.stored i root, hc.stored_valid i root hrt, i, hno⟩
  | some pair =>
    obtain ⟨index, st₁⟩ := pair
    obtain ⟨h₁, hext₁, _⟩ := Inv.getOrCreate hc inv_empty hrt (forall_mem_nil _) hg
    rw [hg] at heq
    cases ha : c.processAll (bound + 1) st₁ with
    | none =>
      refine Inv.processAll_eq_none hc bound hb (bound + 1) h₁ ?_ ha
      have hop : st₁.unprocessed.length + 0 = 0 + st₁.table.length := hext₁.open_nodes
      omega
    | some st =>
      simp only [bind_eq_bind, bind_some, ha] at heq
      cases heq

/-! ## Runs of the result -/

/-- A run of a deterministic system with states `S`. -/
def abstractRun {S : Type*} (step : S → Nat → Option S) : S → List Nat → Option S
  | s, [] => some s
  | s, ch :: rest => (step s ch).bind fun next => abstractRun step next rest

theorem abstractRun_append {S : Type*} (step : S → Nat → Option S) (s : S) (v w : List Nat) :
    abstractRun step s (v ++ w) = (abstractRun step s v).bind fun t => abstractRun step t w := by
  induction v generalizing s with
  | nil => rfl
  | cons ch rest ih =>
    rw [cons_append, abstractRun, abstractRun]
    cases step s ch with
    | none => rfl
    | some next => exact ih next

/-- **Runs.** If the keys stand for the states of a deterministic system and their
transitions for its steps, the automaton runs as the system does. -/
theorem Built.run {S : Type*} (den : κ → S) (step : S → Nat → Option S)
    (h : Built c Valid root table dfa) (hsa : ∀ k k', c.same k k' = true → den k = den k')
    (hst : ∀ k, Valid k → ∀ ch, (find (c.transitions k) ch).map den = step (den k) ch)
    (w : List Nat) :
    (dfa.run w = none ∧ abstractRun step (den root) w = none) ∨
      ∃ i key, dfa.run w = some i ∧ table[i]? = some key ∧
        abstractRun step (den root) w = some (den key) := by
  -- from any node, the run is that of the state its key stands for
  have key : ∀ (w : List Nat) (i : Nat) (k : κ), table[i]? = some k →
      (dfa.runFrom i w = none ∧ abstractRun step (den k) w = none) ∨
        ∃ j k', dfa.runFrom i w = some j ∧ table[j]? = some k' ∧
          abstractRun step (den k) w = some (den k') := by
    intro w
    induction w with
    | nil => intro i k hk; exact .inr ⟨i, k, rfl, hk, rfl⟩
    | cons ch rest ih =>
      intro i k hk
      have hs := hst k (h.valid k (mem_of_getElem? hk)) ch
      rw [DFA.runFrom_cons, abstractRun, DFA.step, ← hs]
      rcases (h.transitions i k hk).find ch with ⟨h1, h2⟩ | ⟨j, k₁, k₂, h1, h2, hk₁, hsm⟩
      · rw [h1, h2]
        exact .inl ⟨rfl, rfl⟩
      · rw [h1, h2]
        simp only [map_some, bind_some]
        rw [← hsa k₁ k₂ hsm]
        exact ih j k₁ hk₁
  obtain ⟨k, hk, hsm⟩ := h.root_key
  rw [← hsa k root hsm]
  exact key w dfa.root k hk

end Construction

end WebKit.ContentExtensions
