import WebKit.Lib.CountingSort
import WebKit.ContentExtensions.DFAMinimizer

/-!
# The graph that the minimizer works on

What the constructor of `FullGraphPartition` builds. A range of a node contains a singular range or
is apart from it (`CountedRanges.same`), so a transition on it stands for those on all its
characters. 
-/

namespace WebKit.ContentExtensions

open RangeOverlay Vectors CountingSort List WebKit.ContentExtensions.Partition FullGraphPartition

/-! ## Singular ranges -/

/-- The number of lists that are defined at a character. -/
def definedCount (lists : List (List (Range Nat))) (c : Nat) : Nat :=
  lists.countP fun l => (find l c).isSome

/-- The ranges are cut finely enough for all lists, and count the lists that are
defined there. -/
structure CountedRanges (lists : List (List (Range Nat))) (ranges : List (Range Nat)) :
    Prop where
  sorted : Sorted ranges
  same : ∀ r ∈ ranges, ∀ c d, r.Covers c → r.Covers d → ∀ l ∈ lists, SameRange l c d
  count : ∀ c, find ranges c =
    if definedCount lists c = 0 then none else some (definedCount lists c)

theorem countedRanges_nil : CountedRanges [] [] := by
  refine ⟨sorted_nil, ?_, fun c => rfl⟩
  rintro r ⟨⟩

theorem definedCount_concat (lists : List (List (Range Nat))) (l : List (Range Nat)) (c : Nat) :
    definedCount (lists ++ [l]) c = definedCount lists c + if (find l c).isSome then 1 else 0 := by
  unfold definedCount
  rw [countP_append, countP_singleton]

variable {lists : List (List (Range Nat))}

theorem CountedRanges.not_covers {rgs l : List (Range Nat)} (h : CountedRanges lists rgs)
    {c : Nat} (hfn : find rgs c = none) (hl : l ∈ lists) :
    ∀ s ∈ l, ¬ s.Covers c := by
  have hz : definedCount lists c = 0 := by
    by_contra hne
    rw [h.count, if_neg hne] at hfn
    cases hfn
  exact find_eq_none_iff.mp (Option.not_isSome_iff_eq_none.mp (countP_eq_zero.mp hz l hl))

theorem CountedRanges.extend {rgs l : List (Range Nat)} (h : CountedRanges lists rgs)
    (hl : Sorted l) :
    CountedRanges (lists ++ [l])
      (overlay counterConverter.convert counterConverter.extend rgs l) := by
  refine ⟨overlay_sorted rgs l h.sorted hl, ?_, ?_⟩
  · intro r hr c d hc hd k hk
    obtain ⟨hrgs, hsm⟩ := overlay_sameRange rgs l h.sorted hl r hr c d hc hd
    rcases mem_append.mp hk with hk | hk
    · -- either both characters are in one of the old ranges, or no list is defined there
      cases hfn : find rgs c with
      | some a =>
        obtain ⟨s, hs, hsc, _⟩ := mem_of_find hfn
        exact h.same s hs c d hsc ((hrgs s hs).mp hsc) k hk
      | none =>
        have hfn' : find rgs d = none := by
          rw [find_eq_none_iff] at hfn ⊢
          exact fun s hs hsd => hfn s hs ((hrgs s hs).mpr hsd)
        exact fun s hs => iff_of_false (h.not_covers hfn hk s hs) (h.not_covers hfn' hk s hs)
    · rw [mem_singleton.mp hk]
      exact hsm
  · intro c
    rw [find_overlay rgs l h.sorted hl, h.count, definedCount_concat]
    by_cases hz : definedCount lists c = 0
    · rw [if_pos hz, hz, combine_none_left]
      cases find l c with
      | none => rfl
      | some a => rfl
    · rw [if_neg hz]
      cases find l c with
      | none => simp [hz]
      | some a => simp [combine, counterConverter]

/-- **Singular ranges.** They are cut finely enough for all nodes. -/
theorem singularTransitions_spec {dfa : DFA} (hlv : ∀ node ∈ dfa.nodes, node.isKilled = false)
    (hs : ∀ node ∈ dfa.nodes, Sorted (node.transitions dfa)) :
    CountedRanges (dfa.nodes.map fun node => node.transitions dfa)
      (singularTransitions dfa).toList := by
  -- from the right: the last node is merged in last
  have key : ∀ nds : List DFANode, (∀ node ∈ nds, node.isKilled = false) →
      (∀ node ∈ nds, Sorted (node.transitions dfa)) →
      CountedRanges (nds.map fun node => node.transitions dfa)
        (nds.foldl (fun rgs node =>
          if node.isKilled then rgs else rgs.extend counterConverter (node.transitions dfa))
          MutableRangeList.empty).toList := by
    intro nds
    induction nds using reverseRecOn with
    | nil =>
      intro _ _
      exact countedRanges_nil
    | append_singleton nds node ih =>
      intro hlv hs
      have hm : node ∈ nds ++ [node] := mem_append_right _ mem_cons_self
      have hnd : ¬ node.isKilled = true := by
        rw [hlv node hm]
        exact Bool.false_ne_true
      rw [foldl_concat, if_neg hnd, MutableRangeList.toList_extend, map_append]
      refine CountedRanges.extend (ih ?_ ?_) (hs node hm)
      · exact fun oth hoth => hlv oth (mem_append_left _ hoth)
      · exact fun oth hoth => hs oth (mem_append_left _ hoth)
  exact key dfa.nodes hlv hs

/-! ## Intersections -/

section Intersections

variable {firsts : List Nat}

theorem getElem?_lt_iff (hs : firsts.Pairwise (· < ·)) {i j f g : Nat}
    (hi : firsts[i]? = some f) (hj : firsts[j]? = some g) : i < j ↔ f < g := by
  obtain ⟨hi', rfl⟩ := List.getElem?_eq_some_iff.mp hi
  obtain ⟨hj', rfl⟩ := List.getElem?_eq_some_iff.mp hj
  exact hs.sortedLT.getElem_lt_getElem_iff.symm

theorem skipTo_spec {c j : Nat} {l : List Nat} (hs : l.Pairwise (· < ·)) (hj : l[j]? = some c)
    (idx : Nat) : skipTo c l idx = (l.drop j, idx + j) := by
  induction l generalizing j idx with
  | nil => cases hj
  | cons f l ih =>
    rw [skipTo]
    cases j with
    | zero =>
      cases hj
      exact if_neg (by simp)
    | succ j =>
      have hlt := rel_of_pairwise_cons hs (mem_of_getElem? hj)
      rw [if_pos hlt.ne, ih hs.of_cons hj, Nat.add_right_comm]
      rfl

/-- The second loop takes the singular ranges that start no later than the last
character. -/
theorem takeUpTo_spec (last : Nat) {l : List Nat} (hs : l.Pairwise (· < ·)) (idx : Nat) :
    ∃ n ≤ l.length, takeUpTo last l idx = (range' idx n, l.drop n, idx + n) ∧
      ∀ j f, l[j]? = some f → (f ≤ last ↔ j < n) := by
  induction l generalizing idx with
  | nil => exact ⟨0, le_rfl, rfl, by simp⟩
  | cons g l ih =>
    rw [takeUpTo]
    by_cases hls : g ≤ last
    · obtain ⟨n, hn, heq, hin⟩ := ih hs.of_cons (idx + 1)
      refine ⟨n + 1, Nat.succ_le_succ hn, ?_, ?_⟩
      · rw [if_pos hls, heq, Nat.add_right_comm]
        rfl
      · rintro (_ | j) f hf
        · cases hf
          simpa using hls
        · rw [Nat.succ_lt_succ_iff]
          exact hin j f hf
    · refine ⟨0, Nat.zero_le _, if_neg hls, fun j f hf => iff_of_false ?_ (Nat.not_lt_zero j)⟩
      rcases mem_cons.mp (mem_of_getElem? hf) with rfl | hm
      · exact hls
      · have := rel_of_pairwise_cons hs hm
        omega

/-- The calls of the handler for the transitions that are left, behind the singular ranges before
`index`. -/
theorem intersectionsFrom_spec (hfs : firsts.Pairwise (· < ·)) (ots : List (Range Nat))
    (hots : Sorted ots) (hsts : ∀ r ∈ ots, ∃ j : Nat, firsts[j]? = some r.first) :
    ∀ idx : Nat, (∀ j f : Nat, j < idx → firsts[j]? = some f → ∀ r ∈ ots, f < r.first) →
      (∀ (j : Nat) (r : Range Nat), (j, r) ∈ intersectionsFrom ots (firsts.drop idx) idx ↔
        r ∈ ots ∧ ∃ f, firsts[j]? = some f ∧ r.Covers f) ∧
      (intersectionsFrom ots (firsts.drop idx) idx).Pairwise (fun a b => a.1 < b.1) := by
  induction ots with
  | nil =>
    intro idx _
    exact ⟨fun j r => by simp [intersectionsFrom], List.Pairwise.nil⟩
  | cons oth ots ih =>
    intro idx hbef
    obtain ⟨hne, hapt, hrest⟩ := sorted_cons.mp hots
    obtain ⟨start, hs⟩ := hsts oth mem_cons_self
    have hi : idx ≤ start := by
      by_contra hlt
      have := hbef start oth.first (Nat.lt_of_not_le hlt) hs oth mem_cons_self
      omega
    obtain ⟨n, hn, htk, hin⟩ := takeUpTo_spec oth.last hfs.drop (start + 1)
    have hsr := lt_of_getElem? hs
    rw [length_drop] at hn
    -- the singular ranges of the transition are those from `start` up to `start + n`
    have hcov : ∀ j f, firsts[j]? = some f → (oth.Covers f ↔ start ≤ j ∧ j < start + (n + 1)) := by
      intro j f hf
      have hlow := getElem?_lt_iff hfs hf hs
      have hhg := getElem?_lt_iff hfs hs hf
      unfold Range.Covers
      rcases lt_or_ge start j with hlt | hge
      · have := hin (j - (start + 1)) f (by rwa [getElem?_drop, Nat.add_sub_cancel' hlt])
        omega
      · omega
    have hunf : intersectionsFrom (oth :: ots) (firsts.drop idx) idx =
        (range' start (n + 1)).map (fun j => (j, oth)) ++
          intersectionsFrom ots (firsts.drop (start + 1 + n)) (start + 1 + n) := by
      have hs' : (firsts.drop idx)[start - idx]? = some oth.first := by
        rwa [getElem?_drop, Nat.add_sub_cancel' hi]
      rw [intersectionsFrom, skipTo_spec hfs.drop hs', drop_drop, Nat.add_sub_cancel' hi]
      simp only [drop_drop, htk]
      rfl
    obtain ⟨hm, hpair⟩ := ih hrest (forall_mem_cons.mp hsts).2 (start + 1 + n) (by
      intro j f hj hf r hr
      have hls := hapt r hr
      by_cases hjs : j < start
      · have := (getElem?_lt_iff hfs hf hs).mp hjs
        omega
      · have := ((hcov j f hf).mpr ⟨not_lt.mp hjs, by omega⟩).2
        omega)
    rw [hunf]
    refine ⟨?_, ?_⟩
    · intro j r
      rw [mem_append, hm, mem_map]
      constructor
      · rintro (⟨j', hj', heq⟩ | ⟨hr, hf⟩)
        · cases heq
          rw [mem_range'_1] at hj'
          have hlt : j < firsts.length := by omega
          refine ⟨mem_cons_self, firsts[j], getElem?_eq_getElem hlt, ?_⟩
          exact (hcov j _ (getElem?_eq_getElem hlt)).mpr hj'
        · exact ⟨mem_cons_of_mem _ hr, hf⟩
      · rintro ⟨hr, f, hf, hc⟩
        rcases mem_cons.mp hr with rfl | hr
        · left
          exact ⟨j, mem_range'_1.mpr ((hcov j f hf).mp hc), rfl⟩
        · exact .inr ⟨hr, f, hf, hc⟩
    · rw [pairwise_append]
      refine ⟨?_, hpair, ?_⟩
      · rw [pairwise_map]
        exact pairwise_lt_range'
      · rintro ⟨a, ra⟩ ha ⟨b, rb⟩ hb
        obtain ⟨a', ha', ⟨⟩⟩ := mem_map.mp ha
        rw [mem_range'_1] at ha'
        obtain ⟨hrb, f, hf, hc⟩ := (hm b rb).mp hb
        -- a singular range of a later transition starts after this transition
        have halt : a < firsts.length := by omega
        have hfa := ((hcov a _ (getElem?_eq_getElem halt)).mpr ha').2
        have hls := hapt rb hrb
        have := hc.1
        exact (getElem?_lt_iff hfs (getElem?_eq_getElem halt) hf).mpr (by omega)

/-- **Intersections.** The handler is called once for every singular range of every transition, in
order. -/
theorem iterateIntersections_spec (hfs : firsts.Pairwise (· < ·)) {l : List (Range Nat)}
    (hl : Sorted l) (hsts : ∀ r ∈ l, ∃ j : Nat, firsts[j]? = some r.first) :
    (∀ (j : Nat) (r : Range Nat), (j, r) ∈ iterateIntersections firsts l ↔
      r ∈ l ∧ ∃ f, firsts[j]? = some f ∧ r.Covers f) ∧
    (iterateIntersections firsts l).Pairwise (fun a b => a.1 < b.1) :=
  intersectionsFrom_spec hfs l hl hsts 0 nofun

end Intersections

/-! ## The singular transitions of an automaton -/

/-- Sorted ranges that lead to nodes, actions that are there, and no killed node. -/
structure Minimizable (dfa : DFA) : Prop where
  live : ∀ node ∈ dfa.nodes, node.isKilled = false
  actions_le : ∀ node ∈ dfa.nodes, node.actionsStart + node.actionsLength ≤ dfa.actions.length
  sorted : ∀ i, Sorted (dfa.transitionsOf i)
  target_lt : ∀ i, ∀ r ∈ dfa.transitionsOf i, r.data < dfa.nodes.length

/-- The first characters of the singular ranges. -/
def singularFirsts (dfa : DFA) : List Nat := (singularTransitions dfa).toList.map (·.first)

/-- The singular transitions. -/
def edges (dfa : DFA) : List SingularTransition := allSingularTransitions (singularFirsts dfa) dfa

section Edges

variable {dfa : DFA} (h : Minimizable dfa)

theorem map_transitions_eq (dfa : DFA) : (dfa.nodes.map fun node => node.transitions dfa) =
      (range dfa.nodes.length).map dfa.transitionsOf := by
  refine ext_getElem? (fun i => ?_)
  rw [getElem?_map, getElem?_map]
  by_cases hi : i < dfa.nodes.length
  · rw [getElem?_range hi, getElem?_eq_getElem hi, Option.map_some, Option.map_some,
      DFA.transitionsOf_eq (getElem?_eq_getElem hi)]
  · rw [getElem?_eq_none (by omega), getElem?_eq_none (by simp; omega)]
    rfl

include h

theorem Minimizable.countedRanges :
    CountedRanges ((range dfa.nodes.length).map dfa.transitionsOf)
      (singularTransitions dfa).toList := by
  rw [← map_transitions_eq]
  refine singularTransitions_spec h.live ?_
  intro node hnd
  obtain ⟨i, hi⟩ := mem_iff_getElem?.mp hnd
  rw [← DFA.transitionsOf_eq hi]
  exact h.sorted i

theorem Minimizable.firsts_sorted : (singularFirsts dfa).Pairwise (· < ·) := by
  have hs := h.countedRanges.sorted
  unfold singularFirsts
  rw [pairwise_map]
  refine hs.apart.imp_of_mem ?_
  intro r s hr _ hrs
  exact lt_of_le_of_lt (hs.nonempty r hr) hrs

variable {s : Range Nat}

omit h in
theorem getElem?_singularFirsts {j : Nat} (hj : (singularTransitions dfa).toList[j]? = some s) :
    (singularFirsts dfa)[j]? = some s.first := by
  unfold singularFirsts
  rw [getElem?_map, hj, Option.map_some]

variable {r : Range Nat} {i : Nat}

omit h in
theorem transitionsOf_mem (hr : r ∈ dfa.transitionsOf i) :
    dfa.transitionsOf i ∈ (range dfa.nodes.length).map dfa.transitionsOf := by
  refine mem_map.mpr ⟨i, mem_range.mpr ?_, rfl⟩
  by_contra hlt
  have hnil : dfa.transitionsOf i = [] := by
    unfold DFA.transitionsOf
    rw [getElem?_eq_none (not_lt.mp hlt)]
  rw [hnil] at hr
  cases hr

theorem Minimizable.exists_singular {c : Nat} (hr : r ∈ dfa.transitionsOf i) (hc : r.Covers c) :
    ∃ (j : Nat) (s : Range Nat), (singularTransitions dfa).toList[j]? = some s ∧ s.Covers c ∧
      ∀ d, s.Covers d → r.Covers d := by
  have hctd := h.countedRanges
  have hm := transitionsOf_mem hr
  have hfn : find (singularTransitions dfa).toList c ≠ none := by
    intro hno
    exact hctd.not_covers hno hm r hr hc
  obtain ⟨a, ha⟩ := Option.ne_none_iff_exists'.mp hfn
  obtain ⟨s, hs, hsc, _⟩ := mem_of_find ha
  obtain ⟨j, hj⟩ := mem_iff_getElem?.mp hs
  refine ⟨j, s, hj, hsc, ?_⟩
  intro d hd
  exact (hctd.same s hs c d hsc hd _ hm r hr).mp hc

theorem Minimizable.exists_first (hr : r ∈ dfa.transitionsOf i) :
    ∃ j : Nat, (singularFirsts dfa)[j]? = some r.first := by
  have hne := (h.sorted i).nonempty r hr
  obtain ⟨j, s, hj, hs, hsub⟩ := h.exists_singular hr ⟨le_rfl, hne⟩
  have hfst : s.first = r.first := by
    have hsne := h.countedRanges.sorted.nonempty s (mem_of_getElem? hj)
    have := (hsub s.first ⟨le_rfl, hsne⟩).1
    have := hs.1
    omega
  exact ⟨j, hfst ▸ getElem?_singularFirsts hj⟩

theorem Minimizable.singularTransitionsOf_eq (hi : i < dfa.nodes.length) (firsts : List Nat) :
    singularTransitionsOf firsts dfa i =
      (iterateIntersections firsts (dfa.transitionsOf i)).map fun call =>
        ⟨call.1, i, call.2.data⟩ := by
  have hg := getElem?_eq_getElem hi
  have hlv : ¬ (dfa.nodes[i]).isKilled = true := by
    rw [h.live _ (getElem_mem hi)]
    exact Bool.false_ne_true
  unfold singularTransitionsOf
  rw [hg, DFA.transitionsOf_eq hg]
  exact if_neg hlv

theorem Minimizable.intersections (i : Nat) : (∀ (j : Nat) (r : Range Nat),
      (j, r) ∈ iterateIntersections (singularFirsts dfa) (dfa.transitionsOf i) ↔
        r ∈ dfa.transitionsOf i ∧ ∃ f, (singularFirsts dfa)[j]? = some f ∧ r.Covers f) ∧
    (iterateIntersections (singularFirsts dfa) (dfa.transitionsOf i)).Pairwise
      (fun a b => a.1 < b.1) :=
  iterateIntersections_spec h.firsts_sorted (h.sorted i) (fun _ hr => h.exists_first hr)

theorem Minimizable.mem_edges (t : SingularTransition) :
    t ∈ edges dfa ↔ t.source < dfa.nodes.length ∧ ∃ r ∈ dfa.transitionsOf t.source,
      r.data = t.target ∧ ∃ f, (singularFirsts dfa)[t.singular]? = some f ∧ r.Covers f := by
  unfold edges allSingularTransitions
  rw [mem_flatMap]
  constructor
  · rintro ⟨i, hi, ht⟩
    rw [mem_range] at hi
    rw [h.singularTransitionsOf_eq hi, mem_map] at ht
    obtain ⟨⟨j, r⟩, hc, rfl⟩ := ht
    obtain ⟨hr, hf⟩ := ((h.intersections i).1 j r).mp hc
    exact ⟨hi, r, hr, rfl, hf⟩
  · rintro ⟨hi, r, hr, htgt, hf⟩
    refine ⟨t.source, mem_range.mpr hi, ?_⟩
    rw [h.singularTransitionsOf_eq hi, mem_map]
    refine ⟨(t.singular, r), ((h.intersections _).1 _ r).mpr ⟨hr, hf⟩, ?_⟩
    rw [htgt]

theorem Minimizable.edges_pairwise : (edges dfa).Pairwise (fun t u =>
      t.source < u.source ∨ t.source = u.source ∧ t.singular < u.singular) := by
  have hs : ∀ i < dfa.nodes.length, ∀ t ∈ singularTransitionsOf (singularFirsts dfa) dfa i,
      t.source = i := by
    intro i hi t ht
    rw [h.singularTransitionsOf_eq hi, mem_map] at ht
    obtain ⟨_, _, rfl⟩ := ht
    rfl
  unfold edges allSingularTransitions
  rw [pairwise_flatMap]
  refine ⟨?_, ?_⟩
  · intro i hi
    rw [h.singularTransitionsOf_eq (mem_range.mp hi), pairwise_map]
    exact (h.intersections i).2.imp (fun hab => .inr ⟨rfl, hab⟩)
  · refine pairwise_lt_range.imp_of_mem ?_
    intro i j hi hj hij t ht u hu
    left
    rw [hs i (mem_range.mp hi) t ht, hs j (mem_range.mp hj) u hu]
    exact hij

theorem Minimizable.count_singularTransitionsOf {j f : Nat} (hi : i < dfa.nodes.length)
    (hf : (singularFirsts dfa)[j]? = some f) :
    ((singularTransitionsOf (singularFirsts dfa) dfa i).map (·.singular)).count j =
      if (find (dfa.transitionsOf i) f).isSome then 1 else 0 := by
  obtain ⟨hm, hpair⟩ := h.intersections i
  have heq : (singularTransitionsOf (singularFirsts dfa) dfa i).map (·.singular) =
      (iterateIntersections (singularFirsts dfa) (dfa.transitionsOf i)).map (·.1) := by
    rw [h.singularTransitionsOf_eq hi, map_map]
    rfl
  have hnd : ((iterateIntersections (singularFirsts dfa) (dfa.transitionsOf i)).map
      (·.1)).Nodup := pairwise_map.mpr (hpair.imp (fun hlt => hlt.ne))
  rw [heq, hnd.count]
  refine if_congr ?_ rfl rfl
  rw [mem_map]
  constructor
  · rintro ⟨⟨j', r⟩, hcl, rfl⟩
    obtain ⟨hr, f', hf', hc⟩ := (hm j' r).mp hcl
    rw [hf] at hf'
    cases hf'
    rw [(h.sorted i).find_eq hr hc]
    rfl
  · intro hso
    obtain ⟨a, ha⟩ := Option.isSome_iff_exists.mp hso
    obtain ⟨r, hr, hc, _⟩ := mem_of_find ha
    exact ⟨(j, r), (hm j r).mpr ⟨hr, f, hf, hc⟩, rfl⟩

omit h in
theorem sum_map_ite (l : List Nat) (p : Nat → Bool) :
    (l.map fun i => if p i = true then 1 else 0).sum = l.countP p := by
  induction l with
  | nil => rfl
  | cons i rest ih => rw [map_cons, sum_cons, countP_cons, ih, add_comm]

theorem Minimizable.count_singular {j : Nat} (hj : (singularTransitions dfa).toList[j]? = some s) :
    ((edges dfa).map (·.singular)).count j = s.data ∧ 0 < s.data := by
  have hctd := h.countedRanges
  have hs := mem_of_getElem? hj
  have hfn := hctd.sorted.find_eq hs ⟨le_rfl, hctd.sorted.nonempty s hs⟩
  rw [hctd.count] at hfn
  have hc : ((edges dfa).map (·.singular)).count j =
      definedCount ((range dfa.nodes.length).map dfa.transitionsOf) s.first := by
    unfold edges allSingularTransitions definedCount
    rw [map_flatMap, count_flatMap, countP_map, ← sum_map_ite]
    congr 1
    refine map_congr_left ?_
    intro i hi
    exact h.count_singularTransitionsOf (mem_range.mp hi) (getElem?_singularFirsts hj)
  by_cases hz : definedCount ((range dfa.nodes.length).map dfa.transitionsOf) s.first = 0
  · rw [if_pos hz] at hfn
    cases hfn
  · rw [if_neg hz] at hfn
    have := Option.some.inj hfn
    omega

theorem Minimizable.step_eq_some_iff {c tgt : Nat} (hi : i < dfa.nodes.length) :
    dfa.step i c = some tgt ↔ ∃ (j : Nat) (s : Range Nat),
      (singularTransitions dfa).toList[j]? = some s ∧ s.Covers c ∧ ⟨j, i, tgt⟩ ∈ edges dfa := by
  have hctd := h.countedRanges
  constructor
  · intro hst
    obtain ⟨r, hr, hc, hdt⟩ := mem_of_find hst
    obtain ⟨j, s, hj, hs, hsub⟩ := h.exists_singular hr hc
    refine ⟨j, s, hj, hs, (h.mem_edges _).mpr
      ⟨hi, r, hr, hdt, s.first, getElem?_singularFirsts hj, ?_⟩⟩
    exact hsub s.first ⟨le_rfl, hctd.sorted.nonempty s (mem_of_getElem? hj)⟩
  · rintro ⟨j, s, hj, hs, hed⟩
    obtain ⟨_, r, hr, hdt, f, hf, hcov⟩ := (h.mem_edges _).mp hed
    have hm := mem_of_getElem? hj
    obtain rfl : f = s.first := Option.some.inj (hf.symm.trans (getElem?_singularFirsts hj))
    have hne := hctd.sorted.nonempty s hm
    have hc : r.Covers c := (hctd.same s hm _ c ⟨le_rfl, hne⟩
      hs _ (transitionsOf_mem hr) r hr).mp hcov
    exact ((h.sorted i).find_eq hr hc).trans (congrArg some hdt)

end Edges

/-! ## Counters -/

theorem getD_foldl_count {α : Type} (key : α → Nat) (l : List α) (cnts : List Nat)
    (hkey : ∀ a ∈ l, key a < cnts.length) (k : Nat) :
    (l.foldl (fun cnts a => cnts.set (key a) (cnts.getD (key a) 0 + 1)) cnts).getD k 0 =
      cnts.getD k 0 + (l.map key).count k := by
  induction l generalizing cnts with
  | nil => simp
  | cons a rest ih =>
    rw [foldl_cons, ih _ (fun b hb => by
      rw [length_set]
      exact hkey b (mem_cons_of_mem a hb)), getD_set_of_lt (hkey a mem_cons_self),
      map_cons, count_cons]
    by_cases hk : k = key a
    · simp [hk]
      omega
    · simp [hk, Ne.symm hk]

theorem length_foldl_count {α : Type} (key : α → Nat) (l : List α) (cnts : List Nat) :
    (l.foldl (fun cnts a => cnts.set (key a) (cnts.getD (key a) 0 + 1)) cnts).length =
      cnts.length :=
  length_foldl_modify key (fun cnts a => cnts.getD (key a) 0 + 1) l cnts

theorem getD_accumulate (cnts : List Nat) (acc k : Nat) (hk : k < cnts.length) :
    (accumulate cnts acc).getD k 0 = acc + (cnts.take k).sum := by
  induction cnts generalizing acc k with
  | nil => exact absurd hk (Nat.not_lt_zero _)
  | cons cnt rest ih =>
    rw [accumulate]
    cases k with
    | zero => rw [getD_cons_zero, take_zero, sum_nil, add_zero]
    | succ k =>
      rw [getD_cons_succ, ih _ k (Nat.lt_of_succ_lt_succ hk), take_succ_cons, sum_cons, add_assoc]

theorem sum_take_eq_bucketStart (keys cnts : List Nat)
    (hcts : ∀ k < cnts.length, cnts.getD k 0 = keys.count k) (k : Nat)
    (hk : k ≤ cnts.length) : (cnts.take k).sum = bucketStart keys k := by
  induction k with
  | zero => rw [take_zero, bucketStart_zero, sum_nil]
  | succ k ih =>
    have hlt : k < cnts.length := hk
    rw [bucketStart_succ, ← ih hlt.le, ← hcts k hlt,
      take_succ_eq_append_getElem hlt, sum_append, sum_singleton,
      getD_eq_getElem _ _ hlt]

theorem length_accumulate (cnts : List Nat) (acc : Nat) :
    (accumulate cnts acc).length = cnts.length := by
  induction cnts generalizing acc with
  | nil => rfl
  | cons cnt rest ih => rw [accumulate, length_cons, length_cons, ih]

theorem addTransitionSets_sets (ranges : List (Range Nat)) (acc : Nat) (p : Partition) :
    (addTransitionSets ranges acc p).sets = p.sets ++
      zipWith (fun sta rng => ⟨sta, rng.data, 0⟩)
        (accumulate (ranges.map (·.data)) acc) ranges := by
  induction ranges generalizing acc p with
  | nil => exact (append_nil _).symm
  | cons rng rest ih =>
    rw [addTransitionSets, ih]
    show (p.sets ++ [_]) ++ _ = _
    rw [append_assoc]
    rfl

section Layout

variable {dfa : DFA} (h : Minimizable dfa)

/-- The sets of the transitions before any transition is placed. -/
def transitionSets (dfa : DFA) : Partition :=
  addTransitionSets (singularTransitions dfa).toList 0 {}

theorem transitionSets_length (dfa : DFA) :
    (transitionSets dfa).sets.length = (singularTransitions dfa).toList.length := by
  unfold transitionSets
  rw [addTransitionSets_sets, nil_append, length_zipWith, length_accumulate,
    length_map, Nat.min_self]

/-- The targets of the transitions, the first keys they are sorted by. -/
def targetKeys (dfa : DFA) : List Nat := (edges dfa).map (·.target)

/-- The singular ranges of the transitions, the second keys they are sorted by. -/
def singularKeys (dfa : DFA) : List Nat := (edges dfa).map (·.singular)

include h

theorem Minimizable.transitionSets_descriptor {j : Nat}
    (hj : j < (transitionSets dfa).sets.length) :
    (transitionSets dfa).descriptor j =
      ⟨bucketStart (singularKeys dfa) j, (singularKeys dfa).count j, 0⟩ := by
  rw [transitionSets_length] at hj
  set cnts := (singularTransitions dfa).toList.map (·.data) with hcnts
  have hcts : ∀ k < cnts.length, cnts.getD k 0 = (singularKeys dfa).count k := by
    intro k hk
    rw [hcnts, length_map] at hk
    rw [getD_eq_getElem?_getD, hcnts, getElem?_map, getElem?_eq_getElem hk]
    exact (h.count_singular (getElem?_eq_getElem hk)).1.symm
  have hlt : j < cnts.length := by rwa [hcnts, length_map]
  have hs : (accumulate cnts 0).getD j 0 =
      bucketStart (singularKeys dfa) j := by
    rw [getD_accumulate _ _ _ hlt, zero_add,
      sum_take_eq_bucketStart (singularKeys dfa) _ hcts j hlt.le]
  have hacc : j < (accumulate cnts 0).length := by rwa [length_accumulate]
  rw [getD_eq_getElem _ _ hacc] at hs
  unfold descriptor transitionSets
  rw [addTransitionSets_sets, nil_append, getD_eq_getElem?_getD,
    getElem?_zipWith, getElem?_eq_getElem hacc, getElem?_eq_getElem hj]
  show SetDescriptor.mk _ _ 0 = _
  rw [hs, ← (h.count_singular (getElem?_eq_getElem hj)).1]
  rfl

variable {t : SingularTransition}

theorem Minimizable.target_lt_of_mem (ht : t ∈ edges dfa) : t.target < dfa.nodes.length := by
  obtain ⟨_, r, hr, hdt, _⟩ := (h.mem_edges t).mp ht
  rw [← hdt]
  exact h.target_lt _ r hr

theorem Minimizable.singular_lt_of_mem (ht : t ∈ edges dfa) :
    t.singular < (transitionSets dfa).sets.length := by
  obtain ⟨_, _, _, _, f, hf, _⟩ := (h.mem_edges t).mp ht
  have := lt_of_getElem? hf
  unfold singularFirsts at this
  rwa [length_map, ← transitionSets_length] at this

theorem Minimizable.startOffset_eq {k : Nat} (hk : k < dfa.nodes.length) :
    (accumulate (countIncoming dfa.nodes.length (edges dfa)) 0).getD k 0 =
      bucketStart (targetKeys dfa) k := by
  set cnts := countIncoming dfa.nodes.length (edges dfa) with hcnts
  have hl : cnts.length = dfa.nodes.length := by
    rw [hcnts, countIncoming, length_foldl_count, length_replicate]
  have hcts : ∀ j < cnts.length, cnts.getD j 0 = (targetKeys dfa).count j := by
    intro j hj
    rw [hl] at hj
    rw [hcnts, countIncoming, getD_foldl_count, getD_replicate _ hj, zero_add]
    · rfl
    · intro t ht
      rw [length_replicate]
      exact h.target_lt_of_mem ht
  rw [getD_accumulate _ _ _ (by rw [hl]; exact hk), zero_add,
    sum_take_eq_bucketStart (targetKeys dfa) _ hcts k (by rw [hl]; exact hk.le)]

end Layout

/-! ## Placing the transitions -/

/-- What has been filled after the first `count` transitions. -/
structure FillInv (dfa : DFA) (count : Nat) (st : FillState) : Prop where
  sizes_length : st.sizePerNode.length = dfa.nodes.length
  sizes : ∀ k, k < dfa.nodes.length →
    st.sizePerNode.getD k 0 = ((targetKeys dfa).take count).count k
  offsets_length : st.perRangeOffset.length = (transitionSets dfa).sets.length
  offsets : ∀ j, j < (transitionSets dfa).sets.length →
    st.perRangeOffset.getD j 0 = ((singularKeys dfa).take count).count j
  sets : st.partition.sets = (transitionSets dfa).sets
  marked : st.partition.setsMarkedInCurrentGeneration = []
  flattened_length : st.flattened.length = (edges dfa).length
  elements_length : st.partition.partitionedElements.length = (edges dfa).length
  positions_length : st.partition.elementPositionInPartitionedNodes.length = (edges dfa).length
  map_length : st.partition.elementToSetMap.length = (edges dfa).length
  placed : ∀ e t, e < count → (edges dfa)[e]? = some t →
    st.flattened.getD (slot (targetKeys dfa) e) 0 = t.source ∧
    st.partition.element (slot (singularKeys dfa) e) = slot (targetKeys dfa) e ∧
    st.partition.position (slot (targetKeys dfa) e) = slot (singularKeys dfa) e ∧
    st.partition.setIndex (slot (targetKeys dfa) e) = t.singular

section Fill

variable {dfa : DFA} (h : Minimizable dfa)

@[simp] theorem length_targetKeys (dfa : DFA) : (targetKeys dfa).length = (edges dfa).length :=
  length_map ..

@[simp] theorem length_singularKeys (dfa : DFA) :
    (singularKeys dfa).length = (edges dfa).length := length_map ..

variable {t : SingularTransition} {e : Nat}

theorem getD_targetKeys (he : (edges dfa)[e]? = some t) : (targetKeys dfa).getD e 0 = t.target := by
  unfold targetKeys
  rw [getD_eq_getElem?_getD, getElem?_map, he]
  rfl

theorem getD_singularKeys (he : (edges dfa)[e]? = some t) :
    (singularKeys dfa).getD e 0 = t.singular := by
  unfold singularKeys
  rw [getD_eq_getElem?_getD, getElem?_map, he]
  rfl

theorem count_take_succ {keys : List Nat} (he : e < keys.length) (k : Nat) :
    (keys.take (e + 1)).count k = (keys.take e).count k + if k = keys.getD e 0 then 1 else 0 := by
  rw [take_succ_eq_append_getElem he, count_append, count_singleton, getD_eq_getElem _ _ he]
  by_cases hk : k = keys[e]
  · simp [hk]
  · have hne : ¬ keys[e] = k := fun heq => hk heq.symm
    simp [hk, hne]

theorem getD_set_counter {cnts keys : List Nat} {key k : Nat} (he : e < keys.length)
    (hkey : keys.getD e 0 = key) (hlt : key < cnts.length)
    (hcts : ∀ k < cnts.length, cnts.getD k 0 = (keys.take e).count k)
    (hk : k < cnts.length) :
    (cnts.set key (cnts.getD key 0 + 1)).getD k 0 = (keys.take (e + 1)).count k := by
  rw [getD_set_of_lt hlt, count_take_succ he, hkey, hcts key hlt, hcts k hk]
  split <;> simp [*]

include h

variable {st : FillState}

/-- **Placing a transition.** -/
theorem FillInv.step {count : Nat} (hst : FillInv dfa count st)
    (ht : (edges dfa)[count]? = some t) :
    FillInv dfa (count + 1) (fillTransition
      (accumulate (countIncoming dfa.nodes.length (edges dfa)) 0) st t) := by
  have hm := mem_of_getElem? ht
  have hc := lt_of_getElem? ht
  have htgt := h.target_lt_of_mem hm
  have hsng := h.singular_lt_of_mem hm
  have hkT := getD_targetKeys ht
  have hkS := getD_singularKeys ht
  have hltT : count < (targetKeys dfa).length := by rwa [length_targetKeys]
  have hltS : count < (singularKeys dfa).length := by rwa [length_singularKeys]
  -- the positions the code computes are the places of the transition
  have hposT : (accumulate (countIncoming dfa.nodes.length (edges dfa)) 0).getD t.target 0 +
      st.sizePerNode.getD t.target 0 = slot (targetKeys dfa) count := by
    unfold slot
    rw [h.startOffset_eq htgt, hst.sizes _ htgt, hkT]
  have hposS : st.partition.startOffsetOfSet t.singular + st.perRangeOffset.getD t.singular 0 =
      slot (singularKeys dfa) count := by
    unfold slot
    have hds : st.partition.descriptor t.singular = (transitionSets dfa).descriptor t.singular := by
      unfold descriptor
      rw [hst.sets]
    unfold startOffsetOfSet
    rw [hds, h.transitionSets_descriptor hsng, hst.offsets _ hsng, hkS]
  have hslotT : slot (targetKeys dfa) count < (edges dfa).length := slot_map_lt hc
  have hslotS : slot (singularKeys dfa) count < (edges dfa).length := slot_map_lt hc
  have hfl : fillTransition (accumulate (countIncoming dfa.nodes.length (edges dfa)) 0) st t =
      { sizePerNode := st.sizePerNode.set t.target (st.sizePerNode.getD t.target 0 + 1)
        perRangeOffset := st.perRangeOffset.set t.singular (st.perRangeOffset.getD t.singular 0 + 1)
        flattened := st.flattened.set (slot (targetKeys dfa) count) t.source
        partition := st.partition.setElementUnchecked (slot (targetKeys dfa) count)
          (slot (singularKeys dfa) count) t.singular } := by
    unfold fillTransition
    dsimp only
    rw [hposT, hposS]
  rw [hfl]
  refine ⟨?_, ?_, ?_, ?_, hst.sets, hst.marked, ?_, ?_, ?_, ?_, ?_⟩
  · rw [length_set, hst.sizes_length]
  · simp only [← hst.sizes_length] at htgt ⊢
    exact fun k => getD_set_counter hltT hkT htgt (hst.sizes_length ▸ hst.sizes)
  · rw [length_set, hst.offsets_length]
  · simp only [← hst.offsets_length] at hsng ⊢
    exact fun j => getD_set_counter hltS hkS hsng (hst.offsets_length ▸ hst.offsets)
  · rw [length_set, hst.flattened_length]
  · show (st.partition.partitionedElements.set _ _).length = _
    rw [length_set, hst.elements_length]
  · show (st.partition.elementPositionInPartitionedNodes.set _ _).length = _
    rw [length_set, hst.positions_length]
  · show (st.partition.elementToSetMap.set _ _).length = _
    rw [length_set, hst.map_length]
  · intro e u he hu
    have hel := lt_of_getElem? hu
    show (st.flattened.set _ _).getD _ 0 = _ ∧
      (st.partition.partitionedElements.set _ _).getD _ 0 = _ ∧
      (st.partition.elementPositionInPartitionedNodes.set _ _).getD _ 0 = _ ∧
      (st.partition.elementToSetMap.set _ _).getD _ 0 = _
    rw [getD_set_of_lt (by rw [hst.flattened_length]; exact hslotT),
      getD_set_of_lt (by rw [hst.elements_length]; exact hslotS),
      getD_set_of_lt (by rw [hst.positions_length]; exact hslotT),
      getD_set_of_lt (by rw [hst.map_length]; exact hslotT)]
    rcases lt_or_eq_of_le (Nat.le_of_lt_succ he) with hlt | rfl
    · -- an earlier transition has another place
      have hneT : slot (targetKeys dfa) e ≠ slot (targetKeys dfa) count := fun heq =>
        absurd (slot_map_inj hel hc heq) hlt.ne
      have hneS : slot (singularKeys dfa) e ≠ slot (singularKeys dfa) count := fun heq =>
        absurd (slot_map_inj hel hc heq) hlt.ne
      rw [if_neg hneT, if_neg hneS, if_neg hneT, if_neg hneT]
      exact hst.placed e u hlt hu
    · rw [ht] at hu
      cases hu
      rw [if_pos rfl, if_pos rfl, if_pos rfl, if_pos rfl]
      exact ⟨rfl, rfl, rfl, rfl⟩

theorem FillInv.run (hst : FillInv dfa 0 st) :
    FillInv dfa (edges dfa).length ((edges dfa).foldl
      (fillTransition (accumulate (countIncoming dfa.nodes.length (edges dfa)) 0)) st) := by
  have key : ∀ cnt, cnt ≤ (edges dfa).length → FillInv dfa cnt
      (((edges dfa).take cnt).foldl
        (fillTransition (accumulate (countIncoming dfa.nodes.length (edges dfa)) 0)) st) := by
    intro cnt
    induction cnt with
    | zero => exact fun _ => hst
    | succ cnt ih =>
      intro hle
      rw [take_succ_eq_append_getElem hle, foldl_concat]
      exact (ih (le_of_lt hle)).step h (getElem?_eq_getElem hle)
  have := key (edges dfa).length (le_refl _)
  rwa [take_length] at this

omit h in
theorem fillInv_zero (dfa : DFA) :
    FillInv dfa 0 ⟨replicate dfa.nodes.length 0,
      replicate (transitionSets dfa).sets.length 0, replicate (edges dfa).length 0,
      (transitionSets dfa).reserveUninitializedCapacity (edges dfa).length⟩ := by
  have hmkd : (transitionSets dfa).setsMarkedInCurrentGeneration = [] := by
    have key : ∀ (rgs : List (Range Nat)) (acc : Nat) (p : Partition),
        (addTransitionSets rgs acc p).setsMarkedInCurrentGeneration =
          p.setsMarkedInCurrentGeneration := by
      intro rgs
      induction rgs with
      | nil => exact fun _ _ => rfl
      | cons rng rest ih => exact fun acc p => ih _ _
    exact key _ _ _
  refine ⟨length_replicate, ?_, length_replicate, ?_, rfl, hmkd,
    length_replicate, length_replicate, length_replicate,
    length_replicate, ?_⟩
  · intro k hk
    rw [getD_replicate _ hk]
    rfl
  · intro j hj
    rw [getD_replicate _ hj]
    rfl
  · intro e t he
    omega

end Fill

/-! ## What the constructor builds -/

/-- Where the transitions of a node are, and their sources, in the graph. -/
structure GraphOf (dfa : DFA) (g : FullGraphPartition) : Prop where
  flattened_length : g.flattenedTransitions.length = (edges dfa).length
  source : ∀ (e : Nat) (t : SingularTransition), (edges dfa)[e]? = some t →
    g.flattenedTransitions.getD (slot (targetKeys dfa) e) 0 = t.source
  incoming : ∀ k, k < dfa.nodes.length → ∀ i, i ∈ g.incomingTransitions k ↔
    ∃ (e : Nat) (t : SingularTransition), (edges dfa)[e]? = some t ∧ t.target = k ∧
      slot (targetKeys dfa) e = i

section Built

variable {dfa : DFA} (h : Minimizable dfa)

include h

theorem Minimizable.filled :
    ∃ st, FillInv dfa (edges dfa).length st ∧ ofDFA dfa =
      { flattenedTransitionsStartOffsetPerNode :=
          accumulate (countIncoming dfa.nodes.length (edges dfa)) 0
        flattenedTransitionsSizePerNode := st.sizePerNode
        flattenedTransitions := st.flattened
        nodePartition := initializePartition dfa.nodes.length
        transitionPartition := st.partition } :=
  ⟨_, FillInv.run h (fillInv_zero dfa), rfl⟩

theorem Minimizable.graphOf : GraphOf dfa (ofDFA dfa) := by
  obtain ⟨st, hst, heq⟩ := h.filled
  rw [heq]
  refine ⟨hst.flattened_length, ?_, ?_⟩
  · intro e t he
    exact (hst.placed e t (lt_of_getElem? he) he).1
  · intro k hk i
    show i ∈ range' (getD _ k 0) (st.sizePerNode.getD k 0) ↔ _
    have hsz : st.sizePerNode.getD k 0 = (targetKeys dfa).count k := by
      rw [hst.sizes k hk, ← length_targetKeys, take_length]
    rw [h.startOffset_eq hk, hsz, mem_range'_1]
    constructor
    · intro hin
      obtain ⟨e, he, hsl, hkey⟩ := exists_of_mem_bucket _ hin.1 hin.2
      rw [length_targetKeys] at he
      refine ⟨e, (edges dfa)[e], getElem?_eq_getElem he, ?_, hsl⟩
      rw [← hkey, getD_targetKeys (getElem?_eq_getElem he)]
    · rintro ⟨e, t, he, rfl, rfl⟩
      have heT : e < (targetKeys dfa).length := by rw [length_targetKeys]; exact lt_of_getElem? he
      have := slot_in_bucket (targetKeys dfa) heT
      rwa [getD_targetKeys he] at this

theorem Minimizable.transitionPartition_inv :
    Partition.Inv (ofDFA dfa).transitionPartition (edges dfa).length [] ∧
      (ofDFA dfa).transitionPartition.setsMarkedInCurrentGeneration = [] ∧
      ∀ (e : Nat) (t : SingularTransition), (edges dfa)[e]? = some t →
        (ofDFA dfa).transitionPartition.setIndex (slot (targetKeys dfa) e) = t.singular := by
  obtain ⟨st, hst, heq⟩ := h.filled
  rw [heq]
  show Partition.Inv st.partition _ [] ∧ st.partition.setsMarkedInCurrentGeneration = [] ∧ _
  have hpld : ∀ (e : Nat) (t : SingularTransition), (edges dfa)[e]? = some t → _ :=
    fun e t he => hst.placed e t (lt_of_getElem? he) he
  have hds : ∀ s < st.partition.sets.length, st.partition.descriptor s =
      ⟨bucketStart (singularKeys dfa) s, (singularKeys dfa).count s, 0⟩ := by
    intro s hs
    rw [hst.sets] at hs
    unfold descriptor
    rw [hst.sets]
    exact h.transitionSets_descriptor hs
  have hsng : ∀ (e : Nat) (t : SingularTransition), (edges dfa)[e]? = some t →
      t.singular < st.partition.sets.length := by
    intro e t he
    rw [hst.sets]
    exact h.singular_lt_of_mem (mem_of_getElem? he)
  -- every element and every position is that of a transition
  have helt : ∀ x < (edges dfa).length, ∃ (e : Nat) (t : SingularTransition),
      (edges dfa)[e]? = some t ∧ slot (targetKeys dfa) e = x := fun _ => exists_slot_map
  have hps : ∀ i < (edges dfa).length, ∃ (e : Nat) (t : SingularTransition),
      (edges dfa)[e]? = some t ∧ slot (singularKeys dfa) e = i := fun _ => exists_slot_map
  -- the place of a transition is in the bucket of its singular range
  have hbkt : ∀ (e : Nat) (t : SingularTransition), (edges dfa)[e]? = some t →
      (st.partition.descriptor t.singular).start ≤ slot (singularKeys dfa) e ∧
        slot (singularKeys dfa) e < (st.partition.descriptor t.singular).stop := by
    intro e t he
    have hin := slot_in_bucket (singularKeys dfa) (e := e)
      (by rw [length_singularKeys]; exact lt_of_getElem? he)
    rw [getD_singularKeys he] at hin
    rw [hds _ (hsng e t he)]
    exact hin
  refine ⟨⟨hst.elements_length, hst.positions_length, hst.map_length, ?_, ?_, ?_, ?_, ?_, ?_, ?_,
    ?_, ?_, ?_, ?_, ?_, nodup_nil⟩, hst.marked, fun e t he => (hpld e t he).2.2.2⟩
  · intro i hi
    obtain ⟨e, t, he, rfl⟩ := hps i hi
    rw [(hpld e t he).2.1]
    exact slot_map_lt (lt_of_getElem? he)
  · intro x hx
    obtain ⟨e, t, he, rfl⟩ := helt x hx
    rw [(hpld e t he).2.2.1]
    exact slot_map_lt (lt_of_getElem? he)
  · intro x hx
    obtain ⟨e, t, he, rfl⟩ := helt x hx
    rw [(hpld e t he).2.2.1, (hpld e t he).2.1]
  · intro i hi
    obtain ⟨e, t, he, rfl⟩ := hps i hi
    rw [(hpld e t he).2.1, (hpld e t he).2.2.1]
  · intro x hx
    obtain ⟨e, t, he, rfl⟩ := helt x hx
    rw [(hpld e t he).2.2.2]
    exact hsng e t he
  · intro x hx
    obtain ⟨e, t, he, rfl⟩ := helt x hx
    rw [(hpld e t he).2.2.2, (hpld e t he).2.2.1]
    exact (hbkt e t he).1
  · intro x hx
    obtain ⟨e, t, he, rfl⟩ := helt x hx
    rw [(hpld e t he).2.2.2, (hpld e t he).2.2.1]
    exact (hbkt e t he).2
  · intro s hs
    rw [hds s hs]
    show bucketStart _ s + count s _ ≤ _
    rw [← bucketStart_succ, ← length_singularKeys]
    exact bucketStart_le_length _ _
  · intro s hs i hi hi'
    rw [hds s hs] at hi hi'
    obtain ⟨e, he, rfl, rfl⟩ := exists_of_mem_bucket (singularKeys dfa) hi hi'
    rw [length_singularKeys] at he
    have hg := getElem?_eq_getElem he
    rw [(hpld e _ hg).2.1, (hpld e _ hg).2.2.2, getD_singularKeys hg]
  · intro s hs
    rw [hds s hs]
    rw [hst.sets, transitionSets_length] at hs
    have := h.count_singular (getElem?_eq_getElem hs)
    show 0 < count s (singularKeys dfa)
    unfold singularKeys
    omega
  · intro s hs
    rw [hds s hs]
    exact Nat.zero_le _
  · intro s
    refine ⟨nofun, ?_⟩
    rintro ⟨hs, hp⟩
    rw [hds s hs] at hp
    exact absurd hp (lt_irrefl 0)

end Built

theorem initializePartition_inv {n : Nat} (hn : 0 < n) :
    Partition.Inv (initializePartition n) n [] ∧
      (initializePartition n).setsMarkedInCurrentGeneration = [] ∧
      ∀ x < n, (initializePartition n).setIndex x = 0 := by
  have heq : initializePartition n =
      { sets := [⟨0, n, 0⟩]
        partitionedElements := range n
        elementPositionInPartitionedNodes := range n
        elementToSetMap := replicate n 0 } := if_neg (ne_of_gt hn)
  have hrge : ∀ i < n, (range n).getD i 0 = i := by
    intro i hi
    rw [getD_eq_getElem?_getD, getElem?_range hi]
    rfl
  have hlt : ∀ i < n, (range n).getD i 0 < n := fun i hi => (hrge i hi).trans_lt hi
  have hid : ∀ i < n, (range n).getD ((range n).getD i 0) 0 = i := by
    intro i hi
    rw [hrge i hi, hrge i hi]
  rw [heq]
  have hset : ∀ x < n, (mk [⟨0, n, 0⟩] (range n) (range n)
      (replicate n 0) []).setIndex x = 0 := fun x hx => getD_replicate _ hx
  refine ⟨⟨length_range, length_range, length_replicate, hlt, hlt, hid, hid, ?_, ?_, ?_, ?_, ?_,
    ?_, ?_, ?_, nodup_nil⟩, rfl, hset⟩
  · intro x hx
    rw [hset x hx]
    exact Nat.one_pos
  · intro x hx
    rw [hset x hx]
    exact Nat.zero_le _
  · intro x hx
    rw [hset x hx]
    show (range n).getD x 0 < 0 + n
    rw [zero_add]
    exact hlt x hx
  · intro s hs
    obtain rfl : s = 0 := Nat.lt_one_iff.mp hs
    exact le_of_eq (zero_add n)
  · intro s hs i _ hi
    obtain rfl : s = 0 := Nat.lt_one_iff.mp hs
    have hi : i < 0 + n := hi
    rw [zero_add] at hi
    exact hset _ (hlt i hi)
  · intro s hs
    obtain rfl : s = 0 := Nat.lt_one_iff.mp hs
    exact hn
  · intro s hs
    obtain rfl : s = 0 := Nat.lt_one_iff.mp hs
    exact Nat.zero_le _
  · intro s
    refine ⟨nofun, ?_⟩
    rintro ⟨hs, hp⟩
    obtain rfl : s = 0 := Nat.lt_one_iff.mp hs
    exact absurd hp (Nat.lt_irrefl 0)

end WebKit.ContentExtensions
