import WebKit.Lib.Paths

/-!
# `Term::generateGraph`

A term of a url filter, a set of characters or a group of terms with a quantifier, is added to an
automaton as a subgraph between two nodes. The model keeps the number of nodes and the transitions,
in the order of the calls.

Each repeated atom has a start and an end of its own, so nothing leaks from one repetition into
another: the strings between source and destination are those of the term, unless the two are one
node, where the empty string needs no transition.
-/

namespace WebKit.ContentExtensions.Terms

open Paths Function

/-! ## Terms -/

inductive AtomQuantifier
  | one | zeroOrOne | zeroOrMore | oneOrMore
  deriving DecidableEq

structure CharacterSet where
  inverted : Bool
  characters : BitVec 128

variable (set : CharacterSet)

def CharacterSet.get (character : Nat) : Bool :=
  set.characters.getLsbD character

mutual

inductive Term
  | mk (atomData : AtomData) (quantifier : AtomQuantifier)

inductive AtomData
  | characterSet (set : CharacterSet)
  | group (terms : List Term)

end

/-- The characters of the set. The end of the input, 0, is in no inverted set. -/
def CharacterSet.Matches (c : Nat) : Prop :=
  if set.inverted then 1 ≤ c ∧ c < 128 ∧ set.get c = false else c < 128 ∧ set.get c

def AtomQuantifier.language (L : Language Nat) : AtomQuantifier → Language Nat
  | one => L
  | zeroOrOne => L + 1
  | zeroOrMore => KStar.kstar L
  | oneOrMore => L * KStar.kstar L

mutual

def Term.language : Term → Language Nat
  | .mk atomData quantifier => quantifier.language atomData.language

def AtomData.language : AtomData → Language Nat
  | .characterSet set => { w | ∃ c, set.Matches c ∧ w = [c] }
  | .group terms => groupLanguage terms

def groupLanguage : List Term → Language Nat
  | [] => 1
  | term :: terms => term.language * groupLanguage terms

end

/-! ## The graph -/

/-- A transition on the characters from the first to the last, or an epsilon transition. -/
structure Edge where
  source : Nat
  label : Option (Nat × Nat)
  target : Nat
deriving DecidableEq

/-- An automaton whose nodes are being built. -/
structure Graph where
  nodes : Nat
  edges : List Edge
deriving DecidableEq

namespace Graph

/-- The constructor of a builder: the node is the next one. -/
def addNode (g : Graph) : Graph := { g with nodes := g.nodes + 1 }

def addTransition (g : Graph) (source first last target : Nat) : Graph :=
  { g with edges := g.edges ++ [⟨source, some (first, last), target⟩] }

def addEpsilonTransition (g : Graph) (source target : Nat) : Graph :=
  { g with edges := g.edges ++ [⟨source, none, target⟩] }

end Graph

/-- `while (i < 128 && p(i)) ++i`. -/
def skipWhile (p : Nat → Bool) (i : Nat) : Nat :=
  if i < 128 ∧ p i then skipWhile p (i + 1) else i
termination_by 128 - i

theorem skipWhile_spec (p : Nat → Bool) (i : Nat) :
    i ≤ skipWhile p i ∧ (i ≤ 128 → skipWhile p i ≤ 128) ∧
      (∀ c, i ≤ c → c < skipWhile p i → p c) ∧
      (skipWhile p i < 128 → p (skipWhile p i) = false) := by
  fun_induction skipWhile p i with
  | case1 i h ih => grind
  | case2 i h => grind

/-- The loop from `i` on: a transition for each run of characters for which `p` holds. -/
def addRuns (p : Nat → Bool) (source destination : Nat) (g : Graph) (i : Nat) : Graph :=
  let start := skipWhile (!p ·) i
  if h : start < 128 then
    let stop := skipWhile p (start + 1)
    addRuns p source destination (g.addTransition source start (stop - 1) destination) stop
  else g
termination_by 128 - i
decreasing_by
  have := (skipWhile_spec (!p ·) i).1
  have := (skipWhile_spec p (skipWhile (!p ·) i + 1)).1
  omega

/-- `Term::generateGraph`, where `atom` is `generateSubgraphForAtom`. -/
def AtomQuantifier.generateGraph (atom : Graph → Nat → Nat → Graph) (g : Graph)
    (source destination : Nat) : AtomQuantifier → Graph
  | one => atom g source destination
  | zeroOrOne => (atom g source destination).addEpsilonTransition source destination
  | zeroOrMore => (repeated g).addEpsilonTransition source destination
  | oneOrMore => repeated g
where
  /-- The part that `ZeroOrMore` and `OneOrMore` have in common. -/
  repeated (g : Graph) : Graph :=
    let repeatStart := g.nodes
    let g := g.addNode.addEpsilonTransition source repeatStart
    let repeatEnd := g.nodes
    let g := (atom g.addNode repeatStart repeatEnd).addEpsilonTransition repeatEnd repeatStart
    g.addEpsilonTransition repeatEnd destination

mutual

def Term.generateGraph (g : Graph) (source destination : Nat) : Term → Graph
  | .mk atomData quantifier =>
    quantifier.generateGraph (fun g source destination =>
      atomData.generateSubgraphForAtom g source destination) g source destination

def AtomData.generateSubgraphForAtom (g : Graph) (source destination : Nat) : AtomData → Graph
  | .characterSet set =>
    if !set.inverted then addRuns set.get source destination g 0
    else addRuns (!set.get ·) source destination g 1
  | .group terms => generateGroup g source destination terms

/-- The terms of a group one behind the other. -/
def generateGroup (g : Graph) (source destination : Nat) : List Term → Graph
  | [] => g.addEpsilonTransition source destination
  | [term] => term.generateGraph g source destination
  | term :: next :: terms =>
    let newEnd := g.nodes
    generateGroup (term.generateGraph g.addNode source newEnd) newEnd destination (next :: terms)

end

/-! ## The language -/

/-- The transition reads the character, or nothing. -/
def Edge.Reads (e : Edge) : Option Nat → Prop
  | none => e.label = none
  | some c => ∃ first last, e.label = some (first, last) ∧ first ≤ c ∧ c ≤ last

theorem Edge.reads_some {s d fst last : Nat} {l : Option Nat} :
    Edge.Reads ⟨s, some (fst, last), d⟩ l ↔ ∃ c, l = some c ∧ fst ≤ c ∧ c ≤ last := by
  cases l <;> simp [Reads]

def Steps (edges : List Edge) (u : Nat) (l : Option Nat) (v : Nat) : Prop :=
  ∃ e ∈ edges, e.source = u ∧ e.Reads l ∧ e.target = v

theorem steps_append (eds eds' : List Edge) : Steps (eds ++ eds') = Steps eds ⊔ Steps eds' := by
  ext u l v
  simp [Steps, or_and_right, exists_or]

theorem steps_epsilon (s t : Nat) : Steps [⟨s, none, t⟩] = Epsilon s t := by
  ext u l v
  cases l <;> simp [Steps, Edge.Reads, Epsilon, eq_comm]

open WebKit.ContentExtensions.Terms.Graph

theorem addRuns_spec (p : Nat → Bool) (s d : Nat) (g : Graph) (i : Nat) :
    ∃ added, addRuns p s d g i = ⟨g.nodes, g.edges ++ added⟩ ∧
      (∀ e ∈ added, e.source = s ∧ e.target = d) ∧
      ∀ l, (∃ e ∈ added, e.Reads l) ↔ ∃ c, l = some c ∧ i ≤ c ∧ c < 128 ∧ p c := by
  fun_induction addRuns p s d g i with
  | case1 g i sta h stop ih =>
    obtain ⟨added, heq, hen, hrd⟩ := ih
    refine ⟨⟨s, some (sta, stop - 1), d⟩ :: added, ?_, by simpa using hen, fun l => ?_⟩
    · rw [heq, addTransition, List.append_assoc, List.singleton_append]
    · rw [List.exists_mem_cons_iff, hrd, Edge.reads_some, ← exists_or]
      refine exists_congr fun c => ?_
      rw [← and_or_left]
      refine and_congr_right fun _ => ?_
      obtain ⟨hle, _, hbef, hs⟩ := skipWhile_spec (!p ·) i
      obtain ⟨hle', hmax, hr, _⟩ := skipWhile_spec p (sta + 1)
      constructor
      · rintro (⟨hsc, hcs⟩ | ⟨hsc, hc⟩)
        · refine ⟨hle.trans hsc, by omega, ?_⟩
          rcases hsc.eq_or_lt with rfl | hlt
          · simpa using hs h
          · exact hr c hlt (by omega)
        · exact ⟨by omega, hc⟩
      · rintro ⟨hic, hc⟩
        have hsc : sta ≤ c := by
          by_contra hlt
          simpa [hc.2] using hbef c hic (not_le.mp hlt)
        exact (lt_or_ge c stop).imp (fun hlt => ⟨hsc, by omega⟩) fun hge => ⟨hge, hc⟩
  | case2 g i sta h =>
    refine ⟨[], by rw [List.append_nil], by simp, fun l => iff_of_false (by simp) ?_⟩
    rintro ⟨c, _, hic, hc, hpc⟩
    have hn := (skipWhile_spec (!p ·) i).2.2.1 c hic (by omega)
    simp [hpc] at hn

/-- The transitions between `s` and `d`, and `n` new nodes from `k` on, stand for the language. -/
structure Adds (k n s d : Nat) (added : List Edge) (L : Language Nat) : Prop where
  leaves : ∀ e ∈ added, e.source = s ∨ k ≤ e.source
  bounded : ∀ e ∈ added, e.source < k + n ∧ e.target < k + n
  sound : ∀ K : Nat → Language Nat, L * K d ≤ K s →
    ∃ K', (∀ u < k, K' u = K u) ∧ Respects (Steps added) K'
  complete : ∀ w ∈ L, Path (Steps added) d s w

/-- Between any two nodes, transitions are added that stand for the language. -/
def Builds (generate : Graph → Nat → Nat → Graph) (L : Language Nat) : Prop :=
  ∀ k edges s d, s < k → d < k → ∃ n added,
    generate ⟨k, edges⟩ s d = ⟨k + n, edges ++ added⟩ ∧ Adds k n s d added L

section

variable {atom : Graph → Nat → Nat → Graph} {L : Language Nat} (h : Builds atom L)

include h

theorem Builds.option : Builds (fun g s d => (atom g s d).addEpsilonTransition s d) (L + 1) := by
  intro k eds s d hs hd
  obtain ⟨n, added, heq, ha⟩ := h k eds s d hs hd
  refine ⟨n, added ++ [⟨s, none, d⟩], ?_, ?_, ?_, fun K hK => ?_, ?_⟩
  · simp only [heq, addEpsilonTransition, List.append_assoc]
  · simpa [or_imp, forall_and] using ha.leaves
  · have := ha.bounded
    grind
  · rw [add_mul, one_mul, add_le_iff] at hK
    obtain ⟨K', hkp, hK'⟩ := ha.sound K hK.1
    refine ⟨K', hkp, ?_⟩
    rw [steps_append, steps_epsilon]
    exact hK'.sup (respects_epsilon (by rw [hkp d hd, hkp s hs]; exact hK.2))
  · rw [steps_append, steps_epsilon]
    rintro w (hw | rfl)
    · exact (ha.complete w hw).mono le_sup_left
    · exact .epsilon (.inr ⟨rfl, rfl, rfl⟩) .nil

theorem Builds.repeated :
    Builds (fun g s d => AtomQuantifier.generateGraph.repeated atom s d g) (L * KStar.kstar L) := by
  intro k eds s d hs hd
  obtain ⟨n, added, heq, ha⟩ := h (k + 1 + 1) (eds ++ [⟨s, none, k⟩]) k (k + 1)
    (by omega) (by omega)
  refine ⟨1 + 1 + n, [⟨s, none, k⟩] ++ added ++ [⟨k + 1, none, k⟩] ++ [⟨k + 1, none, d⟩], ?_,
    ?_, ?_, fun K hK => ?_, ?_⟩
  · simp only [AtomQuantifier.generateGraph.repeated, addNode, addEpsilonTransition,
      heq, List.append_assoc, Nat.add_assoc]
  · have := ha.leaves
    grind
  · have := ha.bounded
    grind
  · -- the end is given what may still follow, repetitions first
    obtain ⟨K', hkp, hK'⟩ := ha.sound (update (update K (k + 1) (KStar.kstar L * K d)) k
      (L * (KStar.kstar L * K d))) (by simp)
    have hst : K' k = L * (KStar.kstar L * K d) := by rw [hkp k (by omega), update_self]
    have he : K' (k + 1) = KStar.kstar L * K d := by
      rw [hkp _ (by omega), update_of_ne (by omega), update_self]
    have hold : ∀ u < k, K' u = K u := by
      intro u hu
      rw [hkp u (by omega), update_of_ne (by omega), update_of_ne (by omega)]
    refine ⟨K', hold, ?_⟩
    simp only [steps_append, steps_epsilon]
    refine (((respects_epsilon ?_).sup hK').sup (respects_epsilon ?_)).sup (respects_epsilon ?_)
    · rwa [hst, hold s hs, ← mul_assoc]
    · rw [hst, he, ← mul_assoc]
      exact mul_le_mul_left mul_kstar_le_kstar _
    · rw [hold d hd, he]
      exact le_mul_of_one_le_left' one_le_kstar
  · simp only [steps_append, steps_epsilon]
    have hpt := fun w hw => (ha.complete w hw).mono
      ((le_sup_right.trans le_sup_left).trans le_sup_left :
        _ ≤ Epsilon s k ⊔ Steps added ⊔ Epsilon (k + 1) k ⊔ Epsilon (k + 1) d)
    rintro _ ⟨x, hx, y, hy, rfl⟩
    refine .epsilon (.inl (.inl (.inl ⟨rfl, rfl, rfl⟩))) ((hpt x hx).append ?_)
    obtain ⟨words, rfl, hwr⟩ := Language.mem_kstar.mp hy
    clear hy
    induction words with
    | nil => exact .epsilon (.inr ⟨rfl, rfl, rfl⟩) .nil
    | cons word words ih =>
      obtain ⟨hwo, hwr⟩ := List.forall_mem_cons.mp hwr
      exact .epsilon (.inl (.inr ⟨rfl, rfl, rfl⟩)) ((hpt word hwo).append (ih hwr))

theorem Builds.quantify (quantifier : AtomQuantifier) :
    Builds (fun g s d => quantifier.generateGraph atom g s d) (quantifier.language L) := by
  cases quantifier with
  | one => exact h
  | zeroOrOne => exact h.option
  | zeroOrMore =>
    have hop := h.repeated.option
    rwa [add_comm, Language.one_add_self_mul_kstar_eq_kstar] at hop
  | oneOrMore => exact h.repeated

end

theorem builds_characterSet :
    Builds (fun g s d => (AtomData.characterSet set).generateSubgraphForAtom g s d)
      (AtomData.characterSet set).language := by
  intro k eds s d hs hd
  -- the two loops differ in the condition and in where they start
  have hrn : ∃ p i, (AtomData.characterSet set).generateSubgraphForAtom ⟨k, eds⟩ s d =
      addRuns p s d ⟨k, eds⟩ i ∧ ∀ c, set.Matches c ↔ i ≤ c ∧ c < 128 ∧ p c := by
    unfold AtomData.generateSubgraphForAtom CharacterSet.Matches
    cases set.inverted with
    | true => exact ⟨(!set.get ·), 1, rfl, by simp⟩
    | false => exact ⟨set.get, 0, rfl, by simp⟩
  obtain ⟨p, i, heq, hmt⟩ := hrn
  obtain ⟨added, hadd, hen, hrd⟩ := addRuns_spec p s d ⟨k, eds⟩ i
  refine ⟨0, added, heq.trans hadd, fun e he => .inl (hen e he).1, fun e he => ?_,
    fun K hK => ⟨K, fun _ _ => rfl, ?_⟩, ?_⟩
  · rw [(hen e he).1, (hen e he).2]
    exact ⟨hs, hd⟩
  · rintro _ l _ ⟨e, he, rfl, hl, rfl⟩ w hw
    obtain ⟨c, rfl, hc⟩ := (hrd l).mp ⟨e, he, hl⟩
    rw [(hen e he).2] at hw
    rw [(hen e he).1]
    exact hK (Language.mem_mul.mpr ⟨[c], ⟨c, (hmt c).mpr hc, rfl⟩, w, hw, rfl⟩)
  · rintro _ ⟨c, hc, rfl⟩
    obtain ⟨e, he, hl⟩ := (hrd (some c)).mpr ⟨c, rfl, (hmt c).mp hc⟩
    have hst : Steps added s (some c) d := ⟨e, he, (hen e he).1, hl, (hen e he).2⟩
    exact .step hst .nil

theorem builds_epsilon : Builds addEpsilonTransition 1 := by
  intro k eds s d hs hd
  refine ⟨0, [⟨s, none, d⟩], rfl, by simp, by simp [hs, hd],
    fun K hK => ⟨K, fun _ _ => rfl, ?_⟩, ?_⟩
  · rw [steps_epsilon]
    exact respects_epsilon (one_mul (K d) ▸ hK)
  · rintro w rfl
    rw [steps_epsilon]
    exact .epsilon ⟨rfl, rfl, rfl⟩ .nil

theorem Builds.append {fst rest : Graph → Nat → Nat → Graph} {L₁ L₂ : Language Nat}
    (h₁ : Builds fst L₁) (h₂ : Builds rest L₂) :
    Builds (fun g s d => rest (fst g.addNode s g.nodes) g.nodes d) (L₁ * L₂) := by
  intro k eds s d hs hd
  obtain ⟨n₁, added₁, heq₁, ha₁⟩ := h₁ (k + 1) eds s k (by omega) (by omega)
  obtain ⟨n₂, added₂, heq₂, ha₂⟩ := h₂ (k + 1 + n₁) (eds ++ added₁) k d (by omega) (by omega)
  refine ⟨1 + n₁ + n₂, added₁ ++ added₂, ?_, ?_, ?_, fun K hK => ?_, ?_⟩
  · simp only [addNode, heq₁, heq₂]
    simp only [List.append_assoc, add_assoc]
  · have := ha₁.leaves
    have := ha₂.leaves
    grind
  · have := ha₁.bounded
    have := ha₂.bounded
    grind
  · rw [steps_append]
    obtain ⟨K₁, hkeep₁, hK₁⟩ := ha₁.sound (update K k (L₂ * K d))
      (by rwa [update_self, update_of_ne (by omega), ← mul_assoc])
    obtain ⟨K₂, hkeep₂, hK₂⟩ := ha₂.sound K₁ (by
      rw [hkeep₁ d (by omega), hkeep₁ k (by omega), update_self, update_of_ne (by omega)])
    refine ⟨K₂, fun u hu => ?_, .sup (hK₁.congr ?_) hK₂⟩
    · rw [hkeep₂ u (by omega), hkeep₁ u (by omega), update_of_ne (by omega)]
    · -- the second part leaves the nodes of the first one alone
      rintro _ _ _ ⟨e, he, rfl, _, rfl⟩
      obtain ⟨hsource, htr⟩ := ha₁.bounded e he
      exact ⟨hkeep₂ _ hsource, hkeep₂ _ htr⟩
  · rw [steps_append]
    rintro _ ⟨x, hx, y, hy, rfl⟩
    exact ((ha₁.complete x hx).mono le_sup_left).append ((ha₂.complete y hy).mono le_sup_right)

mutual

theorem Term.builds : ∀ term : Term, Builds (fun g s d => term.generateGraph g s d) term.language
  | .mk atomData quantifier => atomData.builds.quantify quantifier

theorem AtomData.builds : ∀ atomData : AtomData,
    Builds (fun g s d => atomData.generateSubgraphForAtom g s d) atomData.language
  | .characterSet set => builds_characterSet set
  | .group terms => builds_group terms

theorem builds_group : ∀ terms : List Term,
    Builds (fun g s d => generateGroup g s d terms) (groupLanguage terms)
  | [] => builds_epsilon
  | [term] => by
    have htr := term.builds
    rwa [← mul_one term.language] at htr
  | term :: next :: terms => term.builds.append (builds_group (next :: terms))

end

/-- The new transitions lead from source to destination along the language, and leave no other old
node. -/
def Term.GeneratesLanguage (term : Term) (g : Graph) (source destination : Nat) : Prop :=
  ∃ added, (term.generateGraph g source destination).edges = g.edges ++ added ∧
    (∀ w, Path (Steps added) destination source w ↔ w ∈ term.language) ∧
    ∀ e ∈ added, e.source = source ∨ g.nodes ≤ e.source

/-- **The graph of a term** has the language of the term between two different nodes. -/
theorem generateGraph_language (term : Term) (g : Graph) {source destination : Nat}
    (hs : source < g.nodes) (hd : destination < g.nodes) (hne : source ≠ destination) :
    term.GeneratesLanguage g source destination := by
  obtain ⟨n, added, heq, hadd⟩ := term.builds g.nodes g.edges source destination hs hd
  refine ⟨added, congrArg edges heq, fun w => ⟨fun hpath => ?_, hadd.complete w⟩,
    hadd.leaves⟩
  obtain ⟨K, hkeep, hK⟩ := hadd.sound (fun u => if u = destination then 1 else term.language)
    (by simp [hne])
  have hmem := hpath.mem hK (by rw [hkeep _ hd, if_pos rfl]; exact Language.nil_mem_one)
  rwa [hkeep _ hs, if_neg hne] at hmem

/-- `a+` between two nodes. -/
theorem generateGraph_language_plus :
    (Term.mk (.characterSet ⟨false, .twoPow 128 97⟩) .oneOrMore).GeneratesLanguage ⟨2, []⟩ 0 1 :=
  generateGraph_language _ ⟨2, []⟩ (by decide) (by decide) (by decide)

/-- A node leads to itself along the empty string, which `a` does not match. -/
theorem not_generateGraph_language :
    ¬(Term.mk (.characterSet ⟨false, .twoPow 128 97⟩) .one).GeneratesLanguage ⟨1, []⟩ 0 0 := by
  rintro ⟨added, _, hpath, _⟩
  obtain ⟨c, _, ⟨⟩⟩ := (hpath []).mp .nil

end WebKit.ContentExtensions.Terms
