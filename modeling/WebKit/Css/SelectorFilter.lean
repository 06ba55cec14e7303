import WebKit.Css.Selector
import WebKit.Lib.Runs
import WebKit.Wtf.CountingBloomFilter

/-!
# The ancestor filter of style resolution

`SelectorFilter` keeps the stack of the elements above the one whose style is resolved, and their
tag, id and class names in a counting Bloom filter. A selector with a compound that must match an
ancestor is rejected if a name of that compound is not in the filter.

There is one exception to its correctness: `collectElementIdentifierHashes` takes the class names
of `StyledElement`s only, while `SelectorChecker` looks at those of every element. An element of an
unknown namespace is a plain `Element`, and can have classes. And `collectIdentifierHashes` writes
past the end of an array of no entries.
-/

namespace WebKit.Css

open Wtf List Relation.TransGen

structure ParentStackFrame (Element : Type*) where
  element : Element
  identifierHashes : List (BitVec 32)

def bloomFilterKeyBits : Nat := 12

/-- `SelectorFilter`. The last frame of the stack is the first one here. -/
structure SelectorFilter (Element : Type*) where
  parentStack : List (ParentStackFrame Element)
  ancestorIdentifierFilter : Option (CountingBloomFilter bloomFilterKeyBits)

def tagNameSalt : BitVec 32 := 13
def idAttributeSalt : BitVec 32 := 17
def classAttributeSalt : BitVec 32 := 19

section Collect

/-! ## The names of an element and of a selector -/

variable {Element : Type*} (tree : DOMTree Element) (existingHash : AtomicString → BitVec 32)

def collectElementIdentifierHashes (element : Element) : List (BitVec 32) :=
  let data := tree.data element
  [existingHash (convertToASCIILowercase data.localName) * tagNameSalt]
    ++ (match data.id with
      | some id => [existingHash id * idAttributeSalt]
      | none => [])
    ++ (if data.isStyledElement && data.hasClass then
        data.classNames.map (fun className => existingHash className * classAttributeSalt)
      else [])

/-- What is written for a simple selector. -/
def collectDescendantSelectorIdentifierHashes (selector : CSSSelector Element) :
    List (BitVec 32) :=
  match selector.selectorMatch with
  | .id value => if value ≠ [] then [existingHash value * idAttributeSalt] else []
  | .className value => if value ≠ [] then [existingHash value * classAttributeSalt] else []
  | .tag tagQName =>
    if tagQName.tagLowercaseLocalName ≠ starAtom then
      [existingHash tagQName.tagLowercaseLocalName * tagNameSalt]
    else []
  | .other _ => []

/-- The switch of `collectIdentifierHashes`: `skipOverSubselectors` after it, and what it writes.
Only identifiers that match ancestors are collected. -/
def collectSwitch (selector : CSSSelector Element) (relation : SelectorRelation)
    (skipOverSubselectors : Bool) : Bool × List (BitVec 32) :=
  match relation with
  | .subSelector =>
    if skipOverSubselectors then (true, [])
    else (false, collectDescendantSelectorIdentifierHashes existingHash selector)
  | .directAdjacent | .indirectAdjacent | .shadowDescendant => (true, [])
  | .descendant | .child =>
    (false, collectDescendantSelectorIdentifierHashes existingHash selector)

/-- The loop over `tagHistory`, with the entries written so far. -/
def collectLoop (maximumIdentifierCount : Nat) : List (CSSSelector Element) → SelectorRelation →
    Bool → List (BitVec 32) → List (BitVec 32)
  | [], _, _, written => written ++ [0]
  | selector :: tagHistory, relation, skipOverSubselectors, written =>
    let result := collectSwitch existingHash selector relation skipOverSubselectors
    if (written ++ result.2).length = maximumIdentifierCount then written ++ result.2
    else
      collectLoop maximumIdentifierCount tagHistory selector.relation result.1
        (written ++ result.2)

/-- The entries that are written to `identifierHashes`, from its start. -/
def collectIdentifierHashes (selector : List (CSSSelector Element))
    (maximumIdentifierCount : Nat) : List (BitVec 32) :=
  match selector with
  | [] => []
  | selector :: tagHistory =>
    -- Skip the topmost selector. It is handled quickly by the rule hashes.
    collectLoop existingHash maximumIdentifierCount tagHistory selector.relation true []

end Collect

/-- The array after the entries are written over its first ones. -/
def arrayWith (memory : Nat → BitVec 32) (written : List (BitVec 32)) (n : Nat) : BitVec 32 :=
  written[n]?.getD (memory n)

namespace SelectorFilter

variable {Element : Type*} (tree : DOMTree Element) (existingHash : AtomicString → BitVec 32)

/-! ## The stack -/

def create : SelectorFilter Element := ⟨[], none⟩

/-- A filter that is null is a crash. -/
def pushParentStackFrame (s : SelectorFilter Element) (parent : Element) :
    Option (SelectorFilter Element) :=
  match s.ancestorIdentifierFilter with
  | none => none
  | some filter =>
    let identifierHashes := collectElementIdentifierHashes tree existingHash parent
    some
      { parentStack := ⟨parent, identifierHashes⟩ :: s.parentStack
        ancestorIdentifierFilter := some (identifierHashes.foldl CountingBloomFilter.add filter) }

/-- The last frame of an empty stack is a crash. -/
def popParentStackFrame (s : SelectorFilter Element) : Option (SelectorFilter Element) :=
  match s.parentStack, s.ancestorIdentifierFilter with
  | parentFrame :: rest, some filter =>
    some
      { parentStack := rest
        ancestorIdentifierFilter :=
          if rest.isEmpty then none
          else some (parentFrame.identifierHashes.foldl CountingBloomFilter.remove filter) }
  | _, _ => none

/-- The loop over `parentOrShadowHostElement()`, within as many steps as the level of the element.
-/
def ancestors : Nat → Element → List Element
  | 0, _ => []
  | steps + 1, element =>
    element :: match tree.parentOrShadowHostElement element with
      | some parent => ancestors steps parent
      | none => []

def setupParentStack (parent : Element) : Option (SelectorFilter Element) :=
  let s : SelectorFilter Element := ⟨[], some .new⟩
  match tree.parentNode parent with
  | .none => s.pushParentStackFrame tree existingHash parent
  | _ =>
    (ancestors tree (tree.level parent + 1) parent).reverse.foldlM
      (fun s ancestor => pushParentStackFrame tree existingHash s ancestor) s

def pushParent [DecidableEq Element] (s : SelectorFilter Element) (parent : Element) :
    Option (SelectorFilter Element) :=
  match s.parentStack with
  | [] => none
  | last :: _ =>
    if some last.element ≠ tree.parentOrShadowHostElement parent then some s
    else s.pushParentStackFrame tree existingHash parent

/-! ## Rejection -/

/-- The loop of `fastRejectSelector` from the entry `n` on. -/
def fastRejectLoop (filter : CountingBloomFilter bloomFilterKeyBits)
    (identifierHashes : Nat → BitVec 32) (n : Nat) : Nat → Bool
  | 0 => false
  | remaining + 1 =>
    if identifierHashes n = 0 then false
    else if !filter.mayContain (identifierHashes n) then true
    else fastRejectLoop filter identifierHashes (n + 1) remaining

def fastRejectSelector (s : SelectorFilter Element) (maximumIdentifierCount : Nat)
    (identifierHashes : Nat → BitVec 32) : Option Bool :=
  match s.ancestorIdentifierFilter with
  | none => none
  | some filter => some (fastRejectLoop filter identifierHashes 0 maximumIdentifierCount)

/-- A call of the style resolver. -/
inductive Event (Element : Type*) where
  | setupParentStack (parent : Element)
  | pushParent (parent : Element)
  | popParent

def step [DecidableEq Element] (s : SelectorFilter Element) :
    Event Element → Option (SelectorFilter Element)
  | .setupParentStack parent => setupParentStack tree existingHash parent
  | .pushParent parent => s.pushParent tree existingHash parent
  | .popParent => s.popParentStackFrame

end SelectorFilter

/-! ## What is written -/

section Written

variable {Element : Type*} {existingHash : AtomicString → BitVec 32}
variable (selector : CSSSelector Element)

theorem length_collectDescendant_le :
    (collectDescendantSelectorIdentifierHashes existingHash selector).length ≤ 1 := by
  rw [collectDescendantSelectorIdentifierHashes]
  split
  · split <;> simp
  · split <;> simp
  · split <;> simp
  · simp

theorem length_collectSwitch_le (rel : SelectorRelation) (skipOverSubselectors : Bool) :
    (collectSwitch existingHash selector rel skipOverSubselectors).2.length ≤ 1 := by
  cases rel with
  | subSelector =>
    cases skipOverSubselectors with
    | true => exact Nat.zero_le 1
    | false => exact length_collectDescendant_le selector
  | directAdjacent | indirectAdjacent | shadowDescendant => exact Nat.zero_le 1
  | descendant | child => exact length_collectDescendant_le selector

variable {maximumIdentifierCount : Nat}

theorem length_collectLoop_le (th : List (CSSSelector Element))
    (rel : SelectorRelation) (skipOverSubselectors : Bool) {wrt : List (BitVec 32)}
    (h : wrt.length < maximumIdentifierCount) :
    (collectLoop existingHash maximumIdentifierCount th rel skipOverSubselectors
      wrt).length ≤ maximumIdentifierCount := by
  induction th generalizing rel skipOverSubselectors wrt with
  | nil =>
    rw [collectLoop, length_append]
    exact h
  | cons selector th ih =>
    rw [collectLoop]
    split
    next hfl => exact hfl.le
    · next hrm =>
      refine ih _ _ (lt_of_le_of_ne ?_ hrm)
      rw [length_append]
      exact (Nat.add_le_add_left (length_collectSwitch_le ..) _).trans h

theorem length_collectIdentifierHashes_le (selector : List (CSSSelector Element))
    (h : 0 < maximumIdentifierCount) :
    (collectIdentifierHashes existingHash selector maximumIdentifierCount).length
      ≤ maximumIdentifierCount := by
  cases selector with
  | nil => exact Nat.zero_le _
  | cons selector th => exact length_collectLoop_le th selector.relation true h

theorem collectLoop_ends (th : List (CSSSelector Element)) (rel : SelectorRelation)
    (skipOverSubselectors : Bool) (wrt : List (BitVec 32)) :
    let result := collectLoop existingHash maximumIdentifierCount th rel skipOverSubselectors wrt
    result.length = maximumIdentifierCount ∨ (0 : BitVec 32) ∈ result := by
  induction th generalizing rel skipOverSubselectors wrt with
  | nil =>
    right
    exact mem_append_right _ mem_cons_self
  | cons selector th ih =>
    rw [collectLoop]
    simp only
    split
    next hfl => exact .inl hfl
    · exact ih _ _ _

end Written

/-! ## The names of what matches -/

section Names

variable {Element : Type*} (tree : DOMTree Element)

/-- The class names of the element are in the filter if it is on the stack. -/
def ClassesCollected (e : Element) : Prop :=
  (tree.data e).hasClass = true → (tree.data e).isStyledElement = true

variable {tree} {existingHash : AtomicString → BitVec 32} {e : Element}
variable {selector : CSSSelector Element}

/-- The name that a simple selector asks for is one of the names of an element it matches. -/
theorem mem_collectElement_of_checkOne {hash : BitVec 32}
    (hcls : ClassesCollected tree e) (hchk : tree.checkOne e selector.selectorMatch = true)
    (hm : hash ∈ collectDescendantSelectorIdentifierHashes existingHash selector) :
    hash ∈ collectElementIdentifierHashes tree existingHash e := by
  rw [collectDescendantSelectorIdentifierHashes] at hm
  rw [collectElementIdentifierHashes]
  cases hmt : selector.selectorMatch with
  | tag tagQName =>
    simp only [hmt, mem_ite_nil_right, mem_singleton] at hm hchk
    rw [hm.2, ← DOMTree.tagLowercaseLocalName_of_tagMatches hchk hm.1]
    exact mem_append_left _ (mem_append_left _ mem_cons_self)
  | id value =>
    simp only [hmt, mem_ite_nil_right, mem_singleton] at hm hchk
    have hid : (tree.data e).id = some value := of_decide_eq_true hchk
    rw [hm.2, hid]
    exact mem_append_left _ (mem_append_right _ mem_cons_self)
  | className value =>
    simp only [hmt, mem_ite_nil_right, mem_singleton] at hm hchk
    obtain ⟨hhas, hcts⟩ := Bool.and_eq_true_iff.mp hchk
    refine mem_append_right _ ?_
    rw [hcls hhas, hhas, Bool.and_self, if_pos rfl, hm.2]
    exact mem_map_of_mem (contains_iff_mem.mp hcts)
  | other test =>
    simp only [hmt] at hm
    cases hm

variable {stack : List Element}

/-- The names of the elements on the stack. -/
def namesOf (tree : DOMTree Element) (existingHash : AtomicString → BitVec 32)
    (stack : List Element) : List (BitVec 32) :=
  stack.flatMap (collectElementIdentifierHashes tree existingHash)

/-- Everything above the element is on the stack. -/
def BelowStack (tree : DOMTree Element) (stack : List Element) (e : Element) : Prop :=
  ∀ a, tree.Above e a → a ∈ stack

theorem BelowStack.above (h : BelowStack tree stack e) {a : Element} (ha : tree.Above e a) :
    BelowStack tree stack a :=
  fun b hb => h b (ha.trans hb)

theorem BelowStack.sibling (h : BelowStack tree stack e) {p : Element}
    (hp : tree.previousElementSibling e = some p) : BelowStack tree stack p :=
  fun a ha => h a (DOMTree.above_of_sibling hp ha)

theorem BelowStack.siblings (h : BelowStack tree stack e) {p : Element}
    (hp : Relation.TransGen (fun e p => tree.previousElementSibling e = some p) e p) :
    BelowStack tree stack p := by
  induction hp with
  | single hp => exact h.sibling hp
  | tail _ hp ih => exact ih.sibling hp

variable {skipOverSubselectors : Bool}

/-- One round writes names of elements on the stack, to which a descendant or child relation leads,
and which stay for the rest of the compound. -/
theorem collectSwitch_names (existingHash : AtomicString → BitVec 32) {e' : Element}
    {rel : SelectorRelation} {next : CSSSelector Element}
    (hcls : ∀ a ∈ stack, ClassesCollected tree a) (hblw : BelowStack tree stack e)
    (hsk : skipOverSubselectors = false → e ∈ stack) (hrld : tree.Related rel e e')
    (hchk : tree.checkOne e' next.selectorMatch = true) :
    let result := collectSwitch existingHash next rel skipOverSubselectors
    BelowStack tree stack e' ∧ (result.1 = false → e' ∈ stack) ∧
      ∀ hash ∈ result.2, hash ∈ namesOf tree existingHash stack := by
  have hnms : e' ∈ stack → ∀ hash ∈ collectDescendantSelectorIdentifierHashes existingHash next,
      hash ∈ namesOf tree existingHash stack := fun hm hash hhs =>
    mem_flatMap.mpr ⟨e', hm, mem_collectElement_of_checkOne (hcls e' hm) hchk hhs⟩
  have hup : tree.Above e e' → BelowStack tree stack e' ∧ (false = false → e' ∈ stack) ∧
      ∀ hash ∈ collectDescendantSelectorIdentifierHashes existingHash next,
        hash ∈ namesOf tree existingHash stack := fun habv =>
    ⟨hblw.above habv, fun _ => hblw e' habv, hnms (hblw e' habv)⟩
  have hskp : BelowStack tree stack e' → BelowStack tree stack e' ∧
      (true = false → e' ∈ stack) ∧ ∀ hash ∈ ([] : List (BitVec 32)),
        hash ∈ namesOf tree existingHash stack := fun h =>
    ⟨h, nofun, forall_mem_nil _⟩
  cases rel with
  | subSelector =>
    have heq : e' = e := hrld
    have hblw' : BelowStack tree stack e' := heq ▸ hblw
    cases skipOverSubselectors with
    | true => exact hskp hblw'
    | false =>
      have hm : e' ∈ stack := heq ▸ hsk rfl
      exact ⟨hblw', fun _ => hm, hnms hm⟩
  | directAdjacent => exact hskp (hblw.sibling hrld)
  | indirectAdjacent =>
    have hsb : Relation.TransGen (fun e p => tree.previousElementSibling e = some p) e e' := hrld
    exact hskp (hblw.siblings hsb)
  | shadowDescendant =>
    exact hskp (hblw.above (DOMTree.above_of_shadowHost hrld))
  | descendant => exact hup (DOMTree.above_of_ancestor hrld)
  | child => exact hup (DOMTree.above_of_parentElement hrld)

variable {maximumIdentifierCount : Nat}

theorem collectLoop_names {th : List (CSSSelector Element)} {wrt : List (BitVec 32)}
    (hcls : ∀ a ∈ stack, ClassesCollected tree a) (hblw : BelowStack tree stack e)
    (hsk : skipOverSubselectors = false → e ∈ stack)
    (hmt : tree.Matches (selector :: th) e)
    (hwr : ∀ hash ∈ wrt, hash ∈ namesOf tree existingHash stack) :
    ∀ hash ∈ collectLoop existingHash maximumIdentifierCount th selector.relation
      skipOverSubselectors wrt, hash = 0 ∨ hash ∈ namesOf tree existingHash stack := by
  induction th generalizing selector e skipOverSubselectors wrt with
  | nil =>
    intro hash hm
    rw [collectLoop, mem_append, mem_singleton] at hm
    exact hm.symm.imp_right (hwr hash)
  | cons next rest ih =>
    obtain ⟨-, e', hrld, hrest⟩ := hmt
    obtain ⟨hblw', hsk', hrnd⟩ := collectSwitch_names existingHash hcls hblw hsk hrld hrest.checkOne
    have hwr' := forall_mem_append.mpr ⟨hwr, hrnd⟩
    rw [collectLoop]
    split
    · exact fun hash hm => .inr (hwr' hash hm)
    · exact ih hblw' hsk' hrest hwr'

variable {selector : List (CSSSelector Element)}

theorem collectIdentifierHashes_names (hcls : ∀ a ∈ stack, ClassesCollected tree a)
    (hblw : BelowStack tree stack e) (hmt : tree.Matches selector e) :
    ∀ hash ∈ collectIdentifierHashes existingHash selector maximumIdentifierCount,
      hash = 0 ∨ hash ∈ namesOf tree existingHash stack := by
  cases selector with
  | nil => exact absurd hmt not_false
  | cons selector th =>
    exact collectLoop_names hcls hblw nofun hmt (forall_mem_nil _)

theorem collectIdentifierHashes_ends (hmt : tree.Matches selector e) :
    (collectIdentifierHashes existingHash selector maximumIdentifierCount).length
        = maximumIdentifierCount ∨
      (0 : BitVec 32) ∈ collectIdentifierHashes existingHash selector maximumIdentifierCount := by
  cases selector with
  | nil => exact absurd hmt not_false
  | cons selector th => exact collectLoop_ends th selector.relation true []

end Names

namespace SelectorFilter

/-! ## The loop of `fastRejectSelector` -/

theorem fastRejectLoop_eq_false {flt : CountingBloomFilter bloomFilterKeyBits}
    {memory : Nat → BitVec 32} {wrt : List (BitVec 32)} {maximumIdentifierCount : Nat}
    (hfnd : ∀ hash ∈ wrt, hash = 0 ∨ flt.mayContain hash = true)
    (hen : wrt.length = maximumIdentifierCount ∨ (0 : BitVec 32) ∈ wrt)
    {n rem : Nat} (hn : n + rem = maximumIdentifierCount)
    (hbef : (0 : BitVec 32) ∉ wrt.take n) :
    fastRejectLoop flt (arrayWith memory wrt) n rem = false := by
  induction rem generalizing n with
  | zero => rfl
  | succ rem ih =>
    have hin : n < wrt.length := by
      rcases hen with hfl | hz
      · omega
      · by_contra ho
        rw [take_of_length_le (Nat.le_of_not_lt ho)] at hbef
        exact hbef hz
    have he : arrayWith memory wrt n = wrt[n] := by
      rw [arrayWith, getElem?_eq_getElem hin, Option.getD_some]
    rw [fastRejectLoop, he]
    by_cases hz : wrt[n] = 0
    · rw [if_pos hz]
    have hcts : flt.mayContain wrt[n] = true := (hfnd _ (getElem_mem hin)).resolve_left hz
    rw [if_neg hz, if_neg (by simp [hcts])]
    refine ih (by omega) ?_
    rw [take_succ_eq_append_getElem hin, mem_append, mem_singleton]
    exact not_or.mpr ⟨hbef, fun h => hz h.symm⟩

/-! ## The stack invariant -/

section Invariant

variable {Element : Type*} (tree : DOMTree Element) (existingHash : AtomicString → BitVec 32)

/-- Each element is the parent or shadow host of the one before, up to the root. -/
def IsChain : List Element → Prop
  | [] => True
  | [e] => tree.parentOrShadowHostElement e = none
  | e :: p :: rest => tree.parentOrShadowHostElement e = some p ∧ IsChain (p :: rest)

/-- The stack is a path to the root with the names of its elements, which the filter has. -/
structure Consistent (s : SelectorFilter Element) : Prop where
  chain : IsChain tree (s.parentStack.map ParentStackFrame.element)
  hashes : ∀ frame ∈ s.parentStack,
    frame.identifierHashes = collectElementIdentifierHashes tree existingHash frame.element
  filter : ∀ f, s.ancestorIdentifierFilter = some f →
    f.Holds (s.parentStack.flatMap ParentStackFrame.identifierHashes)
  filter_ne_none : s.parentStack ≠ [] → s.ancestorIdentifierFilter ≠ none
  classes : ∀ a ∈ s.parentStack.map ParentStackFrame.element, ClassesCollected tree a

variable {tree existingHash} {s s' : SelectorFilter Element} {e : Element} {rest : List Element}

theorem IsChain.above_mem {a : Element} (h : IsChain tree (e :: rest)) (ha : tree.Above e a) :
    a ∈ rest := by
  induction rest generalizing e with
  | nil =>
    obtain ⟨p, hp, -⟩ := head'_iff.mp ha
    rw [show tree.parentOrShadowHostElement e = none from h] at hp
    cases hp
  | cons par rest ih =>
    obtain ⟨p, hp, hpa⟩ := head'_iff.mp ha
    rw [h.1] at hp
    cases hp
    rcases Relation.reflTransGen_iff_eq_or_transGen.mp hpa with heq | habv
    · exact heq ▸ mem_cons_self
    · exact mem_cons_of_mem _ (ih h.2 habv)

theorem IsChain.tail (h : IsChain tree (e :: rest)) : IsChain tree rest := by
  cases rest with
  | nil => trivial
  | cons p rest => exact h.2

theorem IsChain.belowStack {last : Element} (h : IsChain tree (last :: rest))
    (hpar : tree.parentOrShadowHostElement e = some last) :
    BelowStack tree (last :: rest) e := by
  intro a ha
  have hchn : IsChain tree (e :: last :: rest) := ⟨hpar, h⟩
  exact hchn.above_mem ha

theorem ancestors_chain {steps : Nat} (h : tree.level e < steps) :
    IsChain tree (ancestors tree steps e) := by
  induction steps generalizing e with
  | zero => omega
  | succ steps ih =>
    rw [ancestors]
    cases hpar : tree.parentOrShadowHostElement e with
    | none => exact hpar
    | some p =>
      have hlv := tree.level_lt e p hpar
      cases steps with
      | zero => omega
      | succ steps => exact ⟨hpar, ih (by omega)⟩

theorem mem_ancestors {steps : Nat} {a : Element} (h : a ∈ ancestors tree steps e) :
    a = e ∨ tree.Above e a := by
  induction steps generalizing e with
  | zero => cases h
  | succ steps ih =>
    rcases mem_cons.mp h with heq | hm
    · exact .inl heq
    right
    cases hpar : tree.parentOrShadowHostElement e with
    | none => rw [hpar] at hm; cases hm
    | some p =>
      rw [hpar] at hm
      rcases ih hm with heq | habv
      · exact DOMTree.above_of_parentOrShadowHostElement (heq ▸ hpar)
      · exact head hpar habv

theorem consistent_nil {filter : Option (CountingBloomFilter bloomFilterKeyBits)}
    (h : ∀ f, filter = some f → f.Holds []) : Consistent tree existingHash ⟨[], filter⟩ where
  chain := trivial
  hashes := forall_mem_nil _
  filter := h
  filter_ne_none := fun hne => absurd rfl hne
  classes := forall_mem_nil _

theorem create_consistent : Consistent tree existingHash create := consistent_nil nofun

theorem cleared_consistent : Consistent tree existingHash ⟨[], some .new⟩ :=
  consistent_nil fun _ hf => Option.some.inj hf ▸ CountingBloomFilter.new_holds

theorem Consistent.pushParentStackFrame (h : Consistent tree existingHash s)
    (hchn : IsChain tree (e :: s.parentStack.map ParentStackFrame.element))
    (hcls : ClassesCollected tree e)
    (hps : s.pushParentStackFrame tree existingHash e = some s') :
    Consistent tree existingHash s' ∧
      s'.parentStack.map ParentStackFrame.element
        = e :: s.parentStack.map ParentStackFrame.element := by
  rw [SelectorFilter.pushParentStackFrame] at hps
  cases hflt : s.ancestorIdentifierFilter with
  | none => rw [hflt] at hps; cases hps
  | some filter =>
    rw [hflt] at hps
    cases hps
    refine ⟨?_, rfl⟩
    exact
      { chain := hchn
        hashes := forall_mem_cons.mpr ⟨rfl, h.hashes⟩
        filter := fun _ hf => by
          cases hf
          exact (h.filter filter hflt).foldl_add (by decide) _
        filter_ne_none := nofun
        classes := forall_mem_cons.mpr ⟨hcls, h.classes⟩ }

theorem Consistent.popParentStackFrame (h : Consistent tree existingHash s)
    (hpop : s.popParentStackFrame = some s') : Consistent tree existingHash s' := by
  rw [SelectorFilter.popParentStackFrame] at hpop
  split at hpop
  · next parentFrame rest filter hs hflt =>
    cases hpop
    obtain ⟨hchn, hhsh, hhd, -, hcls⟩ := h
    rw [hs] at hchn hhsh hhd hcls
    refine
      { chain := hchn.tail
        hashes := (forall_mem_cons.mp hhsh).2
        filter := fun f hf => ?_
        filter_ne_none := fun hne => ?_
        classes := (forall_mem_cons.mp hcls).2 }
    · split at hf
      · cases hf
      · cases hf
        exact CountingBloomFilter.Holds.foldl_remove (by decide) _ (hhd filter hflt)
    · rw [if_neg (fun hemp => hne (isEmpty_iff.mp hemp))]
      exact Option.some_ne_none _
  · cases hpop

theorem pushAncestors {path : List Element} (hchn : IsChain tree path)
    (hcls : ∀ a ∈ path, ClassesCollected tree a)
    (hps : path.reverse.foldlM (fun s ancestor =>
      SelectorFilter.pushParentStackFrame tree existingHash s ancestor) ⟨[], some .new⟩ = some s') :
    Consistent tree existingHash s' ∧ s'.parentStack.map ParentStackFrame.element = path := by
  induction path generalizing s' with
  | nil =>
    cases hps
    exact ⟨cleared_consistent, rfl⟩
  | cons e rest ih =>
    rw [reverse_cons, foldlM_append] at hps
    obtain ⟨s, hs, hls⟩ := Option.bind_eq_some_iff.mp hps
    obtain ⟨hcla, hrest⟩ := forall_mem_cons.mp hcls
    obtain ⟨hcn, hstk⟩ := ih hchn.tail hrest hs
    obtain ⟨s'', hs'', ⟨⟩⟩ := Option.bind_eq_some_iff.mp hls
    have hres := hcn.pushParentStackFrame (hstk.symm ▸ hchn) hcla hs''
    rw [hstk] at hres
    exact hres

theorem setupParentStack_consistent {par : Element}
    (hcls : ∀ a, a = par ∨ tree.Above par a → ClassesCollected tree a)
    (hstp : setupParentStack tree existingHash par = some s') :
    Consistent tree existingHash s' := by
  rw [setupParentStack] at hstp
  split at hstp
  · next hrt =>
    refine (cleared_consistent.pushParentStackFrame ?_ (hcls par (.inl rfl)) hstp).1
    show tree.parentOrShadowHostElement par = none
    rw [DOMTree.parentOrShadowHostElement, hrt]
    rfl
  · exact (pushAncestors (ancestors_chain (Nat.lt_succ_self _))
      (fun a ha => hcls a (mem_ancestors ha)) hstp).1

/-! ## Runs -/

variable (tree) in
/-- The elements that a call pushes are `StyledElement`s if they have classes. -/
def PushesCollected (_ : SelectorFilter Element) : Event Element → Prop
  | .setupParentStack parent => ∀ a, a = parent ∨ tree.Above parent a → ClassesCollected tree a
  | .pushParent parent => ClassesCollected tree parent
  | .popParent => True

variable (tree existingHash) in
/-- No selector that matches a child of the top of the stack is rejected, with any array. -/
def NeverRejectsMatch (s : SelectorFilter Element) : Prop :=
  ∀ e last, s.parentStack.head? = some last →
    tree.parentOrShadowHostElement e = some last.element →
    ∀ selector, tree.Matches selector e → ∀ maximumIdentifierCount memory,
      s.fastRejectSelector maximumIdentifierCount
        (arrayWith memory (collectIdentifierHashes existingHash selector maximumIdentifierCount))
          = some false

theorem Consistent.neverRejectsMatch (h : Consistent tree existingHash s) :
    NeverRejectsMatch tree existingHash s := by
  intro e last hls hpar selector hmt maximumIdentifierCount memory
  obtain ⟨frames, hs⟩ := head?_eq_some_iff.mp hls
  obtain ⟨flt, hflt⟩ := Option.ne_none_iff_exists'.mp (h.filter_ne_none (by simp [hs]))
  have hblw : BelowStack tree (s.parentStack.map ParentStackFrame.element) e := by
    have hchn := h.chain
    rw [hs] at hchn ⊢
    exact hchn.belowStack hpar
  have hnms : namesOf tree existingHash (s.parentStack.map ParentStackFrame.element)
      = s.parentStack.flatMap ParentStackFrame.identifierHashes := by
    rw [namesOf, flatMap_map, flatMap_def, flatMap_def]
    exact congrArg List.flatten (map_congr_left (fun frame hfrm => (h.hashes frame hfrm).symm))
  have hhd := h.filter flt hflt
  rw [← hnms] at hhd
  rw [fastRejectSelector, hflt]
  refine congrArg some (fastRejectLoop_eq_false ?_ (collectIdentifierHashes_ends hmt)
    (zero_add _) ?_)
  · intro hash hm
    refine (collectIdentifierHashes_names h.classes hblw hmt hash hm).imp_right ?_
    exact fun hnm => hhd.mayContain (by decide) hnm
  · exact not_mem_nil

variable [DecidableEq Element]

theorem Consistent.step {event : Event Element} (h : Consistent tree existingHash s)
    (hcl : PushesCollected tree s event)
    (hst : step tree existingHash s event = some s') : Consistent tree existingHash s' := by
  cases event with
  | setupParentStack par => exact setupParentStack_consistent hcl hst
  | pushParent par =>
    rw [SelectorFilter.step, pushParent] at hst
    split at hst
    · cases hst
    next last rest hs =>
    split at hst
    · exact Option.some.inj hst ▸ h
    next hpar =>
    have hchn := h.chain
    refine (h.pushParentStackFrame ?_ hcl hst).1
    rw [hs] at hchn ⊢
    exact ⟨(not_not.mp hpar).symm, hchn⟩
  | popParent => exact h.popParentStackFrame hst

end Invariant

open Runs

/-- **The filter never rejects a match**, for any tree, any hash function and any selector, in
every state of a run in which the elements pushed have their class names collected. And
`collectIdentifierHashes` stays inside any array that has an entry. -/
theorem neverRejectsMatch_of_pushesCollected {Element : Type*} [DecidableEq Element]
    (tree : DOMTree Element) (existingHash : AtomicString → BitVec 32)
    (events : List (Event Element))
    (hcollected : AllSteps (step tree existingHash) (PushesCollected tree) create events) :
    AllStates (step tree existingHash) (NeverRejectsMatch tree existingHash) create events ∧
      ∀ (selector : List (CSSSelector Element)) maximumIdentifierCount,
        0 < maximumIdentifierCount →
          (collectIdentifierHashes existingHash selector maximumIdentifierCount).length
            ≤ maximumIdentifierCount := by
  have hstep : ∀ s event s', Consistent tree existingHash s → PushesCollected tree s event →
      step tree existingHash s event = some s' → Consistent tree existingHash s' :=
    fun s event s' h hevent hs' => h.step hevent hs'
  have hall := invariant_of_allSteps hstep create_consistent hcollected
  exact ⟨hall.mono (fun s h => h.neverRejectsMatch),
    fun selector _ hpos => length_collectIdentifierHashes_le selector hpos⟩

/-! ## A plain element with a class -/

/-- A hash of the characters. -/
def sumHash (string : AtomicString) : BitVec 32 :=
  BitVec.ofNat 32 (string.foldl (fun sum c => 31 * sum + c.toNat) 1)

/-- A parent with a class, which is a `StyledElement` or not, and its child. -/
def parentAndChild (isStyledElement : Bool) : DOMTree Bool where
  data := fun isChild =>
    if isChild then ⟨[0x62], [], false, false, none, []⟩
    else ⟨[0x61], [], false, isStyledElement, none, [[0x63]]⟩
  parentNode := fun isChild => if isChild then .element false else .none
  previousElementSibling := fun _ => none
  isHTMLDocument := false
  level := fun isChild => if isChild then 1 else 0
  level_lt := by decide
  sibling_parentNode := by decide

/-- The selector `.c b`. -/
def classThenTag : List (CSSSelector Bool) :=
  [⟨.tag ⟨[0x62], starAtom⟩, .descendant⟩, ⟨.className [0x63], .subSelector⟩]

theorem classThenTag_matches (isStyledElement : Bool) :
    (parentAndChild isStyledElement).Matches classThenTag true := by
  refine ⟨by cases isStyledElement <;> decide, false, single rfl, ?_⟩
  cases isStyledElement <;> rfl

/-- The entries for the selector, in an array of one entry. -/
def classThenTagHashes : Nat → BitVec 32 :=
  arrayWith (fun _ => 0) (collectIdentifierHashes sumHash classThenTag 1)

theorem plainParent_run :
    (run (step (parentAndChild false) sumHash) create [.setupParentStack false]).map
        (fun s => (s.parentStack.map ParentStackFrame.element,
          s.fastRejectSelector 1 classThenTagHashes))
      = some ([false], some true) := by
  decide +kernel

/-- The selector is rejected for the child of a plain element, and an array of no entries is
written. -/
theorem plain_parent_rejected :
    ¬AllStates (step (parentAndChild false) sumHash)
        (NeverRejectsMatch (parentAndChild false) sumHash) create [.setupParentStack false] ∧
      ¬(collectIdentifierHashes sumHash
        ([⟨.tag anyQName, .subSelector⟩] : List (CSSSelector Bool)) 0).length ≤ 0 := by
  refine ⟨fun hall => ?_, by decide⟩
  obtain ⟨s, hs, hres⟩ := Option.map_eq_some_iff.mp plainParent_run
  obtain ⟨hstk, hreject⟩ := Prod.mk.inj hres
  obtain ⟨last, hlast, helt⟩ : ∃ last, s.parentStack.head? = some last ∧
      last.element = false := by
    cases hfrs : s.parentStack with
    | nil => rw [hfrs] at hstk; cases hstk
    | cons last rest =>
      rw [hfrs] at hstk
      exact ⟨last, rfl, (List.cons.inj hstk).1⟩
  have hpar : (parentAndChild false).parentOrShadowHostElement true = some last.element := by
    rw [helt]
    rfl
  have haccept := hall.last hs true last hlast hpar classThenTag (classThenTag_matches false) 1
    (fun _ => 0)
  exact absurd (hreject.symm.trans haccept) (by decide)

/-- The parent is set up, and the child is pushed and popped. -/
def styledRun : List (Event Bool) := [.setupParentStack false, .pushParent true, .popParent]

/-- Where it is a `StyledElement`, the selector is not rejected. -/
theorem styled_parent_not_rejected :
    (run (step (parentAndChild true) sumHash) create styledRun).map
        (fun s => s.parentStack.map ParentStackFrame.element) = some [false] ∧
      AllSteps (step (parentAndChild true) sumHash) (PushesCollected (parentAndChild true))
        create styledRun ∧
      AllStates (step (parentAndChild true) sumHash)
        (NeverRejectsMatch (parentAndChild true) sumHash) create styledRun := by
  have hcoll : AllSteps (step (parentAndChild true) sumHash)
      (PushesCollected (parentAndChild true)) create styledRun := by
    refine fun _ _ => ⟨fun a _ => ?_, fun _ _ => ⟨fun hcla => hcla, fun _ _ => ⟨trivial, trivial⟩⟩⟩
    cases a with
    | false => exact fun _ => rfl
    | true => exact fun hcla => hcla
  exact ⟨by decide +kernel, hcoll, (neverRejectsMatch_of_pushesCollected _ _ _ hcoll).1⟩

end SelectorFilter

end WebKit.Css
