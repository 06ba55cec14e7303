import Mathlib.Logic.Relation

/-!
# Elements and the selectors that match them

A complex selector is a list of simple selectors, the rightmost compound first: `tagHistory()` is
the rest of the list, and `relation()` says how the element that the rest matches is related to
that of the simple selector.

The tests of `SelectorChecker::checkOne` on tags, ids and classes are those of the source; any
other test is an arbitrary one. The parent of an element may be a shadow root; then the host of the
root is its `parentOrShadowHostElement()`, and it has no `parentElement()`.
-/

namespace WebKit.Css

open Relation.TransGen

/-! ## Names -/

/-- The code units of an `AtomicString`. -/
abbrev AtomicString := List (BitVec 16)

def toASCIILower (c : BitVec 16) : BitVec 16 :=
  if 0x41 ≤ c ∧ c ≤ 0x5A then c ||| 0x20 else c

def convertToASCIILowercase (string : AtomicString) : AtomicString := string.map toASCIILower

def starAtom : AtomicString := [0x2A]

theorem toASCIILower_toASCIILower (c : BitVec 16) :
    toASCIILower (toASCIILower c) = toASCIILower c := by
  by_cases hupp : 0x41 ≤ c ∧ c ≤ 0x5A
  · have hlow : 0x41 ≤ c.toNat := BitVec.le_def.mp hupp.1
    have hhg : c.toNat ≤ 0x5A := BitVec.le_def.mp hupp.2
    have hle : ∀ k : Fin 26, toASCIILower (toASCIILower (BitVec.ofNat 16 (0x41 + k)))
        = toASCIILower (BitVec.ofNat 16 (0x41 + k)) := by decide
    have hlr := hle ⟨c.toNat - 0x41, by omega⟩
    have hc : BitVec.ofNat 16 (0x41 + (c.toNat - 0x41)) = c := by
      rw [Nat.add_sub_cancel' hlow, BitVec.ofNat_toNat, BitVec.setWidth_eq]
    rwa [hc] at hlr
  · have hsm : toASCIILower c = c := if_neg hupp
    rw [hsm, hsm]

theorem convertToASCIILowercase_idem (string : AtomicString) :
    convertToASCIILowercase (convertToASCIILowercase string) = convertToASCIILowercase string := by
  rw [convertToASCIILowercase, convertToASCIILowercase, List.map_map]
  exact List.map_congr_left (fun c _ => toASCIILower_toASCIILower c)

/-! ## The DOM tree -/

/-- What selectors look at in an element. -/
structure ElementData where
  localName : AtomicString
  namespaceURI : AtomicString
  isHTMLElement : Bool
  isStyledElement : Bool
  /-- `idForStyleResolution()`, if `hasID()`. -/
  id : Option AtomicString
  classNames : List AtomicString
  deriving DecidableEq

def ElementData.hasClass (data : ElementData) : Bool := !data.classNames.isEmpty

/-- `parentNode()`: none, an element, a shadow root with its host, or another container. -/
inductive ParentNode (Element : Type*) where
  | none
  | element (parent : Element)
  | shadowRoot (host : Option Element)
  | other
  deriving DecidableEq

namespace ParentNode

variable {Element : Type*}

def parentElement : ParentNode Element → Option Element
  | element parent => some parent
  | _ => Option.none

def parentOrShadowHostElement : ParentNode Element → Option Element
  | element parent => some parent
  | shadowRoot host => host
  | _ => Option.none

theorem parentOrShadowHostElement_of_parentElement {node : ParentNode Element} {parent : Element}
    (h : node.parentElement = some parent) : node.parentOrShadowHostElement = some parent := by
  cases node with
  | element p => exact h
  | none | shadowRoot host | other => cases h

end ParentNode

/-- A tree of elements, shadow trees included, finite upwards; siblings have one parent. -/
structure DOMTree (Element : Type*) where
  data : Element → ElementData
  parentNode : Element → ParentNode Element
  previousElementSibling : Element → Option Element
  isHTMLDocument : Bool
  /-- The number of elements above. -/
  level : Element → Nat
  level_lt : ∀ e p, (parentNode e).parentOrShadowHostElement = some p → level p < level e
  sibling_parentNode : ∀ e p, previousElementSibling e = some p → parentNode p = parentNode e

namespace DOMTree

variable {Element : Type*} (tree : DOMTree Element)

def parentElement (e : Element) : Option Element := (tree.parentNode e).parentElement

def parentOrShadowHostElement (e : Element) : Option Element :=
  (tree.parentNode e).parentOrShadowHostElement

/-- `hostElement()` of the shadow root above `e`, found within as many steps as the level says. -/
def shadowHostWithin : Nat → Element → Option Element
  | 0, _ => none
  | steps + 1, e =>
    match tree.parentNode e with
    | .shadowRoot host => host
    | .element parent => shadowHostWithin steps parent
    | .none => none
    | .other => none

def shadowHost (e : Element) : Option Element := tree.shadowHostWithin (tree.level e + 1) e

/-- `a` is above `e` in the tree, also across shadow roots. -/
def Above (e a : Element) : Prop :=
  Relation.TransGen (fun e p => tree.parentOrShadowHostElement e = some p) e a

variable {tree} {e p a : Element}

theorem above_of_parentOrShadowHostElement (h : tree.parentOrShadowHostElement e = some p) :
    tree.Above e p := single h

theorem above_of_parentElement (h : tree.parentElement e = some p) : tree.Above e p :=
  above_of_parentOrShadowHostElement (ParentNode.parentOrShadowHostElement_of_parentElement h)

theorem above_of_ancestor
    (h : Relation.TransGen (fun e p => tree.parentElement e = some p) e a) : tree.Above e a :=
  closed (fun _ _ hp => above_of_parentElement hp) _ _ h

theorem above_of_shadowHostWithin {steps : Nat} (h : tree.shadowHostWithin steps e = some a) :
    tree.Above e a := by
  induction steps generalizing e with
  | zero => cases h
  | succ steps ih =>
    rw [shadowHostWithin] at h
    cases hpar : tree.parentNode e with
    | none | other => rw [hpar] at h; cases h
    | shadowRoot host =>
      rw [hpar] at h
      refine above_of_parentOrShadowHostElement ?_
      rw [parentOrShadowHostElement, hpar]
      exact h
    | element parent =>
      rw [hpar] at h
      refine head ?_ (ih h)
      rw [parentOrShadowHostElement, hpar]
      rfl

theorem above_of_shadowHost (h : tree.shadowHost e = some a) : tree.Above e a :=
  above_of_shadowHostWithin h

theorem above_of_sibling (h : tree.previousElementSibling e = some p) (ha : tree.Above p a) :
    tree.Above e a := by
  have hpar : tree.parentOrShadowHostElement p = tree.parentOrShadowHostElement e := by
    rw [parentOrShadowHostElement, tree.sibling_parentNode e p h, parentOrShadowHostElement]
  obtain ⟨fst, hfst, hrest⟩ := head'_iff.mp ha
  exact head'_iff.mpr ⟨fst, hpar ▸ hfst, hrest⟩

end DOMTree

/-! ## Selectors -/

structure QualifiedName where
  localName : AtomicString
  namespaceURI : AtomicString
  deriving DecidableEq

def anyQName : QualifiedName := ⟨starAtom, starAtom⟩

inductive SelectorRelation where
  | descendant
  | child
  | directAdjacent
  | indirectAdjacent
  | subSelector
  | shadowDescendant
  deriving DecidableEq

/-- `CSSSelector::Match` with the data of the test. -/
inductive SelectorMatch (Element : Type*) where
  | tag (tagQName : QualifiedName)
  | id (value : AtomicString)
  | className (value : AtomicString)
  | other (test : Element → Bool)

/-- A simple `CSSSelector`. -/
structure CSSSelector (Element : Type*) where
  selectorMatch : SelectorMatch Element
  relation : SelectorRelation

def QualifiedName.tagLowercaseLocalName (tagQName : QualifiedName) : AtomicString :=
  convertToASCIILowercase tagQName.localName

namespace DOMTree

variable {Element : Type*} (tree : DOMTree Element)

def tagMatches (e : Element) (tagQName : QualifiedName) : Bool :=
  if tagQName = anyQName then true
  else
    let localName :=
      if (tree.data e).isHTMLElement && tree.isHTMLDocument then tagQName.tagLowercaseLocalName
      else tagQName.localName
    if localName ≠ starAtom ∧ localName ≠ (tree.data e).localName then false
    else tagQName.namespaceURI = starAtom || tagQName.namespaceURI = (tree.data e).namespaceURI

def checkOne (e : Element) : SelectorMatch Element → Bool
  | .tag tagQName => tree.tagMatches e tagQName
  | .className value => (tree.data e).hasClass && (tree.data e).classNames.contains value
  | .id value => (tree.data e).id = some value
  | .other test => test e

/-- How the element of a simple selector is related to the one of the next. -/
def Related : SelectorRelation → Element → Element → Prop
  | .descendant => Relation.TransGen (fun e p => tree.parentElement e = some p)
  | .child => fun e p => tree.parentElement e = some p
  | .directAdjacent => fun e p => tree.previousElementSibling e = some p
  | .indirectAdjacent => Relation.TransGen (fun e p => tree.previousElementSibling e = some p)
  | .subSelector => fun e p => p = e
  | .shadowDescendant => fun e p => tree.shadowHost e = some p

/-- The complex selector matches the element. -/
def Matches : List (CSSSelector Element) → Element → Prop
  | [], _ => False
  | [selector], e => tree.checkOne e selector.selectorMatch = true
  | selector :: next :: tagHistory, e =>
    tree.checkOne e selector.selectorMatch = true ∧
      ∃ e', tree.Related selector.relation e e' ∧ Matches (next :: tagHistory) e'

variable {tree} {e : Element} {selector : CSSSelector Element}
  {tagHistory : List (CSSSelector Element)}

theorem Matches.checkOne (h : tree.Matches (selector :: tagHistory) e) :
    tree.checkOne e selector.selectorMatch = true := by
  cases tagHistory with
  | nil => exact h
  | cons next rest => exact h.1

/-- An element with the tag has its name in lower case, whether or not case counts. -/
theorem tagLowercaseLocalName_of_tagMatches {tagQName : QualifiedName}
    (h : tree.tagMatches e tagQName = true) (hst : tagQName.tagLowercaseLocalName ≠ starAtom) :
    convertToASCIILowercase (tree.data e).localName = tagQName.tagLowercaseLocalName := by
  have hnst : tagQName.localName ≠ starAtom := by
    intro heq
    refine hst ?_
    rw [QualifiedName.tagLowercaseLocalName, heq]
    decide
  have hnotAny : tagQName ≠ anyQName := fun heq => hnst (heq ▸ rfl)
  rw [tagMatches, if_neg hnotAny] at h
  by_cases hht : ((tree.data e).isHTMLElement && tree.isHTMLDocument) = true
  · by_cases hnm : tagQName.tagLowercaseLocalName = (tree.data e).localName
    · rw [← hnm, QualifiedName.tagLowercaseLocalName, convertToASCIILowercase_idem]
    · simp [hht, hst, hnm] at h
  · by_cases hnm : tagQName.localName = (tree.data e).localName
    · rw [← hnm, QualifiedName.tagLowercaseLocalName]
    · simp [hht, hnst, hnm] at h

end DOMTree

end WebKit.Css
