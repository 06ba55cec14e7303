import Mathlib.Data.List.Basic
import Mathlib.Algebra.Group.Nat.Defs

/-!
# Serialized actions of a content extension

`serializeActions` writes the action of every rule into one byte vector and remembers where it
landed. Rules whose actions cannot be told apart share a location.
`ContentExtensionsBackend::actionsForResourceLoad` relies on the *order* of the locations to find
out what an ignore-previous-rules action hides.

A `RELEASE_ASSERT`, and an out-of-bounds read, is `none`. The order in which a hash map is iterated
is a parameter. A run that needs more bytes than the 32-bit size of a `WTF::Vector` has no result.
-/

namespace WebKit.ContentExtensions

open List

abbrev SerializedActionByte := BitVec 8

/-- `UChar`, a UTF-16 code unit. -/
abbrev UChar := BitVec 16

/-- `ResourceFlags`, the load and resource types a trigger applies to. -/
abbrev ResourceFlags := BitVec 16

/-- A `WTF::String`: its code units, and whether it stores them in one byte each, as Latin-1. -/
structure WTFString where
  is8Bit : Bool
  characters : List UChar
  latin1 : is8Bit = true → ∀ c ∈ characters, c.toNat < 256
deriving DecidableEq

namespace WTFString

def ofLChars (bytes : List SerializedActionByte) : WTFString where
  is8Bit := true
  characters := bytes.map (BitVec.setWidth 16)
  latin1 := by
    intro _ c hc
    obtain ⟨b, _, rfl⟩ := mem_map.mp hc
    rw [BitVec.toNat_setWidth, Nat.mod_eq_of_lt (by omega)]
    omega

/-- `String(const UChar*, unsigned)`; length zero gives the shared one-byte empty string. -/
def ofUChars (units : List UChar) : WTFString where
  is8Bit := units.isEmpty
  characters := units
  latin1 := by
    intro h c hc
    rw [isEmpty_iff.mp h] at hc
    cases hc

/-- The state a fresh `StringBuilder` is in. -/
def empty : WTFString := ofUChars []

/-- `StringBuilder::append(char)`: the width of the builder does not change. -/
def appendChar (builder : WTFString) (c : SerializedActionByte) : WTFString where
  is8Bit := builder.is8Bit
  characters := builder.characters ++ [c.setWidth 16]
  latin1 := by
    intro h d hd
    rcases mem_append.mp hd with hd | hd
    · exact builder.latin1 h d hd
    · rw [mem_singleton.mp hd, BitVec.toNat_setWidth, Nat.mod_eq_of_lt (by omega)]
      omega

/-- The width of the builder after `append`. An empty builder takes over the width of the string,
and a single Latin-1 character is appended as one byte. -/
def appendWidth (builder string : WTFString) : Bool :=
  if builder.characters = [] then string.is8Bit
  else builder.is8Bit && (string.is8Bit ||
    (string.characters.length == 1 && string.characters.all fun c => c.toNat < 256))

/-- `StringBuilder::append(const String&)`. -/
def append (builder string : WTFString) : WTFString :=
  if string.characters = [] then builder
  else
    { is8Bit := appendWidth builder string
      characters := builder.characters ++ string.characters
      latin1 := by
        intro h c hc
        unfold appendWidth at h
        split at h
        case isTrue hb =>
          rw [hb, nil_append] at hc
          exact string.latin1 h c hc
        case isFalse =>
          simp only [Bool.and_eq_true, Bool.or_eq_true, all_eq_true,
            decide_eq_true_eq] at h
          rcases mem_append.mp hc with hc | hc
          · exact builder.latin1 h.1 c hc
          · rcases h.2 with h2 | h2
            · exact string.latin1 h2 c hc
            · exact h2.2 c hc }

end WTFString

/-- `ActionType`, in the order of the enumeration. -/
inductive ActionType where
  | blockLoad
  | blockCookies
  | cssDisplayNoneSelector
  | cssDisplayNoneStyleSheet
  | ignorePreviousRules
  | invalidAction
deriving DecidableEq

/-- The byte an action type is stored as. -/
def ActionType.toByte : ActionType → SerializedActionByte
  | .blockLoad => 0
  | .blockCookies => 1
  | .cssDisplayNoneSelector => 2
  | .cssDisplayNoneStyleSheet => 3
  | .ignorePreviousRules => 4
  | .invalidAction => 5

inductive DomainCondition where
  | none
  | ifDomain
  | unlessDomain
deriving DecidableEq

/-- The strings of a trigger are only ever compared, by their code units. -/
structure Trigger where
  urlFilter : List UChar
  urlFilterIsCaseSensitive : Bool := false
  flags : ResourceFlags := 0
  domains : List (List UChar) := []
  domainCondition : DomainCondition := .none
deriving DecidableEq

structure Action where
  type : ActionType
  actionID : Nat
  stringArgument : WTFString
  extensionIdentifier : List UChar
deriving DecidableEq

/-- The url filter is not empty, so the trigger is not the empty value of its hash map. -/
structure ContentExtensionRule where
  trigger : Trigger
  actionType : ActionType
  stringArgument : WTFString
  urlFilter_ne_nil : trigger.urlFilter ≠ []

/-! ## Writing -/

/-- The four bytes of an `unsigned`, least significant first. -/
def unsignedBytes (n : Nat) : List SerializedActionByte :=
  [BitVec.ofNat 8 n, BitVec.ofNat 8 (n / 2 ^ 8), BitVec.ofNat 8 (n / 2 ^ 16),
    BitVec.ofNat 8 (n / 2 ^ 24)]

/-- The two bytes of a `UChar`, least significant first. -/
def uCharBytes (c : UChar) : List SerializedActionByte :=
  [c.setWidth 8, (c >>> 8).setWidth 8]

open ActionType

/-- What `serializeSelector` appends: type, length, width, characters. -/
def selectorBytes (selector : WTFString) : List SerializedActionByte :=
  toByte .cssDisplayNoneSelector ::
    (unsignedBytes selector.characters.length ++
      (if selector.is8Bit then 0 else 1) ::
        if selector.is8Bit then selector.characters.map (BitVec.setWidth 8)
        else selector.characters.flatMap uCharBytes)

variable (actions : List SerializedActionByte)

def serializeSelector (selector : WTFString) :
    List SerializedActionByte :=
  actions ++ selectorBytes selector

/-- The selectors of the rules that share a trigger, and the places of these rules. -/
structure PendingDisplayNoneActions where
  selectors : List WTFString := []
  clientLocations : List Nat := []

/-- The pending map, in the order its keys were added. -/
abbrev PendingDisplayNoneActionsMap := List (Trigger × PendingDisplayNoneActions)

/-- A map from flags to the location of the action that they share. -/
abbrev FlagsMap := List (ResourceFlags × Nat)

/-- The locals of `serializeActions`. -/
structure SerializerState where
  actions : List SerializedActionByte := []
  actionLocations : List Nat := []
  blockActionsMap : FlagsMap := []
  blockCookiesActionsMap : FlagsMap := []
  cssDisplayNoneActionsMap : PendingDisplayNoneActionsMap := []
  ignorePreviousRuleActionsMap : FlagsMap := []

open WTFString

/-- The loop that joins the pending selectors with commas. -/
def combineSelectors : List WTFString → WTFString
  | [] => empty
  | first :: rest =>
    rest.foldl (fun builder selector => (builder.appendChar 0x2c).append selector)
      (empty.append first)

/-- `actionLocations[clientLocation] = actionLocation` for every client. -/
def assignLocation (actionLocations : List Nat) (clientLocations : List Nat)
    (actionLocation : Nat) : List Nat :=
  clientLocations.foldl (fun locations client => locations.set client actionLocation)
    actionLocations

/-- One iteration of `resolvePendingDisplayNoneActions`. -/
def resolveSlot (st : SerializerState) (slot : Trigger × PendingDisplayNoneActions) :
    SerializerState :=
  { st with
    actions := serializeSelector st.actions (combineSelectors slot.2.selectors)
    actionLocations := assignLocation st.actionLocations slot.2.clientLocations
      st.actions.length }

variable (order : PendingDisplayNoneActionsMap → PendingDisplayNoneActionsMap)

/-- The map is iterated in the order of its hash table, which `order` gives. -/
def resolvePendingDisplayNoneActions (st : SerializerState) : SerializerState :=
  { (order st.cssDisplayNoneActionsMap).foldl resolveSlot st with
    cssDisplayNoneActionsMap := [] }

/-- The common body of the three actions that are shared by flags: the location the map has for
them, or a fresh one, with the bytes and the map. -/
def shareAction (map : FlagsMap) (type : ActionType)
    (flags : ResourceFlags) : Nat × List SerializedActionByte × FlagsMap :=
  match map.lookup flags with
  | some location => (location, actions, map)
  | none => (actions.length, actions ++ [type.toByte], (flags, actions.length) :: map)

/-- `cssDisplayNoneActionsMap.add(trigger, …)` and the two appends to the entry. -/
def addPending (trigger : Trigger) (selector : WTFString) (client : Nat) :
    PendingDisplayNoneActionsMap → PendingDisplayNoneActionsMap
  | [] => [(trigger, ⟨[selector], [client]⟩)]
  | (key, pending) :: rest =>
    if key = trigger then
      (key, ⟨pending.selectors ++ [selector], pending.clientLocations ++ [client]⟩) :: rest
    else (key, pending) :: addPending trigger selector client rest

/-- The location of a pending action, and the identifier of an action that has no location. -/
def unsignedMax : Nat := 2 ^ 32 - 1

/-- The start of an iteration: an ignore-previous-rules action closes what could be shared across
it, any other action closes the ignore actions. -/
def closeMaps (st : SerializerState) (actionType : ActionType) : SerializerState :=
  if actionType = .ignorePreviousRules then
    { resolvePendingDisplayNoneActions order st with
      blockActionsMap := []
      blockCookiesActionsMap := []
      cssDisplayNoneActionsMap := [] }
  else { st with ignorePreviousRuleActionsMap := [] }

/-- A rule with domains is just pushed. -/
def pushAction (st : SerializerState) (rule : ContentExtensionRule) : SerializerState :=
  { st with
    actionLocations := st.actionLocations ++ [st.actions.length]
    actions :=
      if rule.actionType = .cssDisplayNoneSelector then
        serializeSelector st.actions rule.stringArgument
      else st.actions ++ [rule.actionType.toByte] }

/-- The `switch` over the action type of a rule without domains. -/
def mergeAction (st : SerializerState) (rule : ContentExtensionRule) :
    Option SerializerState :=
  match rule.actionType with
  | .cssDisplayNoneStyleSheet => none
  | .invalidAction => none
  | .ignorePreviousRules =>
    let (location, actions, map) :=
      shareAction st.actions st.ignorePreviousRuleActionsMap rule.actionType rule.trigger.flags
    some { st with
      actions := actions
      ignorePreviousRuleActionsMap := map
      actionLocations := st.actionLocations ++ [location] }
  | .cssDisplayNoneSelector =>
    some { st with
      cssDisplayNoneActionsMap := addPending rule.trigger rule.stringArgument
        st.actionLocations.length st.cssDisplayNoneActionsMap
      actionLocations := st.actionLocations ++ [unsignedMax] }
  | .blockLoad =>
    let (location, actions, map) :=
      shareAction st.actions st.blockActionsMap rule.actionType rule.trigger.flags
    some { st with
      actions := actions
      blockActionsMap := map
      actionLocations := st.actionLocations ++ [location] }
  | .blockCookies =>
    let (location, actions, map) :=
      shareAction st.actions st.blockCookiesActionsMap rule.actionType rule.trigger.flags
    some { st with
      actions := actions
      blockCookiesActionsMap := map
      actionLocations := st.actionLocations ++ [location] }

/-- The action types the compiler accepts. -/
def ActionType.serializable : ActionType → Bool
  | .cssDisplayNoneSelector | .blockLoad | .blockCookies | .ignorePreviousRules => true
  | _ => false

/-- One iteration of the loop of `serializeActions`. -/
def serializeRule (st : SerializerState) (rule : ContentExtensionRule) : Option SerializerState :=
  if rule.actionType.serializable = false then none
  else
    let closed := closeMaps order st rule.actionType
    if rule.trigger.domains ≠ [] then some (pushAction closed rule)
    else mergeAction closed rule

/-- The serialized actions and the location of each rule's. No result when an action type is not one
of the four, or when the bytes exceed the 32-bit size of a vector. -/
def serializeActions (ruleList : List ContentExtensionRule) :
    Option (List SerializedActionByte × List Nat) := do
  let st ← ruleList.foldlM (serializeRule order) {}
  let final := resolvePendingDisplayNoneActions order st
  if final.actions.length < 2 ^ 32 then some (final.actions, final.actionLocations) else none

/-! ## Reading -/

/-- The `unsigned` at an index. -/
def readUnsigned (index : Nat) : Option Nat := do
  let b0 ← actions[index]?
  let b1 ← actions[index + 1]?
  let b2 ← actions[index + 2]?
  let b3 ← actions[index + 3]?
  some (b0.toNat + 2 ^ 8 * b1.toNat + 2 ^ 16 * b2.toNat + 2 ^ 24 * b3.toNat)

/-- A run of bytes read as `UChar`s. -/
def uCharsOfBytes : List SerializedActionByte → List UChar
  | low :: high :: rest =>
    (high.setWidth 16 <<< 8 ||| low.setWidth 16) :: uCharsOfBytes rest
  | _ => []

def Action.plain (type : ActionType) (actionID : Nat) : Action :=
  ⟨type, actionID, empty, []⟩

/-- The `CSSDisplayNoneSelector` case of `Action::deserialize`. -/
def deserializeSelector (location : Nat) :
    Option Action := do
  let headerLength := 1 + 4 + 1
  let stringStartIndex := (location + headerLength) % 2 ^ 32
  if actions.length < stringStartIndex then none
  else
    let selectorLength ← readUnsigned actions (location + 1)
    let wideCharacters ← actions[location + 1 + 4]?
    if wideCharacters ≠ 0 then
      if actions.length < stringStartIndex + selectorLength * 2 then none
      else some ⟨.cssDisplayNoneSelector, location,
        ofUChars
          (uCharsOfBytes ((actions.drop stringStartIndex).take (selectorLength * 2))), []⟩
    else if actions.length < stringStartIndex + selectorLength then none
    else some ⟨.cssDisplayNoneSelector, location,
      ofLChars ((actions.drop stringStartIndex).take selectorLength), []⟩

def deserialize (location : Nat) : Option Action := do
  let type ← actions[location]?
  if type = toByte .blockCookies then some (Action.plain .blockCookies location)
  else if type = toByte .blockLoad then some (Action.plain .blockLoad location)
  else if type = toByte .ignorePreviousRules then
    some (Action.plain .ignorePreviousRules location)
  else if type = toByte .cssDisplayNoneSelector then
    deserializeSelector actions location
  else none

/-! ## Applying -/

/-- The loop of `actionsForResourceLoad` over the sorted locations from the back: the actions up to
the first ignore-previous-rules, and whether there was one. -/
def collectActions (actions : List SerializedActionByte) (extensionIdentifier : List UChar) :
    List Nat → Option (List Action × Bool)
  | [] => some ([], false)
  | location :: rest => do
    let read ← deserialize actions location
    let action := { read with extensionIdentifier := extensionIdentifier }
    if action.type = .ignorePreviousRules then some ([], true)
    else
      let (finalActions, sawIgnorePreviousRules) ←
        collectActions actions extensionIdentifier rest
      some (action :: finalActions, sawIgnorePreviousRules)

/-- The style sheet action of an extension, unless an ignore-previous-rules action was met. -/
def styleSheetAction (identifier : WTFString) : Action :=
  ⟨.cssDisplayNoneStyleSheet, unsignedMax, identifier, identifier.characters⟩

/-- What one extension adds to the result, given the locations that matched. -/
def actionsForResourceLoad (identifier : WTFString)
    (actionLocations : List Nat) : Option (List Action) := do
  let sorted := actionLocations.mergeSort (fun a b => decide (a ≤ b))
  let (finalActions, sawIgnorePreviousRules) ←
    collectActions actions identifier.characters sorted.reverse
  if sawIgnorePreviousRules then some finalActions
  else some (finalActions ++ [styleSheetAction identifier])

end WebKit.ContentExtensions
