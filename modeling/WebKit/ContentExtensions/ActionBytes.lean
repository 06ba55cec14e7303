import WebKit.ContentExtensions.Actions
import Mathlib.Data.List.Infix

/-!
# Reading serialized actions back

What `deserialize` finds where an action has been written. Bytes are only appended, so this is the
same in every later state.
-/

namespace WebKit.ContentExtensions

open List WTFString

/-! ## Characters and lengths -/

theorem toNat_readUnsigned (n : Nat) (hn : n < 2 ^ 32) :
    (BitVec.ofNat 8 n).toNat + 2 ^ 8 * (BitVec.ofNat 8 (n / 2 ^ 8)).toNat +
      2 ^ 16 * (BitVec.ofNat 8 (n / 2 ^ 16)).toNat +
      2 ^ 24 * (BitVec.ofNat 8 (n / 2 ^ 24)).toNat = n := by
  simp only [BitVec.toNat_ofNat]
  omega

theorem uChar_of_bytes (c : UChar) :
    ((c >>> 8).setWidth 8).setWidth 16 <<< 8 ||| (c.setWidth 8).setWidth 16 = c := by
  apply BitVec.eq_of_getLsbD_eq
  intro i hi
  -- the low byte comes from the second operand, the high byte from the first
  by_cases h8 : i < 8
  · simp [h8, hi]
  · have hs : 8 + (i - 8) = i := by omega
    simp [h8, hi, hs, show i - 8 < 8 by omega, show i - 8 < 16 by omega]

variable (units : List UChar)

@[simp] theorem uCharsOfBytes_flatMap : uCharsOfBytes (units.flatMap uCharBytes) = units := by
  induction units with
  | nil => rfl
  | cons c rest ih =>
    show _ :: uCharsOfBytes (rest.flatMap uCharBytes) = c :: rest
    rw [uChar_of_bytes, ih]

theorem length_flatMap_uCharBytes : (units.flatMap uCharBytes).length = units.length * 2 := by
  induction units with
  | nil => rfl
  | cons c rest ih =>
    rw [flatMap_cons, length_append, ih, length_cons]
    show 2 + _ = _
    omega

theorem map_setWidth_of_latin1 (h : ∀ c ∈ units, c.toNat < 256) :
    (units.map (BitVec.setWidth 8)).map (BitVec.setWidth 16) = units := by
  rw [map_map]
  conv_rhs => rw [← map_id units]
  apply map_congr_left
  intro c hc
  apply BitVec.eq_of_toNat_eq
  have := h c hc
  simp only [Function.comp, id, BitVec.toNat_setWidth]
  omega

/-! ## Joining selectors -/

@[simp] theorem WTFString.characters_append (builder str : WTFString) :
    (builder.append str).characters = builder.characters ++ str.characters := by
  unfold append
  split
  case isTrue h => rw [h, append_nil]
  case isFalse => rfl

@[simp] theorem WTFString.characters_appendChar (builder : WTFString) (c : SerializedActionByte) :
    (builder.appendChar c).characters = builder.characters ++ [c.setWidth 16] := rfl

theorem characters_combineSelectors (selectors : List WTFString) :
    (combineSelectors selectors).characters =
      List.intercalate [(0x2c : UChar)] (selectors.map characters) := by
  cases selectors with
  | nil => rfl
  | cons fst rest =>
    -- the loop invariant: what the builder holds, then a comma before each selector left
    have key : ∀ (rest : List WTFString) (builder : WTFString),
        (rest.foldl (fun b s => (b.appendChar 0x2c).append s) builder).characters =
          builder.characters ++ (rest.map fun s => (0x2c : UChar) :: s.characters).flatten := by
      intro rest
      induction rest with
      | nil => intro builder; simp
      | cons s rest ih =>
        intro builder
        rw [foldl_cons, ih]
        simp
    have hjn : ∀ (xs : List UChar) (rest : List WTFString),
        List.intercalate [(0x2c : UChar)] (xs :: rest.map characters) =
          xs ++ (rest.map fun s => (0x2c : UChar) :: s.characters).flatten := by
      intro xs rest
      induction rest generalizing xs with
      | nil => simp [List.intercalate]
      | cons s rest ih =>
        have := ih s.characters
        simp only [List.intercalate, map_cons, intersperse_cons_cons,
          flatten_cons, cons_append, nil_append] at this ⊢
        rw [this]
    rw [map_cons, hjn]
    show (rest.foldl _ (empty.append fst)).characters = _
    rw [key, characters_append]
    rfl

/-! ## What is written at a location -/

/-- What `serializeActions` writes at one location. -/
inductive SerializedAction where
  | plain (type : ActionType)
  | selector (string : WTFString)

/-- The bytes of one serialized action. -/
def SerializedAction.bytes : SerializedAction → List SerializedActionByte
  | .plain type => [type.toByte]
  | .selector string => selectorBytes string

/-- At `location` the bytes hold the serialized action `s`. -/
def HasAction (actions : List SerializedActionByte) (location : Nat)
    (s : SerializedAction) : Prop :=
  ∃ before after, actions = before ++ (s.bytes ++ after) ∧ before.length = location

theorem SerializedAction.bytes_ne_nil (s : SerializedAction) : s.bytes ≠ [] := by
  cases s with
  | plain type | selector string => exact cons_ne_nil _ _

variable {actions : List SerializedActionByte} {location : Nat} {s : SerializedAction}

theorem HasAction.lt (h : HasAction actions location s) : location < actions.length := by
  obtain ⟨bef, after, rfl, rfl⟩ := h
  have := length_pos_of_ne_nil s.bytes_ne_nil
  simp only [length_append]
  omega

theorem HasAction.append (h : HasAction actions location s) (more : List SerializedActionByte) :
    HasAction (actions ++ more) location s := by
  obtain ⟨bef, after, rfl, rfl⟩ := h
  exact ⟨bef, after ++ more, by simp, rfl⟩

theorem hasAction_append (actions : List SerializedActionByte) (s : SerializedAction) :
    HasAction (actions ++ s.bytes) actions.length s :=
  ⟨actions, [], by simp, rfl⟩

/-- The serialized action tells the action type. -/
def SerializedAction.type : SerializedAction → ActionType
  | .plain type => type
  | .selector _ => .cssDisplayNoneSelector

theorem deserialize_plain {type : ActionType} (h : HasAction actions location (.plain type))
    (hs : type.serializable = true) (hcss : type ≠ .cssDisplayNoneSelector) :
    deserialize actions location = some (Action.plain type location) := by
  obtain ⟨bef, after, rfl, rfl⟩ := h
  have hg : (bef ++ (SerializedAction.bytes (.plain type) ++ after))[bef.length]? =
      some type.toByte := by
    simp [SerializedAction.bytes]
  unfold deserialize
  cases type <;> simp_all [ActionType.serializable, ActionType.toByte]

variable (bef after : List SerializedActionByte) (sel : WTFString)

theorem readUnsigned_selector (hl : sel.characters.length < 2 ^ 32) :
    readUnsigned (bef ++ (selectorBytes sel ++ after)) (bef.length + 1) =
      some sel.characters.length := by
  have hg : ∀ j, (bef ++ (selectorBytes sel ++ after))[bef.length + 1 + j]? =
      (selectorBytes sel ++ after)[1 + j]? := by
    intro j
    rw [getElem?_append_right (by omega)]
    congr 1
    omega
  have h0 := hg 0
  have h1 := hg 1
  have h2 := hg 2
  have h3 := hg 3
  unfold readUnsigned
  rw [h0, h1, h2, h3]
  exact congrArg some (toNat_readUnsigned sel.characters.length hl)

theorem drop_selector : (bef ++ (selectorBytes sel ++ after)).drop (bef.length + 6) =
      (if sel.is8Bit then sel.characters.map (BitVec.setWidth 8)
        else sel.characters.flatMap uCharBytes) ++ after := by
  simp [selectorBytes, unsignedBytes]

theorem length_selectorBytes : (selectorBytes sel).length =
      6 + (if sel.is8Bit then sel.characters.length else sel.characters.length * 2) := by
  unfold selectorBytes unsignedBytes
  cases sel.is8Bit with
  | true =>
    simp only [if_true, length_cons, length_append, length_nil, length_map]
    omega
  | false =>
    simp only [Bool.false_eq_true, if_false, length_cons, length_append,
      length_nil, length_flatMap_uCharBytes]
    omega

theorem deserialize_selector {sel : WTFString}
    (h : HasAction actions location (.selector sel)) (hl : actions.length < 2 ^ 32) :
    ∃ str, deserialize actions location =
        some ⟨.cssDisplayNoneSelector, location, str, []⟩ ∧
      str.characters = sel.characters := by
  obtain ⟨bef, after, rfl, rfl⟩ := h
  simp only [SerializedAction.bytes] at hl ⊢
  have hg : ∀ j, (bef ++ (selectorBytes sel ++ after))[bef.length + j]? =
      (selectorBytes sel ++ after)[j]? := by
    intro j
    rw [getElem?_append_right (by omega), Nat.add_sub_cancel_left]
  have hty : (bef ++ (selectorBytes sel ++ after))[bef.length]? =
      some (ActionType.toByte .cssDisplayNoneSelector) := by
    have := hg 0
    rw [add_zero] at this
    rw [this]
    rfl
  have hwd : (bef ++ (selectorBytes sel ++ after))[bef.length + 1 + 4]? =
      some (if sel.is8Bit then 0 else 1) := by
    rw [add_assoc, hg (1 + 4)]
    rfl
  have hsz := length_selectorBytes sel
  have htot : (bef ++ (selectorBytes sel ++ after)).length =
      bef.length + (selectorBytes sel).length + after.length := by
    simp [add_assoc]
  have hchs : sel.characters.length < 2 ^ 32 := by
    split at hsz <;> omega
  have hs : (bef.length + 6) % 2 ^ 32 = bef.length + 6 := by
    apply Nat.mod_eq_of_lt
    omega
  have hrd := readUnsigned_selector bef after sel hchs
  have hdrop := drop_selector bef after sel
  have hunf : deserialize (bef ++ (selectorBytes sel ++ after)) bef.length =
      deserializeSelector (bef ++ (selectorBytes sel ++ after)) bef.length := by
    unfold deserialize
    rw [hty]
    rfl
  rw [hunf]
  unfold deserializeSelector
  simp only [hs, hrd, hwd, hdrop, Option.bind_eq_bind, Option.bind_some]
  -- the two widths differ in the flag, the length test and the way the characters are read
  cases h8 : sel.is8Bit with
  | true =>
    rw [h8, if_pos rfl] at hsz
    refine ⟨ofLChars (sel.characters.map (BitVec.setWidth 8)), ?_, ?_⟩
    · rw [if_neg (by omega), if_pos rfl, if_neg (by simp), if_neg (by omega)]
      rw [if_pos rfl, take_left' (by simp)]
    · exact map_setWidth_of_latin1 _ (sel.latin1 h8)
  | false =>
    rw [h8, if_neg Bool.false_ne_true] at hsz
    refine ⟨ofUChars sel.characters, ?_, rfl⟩
    rw [if_neg (by omega), if_neg Bool.false_ne_true, if_pos (by decide), if_neg (by omega)]
    rw [if_neg Bool.false_ne_true, take_left' (length_flatMap_uCharBytes _), uCharsOfBytes_flatMap]

end WebKit.ContentExtensions
