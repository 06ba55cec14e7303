import Mathlib.Data.BitVec

/-!
# `:nth-child()`

`parseNth` reads the argument `an+b`, and an element matches if its count, its position from 1
among its siblings, is `a * n + b` for some `n ≥ 0`. `CSSSelector::matchNth` and the code that
`SelectorCompiler` generates both subtract `b` from the count in 32 bits, and go wrong where the
difference does not fit.

The position is kept in the 16 bits of `m_childIndex`, which is not the position beyond `65536`
siblings.
-/

namespace WebKit.Css

/-! ## The argument -/

section

variable (isSpaceOrNewline : Char → Bool)

/-- The loop of `toIntegralType<int>` over the digits in base 10. -/
def digitsToInt (isNegative : Bool) : Nat → List Char → Option (Nat × List Char)
  | value, c :: data =>
    if c.isDigit then
      let digitValue := c.toNat - '0'.toNat
      if 214748364 < value ∨ value = 214748364 ∧ 7 + isNegative.toNat < digitValue then none
      else digitsToInt isNegative (10 * value + digitValue) data
    else some (value, c :: data)
  | value, [] => some (value, [])

def toIntStrict (data : List Char) : Option (BitVec 32) := do
  let data := data.dropWhile isSpaceOrNewline
  let isNegative := data.head? = some '-'
  let data := if isNegative ∨ data.head? = some '+' then data.tail else data
  if (data.head?.any Char.isDigit) = false then none
  else
    let (value, data) ← digitsToInt isNegative 0 data
    -- only white space may follow
    if data.all isSpaceOrNewline then
      some (if isNegative then -BitVec.ofNat 32 value else BitVec.ofNat 32 value)
    else none

/-- `CSSSelector::RareData::parseNth` on the lower case argument: `m_a` and `m_b`. -/
def parseNth (argument : List Char) : Option (BitVec 32 × BitVec 32) :=
  if argument = [] then none
  else if argument = "odd".toList then some (2, 1)
  else if argument = "even".toList then some (2, 0)
  else if 'n' ∈ argument then do
    let n := argument.idxOf 'n'
    let a ←
      if argument.head? = some '-' then
        if n = 1 then some (-1) else toIntStrict isSpaceOrNewline (argument.take n)
      else if n = 0 then some 1
      else toIntStrict isSpaceOrNewline (argument.take n)
    let rest := argument.drop n
    if '+' ∈ rest then
      let b ← toIntStrict isSpaceOrNewline (rest.drop (rest.idxOf '+' + 1))
      some (a, b)
    else if '-' ∈ rest then
      let b ← toIntStrict isSpaceOrNewline (rest.drop (rest.idxOf '-' + 1))
      some (a, -b)
    else some (a, 0)
  else do
    let b ← toIntStrict isSpaceOrNewline argument
    some (0, b)

end

/-! ## The tests -/

/-- `CSSSelector::RareData::matchNth`; the differences wrap around. -/
def matchNth (a b count : BitVec 32) : Bool :=
  if a = 0 then count = b
  else if (0#32).slt a then
    if count.slt b then false else (count - b).srem a = 0
  else if b.slt count then false
  else (b - count).srem (-a) = 0

/-- `SelectorCodeGenerator::moduloIsZero`: the jumps to `failureCases` are not taken. -/
def moduloIsZero (inputDividend divisor : BitVec 32) : Bool :=
  if divisor = 1 ∨ divisor = -1 then true
  else if divisor = 2 ∨ divisor = -2 then inputDividend &&& 1 = 0
  else inputDividend.srem divisor = 0

/-- `generateNthFilterTest`; `branchSub32` looks at the sign of the wrapped difference. -/
def generateNthFilterTest (counter a b : BitVec 32) : Bool :=
  if a = 0 then b = counter
  else if (0#32).slt a then
    if a = 2 ∧ b = 1 then counter &&& 1 ≠ 0
    else if b ≠ 0 then !(counter - b).slt 0#32 && moduloIsZero (counter - b) a
    else moduloIsZero counter a
  else !(b - counter).slt 0#32 && moduloIsZero (b - counter) a

def nthFilterIsAlwaysSatisified (a b : BitVec 32) : Bool := a = 1 ∧ (b = 0 ∨ b = 1)

/-- What the code compiled for `an+b` accepts: nothing, the first child, or what the filter test
accepts. A filter with a selector list has no case for the first child. -/
def compiledNthTest (hasSelectorList : Bool) (a b count : BitVec 32) : Bool :=
  if a.sle 0 ∧ b.slt 1 then false
  else if !hasSelectorList ∧ b = 1 ∧ a.sle 0 then count = 1
  else nthFilterIsAlwaysSatisified a b || generateNthFilterTest count a b

/-- The counts of `an+b`. -/
def IsNth (a b count : BitVec 32) : Prop := ∃ n : Nat, count.toInt = a.toInt * n + b.toInt

open BitVec

variable {a b count x y : BitVec 32}

theorem srem_eq_zero_iff : x.srem y = 0 ↔ y.toInt ∣ x.toInt := by
  rw [← toInt_inj, toInt_srem, Int.dvd_iff_tmod_eq_zero]
  rfl

theorem and_one_eq_zero_iff : x &&& 1 = 0 ↔ (2 : Int) ∣ x.toInt := by
  have hx : (x &&& 1).toNat = x.toNat % 2 := Nat.and_one_is_mod _
  have h0 : (0 : BitVec 32).toNat = 0 := rfl
  rw [← toNat_inj, hx, h0, toInt_eq_toNat_cond]
  split <;> omega

theorem moduloIsZero_iff : moduloIsZero x y = true ↔ y.toInt ∣ x.toInt := by
  unfold moduloIsZero
  split
  next h => rcases h with rfl | rfl <;> simp
  next =>
    split
    next h =>
      rw [decide_eq_true_iff, and_one_eq_zero_iff]
      rcases h with rfl | rfl
      · rfl
      · exact Int.neg_dvd.symm
    next => rw [decide_eq_true_iff, srem_eq_zero_iff]

theorem toInt_sub_of_fits (hlo : -2 ^ 31 ≤ x.toInt - y.toInt) (hhi : x.toInt - y.toInt < 2 ^ 31) :
    (x - y).toInt = x.toInt - y.toInt := by
  rw [toInt_sub]
  exact Int.bmod_eq_of_le (by omega) (by omega)

theorem toInt_sub_of_wraps (h : 2 ^ 31 ≤ x.toInt - y.toInt) :
    (x - y).toInt = x.toInt - y.toInt - 2 ^ 32 := by
  have hx := toInt_lt (x := x)
  have hy := le_toInt y
  rw [toInt_sub, Int.bmod_def]
  omega

theorem not_slt_and_moduloIsZero_iff {z : BitVec 32} (hlo : -2 ^ 31 ≤ x.toInt - y.toInt)
    (hhi : x.toInt - y.toInt < 2 ^ 31) :
    (!(x - y).slt 0#32 && moduloIsZero (x - y) z) = true ↔
      y.toInt ≤ x.toInt ∧ z.toInt ∣ x.toInt - y.toInt := by
  rw [Bool.and_eq_true, moduloIsZero_iff, Bool.not_eq_true', ← Bool.not_eq_true,
    slt_iff_toInt_lt, toInt_sub_of_fits hlo hhi, toInt_zero]
  exact and_congr_left' (by omega)

theorem neg_toInt_dvd_iff {z : Int} : (-x).toInt ∣ z ↔ x.toInt ∣ z := by
  rw [toInt_neg]
  by_cases hx : x.toInt = -2 ^ 31
  · rw [hx]
    rfl
  · have hlo := le_toInt x
    have hhi := toInt_lt (x := x)
    rw [Int.bmod_eq_of_le (by omega) (by omega), Int.neg_dvd]

theorem exists_mul_iff {d m : Int} (hm : 0 < m) : (∃ n : Nat, d = m * n) ↔ 0 ≤ d ∧ m ∣ d := by
  constructor
  · rintro ⟨n, rfl⟩
    exact ⟨Int.mul_nonneg hm.le (Int.natCast_nonneg n), Int.dvd_mul_right m n⟩
  · rintro ⟨hd, k, rfl⟩
    refine ⟨k.toNat, ?_⟩
    rw [Int.toNat_of_nonneg (Int.nonneg_of_mul_nonneg_right hd hm)]

theorem isNth_iff_of_pos (ha : 0 < a.toInt) :
    IsNth a b count ↔ b.toInt ≤ count.toInt ∧ a.toInt ∣ count.toInt - b.toInt := by
  rw [← Int.sub_nonneg, ← exists_mul_iff ha]
  exact exists_congr (fun n => by omega)

theorem isNth_iff_of_neg (ha : a.toInt < 0) :
    IsNth a b count ↔ count.toInt ≤ b.toInt ∧ a.toInt ∣ b.toInt - count.toInt := by
  rw [← Int.sub_nonneg, ← Int.neg_dvd, ← exists_mul_iff (Int.neg_pos.mpr ha)]
  refine exists_congr (fun n => ?_)
  rw [Int.neg_mul]
  omega

section

variable (hcount : 0 < count.toInt) (hfits : 0 < a.toInt → count.toInt - b.toInt < 2 ^ 31)

include hcount hfits

theorem matchNth_iff : matchNth a b count = true ↔ IsNth a b count := by
  have hlb := le_toInt b
  have hhb := toInt_lt (x := b)
  by_cases ha : a = 0
  · simp [ha, matchNth, IsNth, toInt_inj]
  have ha0 : a.toInt ≠ 0 := fun h => ha (toInt_inj.mp h)
  simp only [matchNth, ha, if_false, slt_iff_toInt_lt, toInt_zero]
  split
  next hpos =>
    rw [isNth_iff_of_pos hpos]
    split
    next hlt => simp [hlt]
    next hle =>
      rw [decide_eq_true_iff, srem_eq_zero_iff, toInt_sub_of_fits (by omega) (hfits hpos)]
      exact (and_iff_right (by omega)).symm
  next hneg =>
    rw [isNth_iff_of_neg (by omega)]
    split
    next hlt => simp [hlt]
    next hle =>
      rw [decide_eq_true_iff, srem_eq_zero_iff, neg_toInt_dvd_iff,
        toInt_sub_of_fits (by omega) (by omega)]
      exact (and_iff_right (by omega)).symm

theorem generateNthFilterTest_iff (hb : a.toInt < 0 → 0 < b.toInt) :
    generateNthFilterTest count a b = true ↔ IsNth a b count := by
  have hhb := toInt_lt (x := b)
  have hhc := toInt_lt (x := count)
  by_cases ha : a = 0
  · simp [ha, generateNthFilterTest, IsNth, toInt_inj, eq_comm]
  have ha0 : a.toInt ≠ 0 := fun h => ha (toInt_inj.mp h)
  simp only [generateNthFilterTest, ha, if_false, slt_iff_toInt_lt, toInt_zero]
  split
  next hpos =>
    rw [isNth_iff_of_pos hpos]
    split
    next hodd =>
      obtain ⟨rfl, rfl⟩ := hodd
      have h1 : (1 : BitVec 32).toInt = 1 := rfl
      have h2 : (2 : BitVec 32).toInt = 2 := rfl
      rw [decide_eq_true_iff, Ne, and_one_eq_zero_iff, h1, h2]
      omega
    next =>
      split
      next => exact not_slt_and_moduloIsZero_iff (by omega) (hfits hpos)
      next hb0 =>
        have hz : b = 0#32 := not_not.mp hb0
        rw [moduloIsZero_iff, hz, toInt_zero, Int.sub_zero]
        exact (and_iff_right hcount.le).symm
  next hneg =>
    have hlt : a.toInt < 0 := by omega
    rw [isNth_iff_of_neg hlt]
    have hpos := hb hlt
    exact not_slt_and_moduloIsZero_iff (by omega) (by omega)

theorem compiledNthTest_iff (hasSelectorList : Bool) :
    compiledNthTest hasSelectorList a b count = true ↔ IsNth a b count := by
  simp only [compiledNthTest, sle_iff_toInt_le, slt_iff_toInt_lt]
  have h0 : (0 : BitVec 32).toInt = 0 := rfl
  have h1 : (1 : BitVec 32).toInt = 1 := rfl
  rw [h0, h1]
  have hup : a.toInt ≤ 0 → IsNth a b count → count.toInt ≤ b.toInt := by
    rintro ha ⟨n, hn⟩
    have hle := Int.mul_nonpos_of_nonpos_of_nonneg ha (Int.natCast_nonneg n)
    omega
  split
  next h =>
    refine iff_of_false Bool.false_ne_true (fun hnth => ?_)
    have hle := hup h.1 hnth
    omega
  next h =>
    split
    next h' =>
      -- `an+1` with `a ≤ 0` is the count 1 alone
      obtain ⟨-, rfl, ha⟩ := h'
      rw [decide_eq_true_iff]
      refine ⟨fun hc => ⟨0, ?_⟩, fun hnth => toInt_inj.mp ?_⟩
      · rw [hc, Int.natCast_zero, Int.mul_zero, Int.zero_add]
      · have hle := hup ha hnth
        omega
    next =>
      rw [Bool.or_eq_true, generateNthFilterTest_iff hcount hfits (by omega)]
      refine or_iff_right_of_imp (fun hal => ⟨(count.toInt - b.toInt).toNat, ?_⟩)
      obtain ⟨rfl, rfl | rfl⟩ := of_decide_eq_true hal
      all_goals
        rw [h1]
        omega

end

section

variable (ha : 0 < a.toInt) (hwraps : 2 ^ 31 ≤ count.toInt - b.toInt)

include ha hwraps

theorem matchNth_iff_of_wraps :
    matchNth a b count = true ↔ a.toInt ∣ count.toInt - b.toInt - 2 ^ 32 := by
  have ha0 : a ≠ 0 := by
    rintro rfl
    exact absurd ha (by decide)
  simp only [matchNth, ha0, if_false, slt_iff_toInt_lt, toInt_zero, ha, if_true]
  rw [if_neg (by omega), decide_eq_true_iff, srem_eq_zero_iff, toInt_sub_of_wraps hwraps]

/-- The sign of the wrapped difference stops the compiled test. -/
theorem compiledNthTest_of_wraps (hasSelectorList : Bool) :
    compiledNthTest hasSelectorList a b count = false := by
  have hhc := toInt_lt (x := count)
  have hb0 : b ≠ 0#32 := by
    rintro rfl
    rw [toInt_zero] at hwraps
    omega
  have hb1 : b ≠ 1#32 := by
    rintro rfl
    rw [show (1#32).toInt = 1 from rfl] at hwraps
    omega
  have ha0 : a ≠ 0#32 := by
    rintro rfl
    exact absurd ha (by decide)
  have hle : a.sle 0#32 = false := by
    rw [← Bool.not_eq_true, sle_iff_toInt_le]
    exact not_le.mpr ha
  have hpos : (0#32).slt a = true := slt_iff_toInt_lt.mpr ha
  have hneg : (count - b).slt 0#32 = true := by
    rw [slt_iff_toInt_lt, toInt_sub_of_wraps hwraps, toInt_zero]
    have := le_toInt b
    omega
  simp [compiledNthTest, nthFilterIsAlwaysSatisified, generateNthFilterTest, hle, hb0, hb1, ha0,
    hneg, hpos]

end

/-- **Both engines are exact** for a positive count, unless its difference to `b` does not fit in
32 bits and `a` divides it, or divides what it wraps around to. -/
theorem nth_exact_iff (a b count : BitVec 32) (hasSelectorList : Bool) (hcount : 0 < count.toInt) :
    ((matchNth a b count = true ↔ IsNth a b count) ∧
      (compiledNthTest hasSelectorList a b count = true ↔ IsNth a b count)) ↔
    (0 < a.toInt → 2 ^ 31 ≤ count.toInt - b.toInt →
      ¬ a.toInt ∣ count.toInt - b.toInt ∧ ¬ a.toInt ∣ count.toInt - b.toInt - 2 ^ 32) := by
  by_cases hfits : 0 < a.toInt → count.toInt - b.toInt < 2 ^ 31
  · refine iff_of_true ⟨matchNth_iff hcount hfits, compiledNthTest_iff hcount hfits _⟩ ?_
    intro ha hwraps
    exact absurd (hfits ha) hwraps.not_gt
  · obtain ⟨ha, hwraps⟩ := Classical.not_imp.mp hfits
    rw [not_lt] at hwraps
    have hnth : IsNth a b count ↔ a.toInt ∣ count.toInt - b.toInt :=
      (isNth_iff_of_pos ha).trans (and_iff_right (by omega))
    rw [matchNth_iff_of_wraps ha hwraps, compiledNthTest_of_wraps ha hwraps, hnth]
    simp only [ha, hwraps, Bool.false_eq_true, false_iff, forall_const]
    tauto

/-- The count 7 is one of `2n+1`; `2147483647` is none of `5n-1`, and `2147483648 - 2 ^ 32` is not
divisible by 5. -/
theorem nth_exact_iff_odd :
    (matchNth 2 1 7 = true ↔ IsNth 2 1 7) ∧
      (compiledNthTest true 5 (-1) 2147483647 = true ↔ IsNth 5 (-1) 2147483647) :=
  ⟨((nth_exact_iff 2 1 7 false (by decide)).mpr (by decide)).1,
    ((nth_exact_iff 5 (-1) 2147483647 true (by decide)).mpr (by decide)).2⟩

/-- The counts `2147483647 = 4 * 536870912 - 1` and `2147483647 = 3 * 715827883 - 2`. -/
theorem nth_difference_overflows :
    (parseNth Char.isWhitespace "4n-1".toList = some (4, -1) ∧
      matchNth 4 (-1) 2147483647 = true ∧ compiledNthTest false 4 (-1) 2147483647 = false) ∧
    parseNth Char.isWhitespace "3n-2".toList = some (3, -2) ∧
      (2147483647 : BitVec 32).toInt = (3 : BitVec 32).toInt * 715827883 + (-2 : BitVec 32).toInt ∧
      matchNth 3 (-2) 2147483647 = false ∧ compiledNthTest false 3 (-2) 2147483647 = false := by
  decide

/-! ## The child index -/

/-- The `m_childIndex` of the siblings, counted from 0; 0 if it is not set. -/
abbrev ChildIndices := Nat → BitVec 16

def setChildIndex (childIndex : ChildIndices) (element index : Nat) : ChildIndices :=
  Function.update childIndex element (BitVec.ofNat 16 index)

/-- The loop of `countElementsBefore` over the previous siblings, up to one with an index. -/
def countElementsBefore (childIndex : ChildIndices) : Nat → Nat → Nat
  | count, 0 => count
  | count, sibling + 1 =>
    let index := (childIndex sibling).toNat
    if index ≠ 0 then count + index else countElementsBefore childIndex (count + 1) sibling

/-- The counting loop of `generateElementIsNthChild`. -/
def countPrevious : Nat → Nat → Nat
  | elementCounter, 0 => elementCounter
  | elementCounter, previousSibling + 1 => countPrevious (elementCounter + 1) previousSibling

/-- The counter of `generateElementIsNthChild`: only the first sibling is asked for its index. -/
def elementCounter (childIndex : ChildIndices) : Nat → Nat
  | 0 => 1
  | previousSibling + 1 =>
    let cachedChildIndex := (childIndex previousSibling).toNat
    if cachedChildIndex = 0 then countPrevious (1 + 1) previousSibling else 1 + cachedChildIndex

/-- One test of `:nth-child()` on an element. -/
structure NthChildEvaluation where
  compiled : Bool
  resolvingStyle : Bool
  element : Nat

namespace NthChildEvaluation

/-- The count that is tested. -/
def tested (childIndex : ChildIndices) (ev : NthChildEvaluation) : Nat :=
  if ev.compiled then elementCounter childIndex ev.element
  else 1 + countElementsBefore childIndex 0 ev.element

def run (childIndex : ChildIndices) (ev : NthChildEvaluation) : ChildIndices :=
  if ev.resolvingStyle then setChildIndex childIndex ev.element (ev.tested childIndex)
  else childIndex

/-- The counts tested one after the other. -/
def counts (childIndex : ChildIndices) : List NthChildEvaluation → List Nat
  | [] => []
  | ev :: evs => ev.tested childIndex :: counts (ev.run childIndex) evs

end NthChildEvaluation

open NthChildEvaluation

/-- An index that is set is the position, as far as it fits. -/
def IndexInv (childIndex : ChildIndices) : Prop :=
  ∀ i, childIndex i = 0 ∨ childIndex i = BitVec.ofNat 16 (i + 1)

variable {childIndex : ChildIndices} {i : Nat} {ev : NthChildEvaluation}

/-- The index of `65536` is 0: it is not set. -/
theorem IndexInv.toNat (h : IndexInv childIndex) (hi : i < 65536)
    (hne : (childIndex i).toNat ≠ 0) : (childIndex i).toNat = i + 1 := by
  rcases h i with h | h
  · exact absurd (congrArg BitVec.toNat h) hne
  · rw [h, BitVec.toNat_ofNat] at hne ⊢
    omega

theorem countElementsBefore_eq (h : IndexInv childIndex) (hi : i ≤ 65536) (count : Nat) :
    countElementsBefore childIndex count i = count + i := by
  induction i generalizing count with
  | zero => rfl
  | succ i ih =>
    rw [countElementsBefore]
    split
    next hne => rw [h.toNat hi hne]
    next =>
      rw [ih (by omega)]
      omega

theorem countPrevious_eq (count i : Nat) : countPrevious count i = count + i := by
  induction i generalizing count with
  | zero => rfl
  | succ i ih =>
    rw [countPrevious, ih]
    omega

theorem tested_eq (h : IndexInv childIndex) (hev : ev.element ≤ 65536) :
    ev.tested childIndex = ev.element + 1 := by
  unfold NthChildEvaluation.tested
  split
  · cases hel : ev.element with
    | zero => rfl
    | succ i =>
      rw [elementCounter]
      split
      next =>
        rw [countPrevious_eq]
        omega
      next hne =>
        rw [h.toNat (by omega) hne]
        omega
  · rw [countElementsBefore_eq h hev]
    omega

theorem IndexInv.run (h : IndexInv childIndex) (hev : ev.element ≤ 65536) :
    IndexInv (ev.run childIndex) := by
  unfold NthChildEvaluation.run
  split
  · intro i
    by_cases hi : i = ev.element
    · rw [setChildIndex, hi, Function.update_self, tested_eq h hev]
      exact .inr rfl
    · rw [setChildIndex, Function.update_of_ne hi]
      exact h i
  · exact h

theorem counts_eq (evs : List NthChildEvaluation) (h : IndexInv childIndex)
    (hevs : ∀ ev ∈ evs, ev.element ≤ 65536) :
    counts childIndex evs = evs.map (fun ev => ev.element + 1) := by
  induction evs generalizing childIndex with
  | nil => rfl
  | cons ev evs ih =>
    obtain ⟨hev, hevs⟩ := List.forall_mem_cons.mp hevs
    rw [counts, tested_eq h hev, ih (h.run hev) hevs, List.map_cons]

theorem indexInv_unset : IndexInv fun _ => 0 := fun _ => .inl rfl

/-- Up to `65537` siblings the count is the position. -/
theorem counts_are_positions (siblings : Nat) (hlen : siblings ≤ 65537)
    (evs : List NthChildEvaluation) (hevs : ∀ ev ∈ evs, ev.element < siblings) :
    counts (fun _ => 0) evs = evs.map (fun ev => ev.element + 1) :=
  counts_eq evs indexInv_unset (fun ev hev => by have := hevs ev hev; omega)

theorem counts_are_positions_three :
    counts (fun _ => 0) [⟨false, true, 1⟩, ⟨true, false, 2⟩] = [2, 3] :=
  counts_are_positions 3 (by decide) _ (by simp)

/-- The position 65537 is kept as 1, and the element after it counts itself as the second. -/
theorem index_wraps_around :
    counts (fun _ => 0) [⟨false, true, 65536⟩, ⟨false, false, 65537⟩, ⟨true, false, 65537⟩]
      = [65537, 2, 2] := by
  have hfst : tested (fun _ => 0) ⟨false, true, 65536⟩ = 65537 := tested_eq indexInv_unset le_rfl
  rw [counts, hfst, run, if_pos rfl, hfst]
  rfl

end WebKit.Css
