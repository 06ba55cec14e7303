import WebKit.Lib.MachineInt

/-!
# `Checked`

The integers of `wtf/CheckedArithmetic.h` with `RecordOverflow`: each operation looks for an
overflow before it computes, and records it in the result.

Not all operations are exact. A difference that is the least value of the type is reported as an
overflow. The operands of `+=` and `-=` may be wider than the result, and checks that assume they
are not may let an overflow through. A product of two negative numbers negates the operands in
their own types. And the value that `x++` returns has lost the overflow of `x`.
-/

namespace WebKit.Wtf

open MachineInt Int

inductive Operation
  | add | sub | multiply
  deriving DecidableEq

namespace Operation

def exact : Operation → Int → Int → Int
  | .add => (· + ·)
  | .sub => (· - ·)
  | .multiply => (· * ·)

def apply : Operation → Val → Val → Val
  | .add => (· + ·)
  | .sub => (· - ·)
  | .multiply => (· * ·)

end Operation

/-! ## `ArithmeticOperations` -/

namespace ArithmeticOperations

open Val

variable (lhs rhs : Val)

/-- `signsMatch`: the sign bit of the exclusive or. -/
def signsMatch : Bool := decide (lhs.value < 0) == decide (rhs.value < 0)

/-- The checks for signed operands. -/
def refusesSigned (result : IntType) : Operation → Bool
  | .add =>
    if signsMatch lhs rhs then
      if 0 ≤ lhs.value then less (maximum result - rhs) lhs
      else less rhs (-staticCast result (lhs - minimum result))
    else false
  | .sub =>
    if !signsMatch lhs rhs then
      if 0 ≤ lhs.value then less (maximum result + rhs) lhs
      else less (maximum result + lhs) rhs
    else false
  | .multiply =>
    if signsMatch lhs rhs then
      if 0 ≤ lhs.value then lhs.value ≠ 0 && less (maximum result / lhs) rhs
      else
        (staticCast result lhs).value = result.min || (staticCast result rhs).value = result.min ||
          less (maximum result / -lhs) (-rhs)
    else if lhs.value < 0 then rhs.value ≠ 0 && less lhs (minimum result / rhs)
    else lhs.value ≠ 0 && less rhs (minimum result / lhs)

/-- The checks for unsigned operands. -/
def refusesUnsigned (result : IntType) : Operation → Bool
  | .add => less (staticCast result (lhs + rhs)) lhs
  | .sub => less lhs (staticCast result (lhs - rhs))
  | .multiply => lhs.value ≠ 0 && rhs.value ≠ 0 && less (maximum result / lhs) rhs

/-- The checks for an `int` and an `unsigned`, on the result in 64 bits. -/
def refusesMixed (temp : Val) (result : IntType) : Bool :=
  less temp (minimum result) || less (maximum result) temp

/-- `safeAdd`, `safeSub` and `safeMultiply`: the result, unless they return false. -/
def safe (op : Operation) (lhs rhs : Val) (result : IntType) : Option Val :=
  if lhs.type.signed = rhs.type.signed then
    if if lhs.type.signed then refusesSigned lhs rhs result op
      else refusesUnsigned lhs rhs result op then none
    else some (staticCast result (op.apply lhs rhs))
  else
    let temp := op.apply (staticCast .int64 lhs) (staticCast .int64 rhs)
    if refusesMixed temp result then none else some (staticCast result temp)

/-- The template has instances for these types of operands. -/
def Supported (t u : IntType) : Prop :=
  t.signed = u.signed ∨ t.width = .w32 ∧ u.width = .w32

instance (t u : IntType) : Decidable (Supported t u) := inferInstanceAs (Decidable (_ ∨ _))

def resultType (t u : IntType) : IntType :=
  if t.width.bits > u.width.bits then t
  else if t.width.bits < u.width.bits then u
  else ⟨t.signed && u.signed, t.width⟩

/-- The operands for which the check is right. -/
def Reliable (result : IntType) (op : Operation) : Prop :=
  lhs.type.signed = rhs.type.signed →
    if lhs.type.signed then
      match op with
      | .add => (lhs.value < 0 ↔ rhs.value < 0) ∨ result.Holds (lhs.value + rhs.value)
      | .sub =>
        if lhs.value < 0 ↔ rhs.value < 0 then result.Holds (lhs.value - rhs.value)
        else lhs.value < 0 → lhs.value - rhs.value ≠ result.min
      | .multiply =>
        lhs.value < 0 → rhs.value < 0 → lhs.value ≠ result.min →
          result.convert rhs.value ≠ result.min →
            (lhs.value = lhs.type.promote.min → ¬result.Holds (lhs.value * rhs.value)) ∧
              (rhs.value = rhs.type.promote.min → result.Holds (lhs.value * rhs.value))
    else
      match op with
      | .add => rhs.value ≤ result.max ∨
          result.max < lhs.value + rhs.value % (2 * result.half)
      | .sub => rhs.value ≤ result.max ∨ lhs.value < rhs.value % (2 * result.half)
      | .multiply => True

end ArithmeticOperations

/-! ## `Checked<T, RecordOverflow>` -/

structure Checked where
  type : IntType
  value : Int := 0
  overflowed : Bool := false

namespace Checked

open Val ArithmeticOperations

variable (x : Checked)

def val : Val := ⟨x.type, x.value⟩

variable (target : IntType)

/-- `isInBounds<Target>(value)`, with the cases of `BoundsChecker`. -/
def isInBounds (v : Val) : Bool :=
  match decide (v.type.width.bits ≤ target.width.bits), target.signed, v.type.signed with
  | false, false, false => !less (maximum target) v
  | false, true, true => !less v (minimum target) && !less (maximum target) v
  | false, false, true => !less (maximum target) (staticCast ⟨false, v.type.width⟩ v)
  | false, true, false => !less (staticCast v.type (maximum target)) v
  | true, false, false | true, true, true => true
  | true, true, false =>
    decide (v.type.width.bits < target.width.bits) || !less (staticCast v.type (maximum target)) v
  | true, false, true => decide (0 ≤ v.value)

def ofVal (v : Val) : Checked :=
  { type := target, value := target.convert v.value, overflowed := !isInBounds target v }

/-- `Checked(const Checked<U, OverflowHandler>&)`. -/
def ofChecked (x : Checked) : Checked :=
  { ofVal target x.val with overflowed := x.overflowed || !isInBounds target x.val }

/-- `operator+`, `operator-` and `operator*`. -/
def binary (op : Operation) (x y : Checked) : Checked :=
  match safe op x.val y.val (resultType x.type y.type) with
  | none => { type := resultType x.type y.type, overflowed := true }
  | some v =>
    if x.overflowed || y.overflowed then
      { type := resultType x.type y.type, overflowed := true }
    else ofVal (resultType x.type y.type) v

/-- `operator+=`, `operator-=` and `operator*=` for another `Checked`. -/
def compound (op : Operation) (x y : Checked) : Checked :=
  match safe op x.val y.val x.type with
  | none => { x with overflowed := true }
  | some v => { x with value := v.value, overflowed := x.overflowed || y.overflowed }

def bump (limit change : Int) (x : Checked) : Checked :=
  { x with
    value := x.type.convert (x.value + change)
    overflowed := x.overflowed || decide (x.value = limit) }

def increment : Checked := x.bump x.type.max 1

def decrement : Checked := x.bump x.type.min (-1)

end Checked

/-! ## What the checks find -/

namespace ArithmeticOperations

open Val IntType

variable {lhs rhs : Val} {result : IntType} {op : Operation} {a b : Int}

theorem signsMatch_iff (ha : lhs.value = a) (hb : rhs.value = b) :
    signsMatch lhs rhs = true ↔ (a < 0 ↔ b < 0) := by
  simp [signsMatch, decide_eq_decide, ha, hb]

theorem lt_neg_tdiv {n m k : Int} (hm : 0 < m) (hk : 0 ≤ k) : n < (-k).tdiv m ↔ n * m < -k := by
  have hdiv := Int.ediv_lt_iff_lt_mul hm (a := k) (b := -n)
  rw [Int.neg_tdiv, Int.tdiv_eq_ediv_of_nonneg hk]
  rw [Int.neg_mul] at hdiv
  omega

theorem tdiv_lt {n m k : Int} (hm : 0 < m) (hk : 0 ≤ k) : k.tdiv m < n ↔ k < n * m := by
  rw [Int.tdiv_eq_ediv_of_nonneg hk, Int.ediv_lt_iff_lt_mul hm]

theorem decide_ne_and {n : Int} {p : Bool} (h : n ≠ 0) : (decide (n ≠ 0) && p) = p := by simp [h]

/-- What is known of signed operands. -/
structure Signed (lhs rhs : Val) (result : IntType) (a b : Int) : Prop where
  lower : -result.half ≤ a
  upper : a < result.half
  result : result.signed = true
  lhs : IsSigned lhs a
  rhs : IsSigned rhs b

namespace Signed

variable (h : Signed lhs rhs result a b)

include h

theorem holds_iff (x : Int) : result.Holds x ↔ -result.half ≤ x ∧ x < result.half := by
  simp only [Holds, IntType.min, IntType.max, h.result, if_true]
  omega

theorem max_eq : result.max = result.half - 1 := by
  simp [IntType.max, h.result]

theorem min_eq : result.min = -result.half := by
  simp [IntType.min, h.result]

theorem add_iff :
    refusesSigned lhs rhs result .add = true ↔ (a < 0 ↔ b < 0) ∧ ¬result.Holds (a + b) := by
  have hmax := h.max_eq
  have hmin := h.min_eq
  have hlow := h.lower
  have hupp := h.upper
  rw [h.holds_iff, refusesSigned, h.lhs.value]
  by_cases hsg : a < 0 ↔ b < 0
  · rw [if_pos ((signsMatch_iff h.lhs.value h.rhs.value).mpr hsg)]
    split_ifs with hp
    · rw [((IsSigned.maximum h.result).sub h.rhs (by omega)).less h.lhs]
      omega
    · have htm : IsSigned (staticCast result (lhs - minimum result)) (a - result.min) :=
        .staticCast h.result (h.lhs.sub (.minimum h.result) (by omega)).value
          (by rw [h.holds_iff]; omega)
      rw [h.rhs.less (htm.neg (by omega))]
      omega
  · rw [if_neg (fun heq => hsg ((signsMatch_iff h.lhs.value h.rhs.value).mp heq))]
    simp [hsg]

theorem sub_iff :
    refusesSigned lhs rhs result .sub = true ↔
      ¬(a < 0 ↔ b < 0) ∧ (0 ≤ a → ¬result.Holds (a - b)) ∧ (a < 0 → a - b ≤ result.min) := by
  have hmax := h.max_eq
  have hmin := h.min_eq
  have hlow := h.lower
  have hupp := h.upper
  have hmt := signsMatch_iff h.lhs.value h.rhs.value
  rw [h.holds_iff, refusesSigned, h.lhs.value]
  by_cases hsg : a < 0 ↔ b < 0
  · simp [hmt.mpr hsg, hsg]
  rw [if_pos (by simp [hmt.not.mpr hsg])]
  split_ifs with hp
  · rw [((IsSigned.maximum h.result).add h.rhs (by omega)).less h.lhs]
    omega
  · rw [((IsSigned.maximum h.result).add h.lhs (by omega)).less h.rhs]
    omega

theorem multiply_iff (hneg : ¬(a < 0 ∧ b < 0)) :
    refusesSigned lhs rhs result .multiply = true ↔ ¬result.Holds (a * b) := by
  have hp := result.half_pos
  have hmt := signsMatch_iff h.lhs.value h.rhs.value
  have hmax := IsSigned.maximum h.result
  have hmin := IsSigned.minimum h.result
  rw [h.max_eq] at hmax
  rw [h.min_eq] at hmin
  rw [h.holds_iff, refusesSigned, h.lhs.value, h.rhs.value]
  split_ifs with hsg ha hlt
  · -- both are not negative
    have hb : 0 ≤ b := by have := hmt.mp hsg; omega
    have hpr := mul_nonneg ha hb
    by_cases hz : a = 0
    · simp [hz]
      omega
    · rw [decide_ne_and hz, (hmax.div h.lhs (by omega)).less h.rhs,
        tdiv_lt (by omega) (by omega), mul_comm]
      omega
  · have := hmt.mp hsg
    omega
  · have hb : 0 ≤ b := by have := hmt.not.mp hsg; omega
    have hpr := mul_nonpos_of_nonpos_of_nonneg (le_of_lt hlt) hb
    by_cases hz : b = 0
    · simp [hz]
      omega
    · rw [decide_ne_and hz, h.lhs.less (hmin.div h.rhs (by omega)),
        lt_neg_tdiv (by omega) (by omega)]
      omega
  · have hb : b < 0 := by have := hmt.not.mp hsg; omega
    have hpr := mul_nonpos_of_nonneg_of_nonpos (not_lt.mp hlt) (le_of_lt hb)
    by_cases hz : a = 0
    · simp [hz]
      omega
    · rw [decide_ne_and hz, h.rhs.less (hmin.div h.lhs (by omega)),
        lt_neg_tdiv (by omega) (by omega), mul_comm]
      omega

/-- Products of negative operands: a negation that wraps makes the check wrong. -/
theorem multiply_neg_iff (ha : a < 0) (hb : b < 0)
    (hbt : a = lhs.type.promote.min → b = rhs.type.promote.min →
      a = result.min ∨ result.convert b = result.min) :
    (refusesSigned lhs rhs result .multiply = true ↔ ¬result.Holds (a * b)) ↔
      (a ≠ result.min → result.convert b ≠ result.min →
        (a = lhs.type.promote.min → ¬result.Holds (a * b)) ∧
          (b = rhs.type.promote.min → result.Holds (a * b))) := by
  have hp := result.half_pos
  have hcs : (staticCast result lhs).value = a := by
    rw [staticCast, h.lhs.value, convert_of_holds ((h.holds_iff a).mpr ⟨h.lower, h.upper⟩)]
  have hcs' : (staticCast result rhs).value = result.convert b := by rw [staticCast, h.rhs.value]
  have hmt : signsMatch lhs rhs = true := (signsMatch_iff h.lhs.value h.rhs.value).mpr (by omega)
  have hls : ∀ {x y : Int}, IsSigned (-lhs) x → IsSigned (-rhs) y →
      (less (maximum result / -lhs) (-rhs) = true ↔ (result.half - 1).tdiv x < y) := fun hx hy =>
    (h.max_eq ▸ (IsSigned.maximum h.result).div hx (.inl (by rw [h.max_eq]; omega))).less hy
  have hnn : ∀ {x : Int}, 0 < x → 0 ≤ (result.half - 1).tdiv x := fun hx =>
    Int.tdiv_nonneg (by omega) (Int.le_of_lt hx)
  have hpr : 0 ≤ a * b := Int.mul_nonneg_of_nonpos_of_nonpos (by omega) (by omega)
  simp only [refusesSigned, hmt, if_true, h.lhs.value, Int.not_le.mpr ha, if_false, hcs,
    hcs', Bool.or_eq_true, decide_eq_true_eq]
  by_cases hmin : a = result.min ∨ result.convert b = result.min
  · -- the product is at least half of the number of values
    have ho : ¬result.Holds (a * b) := by
      rw [h.holds_iff]
      rcases hmin with hmin | hmin
      · have := le_mul_of_one_le_right (show 0 ≤ -a by omega) (show 1 ≤ -b by omega)
        rw [Int.neg_mul_neg] at this
        rw [h.min_eq] at hmin
        omega
      · have hle : b ≤ -result.half := by
          by_contra hlt
          rw [convert, h.min_eq, Int.emod_eq_of_lt (by omega) (by omega)] at hmin
          omega
        have := le_mul_of_one_le_left (show 0 ≤ -b by omega) (show 1 ≤ -a by omega)
        rw [Int.neg_mul_neg] at this
        omega
    simp only [hmin, true_or, ho, not_false_eq_true, true_iff]
    intro hl hr
    exact (hmin.elim hl hr).elim
  · rw [or_iff_right hmin]
    rw [not_or] at hmin
    simp only [hmin.1, hmin.2, ne_eq, not_false_eq_true, forall_const]
    by_cases hl : a = lhs.type.promote.min
    · have hr : b ≠ rhs.type.promote.min := fun hr => (hbt hl hr).elim hmin.1 hmin.2
      have hx := h.lhs.neg_value
      rw [if_pos hl] at hx
      have hq : (result.half - 1).tdiv a ≤ 0 := by
        have := hnn (x := -a) (by omega)
        rw [Int.tdiv_neg] at this
        omega
      simp only [hls hx (h.rhs.neg (.inr hr)), hl, hr, forall_const, false_imp_iff, and_true]
      rw [← hl]
      exact iff_true_left (by omega)
    · by_cases hr : b = rhs.type.promote.min
      · have hy := h.rhs.neg_value
        rw [if_pos hr] at hy
        have := hnn (x := -a) (by omega)
        simp only [hls (h.lhs.neg (.inr hl)) hy, hl, false_imp_iff, true_and, hr, forall_const]
        exact (iff_false_left (by omega)).trans not_not
      · rw [hls (h.lhs.neg (.inr hl)) (h.rhs.neg (.inr hr)), tdiv_lt (by omega) (by omega),
          Int.neg_mul_neg, Int.mul_comm, h.holds_iff]
        omega

end Signed

/-! ### Unsigned operands -/

/-- What is known of unsigned operands. -/
structure Unsigned (lhs rhs : Val) (result : IntType) (a b : Int) : Prop where
  wide : a < 2 * result.half
  narrow : result.half ∣ (common lhs.type rhs.type).half
  result : result.signed = false
  lhs_signed : lhs.type.signed = false
  rhs_signed : rhs.type.signed = false
  lhs : lhs.Valid ∧ lhs.value = a
  rhs : rhs.Valid ∧ rhs.value = b

namespace Unsigned

variable (h : Unsigned lhs rhs result a b)

include h

theorem nonneg : 0 ≤ a ∧ 0 ≤ b := by
  have hl := h.lhs
  have hr := h.rhs
  simp only [Val.Valid, Holds, IntType.min, h.lhs_signed, h.rhs_signed, if_false,
    Bool.false_eq_true] at hl hr
  omega

theorem holds_iff (x : Int) : result.Holds x ↔ 0 ≤ x ∧ x < 2 * result.half := by
  simp only [Holds, IntType.min, IntType.max, h.result, if_false, Bool.false_eq_true]
  omega

theorem cast_arith (f : Int → Int → Int) :
    (staticCast result (arith f lhs rhs)).value = f a b % (2 * result.half) := by
  have hmt := meet_of_signed h.lhs.1 h.rhs.1 (h.lhs_signed.trans h.rhs_signed.symm)
  rw [staticCast, arith_value hmt, convert_convert h.narrow, h.lhs.2, h.rhs.2, convert,
    IntType.min, if_neg (by simp [h.result])]
  simp

theorem add_iff : refusesUnsigned lhs rhs result .add = true ↔ (a + b) % (2 * result.half) < a := by
  rw [refusesUnsigned, less_iff (meet_of_signed (valid_staticCast ..) h.lhs.1
    (h.result.trans h.lhs_signed.symm)), h.lhs.2]
  exact iff_of_eq (congrArg (· < a) (h.cast_arith (· + ·)))

theorem sub_iff : refusesUnsigned lhs rhs result .sub = true ↔ a < (a - b) % (2 * result.half) := by
  rw [refusesUnsigned, less_iff (meet_of_signed h.lhs.1 (valid_staticCast ..)
    (h.lhs_signed.trans h.result.symm)), h.lhs.2]
  exact iff_of_eq (congrArg (a < ·) (h.cast_arith (· - ·)))

theorem multiply_iff : refusesUnsigned lhs rhs result .multiply = true ↔ ¬result.Holds (a * b) := by
  obtain ⟨ha, hb⟩ := h.nonneg
  have hp := result.half_pos
  have hpr := Int.mul_nonneg ha hb
  have hmax : result.max = 2 * result.half - 1 := by simp [IntType.max, h.result]
  rw [h.holds_iff, refusesUnsigned, h.lhs.2, h.rhs.2]
  by_cases hz : a = 0
  · simp [hz]
    omega
  by_cases hz' : b = 0
  · simp [hz']
    omega
  have hmt : Meet (maximum result) lhs :=
    meet_of_nonneg (valid_maximum _) h.lhs.1 (by show 0 ≤ result.max; omega) (h.lhs.2.symm ▸ ha)
  have hq := Int.tdiv_nonneg (show 0 ≤ result.max by omega) ha
  have hv : (maximum result / lhs).value = result.max.tdiv a := by
    have habs := Int.natAbs_tdiv_le_natAbs result.max a
    have hmin : (common result lhs.type).min ≤ 0 := by
      have := (common result lhs.type).half_pos
      unfold IntType.min
      split <;> omega
    have hle : result.max ≤ (common result lhs.type).max := hmt.1.2
    refine (arith_value hmt).trans ?_
    rw [h.lhs.2]
    exact convert_of_holds ⟨Int.le_trans hmin hq,
      Int.le_trans (show result.max.tdiv a ≤ result.max by omega) hle⟩
  rw [Bool.and_assoc, decide_ne_and hz, decide_ne_and hz',
    less_iff (meet_of_nonneg (a := maximum result / lhs) valid_arith h.rhs.1
      (by rw [hv]; exact hq) (h.rhs.2.symm ▸ hb)),
    hv, h.rhs.2, tdiv_lt (by omega) (by omega), Int.mul_comm]
  omega

end Unsigned

/-! ### An `int` and an `unsigned` -/

theorem int64_holds_exact (hl : lhs.Valid) (hr : rhs.Valid) (hlw : lhs.type.width = .w32)
    (hrw : rhs.type.width = .w32) (hsg : lhs.type.signed ≠ rhs.type.signed) :
    int64.Holds lhs.value ∧ int64.Holds rhs.value ∧ int64.Holds (op.exact lhs.value rhs.value) := by
  have hpr : (lhs.value * rhs.value).natAbs ≤ 2 ^ 31 * (2 ^ 32 - 1) := by
    obtain ⟨⟨_ | _, _⟩, a⟩ := lhs <;> obtain ⟨⟨_ | _, _⟩, b⟩ := rhs <;> cases hlw <;> cases hrw <;>
      simp [Val.Valid, Holds, IntType.min, IntType.max, half, Width.bits, natAbs_mul] at *
    · have := mul_le_mul (show a.natAbs ≤ 2 ^ 32 - 1 by omega) (show b.natAbs ≤ 2 ^ 31 by omega)
      omega
    · exact Nat.mul_le_mul (show a.natAbs ≤ 2 ^ 31 by omega) (show b.natAbs ≤ 2 ^ 32 - 1 by omega)
  obtain ⟨⟨_ | _, _⟩, a⟩ := lhs <;> obtain ⟨⟨_ | _, _⟩, b⟩ := rhs <;> cases hlw <;> cases hrw <;>
    cases op <;> simp [Val.Valid, Holds, IntType.min, IntType.max, half, Width.bits, int64,
      Operation.exact] at * <;> omega

theorem apply_eq (op : Operation) (x y : Val) : op.apply x y = arith op.exact x y := by
  cases op <;> rfl

theorem mixed_iff {temp : Val} {x : Int} (hty : temp.type = int64) (hval : temp.value = x)
    (hx : int64.Holds x) (hw : result.width = .w32) :
    refusesMixed temp result = true ↔ ¬result.Holds x := by
  have hcom : common int64 result = int64 ∧ common result int64 = int64 := by
    obtain ⟨_ | _, _⟩ := result <;> cases hw <;> decide
  have hlms : int64.Holds result.min ∧ int64.Holds result.max := by
    obtain ⟨_ | _, _⟩ := result <;> cases hw <;> decide
  have hmin : Meet temp (minimum result) := by
    simp [Meet, minimum, hty, hval, hcom, hx, hlms]
  have hmax : Meet (maximum result) temp := by
    simp [Meet, maximum, hty, hval, hcom, hx, hlms]
  rw [refusesMixed, Bool.or_eq_true, less_iff hmin, less_iff hmax, hval, Holds]
  show _ < result.min ∨ result.max < _ ↔ _
  omega

/-! ### All operands -/

/-- The result is the exact one, or there is none because the type does not have it. -/
def Exact (r : Option Val) (t : IntType) (x : Int) : Prop :=
  match r with
  | none => ¬t.Holds x
  | some v => t.Holds x ∧ v.value = x

theorem exact_ite {p : Bool} {v : Val} {x : Int} (h : result.Holds x → v.value = x) :
    Exact (if p then none else some v) result x ↔ (p = true ↔ ¬result.Holds x) := by
  cases p with
  | true => simp [Exact]
  | false => simpa [Exact] using h

theorem half_dvd (ht : result = lhs.type ∨ result = resultType lhs.type rhs.type) :
    result.half ∣ (common lhs.type rhs.type).half := by
  have hres : ∀ t u : IntType, (resultType t u).half ∣ (common t u).half := by
    rintro ⟨_ | _, _ | _ | _ | _⟩ ⟨_ | _, _ | _ | _ | _⟩ <;> decide
  rcases ht with rfl | rfl
  · exact half_dvd_common ..
  · exact hres ..

theorem result_facts (hsg : lhs.type.signed = rhs.type.signed)
    (ht : result = lhs.type ∨ result = resultType lhs.type rhs.type) :
    result.signed = lhs.type.signed ∧ lhs.type.half ≤ result.half ∧
      (lhs.type.Holds lhs.type.promote.min → rhs.type.Holds rhs.type.promote.min →
        lhs.type.promote.min = result.min ∨ result.convert rhs.type.promote.min = result.min) := by
  generalize lhs.type = t, rhs.type = u at *
  rcases ht with rfl | rfl <;> obtain ⟨_ | _, _ | _ | _ | _⟩ := u <;>
    first
    | (obtain ⟨_ | _, _ | _ | _ | _⟩ := result <;> revert hsg <;> decide)
    | (obtain ⟨_ | _, _ | _ | _ | _⟩ := t <;> revert hsg <;> decide)

theorem Signed.reliable (h : Signed lhs rhs result lhs.value rhs.value)
    (hbt : lhs.value = lhs.type.promote.min → rhs.value = rhs.type.promote.min →
      lhs.value = result.min ∨ result.convert rhs.value = result.min)
    (hs : lhs.type.signed = rhs.type.signed) :
    (refusesSigned lhs rhs result op = true ↔
      ¬result.Holds (op.exact lhs.value rhs.value)) ↔ Reliable lhs rhs result op := by
  have hmin := h.min_eq
  simp only [Reliable, hs, forall_const, h.rhs.signed, if_true]
  cases op with
  | add =>
    rw [h.add_iff]
    show (_ ∧ ¬result.Holds (lhs.value + rhs.value) ↔ ¬result.Holds (lhs.value + rhs.value)) ↔ _
    tauto
  | sub =>
    rw [h.sub_iff, Operation.exact, h.holds_iff]
    split_ifs with hsg
    · simp only [hsg, not_true_eq_false, false_and, false_iff, not_not]
    · have := h.rhs.holds
      omega
  | multiply =>
    by_cases hneg : lhs.value < 0 ∧ rhs.value < 0
    · simp only [hneg.1, hneg.2, forall_const]
      exact h.multiply_neg_iff hneg.1 hneg.2 hbt
    · rw [h.multiply_iff hneg]
      exact iff_of_true Iff.rfl fun ha hb => (hneg ⟨ha, hb⟩).elim

theorem Unsigned.reliable (h : Unsigned lhs rhs result lhs.value rhs.value) :
    (refusesUnsigned lhs rhs result op = true ↔
      ¬result.Holds (op.exact lhs.value rhs.value)) ↔ Reliable lhs rhs result op := by
  obtain ⟨ha, hb⟩ := h.nonneg
  have hwd := h.wide
  have hmax : result.max = 2 * result.half - 1 := by simp [IntType.max, h.result]
  have hs : lhs.type.signed = rhs.type.signed := h.lhs_signed.trans h.rhs_signed.symm
  simp only [Reliable, hs, forall_const, h.rhs_signed, Bool.false_eq_true, if_false]
  cases op with
  | add =>
    rw [h.add_iff, Operation.exact, h.holds_iff, hmax]
    obtain ⟨_, _ | _ | _ | _⟩ := result <;> simp only [half, Width.bits] at * <;> omega
  | sub =>
    rw [h.sub_iff, Operation.exact, h.holds_iff, hmax]
    obtain ⟨_, _ | _ | _ | _⟩ := result <;> simp only [half, Width.bits] at * <;> omega
  | multiply =>
    rw [h.multiply_iff]
    exact iff_of_true Iff.rfl trivial

/-- **The checks.** They are right exactly for reliable operands. -/
theorem safe_iff (hl : lhs.Valid) (hr : rhs.Valid) (hs : Supported lhs.type rhs.type)
    (ht : result = lhs.type ∨ result = resultType lhs.type rhs.type) :
    Exact (safe op lhs rhs result) result (op.exact lhs.value rhs.value) ↔
      Reliable lhs rhs result op := by
  unfold safe
  by_cases hsg : lhs.type.signed = rhs.type.signed
  · have hv : result.Holds (op.exact lhs.value rhs.value) →
        (staticCast result (op.apply lhs rhs)).value = op.exact lhs.value rhs.value := by
      intro h
      rw [apply_eq, staticCast, arith_value (meet_of_signed hl hr hsg),
        convert_convert (half_dvd ht), convert_of_holds h]
    obtain ⟨hrs, hwd, hbt⟩ := result_facts hsg ht
    rw [if_pos hsg, exact_ite hv]
    have hl' := hl
    split_ifs with hsgd
    · simp only [Val.Valid, Holds, IntType.min, IntType.max, hsgd, if_true] at hl'
      refine Signed.reliable ⟨by omega, by omega, hrs.trans hsgd, ⟨hsgd, hl, rfl⟩,
        ⟨hsg ▸ hsgd, hr, rfl⟩⟩ (fun ha hb => ?_) hsg
      rw [ha, hb]
      exact hbt (ha ▸ hl) (hb ▸ hr)
    · simp only [Val.Valid, Holds, IntType.min, IntType.max, hsgd, if_false,
        Bool.false_eq_true] at hl'
      have husg := Bool.eq_false_iff.mpr hsgd
      exact Unsigned.reliable ⟨by omega, half_dvd ht, hrs.trans husg, husg,
        hsg ▸ husg, ⟨hl, rfl⟩, ⟨hr, rfl⟩⟩
  · have hw : lhs.type.width = .w32 ∧ rhs.type.width = .w32 := hs.resolve_left hsg
    have hrw : result.width = .w32 := by
      rcases ht with rfl | rfl
      · exact hw.1
      · simp [resultType, hw]
    obtain ⟨ha, hb, hx⟩ := @int64_holds_exact _ _ op hl hr hw.1 hw.2 hsg
    have htm := (IsSigned.staticCast (v := lhs) (t := int64) rfl rfl ha).arith
      (.staticCast (v := rhs) (t := int64) rfl rfl hb) (f := op.exact) hx
    rw [if_neg hsg, apply_eq, exact_ite (fun h => by
      rw [staticCast, htm.value, convert_of_holds h]), mixed_iff rfl htm.value hx hrw]
    exact iff_of_true Iff.rfl fun heq => (hsg heq).elim

end ArithmeticOperations

end WebKit.Wtf
