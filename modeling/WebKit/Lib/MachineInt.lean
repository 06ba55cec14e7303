import Mathlib.Algebra.Order.Ring.Int

/-!
# Machine integers

The integer types of C++, and its arithmetic on them: operands narrower than `int` are promoted,
two operands are converted to a common type. A result that the type does not hold wraps around,
also for a signed type.
-/

namespace MachineInt

open Int

inductive Width
  | w8 | w16 | w32 | w64
  deriving DecidableEq

def Width.bits : Width → Nat
  | .w8 => 8
  | .w16 => 16
  | .w32 => 32
  | .w64 => 64

structure IntType where
  signed : Bool
  width : Width
  deriving DecidableEq

namespace IntType

/-- Half of the number of values. -/
def half (t : IntType) : Int := 2 ^ (t.width.bits - 1)

def min (t : IntType) : Int := if t.signed then -t.half else 0

def max (t : IntType) : Int := if t.signed then t.half - 1 else 2 * t.half - 1

def Holds (t : IntType) (x : Int) : Prop := t.min ≤ x ∧ x ≤ t.max

instance (t : IntType) (x : Int) : Decidable (t.Holds x) := inferInstanceAs (Decidable (_ ∧ _))

/-- `static_cast<T>(x)`. -/
def convert (t : IntType) (x : Int) : Int := t.min + (x - t.min) % (2 * t.half)

def int : IntType := ⟨true, .w32⟩

def unsigned : IntType := ⟨false, .w32⟩

def int64 : IntType := ⟨true, .w64⟩

/-- The integer promotions. -/
def promote (t : IntType) : IntType := if t.width.bits < 32 then int else t

/-- The usual arithmetic conversions. -/
def common (t u : IntType) : IntType :=
  if t.promote.width.bits < u.promote.width.bits then u.promote
  else if u.promote.width.bits < t.promote.width.bits then t.promote
  else ⟨t.promote.signed && u.promote.signed, t.promote.width⟩

variable {t u : IntType} {x : Int}

theorem half_pos (t : IntType) : 0 < t.half := Int.pow_pos (by decide)

theorem max_eq (t : IntType) : t.max = t.min + 2 * t.half - 1 := by
  unfold max min
  split <;> omega

theorem min_le_max (t : IntType) : t.min ≤ t.max := by
  have hp := t.half_pos
  rw [max_eq]
  omega

theorem convert_of_holds (h : t.Holds x) : t.convert x = x := by
  obtain ⟨hmin, hmax⟩ := h
  rw [max_eq] at hmax
  rw [convert, emod_eq_of_lt (by omega) (by omega)]
  omega

theorem holds_convert (t : IntType) (x : Int) : t.Holds (t.convert x) := by
  have hp := t.half_pos
  have hlt := emod_lt_of_pos (x - t.min) (show 0 < 2 * t.half by omega)
  have hnn := emod_nonneg (x - t.min) (show 2 * t.half ≠ 0 by omega)
  rw [Holds, max_eq, convert]
  omega

/-- On the way to a common type only the sign of a signed value can be lost, to an unsigned type. -/
theorem common_holds (h : t.Holds x) (hsg : 0 ≤ x ∨ t.signed = u.signed) :
    (common t u).Holds x ∧ (common u t).Holds x := by
  obtain ⟨_ | _, _ | _ | _ | _⟩ := t <;> obtain ⟨_ | _, _ | _ | _ | _⟩ := u <;>
    simp [Holds, min, max, half, common, promote, int, Width.bits] at * <;> omega

/-- A conversion to a wider type on the way does not matter. -/
theorem convert_convert (h : t.half ∣ u.half) (x : Int) :
    t.convert (u.convert x) = t.convert x := by
  obtain ⟨k, hk⟩ := h
  have hdiv := emod_add_mul_ediv (x - u.min) (2 * u.half)
  have hx : u.convert x - t.min =
      x - t.min + 2 * t.half * (-(k * ((x - u.min) / (2 * u.half)))) := by
    rw [convert, hk] at *
    rw [mul_neg, mul_assoc, mul_assoc] at *
    omega
  rw [convert, hx, add_mul_emod_self_left, convert]

theorem half_dvd_common (t u : IntType) : t.half ∣ (common t u).half := by
  obtain ⟨_ | _, _ | _ | _ | _⟩ := t <;> obtain ⟨_ | _, _ | _ | _ | _⟩ := u <;> decide

theorem promote_common (t : IntType) : common t t = t.promote := by
  simp [common]

theorem common_signed (ht : t.signed = true) (hu : u.signed = true) :
    (common t u).signed = true := by
  simp only [common, promote, int]
  split_ifs <;> simp_all

/-- A signed type has the difference of two of its values of the same sign. -/
theorem holds_sub {y : Int} (ht : t.signed = true) (hx : t.Holds x) (hy : t.Holds y)
    (hsg : x < 0 ↔ y < 0) : t.Holds (x - y) := by
  simp only [Holds, min, max, ht, if_true] at *
  omega

/-- A signed type has the sum of two of its values of different signs. -/
theorem holds_add {y : Int} (ht : t.signed = true) (hx : t.Holds x) (hy : t.Holds y)
    (hsg : ¬(x < 0 ↔ y < 0)) : t.Holds (x + y) := by
  simp only [Holds, min, max, ht, if_true] at *
  omega

end IntType

/-! ## Arithmetic -/

open IntType

structure Val where
  type : IntType
  value : Int
  deriving DecidableEq

namespace Val

def Valid (v : Val) : Prop := v.type.Holds v.value

variable (t : IntType)

def staticCast (v : Val) : Val := ⟨t, t.convert v.value⟩

def minimum : Val := ⟨t, t.min⟩

def maximum : Val := ⟨t, t.max⟩

/-- An operation on two integers of the common type. -/
def arith (f : Int → Int → Int) (a b : Val) : Val :=
  let c := common a.type b.type
  ⟨c, c.convert (f (c.convert a.value) (c.convert b.value))⟩

instance : Add Val := ⟨arith (· + ·)⟩

instance : Sub Val := ⟨arith (· - ·)⟩

instance : Mul Val := ⟨arith (· * ·)⟩

instance : Div Val := ⟨arith Int.tdiv⟩

instance : Neg Val := ⟨fun a => ⟨a.type.promote, a.type.promote.convert (-a.value)⟩⟩

def less (a b : Val) : Bool :=
  let c := common a.type b.type
  decide (c.convert a.value < c.convert b.value)

variable {a b : Val} {f : Int → Int → Int} {x y : Int}

/-- The common type has both values. -/
def Meet (a b : Val) : Prop :=
  (common a.type b.type).Holds a.value ∧ (common a.type b.type).Holds b.value

theorem meet_of_signed (ha : a.Valid) (hb : b.Valid) (h : a.type.signed = b.type.signed) :
    Meet a b :=
  ⟨(common_holds ha (.inr h)).1, (common_holds hb (.inr h.symm)).2⟩

theorem meet_of_nonneg (ha : a.Valid) (hb : b.Valid) (hx : 0 ≤ a.value) (hy : 0 ≤ b.value) :
    Meet a b :=
  ⟨(common_holds ha (.inl hx)).1, (common_holds hb (.inl hy)).2⟩

theorem less_iff (h : Meet a b) : less a b = true ↔ a.value < b.value := by
  rw [less, decide_eq_true_iff, convert_of_holds h.1, convert_of_holds h.2]

theorem arith_value (h : Meet a b) :
    (arith f a b).value = (common a.type b.type).convert (f a.value b.value) := by
  rw [arith, convert_of_holds h.1, convert_of_holds h.2]

theorem valid_staticCast (v : Val) : (staticCast t v).Valid := holds_convert ..

theorem valid_arith : (arith f a b).Valid := holds_convert ..

theorem valid_maximum : (maximum t).Valid := ⟨t.min_le_max, le_refl _⟩

theorem valid_minimum : (minimum t).Valid := ⟨le_refl _, t.min_le_max⟩

theorem valid_neg : (-a).Valid := holds_convert ..

/-! ## Signed integers -/

/-- A signed integer with this value. -/
structure IsSigned (v : Val) (x : Int) : Prop where
  signed : v.type.signed = true
  valid : v.Valid
  value : v.value = x

namespace IsSigned

variable {t : IntType}

theorem staticCast {v : Val} (ht : t.signed = true) (hv : v.value = x) (h : t.Holds x) :
    IsSigned (staticCast t v) x :=
  ⟨ht, valid_staticCast .., by rw [Val.staticCast, hv, convert_of_holds h]⟩

theorem maximum (ht : t.signed = true) : IsSigned (maximum t) t.max := ⟨ht, valid_maximum t, rfl⟩

theorem minimum (ht : t.signed = true) : IsSigned (minimum t) t.min := ⟨ht, valid_minimum t, rfl⟩

variable (ha : IsSigned a x)

include ha

theorem holds : a.type.Holds x := ha.value ▸ ha.valid

theorem promote : a.type.promote.signed = true ∧ a.type.promote.Holds x :=
  promote_common a.type ▸ ⟨common_signed ha.signed ha.signed, (common_holds ha.holds (.inr rfl)).1⟩

/-- Only the least value of the promoted type has no negative there. -/
theorem neg_value : IsSigned (-a) (if x = a.type.promote.min then x else -x) := by
  obtain ⟨hsgd, hx⟩ := ha.promote
  refine ⟨hsgd, valid_neg, ?_⟩
  show a.type.promote.convert (-a.value) = _
  rw [ha.value]
  simp only [Holds, IntType.min, IntType.max, hsgd, if_true] at hx
  split_ifs with heq
  · simp only [IntType.min, hsgd, if_true] at heq
    rw [heq, convert, IntType.min, if_pos hsgd]
    rw [show ∀ n : Int, - -n - -n = 2 * n by omega, emod_self, add_zero]
  · simp only [IntType.min, hsgd, if_true] at heq
    refine convert_of_holds ?_
    simp only [Holds, IntType.min, IntType.max, hsgd, if_true]
    omega

theorem neg (h : 0 ≤ x ∨ x ≠ a.type.promote.min) : IsSigned (-a) (-x) := by
  have hne : x ≠ a.type.promote.min := by
    have hp := a.type.promote.half_pos
    rw [IntType.min, if_pos ha.promote.1] at h ⊢
    omega
  have hneg := ha.neg_value
  rwa [if_neg hne] at hneg

variable (hb : IsSigned b y)

include hb

theorem meet : Meet a b := meet_of_signed ha.valid hb.valid (ha.signed.trans hb.signed.symm)

theorem less : Val.less a b = true ↔ x < y := by
  rw [less_iff (ha.meet hb), ha.value, hb.value]

theorem arith (h : (common a.type b.type).Holds (f x y)) : IsSigned (arith f a b) (f x y) := by
  refine ⟨common_signed ha.signed hb.signed, valid_arith, ?_⟩
  rw [arith_value (ha.meet hb), ha.value, hb.value, convert_of_holds h]

theorem common_left : (common a.type b.type).Holds x := ha.value ▸ (ha.meet hb).1

theorem common_right : (common a.type b.type).Holds y := hb.value ▸ (ha.meet hb).2

theorem sub (hsg : x < 0 ↔ y < 0) : IsSigned (a - b) (x - y) :=
  ha.arith hb (holds_sub (common_signed ha.signed hb.signed) (ha.common_left hb)
    (ha.common_right hb) hsg)

theorem add (hsg : ¬(x < 0 ↔ y < 0)) : IsSigned (a + b) (x + y) :=
  ha.arith hb (holds_add (common_signed ha.signed hb.signed) (ha.common_left hb)
    (ha.common_right hb) hsg)

theorem div (h : 0 ≤ x ∨ 0 < y) : IsSigned (a / b) (x.tdiv y) := by
  have hc := common_signed ha.signed hb.signed
  have hx := ha.common_left hb
  have habs := Int.natAbs_tdiv_le_natAbs x y
  refine ha.arith hb ?_
  simp only [Holds, IntType.min, IntType.max, hc, if_true] at hx ⊢
  rcases h with h | h
  · omega
  rcases Int.le_total 0 x with hp | hneg
  · omega
  · have hnn := Int.tdiv_nonneg (Int.neg_nonneg_of_nonpos hneg) (Int.le_of_lt h)
    rw [Int.neg_tdiv] at hnn
    omega

end IsSigned

end Val

end MachineInt
