import Mathlib.Algebra.Order.Field.Rat
import Mathlib.Data.Prod.Lex
import Mathlib.Order.Compare
import Mathlib.Tactic.Linarith
import Mathlib.Tactic.Positivity

/-!
# `MediaTime::compare`

Two finite times are compared by their whole seconds, truncated toward zero, and only then by what
remains, where the products cannot overflow. Since the remainder has the sign of the time, this is
the order of the rational numbers; the other kinds of times stand before or after all finite times.

The flags are independent bits, and only some combinations are those of a kind. Times with others
are not ordered. Times that hold a `double` are left out.
-/

namespace WebKit.Wtf

/-- The bits of `m_timeFlags` that `compare` looks at. -/
structure MediaTime.Flags where
  valid : Bool := false
  positiveInfinite : Bool := false
  negativeInfinite : Bool := false
  indefinite : Bool := false
  deriving DecidableEq

structure MediaTime where
  timeValue : Int
  timeScale : Int
  timeFlags : MediaTime.Flags
  int64 : -9223372036854775808 ≤ timeValue ∧ timeValue ≤ 9223372036854775807
  positive : 0 < timeScale
  int32 : timeScale ≤ 2147483647

namespace MediaTime

def whole (a : MediaTime) : Int := a.timeValue.tdiv a.timeScale

def remain (a : MediaTime) : Int := a.timeValue.tmod a.timeScale

/-- `lhsFactor`, and with the times exchanged `rhsFactor`. -/
def factor (a b : MediaTime) : Int := a.remain * b.timeScale

variable (a b : MediaTime)

def isInvalid : Bool := !a.timeFlags.valid

def isPositiveInfinite : Bool := a.timeFlags.positiveInfinite

def isNegativeInfinite : Bool := a.timeFlags.negativeInfinite

def isIndefinite : Bool := a.timeFlags.indefinite

def compare : Ordering :=
  if a.isPositiveInfinite && b.isPositiveInfinite || a.isNegativeInfinite && b.isNegativeInfinite
      || a.isInvalid && b.isInvalid || a.isIndefinite && b.isIndefinite then .eq
  else if a.isInvalid then .gt
  else if b.isInvalid then .lt
  else if b.isNegativeInfinite || a.isPositiveInfinite then .gt
  else if b.isPositiveInfinite || a.isNegativeInfinite then .lt
  else if a.isIndefinite then .gt
  else if b.isIndefinite then .lt
  else if a.whole > b.whole then .gt
  else if a.whole < b.whole then .lt
  else if a.factor b = b.factor a then .eq
  else if a.factor b > b.factor a then .gt
  else .lt

/-! ## The order -/

/-- The kinds of times, in their order. -/
inductive Kind
  | negativeInfinite
  | finite
  | indefinite
  | positiveInfinite
  | invalid
deriving DecidableEq

/-- The flags of the constants `negativeInfiniteTime` and so on, and of the finite times. -/
def Kind.flags : Kind → Flags
  | negativeInfinite => { valid := true, negativeInfinite := true }
  | finite => { valid := true }
  | indefinite => { valid := true, indefinite := true }
  | positiveInfinite => { valid := true, positiveInfinite := true }
  | invalid => {}

/-- The time in seconds. -/
def seconds (a : MediaTime) : ℚ := a.timeValue / a.timeScale

/-- Where a time of a kind stands: by the kind, and among the finite times by the seconds. -/
def key (kind : Kind) (a : MediaTime) : ℕ ×ₗ ℚ :=
  toLex (kind.ctorIdx, if kind = .finite then a.seconds else 0)

variable (c : MediaTime)

theorem timeValue_eq : a.timeValue = a.timeScale * a.whole + a.remain :=
  (Int.mul_tdiv_add_tmod ..).symm

theorem remain_bounds : -a.timeScale < a.remain ∧ a.remain < a.timeScale :=
  ⟨Int.lt_tmod_of_pos _ a.positive, Int.tmod_lt_of_pos _ a.positive⟩

theorem remain_nonneg (h : 0 < a.whole) : 0 ≤ a.remain := by
  have := a.remain_bounds
  have := a.timeValue_eq
  have := a.positive
  exact Int.tmod_nonneg _ (by nlinarith)

theorem remain_nonpos (h : a.whole < 0) : a.remain ≤ 0 := by
  have := a.remain_bounds
  have := a.timeValue_eq
  have := a.positive
  have hneg : 0 ≤ (-a.timeValue).tmod a.timeScale := Int.tmod_nonneg _ (by nlinarith)
  rw [Int.neg_tmod] at hneg
  exact Int.neg_nonneg.mp hneg

theorem seconds_lt_iff : a.seconds < b.seconds ↔
    a.timeValue * b.timeScale < b.timeValue * a.timeScale := by
  have ha : (0 : ℚ) < a.timeScale := Int.cast_pos.mpr a.positive
  have hb : (0 : ℚ) < b.timeScale := Int.cast_pos.mpr b.positive
  rw [seconds, seconds, div_lt_div_iff₀ ha hb]
  exact_mod_cast Iff.rfl

theorem seconds_lt_of_whole_lt (h : a.whole < b.whole) : a.seconds < b.seconds := by
  rw [seconds_lt_iff, a.timeValue_eq, b.timeValue_eq]
  have ha := a.positive
  have hb := b.positive
  have hra := a.remain_bounds
  have hrb := b.remain_bounds
  have hwhole : a.timeScale * b.timeScale * 1 ≤ a.timeScale * b.timeScale * (b.whole - a.whole) :=
    Int.mul_le_mul_of_nonneg_left (by omega) (by positivity)
  rcases lt_or_ge 0 b.whole with hpos | hneg
  · have := mul_lt_mul_of_pos_right hra.2 hb
    have := mul_nonneg (b.remain_nonneg hpos) ha.le
    linarith
  · have := mul_lt_mul_of_pos_right hrb.1 ha
    have := mul_nonneg_of_nonpos_of_nonpos (a.remain_nonpos (by omega)) (neg_nonpos.mpr hb.le)
    linarith

theorem seconds_lt_iff_of_whole_eq (h : a.whole = b.whole) :
    a.seconds < b.seconds ↔ a.factor b < b.factor a := by
  rw [seconds_lt_iff, a.timeValue_eq, b.timeValue_eq, h, factor, factor]
  constructor <;> intro hlt <;> linarith

theorem compare_finite (ha : a.timeFlags = Kind.finite.flags)
    (hb : b.timeFlags = Kind.finite.flags) : a.compare b = cmp a.seconds b.seconds := by
  have hab := a.seconds_lt_iff_of_whole_eq b
  have hba := b.seconds_lt_iff_of_whole_eq a
  generalize ho : cmp a.seconds b.seconds = o
  simp only [compare, isInvalid, isPositiveInfinite, isNegativeInfinite, isIndefinite, ha, hb,
    Kind.flags, Bool.and_self, Bool.or_self, Bool.not_true, Bool.false_eq_true, if_false]
  split_ifs with hgt hlt heq hfac
  · exact ((cmp_eq_gt_iff _ _).mpr (b.seconds_lt_of_whole_lt a hgt)).symm.trans ho
  · exact ((cmp_eq_lt_iff _ _).mpr (a.seconds_lt_of_whole_lt b hlt)).symm.trans ho
  · rw [← ho, eq_comm, cmp_eq_eq_iff]
    refine le_antisymm (not_lt.mp ?_) (not_lt.mp ?_)
    · rw [hba (by omega), heq]
      exact lt_irrefl _
    · rw [hab (by omega), heq]
      exact lt_irrefl _
  · exact ((cmp_eq_gt_iff _ _).mpr ((hba (by omega)).mpr hfac)).symm.trans ho
  · exact ((cmp_eq_lt_iff _ _).mpr ((hab (by omega)).mpr (by omega))).symm.trans ho

variable {a b c} {i j k : Kind} (ha : a.timeFlags = i.flags) (hb : b.timeFlags = j.flags)

include ha hb

theorem compare_eq_cmp : a.compare b = cmp (key i a) (key j b) := by
  by_cases h : i = .finite ∧ j = .finite
  · obtain ⟨rfl, rfl⟩ := h
    rw [a.compare_finite b ha hb, key, key]
    unfold cmp cmpUsing
    simp [Prod.Lex.toLex_lt_toLex]
  · unfold compare key isInvalid isPositiveInfinite isNegativeInfinite isIndefinite cmp cmpUsing
    rw [ha, hb]
    cases i <;> cases j <;>
      simp_all [Kind.flags, Prod.Lex.toLex_lt_toLex, Kind.ctorIdx]

/-- **Comparison** of times that have the flags of a kind is a total preorder, on finite times it
is that of the exact rational numbers, and its products fit in 64 bits. -/
theorem compare_total_preorder (hc : c.timeFlags = k.flags) :
    a.compare a = .eq ∧
    (a.compare b).swap = b.compare a ∧
    (a.compare b ≠ .gt → b.compare a ≠ .gt → a.compare b = .eq) ∧
    (a.compare b ≠ .gt → b.compare c ≠ .gt → a.compare c ≠ .gt) ∧
    (i = .finite → j = .finite → a.compare b = cmp a.seconds b.seconds) ∧
    -9223372036854775808 ≤ a.factor b ∧ a.factor b ≤ 9223372036854775807 := by
  rw [compare_eq_cmp ha ha, compare_eq_cmp ha hb, compare_eq_cmp hb ha, compare_eq_cmp hb hc,
    compare_eq_cmp ha hc]
  iterate 4 rw [(cmp_compares _ _).ne_gt]
  refine ⟨cmp_self_eq_eq _, cmp_swap .., fun h h' => (cmp_eq_eq_iff _ _).mpr (h.antisymm h'),
    le_trans, ?_, ?_⟩
  · rintro rfl rfl
    rw [← compare_eq_cmp ha hb, a.compare_finite b ha hb]
  · have := a.remain_bounds
    have := a.int32
    have := b.int32
    have := b.positive
    unfold factor
    constructor <;> nlinarith

omit ha hb

def ofFlags (timeFlags : Flags) : MediaTime := ⟨0, 1, timeFlags, by decide, by decide, by decide⟩

/-- The time -1/2, the largest time of scale 3, and `positiveInfiniteTime()`. -/
theorem compare_total_preorder_third :
    let a : MediaTime := ⟨-1, 2, { valid := true }, by decide, by decide, by decide⟩
    let b : MediaTime := ⟨9223372036854775807, 3, { valid := true }, by decide, by decide, by decide⟩
    let c := ofFlags { valid := true, positiveInfinite := true }
    a.compare b = cmp a.seconds b.seconds ∧ a.compare c ≠ .gt := by
  intro a b c
  have hab : a.compare b ≠ .gt := by decide +revert
  have hbc : b.compare c ≠ .gt := by decide +revert
  have h := compare_total_preorder (a := a) (b := b) (c := c) (i := .finite) (j := .finite)
    (k := .positiveInfinite) rfl rfl rfl
  exact ⟨h.2.2.2.2.1 rfl rfl, h.2.2.2.1 hab hbc⟩

/-- An infinite flag without the valid one equals the infinite time and every invalid time. -/
theorem flags_not_transitive :
    let a := ofFlags { negativeInfinite := true }
    let b := ofFlags { positiveInfinite := true }
    let c := ofFlags { valid := true, positiveInfinite := true }
    a.compare b = .eq ∧ b.compare c = .eq ∧ a.compare c = .gt := by
  decide

end MediaTime

end WebKit.Wtf
