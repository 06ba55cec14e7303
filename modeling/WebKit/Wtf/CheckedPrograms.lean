import WebKit.Wtf.CheckedArithmetic
import WebKit.Lib.Runs

/-!
# Programs over `Checked`

A program's variables are `Checked` integers of any types. Next to each stands its exact value, as
long as no operation that contributed to it had a result outside of its type.
-/

namespace WebKit.Wtf.Checked

open MachineInt Val IntType ArithmeticOperations

/-! ## Programs -/

/-- A variable, or a plain integer. -/
inductive Operand
  | register (i : Nat)
  | plain (v : Val)

inductive Instruction
  /-- `Checked<T> target(x)`. -/
  | construct (target : Nat) (type : IntType) (x : Operand)
  /-- `target = x + y` and so on. -/
  | binary (op : Operation) (target : Nat) (x y : Operand)
  /-- `target += x` and so on. -/
  | compound (op : Operation) (target : Nat) (x : Operand)
  /-- `++target` or `--target`. -/
  | bump (up : Bool) (target : Nat)
  /-- `target = source++` or `target = source--`. -/
  | bumpAfter (up : Bool) (target source : Nat)

structure Variables where
  checked : Nat → Checked
  /-- The exact value, unless a contributing operation had a result outside of its type. -/
  exact : Nat → Option Int

/-- The value, if the type has it. -/
def fit (t : IntType) (x : Int) : Option Int := if t.Holds x then some x else none

namespace Operand

def Allowed : Operand → Prop
  | .register _ => True
  | .plain v => v.Valid

instance : DecidablePred Allowed
  | .register _ => inferInstanceAs (Decidable True)
  | .plain _ => inferInstanceAs (Decidable (IntType.Holds ..))

def checked (s : Variables) : Operand → Checked
  | .register i => s.checked i
  | .plain v => ofVal v.type v

def exact (s : Variables) : Operand → Option Int
  | .register i => s.exact i
  | .plain v => some v.value

end Operand

namespace Variables

def initial : Variables := ⟨fun _ => { type := int }, fun _ => some 0⟩

variable (s : Variables)

def set (i : Nat) (x : Checked) (exact : Option Int) : Variables :=
  ⟨Function.update s.checked i x, Function.update s.exact i exact⟩

def exactResult (t : IntType) (op : Operation) (x y : Option Int) : Option Int :=
  x.bind fun a => y.bind fun b => fit t (op.exact a b)

/-- `++` or `--` on a variable. -/
def bumped (up : Bool) (i : Nat) : Variables :=
  s.set i (if up then (s.checked i).increment else (s.checked i).decrement)
    ((s.exact i).bind fun a => fit (s.checked i).type (if up then a + 1 else a - 1))

open Checked

/-- An instruction is enabled if the program with it compiles. -/
def step : Instruction → Option Variables
  | .construct target type x =>
    if x.Allowed ∧ Supported (x.checked s).type type then
      some (s.set target
        (match x with
          | .register i => ofChecked type (s.checked i)
          | .plain v => ofVal type v)
        ((x.exact s).bind (fit type)))
    else none
  | .binary op target x y =>
    let t := resultType (x.checked s).type (y.checked s).type
    if x.Allowed ∧ y.Allowed ∧ Supported (x.checked s).type (y.checked s).type then
      some (s.set target (binary op (x.checked s) (y.checked s))
        (exactResult t op (x.exact s) (y.exact s)))
    else none
  | .compound op target x =>
    let t := (s.checked target).type
    if x.Allowed ∧ Supported t (x.checked s).type then
      some (s.set target (compound op (s.checked target) (x.checked s))
        (exactResult t op (s.exact target) (x.exact s)))
    else none
  | .bump up i => some (s.bumped up i)
  | .bumpAfter up target i =>
    some ((s.bumped up i).set target (ofVal (s.checked i).type (s.checked i).val) (s.exact i))

/-- The overflow is recorded, or the value is exact. -/
def Records (x : Checked) : Option Int → Prop
  | none => x.overflowed = true
  | some a => x.overflowed = false ∧ x.value = a

instance (x : Checked) : DecidablePred (Records x)
  | none => inferInstanceAs (Decidable (_ = _))
  | some _ => inferInstanceAs (Decidable (_ ∧ _))

def Faithful : Prop := ∀ i, Records (s.checked i) (s.exact i)

/-- The instructions whose result is faithful. -/
def Meets : Instruction → Prop
  | .binary op _ x y =>
    (x.checked s).overflowed = false → (y.checked s).overflowed = false →
      Reliable (x.checked s).val (y.checked s).val
        (resultType (x.checked s).type (y.checked s).type) op
  | .compound op target x =>
    (s.checked target).overflowed = false → (x.checked s).overflowed = false →
      Reliable (s.checked target).val (x.checked s).val (s.checked target).type op
  | .bumpAfter _ _ i => (s.checked i).overflowed = false
  | .construct .. | .bump .. => True

end Variables

/-! ## Exactness -/

open Variables (Records exactResult)

variable {t : IntType} {v : Val} {x y : Checked} {e f : Option Int} {op : Operation}

theorem not_less {a b : Val} (h : Meet a b) : (!less a b) = true ↔ b.value ≤ a.value := by
  rw [Bool.not_eq_true', ← Bool.not_eq_true, less_iff h, Int.not_lt]

theorem isInBounds_iff (hv : v.Valid) (hs : Supported v.type t) :
    isInBounds t v = true ↔ t.Holds v.value := by
  have hv' := hv
  by_cases hsg : v.type.signed = t.signed
  · have hlow := not_less (meet_of_signed hv (valid_minimum t) hsg)
    have hupp := not_less (meet_of_signed (valid_maximum t) hv hsg.symm)
    rw [isInBounds, hsg]
    by_cases hbt : v.type.width.bits ≤ t.width.bits
    · -- the type has all values of the other one
      have hwd : v.type.half ≤ t.half := pow_le_pow_right₀ (by decide) (by omega)
      cases hts : t.signed <;>
        simp only [hbt, Val.Valid, Holds, IntType.min, IntType.max, hsg, hts, decide_true,
          if_true, if_false, Bool.false_eq_true, true_iff] at hv' ⊢ <;> omega
    · cases hts : t.signed
      · simp only [hbt, decide_false, hupp]
        simp only [Val.Valid, Holds, IntType.min, hsg, hts, if_false, Bool.false_eq_true] at hv' ⊢
        exact ⟨fun h => ⟨hv'.1, h⟩, And.right⟩
      · simp only [hbt, decide_false, Bool.and_eq_true, hlow, hupp]
        rfl
  · -- an `int` and an `unsigned`
    obtain ⟨hvw, htw⟩ := hs.resolve_left hsg
    obtain ⟨_ | _, _⟩ := t <;> obtain ⟨⟨_ | _, _⟩, x⟩ := v <;> cases hvw <;> cases htw
    · exact absurd rfl hsg
    · exact decide_eq_true_iff.trans
        ⟨fun h => ⟨h, Int.le_trans hv'.2 (show int.max ≤ unsigned.max by decide)⟩, And.left⟩
    · have hls := not_less (meet_of_signed (a := staticCast ⟨false, .w32⟩ (maximum int))
        (valid_staticCast ..) hv rfl)
      exact hls.trans
        ⟨fun h => ⟨Int.le_trans (show int.min ≤ unsigned.min by decide) hv'.1, h⟩, And.right⟩
    · exact absurd rfl hsg

theorem records_ofChecked (hx : x.val.Valid) (hs : Supported x.type t)
    (h : Records x e) : Records (ofChecked t x) (e.bind (fit t)) := by
  have hbn := isInBounds_iff hx hs
  cases e with
  | none => simp_all [Records, ofChecked]
  | some a =>
    by_cases hft : t.Holds x.value
    · simp_all [Records, ofChecked, ofVal, fit, val, convert_of_holds]
    · simp_all [Records, ofChecked, ofVal, fit, val]

theorem records_ofVal (hv : v.Valid) (hs : Supported v.type t) :
    Records (ofVal t v) (fit t v.value) :=
  records_ofChecked (x := ⟨v.type, v.value, false⟩) (e := some v.value) hv hs ⟨rfl, rfl⟩

theorem records_safe (hx : x.val.Valid) (hy : y.val.Valid) (hs : Supported x.type y.type)
    (ht : t = x.type ∨ t = resultType x.type y.type) (hxe : Records x e)
    (hyf : Records y f) {r : Checked}
    (hr : r.overflowed = (x.overflowed || y.overflowed || (safe op x.val y.val t).isNone))
    (hv : x.overflowed = false → y.overflowed = false → ∀ w, safe op x.val y.val t = some w →
      r.value = w.value) :
    Records r (exactResult t op e f) ↔
      (x.overflowed = false → y.overflowed = false → Reliable x.val y.val t op) := by
  cases e with
  | none => simp_all [Records, exactResult]
  | some a =>
    cases f with
    | none => simp_all [Records, exactResult]
    | some b =>
      have hexa := @safe_iff _ _ _ op hx hy hs ht
      by_cases hft : t.Holds (op.exact x.value y.value) <;>
        cases hsf : safe op x.val y.val t <;>
        simp_all [Records, exactResult, fit, Exact, val]

theorem records_bump {limit change : Int} (h : Records x e)
    (hlim : x.value = limit ↔ ¬x.type.Holds (x.value + change)) :
    Records (x.bump limit change) (e.bind fun a => fit x.type (a + change)) := by
  cases e with
  | none => simp_all [Records, bump]
  | some a =>
    obtain ⟨hfl, rfl⟩ := h
    by_cases hft : x.type.Holds (x.value + change)
    · have hne : x.value ≠ limit := by simpa [hft] using hlim
      simp [Records, bump, fit, hfl, hft, hne, convert_of_holds hft]
    · have hfd : decide (x.value = limit) = true := decide_eq_true (hlim.mpr hft)
      simp [Records, bump, fit, hft, hfd]

namespace Variables

variable {s s' : Variables} {i : Nat}

/-- Each variable has a value of its type. -/
def Inv (s : Variables) : Prop := ∀ i, (s.checked i).val.Valid

theorem inv_set (h : s.Inv) (hx : x.val.Valid) : (s.set i x e).Inv := by
  intro j
  by_cases hj : j = i
  · simpa [set, hj] using hx
  · simpa [set, hj] using h j

theorem faithful_set (h : s.Faithful) : (s.set i x e).Faithful ↔ Records x e := by
  constructor
  · intro ha
    simpa [set] using ha i
  · intro hx j
    by_cases hj : j = i
    · simpa [set, hj] using hx
    · simpa [set, hj] using h j

theorem valid_ofVal (t : IntType) (v : Val) : (ofVal t v).val.Valid := holds_convert ..

theorem operand_valid {x : Operand} (h : s.Inv) : (x.checked s).val.Valid := by
  cases x with
  | register i => exact h i
  | plain v => exact valid_ofVal ..

theorem operand_records {x : Operand} (h : s.Faithful) (hx : x.Allowed) :
    Records (x.checked s) (x.exact s) := by
  cases x with
  | register i => exact h i
  | plain v =>
    have hr := records_ofVal (t := v.type) hx (.inl rfl)
    rwa [fit, if_pos (show v.type.Holds v.value from hx)] at hr

theorem safe_cast {a b v : Val} (h : safe op a b t = some v) : v.type = t ∧ v.Valid := by
  simp only [safe] at h
  split_ifs at h <;> cases h <;> exact ⟨rfl, valid_staticCast ..⟩

theorem valid_binary : (binary op x y).val.Valid := by
  have hz : ∀ t : IntType, t.Holds 0 := by
    rintro ⟨_ | _, _ | _ | _ | _⟩ <;> decide
  unfold binary
  split
  · exact hz _
  · split_ifs
    · exact hz _
    · exact valid_ofVal ..

theorem records_cast {a b : Val} (h : safe op a b t = some v) :
    Records (ofVal t v) (some v.value) := by
  obtain ⟨rfl, hvld⟩ := safe_cast h
  have hr := records_ofVal (t := v.type) hvld (.inl rfl)
  rwa [fit, if_pos (show v.type.Holds v.value from hvld)] at hr

theorem overflowed_binary : (binary op x y).overflowed = (x.overflowed || y.overflowed ||
    (safe op x.val y.val (resultType x.type y.type)).isNone) := by
  unfold binary
  split
  case h_1 hsf => simp [hsf]
  case h_2 v hsf =>
    split_ifs with hfgs
    · simp [hfgs]
    · simp [hsf, hfgs, (records_cast hsf).1]

theorem value_binary (hx : x.overflowed = false) (hy : y.overflowed = false) (w : Val)
    (h : safe op x.val y.val (resultType x.type y.type) = some w) :
    (binary op x y).value = w.value := by
  simpa [binary, h, hx, hy] using (records_cast h).2

theorem valid_compound (hx : x.val.Valid) : (compound op x y).val.Valid := by
  unfold compound
  split
  case h_1 => exact hx
  case h_2 v hv =>
    obtain ⟨hty, hvld⟩ := safe_cast hv
    exact hty ▸ hvld

theorem inv_bumped {up : Bool} (h : s.Inv) : (s.bumped up i).Inv := by
  refine inv_set h ?_
  cases up <;> exact holds_convert ..

theorem faithful_bumped {up : Bool} (h : s.Inv) (hf : s.Faithful) : (s.bumped up i).Faithful := by
  refine (faithful_set hf).mpr ?_
  have hi : (s.checked i).type.min ≤ (s.checked i).value ∧
      (s.checked i).value ≤ (s.checked i).type.max := h i
  cases up with
  | true => exact records_bump (hf i) (by rw [Holds]; omega)
  | false => exact records_bump (hf i) (by rw [Holds]; omega)

theorem step_spec {e : Instruction} (h : s.Inv) (hf : s.Faithful) (hst : s.step e = some s') :
    s'.Inv ∧ (s'.Faithful ↔ s.Meets e) := by
  cases e with
  | construct tgt type x =>
    simp only [step] at hst
    split_ifs at hst with hx
    cases hst
    rw [faithful_set hf]
    cases x with
    | register i =>
      exact ⟨inv_set h (valid_ofVal ..), iff_of_true (records_ofChecked (h i) hx.2 (hf i)) trivial⟩
    | plain v =>
      exact ⟨inv_set h (valid_ofVal ..), iff_of_true (records_ofVal hx.1 hx.2) trivial⟩
  | binary op tgt x y =>
    simp only [step] at hst
    split_ifs at hst with hxy
    cases hst
    refine ⟨inv_set h valid_binary, (faithful_set hf).trans ?_⟩
    have hv := operand_valid (x := x) h
    have hw := operand_valid (x := y) h
    refine records_safe hv hw hxy.2.2 (.inr rfl) (operand_records hf hxy.1)
      (operand_records hf hxy.2.1) ?_ ?_
    · exact overflowed_binary
    · exact value_binary
  | compound op tgt x =>
    simp only [step] at hst
    split_ifs at hst with hx
    cases hst
    refine ⟨inv_set h (valid_compound (h tgt)), (faithful_set hf).trans ?_⟩
    refine records_safe (h tgt) (operand_valid h) hx.2 (.inl rfl) (hf tgt)
      (operand_records hf hx.1) ?_ ?_
    · unfold compound
      split <;> simp_all
    · intro _ _ w hw
      simp [compound, hw]
  | bump up i =>
    cases hst
    exact ⟨inv_bumped h, iff_of_true (faithful_bumped h hf) trivial⟩
  | bumpAfter up tgt i =>
    cases hst
    refine ⟨inv_set (inv_bumped h) (valid_ofVal ..), (faithful_set (faithful_bumped h hf)).trans ?_⟩
    have hr := records_ofVal (t := (s.checked i).type) (h i) (.inl rfl)
    rw [fit, if_pos (show (s.checked i).type.Holds (s.checked i).val.value from h i)] at hr
    have hi := hf i
    cases he : s.exact i with
    | none => simp_all [Records, Meets]
    | some a => simp_all [Records, Meets, val]

/-- **`Checked` arithmetic.** In every run, each variable has recorded an overflow exactly if an
operation that contributed to it had one, and has its exact value otherwise, if and only if each
instruction of the run meets its condition. -/
theorem faithful_iff_meets (instructions : List Instruction) :
    Runs.AllStates step Faithful initial instructions ↔
      Runs.AllSteps step Meets initial instructions :=
  Runs.allStates_iff_allSteps_of (fun _ _ _ h hf hstep => (step_spec h hf hstep).1)
    (fun _ _ _ h hf hstep => (step_spec h hf hstep).2)
    (fun _ => show int.Holds 0 by decide) (fun _ => ⟨rfl, rfl⟩)

/-- `int` has `-1 - 2147483647`, and an overflow is recorded. -/
theorem not_faithful : ¬Runs.AllStates step Faithful initial [.construct 0 int (.plain ⟨int, -1⟩),
      .binary .sub 1 (.register 0) (.plain ⟨int, 2147483647⟩)] := by
  intro h
  have hlast := h.last rfl 1
  revert hlast
  decide +kernel

end Variables

end WebKit.Wtf.Checked
