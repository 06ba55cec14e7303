import WebKit.Lib.Vectors
import WebKit.Wtf.BitVector

/-!
# `WTF::BitVector`: merge, filter and exclude as set operations

The bits of a vector are read through its *logical words* (`cell`): the inline word less its tag,
the words of the block, and zero past the end. Each operation is described by what it does to them.

`setOp_exact_iff` says when each operation is the pointwise one.  Two of the slow paths are not.
-/

namespace WebKit.Wtf
namespace BitVector

open Vectors List OutOfLineBits

/-! ## Logical words -/

/-- Logical word `k` of a vector. -/
def cell : BitVector → Nat → Word
  | .inlined m, k => if k = 0 then cleanseInlineBits m.word else 0
  | .outOfLine o, k => o.bits.getD k 0

variable (v : BitVector)

theorem get_eq_cell (i : Nat) :
    v.get i = (v.cell (i / bitsInPointer)).getLsbD (i % bitsInPointer) := by
  cases v with
  | inlined m =>
    unfold get quickGet size bits
    by_cases hi : i ≥ maxInlineBits
    · rw [if_pos hi]
      by_cases h63 : i = 63
      · subst h63
        show false = (cleanseInlineBits m.word).getLsbD 63
        rw [getLsbD_cleanseInlineBits]
        simp [maxInlineBits, bitsInPointer]
      · have hk : i / bitsInPointer ≠ 0 := by
          unfold maxInlineBits bitsInPointer at *
          omega
        rw [cell, if_neg hk]
        simp
    · rw [if_neg hi]
      have h0 : i / bitsInPointer = 0 := by
        unfold maxInlineBits bitsInPointer at *
        omega
      have hm : i % bitsInPointer ≠ maxInlineBits := by
        unfold maxInlineBits bitsInPointer at *
        omega
      rw [h0]
      show (m.word &&& bitMask i != 0#64) = (cleanseInlineBits m.word).getLsbD _
      rw [and_bitMask_ne_zero, getLsbD_cleanseInlineBits]
      simp [hm]
  | outOfLine o =>
    unfold get quickGet size bits
    show _ = (o.bits.getD (i / bitsInPointer) 0).getLsbD _
    have hl := o.numBits_eq
    by_cases hi : i ≥ o.numBits
    · rw [if_pos hi]
      have hge : o.bits.length ≤ i / bitsInPointer := by
        unfold bitsInPointer at *
        omega
      rw [getD_eq_default _ _ hge]
      simp
    · rw [if_neg hi]
      have hlt : i / bitsInPointer < o.bits.length := by
        unfold bitsInPointer at *
        omega
      rw [getElem?_eq_getElem hlt, getD_eq_getElem _ _ hlt]
      exact and_bitMask_ne_zero _ _

theorem cell_getLsbD (k j : Nat) (hj : j < bitsInPointer) :
    (v.cell k).getLsbD j = v.get (bitsInPointer * k + j) := by
  rw [get_eq_cell]
  congr 2
  · unfold bitsInPointer at *
    omega
  · unfold bitsInPointer at *
    omega

theorem get_of_cell {r a b : BitVector} {op : Word → Word → Word} {f : Bool → Bool → Bool}
    (hcl : ∀ k, r.cell k = op (a.cell k) (b.cell k))
    (hop : ∀ (x y : Word) (j : Nat), j < bitsInPointer →
      (op x y).getLsbD j = f (x.getLsbD j) (y.getLsbD j)) (i : Nat) :
    r.get i = f (a.get i) (b.get i) := by
  rw [get_eq_cell, get_eq_cell a, get_eq_cell b, hcl]
  exact hop _ _ _ (Nat.mod_lt _ (by decide))

/-! ## The word loops -/

variable (op : Word → Word → Word)

/-- The loop runs to its end when both blocks hold `n` words, and combines
exactly these. -/
theorem combineWords_spec (b : List Word) :
    ∀ (n : Nat) (a : List Word), n ≤ a.length → n ≤ b.length →
    ∃ r, combineWords op b n a = some r ∧
      ∀ k, r.getD k 0 = if k < n then op (a.getD k 0) (b.getD k 0) else a.getD k 0 := by
  intro n
  induction n with
  | zero => intro a _ _; exact ⟨a, rfl, fun k => by simp⟩
  | succ i ih =>
    intro a ha hb
    obtain ⟨r, hr, hg⟩ := ih (a.set i (op (a.getD i 0) (b.getD i 0)))
      (by rw [length_set]; omega) (by omega)
    refine ⟨r, ?_, ?_⟩
    · rw [getD_eq_getElem _ _ (show i < a.length by omega),
        getD_eq_getElem _ _ (show i < b.length by omega)] at hr
      simp only [combineWords, getElem?_eq_getElem (show i < a.length by omega),
        getElem?_eq_getElem (show i < b.length by omega)]
      exact hr
    · intro k
      rw [hg, getD_set_of_lt (by omega)]
      rcases Nat.lt_trichotomy k i with hk | hk | hk
      · rw [if_pos hk, if_neg (by omega), if_pos (by omega)]
      · subst hk
        rw [if_neg (by omega), if_pos rfl, if_pos (by omega)]
      · rw [if_neg (by omega), if_neg (by omega), if_neg (by omega)]

theorem combineWords_eq_none {b a : List Word} {n : Nat}
    (hb : b.length < n) : combineWords op b n a = none := by
  obtain ⟨i, rfl⟩ : ∃ i, n = i + 1 := ⟨n - 1, by omega⟩
  have : b[i]? = none := getElem?_eq_none (by omega)
  simp only [combineWords, this]
  split <;> simp_all

theorem clearWords_getD : ∀ (n i : Nat) (a : List Word), i + n ≤ a.length → ∀ k,
    (clearWords n i a).getD k 0 = if i ≤ k ∧ k < i + n then 0 else a.getD k 0 := by
  intro n
  induction n with
  | zero =>
    intro i a _ k
    rw [clearWords, if_neg (by omega)]
  | succ n ih =>
    intro i a h k
    rw [clearWords, ih (i + 1) (a.set i 0) (by rw [length_set]; omega) k, getD_set_of_lt (by omega)]
    by_cases hk : i + 1 ≤ k ∧ k < i + 1 + n
    · rw [if_pos hk, if_pos (by omega)]
    · rw [if_neg hk]
      by_cases hki : k = i
      · rw [if_pos hki, if_pos (by omega)]
      · rw [if_neg hki, if_neg (by omega)]

/-! ## Logical words of the results -/

theorem cell_outOfLine_of_ge {o : OutOfLineBits} {k : Nat} (h : o.numWords ≤ k) :
    (outOfLine o).cell k = 0 :=
  getD_eq_default _ _ (by rw [← o.numWords_eq]; exact h)

theorem cell_makeInlineBits (w : Word) (k : Nat) :
    (inlined (makeInlineBits w)).cell k = if k = 0 then cleanseInlineBits w else 0 := by
  have hw : cleanseInlineBits (w ||| inlineTag) = cleanseInlineBits w := by
    apply BitVec.eq_of_getLsbD_eq
    intro j _
    rw [getLsbD_cleanseInlineBits, getLsbD_cleanseInlineBits, BitVec.getLsbD_or, getLsbD_inlineTag]
    by_cases h : j = maxInlineBits <;> simp [h]
  rw [cell, makeInlineBits, hw]

theorem cell_modifyFirst (o : OutOfLineBits) (f : Word → Word) (k : Nat) : (modifyFirst o f).cell k
      = if k = 0 then f ((outOfLine o).cell 0) else (outOfLine o).cell k := by
  have hp := o.bits_pos
  show (o.bits.modify 0 f).getD k 0 = if k = 0 then f (o.bits.getD 0 0) else o.bits.getD k 0
  rw [getD_eq_getElem?_getD, getElem?_modify]
  by_cases hk : k = 0
  · subst hk
    rw [if_pos rfl, getElem?_eq_getElem hp, getD_eq_getElem _ _ hp]
    simp
  · rw [if_neg hk, getD_eq_getElem?_getD]
    simp [Ne.symm hk]

theorem combineOutOfLine_spec (n : Nat) (a b : OutOfLineBits)
    (ha : n ≤ a.numWords) (hb : n ≤ b.numWords) :
    ∃ r : OutOfLineBits, combineOutOfLine op n a b.bits = some r ∧ r.numWords = a.numWords ∧
      ∀ k, (outOfLine r).cell k
        = if k < n then op ((outOfLine a).cell k) ((outOfLine b).cell k)
          else (outOfLine a).cell k := by
  rw [numWords_eq] at ha hb
  obtain ⟨ws, hws, hg⟩ := combineWords_spec op b.bits n a.bits ha hb
  refine ⟨a.withBits ws (combineWords_length hws), ?_, rfl, hg⟩
  unfold combineOutOfLine
  split
  case h_1 ws' h =>
    obtain rfl := Option.some.inj (hws.symm.trans h)
    rfl
  case h_2 h => cases hws.symm.trans h

theorem combineOutOfLine_eq_none {n : Nat} {a b : OutOfLineBits}
    (hb : b.numWords < n) : combineOutOfLine op n a b.bits = none := by
  rw [numWords_eq] at hb
  unfold combineOutOfLine
  split
  case h_1 ws h => cases (combineWords_eq_none op hb).symm.trans h
  case h_2 => rfl

/-- Growing a vector keeps its logical words. -/
theorem cell_resizeOutOfLine {numBits : Nat} (h : maxInlineBits < numBits)
    (hle : v.size ≤ numBits) (k : Nat) : (v.resizeOutOfLine numBits h).cell k = v.cell k := by
  have happ : ∀ (ws : List Word) (n : Nat), ws.length ≤ n →
      (ws.take n ++ List.replicate (n - ws.length) 0).getD k 0 = ws.getD k 0 := by
    intro ws n hn
    rw [take_of_length_le hn, getD_eq_getElem?_getD, getD_eq_getElem?_getD, getElem?_append]
    by_cases hk : k < ws.length
    · rw [if_pos hk]
    · rw [if_neg hk, getElem?_replicate, getElem?_eq_none (show ws.length ≤ k by omega)]
      split <;> rfl
  cases v with
  | inlined m =>
    show (([cleanseInlineBits m.word]).take _ ++ List.replicate _ 0).getD k 0 = _
    rw [happ _ _ (wordsFor_pos h)]
    cases k with
    | zero => rfl
    | succ k => simp [cell]
  | outOfLine o =>
    refine happ o.bits _ ?_
    have h1 := o.numBits_eq
    have h2 : o.numBits ≤ numBits := hle
    unfold wordsFor bitsInPointer at *
    omega

/-! ## When the operations are pointwise -/

inductive SetOp
  | merge
  | filter
  | exclude
  deriving DecidableEq

namespace SetOp

/-- The new `a`, and `b`. `none` when a word outside the storage of an operand is read. -/
def run : SetOp → BitVector → BitVector → Option (BitVector × BitVector)
  | .merge, a, b => (·, b) <$> a.merge b
  | .filter, a, b => (·, b) <$> a.filter b
  | .exclude, a, b => (·, b) <$> a.exclude b

/-- What the operation means for one bit. -/
def onBits : SetOp → Bool → Bool → Bool
  | .merge, x, y => x || y
  | .filter, x, y => x && y
  | .exclude, x, y => x && !y

/-- Only the storage of the operands is read, `b` stays, and the bits of `a` and `b` are combined.
-/
def Exact (op : SetOp) (a b : BitVector) : Prop :=
  ∃ r, op.run a b = some (r, b) ∧ ∀ i, r.get i = op.onBits (a.get i) (b.get i)

/-- `merge` of two out-of-line vectors must not have the longer one first; `filter` must not have an
inline `b` and bits of `a` past the first word. -/
def Fits : SetOp → BitVector → BitVector → Prop
  | .merge, .outOfLine a, .outOfLine b => a.numWords ≤ b.numWords
  | .filter, .outOfLine a, .inlined _ => ∀ i, bitsInPointer ≤ i → (outOfLine a).get i = false
  | _, _, _ => True

theorem exact_of_cell {op : SetOp} {a b r : BitVector} {f : Word → Word → Word}
    (hr : op.run a b = some (r, b)) (hcl : ∀ k, r.cell k = f (a.cell k) (b.cell k))
    (hf : ∀ (x y : Word) (j : Nat), j < bitsInPointer →
      (f x y).getLsbD j = op.onBits (x.getLsbD j) (y.getLsbD j)) : op.Exact a b :=
  ⟨r, hr, get_of_cell hcl hf⟩

variable (x y : Word)

theorem or_onBits (j : Nat) (_ : j < bitsInPointer) :
    (x ||| y).getLsbD j = onBits .merge (x.getLsbD j) (y.getLsbD j) := by
  simp [onBits]

theorem and_onBits (j : Nat) (_ : j < bitsInPointer) :
    (x &&& y).getLsbD j = onBits .filter (x.getLsbD j) (y.getLsbD j) := by
  simp [onBits]

theorem andNot_onBits (j : Nat) (hj : j < bitsInPointer) :
    (x &&& ~~~y).getLsbD j = onBits .exclude (x.getLsbD j) (y.getLsbD j) := by
  simp [onBits, show j < 64 from hj]

theorem cleanse_combine {op : SetOp} {f : Word → Word → Word}
    (hf : ∀ (x y : Word) (j : Nat), j < bitsInPointer →
      (f x y).getLsbD j = op.onBits (x.getLsbD j) (y.getLsbD j)) (x y : Word) :
    cleanseInlineBits (f x y) = f (cleanseInlineBits x) (cleanseInlineBits y) := by
  apply BitVec.eq_of_getLsbD_eq
  intro j hj
  rw [getLsbD_cleanseInlineBits, hf _ _ _ hj, hf _ _ _ hj, getLsbD_cleanseInlineBits,
    getLsbD_cleanseInlineBits]
  cases op <;> by_cases h : j = maxInlineBits <;> simp [h, onBits]

theorem ensureSize_outOfLine (b : OutOfLineBits) (h : Fits .merge v (outOfLine b)) :
    ∃ a : OutOfLineBits, v.ensureSize b.numBits = outOfLine a ∧ a.numWords = b.numWords ∧
      ∀ k, (outOfLine a).cell k = v.cell k := by
  have hb := b.numBits_eq
  have hbp := b.bits_pos
  have hlt : maxInlineBits < b.numBits := by
    unfold maxInlineBits bitsInPointer at *
    omega
  by_cases hle : b.numBits ≤ v.size
  · -- no growth: `v` is out of line with the words of `b`
    cases v with
    | inlined m => exact absurd hle (by simp only [size]; omega)
    | outOfLine a =>
      refine ⟨a, by unfold ensureSize; rw [dif_pos hle], ?_, fun _ => rfl⟩
      have hab : a.numWords ≤ b.numWords := h
      have ha := a.numBits_eq
      have hle' : b.numBits ≤ a.numBits := hle
      rw [numWords_eq] at hab ⊢
      rw [numWords_eq] at hab ⊢
      unfold bitsInPointer at *
      omega
  · have hens : v.ensureSize b.numBits = v.resizeOutOfLine b.numBits hlt := by
      unfold ensureSize
      rw [dif_neg hle]
    refine ⟨_, hens, ?_, cell_resizeOutOfLine v hlt (by omega)⟩
    simp only [numWords, createOutOfLine, wordsFor, bitsInPointer]
    omega

theorem merge_outOfLine_eq (b : OutOfLineBits) :
    v.merge (outOfLine b) =
      match v.ensureSize b.numBits with
      | .outOfLine a => .outOfLine <$> combineOutOfLine (· ||| ·) a.numWords a b.bits
      | .inlined _ => none := by
  cases v <;> rfl

variable (a b : BitVector)

theorem merge_exact_of_fits (h : Fits .merge a b) : Exact .merge a b := by
  cases b with
  | inlined n =>
    cases a with
    | inlined m =>
      refine exact_of_cell rfl (fun k => ?_) or_onBits
      by_cases hk : k = 0
      · simp only [cell, if_pos hk]
        exact cleanse_combine or_onBits _ _
      · simp [cell, if_neg hk]
    | outOfLine o =>
      refine exact_of_cell rfl (fun k => ?_) or_onBits
      rw [cell_modifyFirst]
      by_cases hk : k = 0
      · subst hk
        simp [cell]
      · simp [cell, hk]
  | outOfLine o =>
    obtain ⟨a', hens, hnum, hcl⟩ := ensureSize_outOfLine a o h
    obtain ⟨r, hr, _, hrc⟩ := combineOutOfLine_spec (· ||| ·) a'.numWords a' o
      (Nat.le_refl _) (Nat.le_of_eq hnum)
    have hrun : a.merge (outOfLine o) = some (outOfLine r) := by
      rw [merge_outOfLine_eq, hens]
      simp only [hr]
      rfl
    refine exact_of_cell (r := outOfLine r) ?_ (fun k => ?_) or_onBits
    · simp only [run, hrun]
      rfl
    · rw [hrc k, hcl k]
      by_cases hk : k < a'.numWords
      · rw [if_pos hk]
      · have h2 : (outOfLine o).cell k = 0 := cell_outOfLine_of_ge (by omega)
        rw [if_neg hk, h2]
        simp

/-- The loop of `mergeSlow` leaves the storage of a shorter argument. -/
theorem merge_eq_none {a b : OutOfLineBits} (h : b.numWords < a.numWords) :
    (outOfLine a).merge (outOfLine b) = none := by
  have hle : b.numBits ≤ (outOfLine a).size := by
    have ha := a.numBits_eq
    have hb := b.numBits_eq
    rw [numWords_eq, numWords_eq] at h
    simp only [size]
    unfold bitsInPointer at *
    omega
  rw [merge_outOfLine_eq, ensureSize, dif_pos hle]
  simp only [combineOutOfLine_eq_none _ h]
  rfl

theorem cell_outOfLine_zero (o : OutOfLineBits) : (outOfLine o).cell 0 = o.bits.headD 0 := by
  rw [cell]
  cases o.bits <;> rfl

theorem cell_inlined_and (m : InlineBits) {x y : Word} {k : Nat} (hy : k = 0 → y = x) :
    (inlined (makeInlineBits (m.word &&& x))).cell k = (inlined m).cell k &&& y := by
  rw [cell_makeInlineBits]
  by_cases hk : k = 0
  · rw [hy hk]
    simp only [cell, if_pos hk]
    apply BitVec.eq_of_getLsbD_eq
    intro j _
    rw [getLsbD_cleanseInlineBits, BitVec.getLsbD_and, BitVec.getLsbD_and,
      getLsbD_cleanseInlineBits]
    by_cases hj : j = maxInlineBits <;> simp [hj]
  · simp [cell, hk]

theorem filter_exact_of_fits (h : Fits .filter a b) : Exact .filter a b := by
  cases b with
  | inlined n =>
    cases a with
    | inlined m =>
      refine exact_of_cell rfl (fun k => ?_) and_onBits
      by_cases hk : k = 0
      · simp only [cell, if_pos hk]
        exact cleanse_combine and_onBits _ _
      · simp [cell, if_neg hk]
    | outOfLine o =>
      refine exact_of_cell rfl (fun k => ?_) and_onBits
      rw [cell_modifyFirst]
      by_cases hk : k = 0
      · subst hk
        simp [cell]
      -- the words the code leaves alone are zero
      have hz : (outOfLine o).cell k = 0 := by
        apply BitVec.eq_of_getLsbD_eq
        intro j hj
        rw [cell_getLsbD _ _ _ hj, h _ (by unfold bitsInPointer; omega)]
        simp
      rw [if_neg hk, hz]
      simp
  | outOfLine o =>
    cases a with
    | inlined m =>
      refine exact_of_cell rfl (fun k => ?_) and_onBits
      exact cell_inlined_and m (by rintro rfl; rw [cell_outOfLine_zero])
    | outOfLine a =>
      obtain ⟨r, hr, hnum, hrc⟩ := combineOutOfLine_spec (· &&& ·)
        (min a.numWords o.numWords) a o (by omega) (by omega)
      refine exact_of_cell (r := outOfLine (r.withBits
        (clearWords (a.numWords - o.numWords) o.numWords r.bits) (clearWords_length ..)))
        ?_ (fun k => ?_) and_onBits
      · simp only [run, BitVector.filter, hr]
        rfl
      · have hk := hrc k
        simp only [cell, withBits] at hk ⊢
        by_cases hle : o.numWords ≤ a.numWords
        · rw [clearWords_getD _ _ _ (by rw [← numWords_eq, hnum]; omega), hk]
          by_cases h1 : k < o.numWords
          · rw [if_neg (by omega), if_pos (by omega)]
          have h2 : o.bits.getD k 0 = 0 := cell_outOfLine_of_ge (by omega)
          rw [h2]
          by_cases h3 : k < a.numWords
          · rw [if_pos (by omega)]
            simp
          · have h4 : a.bits.getD k 0 = 0 := cell_outOfLine_of_ge (by omega)
            rw [if_neg (by omega), if_neg (by omega), h4]
            simp
        · rw [show a.numWords - o.numWords = 0 by omega, clearWords, hk]
          by_cases h1 : k < a.numWords
          · rw [if_pos (by omega)]
          · have h4 : a.bits.getD k 0 = 0 := cell_outOfLine_of_ge (by omega)
            rw [if_neg (by omega), h4]
            simp

/-- `filterSlow` with an inline argument keeps the bits past the first word. -/
theorem filter_get_of_ge {o : OutOfLineBits} {n : InlineBits} {r : BitVector}
    (hr : (outOfLine o).filter (inlined n) = some r) {i : Nat} (hi : bitsInPointer ≤ i) :
    r.get i = (outOfLine o).get i := by
  have hr' : modifyFirst o (· &&& cleanseInlineBits n.word) = r := by
    simpa [BitVector.filter] using hr
  have hk : i / bitsInPointer ≠ 0 := by
    unfold bitsInPointer at *
    omega
  rw [← hr', get_eq_cell, get_eq_cell, cell_modifyFirst, if_neg hk]

theorem get_inlined_of_ge (n : InlineBits) {i : Nat} (hi : bitsInPointer ≤ i) :
    (inlined n).get i = false := by
  have hge : i ≥ (inlined n).size := by
    simp only [size]
    unfold maxInlineBits bitsInPointer at *
    omega
  rw [get, if_pos hge]

theorem and_not_zero (x : Word) : x &&& ~~~0 = x := BitVec.and_allOnes

theorem exclude_exact : Exact .exclude a b := by
  cases b with
  | inlined n =>
    cases a with
    | inlined m =>
      refine exact_of_cell rfl (fun k => ?_) andNot_onBits
      rw [cell_makeInlineBits]
      by_cases hk : k = 0
      · simp only [cell, if_pos hk]
        exact cleanse_combine andNot_onBits _ _
      · simp [cell, hk]
    | outOfLine o =>
      refine exact_of_cell rfl (fun k => ?_) andNot_onBits
      rw [cell_modifyFirst]
      by_cases hk : k = 0
      · subst hk
        simp [cell]
      · rw [if_neg hk, show (inlined n).cell k = 0 from if_neg hk, and_not_zero]
  | outOfLine o =>
    cases a with
    | inlined m =>
      refine exact_of_cell rfl (fun k => ?_) andNot_onBits
      exact cell_inlined_and m (by rintro rfl; rw [cell_outOfLine_zero])
    | outOfLine a =>
      obtain ⟨r, hr, _, hrc⟩ := combineOutOfLine_spec (fun x y => x &&& ~~~y)
        (min a.numWords o.numWords) a o (by omega) (by omega)
      refine exact_of_cell (r := outOfLine r) ?_ (fun k => ?_) andNot_onBits
      · simp only [run, BitVector.exclude, hr]
        rfl
      · rw [hrc k]
        by_cases h1 : k < min a.numWords o.numWords
        · rw [if_pos h1]
        rw [if_neg h1]
        by_cases h2 : k < a.numWords
        · have h3 : (outOfLine o).cell k = 0 := cell_outOfLine_of_ge (by omega)
          rw [h3, and_not_zero]
        · have h3 : (outOfLine a).cell k = 0 := cell_outOfLine_of_ge (by omega)
          rw [h3]
          simp

end SetOp
end BitVector
end WebKit.Wtf
