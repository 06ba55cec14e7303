import Mathlib.Data.Finset.Dedup
import Mathlib.Data.Finset.Order
import WebKit.Graphics.Region

/-!
# The scanline operation computes the pointwise operation

* One row: where no difference overflows, `mergeSegments` is `mergeEdges`, which gives a canonical
  edge list that covers a point exactly when the operation holds of the two coverages. The two bits
  of `flag` are the parities of the edges passed.
* All rows: the value of `combine`, the scanline on lists of rows, at `y` is the merge of the two
  values at `y`.
* The vectors: `spanLoop` on shapes is `combine` on their rows, since a valid shape is the encoding
  `ofRows` of its rows.
-/

namespace WebKit.Graphics.Shape

open Scanline List Operation MachineInt

open MachineInt.IntType (int)

/-- What an operation means for one point. -/
def Operation.holds : Operation → Bool → Bool → Bool
  | .union, a, b => a || b
  | .intersect, a, b => a && b
  | .subtract, a, b => a && !b

theorem eq_nil_or_eq_nil {α : Type} {s1 s2 : List α}
    (h : ∀ e1 t1 e2 t2, s1 = e1 :: t1 → s2 = e2 :: t2 → False) : s1 = [] ∨ s2 = [] := by
  rcases s1 with _ | ⟨e1, t1⟩
  · exact .inl rfl
  · rcases s2 with _ | ⟨e2, t2⟩
    · exact .inr rfl
    · exact (h e1 t1 e2 t2 rfl rfl).elim

/-! ## Coordinates -/

theorem convert_eq (x : Int) : int.convert x = (x + 2147483648) % 4294967296 - 2147483648 := by
  have hmin : int.min = -2147483648 := by decide
  have hhalf : 2 * int.half = 4294967296 := by decide
  rw [IntType.convert, hmin, hhalf]
  omega

/-- The coordinates from `o` on whose differences fit an `int`. -/
def Near (o e : Int) : Prop := intMin ≤ o ∧ o ≤ e ∧ e ≤ intMax ∧ e - o ≤ intMax

instance (o e : Int) : Decidable (Near o e) := inferInstanceAs (Decidable (_ ∧ _))

theorem convert_sub {o e f : Int} (he : Near o e) (hf : Near o f) :
    int.convert (e - f) = e - f := by
  unfold Near intMin intMax at he hf
  rw [convert_eq]
  omega

theorem Near.convert {o e : Int} (he : Near o e) : int.convert e = e := by
  unfold Near intMin intMax at he
  rw [convert_eq]
  omega

/-- A size that wraps around still ends at the coordinate. -/
theorem Near.convert_add {o e : Int} (he : Near o e) (x : Int) :
    int.convert (x + int.convert (e - x)) = e := by
  unfold Near intMin intMax at he
  rw [convert_eq, convert_eq]
  omega

/-- The coordinates of the rows lie from `o` on. -/
def InRange (o : IntPoint) (rs : List Row) : Prop :=
  ∀ r ∈ rs, Near o.y r.1 ∧ ∀ e ∈ r.2, Near o.x e

/-! ## One row -/

variable (p1 p2 : Bool)

/-- The flag after an odd (`true`) or even number of edges of each row. -/
def flagOf : Nat := p1.toNat + 2 * p2.toNat

theorem flagOf_xor_one : flagOf p1 p2 ^^^ 1 = flagOf (!p1) p2 := by
  cases p1 <;> cases p2 <;> rfl

theorem flagOf_xor_two : flagOf p1 p2 ^^^ 2 = flagOf p1 (!p2) := by
  cases p1 <;> cases p2 <;> rfl

theorem emit_iff (op : Operation) {p1 p2 q1 q2 : Bool} (hne : (p1, p2) ≠ (q1, q2)) :
    (flagOf q1 q2 = op.opCode ∨ flagOf p1 p2 = op.opCode) ↔
      (op.holds p1 p2 ^^ op.holds q1 q2) = true := by
  revert hne
  cases op <;> cases p1 <;> cases p2 <;> cases q1 <;> cases q2 <;> decide

/-- Is the number of edges left in the row odd? -/
def oddLength (s : List Int) : Bool := s.length % 2 = 1

@[simp] theorem oddLength_nil : oddLength [] = false := rfl

@[simp] theorem oddLength_cons (e : Int) (s : List Int) : oddLength (e :: s) = !oddLength s := by
  simp only [oddLength, length_cons]
  rcases Nat.mod_two_eq_zero_or_one s.length with h | h <;> simp [h, Nat.add_mod]

theorem oddLength_eq_false_of_edges {s : List Int} (h : Edges s) : oddLength s = false := by
  simpa [oddLength] using Nat.even_iff.mp h.even

variable {op : Operation} {flag : Nat} {x y : Int} {s1 s2 c edges c1 c2 : List Int} {r : Row}
  {rs rest : List Row}

theorem emit_mem {oldFlag : Nat} {e : Int} {rest : List Int} (h : e ∈ emit op oldFlag flag x rest) :
    e = x ∨ e ∈ rest := by
  unfold emit at h
  split_ifs at h
  · exact mem_cons.mp h
  · exact .inr h

theorem emit_sorted {oldFlag : Nat} {rest : List Int} (hx : ∀ e ∈ rest, x < e)
    (hrest : rest.Pairwise (· < ·)) :
    (emit op oldFlag flag x rest).Pairwise (· < ·) := by
  unfold emit
  split_ifs
  · exact pairwise_cons.mpr ⟨hx, hrest⟩
  · exact hrest

theorem emit_covers (op : Operation) {p1 p2 q1 q2 : Bool} (hne : (p1, p2) ≠ (q1, q2)) (e : Int)
    (rest : List Int) (hx : e ≤ x) :
    (op.holds p1 p2 ^^ covers (emit op (flagOf p1 p2) (flagOf q1 q2) e rest) x) =
      (op.holds q1 q2 ^^ covers rest x) := by
  unfold emit
  by_cases hc : (op.holds p1 p2 ^^ op.holds q1 q2) = true
  · rw [if_pos ((emit_iff op hne).mpr hc), covers_cons, decide_eq_true hx]
    revert hc
    cases op.holds p1 p2 <;> cases op.holds q1 q2 <;> simp
  · rw [if_neg (mt (emit_iff op hne).mp hc)]
    revert hc
    cases op.holds p1 p2 <;> cases op.holds q1 q2 <;> simp

/-- `mergeSegments`, by the order of the edges. -/
def mergeEdges (op : Operation) : List Int → List Int → Nat → List Int
  | e1 :: s1, e2 :: s2, flag =>
    if e1 < e2 then
      emit op flag (flag ^^^ 1) e1 (mergeEdges op s1 (e2 :: s2) (flag ^^^ 1))
    else if e2 < e1 then
      emit op flag (flag ^^^ 2) e2 (mergeEdges op (e1 :: s1) s2 (flag ^^^ 2))
    else
      emit op flag (flag ^^^ 1 ^^^ 2) e2 (mergeEdges op s1 s2 (flag ^^^ 1 ^^^ 2))
  | s1, s2, _ =>
    if op.shouldAddRemainingSegmentsFromSpan1 ∧ s1 ≠ [] then s1
    else if op.shouldAddRemainingSegmentsFromSpan2 ∧ s2 ≠ [] then s2
    else []
termination_by s1 s2 => s1.length + s2.length

theorem mergeSegments_eq (op : Operation) {o : Int} (flag : Nat) (h1 : ∀ e ∈ s1, Near o e)
    (h2 : ∀ e ∈ s2, Near o e) : mergeSegments op s1 s2 flag = mergeEdges op s1 s2 flag := by
  fun_induction mergeEdges op s1 s2 flag with
  | case1 e1 s1 e2 s2 flag h ih | case2 e1 s1 e2 s2 flag h h' ih | case3 e1 s1 e2 s2 flag h h' ih =>
    have hsub := convert_sub (h1 e1 mem_cons_self) (h2 e2 mem_cons_self)
    simp only [mergeSegments, hsub, sub_neg, sub_pos]
    grind
  | case4 s1 s2 flag hne h | case5 s1 s2 flag hne h h' | case6 s1 s2 flag hne h h' =>
    rcases eq_nil_or_eq_nil hne with rfl | rfl <;> simp_all [mergeSegments]

theorem mergeEdges_mem (op : Operation) (s1 s2 : List Int) (flag : Nat) :
    ∀ e ∈ mergeEdges op s1 s2 flag, e ∈ s1 ∨ e ∈ s2 := by
  fun_induction mergeEdges op s1 s2 flag with
  | case1 e1 s1 e2 s2 flag _ ih | case2 e1 s1 e2 s2 flag _ _ ih | case3 e1 s1 e2 s2 flag _ _ ih =>
    grind [emit_mem]
  | _ => grind

theorem mergeEdges_lower (h1 : ∀ e ∈ s1, x < e) (h2 : ∀ e ∈ s2, x < e) :
    ∀ e ∈ mergeEdges op s1 s2 flag, x < e := by
  intro e he
  rcases mergeEdges_mem op s1 s2 flag e he with h | h
  · exact h1 e h
  · exact h2 e h

theorem forall_lt_of_head {e : Int} {s : List Int} (hxe : x < e) (hs : (e :: s).Pairwise (· < ·)) :
    ∀ e' ∈ e :: s, x < e' := by
  exact forall_mem_cons.mpr ⟨hxe, fun e' h => hxe.trans ((pairwise_cons.mp hs).1 e' h)⟩

theorem mergeEdges_sorted (op : Operation) (s1 s2 : List Int) (flag : Nat)
    (h1 : s1.Pairwise (· < ·)) (h2 : s2.Pairwise (· < ·)) :
    (mergeEdges op s1 s2 flag).Pairwise (· < ·) := by
  fun_induction mergeEdges op s1 s2 flag with
  | case1 e1 s1 e2 s2 flag h12 ih =>
    obtain ⟨hlt, hs1⟩ := pairwise_cons.mp h1
    exact emit_sorted (mergeEdges_lower hlt (forall_lt_of_head h12 h2)) (ih hs1 h2)
  | case2 e1 s1 e2 s2 flag h12 h21 ih =>
    obtain ⟨hlt, hs2⟩ := pairwise_cons.mp h2
    exact emit_sorted (mergeEdges_lower (forall_lt_of_head h21 h1) hlt) (ih h1 hs2)
  | case3 e1 s1 e2 s2 flag h12 h21 ih =>
    obtain ⟨hlt1, hs1⟩ := pairwise_cons.mp h1
    obtain ⟨hlt2, hs2⟩ := pairwise_cons.mp h2
    have he : e1 = e2 := le_antisymm (not_lt.mp h21) (not_lt.mp h12)
    rw [he] at hlt1
    exact emit_sorted (mergeEdges_lower hlt1 hlt2) (ih hs1 hs2)
  | case4 => exact h1
  | case5 => exact h2
  | case6 => exact List.Pairwise.nil

theorem holds_before (op : Operation) (p1 p2 : Bool) {out : List Int} (h1 : ∀ e ∈ s1, x < e)
    (h2 : ∀ e ∈ s2, x < e) (ho : ∀ e ∈ out, e ∈ s1 ∨ e ∈ s2) :
    (op.holds p1 p2 ^^ covers out x) = op.holds (p1 ^^ covers s1 x) (p2 ^^ covers s2 x) := by
  have h : ∀ e ∈ out, x < e := fun e he => (ho e he).elim (h1 e) (h2 e)
  rw [covers_eq_false_of_lt h1, covers_eq_false_of_lt h2, covers_eq_false_of_lt h]
  simp

theorem remaining_covers (op : Operation) (s1 s2 : List Int) (x : Int) (h : s1 = [] ∨ s2 = []) :
    (op.holds (oddLength s1) (oddLength s2) ^^ covers
      (if op.shouldAddRemainingSegmentsFromSpan1 ∧ s1 ≠ [] then s1
       else if op.shouldAddRemainingSegmentsFromSpan2 ∧ s2 ≠ [] then s2 else []) x) =
      op.holds (oddLength s1 ^^ covers s1 x) (oddLength s2 ^^ covers s2 x) := by
  rcases h with rfl | rfl
  · cases op <;> cases s2 <;>
      simp [holds, shouldAddRemainingSegmentsFromSpan1, shouldAddRemainingSegmentsFromSpan2]
  · cases op <;> cases s1 <;>
      simp [holds, shouldAddRemainingSegmentsFromSpan1, shouldAddRemainingSegmentsFromSpan2]

/-- From any point on: with the parities of the edges passed, the edges to come turn the operation's
truth value into that at `x`. -/
theorem mergeEdges_covers_from (op : Operation) (s1 s2 : List Int) (x : Int) (flag : Nat)
    (hfl : flag = flagOf (oddLength s1) (oddLength s2))
    (h1 : s1.Pairwise (· < ·)) (h2 : s2.Pairwise (· < ·)) :
    (op.holds (oddLength s1) (oddLength s2) ^^ covers (mergeEdges op s1 s2 flag) x) =
      op.holds (oddLength s1 ^^ covers s1 x) (oddLength s2 ^^ covers s2 x) := by
  have hm := mergeEdges_mem op s1 s2 flag
  -- `x` lies before the next edge, or that edge toggles the coverage at `x`
  fun_induction mergeEdges op s1 s2 flag with
  | case1 e1 s1 e2 s2 flag h12 ih =>
    rcases lt_or_ge x e1 with hx | hx
    · exact holds_before op _ _ (forall_lt_of_head hx h1) (forall_lt_of_head (hx.trans h12) h2) hm
    subst hfl
    rw [flagOf_xor_one] at ih ⊢
    rw [emit_covers op (by simp) _ _ hx]
    have := ih (by simp) (pairwise_cons.mp h1).2 h2 (mergeEdges_mem op _ _ _)
    simp only [oddLength_cons, Bool.not_not] at this ⊢
    rw [this]
    simp [covers_cons, hx]
  | case2 e1 s1 e2 s2 flag h12 h21 ih =>
    rcases lt_or_ge x e2 with hx | hx
    · exact holds_before op _ _ (forall_lt_of_head (hx.trans h21) h1) (forall_lt_of_head hx h2) hm
    subst hfl
    rw [flagOf_xor_two] at ih ⊢
    rw [emit_covers op (by simp) _ _ hx]
    have := ih (by simp) h1 (pairwise_cons.mp h2).2 (mergeEdges_mem op _ _ _)
    simp only [oddLength_cons, Bool.not_not] at this ⊢
    rw [this]
    simp [covers_cons, hx]
  | case3 e1 s1 e2 s2 flag h12 h21 ih =>
    obtain rfl : e1 = e2 := le_antisymm (not_lt.mp h21) (not_lt.mp h12)
    rcases lt_or_ge x e1 with hx | hx
    · exact holds_before op _ _ (forall_lt_of_head hx h1) (forall_lt_of_head hx h2) hm
    subst hfl
    rw [flagOf_xor_one, flagOf_xor_two] at ih ⊢
    rw [emit_covers op (by simp) _ _ hx]
    have := ih (by simp) (pairwise_cons.mp h1).2 (pairwise_cons.mp h2).2
      (mergeEdges_mem op _ _ _)
    simp only [oddLength_cons, Bool.not_not] at this ⊢
    rw [this]
    simp [covers_cons, hx]
  | case4 s1 s2 flag hne h =>
    have := remaining_covers op s1 s2 x (eq_nil_or_eq_nil hne)
    rw [if_pos h] at this
    exact this
  | case5 s1 s2 flag hne h h' =>
    have := remaining_covers op s1 s2 x (eq_nil_or_eq_nil hne)
    rw [if_neg h, if_pos h'] at this
    exact this
  | case6 s1 s2 flag hne h h' =>
    have := remaining_covers op s1 s2 x (eq_nil_or_eq_nil hne)
    rw [if_neg h, if_neg h'] at this
    exact this

/-- **One row.** The merge covers a point exactly when the operation holds of the coverages. -/
theorem mergeEdges_covers (op : Operation) (h1 : Edges s1) (h2 : Edges s2) (x : Int) :
    covers (mergeEdges op s1 s2 0) x = op.holds (covers s1 x) (covers s2 x) := by
  have h := mergeEdges_covers_from op s1 s2 x 0
    (by rw [oddLength_eq_false_of_edges h1, oddLength_eq_false_of_edges h2]; rfl)
    h1.sorted h2.sorted
  rw [oddLength_eq_false_of_edges h1, oddLength_eq_false_of_edges h2] at h
  cases op <;> simpa [holds] using h

theorem mergeEdges_edges (op : Operation) (h1 : Edges s1) (h2 : Edges s2) :
    Edges (mergeEdges op s1 s2 0) := by
  refine ⟨mergeEdges_sorted op s1 s2 0 h1.sorted h2.sorted, ?_⟩
  -- far to the right neither row covers, so the merge does not either
  obtain ⟨x, hx⟩ := (s1 ++ s2).toFinset.exists_le
  have h1x : ∀ e ∈ s1, e ≤ x := fun e he => hx e (by simp [he])
  have h2x : ∀ e ∈ s2, e ≤ x := fun e he => hx e (by simp [he])
  have h := mergeEdges_covers op h1 h2 x
  rw [covers_of_forall_le h1x, covers_of_forall_le h2x, covers_of_forall_le fun e he =>
    (mergeEdges_mem op s1 s2 0 e he).elim (h1x e) (h2x e)] at h
  cases op <;> simpa [holds, h1.even, h2.even] using h

theorem mergeEdges_nil_left (op : Operation) (s : List Int) :
    mergeEdges op [] s 0 = if op.shouldAddRemainingSegmentsFromSpan2 then s else [] := by
  cases op <;> cases s <;> simp [mergeEdges, shouldAddRemainingSegmentsFromSpan1,
    shouldAddRemainingSegmentsFromSpan2]

theorem mergeEdges_nil_right (op : Operation) (s : List Int) :
    mergeEdges op s [] 0 = if op.shouldAddRemainingSegmentsFromSpan1 then s else [] := by
  cases op <;> cases s <;> simp [mergeEdges, shouldAddRemainingSegmentsFromSpan1,
    shouldAddRemainingSegmentsFromSpan2]

/-! ## All rows -/

/-- Rows entered with the edges `c`: increasing `y`, canonical edges, no row equal to the one before
it, and a last row without edges. -/
structure Canonical (c : List Int) (rs : List Row) : Prop where
  cur : Edges c
  sorted : rs.Pairwise (fun a b => a.1 < b.1)
  edges : ∀ r ∈ rs, Edges r.2
  changes : Changes c rs
  closed : lastValue c rs = []

theorem Canonical.nil : Canonical [] [] := ⟨Edges.nil, List.Pairwise.nil, by simp, trivial, rfl⟩

theorem Canonical.tail (h : Canonical c (r :: rs)) : (∀ s ∈ rs, r.1 < s.1) ∧ Canonical r.2 rs := by
  obtain ⟨-, hs, he, hc, hl⟩ := h
  rw [pairwise_cons] at hs
  exact ⟨hs.1, he r mem_cons_self, hs.2, (forall_mem_cons.mp he).2, hc.2, hl⟩

theorem Canonical.valueAt_edges (h : Canonical c rs) (y : Int) : Edges (valueAt c rs y) := by
  rcases valueAt_mem c rs y with hv | ⟨r, hr, -, hv⟩
  · rw [hv]; exact h.cur
  · rw [hv]; exact h.edges r hr

/-- Put a row in front, unless it repeats the edges `last` before it. -/
def addRow (last : List Int) (y : Int) (edges : List Int) (rest : List Row) : List Row :=
  if edges = last then rest else (y, edges) :: rest

theorem addRow_mem {last : List Int} (h : r ∈ addRow last y edges rest) :
    r = (y, edges) ∨ r ∈ rest := by
  unfold addRow at h
  split_ifs at h
  · exact .inr h
  · exact mem_cons.mp h

theorem valueAt_addRow (last : List Int) (y : Int) (edges : List Int) (hy : ∀ r ∈ rest, y < r.1)
    (z : Int) :
    valueAt last (addRow last y edges rest) z = if y ≤ z then valueAt edges rest z else last := by
  unfold addRow
  split_ifs with he hz hz
  · rw [he]
  · exact valueAt_of_lt last fun r hr => (not_le.mp hz).trans (hy r hr)
  · exact valueAt_cons_of_le last rest hz
  · rw [valueAt_cons, if_neg hz]

theorem Canonical.addRow {last : List Int} (hls : Edges last) (hy : ∀ r ∈ rest, y < r.1)
    (h : Canonical edges rest) :
    Canonical last (addRow last y edges rest) := by
  unfold Shape.addRow
  split_ifs with he
  · rw [← he]; exact h
  · exact ⟨hls, pairwise_cons.mpr ⟨hy, h.sorted⟩,
      fun r hr => (mem_cons.mp hr).elim (fun e => e ▸ h.cur) (h.edges r),
      ⟨he, h.changes⟩, h.closed⟩

/-- The scanline on rows: what `spanLoop` adds to the result from rows with the edges `c1` and `c2`
on. -/
def combine (op : Operation) (s1 s2 : List Row) (c1 c2 : List Int) : List Row :=
  match s1, s2 with
  | r1 :: t1, r2 :: t2 =>
    if r1.1 < r2.1 then
      addRow (mergeEdges op c1 c2 0) r1.1 (mergeEdges op r1.2 c2 0)
        (combine op t1 (r2 :: t2) r1.2 c2)
    else if r2.1 < r1.1 then
      addRow (mergeEdges op c1 c2 0) r2.1 (mergeEdges op c1 r2.2 0)
        (combine op (r1 :: t1) t2 c1 r2.2)
    else
      addRow (mergeEdges op c1 c2 0) r2.1 (mergeEdges op r1.2 r2.2 0)
        (combine op t1 t2 r1.2 r2.2)
  | s1, s2 =>
    if op.shouldAddRemainingSpansFromShape1 ∧ s1 ≠ [] then s1
    else if op.shouldAddRemainingSpansFromShape2 ∧ s2 ≠ [] then s2
    else []
termination_by s1.length + s2.length

theorem combine_forall {P : Int → Prop} {s1 s2 : List Row} (h1 : ∀ r ∈ s1, P r.1)
    (h2 : ∀ r ∈ s2, P r.1) : ∀ r ∈ combine op s1 s2 c1 c2, P r.1 := by
  fun_induction combine op s1 s2 c1 c2 with
  | case1 c1 c2 r1 t1 r2 t2 h ih =>
    intro r hr
    rcases addRow_mem hr with rfl | hr
    · exact h1 r1 mem_cons_self
    · exact ih (forall_mem_cons.mp h1).2 h2 r hr
  | case2 c1 c2 r1 t1 r2 t2 h h' ih =>
    intro r hr
    rcases addRow_mem hr with rfl | hr
    · exact h2 r2 mem_cons_self
    · exact ih h1 (forall_mem_cons.mp h2).2 r hr
  | case3 c1 c2 r1 t1 r2 t2 h h' ih =>
    intro r hr
    rcases addRow_mem hr with rfl | hr
    · exact h2 r2 mem_cons_self
    · exact ih (forall_mem_cons.mp h1).2 (forall_mem_cons.mp h2).2 r hr
  | case4 => exact h1
  | case5 => exact h2
  | case6 => exact forall_mem_nil _

theorem forall_lt_of_row (hy : y < r.1) (h : Canonical c (r :: rs)) : ∀ s ∈ r :: rs, y < s.1 := by
  exact forall_mem_cons.mpr ⟨hy, fun s hs => hy.trans (h.tail.1 s hs)⟩

/-- Canonical rows, at every `y` the merge of the two rows there. -/
structure Merges (op : Operation) (s1 s2 : List Row) (c1 c2 : List Int) (rs : List Row) : Prop where
  canonical : Canonical (mergeEdges op c1 c2 0) rs
  valueAt : ∀ z, valueAt (mergeEdges op c1 c2 0) rs z =
    mergeEdges op (valueAt c1 s1 z) (valueAt c2 s2 z) 0

theorem combine_end (op : Operation) {s1 s2 : List Row} (hne : s1 = [] ∨ s2 = [])
    (h1 : Canonical c1 s1) (h2 : Canonical c2 s2) :
    Merges op s1 s2 c1 c2 (combine op s1 s2 c1 c2) := by
  rcases hne with rfl | rfl
  · have hc : c1 = [] := h1.closed
    have hcm : combine op [] s2 c1 c2 =
        if op.shouldAddRemainingSegmentsFromSpan2 then s2 else [] := by
      cases op <;> cases s2 <;> simp [combine, shouldAddRemainingSpansFromShape1,
        shouldAddRemainingSpansFromShape2,
        shouldAddRemainingSegmentsFromSpan2]
    rw [hcm, hc]
    constructor <;> simp only [valueAt_nil, mergeEdges_nil_left] <;> split_ifs
    · exact h2
    · exact Canonical.nil
    · exact fun _ => rfl
    · exact fun _ => rfl
  · have hc : c2 = [] := h2.closed
    have hcm : combine op s1 [] c1 c2 =
        if op.shouldAddRemainingSegmentsFromSpan1 then s1 else [] := by
      cases op <;> cases s1 <;> simp [combine, shouldAddRemainingSpansFromShape1,
        shouldAddRemainingSpansFromShape2,
        shouldAddRemainingSegmentsFromSpan1]
    rw [hcm, hc]
    constructor <;> simp only [valueAt_nil, mergeEdges_nil_right] <;> split_ifs
    · exact h1
    · exact Canonical.nil
    · exact fun _ => rfl
    · exact fun _ => rfl

/-- One step of the scanline at `y`, where the rows with the edges `c1'` and `c2'` start. -/
theorem addRow_spec (op : Operation) {s1 s2 s1' s2' : List Row} {c1' c2' : List Int}
    (hc1 : Edges c1) (hc2 : Edges c2) (hy : ∀ r ∈ rest, y < r.1)
    (hv1 : ∀ z, valueAt c1 s1 z = if y ≤ z then valueAt c1' s1' z else c1)
    (hv2 : ∀ z, valueAt c2 s2 z = if y ≤ z then valueAt c2' s2' z else c2)
    (ih : Merges op s1' s2' c1' c2' rest) :
    Merges op s1 s2 c1 c2
      (addRow (mergeEdges op c1 c2 0) y (mergeEdges op c1' c2' 0) rest) := by
  refine ⟨Canonical.addRow (mergeEdges_edges op hc1 hc2) hy ih.1, fun z => ?_⟩
  rw [valueAt_addRow _ _ _ hy, hv1, hv2]
  split_ifs
  · exact ih.2 z
  · rfl

theorem valueAt_skip (h : ∀ r ∈ rs, y < r.1) (z : Int) :
    valueAt c rs z = if y ≤ z then valueAt c rs z else c := by
  split_ifs with hz
  · rfl
  · exact valueAt_of_lt c fun r hr => (not_le.mp hz).trans (h r hr)

/-- **All rows.** The scanline gives canonical rows, at every `y` the merge of the two rows there.
-/
theorem combine_spec (op : Operation) (s1 s2 : List Row) (c1 c2 : List Int)
    (h1 : Canonical c1 s1) (h2 : Canonical c2 s2) :
    Merges op s1 s2 c1 c2 (combine op s1 s2 c1 c2) := by
  induction hn : s1.length + s2.length using Nat.strong_induction_on generalizing s1 s2 c1 c2 with
  | _ n ih =>
    rcases s1 with _ | ⟨r1, t1⟩
    · exact combine_end op (.inl rfl) h1 h2
    rcases s2 with _ | ⟨r2, t2⟩
    · exact combine_end op (.inr rfl) h1 h2
    obtain ⟨hlt1, ht1⟩ := h1.tail
    obtain ⟨hlt2, ht2⟩ := h2.tail
    simp only [length_cons] at hn
    rw [combine]
    split_ifs with h h'
    · have hy2 := forall_lt_of_row h h2
      exact addRow_spec op h1.cur h2.cur (combine_forall hlt1 hy2) (fun _ => rfl)
        (valueAt_skip hy2)
        (ih _ (by simp only [length_cons]; omega) t1 (r2 :: t2) r1.2 c2 ht1 h2 rfl)
    · have hy1 := forall_lt_of_row h' h1
      exact addRow_spec op h1.cur h2.cur (combine_forall hy1 hlt2) (valueAt_skip hy1)
        (fun _ => rfl)
        (ih _ (by simp only [length_cons]; omega) (r1 :: t1) t2 c1 r2.2 h1 ht2 rfl)
    · have he : r1.1 = r2.1 := le_antisymm (not_lt.mp h') (not_lt.mp h)
      rw [he] at hlt1
      exact addRow_spec op h1.cur h2.cur (combine_forall hlt1 hlt2)
        (fun z => by rw [valueAt_cons, he]) (fun _ => rfl)
        (ih _ (by omega) t1 t2 r1.2 r2.2 ht1 ht2 rfl)

/-! ## The vectors -/

/-- The spans of `rs`, the first with the segment index `k`. -/
def spansFrom (k : Nat) : List Row → List Span
  | [] => []
  | r :: rs => ⟨r.1, k⟩ :: spansFrom (k + r.2.length) rs

/-- The shape that holds the rows `rs`. -/
def ofRows (rs : List Row) : Shape := ⟨rs.flatMap (·.2), spansFrom 0 rs⟩

theorem spansFrom_append (k : Nat) (rs ss : List Row) :
    spansFrom k (rs ++ ss) = spansFrom k rs ++ spansFrom (k + (rs.flatMap (·.2)).length) ss := by
  induction rs generalizing k with
  | nil => simp [spansFrom]
  | cons r rs ih =>
    simp only [cons_append, spansFrom, ih, flatMap_cons, length_append, add_assoc]

theorem ofRows_snoc (rs : List Row) (r : Row) :
    ofRows (rs ++ [r]) =
      ⟨(ofRows rs).segments ++ r.2, (ofRows rs).spans ++ [⟨r.1, (ofRows rs).segments.length⟩]⟩ := by
  simp [ofRows, spansFrom_append, spansFrom]

theorem isEmpty_ofRows (rs : List Row) : (ofRows rs).isEmpty = rs.isEmpty := by
  cases rs <;> rfl

theorem rowsFrom_spansFrom (pre : List Int) (d : List Int) (rs : List Row)
    (h : lastValue d rs = []) :
    rowsFrom (pre ++ rs.flatMap (·.2)) (spansFrom pre.length rs) = rs := by
  induction rs generalizing pre d with
  | nil => rfl
  | cons r rs ih =>
    have htl := ih (pre ++ r.2) r.2 h
    rw [length_append, append_assoc] at htl
    rw [spansFrom, flatMap_cons, rowsFrom, htl]
    congr 1
    refine Prod.ext rfl ?_
    cases rs with
    | nil =>
      have hr : r.2 = [] := h
      simp [segmentsOf, hr]
    | cons s rs =>
      simp only [segmentsOf, spansFrom, head?_cons]
      split_ifs with hl
      · have hr : r.2.length = 0 := by
          simp only [length_append] at hl
          omega
        exact (length_eq_zero_iff.mp hr).symm
      · simp

theorem rows_ofRows (h : lastValue [] rs = []) : (ofRows rs).rows = rs :=
  rowsFrom_spansFrom [] [] rs h

theorem canCoalesce_ofRows (hne : rs ≠ []) (edges : List Int) :
    (ofRows rs).canCoalesce edges = true ↔ lastValue [] rs = edges := by
  obtain ⟨ss, s, rfl⟩ := (eq_nil_or_concat' rs).resolve_left hne
  simp [canCoalesce, ofRows_snoc]

theorem appendSpan_ofRows (rs : List Row) (y : Int) (h : edges ≠ lastValue [] rs) :
    (ofRows rs).appendSpan y edges = ofRows (rs ++ [(y, edges)]) := by
  have hc : (ofRows rs).canCoalesce edges = false := by
    cases rs with
    | nil => rfl
    | cons r rs =>
      rw [Bool.eq_false_iff]
      exact fun hco => h ((canCoalesce_ofRows (by simp) edges).mp hco).symm
  simp [appendSpan, hc, appendSpanAt, ofRows_snoc]

theorem addSpan_ofRows (rs : List Row) (y : Int) (edges : List Int) :
    (ofRows rs).addSpan y edges = ofRows (rs ++ addRow (lastValue [] rs) y edges []) := by
  unfold addSpan addRow
  by_cases he : edges = lastValue [] rs
  · rw [if_pos he, append_nil]
    cases rs with
    | nil => simp [he, isEmpty_ofRows]
    | cons r rs =>
      have hc := (canCoalesce_ofRows (cons_ne_nil r rs) edges).mpr he.symm
      simp [isEmpty_ofRows, appendSpan, hc]
  · rw [if_neg he, appendSpan_ofRows rs y he]
    cases rs with
    | nil => simp [show edges ≠ [] from he]
    | cons r rs => simp [isEmpty_ofRows]

theorem appendSpans_ofRows (rs ss : List Row) (h : Changes (lastValue [] rs) ss) :
    (ofRows rs).appendSpans ss = ofRows (rs ++ ss) := by
  induction ss generalizing rs with
  | nil => simp [appendSpans]
  | cons s ss ih =>
    have hst := appendSpan_ofRows rs s.1 h.1
    have := ih (rs ++ [s]) (by simpa using h.2)
    rw [append_assoc, singleton_append] at this
    rw [← this]
    simp [appendSpans, hst]

theorem append_addRow (rs : List Row) (last : List Int) (y : Int) (edges : List Int)
    (rest : List Row) : rs ++ addRow last y edges [] ++ rest = rs ++ addRow last y edges rest := by
  unfold addRow
  split_ifs <;> simp

theorem spanLoop_end (op : Operation) {s1 s2 : List Row} (hne : s1 = [] ∨ s2 = [])
    (h1 : Canonical c1 s1) (h2 : Canonical c2 s2)
    (hls : lastValue [] rs = mergeEdges op c1 c2 0) :
    spanLoop op s1 s2 c1 c2 (ofRows rs) = ofRows (rs ++ combine op s1 s2 c1 c2) := by
  rcases hne with rfl | rfl
  · have hc : c1 = [] := h1.closed
    rw [hc, mergeEdges_nil_left] at hls
    have hcp : op.shouldAddRemainingSegmentsFromSpan2 = true →
        (ofRows rs).appendSpans s2 = ofRows (rs ++ s2) := fun h =>
      appendSpans_ofRows rs s2 (by rw [hls, if_pos h]; exact h2.changes)
    cases op <;> cases s2 <;> simp_all [spanLoop, combine,
      shouldAddRemainingSpansFromShape1, shouldAddRemainingSpansFromShape2,
      shouldAddRemainingSegmentsFromSpan2]
  · have hc : c2 = [] := h2.closed
    rw [hc, mergeEdges_nil_right] at hls
    have hcp : op.shouldAddRemainingSegmentsFromSpan1 = true →
        (ofRows rs).appendSpans s1 = ofRows (rs ++ s1) := fun h =>
      appendSpans_ofRows rs s1 (by rw [hls, if_pos h]; exact h1.changes)
    cases op <;> cases s1 <;> simp_all [spanLoop, combine,
      shouldAddRemainingSpansFromShape1, shouldAddRemainingSpansFromShape2,
      shouldAddRemainingSegmentsFromSpan1]

theorem lastValue_addRow (rs : List Row) (y : Int) (edges : List Int) :
    lastValue [] (rs ++ addRow (lastValue [] rs) y edges []) = edges := by
  unfold addRow
  split_ifs with he
  · simp [he]
  · simp

/-- **The vectors.** The loop over the spans of two shapes is `combine` on rows. -/
theorem spanLoop_ofRows (op : Operation) (s1 s2 : List Row) (c1 c2 : List Int) (rs : List Row)
    (h1 : Canonical c1 s1) (h2 : Canonical c2 s2) {o : IntPoint} (hr1 : InRange o s1)
    (hr2 : InRange o s2) (hc1 : ∀ e ∈ c1, Near o.x e) (hc2 : ∀ e ∈ c2, Near o.x e)
    (hls : lastValue [] rs = mergeEdges op c1 c2 0) :
    spanLoop op s1 s2 c1 c2 (ofRows rs) = ofRows (rs ++ combine op s1 s2 c1 c2) := by
  induction hn : s1.length + s2.length using Nat.strong_induction_on
    generalizing s1 s2 c1 c2 rs with
  | _ n ih =>
    rcases s1 with _ | ⟨r1, t1⟩
    · exact spanLoop_end op (.inl rfl) h1 h2 hls
    rcases s2 with _ | ⟨r2, t2⟩
    · exact spanLoop_end op (.inr rfl) h1 h2 hls
    simp only [length_cons] at hn
    obtain ⟨⟨hy1, he1⟩, ht1⟩ := forall_mem_cons.mp hr1
    obtain ⟨⟨hy2, he2⟩, ht2⟩ := forall_mem_cons.mp hr2
    simp only [spanLoop, combine, convert_sub hy1 hy2, sub_neg, sub_pos]
    rw [← hls]
    split_ifs with h h'
    · rw [← append_addRow, addSpan_ofRows, mergeSegments_eq op 0 he1 hc2]
      exact ih _ (by simp only [length_cons]; omega) t1 (r2 :: t2) r1.2 c2 _ h1.tail.2 h2
        ht1 hr2 he1 hc2 (lastValue_addRow _ _ _) rfl
    · rw [← append_addRow, addSpan_ofRows, mergeSegments_eq op 0 hc1 he2]
      exact ih _ (by simp only [length_cons]; omega) (r1 :: t1) t2 c1 r2.2 _ h1 h2.tail.2
        hr1 ht2 hc1 he2 (lastValue_addRow _ _ _) rfl
    · rw [← append_addRow, addSpan_ofRows, mergeSegments_eq op 0 he1 he2]
      exact ih _ (by omega) t1 t2 r1.2 r2.2 _ h1.tail.2 h2.tail.2 ht1 ht2 he1 he2
        (lastValue_addRow _ _ _) rfl

theorem shapeOperation_ofRows (op : Operation) {rs1 rs2 : List Row} (h1 : Canonical [] rs1)
    (h2 : Canonical [] rs2) {o : IntPoint} (hr1 : InRange o rs1) (hr2 : InRange o rs2) :
    ∃ rs, shapeOperation op (ofRows rs1) (ofRows rs2) = ofRows rs ∧ Canonical [] rs ∧
      (∀ r ∈ rs, Near o.y r.1) ∧
      ∀ z, valueAt [] rs z = mergeEdges op (valueAt [] rs1 z) (valueAt [] rs2 z) 0 := by
  have hnil : mergeEdges op [] [] 0 = [] := by
    rw [mergeEdges_nil_left]
    split_ifs <;> rfl
  by_cases hs : op.trySimpleOperation (ofRows rs1) (ofRows rs2) = none
  · obtain ⟨hcn, hva⟩ := combine_spec op rs1 rs2 [] [] h1 h2
    rw [hnil] at hcn hva
    refine ⟨combine op rs1 rs2 [] [], ?_, hcn,
      combine_forall (fun r hr => (hr1 r hr).1) (fun r hr => (hr2 r hr).1), hva⟩
    rw [shapeOperation, hs, rows_ofRows h1.closed, rows_ofRows h2.closed]
    exact spanLoop_ofRows op rs1 rs2 [] [] [] h1 h2 hr1 hr2 (forall_mem_nil _) (forall_mem_nil _)
      hnil.symm
  · -- only the union with an empty first shape is simple
    cases op with
    | union =>
      cases rs1 with
      | nil =>
        refine ⟨rs2, rfl, h2, fun r hr => (hr2 r hr).1, fun z => ?_⟩
        rw [valueAt_nil, mergeEdges_nil_left]
        rfl
      | cons r rs => exact absurd rfl hs
    | intersect | subtract => exact absurd rfl hs

end WebKit.Graphics.Shape
