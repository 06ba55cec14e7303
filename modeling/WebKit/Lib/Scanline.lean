import Mathlib.Order.Lattice
import Mathlib.Algebra.Group.Nat.Even
import Mathlib.Data.List.Basic

/-!
# Scanlines: edge lists and step lists

* An *edge list* is a list of positions at which membership toggles. A point is covered when an odd
  number of edges lies at or before it.
* A *step list* is a list of breakpoints, each with the value that holds from there on.

A two-dimensional region is a step list whose values are edge lists.
-/

namespace Scanline

open List

/-! ## Edge lists -/

section Edges

variable {α : Type*} [LinearOrder α]

/-- Is `x` covered: is the number of edges at or before `x` odd? -/
def covers : List α → α → Bool
  | [], _ => false
  | e :: es, x => decide (e ≤ x) ^^ covers es x

/-- A canonical edge list: strictly increasing, and every opened interval is
closed again. -/
structure Edges (es : List α) : Prop where
  sorted : es.Pairwise (· < ·)
  even : Even es.length

@[simp] theorem covers_nil (x : α) : covers [] x = false := rfl

theorem covers_cons (e : α) (es : List α) (x : α) :
    covers (e :: es) x = (decide (e ≤ x) ^^ covers es x) := rfl

theorem Edges.nil : Edges ([] : List α) := ⟨List.Pairwise.nil, Even.zero⟩

variable {a b x : α} {es : List α}

theorem Edges.pair (h : a < b) : Edges [a, b] := ⟨by simp [h], ⟨1, rfl⟩⟩

theorem covers_eq_false_of_lt (h : ∀ e ∈ es, x < e) : covers es x = false := by
  induction es with
  | nil => rfl
  | cons e es ih =>
    have he : ¬ e ≤ x := not_le.mpr (h e mem_cons_self)
    rw [covers_cons, ih (forall_mem_cons.mp h).2]
    simp [he]

/-- At or after the last edge, coverage is the parity of the whole list. -/
theorem covers_of_forall_le (h : ∀ e ∈ es, e ≤ x) : covers es x = decide (¬ Even es.length) := by
  induction es with
  | nil => simp
  | cons e es ih =>
    have he : e ≤ x := h e mem_cons_self
    rw [covers_cons, ih (forall_mem_cons.mp h).2, length_cons, decide_eq_true he]
    by_cases hpr : Even es.length
    · simp [hpr, Nat.even_add_one]
    · simp [hpr, Nat.even_add_one]

theorem covers_append (es fs : List α) (x : α) :
    covers (es ++ fs) x = (covers es x ^^ covers fs x) := by
  induction es with
  | nil => simp
  | cons e es ih => rw [cons_append, covers_cons, covers_cons, ih, Bool.xor_assoc]

/-- A covered point has an edge at or before it and an edge after it. -/
theorem Edges.bracket (hes : Edges es) (hx : covers es x = true) :
    (∃ e ∈ es, e ≤ x) ∧ (∃ e ∈ es, x < e) := by
  constructor
  · by_contra hno
    push Not at hno
    rw [covers_eq_false_of_lt hno] at hx
    exact Bool.false_ne_true hx
  · by_contra hno
    push Not at hno
    rw [covers_of_forall_le hno] at hx
    simp [hes.even] at hx

theorem Edges.tail (h : Edges (a :: b :: es)) : a < b ∧ (∀ e ∈ es, b < e) ∧ Edges es := by
  obtain ⟨hs, hl⟩ := h
  rw [pairwise_cons, pairwise_cons] at hs
  refine ⟨hs.1 b mem_cons_self, hs.2.1, hs.2.2, ?_⟩
  simpa [Nat.even_add_one] using hl

/-- The shape of a canonical edge list: empty, or an interval and more. -/
theorem Edges.cases (h : Edges es) :
    es = [] ∨ ∃ a b fs, es = a :: b :: fs ∧ a < b ∧ (∀ e ∈ fs, b < e) ∧ Edges fs := by
  rcases es with _ | ⟨a, _ | ⟨b, fs⟩⟩
  · exact .inl rfl
  · exact absurd h.even (by simp)
  · exact .inr ⟨a, b, fs, rfl, h.tail⟩

/-- Membership in an edge list, one interval at a time. -/
theorem covers_pair_iff (h : Edges (a :: b :: es)) (x : α) :
    covers (a :: b :: es) x = true ↔ (a ≤ x ∧ x < b) ∨ covers es x = true := by
  obtain ⟨hab, hb, -⟩ := h.tail
  rw [covers_cons, covers_cons]
  rcases lt_or_ge x b with hxb | hbx
  · have hes : covers es x = false := covers_eq_false_of_lt fun e he => hxb.trans (hb e he)
    simp [hes, hxb, not_le.mpr hxb]
  · have hax : a ≤ x := hab.le.trans hbx
    simp [hax, hbx, not_lt.mpr hbx]

theorem covers_head {e : α} {es : List α} (h : (e :: es).Pairwise (· < ·)) :
    covers (e :: es) e = true := by
  rw [covers_cons, covers_eq_false_of_lt (pairwise_cons.mp h).1]
  simp

theorem Edges.covers_head (h : Edges (a :: es)) : covers (a :: es) a = true :=
  Scanline.covers_head h.sorted

theorem Edges.covers_min (h : Edges es) (hx : x ∈ es) (hmin : ∀ e ∈ es, x ≤ e) :
    covers es x = true := by
  cases es with
  | nil => cases hx
  | cons a es =>
    have hxa : x = a := by
      refine le_antisymm (hmin a mem_cons_self) ?_
      rcases mem_cons.mp hx with rfl | hx
      · exact le_rfl
      · exact ((pairwise_cons.mp h.sorted).1 x hx).le
    rw [hxa]
    exact h.covers_head

/-- What lies before the greatest edge and not before any other is covered. -/
theorem Edges.covers_before_max (h : Edges es) (hb : b ∈ es) (hxb : x < b)
    (hx : ∀ e ∈ es, e ≠ b → e ≤ x) : covers es x = true := by
  obtain ⟨ls, c, rfl⟩ := (eq_nil_or_concat' es).resolve_left (ne_nil_of_mem hb)
  have hs := (pairwise_append.mp h.sorted).2.2
  have hbc : b = c := by
    rcases mem_append.mp hb with hb | hb
    · have hlt := hs b hb c (by simp)
      exact absurd ((hx c (by simp) hlt.ne').trans_lt hxb) hlt.not_gt
    · exact mem_singleton.mp hb
  subst hbc
  have hls : ∀ e ∈ ls, e ≤ x := fun e he =>
    hx e (mem_append_left _ he) (hs e he b (by simp)).ne
  have hodd : ¬ Even ls.length := by
    have := h.even
    rw [length_append, length_singleton, Nat.even_add_one] at this
    exact this
  rw [covers_append, covers_of_forall_le hls]
  simp [covers, hodd, not_le.mpr hxb]

theorem head_le_of_covers {e x : α} {es : List α} (h : (e :: es).Pairwise (· < ·))
    (hx : covers (e :: es) x = true) : e ≤ x := by
  by_contra hlt
  have hall : ∀ f ∈ e :: es, x < f := forall_mem_cons.mpr
    ⟨not_le.mp hlt, fun f hf => (not_le.mp hlt).trans ((pairwise_cons.mp h).1 f hf)⟩
  rw [covers_eq_false_of_lt hall] at hx
  cases hx

/-- Increasing edges are determined by what they cover. -/
theorem eq_of_covers_eq {es fs : List α} (he : es.Pairwise (· < ·)) (hf : fs.Pairwise (· < ·))
    (h : ∀ x, covers es x = covers fs x) : es = fs := by
  induction es generalizing fs with
  | nil =>
    cases fs with
    | nil => rfl
    | cons f fs => exact absurd (covers_head hf) (by simp [← h])
  | cons e es ih =>
    cases fs with
    | nil => exact absurd (covers_head he) (by simp [h])
    | cons f fs =>
      obtain rfl : e = f := le_antisymm (head_le_of_covers he (h f ▸ covers_head hf))
        (head_le_of_covers hf (h e ▸ covers_head he))
      rw [ih (pairwise_cons.mp he).2 (pairwise_cons.mp hf).2 fun x => ?_]
      simpa [covers_cons] using h x

end Edges

/-! ## Step lists -/

section Steps

variable {α β : Type*}

/-- The value after the last breakpoint. -/
def lastValue (d : β) : List (α × β) → β
  | [] => d
  | r :: rs => lastValue r.2 rs

/-- Every breakpoint changes the value. -/
def Changes (d : β) : List (α × β) → Prop
  | [] => True
  | r :: rs => r.2 ≠ d ∧ Changes r.2 rs

variable (d : β)

@[simp] theorem lastValue_nil : lastValue d ([] : List (α × β)) = d := rfl

@[simp] theorem lastValue_cons (r : α × β) (rs : List (α × β)) :
    lastValue d (r :: rs) = lastValue r.2 rs := rfl

@[simp] theorem lastValue_append (rs ss : List (α × β)) :
    lastValue d (rs ++ ss) = lastValue (lastValue d rs) ss := by
  induction rs generalizing d with
  | nil => rfl
  | cons r rs ih => exact ih r.2

variable {rs : List (α × β)} {y : α}

theorem changes_append {d : β} {ss : List (α × β)} :
    Changes d (rs ++ ss) ↔ Changes d rs ∧ Changes (lastValue d rs) ss := by
  induction rs generalizing d with
  | nil => simp [Changes]
  | cons r rs ih => simp [Changes, ih, and_assoc]

variable [LinearOrder α]

/-- The value of a step list at `y`; `d` holds before the first breakpoint. -/
def valueAt (d : β) : List (α × β) → α → β
  | [], _ => d
  | r :: rs, y => if r.1 ≤ y then valueAt r.2 rs y else d

@[simp] theorem valueAt_nil (y : α) : valueAt d [] y = d := rfl

theorem valueAt_cons (r : α × β) (rs : List (α × β)) (y : α) :
    valueAt d (r :: rs) y = if r.1 ≤ y then valueAt r.2 rs y else d := rfl

theorem valueAt_cons_of_le {r : α × β} (rs : List (α × β)) (h : r.1 ≤ y) :
    valueAt d (r :: rs) y = valueAt r.2 rs y := if_pos h

theorem valueAt_of_lt (h : ∀ r ∈ rs, y < r.1) : valueAt d rs y = d := by
  cases rs with
  | nil => rfl
  | cons r rs => exact if_neg (not_le.mpr (h r mem_cons_self))

/-- Every value taken is the default or stands in the list. -/
theorem valueAt_mem (rs : List (α × β)) (y : α) :
    valueAt d rs y = d ∨ ∃ r ∈ rs, r.1 ≤ y ∧ valueAt d rs y = r.2 := by
  induction rs generalizing d with
  | nil => exact .inl rfl
  | cons r rs ih =>
    rw [valueAt_cons]
    split_ifs with hr
    · refine .inr ?_
      rcases ih r.2 with h | ⟨s, hs, hsy, hv⟩
      · exact ⟨r, mem_cons_self, hr, h⟩
      · exact ⟨s, mem_cons_of_mem _ hs, hsy, hv⟩
    · exact .inl rfl

/-- A breakpoint's value holds at the breakpoint, and on to any point that no later breakpoint has
reached. -/
theorem valueAt_of_mem {ss : List (α × β)} {r : α × β}
    (hs : (rs ++ r :: ss).Pairwise (fun a b => a.1 < b.1)) (hy : r.1 ≤ y)
    (hss : ∀ s ∈ ss, y < s.1) :
    valueAt d (rs ++ r :: ss) y = r.2 := by
  induction rs generalizing d with
  | nil => rw [nil_append, valueAt_cons_of_le d ss hy, valueAt_of_lt _ hss]
  | cons q qs ih =>
    rw [cons_append] at hs ⊢
    have hq : q.1 < r.1 := (pairwise_cons.mp hs).1 r (by simp)
    rw [valueAt_cons_of_le d _ (hq.le.trans hy)]
    exact ih q.2 (pairwise_cons.mp hs).2

theorem valueAt_of_forall_le (h : ∀ r ∈ rs, r.1 ≤ y) : valueAt d rs y = lastValue d rs := by
  induction rs generalizing d with
  | nil => rfl
  | cons r rs ih =>
    rw [valueAt_cons_of_le d rs (h r mem_cons_self), lastValue_cons]
    exact ih r.2 (forall_mem_cons.mp h).2

theorem valueAt_head (d : β) {r : α × β} {rs : List (α × β)}
    (h : (r :: rs).Pairwise fun a b => a.1 < b.1) : valueAt d (r :: rs) r.1 = r.2 := by
  rw [valueAt_cons_of_le _ _ le_rfl, valueAt_of_lt _ (pairwise_cons.mp h).1]

theorem le_of_valueAt_ne {d : β} {s : α × β} {ss : List (α × β)} {y : α}
    (h : valueAt d (s :: ss) y ≠ d) : s.1 ≤ y := by
  by_contra hlt
  exact h (if_neg hlt)

/-- Breakpoints that all change the value are determined by the values. -/
theorem eq_of_valueAt_eq {d : β} {rs ss : List (α × β)} (hr : rs.Pairwise fun a b => a.1 < b.1)
    (hs : ss.Pairwise fun a b => a.1 < b.1) (hcr : Changes d rs) (hcs : Changes d ss)
    (h : ∀ y, valueAt d rs y = valueAt d ss y) : rs = ss := by
  induction rs generalizing d ss with
  | nil =>
    cases ss with
    | nil => rfl
    | cons s ss => exact absurd ((h s.1).trans (valueAt_head d hs)).symm hcs.1
  | cons r rs ih =>
    cases ss with
    | nil => exact absurd ((h r.1).symm.trans (valueAt_head d hr)).symm hcr.1
    | cons s ss =>
      have h1 : r.1 = s.1 := le_antisymm
        (le_of_valueAt_ne (by rw [h, valueAt_head d hs]; exact hcs.1))
        (le_of_valueAt_ne (by rw [← h, valueAt_head d hr]; exact hcr.1))
      have h2 : r.2 = s.2 := by
        rw [← valueAt_head d hr, ← valueAt_head d hs, h r.1, h1]
      obtain rfl : r = s := Prod.ext h1 h2
      obtain ⟨hlr, hr⟩ := pairwise_cons.mp hr
      obtain ⟨hls, hs⟩ := pairwise_cons.mp hs
      rw [ih hr hs hcr.2 hcs.2 fun y => ?_]
      rcases le_or_gt r.1 y with hy | hy
      · rw [← valueAt_cons_of_le d _ hy, h y, valueAt_cons_of_le d _ hy]
      · rw [valueAt_of_lt _ fun s hs => hy.trans (hlr s hs),
          valueAt_of_lt _ fun s hs => hy.trans (hls s hs)]

end Steps

end Scanline
