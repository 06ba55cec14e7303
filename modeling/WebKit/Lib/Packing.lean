import Mathlib.Data.List.Basic

/-!
# Packing a list

Packing keeps the elements with a property, in their order. The new index of an element is its
rank: the number of elements before it that are kept. A position between elements has a rank, too.
-/

namespace Packing

open List

variable {α : Type*} (p : α → Bool)

/-- How many elements before the index are kept. -/
def rank (l : List α) (index : Nat) : Nat := (l.take index).countP p

variable {p} {l : List α} {a : α} {index : Nat}

@[simp] theorem rank_zero : rank p l 0 = 0 := rfl

theorem rank_cons_succ_of_pos (h : p a = true) :
    rank p (a :: l) (index + 1) = rank p l index + 1 := by
  rw [rank, take_succ_cons, countP_cons_of_pos h, rank]

theorem rank_cons_succ_of_neg (h : ¬p a = true) : rank p (a :: l) (index + 1) = rank p l index := by
  rw [rank, take_succ_cons, countP_cons_of_neg h, rank]

theorem getElem?_rank (ha : l[index]? = some a) (h : p a = true) :
    (l.filter p)[rank p l index]? = some a := by
  induction l generalizing index with
  | nil => cases ha
  | cons b l ih =>
    cases index with
    | zero =>
      cases ha
      rw [filter_cons_of_pos h]
      rfl
    | succ index =>
      by_cases hb : p b = true
      · rw [rank_cons_succ_of_pos hb, filter_cons_of_pos hb]
        exact ih ha
      · rw [rank_cons_succ_of_neg hb, filter_cons_of_neg hb]
        exact ih ha

/-- What stands in the packed list had the rank for its new index. -/
theorem exists_of_getElem?_filter (ha : (l.filter p)[index]? = some a) :
    ∃ old, l[old]? = some a ∧ rank p l old = index := by
  induction l generalizing index with
  | nil => cases ha
  | cons b l ih =>
    by_cases hb : p b = true
    · rw [filter_cons_of_pos hb] at ha
      cases index with
      | zero =>
        cases ha
        exact ⟨0, rfl, rfl⟩
      | succ index =>
        obtain ⟨old, hold, hrn⟩ := ih ha
        exact ⟨old + 1, hold, by rw [rank_cons_succ_of_pos hb, hrn]⟩
    · rw [filter_cons_of_neg hb] at ha
      obtain ⟨old, hold, hrn⟩ := ih ha
      exact ⟨old + 1, hold, by rw [rank_cons_succ_of_neg hb, hrn]⟩

theorem rank_le_length : rank p l index ≤ (l.filter p).length := by
  rw [rank, countP_eq_length_filter]
  exact ((take_sublist index l).filter p).length_le

theorem rank_mono {other : Nat} (h : index ≤ other) : rank p l index ≤ rank p l other :=
  (take_sublist_take_left h).countP_le

/-- What is kept stays before or behind a position. -/
theorem rank_lt_rank_iff {position : Nat} (ha : l[index]? = some a) (h : p a = true) :
    rank p l index < rank p l position ↔ index < position := by
  constructor
  · intro hlt
    by_contra hge
    exact Nat.not_lt_of_le (rank_mono (Nat.le_of_not_lt hge)) hlt
  · intro hlt
    have hnx : rank p l (index + 1) = rank p l index + 1 := by
      rw [rank, take_add_one, ha, countP_append, rank]
      simp [h]
    exact Nat.lt_of_lt_of_le (hnx ▸ Nat.lt_succ_self _) (rank_mono hlt)

end Packing
