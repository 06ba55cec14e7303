import Mathlib.Data.List.Basic
import Mathlib.Data.List.GetD

/-!
# Vectors as lists

Reading and writing a list by position, and runs of consecutive positions of it.
-/

namespace Vectors

open List

/-! ## Positions -/

variable {α : Type*} {l : List α} {i : Nat}

theorem getElem?_concat {a b : α} :
    (l ++ [a])[i]? = some b ↔ l[i]? = some b ∨ i = l.length ∧ a = b := by
  rw [getElem?_append, getElem?_singleton]
  split
  next hlt => simp [Nat.ne_of_lt hlt]
  next hge =>
    have hz : i - l.length = 0 ↔ i = l.length := by omega
    simp [getElem?_eq_none (Nat.not_lt.mp hge), hz]

theorem lt_of_getElem? {a : α} (h : l[i]? = some a) :
    i < l.length := (List.getElem?_eq_some_iff.mp h).1

theorem getD_set_of_lt (hi : i < l.length) (a : α) (k : Nat) (d : α) :
    (l.set i a).getD k d = if k = i then a else l.getD k d := by
  by_cases hk : k = i
  · subst hk
    rw [if_pos rfl, getD_eq_getElem?_getD, getElem?_set_self hi]
    rfl
  · rw [if_neg hk, getD_eq_getElem?_getD, getElem?_set_ne (Ne.symm hk), getD_eq_getElem?_getD]

theorem getD_concat (l : List α) (a : α) (k : Nat) (d : α) :
    (l ++ [a]).getD k d = if k = l.length then a else l.getD k d := by
  rw [getD_eq_getElem?_getD, getD_eq_getElem?_getD, getElem?_append, getElem?_singleton]
  split
  next hlt => rw [if_neg (Nat.ne_of_lt hlt)]
  next hge =>
    have hz : k - l.length = 0 ↔ k = l.length := by omega
    simp only [getElem?_eq_none (Nat.not_lt.mp hge), hz]
    split <;> rfl

theorem length_foldl_modify {β : Type*} (pos : β → Nat) (f : List α → β → α) (bs : List β)
    (l : List α) : (bs.foldl (fun l b => l.set (pos b) (f l b)) l).length = l.length := by
  induction bs generalizing l with
  | nil => rfl
  | cons b rest ih => rw [foldl_cons, ih, length_set]

variable (poss : List Nat)

theorem length_foldl_set (l : List α) (a : α) :
    (poss.foldl (fun l i => l.set i a) l).length = l.length :=
  length_foldl_modify id (fun _ _ => a) poss l

theorem getElem?_foldl_set (l : List α) (a : α) {k : Nat} (hk : k < l.length) :
    (poss.foldl (fun l i => l.set i a) l)[k]? = if k ∈ poss then some a else l[k]? := by
  induction poss generalizing l with
  | nil => simp
  | cons i rest ih =>
    rw [foldl_cons, ih _ (by rwa [length_set])]
    by_cases hi : i = k
    · subst hi
      simp [hk]
    · simp [mem_cons, Ne.symm hi, getElem?_set_ne hi]

theorem getD_foldl_set (l : List α) (a : α) (k : Nat) (d : α) (h : ∀ i ∈ poss, i < l.length) :
    (poss.foldl (fun l i => l.set i a) l).getD k d = if k ∈ poss then a else l.getD k d := by
  rw [getD_eq_getElem?_getD, getD_eq_getElem?_getD]
  by_cases hk : k < l.length
  · rw [getElem?_foldl_set poss l a hk]
    split <;> rfl
  · rw [if_neg (fun hm => hk (h k hm)), getElem?_eq_none (Nat.not_lt.mp hk),
      getElem?_eq_none (by rw [length_foldl_set]; omega)]

theorem getElem?_foldl_set_of_notMem (l : List α) (a : α) {k : Nat}
    (hk : k ∉ poss) : (poss.foldl (fun l i => l.set i a) l)[k]? = l[k]? := by
  by_cases hlt : k < l.length
  · rw [getElem?_foldl_set poss l a hlt, if_neg hk]
  · rw [getElem?_eq_none (Nat.not_lt.mp hlt), getElem?_eq_none (by rw [length_foldl_set]; omega)]

theorem getElem?_foldl_modify (f : α → α) (d : α) (poss : List Nat) (hnd : poss.Nodup)
    (l : List α) (k : Nat) :
    (poss.foldl (fun l i => l.set i (f (l.getD i d))) l)[k]? =
      if k ∈ poss then l[k]?.map f else l[k]? := by
  induction poss generalizing l with
  | nil => simp
  | cons i rest ih =>
    obtain ⟨hi, hrest⟩ := nodup_cons.mp hnd
    rw [foldl_cons, ih hrest]
    by_cases hki : k = i
    · subst hki
      rw [if_neg hi, if_pos mem_cons_self]
      by_cases hk : k < l.length
      · rw [getElem?_set_self hk, getElem?_eq_getElem hk, Option.map_some, getD_eq_getElem _ _ hk]
      · rw [getElem?_eq_none (by rw [length_set]; omega), getElem?_eq_none (Nat.not_lt.mp hk)]
        rfl
    · rw [getElem?_set_ne (Ne.symm hki)]
      by_cases hk : k ∈ rest
      · rw [if_pos hk, if_pos (mem_cons_of_mem i hk)]
      · rw [if_neg hk, if_neg (fun hm => (mem_cons.mp hm).elim hki hk)]

/-! ## Slices -/

/-- The elements of a vector from `start` on, `length` of them. -/
def slice {α : Type*} (l : List α) (start length : Nat) : List α := (l.drop start).take length

theorem slice_append_left {m : List α} {sta length : Nat} (h : sta + length ≤ l.length) :
    slice (l ++ m) sta length = slice l sta length := by
  unfold slice
  rw [drop_append_of_le_length (by omega), take_append_of_le_length]
  rw [length_drop]
  omega

theorem slice_append_right (l m : List α) : slice (l ++ m) l.length m.length = m := by
  unfold slice
  rw [drop_left, take_length]

theorem slice_take {sta len n : Nat} (h : n ≤ len) : slice l sta n = (slice l sta len).take n := by
  unfold slice
  rw [take_take, Nat.min_eq_left h]

theorem getElem?_slice (l : List α) (sta len k : Nat) :
    (slice l sta len)[k]? = if k < len then l[sta + k]? else none := by
  unfold slice
  rw [getElem?_take]
  split
  · rw [getElem?_drop]
  · rfl

theorem length_slice {sta length : Nat} (h : sta + length ≤ l.length) :
    (slice l sta length).length = length := by
  unfold slice
  rw [length_take, length_drop]
  omega

theorem slice_sublist (l : List α) (sta len : Nat) :
    (slice l sta len).Sublist l := (take_sublist _ _).trans (drop_sublist _ _)

theorem mem_slice_iff {sta len : Nat} {a : α} :
    a ∈ slice l sta len ↔ ∃ i, sta ≤ i ∧ i < sta + len ∧ l[i]? = some a := by
  unfold slice
  rw [mem_iff_getElem?]
  constructor
  · rintro ⟨k, hk⟩
    rw [getElem?_take] at hk
    split at hk
    case isTrue hlt =>
      rw [getElem?_drop] at hk
      exact ⟨sta + k, by omega, by omega, hk⟩
    case isFalse => cases hk
  · rintro ⟨i, hs, hst, hi⟩
    refine ⟨i - sta, ?_⟩
    rw [getElem?_take, if_pos (by omega), getElem?_drop, Nat.add_sub_cancel' hs]
    exact hi

end Vectors
