import Mathlib.Logic.Function.Basic

/-!
# Threads

Threads, each at a place of its program. The lemmas say what a move of a thread does to statements
of the form "exactly this thread is at such a place" and "some thread is at such a place".
-/

namespace Threads

open Function

variable {Thread Place : Type*} {At : Place → Prop} {place : Thread → Place}
  {owner : Option Thread} {t u : Thread} {p : Place}

/-- Exactly the owner, if there is one, is at a place of this kind. -/
def Owner (At : Place → Prop) (place : Thread → Place) (owner : Option Thread) : Prop :=
  ∀ t, At (place t) ↔ owner = some t

theorem Owner.unique (h : Owner At place owner) (ht : At (place t)) (hu : At (place u)) : t = u :=
  Option.some.inj (((h t).mp ht).symm.trans ((h u).mp hu))

theorem Owner.eq (h : Owner At place owner) (ht : At (place t)) : owner = some t := (h t).mp ht

/-- A thread has moved, and no other one. -/
structure Moved (place place' : Thread → Place) (t : Thread) (p : Place) : Prop where
  self : place' t = p
  others : ∀ u ≠ t, place' u = place u

variable {place' : Thread → Place} {P : Place → Prop}

section

variable (h : Moved place place' t p)

include h

theorem Moved.all (hp : P p) (ha : ∀ u, P (place u)) (u : Thread) : P (place' u) := by
  by_cases heq : u = t
  · rw [heq, h.self]
    exact hp
  · rw [h.others u heq]
    exact ha u

theorem Moved.iff (hp : P p ↔ P (place t)) (u : Thread) : P (place' u) ↔ P (place u) := by
  by_cases heq : u = t
  · rw [heq, h.self, hp]
  · rw [h.others u heq]

/-- What holds of the new and the old place of each thread. -/
theorem Moved.rel {R : Thread → Place → Place → Prop} (hrf : ∀ u q, R u q q)
    (hp : R t p (place t)) (u : Thread) : R u (place' u) (place u) := by
  by_cases heq : u = t
  · rw [heq, h.self]
    exact hp
  · rw [h.others u heq]
    exact hrf u _

theorem Moved.split (hu : P (place' u)) : (u = t ∧ P p) ∨ (u ≠ t ∧ P (place u)) := by
  by_cases heq : u = t
  · rw [heq, h.self] at hu
    exact .inl ⟨heq, hu⟩
  · rw [h.others u heq] at hu
    exact .inr ⟨heq, hu⟩

theorem Moved.back (hp : ¬P p) (hu : P (place' u)) : u ≠ t ∧ P (place u) :=
  (h.split hu).resolve_left fun hu => hp hu.2

theorem Moved.forth (ht : ¬P (place t)) (hu : P (place u)) : P (place' u) := by
  rwa [h.others u]
  rintro rfl
  exact ht hu

end

variable {α : Type*} {f : Place → Option α} {a : α}

/-- What is known of a place after the move is known of the new place, or was known before. -/
theorem Moved.cases (h : Moved place place' t p) (hu : f (place' u) = some a) :
    (u = t ∧ f p = some a) ∨ (u ≠ t ∧ f (place u) = some a) :=
  h.split (P := fun p => f p = some a) hu

theorem Moved.old (h : Moved place place' t p) (hp : f p = none) (hu : f (place' u) = some a) :
    u ≠ t ∧ f (place u) = some a :=
  h.back (P := fun p => f p = some a) (by simp [hp]) hu

variable [DecidableEq Thread]

theorem Owner.move (h : Owner At place owner) (hp : At p ↔ At (place t)) :
    Owner At (update place t p) owner := by
  intro v
  by_cases hv : v = t
  · rw [hv, update_self, hp]
    exact h t
  · rw [update_of_ne hv]
    exact h v

theorem Owner.acquire (h : Owner At place none) (hp : At p) :
    Owner At (update place t p) (some t) := by
  intro v
  by_cases hv : v = t
  · rw [hv, update_self]
    exact iff_of_true hp rfl
  · rw [update_of_ne hv]
    refine iff_of_false (fun hat => ?_) fun heq => hv (Option.some.inj heq).symm
    exact absurd ((h v).mp hat) (by simp)

theorem Owner.release (h : Owner At place owner) (ht : At (place t)) (hp : ¬ At p) :
    Owner At (update place t p) none := by
  intro v
  refine iff_of_false (fun hat => ?_) (by simp)
  by_cases hv : v = t
  · rw [hv, update_self] at hat
    exact hp hat
  · rw [update_of_ne hv] at hat
    exact hv (h.unique hat ht)

theorem moved_update (place : Thread → Place) (t : Thread) (p : Place) :
    Moved place (update place t p) t p :=
  ⟨update_self .., fun _ hu => update_of_ne hu ..⟩

/-- A move away from a place of this kind only if it is not the last thread there. -/
theorem exists_move (h : ∃ v, At (place v)) (hp : At (place t) → At p) :
    ∃ v, At (update place t p v) := by
  obtain ⟨v, hv⟩ := h
  by_cases heq : v = t
  · exact ⟨t, by rw [update_self]; exact hp (heq ▸ hv)⟩
  · exact ⟨v, by rw [update_of_ne heq]; exact hv⟩

theorem exists_moved (hp : At p) : ∃ v, At (update place t p v) :=
  ⟨t, by rw [update_self]; exact hp⟩

end Threads
