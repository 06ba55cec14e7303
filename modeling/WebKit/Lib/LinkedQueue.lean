import Mathlib.Data.List.Nodup

/-!
# Linked queues

A queue whose nodes point to the next node. `Linked next l` says that the nodes from the first of
`l` on, along the pointers, are those of `l`, and that the last one has no next node.
-/

namespace LinkedQueue

variable {α : Type*} {next next' : α → Option α} {l : List α} {x y : α}

def Linked (next : α → Option α) : List α → Prop
  | [] => True
  | x :: rest => next x = rest.head? ∧ Linked next rest

/-- Only the pointers of the nodes matter. -/
theorem Linked.congr (h : Linked next l) (heq : ∀ x ∈ l, next' x = next x) : Linked next' l := by
  induction l with
  | nil => trivial
  | cons x rest ih =>
    refine ⟨?_, ih h.2 fun y hy => heq y (List.mem_cons_of_mem x hy)⟩
    rw [heq x List.mem_cons_self]
    exact h.1

theorem Linked.append (h : Linked next l) (hls : l.getLast? = some x) (hx : next' x = some y)
    (hy : next' y = none) (hots : ∀ z ∈ l, z ≠ x → next' z = next z) (hnd : l.Nodup) :
    Linked next' (l ++ [y]) := by
  induction l with
  | nil => cases hls
  | cons z rest ih =>
    obtain ⟨hz, hnd⟩ := List.nodup_cons.mp hnd
    cases rest with
    | nil =>
      obtain rfl : z = x := by simpa using hls
      exact ⟨hx, hy, trivial⟩
    | cons w rest =>
      have hls' : (w :: rest).getLast? = some x := by simpa using hls
      have hne : z ≠ x := fun heq => hz (heq ▸ List.mem_of_getLast? hls')
      refine ⟨?_, ih h.2 hls' (fun v hv => hots v (List.mem_cons_of_mem z hv)) hnd⟩
      rw [hots z List.mem_cons_self hne]
      exact h.1

theorem linked_singleton (hx : next x = none) : Linked next [x] := ⟨hx, trivial⟩

end LinkedQueue
