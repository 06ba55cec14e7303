import Mathlib.Computability.Language
import Mathlib.Order.ConditionallyCompleteLattice.Basic
import Mathlib.Order.CompletePartialOrder

/-!
# Languages of paths

Labelled steps between nodes, where a step without a label reads nothing. The strings that lead
from one node to another are bounded by languages for all nodes that each step respects.
-/

namespace Paths

variable {σ α : Type*}

/-- The string leads to the node `t`. -/
inductive Path (R : σ → Option α → σ → Prop) (t : σ) : σ → List α → Prop
  | nil : Path R t t []
  | step {u v : σ} {l : Option α} {w : List α} :
      R u l v → Path R t v w → Path R t u (l.toList ++ w)

/-- The step from `s` to `t` without a label. -/
def Epsilon (s t : σ) (u : σ) (l : Option α) (v : σ) : Prop := u = s ∧ l = none ∧ v = t

/-- A string of the end of a step is one of its start, with the label before it. -/
def Respects (R : σ → Option α → σ → Prop) (K : σ → Language α) : Prop :=
  ∀ u l v, R u l v → ∀ w ∈ K v, l.toList ++ w ∈ K u

variable {R R₁ R₂ : σ → Option α → σ → Prop} {K K' : σ → Language α} {s t m u : σ} {w w' : List α}

theorem Path.mono (hle : R₁ ≤ R₂) (h : Path R₁ t u w) : Path R₂ t u w := by
  induction h with
  | nil => exact .nil
  | step hst _ ih => exact .step (hle _ _ _ hst) ih

theorem Path.append (h : Path R m u w) (h' : Path R t m w') : Path R t u (w ++ w') := by
  induction h with
  | nil => exact h'
  | step hst _ ih =>
    rw [List.append_assoc]
    exact .step hst ih

theorem Path.epsilon (h : R u none m) (h' : Path R t m w) : Path R t u w := .step h h'

theorem Path.mem (hK : Respects R K) (hnil : [] ∈ K t) (h : Path R t u w) : w ∈ K u := by
  induction h with
  | nil => exact hnil
  | step hst _ ih => exact hK _ _ _ hst _ ih

theorem Respects.sup (h₁ : Respects R₁ K) (h₂ : Respects R₂ K) : Respects (R₁ ⊔ R₂) K :=
  fun u l v hst => hst.elim (h₁ u l v) (h₂ u l v)

theorem respects_epsilon (h : K t ≤ K s) : Respects (Epsilon s t) K := by
  rintro _ _ _ ⟨rfl, rfl, rfl⟩ w hw
  exact h hw

theorem Respects.congr (h : Respects R K) (heq : ∀ u l v, R u l v → K' u = K u ∧ K' v = K v) :
    Respects R K' := by
  intro u l v hst w hw
  obtain ⟨hu, hv⟩ := heq u l v hst
  rw [hu]
  exact h u l v hst w (hv ▸ hw)

end Paths
