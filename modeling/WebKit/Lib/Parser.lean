import Mathlib.Logic.Basic

/-!
# Parsers

A parser reads from a state. It stops with a fault, or it returns: a value, or nothing if the input
is not what it expects.

`Safe` is the rule for input of any kind: faults are of a kind that is allowed, an invariant is
kept, and a parser that returns nothing says so in the state. `Reads` is the rule for input that
was written for the parser: it reads it and returns the value.
-/

namespace Parsing

/-- A parser over states `σ` with faults `φ`. -/
def Parser (φ σ α : Type) : Type := σ → Except φ (Option α × σ)

namespace Parser

variable {φ σ α β : Type}

/-- Go on with the value, if there is one. -/
def andThen (f : Parser φ σ α) (g : α → Parser φ σ β) : Parser φ σ β := fun s =>
  match f s with
  | .error e => .error e
  | .ok (none, s') => .ok (none, s')
  | .ok (some a, s') => g a s'

instance : Monad (Parser φ σ) where
  pure a := fun s => .ok (some a, s)
  bind := andThen

/-- Go on also if nothing is returned. -/
def attempt (f : Parser φ σ α) : Parser φ σ (Option α) := fun s =>
  match f s with
  | .error e => .error e
  | .ok (r, s') => .ok (some r, s')

def fault (e : φ) : Parser φ σ α := fun _ => .error e

/-- Return nothing, in a state that says so. -/
def fail (mark : σ → σ) : Parser φ σ α := fun s => .ok (none, mark s)

variable {f : Parser φ σ α} {s : σ} {a : α} {R : σ → σ → Prop}

theorem bind_some {s' : σ} (h : f s = .ok (some a, s')) (g : α → Parser φ σ β) :
    (f >>= g) s = g a s' := by
  show andThen f g s = g a s'
  unfold andThen
  rw [h]

theorem bind_none {s' : σ} (h : f s = .ok (none, s')) (g : α → Parser φ σ β) :
    (f >>= g) s = .ok (none, s') := by
  show andThen f g s = .ok (none, s')
  unfold andThen
  rw [h]

theorem bind_error {e : φ} (h : f s = .error e) (g : α → Parser φ σ β) :
    (f >>= g) s = .error e := by
  show andThen f g s = .error e
  unfold andThen
  rw [h]

/-! ## Input of any kind -/

section Safe

variable (E : φ → Prop) (I F : σ → Prop)

/-- From a state with `I`, faults are in `E`, the next state has `I`, a value has `Q`, and a state
after nothing has `F`. -/
structure Safe (f : Parser φ σ α) (Q : α → Prop) : Prop where
  faults : ∀ s e, I s → f s = .error e → E e
  nothing : ∀ s s', I s → f s = .ok (none, s') → I s' ∧ F s'
  value : ∀ s a s', I s → f s = .ok (some a, s') → I s' ∧ Q a

/-- What a parser that is `Safe` may end in. -/
def SafeResult (Q : α → Prop) : Except φ (Option α × σ) → Prop
  | .error e => E e
  | .ok (none, s') => I s' ∧ F s'
  | .ok (some a, s') => I s' ∧ Q a

variable {E I F} {f : Parser φ σ α} {Q : α → Prop}

theorem Safe.result (h : Safe E I F f Q) {s : σ} (hs : I s) : SafeResult E I F Q (f s) := by
  cases hfs : f s with
  | error e => exact h.faults s e hs hfs
  | ok r =>
    obtain ⟨_ | a, s'⟩ := r
    · exact h.nothing s s' hs hfs
    · exact h.value s a s' hs hfs

theorem Safe.of_result (h : ∀ s, I s → SafeResult E I F Q (f s)) : Safe E I F f Q := by
  have hres : ∀ {s r}, I s → f s = r → SafeResult E I F Q r := fun hs hfs => hfs ▸ h _ hs
  exact ⟨fun _ _ hs hfs => hres hs hfs, fun _ _ hs hfs => hres hs hfs,
    fun _ _ _ hs hfs => hres hs hfs⟩

theorem Safe.mono {Q' : α → Prop} (h : Safe E I F f Q) (hQ : ∀ a, Q a → Q' a) : Safe E I F f Q' :=
  ⟨h.faults, h.nothing, fun s a s' hs hf => (h.value s a s' hs hf).imp_right (hQ a)⟩

theorem Safe.pure {a : α} (h : Q a) : Safe E I F (pure a) Q :=
  .of_result fun _ hs => ⟨hs, h⟩

theorem Safe.bind {g : α → Parser φ σ β} {Q' : β → Prop} (hf : Safe E I F f Q)
    (hg : ∀ a, Q a → Safe E I F (g a) Q') : Safe E I F (f >>= g) Q' := by
  refine .of_result fun s hs => ?_
  have hr := hf.result hs
  cases hfs : f s with
  | error e =>
    rw [hfs] at hr
    rw [bind_error hfs]
    exact hr
  | ok r =>
    rw [hfs] at hr
    obtain ⟨_ | a, s₁⟩ := r
    · rw [bind_none hfs]
      exact hr
    · rw [bind_some hfs]
      exact (hg a hr.2).result hr.1

theorem Safe.attempt (h : Safe E I F f Q) :
    Safe E I F (Parser.attempt f) (fun r => ∀ a ∈ r, Q a) := by
  refine .of_result fun s hs => ?_
  have hr := h.result hs
  unfold Parser.attempt
  cases hfs : f s with
  | error e =>
    rw [hfs] at hr
    exact hr
  | ok r =>
    rw [hfs] at hr
    obtain ⟨_ | a, s₁⟩ := r
    · exact ⟨hr.1, by simp⟩
    · exact ⟨hr.1, by simpa using hr.2⟩

theorem Safe.fault {e : φ} (he : E e) : Safe E I F (Parser.fault e : Parser φ σ α) Q :=
  .of_result fun _ _ => he

theorem Safe.fail {mark : σ → σ} (hmr : ∀ s, I s → I (mark s) ∧ F (mark s)) :
    Safe E I F (Parser.fail mark : Parser φ σ α) Q :=
  .of_result hmr

end Safe

/-- From a state with `F` the parser returns nothing and keeps `F`. -/
def FailsOn (F : σ → Prop) (f : Parser φ σ α) : Prop :=
  ∀ s, F s → ∃ s', f s = .ok (none, s') ∧ F s'

theorem FailsOn.bind {F : σ → Prop} (h : FailsOn F f) (g : α → Parser φ σ β) :
    FailsOn F (f >>= g) := by
  intro s hs
  obtain ⟨s', hfs, hs'⟩ := h s hs
  exact ⟨s', bind_none hfs g, hs'⟩

/-! ## Input that was written for the parser -/

/-- Between states that `R` relates, the parser goes from the first to the second and returns `a`.
-/
def Reads (R : σ → σ → Prop) (f : Parser φ σ α) (a : α) : Prop :=
  ∀ s s', R s s' → f s = .ok (some a, s')

theorem Reads.bind {R₁ R₂ : σ → σ → Prop} {g : α → Parser φ σ β} {b : β}
    (hR : ∀ s s', R s s' → ∃ s₁, R₁ s s₁ ∧ R₂ s₁ s') (hf : Reads R₁ f a) (hg : Reads R₂ (g a) b) :
    Reads R (f >>= g) b := by
  intro s s' hs
  obtain ⟨s₁, h₁, h₂⟩ := hR s s' hs
  rw [bind_some (hf s s₁ h₁)]
  exact hg s₁ s' h₂

theorem Reads.peek {g : α → Parser φ σ β} {b : β} (hf : ∀ s s', R s s' → f s = .ok (some a, s))
    (hg : Reads R (g a) b) :
    Reads R (f >>= g) b := by
  intro s s' hs
  rw [bind_some (hf s s' hs)]
  exact hg s s' hs

theorem Reads.attempt (hf : Reads R f a) : Reads R (Parser.attempt f) (some a) := by
  intro s s' hs
  unfold Parser.attempt
  rw [hf s s' hs]

theorem Reads.map (hf : Reads R f a) (g : α → β) : Reads R (f >>= fun a => pure (g a)) (g a) := by
  intro s s' hs
  rw [bind_some (hf s s' hs)]
  rfl

end Parser

end Parsing
