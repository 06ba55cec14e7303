import Mathlib.Logic.Basic

/-!
# Runs of a machine

A machine is a step function: an event may be enabled in a state, and then it leads to one state.
Every choice that the machine does not make itself is in the list of events.

An invariant is proved by a step lemma (`invariant`), and so is an exact condition on the steps
(`allStates_iff_allSteps`).
-/

namespace Runs

variable {σ ε : Type*} (step : σ → ε → Option σ)

/-- The state after the events, if each of them is enabled in its turn. -/
def run (s : σ) : List ε → Option σ
  | [] => some s
  | e :: rest =>
    match step s e with
    | none => none
    | some s' => run s' rest

/-- Every state of the run from `s` has `P`. -/
def AllStates (P : σ → Prop) (s : σ) : List ε → Prop
  | [] => P s
  | e :: rest => P s ∧ ∀ s', step s e = some s' → AllStates P s' rest

/-- Every step of the run from `s` meets `C`. -/
def AllSteps (C : σ → ε → Prop) (s : σ) : List ε → Prop
  | [] => True
  | e :: rest => ∀ s', step s e = some s' → C s e ∧ AllSteps C s' rest

instance decidableAllSteps (C : σ → ε → Prop) [∀ s e, Decidable (C s e)] :
    ∀ (s : σ) (events : List ε), Decidable (AllSteps step C s events)
  | _, [] => isTrue trivial
  | s, e :: rest =>
    match h : step s e with
    | none => isTrue fun s' hs' => by cases h.symm.trans hs'
    | some s' =>
      have := decidableAllSteps C s' rest
      decidable_of_iff (C s e ∧ AllSteps step C s' rest) (by simp [AllSteps, h])

variable {step} {P Inv : σ → Prop} {C : σ → ε → Prop} {s t : σ} {events : List ε}

theorem run_nil : run step s [] = some s := rfl

theorem run_cons {e : ε} {rest : List ε} :
    run step s (e :: rest) = some t ↔ ∃ s', step s e = some s' ∧ run step s' rest = some t := by
  rw [run]
  cases step s e with
  | none => simp
  | some s' => simp

theorem run_append {rest : List ε} {u : σ} (h : run step s events = some t)
    (hrest : run step t rest = some u) : run step s (events ++ rest) = some u := by
  induction events generalizing s with
  | nil => exact Option.some.inj h ▸ hrest
  | cons e events ih =>
    obtain ⟨s', hs', hevents⟩ := run_cons.mp h
    exact run_cons.mpr ⟨s', hs', ih hevents⟩

theorem AllStates.head (h : AllStates step P s events) : P s := by
  cases events with
  | nil => exact h
  | cons e rest => exact h.1

/-- The last state is one of the states. -/
theorem AllStates.last (h : AllStates step P s events) (hr : run step s events = some t) : P t := by
  induction events generalizing s with
  | nil => exact Option.some.inj hr ▸ h
  | cons e rest ih =>
    obtain ⟨s', hs', hrest⟩ := run_cons.mp hr
    exact ih (h.2 s' hs') hrest

theorem AllStates.mono {Q : σ → Prop} (hPQ : ∀ s, P s → Q s) (h : AllStates step P s events) :
    AllStates step Q s events := by
  induction events generalizing s with
  | nil => exact hPQ s h
  | cons e rest ih => exact ⟨hPQ s h.1, fun s' hs' => ih (h.2 s' hs')⟩

/-- **Invariants.** What every step keeps holds in every state. -/
theorem invariant (hst : ∀ s e s', Inv s → step s e = some s' → Inv s') (h : Inv s)
    (events : List ε) : AllStates step Inv s events := by
  induction events generalizing s with
  | nil => exact h
  | cons e rest ih => exact ⟨h, fun s' hs' => ih (hst s e s' h hs')⟩

/-- What every step keeps that meets the condition. -/
theorem invariant_of_allSteps
    (hst : ∀ s e s', Inv s → C s e → step s e = some s' → Inv s') (h : Inv s)
    (hss : AllSteps step C s events) : AllStates step Inv s events := by
  induction events generalizing s with
  | nil => exact h
  | cons e rest ih =>
    refine ⟨h, fun s' hs' => ?_⟩
    obtain ⟨hc, hrest⟩ := hss s' hs'
    exact ih (hst s e s' h hc hs') hrest

/-- Conditions that are the same in the states that are reached by steps that meet the first. -/
theorem allSteps_congr {D : σ → ε → Prop}
    (hi : ∀ s e s', Inv s → C s e → step s e = some s' → Inv s')
    (hst : ∀ s e s', Inv s → step s e = some s' → (C s e ↔ D s e)) (h : Inv s) :
    AllSteps step C s events ↔ AllSteps step D s events := by
  induction events generalizing s with
  | nil => exact Iff.rfl
  | cons e rest ih =>
    refine forall₂_congr fun s' hs' => ?_
    rw [← hst s e s' h hs']
    exact and_congr_right fun hc => ih (hi s e s' h hc hs')

/-- **Exact conditions.** If a step from a state with the property keeps it exactly when it meets
the condition, all states of a run have the property exactly when all steps meet the condition. -/
theorem allStates_iff_allSteps_of (hi : ∀ s e s', Inv s → P s → step s e = some s' → Inv s')
    (hst : ∀ s e s', Inv s → P s → step s e = some s' → (P s' ↔ C s e))
    (h : Inv s) (hP : P s) : AllStates step P s events ↔ AllSteps step C s events := by
  induction events generalizing s with
  | nil => exact ⟨fun _ => trivial, fun _ => hP⟩
  | cons e rest ih =>
    constructor
    · intro ha s' hs'
      have hrest := ha.2 s' hs'
      have hP' := hrest.head
      exact ⟨(hst s e s' h hP hs').mp hP', (ih (hi s e s' h hP hs') hP').mp hrest⟩
    · intro ha
      refine ⟨hP, fun s' hs' => ?_⟩
      obtain ⟨hc, hrest⟩ := ha s' hs'
      have hP' := (hst s e s' h hP hs').mpr hc
      exact (ih (hi s e s' h hP hs') hP').mpr hrest

/-- Exact conditions, for an invariant that every step keeps. -/
theorem allStates_iff_allSteps (hi : ∀ s e s', Inv s → step s e = some s' → Inv s')
    (hst : ∀ s e s', Inv s → P s → step s e = some s' → (P s' ↔ C s e))
    (h : Inv s) (hP : P s) : AllStates step P s events ↔ AllSteps step C s events :=
  allStates_iff_allSteps_of (fun s e s' h _ hs' => hi s e s' h hs') hst h hP

end Runs
