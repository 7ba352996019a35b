import Mathlib.Data.List.Basic

/-!
# Guarded transition systems

A system is an executable step function `step : σ → ℓ → Option σ`: `some` of the
next state when the label is enabled, `none` otherwise.  `Reach step ok` is
reachability through steps that all meet a condition `ok` on the state before the
step and on its label; `fun _ _ => True` gives plain reachability.  The invariant
rule `Reach.invariant` is the only induction later modules use.
-/

namespace Transition

variable {σ ℓ : Type*} {step : σ → ℓ → Option σ} {ok k : σ → ℓ → Prop}

/-- The states reached from `s` by steps that all meet `ok`. -/
inductive Reach (step : σ → ℓ → Option σ) (ok : σ → ℓ → Prop) (s : σ) : σ → Prop
  | refl : Reach step ok s s
  | tail {t u : σ} (a : ℓ) : Reach step ok s t → ok t a → step t a = some u →
      Reach step ok s u

/-- Replay a list of labels; `none` if one of them is not enabled. -/
def replay (step : σ → ℓ → Option σ) : σ → List ℓ → Option σ
  | s, [] => some s
  | s, a :: labels => (step s a).bind fun t => replay step t labels

/-- An invariant that every admitted step preserves holds in every state reached. -/
theorem Reach.invariant {P : σ → Prop} {s t : σ} (h : Reach step ok s t) (hinit : P s)
    (hstep : ∀ s a u, P s → ok s a → step s a = some u → P u) : P t := by
  induction h with
  | refl => exact hinit
  | tail a _ hok hs ih => exact hstep _ a _ ih hok hs

theorem Reach.mono {s t : σ} (h : Reach step ok s t) (hle : ∀ s a, ok s a → k s a) :
    Reach step k s t := by
  induction h with
  | refl => exact .refl
  | tail a _ hok hs ih => exact .tail a ih (hle _ _ hok) hs

theorem Reach.trans {s t u : σ} (h : Reach step ok s t) (h' : Reach step ok t u) :
    Reach step ok s u := by
  induction h' with
  | refl => exact h
  | tail a _ hok hs ih => exact .tail a ih hok hs

theorem Reach.head {s t u : σ} (a : ℓ) (hok : ok s a) (hs : step s a = some t)
    (h : Reach step ok t u) : Reach step ok s u :=
  (Reach.tail a .refl hok hs).trans h

/-- A step function with a check before each step. -/
def checked (step : σ → ℓ → Option σ) (check : σ → ℓ → Bool) (s : σ) (a : ℓ) : Option σ :=
  if check s a then step s a else none

/-- A replay of checked steps that succeeds is a run of such steps. -/
theorem reach_of_checked {check : σ → ℓ → Bool} {s t : σ} (labels : List ℓ)
    (h : replay (checked step check) s labels = some t) :
    Reach step (fun s a => check s a = true) s t := by
  induction labels generalizing s with
  | nil =>
    obtain rfl : s = t := by simpa [replay] using h
    exact .refl
  | cons a labels ih =>
    obtain ⟨u, hu, hrest⟩ := Option.bind_eq_some_iff.mp h
    obtain ⟨hcheck, hstep⟩ : check s a = true ∧ step s a = some u := by
      simpa [checked] using hu
    exact Reach.head a hcheck hstep (ih hrest)

theorem reach_of_replay {s t : σ} (labels : List ℓ) (h : replay step s labels = some t) :
    Reach step (fun _ _ => True) s t := by
  have hchecked : checked step (fun _ _ => true) = step := by
    funext s a
    simp [checked]
  rw [← hchecked] at h
  exact (reach_of_checked labels h).mono fun _ _ _ => trivial

end Transition
