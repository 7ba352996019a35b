import Lwt.Library.Transition
import Lwt.Promise.Api

/-!
# Scripts: runs given by the moves of the user

The steps of the library itself are determined, so a run is given by the moves of the user
alone.  `script` replays one and is used for the concrete runs of later modules; what it
reaches is reached by `step` (`reach_script`).
-/

namespace Lwt

open Transition

variable {U : Type} {check : Config U → Label U → Bool}

/-- A step that is checked first. -/
def checkedStep (check : Config U → Label U → Bool) (c : Config U) (a : Label U) :
    Option (Config U) :=
  if check c a then step c a else none

/-- Steps of the library until the user is to move, `fuel` at most. -/
def settle (check : Config U → Label U → Bool) : ℕ → Config U → Config U
  | 0, c => c
  | fuel + 1, c =>
    match checkedStep check c .tau with
    | some c' => settle check fuel c'
    | none => c

/-- The moves of the user in turn, each after the library has come to rest. -/
def script (check : Config U → Label U → Bool) (fuel : ℕ) :
    Config U → List (Move U) → Option (Config U)
  | c, [] => some (settle check fuel c)
  | c, m :: moves =>
    (checkedStep check (settle check fuel c) (.move m)).bind fun c' => script check fuel c' moves

theorem checkedStep_eq_some {c c' : Config U} {a : Label U}
    (h : checkedStep check c a = some c') : check c a = true ∧ step c a = some c' := by
  unfold checkedStep at h
  split at h
  · rename_i hcheck
    exact ⟨hcheck, h⟩
  · simp at h

theorem reach_settle (fuel : ℕ) (c : Config U) :
    Reach step (fun c a => check c a = true) c (settle check fuel c) := by
  induction fuel generalizing c with
  | zero => exact .refl
  | succ fuel ih =>
    rw [settle]
    split
    · rename_i c' hstep
      obtain ⟨hcheck, hstep⟩ := checkedStep_eq_some hstep
      exact Reach.head .tau hcheck hstep (ih c')
    · exact .refl

theorem reach_script {fuel : ℕ} {c c' : Config U} {moves : List (Move U)}
    (h : script check fuel c moves = some c') :
    Reach step (fun c a => check c a = true) c c' := by
  induction moves generalizing c with
  | nil =>
    obtain rfl : settle check fuel c = c' := by simpa [script] using h
    exact reach_settle fuel c
  | cons m moves ih =>
    obtain ⟨c₁, hstep, hrest⟩ := Option.bind_eq_some_iff.mp h
    obtain ⟨hcheck, hstep⟩ := checkedStep_eq_some hstep
    exact (reach_settle fuel c).trans (Reach.head (.move m) hcheck hstep (ih hrest))

theorem exists_reach (check : Config U → Label U → Bool) {fuel : ℕ} {c : Config U}
    {moves : List (Move U)} {P : Config U → Bool}
    (h : (script check fuel c moves).any P = true) :
    ∃ c', Reach step (fun c a => check c a = true) c c' ∧ P c' = true := by
  obtain ⟨c', hscript, hP⟩ := (Option.any_eq_true _ _).mp h
  exact ⟨c', reach_script hscript, hP⟩

end Lwt
