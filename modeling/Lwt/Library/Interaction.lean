import Mathlib.Data.List.Basic
import Mathlib.Logic.Relation

/-!
# Programs that interact

A program goes on by itself, silently, or stops at an event: something that it says, or that it is
told.  From a state there is at most one silent step, and none from a state that stops.  The traces
of a program are the events that it can go through, and it comes to rest after a trace unless it
goes on for ever by itself.

A simulation matches a silent step with at least one silent step, and a stop with a stop that comes
after finitely many; then both programs have the same traces and come to rest after the same ones
(`Simulation.trace_iff`, `Simulation.rests_iff`).  The converse direction needs no simulation of its
own, since silent steps are unique.
-/

namespace Interaction

open Relation

variable {σ τ ℓ : Type*}

/-- A program: its silent steps, and what becomes of it at an event. -/
structure Program (σ ℓ : Type*) where
  silent : σ → Option σ
  event : σ → ℓ → Option σ

namespace Program

variable (p : Program σ ℓ)

/-- One silent step. -/
def Goes (s t : σ) : Prop := p.silent s = some t

/-- The program stops in this state. -/
def Stops (s : σ) : Prop := p.silent s = none

/-- `Runs n s events t`: from `s` to `t` through these events, in `n` silent steps. -/
inductive Runs : ℕ → σ → List ℓ → σ → Prop
  | nil (s : σ) : Runs 0 s [] s
  | silent {n : ℕ} {s t u : σ} {events : List ℓ} : p.Goes s t → Runs n t events u →
      Runs (n + 1) s events u
  | event {n : ℕ} {s t u : σ} {events : List ℓ} (e : ℓ) : p.Stops s → p.event s e = some t →
      Runs n t events u → Runs n s (e :: events) u

/-- The program can go through these events. -/
def Trace (s : σ) (events : List ℓ) : Prop := ∃ n t, p.Runs n s events t

/-- The program can go through these events and then stops. -/
def Rests (s : σ) (events : List ℓ) : Prop := ∃ n t, p.Runs n s events t ∧ p.Stops t

/-- The state after these events, if it is reached with `n` steps at most. -/
def follow : ℕ → σ → List ℓ → Option σ
  | _, s, [] => some s
  | 0, _, _ :: _ => none
  | n + 1, s, e :: events =>
    match p.silent s with
    | some t => follow n t (e :: events)
    | none => (p.event s e).bind fun t => follow n t events

end Program

variable {p : Program σ ℓ} {q : Program τ ℓ}

theorem Program.Goes.not_stops {s t : σ} (h : p.Goes s t) : ¬ p.Stops s := by
  intro hstops
  rw [Program.Goes, hstops] at h
  cases h

theorem Program.Goes.unique {s t u : σ} (h : p.Goes s t) (h' : p.Goes s u) : t = u :=
  Option.some.inj (h.symm.trans h')

theorem Program.trace_of_follow {n : ℕ} {s t : σ} {events : List ℓ}
    (h : p.follow n s events = some t) : p.Trace s events := by
  induction n generalizing s events with
  | zero =>
    cases events with
    | nil => exact ⟨0, s, .nil s⟩
    | cons e events => cases h
  | succ n ih =>
    cases events with
    | nil => exact ⟨0, s, .nil s⟩
    | cons e events =>
      rw [Program.follow] at h
      split at h
      · rename_i hgoes
        obtain ⟨m, u, hm⟩ := ih h
        exact ⟨m + 1, u, .silent hgoes hm⟩
      · rename_i hstops
        obtain ⟨v, hevent, hrest⟩ := Option.bind_eq_some_iff.mp h
        obtain ⟨m, u, hm⟩ := ih hrest
        exact ⟨m, u, .event e hstops hevent hm⟩

theorem Program.Runs.head {s t u : σ} {n : ℕ} {events : List ℓ} (h : ReflTransGen p.Goes s t)
    (hruns : p.Runs n t events u) : ∃ m, p.Runs m s events u := by
  induction h using ReflTransGen.head_induction_on with
  | refl => exact ⟨n, hruns⟩
  | head hgoes _ ih =>
    obtain ⟨m, hm⟩ := ih
    exact ⟨m + 1, .silent hgoes hm⟩

theorem Program.Runs.tail {s t u : σ} {n : ℕ} {events : List ℓ} (hruns : p.Runs n s events t)
    (h : ReflTransGen p.Goes t u) : ∃ m, p.Runs m s events u := by
  induction hruns with
  | nil s => exact (Program.Runs.nil u).head h
  | silent hgoes _ ih =>
    obtain ⟨m, hm⟩ := ih h
    exact ⟨m + 1, .silent hgoes hm⟩
  | event e hstops hevent _ ih =>
    obtain ⟨m, hm⟩ := ih h
    exact ⟨m, .event e hstops hevent hm⟩

/-- A run and silent steps from its first state: the run passes the last state of the steps, or it
ends before, without an event. -/
theorem Program.Runs.split {s t u : σ} {n : ℕ} {events : List ℓ} (h : ReflTransGen p.Goes s t)
    (hruns : p.Runs n s events u) :
    (∃ m, m ≤ n ∧ p.Runs m t events u) ∨ (events = [] ∧ ¬ p.Stops u) := by
  induction h using ReflTransGen.head_induction_on generalizing n with
  | refl => exact .inl ⟨n, Nat.le_refl n, hruns⟩
  | head hgoes _ ih =>
    cases hruns with
    | nil => exact .inr ⟨rfl, hgoes.not_stops⟩
    | silent hgoes' hrest =>
      obtain rfl := hgoes.unique hgoes'
      rcases ih hrest with ⟨m, hle, hm⟩ | hend
      · exact .inl ⟨m, by omega, hm⟩
      · exact .inr hend
    | event _ hstops _ _ => exact absurd hstops hgoes.not_stops

theorem Program.Runs.split_of_step {s t u : σ} {n : ℕ} {events : List ℓ}
    (h : TransGen p.Goes s t) (hruns : p.Runs n s events u) :
    (∃ m, m < n ∧ p.Runs m t events u) ∨ (events = [] ∧ ¬ p.Stops u) := by
  obtain ⟨v, hgoes, hrest⟩ := TransGen.head'_iff.mp h
  cases hruns with
  | nil => exact .inr ⟨rfl, hgoes.not_stops⟩
  | silent hgoes' hruns =>
    obtain rfl := hgoes.unique hgoes'
    rcases hruns.split hrest with ⟨m, hle, hm⟩ | hend
    · exact .inl ⟨m, by omega, hm⟩
    · exact .inr hend
  | event _ hstops _ _ => exact absurd hstops hgoes.not_stops

/-! ## Related options -/

section Options

variable {α β : Type*} {R : σ → τ → Prop} {S : α → β → Prop} {o : Option σ} {o' : Option τ}

theorem eq_none_of_rel (h : Option.Rel R none o') : o' = none := by
  cases h
  rfl

theorem rel_map {f : σ → α} {g : τ → β} (h : Option.Rel R o o')
    (hfg : ∀ s t, R s t → S (f s) (g t)) : Option.Rel S (o.map f) (o'.map g) := by
  cases h with
  | none => exact .none
  | some hR => exact .some (hfg _ _ hR)

theorem rel_bind {f : σ → Option α} {g : τ → Option β} (h : Option.Rel R o o')
    (hfg : ∀ s t, R s t → Option.Rel S (f s) (g t)) : Option.Rel S (o.bind f) (o'.bind g) := by
  cases h with
  | none => exact .none
  | some hR => exact hfg _ _ hR

theorem rel_or {o₁ : Option σ} {o₁' : Option τ} (h : Option.Rel R o o')
    (h₁ : Option.Rel R o₁ o₁') : Option.Rel R (o.or o₁) (o'.or o₁') := by
  cases h with
  | none => exact h₁
  | some hR => exact .some hR

end Options

theorem exists_of_rel_left {R : σ → τ → Prop} {s : σ} {o : Option τ}
    (h : Option.Rel R (some s) o) : ∃ t, o = some t ∧ R s t := by
  cases h with
  | some hR => exact ⟨_, rfl, hR⟩

theorem exists_of_rel_right {R : σ → τ → Prop} {o : Option σ} {t : τ}
    (h : Option.Rel R o (some t)) : ∃ s, o = some s ∧ R s t := by
  cases h with
  | some hR => exact ⟨_, rfl, hR⟩

/-! ## Simulations -/

/-- `R` relates the states of two programs that do the same. -/
structure Simulation (p : Program σ ℓ) (q : Program τ ℓ) (R : σ → τ → Prop) : Prop where
  silent : ∀ {s s' t}, R s t → p.Goes s s' → ∃ t', TransGen q.Goes t t' ∧ R s' t'
  stops : ∀ {s t}, R s t → p.Stops s →
    ∃ t', ReflTransGen q.Goes t t' ∧ q.Stops t' ∧ ∀ e, Option.Rel R (p.event s e) (q.event t' e)

namespace Simulation

variable {R : σ → τ → Prop} {s : σ} {t : τ} {events : List ℓ}

theorem runs (h : Simulation p q R) (hR : R s t) {n : ℕ} {s' : σ} (hruns : p.Runs n s events s') :
    ∃ m t', q.Runs m t events t' ∧ R s' t' := by
  induction hruns generalizing t with
  | nil => exact ⟨0, t, .nil t, hR⟩
  | silent hgoes _ ih =>
    obtain ⟨t', hsteps, hR'⟩ := h.silent hR hgoes
    obtain ⟨m, u, hu, hRu⟩ := ih hR'
    obtain ⟨k, hk⟩ := hu.head hsteps.to_reflTransGen
    exact ⟨k, u, hk, hRu⟩
  | event e hstops hevent _ ih =>
    obtain ⟨t', hsteps, hstops', hnext⟩ := h.stops hR hstops
    have hrel := hnext e
    rw [hevent] at hrel
    obtain ⟨v, hv, hR'⟩ := exists_of_rel_left hrel
    obtain ⟨m, u, hu, hRu⟩ := ih hR'
    obtain ⟨k, hk⟩ := Program.Runs.head hsteps (.event e hstops' hv hu)
    exact ⟨k, u, hk, hRu⟩

theorem runs_back (h : Simulation p q R) {n : ℕ} {t' : τ} (hruns : q.Runs n t events t')
    (hR : R s t) : p.Trace s events ∧ (q.Stops t' → p.Rests s events) := by
  induction hmeasure : n + events.length using Nat.strongRecOn generalizing n s t events with
  | _ k ih =>
    cases hs : p.silent s with
    | some s' =>
      obtain ⟨v, hsteps, hR'⟩ := h.silent hR hs
      -- the run of the second program may end amid the steps that match this one
      rcases hruns.split_of_step hsteps with ⟨m, hlt, hm⟩ | ⟨rfl, hend⟩
      · obtain ⟨⟨i, u, hu⟩, hrests⟩ := ih (m + events.length) (by omega) hm hR' rfl
        refine ⟨⟨i + 1, u, .silent hs hu⟩, fun hstops => ?_⟩
        obtain ⟨j, w, hw, hstop⟩ := hrests hstops
        exact ⟨j + 1, w, .silent hs hw, hstop⟩
      · exact ⟨⟨0, s, .nil s⟩, fun hstops => absurd hstops hend⟩
    | none =>
      obtain ⟨v, hsteps, hstops, hnext⟩ := h.stops hR hs
      rcases hruns.split hsteps with ⟨m, hle, hm⟩ | ⟨rfl, hend⟩
      · cases hm with
        | nil => exact ⟨⟨0, s, .nil s⟩, fun _ => ⟨0, s, .nil s, hs⟩⟩
        | silent hgoes _ => exact absurd hstops hgoes.not_stops
        | event e _ hevent hm =>
          have hrel := hnext e
          rw [hevent] at hrel
          obtain ⟨w, hw, hR'⟩ := exists_of_rel_right hrel
          obtain ⟨⟨i, u, hu⟩, hrests⟩ :=
            ih _ (by simp only [List.length_cons] at hmeasure; omega) hm hR' rfl
          refine ⟨⟨i, u, .event e hs hw hu⟩, fun hstop => ?_⟩
          obtain ⟨j, x, hx, hx'⟩ := hrests hstop
          exact ⟨j, x, .event e hs hw hx, hx'⟩
      · exact ⟨⟨0, s, .nil s⟩, fun hstops => absurd hstops hend⟩

theorem trace_iff (h : Simulation p q R) (hR : R s t) : p.Trace s events ↔ q.Trace t events := by
  constructor
  · rintro ⟨n, s', hruns⟩
    obtain ⟨m, t', ht', -⟩ := h.runs hR hruns
    exact ⟨m, t', ht'⟩
  · rintro ⟨n, t', hruns⟩
    exact (h.runs_back hruns hR).1

theorem rests_iff (h : Simulation p q R) (hR : R s t) : p.Rests s events ↔ q.Rests t events := by
  constructor
  · rintro ⟨n, s', hruns, hstops⟩
    obtain ⟨m, t', ht', hR'⟩ := h.runs hR hruns
    obtain ⟨u, hsteps, hu, -⟩ := h.stops hR' hstops
    obtain ⟨k, hk⟩ := ht'.tail hsteps
    exact ⟨k, u, hk, hu⟩
  · rintro ⟨n, t', hruns, hstops⟩
    exact (h.runs_back hruns hR).2 hstops

end Simulation

end Interaction
