import Mathlib.Order.Basic
import Mathlib.Data.Nat.Notation
import Mathlib.Data.List.Basic

/-!
# Promises over time

A promise is what is known of it at each instant, and does not change once it is resolved.  The
callbacks of a promise run at the instant of its resolution, so what is bound to promises is a
function of what is known of them.  The instants of the promises that are not made here are
arbitrary, so any order of their resolutions is covered.
-/

namespace Instants

/-- The state of a promise at each instant; `none` is pending. -/
structure Promise (ε α : Type) where
  state : ℕ → Option (Except ε α)
  stays : ∀ {t t' : ℕ} {r : Except ε α}, t ≤ t' → state t = some r → state t' = some r

variable {ε α β : Type} {t t' : ℕ} {r : Except ε α} {a : α} {b : β} {p : Promise ε α}

namespace Promise

def ResolvedAt (p : Promise ε α) (t : ℕ) : Prop := (p.state t).isSome

/-- The promise is fulfilled with `a` at some instant. -/
def Becomes (p : Promise ε α) (a : α) : Prop := ∃ t, p.state t = some (.ok a)

instance (p : Promise ε α) (t : ℕ) : Decidable (p.ResolvedAt t) :=
  inferInstanceAs (Decidable (_ = true))

/-- A promise that is resolved from the start. -/
def resolved (r : Except ε α) : Promise ε α where
  state _ := some r
  stays _ h := h

/-- A promise that is fulfilled at the instant `start`. -/
def fulfilledAt (start : ℕ) (a : α) : Promise ε α where
  state t := if start ≤ t then some (.ok a) else none
  stays := by
    intro t t' r hle h
    split at h
    case isTrue hstart =>
      rw [if_pos (Nat.le_trans hstart hle)]
      exact h
    case isFalse => cases h

def bind (p : Promise ε α) (k : α → Promise ε β) : Promise ε β where
  state t :=
    match p.state t with
    | none => none
    | some (.error exn) => some (.error exn)
    | some (.ok a) => (k a).state t
  stays := by
    intro t t' r hle h
    cases hp : p.state t with
    | none =>
      rw [hp] at h
      cases h
    | some out =>
      rw [hp] at h
      rw [p.stays hle hp]
      cases out with
      | error exn => exact h
      | ok a => exact (k a).stays hle h

/-- The exception of the member that is rejected first, among those up to the instant `t`. -/
def firstRejection (ps : List (Promise ε Unit)) (t : ℕ) : Option ε :=
  (List.range (t + 1)).findSome? fun t' => ps.findSome? fun p =>
    match p.state t' with
    | some (.error exn) => some exn
    | _ => none

theorem ResolvedAt.stays (h : p.ResolvedAt t) (hle : t ≤ t') : p.ResolvedAt t' := by
  obtain ⟨r, hr⟩ := Option.isSome_iff_exists.mp h
  exact Option.isSome_iff_exists.mpr ⟨r, p.stays hle hr⟩

/-- No member is rejected after the instant at which all are resolved. -/
theorem firstRejection_stays {ps : List (Promise ε Unit)} (h : ∀ p ∈ ps, p.ResolvedAt t)
    (hle : t ≤ t') : firstRejection ps t' = firstRejection ps t := by
  unfold firstRejection
  have hrange : List.range (t' + 1) =
      List.range (t + 1) ++ (List.range (t' - t)).map (t + 1 + ·) := by
    rw [← List.range_add]
    congr 1
    omega
  rw [hrange, List.findSome?_append]
  cases hfirst : (List.range (t + 1)).findSome? _ with
  | some exn => rfl
  | none =>
    rw [List.findSome?_eq_none_iff] at hfirst
    rw [Option.none_or, List.findSome?_eq_none_iff]
    intro later hlater
    obtain ⟨more, _, rfl⟩ := List.mem_map.mp hlater
    have hnone := hfirst t (List.mem_range.mpr (Nat.lt_succ_self t))
    rw [List.findSome?_eq_none_iff] at hnone ⊢
    intro p hp
    obtain ⟨r, hr⟩ := Option.isSome_iff_exists.mp (h p hp)
    have hp := hnone p hp
    rw [hr] at hp
    rw [p.stays (by omega) hr]
    exact hp

/-- The promise is resolved when all members are. -/
def join (ps : List (Promise ε Unit)) : Promise ε Unit where
  state t :=
    if ∀ p ∈ ps, p.ResolvedAt t then
      match firstRejection ps t with
      | some exn => some (.error exn)
      | none => some (.ok ())
    else none
  stays := by
    intro t t' r hle h
    split at h
    case isTrue hall =>
      rw [if_pos fun p hp => (hall p hp).stays hle, firstRejection_stays hall hle]
      exact h
    case isFalse => cases h

theorem join_resolvedAt {ps : List (Promise ε Unit)} :
    (join ps).ResolvedAt t ↔ ∀ p ∈ ps, p.ResolvedAt t := by
  unfold join ResolvedAt
  dsimp only
  split
  case isTrue hall => exact iff_of_true (by split <;> rfl) hall
  case isFalse hnot => exact iff_of_false nofun hnot

theorem becomes_resolved (a : α) : (resolved (.ok a) : Promise ε α).Becomes a := ⟨0, rfl⟩

theorem becomes_fulfilledAt (start : ℕ) (a : α) :
    (fulfilledAt start a : Promise ε α).Becomes a := ⟨start, if_pos (Nat.le_refl start)⟩

theorem Becomes.bind {k : α → Promise ε β} (h : p.Becomes a) (hk : (k a).Becomes b) :
    (p.bind k).Becomes b := by
  obtain ⟨t, ht⟩ := h
  obtain ⟨t', ht'⟩ := hk
  refine ⟨max t t', ?_⟩
  have hp := p.stays (Nat.le_max_left t t') ht
  unfold Promise.bind
  dsimp only
  rw [hp]
  exact (k a).stays (Nat.le_max_right t t') ht'

/-- A promise that is fulfilled at some instant is not rejected at any. -/
theorem Becomes.not_error (h : p.Becomes a) (exn : ε) : p.state t ≠ some (.error exn) := by
  intro herror
  obtain ⟨t', ht'⟩ := h
  have hok := p.stays (Nat.le_max_right t t') ht'
  rw [p.stays (Nat.le_max_left t t') herror] at hok
  cases hok

theorem join_becomes {ps : List (Promise ε Unit)} (h : ∀ p ∈ ps, p.Becomes ()) :
    (join ps).Becomes () := by
  have hlast : ∃ t, ∀ p ∈ ps, p.ResolvedAt t := by
    induction ps with
    | nil => exact ⟨0, nofun⟩
    | cons p ps ih =>
      obtain ⟨hp, hps⟩ := List.forall_mem_cons.mp h
      obtain ⟨t, ht⟩ := hp
      obtain ⟨t', ht'⟩ := ih hps
      refine ⟨max t t', List.forall_mem_cons.mpr ⟨?_, fun q hq => ?_⟩⟩
      · exact Option.isSome_iff_exists.mpr ⟨_, p.stays (Nat.le_max_left t t') ht⟩
      · exact (ht' q hq).stays (Nat.le_max_right t t')
  obtain ⟨t, ht⟩ := hlast
  refine ⟨t, ?_⟩
  have hnone : firstRejection ps t = none := by
    unfold firstRejection
    rw [List.findSome?_eq_none_iff]
    intro t' _
    rw [List.findSome?_eq_none_iff]
    intro p hp
    split
    · exact absurd (by assumption) ((h p hp).not_error _)
    · rfl
  unfold join
  dsimp only
  rw [if_pos ht, hnone]

end Promise

end Instants
