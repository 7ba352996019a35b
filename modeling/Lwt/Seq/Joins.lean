import Mathlib.Data.List.MinMax
import Lwt.Library.Calls

/-!
# Promises that are kept

`iter_p` and `iter_n` keep the promises of their function, to wait for them later with `join` and
`nchoose_split`.  A promise that is kept is what is left of its call.  Time is counted in waits:
the promises that are waited for together are in the same wait, so any order of their resolutions
is one of numbers of waits.
-/

namespace Lwt.Seq

open Calls

variable {ω ε α : Type}

/-- A promise is what is left of a call that has returned. -/
structure Promise (ω ε α : Type) where
  call : Call ω ε α
  returned : ¬call.Raises

/-- The promise that a call returns, without waiting for it. -/
def detach : Call ω ε α → Call ω ε (Promise ω ε α)
  | .fulfilled a => .fulfilled ⟨.fulfilled a, id⟩
  | .rejected exn => .fulfilled ⟨.rejected exn, id⟩
  | .raised exn => .raised exn
  | .running => .running
  | .emit event rest => .emit event (detach rest)
  | .pending later => .fulfilled ⟨.pending later, id⟩

/-- The number of waits up to the resolution. -/
def waits : Call ω ε α → Option ℕ
  | .fulfilled _ | .rejected _ | .raised _ => some 0
  | .running => none
  | .emit _ rest => waits rest
  | .pending later => (waits later).map (· + 1)

/-- What is left after `n` waits. -/
def after : ℕ → Call ω ε α → Call ω ε α
  | n, .emit _ rest => after n rest
  | 0, c => c.guarded
  | n + 1, .pending later => after n later
  | _ + 1, c => c.guarded

def value? : Call ω ε α → Option α
  | .fulfilled a => some a
  | .emit _ rest => value? rest
  | _ => none

def exn? : Call ω ε α → Option ε
  | .rejected exn => some exn
  | .emit _ rest => exn? rest
  | _ => none

/-- `n` waits. -/
def waiting (c : Call ω ε α) : ℕ → Call ω ε α
  | 0 => c
  | n + 1 => .pending (waiting c n)

theorem not_raises_after (c : Call ω ε α) : ∀ n, ¬(after n c).Raises := by
  induction c with
  | emit event rest ih =>
    intro n
    cases n <;> exact ih _
  | pending later ih =>
    intro n
    cases n with
    | zero => exact id
    | succ n => exact ih n
  | _ =>
    intro n
    cases n <;> exact id

def Promise.after (n : ℕ) (p : Promise ω ε α) : Promise ω ε α :=
  ⟨Seq.after n p.call, not_raises_after p.call n⟩

/-- The promise is resolved when the last of `ps` is.  Of those that are rejected, the first one
that was resolved gives the exception. -/
def join (ps : List (Promise ω ε Unit)) : Call ω ε Unit :=
  match ps.mapM fun p => waits p.call with
  | none => .pending .running
  | some numbers =>
    let last := numbers.foldr max 0
    let rejection := (List.range (last + 1)).findSome? fun n =>
      ps.findSome? fun p => if waits p.call = some n then exn? (p.after n).call else none
    waiting
      (match rejection with
      | some exn => .rejected exn
      | none => .fulfilled ())
      last

/-- The promise is resolved when one of `ps` is: with the values of those that are fulfilled, and
those that are pending.  The latter are reversed if the promise is resolved at the call. -/
def nchooseSplit (invalidArgument : String → ε) (ps : List (Promise ω ε α)) :
    Call ω ε (List α × List (Promise ω ε α)) :=
  if ps.isEmpty then
    .raised (invalidArgument
      "Lwt.nchoose_split [] would return a promise that is pending forever")
  else
    match (ps.filterMap fun p => waits p.call).min? with
    | none => .pending .running
    | some least =>
      let ps := ps.map (·.after least)
      let pending := ps.filter fun p => waits p.call ≠ some 0
      waiting
        (match ps.findSome? fun p => exn? p.call with
        | some exn => .rejected exn
        | none =>
          .fulfilled (ps.filterMap fun p => value? p.call,
            if least = 0 then pending.reverse else pending))
        least

theorem detach_raises {c : Call ω ε α} : (detach c).Raises ↔ c.Raises := by
  induction c with
  | emit event rest ih => exact ih
  | _ => exact Iff.rfl

theorem not_raises_waiting {c : Call ω ε α} (h : ¬c.Raises) (n : ℕ) : ¬(waiting c n).Raises := by
  cases n with
  | zero => exact h
  | succ n => exact id

theorem not_raises_join (ps : List (Promise ω ε Unit)) : ¬(join ps).Raises := by
  unfold join
  split
  · exact id
  · refine not_raises_waiting ?_ _
    split <;> exact id

theorem not_raises_nchooseSplit {invalidArgument : String → ε} {ps : List (Promise ω ε α)}
    (h : ps ≠ []) : ¬(nchooseSplit invalidArgument ps).Raises := by
  unfold nchooseSplit
  rw [if_neg (by simpa using h)]
  split
  · exact id
  · refine not_raises_waiting ?_ _
    split <;> exact id

theorem gives_waiting {c : Call ω ε α} {a : α} {n : ℕ} (h : (waiting c n).Gives a) : c.Gives a := by
  cases n with
  | zero => exact h
  | succ n => exact h.elim

theorem resolved_cases {c : Call ω ε α} (hreturned : ¬c.Raises) :
    (waits c = some 0 ∧ ((value? c).isSome ∨ (exn? c).isSome)) ∨
      (waits c ≠ some 0 ∧ value? c = none) := by
  induction c with
  | fulfilled a => exact .inl ⟨rfl, .inl rfl⟩
  | rejected exn => exact .inl ⟨rfl, .inr rfl⟩
  | raised exn => exact absurd trivial hreturned
  | running => exact .inr ⟨nofun, rfl⟩
  | emit event rest ih => exact ih hreturned
  | pending later ih =>
    refine .inr ⟨?_, rfl⟩
    unfold waits
    cases waits later <;> simp

theorem length_split (ps : List (Promise ω ε α)) (hexn : ∀ p ∈ ps, exn? p.call = none) :
    (ps.filterMap fun p => value? p.call).length +
      (ps.filter fun p => waits p.call ≠ some 0).length = ps.length := by
  induction ps with
  | nil => rfl
  | cons p ps ih =>
    have hrest := ih fun q hq => hexn q (List.mem_cons_of_mem _ hq)
    have hp := hexn p List.mem_cons_self
    rcases resolved_cases p.returned with ⟨hwaits, hvalue | hexn⟩ | ⟨hwaits, hvalue⟩
    · obtain ⟨a, ha⟩ := Option.isSome_iff_exists.mp hvalue
      rw [List.filterMap_cons_some (f := fun p : Promise ω ε α => value? p.call) ha,
        List.filter_cons_of_neg (by simp [hwaits]), List.length_cons, List.length_cons]
      omega
    · rw [hp] at hexn
      cases hexn
    · rw [List.filterMap_cons_none (f := fun p : Promise ω ε α => value? p.call) hvalue,
        List.filter_cons_of_pos (by simp [hwaits]), List.length_cons, List.length_cons]
      omega

theorem nchooseSplit_length {invalidArgument : String → ε} {ps pending : List (Promise ω ε α)}
    {complete : List α} (h : (nchooseSplit invalidArgument ps).Gives (complete, pending)) :
    complete.length + pending.length = ps.length := by
  unfold nchooseSplit at h
  split at h
  · exact h.elim
  · split at h
    · exact h.elim
    · have hgives := gives_waiting h
      split at hgives
      · exact hgives.elim
      · rename_i hexn
        rw [List.findSome?_eq_none_iff] at hexn
        have hlength := length_split _ hexn
        cases hgives
        rw [List.length_map] at hlength
        rw [← hlength]
        split
        · rw [List.length_reverse]
        · rfl

end Lwt.Seq
