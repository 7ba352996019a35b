import Mathlib.Data.List.Nodup
import Lwt.Library.Transition

/-!
# `E.limit` and `S.limit`

The occurrences of an event are sent on, but not while the promise that `f` gave at the last one,
the limiter, is sleeping: the latest of those that occur meanwhile is kept in a cell, and a callback
on the limiter sends it.

Between the fulfilment of a limiter and the run of this callback other callbacks on it are run, the
last added first, and an occurrence that one of them sends is sent on at once.  It makes a new
limiter, and the callback then forgets the cell.  If still another occurrence has come before, it
has been put into this cell and is lost (`limit_loses`).  The call of `f` lies between the old
limiter and the new one, so that an occurrence that comes during it is sent on before the one that
`f` is called for.  In all other runs the latest occurrence is sent or kept (`limit_keeps`).
-/

namespace Lwt.React

open Transition

/-- Occurrences, promises and cells are given by their numbers.  `attached` are the callbacks on
promises that are pending, each given by the promise and the cell, and `due` those that were on a
fulfilled promise and are still to be run.  `calling` has the occurrences that `f` is being called
for, the innermost call first, and `sent` those that were pushed, each with the promise that `f`
gave then; this promise is not part of the program. -/
structure Limit where
  occurrences : ℕ
  fulfilled : List ℕ
  limiter : ℕ
  delayed : Option ℕ
  cells : List ℕ
  attached : List (ℕ × ℕ)
  due : List ℕ
  calling : List ℕ
  sent : List (ℕ × ℕ)

/-- The start of `limit f`.  The first limiter is `Lwt.return_unit` for `E.limit`, and `f ()` for
`S.limit`. -/
def limit (limiter : ℕ) (fulfilled : List ℕ) : Limit where
  occurrences := 0
  fulfilled := fulfilled
  limiter := limiter
  delayed := none
  cells := []
  attached := []
  due := []
  calling := []
  sent := []

namespace Limit

/-- The call of `f` in `limiter := f (); push x`. -/
def call (s : Limit) (x : ℕ) : Limit := { s with calling := x :: s.calling }

/-- `limiter := f (); push x` from the return of `f` on. -/
def send (s : Limit) (x limiter : ℕ) : Limit :=
  { s with limiter := limiter, sent := s.sent ++ [(x, limiter)] }

/-- The function of `fmap` at the next occurrence, up to the call of `f`. -/
def occurs (s : Limit) : Limit :=
  let x := s.occurrences
  let s := { s with occurrences := x + 1 }
  if s.limiter ∉ s.fulfilled then
    match s.delayed with
    | some cell => { s with cells := s.cells.set cell x }
    | none =>
      let cell := s.cells.length
      { s with
        cells := s.cells ++ [x]
        delayed := some cell
        attached := s.attached ++ [(s.limiter, cell)] }
  else s.call x

/-- The callback on a limiter, up to the call of `f`. -/
def delayedCallback (s : Limit) (cell : ℕ) : Limit :=
  if s.limiter ∉ s.fulfilled then { s with delayed := none }
  else
    match s.cells[cell]? with
    | some x => { s with delayed := none }.call x
    | none => s

/-- A promise is fulfilled, and the callbacks on it are going to be run. -/
def fulfil (s : Limit) (p : ℕ) : Limit :=
  { s with
    fulfilled := p :: s.fulfilled
    attached := s.attached.filter fun a => a.1 ≠ p
    due := s.due ++ (s.attached.filter fun a => a.1 = p).map Prod.snd }

end Limit

inductive LimitStep
  | occurrence
  | fulfil (p : ℕ)
  | run (cell : ℕ)
  /-- The innermost call of `f` gives a promise. -/
  | returns (limiter : ℕ)

/-- The callbacks may be run in any order, with anything else in between, also while `f` is being
called. -/
def limitStep (s : Limit) : LimitStep → Option Limit
  | .occurrence => some s.occurs
  | .fulfil p => if p ∈ s.fulfilled then none else some (s.fulfil p)
  | .run cell =>
    if cell ∈ s.due
    then some ({ s with due := s.due.erase cell }.delayedCallback cell) else none
  | .returns limiter =>
    match s.calling with
    | [] => none
    | x :: calling => some ({ s with calling := calling }.send x limiter)

/-- The changes of `hold ?eq v event`, when the value of the occurrence `x` is `value x`. -/
def changes {α : Type} (eq : α → α → Bool) (value : ℕ → α) : α → List (ℕ × ℕ) → List (ℕ × ℕ)
  | _, [] => []
  | v, x :: sent =>
    if eq v (value x.1) then changes eq value v sent
    else x :: changes eq value (value x.1) sent

/-! ## What is kept and what is sent -/

variable {s t : Limit}

/-- The occurrences that have been sent, and those that will be when `f` has given a promise. -/
def Limit.sends (s : Limit) : List ℕ := s.calling ++ s.sent.map Prod.fst

/-- The latest occurrence has been sent, or is sent as soon as the call of `f` that is under way
returns, or `f` is not being called and it is in the cell whose callback is on the limiter, and the
limiter is sleeping; while callbacks are to be run, this one may be among them, with the limiter
fulfilled. -/
def Kept (s : Limit) : Prop :=
  ∀ x, s.occurrences = x + 1 → x ∈ s.sends ∨
    s.calling = [] ∧ ∃ cell, s.delayed = some cell ∧ s.cells[cell]? = some x ∧
      ((s.limiter, cell) ∈ s.attached ∧ s.limiter ∉ s.fulfilled ∨
        cell ∈ s.due ∧ s.limiter ∈ s.fulfilled)

/-- No occurrence is there twice, and all the limiters but the last one have been fulfilled. -/
structure Spaced (fulfilled : List ℕ) (sent : List (ℕ × ℕ)) : Prop where
  nodup : (sent.map Prod.fst).Nodup
  fulfilled : ∀ x ∈ sent.dropLast, x.2 ∈ fulfilled

theorem changes_sublist {α : Type} (eq : α → α → Bool) (value : ℕ → α) (v : α)
    (sent : List (ℕ × ℕ)) : (changes eq value v sent).Sublist sent := by
  induction sent generalizing v with
  | nil => exact .slnil
  | cons x sent ih =>
    unfold changes
    split
    · exact (ih v).cons x
    · exact (ih (value x.1)).cons_cons x

theorem dropLast_subset_of_sublist {l l' : List (ℕ × ℕ)} (h : l'.Sublist l) :
    l'.dropLast ⊆ l.dropLast := by
  rcases List.eq_nil_or_concat l with rfl | ⟨l, x, rfl⟩
  · rw [List.sublist_nil.mp h]
    exact fun _ => id
  · rw [List.concat_eq_append] at h ⊢
    obtain ⟨a, b, rfl, ha, hb⟩ := List.sublist_append_iff.mp h
    rw [List.dropLast_concat]
    rcases List.sublist_singleton.mp hb with rfl | rfl
    · rw [List.append_nil]
      exact fun y hy => ha.subset (List.dropLast_subset a hy)
    · rw [List.dropLast_concat]
      exact ha.subset

theorem Spaced.sublist {fulfilled : List ℕ} {sent sent' : List (ℕ × ℕ)} (h : Spaced fulfilled sent)
    (hsub : sent'.Sublist sent) : Spaced fulfilled sent' where
  nodup := h.nodup.sublist (hsub.map Prod.fst)
  fulfilled := fun x hx => h.fulfilled x (dropLast_subset_of_sublist hsub hx)

/-- There is at most one cell whose callback is to be run, and `delayed` has it. -/
inductive Placed (s : Limit) : Prop
  | free (hdelayed : s.delayed = none) (hattached : s.attached = []) (hdue : s.due = [])
  | stored (cell : ℕ) (hdelayed : s.delayed = some cell) (hcell : cell < s.cells.length)
      (hattached : s.attached = [(s.limiter, cell)]) (hdue : s.due = [])
      (hsleeping : s.limiter ∉ s.fulfilled)
  | due (cell : ℕ) (hdelayed : s.delayed = some cell) (hcell : cell < s.cells.length)
      (hattached : s.attached = []) (hdue : s.due = [cell])

/-- While `f` is being called, it is for one occurrence, and the limiter is the fulfilled one that
let it pass. -/
structure Inv (s : Limit) : Prop where
  placed : Placed s
  nodup : s.sends.Nodup
  fulfilled : ∀ x ∈ s.sent.dropLast, x.2 ∈ s.fulfilled
  limiter : ∀ x ∈ s.sent.getLast?, x.2 = s.limiter
  lt : ∀ x ∈ s.sends, x < s.occurrences
  stored : ∀ cell ∈ s.delayed, ∀ x ∈ s.cells[cell]?, x < s.occurrences ∧ x ∉ s.sends
  calling : s.calling = [] ∨ ∃ x, s.calling = [x] ∧ s.limiter ∈ s.fulfilled

theorem inv_limit (limiter : ℕ) (fulfilled : List ℕ) : Inv (limit limiter fulfilled) :=
  ⟨.free rfl rfl rfl, List.nodup_nil, nofun, nofun, nofun, nofun, .inl rfl⟩

theorem Inv.spaced (h : Inv s) : Spaced s.fulfilled s.sent :=
  ⟨(List.nodup_append.mp h.nodup).2.1, h.fulfilled⟩

@[simp] theorem sends_call (s : Limit) (x : ℕ) : (s.call x).sends = x :: s.sends := rfl

/-- The call of `f` for an occurrence that is neither sent nor in the cell. -/
theorem Inv.call (h : Inv s) {x : ℕ} (hlt : x < s.occurrences) (hx : x ∉ s.sends)
    (hlimiter : s.limiter ∈ s.fulfilled) (hcalling : s.calling = [])
    (hstored : ∀ cell ∈ s.delayed, ∀ y ∈ s.cells[cell]?, y ≠ x) : Inv (s.call x) where
  placed := by
    cases h.placed with
    | free h₁ h₂ h₃ => exact .free h₁ h₂ h₃
    | stored cell _ _ _ _ hsleeping => exact absurd hlimiter hsleeping
    | due cell h₁ h₂ h₃ h₄ => exact .due cell h₁ h₂ h₃ h₄
  nodup := List.nodup_cons.mpr ⟨hx, h.nodup⟩
  fulfilled := h.fulfilled
  limiter := h.limiter
  lt := by
    intro y hy
    rcases List.mem_cons.mp hy with rfl | hy
    · exact hlt
    · exact h.lt y hy
  stored := by
    intro cell hcell y hy
    obtain ⟨hylt, hysends⟩ := h.stored cell hcell y hy
    refine ⟨hylt, ?_⟩
    rw [sends_call, List.mem_cons, not_or]
    exact ⟨hstored cell hcell y hy, hysends⟩
  calling := .inr ⟨x, congrArg (List.cons x) hcalling, hlimiter⟩

/-- All the limiters before the one that was fulfilled have been fulfilled, and so it is when the
next one is made. -/
theorem Inv.fulfilled_send (h : Inv s) (hlimiter : s.limiter ∈ s.fulfilled) (x p : ℕ) :
    ∀ y ∈ (s.sent ++ [(x, p)]).dropLast, y.2 ∈ s.fulfilled := by
  intro y hy
  rw [List.dropLast_concat] at hy
  rcases List.eq_nil_or_concat s.sent with hnil | ⟨l, z, hl⟩
  · rw [hnil] at hy
    cases hy
  · rw [List.concat_eq_append] at hl
    have hlast := h.limiter z (by simp [hl])
    have hbefore := h.fulfilled
    rw [hl] at hy hbefore
    rw [List.dropLast_concat] at hbefore
    rcases List.mem_append.mp hy with hy | hy
    · exact hbefore y hy
    · obtain rfl := List.mem_singleton.mp hy
      rw [hlast]
      exact hlimiter

theorem perm_sends_send (s : Limit) {x : ℕ} (hcalling : s.calling = [x]) (p : ℕ) :
    ({ s with calling := [] }.send x p).sends.Perm s.sends := by
  have hsends : s.sends = x :: s.sent.map Prod.fst := by rw [Limit.sends, hcalling]; rfl
  rw [hsends]
  simp only [Limit.sends, Limit.send, List.nil_append, List.map_append, List.map_cons, List.map_nil]
  exact List.perm_append_singleton x _

theorem Inv.send (h : Inv s) {x : ℕ} (hcalling : s.calling = [x]) (p : ℕ) :
    Inv ({ s with calling := [] }.send x p) := by
  have hlimiter : s.limiter ∈ s.fulfilled := by
    rcases h.calling with hnil | ⟨y, -, hlimiter⟩
    · cases hcalling.symm.trans hnil
    · exact hlimiter
  have hperm := perm_sends_send s hcalling p
  refine ⟨?_, hperm.nodup_iff.mpr h.nodup, h.fulfilled_send hlimiter x p, ?_,
    fun y hy => h.lt y (hperm.mem_iff.mp hy), fun cell hcell y hy => ?_, .inl rfl⟩
  · cases h.placed with
    | free h₁ h₂ h₃ => exact .free h₁ h₂ h₃
    | stored cell _ _ _ _ hsleeping => exact absurd hlimiter hsleeping
    | due cell h₁ h₂ h₃ h₄ => exact .due cell h₁ h₂ h₃ h₄
  · intro y hy
    simp only [Limit.send, List.getLast?_concat, Option.mem_some_iff] at hy
    rw [← hy]
    rfl
  · obtain ⟨hylt, hysends⟩ := h.stored cell hcell y hy
    exact ⟨hylt, fun hmem => hysends (hperm.mem_iff.mp hmem)⟩

theorem lt_length_of_getElem? {l : List ℕ} {i x : ℕ} (h : l[i]? = some x) : i < l.length :=
  (List.getElem?_eq_some_iff.mp h).1

theorem Inv.not_sent (h : Inv s) : s.occurrences ∉ s.sends :=
  fun hmem => Nat.lt_irrefl _ (h.lt _ hmem)

theorem occurs_stored {cell : ℕ} (hsleeping : s.limiter ∉ s.fulfilled)
    (hdelayed : s.delayed = some cell) : s.occurs =
      { s with occurrences := s.occurrences + 1, cells := s.cells.set cell s.occurrences } := by
  unfold Limit.occurs
  simp only [hsleeping, not_false_eq_true, if_true, hdelayed]

theorem occurs_free (hsleeping : s.limiter ∉ s.fulfilled) (hdelayed : s.delayed = none) :
    s.occurs =
      { s with
        occurrences := s.occurrences + 1
        cells := s.cells ++ [s.occurrences]
        delayed := some s.cells.length
        attached := s.attached ++ [(s.limiter, s.cells.length)] } := by
  unfold Limit.occurs
  simp only [hsleeping, not_false_eq_true, if_true, hdelayed]

theorem occurs_called (hlimiter : s.limiter ∈ s.fulfilled) :
    s.occurs = { s with occurrences := s.occurrences + 1 }.call s.occurrences := by
  unfold Limit.occurs
  simp only [hlimiter, not_true_eq_false, if_false]

theorem Inv.count (h : Inv s) :
    Inv { s with occurrences := s.occurrences + 1 } where
  placed := by
    cases h.placed with
    | free h₁ h₂ h₃ => exact .free h₁ h₂ h₃
    | stored cell h₁ h₂ h₃ h₄ h₅ => exact .stored cell h₁ h₂ h₃ h₄ h₅
    | due cell h₁ h₂ h₃ h₄ => exact .due cell h₁ h₂ h₃ h₄
  nodup := h.nodup
  fulfilled := h.fulfilled
  limiter := h.limiter
  lt := fun x hx => Nat.lt_succ_of_lt (h.lt x hx)
  stored := fun cell hcell x hx =>
    ⟨Nat.lt_succ_of_lt (h.stored cell hcell x hx).1, (h.stored cell hcell x hx).2⟩
  calling := h.calling

theorem Inv.occurs (h : Inv s) (hcalling : s.calling = []) : Inv s.occurs := by
  by_cases hlimiter : s.limiter ∈ s.fulfilled
  · rw [occurs_called hlimiter]
    refine h.count.call (Nat.lt_succ_self _) h.not_sent hlimiter hcalling ?_
    rintro cell hcell y hy rfl
    exact Nat.lt_irrefl _ (h.stored cell hcell _ hy).1
  · cases hdelayed : s.delayed with
    | none =>
      rw [occurs_free hlimiter hdelayed]
      refine ⟨?_, h.nodup, h.fulfilled, h.limiter, h.count.lt, ?_, .inl hcalling⟩
      · cases h.placed with
        | free _ hattached hdue =>
          exact .stored s.cells.length rfl (by simp) (by simp [hattached]) hdue hlimiter
        | stored cell hsome => cases hdelayed.symm.trans hsome
        | due cell hsome => cases hdelayed.symm.trans hsome
      · intro cell hcell x hx
        cases hcell
        rw [List.getElem?_concat_length] at hx
        cases hx
        exact ⟨Nat.lt_succ_self _, h.not_sent⟩
    | some cell =>
      rw [occurs_stored hlimiter hdelayed]
      refine ⟨?_, h.nodup, h.fulfilled, h.limiter, h.count.lt, ?_, .inl hcalling⟩
      · cases h.placed with
        | free hnone => cases hdelayed.symm.trans hnone
        | stored c h₁ h₂ h₃ h₄ h₅ => exact .stored c h₁ (by simpa using h₂) h₃ h₄ h₅
        | due c h₁ h₂ h₃ h₄ => exact .due c h₁ (by simpa using h₂) h₃ h₄
      · intro c hc x hx
        obtain rfl := Option.some.inj (hc.symm.trans hdelayed)
        have hlt : c < s.cells.length := by
          have := lt_length_of_getElem? hx
          simpa using this
        rw [List.getElem?_set_self hlt] at hx
        cases hx
        exact ⟨Nat.lt_succ_self _, h.not_sent⟩

theorem Inv.fulfil (h : Inv s) (p : ℕ) : Inv (s.fulfil p) where
  placed := by
    cases h.placed with
    | free h₁ h₂ h₃ => exact .free h₁ (by simp [Limit.fulfil, h₂]) (by simp [Limit.fulfil, h₂, h₃])
    | stored cell h₁ h₂ h₃ h₄ h₅ =>
      by_cases hp : s.limiter = p
      · exact .due cell h₁ h₂ (by simp [Limit.fulfil, h₃, hp])
          (by simp [Limit.fulfil, h₃, h₄, hp])
      · refine .stored cell h₁ h₂ (by simp [Limit.fulfil, h₃, hp])
          (by simp [Limit.fulfil, h₃, h₄, hp]) ?_
        exact fun hmem => (List.mem_cons.mp hmem).elim hp h₅
    | due cell h₁ h₂ h₃ h₄ =>
      exact .due cell h₁ h₂ (by simp [Limit.fulfil, h₃]) (by simp [Limit.fulfil, h₃, h₄])
  nodup := h.nodup
  fulfilled := fun x hx => List.mem_cons_of_mem p (h.fulfilled x hx)
  limiter := h.limiter
  lt := h.lt
  stored := h.stored
  calling := by
    rcases h.calling with hnil | ⟨x, hx, hlimiter⟩
    · exact .inl hnil
    · exact .inr ⟨x, hx, List.mem_cons_of_mem p hlimiter⟩

theorem Inv.due (h : Inv s) {cell : ℕ} (hdue : cell ∈ s.due) :
    s.delayed = some cell ∧ cell < s.cells.length ∧ s.attached = [] ∧ s.due = [cell] := by
  cases h.placed with
  | free _ _ hnil =>
    rw [hnil] at hdue
    cases hdue
  | stored _ _ _ _ hnil =>
    rw [hnil] at hdue
    cases hdue
  | due c hdelayed hcell hattached hc =>
    rw [hc] at hdue
    obtain rfl := List.mem_singleton.mp hdue
    exact ⟨hdelayed, hcell, hattached, hc⟩

theorem Inv.forget (h : Inv s) {cell : ℕ} (hdue : cell ∈ s.due) :
    Inv { s with due := s.due.erase cell, delayed := none } where
  placed := by
    obtain ⟨-, -, hattached, hc⟩ := h.due hdue
    refine .free rfl hattached ?_
    change s.due.erase cell = []
    simp [hc]
  nodup := h.nodup
  fulfilled := h.fulfilled
  limiter := h.limiter
  lt := h.lt
  stored := nofun
  calling := h.calling

theorem run_forgets (cell : ℕ) (hsleeping : s.limiter ∉ s.fulfilled) :
    { s with due := s.due.erase cell }.delayedCallback cell =
      { s with due := s.due.erase cell, delayed := none } := by
  unfold Limit.delayedCallback
  exact if_pos hsleeping

theorem run_calls {cell x : ℕ} (hlimiter : s.limiter ∈ s.fulfilled)
    (hx : s.cells[cell]? = some x) : { s with due := s.due.erase cell }.delayedCallback cell =
      { s with due := s.due.erase cell, delayed := none }.call x := by
  unfold Limit.delayedCallback
  simp only [hlimiter, not_true_eq_false, if_false, hx]

theorem Inv.run (h : Inv s) {cell : ℕ} (hdue : cell ∈ s.due) (hcalling : s.calling = []) :
    Inv ({ s with due := s.due.erase cell }.delayedCallback cell) := by
  by_cases hlimiter : s.limiter ∈ s.fulfilled
  · obtain ⟨hdelayed, hcell, -⟩ := h.due hdue
    have hx : s.cells[cell]? = some s.cells[cell] := List.getElem?_eq_getElem hcell
    obtain ⟨hlt, hsent⟩ := h.stored cell hdelayed _ hx
    rw [run_calls hlimiter hx]
    exact (h.forget hdue).call hlt hsent hlimiter hcalling nofun
  · rw [run_forgets cell hlimiter]
    exact h.forget hdue

/-! ## The latest occurrence -/

/-- While `f` is being called no occurrence comes and no callback on a limiter is run, and no
occurrence finds the limiter sleeping while a callback is still to be run that was on a limiter
before. -/
def timely (s : Limit) : LimitStep → Bool
  | .occurrence => s.calling = [] && (s.due = [] || s.limiter ∈ s.fulfilled)
  | .run _ => s.calling = []
  | _ => true

theorem inv_step {a : LimitStep} (h : Inv s) (htimely : timely s a = true)
    (hstep : limitStep s a = some t) : Inv t := by
  cases a with
  | occurrence =>
    cases hstep
    exact h.occurs (of_decide_eq_true (Bool.and_eq_true_iff.mp htimely).1)
  | fulfil p =>
    obtain ⟨-, hstep⟩ := Option.ite_none_left_eq_some.mp hstep
    cases hstep
    exact h.fulfil p
  | run cell =>
    obtain ⟨hdue, hstep⟩ := Option.ite_none_right_eq_some.mp hstep
    cases hstep
    exact h.run hdue (of_decide_eq_true htimely)
  | returns p =>
    rcases h.calling with hnil | ⟨x, hx, -⟩
    · simp only [limitStep, hnil, reduceCtorEq] at hstep
    · simp only [limitStep, hx, Option.some.injEq] at hstep
      obtain rfl := hstep
      exact h.send hx p

theorem kept_limit (limiter : ℕ) (fulfilled : List ℕ) : Kept (limit limiter fulfilled) := nofun

theorem kept_of_sends {x : ℕ} (hx : s.occurrences = x + 1) (h : x ∈ s.sends) : Kept s := by
  intro y hy
  obtain rfl : x = y := Nat.succ.inj (hx.symm.trans hy)
  exact .inl h

theorem Kept.occurs (hinv : Inv s) (htimely : timely s .occurrence = true) : Kept s.occurs := by
  have hcalling : s.calling = [] := of_decide_eq_true (Bool.and_eq_true_iff.mp htimely).1
  by_cases hlimiter : s.limiter ∈ s.fulfilled
  · rw [occurs_called hlimiter]
    exact kept_of_sends rfl List.mem_cons_self
  · have hdue : s.due = [] := by
      simpa [hlimiter] using (Bool.and_eq_true_iff.mp htimely).2
    intro x hx
    right
    cases hdelayed : s.delayed with
    | none =>
      rw [occurs_free hlimiter hdelayed] at hx ⊢
      obtain rfl : s.occurrences = x := Nat.succ.inj hx
      exact ⟨hcalling, s.cells.length, rfl, List.getElem?_concat_length, .inl ⟨by simp, hlimiter⟩⟩
    | some cell =>
      rw [occurs_stored hlimiter hdelayed] at hx ⊢
      obtain rfl : s.occurrences = x := Nat.succ.inj hx
      cases hinv.placed with
      | free hnone => cases hdelayed.symm.trans hnone
      | due c _ _ _ hc => cases hdue.symm.trans hc
      | stored c hsome hcell hattached =>
        cases hdelayed.symm.trans hsome
        refine ⟨hcalling, cell, hdelayed, List.getElem?_set_self hcell, .inl ⟨?_, hlimiter⟩⟩
        change _ ∈ s.attached
        rw [hattached]
        exact List.mem_singleton_self _

theorem Kept.fulfil (h : Kept s) (p : ℕ) : Kept (s.fulfil p) := by
  intro x hx
  rcases h x hx with hsent | ⟨hcalling, cell, hdelayed, hcell, hwhere⟩
  · exact .inl hsent
  · refine .inr ⟨hcalling, cell, hdelayed, hcell, ?_⟩
    rcases hwhere with ⟨hattached, hsleeping⟩ | ⟨hdue, hlimiter⟩
    · by_cases hp : s.limiter = p
      · refine .inr ⟨List.mem_append_right _ ?_, ?_⟩
        · exact List.mem_map.mpr ⟨_, List.mem_filter.mpr ⟨hattached, by simpa using hp⟩, rfl⟩
        · change s.limiter ∈ p :: s.fulfilled
          rw [hp]
          exact List.mem_cons_self
      · refine .inl ⟨List.mem_filter.mpr ⟨hattached, decide_eq_true hp⟩, fun hmem => ?_⟩
        exact (List.mem_cons.mp hmem).elim hp hsleeping
    · exact .inr ⟨List.mem_append_left _ hdue, List.mem_cons_of_mem p hlimiter⟩

theorem Kept.run (h : Kept s) (hinv : Inv s) {cell : ℕ} (hdue : cell ∈ s.due) :
    Kept ({ s with due := s.due.erase cell }.delayedCallback cell) := by
  obtain ⟨hdelayed, hcell, hattached, -⟩ := hinv.due hdue
  by_cases hlimiter : s.limiter ∈ s.fulfilled
  · have hy : s.cells[cell]? = some s.cells[cell] := List.getElem?_eq_getElem hcell
    rw [run_calls hlimiter hy]
    intro x hx
    left
    rcases h x hx with hsent | ⟨-, c, hc, hx', -⟩
    · exact List.mem_cons_of_mem _ hsent
    · cases hdelayed.symm.trans hc
      cases hy.symm.trans hx'
      exact List.mem_cons_self
  · rw [run_forgets cell hlimiter]
    intro x hx
    left
    -- the cell of a callback that is due does not have the latest occurrence
    rcases h x hx with hsent | ⟨-, c, -, -, ⟨hmem, -⟩ | ⟨-, hfulfilled⟩⟩
    · exact hsent
    · rw [hattached] at hmem
      cases hmem
    · exact absurd hfulfilled hlimiter

/-- While `f` is being called the latest occurrence is among those that are sent, so that the new
limiter leaves none in a cell of the old one. -/
theorem Kept.send (h : Kept s) {x : ℕ} (hcalling : s.calling = [x]) (p : ℕ) :
    Kept ({ s with calling := [] }.send x p) := by
  intro y hy
  rcases h y hy with hsends | ⟨hnil, -⟩
  · exact .inl ((perm_sends_send s hcalling p).mem_iff.mpr hsends)
  · cases hcalling.symm.trans hnil

theorem kept_step {a : LimitStep} (h : Kept s) (hinv : Inv s) (htimely : timely s a = true)
    (hstep : limitStep s a = some t) : Kept t := by
  cases a with
  | occurrence =>
    cases hstep
    exact Kept.occurs hinv htimely
  | fulfil p =>
    obtain ⟨-, hstep⟩ := Option.ite_none_left_eq_some.mp hstep
    cases hstep
    exact h.fulfil p
  | run cell =>
    obtain ⟨hdue, hstep⟩ := Option.ite_none_right_eq_some.mp hstep
    cases hstep
    exact h.run hinv hdue
  | returns p =>
    rcases hinv.calling with hnil | ⟨x, hx, -⟩
    · simp only [limitStep, hnil, reduceCtorEq] at hstep
    · simp only [limitStep, hx, Option.some.injEq] at hstep
      obtain rfl := hstep
      exact h.send hx p

/-- In a run in which nothing is sent while `f` is being called, and in which no occurrence comes
between the fulfilment of a limiter and the callback on it when there is another limiter, that is
sleeping, the latest occurrence is always sent or kept.  No occurrence is sent twice, and between
two of them the limiter of the first one is fulfilled; it is so for the changes of the signal,
too. -/
theorem limit_keeps {limiter : ℕ} {fulfilled : List ℕ}
    (h : Reach limitStep (fun s a => timely s a = true) (limit limiter fulfilled) s) :
    Kept s ∧ Spaced s.fulfilled s.sent ∧
    ∀ {α : Type} (eq : α → α → Bool) (value : ℕ → α) (v : α),
      Spaced s.fulfilled (changes eq value v s.sent) := by
  have hinv : Inv s ∧ Kept s := by
    refine h.invariant (P := fun s => Inv s ∧ Kept s) ⟨inv_limit _ _, kept_limit _ _⟩ ?_
    rintro s a t ⟨hinv, hkept⟩ htimely hstep
    exact ⟨inv_step hinv htimely hstep, kept_step hkept hinv htimely hstep⟩
  exact ⟨hinv.2, hinv.1.spaced, fun eq value v =>
    hinv.1.spaced.sublist (changes_sublist eq value v s.sent)⟩

/-- The second of three occurrences is replaced by the third one, that is sent when the limiter is
fulfilled. -/
theorem limit_keeps_three :
    let s : Limit := ⟨3, [1, 0], 2, none, [2], [], [], [], [(0, 1), (2, 2)]⟩
    Kept s ∧ Spaced s.fulfilled s.sent ∧
    ∀ {α : Type} (eq : α → α → Bool) (value : ℕ → α) (v : α),
      Spaced s.fulfilled (changes eq value v s.sent) := by
  intro s
  have hs : Reach limitStep (fun s a => timely s a = true) (limit 0 [0]) s :=
    reach_of_checked [.occurrence, .returns 1, .occurrence, .occurrence, .fulfil 1, .run 0,
      .returns 2] rfl
  exact limit_keeps hs

/-- A callback on the limiter that is run before the one of `limit` sends two occurrences: the
first is sent on and makes a new limiter, the second is put into the cell that is then forgotten. -/
theorem limit_loses :
    ∃ s, Reach limitStep (fun _ _ => True) (limit 0 [0]) s ∧ s.due = [] ∧ s.calling = [] ∧
      ¬ Kept s := by
  refine ⟨⟨4, [1, 0], 2, none, [3], [], [], [], [(0, 1), (2, 2)]⟩, ?_, rfl, rfl, fun h => ?_⟩
  · exact reach_of_replay [.occurrence, .returns 1, .occurrence, .fulfil 1, .occurrence,
      .returns 2, .occurrence, .run 0] rfl
  · rcases h 3 rfl with hsent | ⟨-, cell, hcell, -⟩
    · exact absurd hsent (by decide)
    · cases hcell

end Lwt.React
