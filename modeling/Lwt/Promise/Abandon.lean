import Lwt.Promise.Pick
import Lwt.Promise.Records

/-!
# Abandoning the resolution loops

`abandon_wakeups` is meant to leave all resolution loops at once: it is called from inside
of them by the exit handler of `Lwt_main`, whose hooks need callbacks to be run when their
promises are resolved.  It calls `leave_resolution_loop` once, which lowers the depth by
one and runs the deferred callbacks only at depth one.  `abandonWakeups_leaves_loops` says
that this is enough exactly if there was one loop to leave.
-/

namespace Lwt

open Transition

variable {U : Type} {c₀ c₁ c : Config U} {u : U}

/-- The call that user code made in `c₀`, to go on at `u`, has returned. -/
def Config.Returned (c₀ : Config U) (u : U) (c : Config U) : Prop :=
  c.stack = c₀.stack ∧ ∃ outcome, c.control = .user (.resume u outcome)

theorem abandonWakeups_call (hdepth : c₀.depth ≠ 0)
    (hcall : userStep c₀ (.call .abandonWakeups u) = some c₁) :
    c₁.balance = c₀.balance - 1 := by
  obtain ⟨-, rfl⟩ := userStep_call hcall
  have hdepth' : (c₀.push [.user u]).depth ≠ 0 := hdepth
  simp only [execute, hdepth', ne_eq, not_false_eq_true, if_true]
  simp only [Config.balance, Config.push, Config.ret, List.cons_append, List.nil_append, loops_cons,
    Frame.leaves, if_true]
  push_cast
  simp
  omega

theorem reach_balance_eq {ok : Config U → Label U → Prop} {c c' : Config U}
    (hok : ∀ c a, ok c a → c.quiet = true ∧ a.abandons = false) (hrun : Reach step ok c c') :
    c'.balance = c.balance := by
  refine hrun.invariant (P := fun c' => c'.balance = c.balance) rfl ?_
  intro c' a c'' hc hokc hstep
  obtain ⟨hquiet, habandons⟩ := hok c' a hokc
  exact ((step_balance hquiet hstep).2 habandons).trans hc

/-! ## Waking up later outside of all loops -/

/-- A call of `wakeup_later` at depth zero is about to run the record of its promise. -/
theorem wakeupLater_serves {name : String} {p : Pid} {r : Result U} {callbacks : Callbacks U}
    (hs : Sound c₀.store) (hk : Kept c₀.store) (hdepth : c₀.depth = 0)
    (hpending : c₀.heap.stateOf p = some (.pending callbacks))
    (hcall : userStep c₀ (.call (.wakeupLaterGeneral name p r) u) = some c₁) :
    Serving (c₀.heap.root p) callbacks r (.leaveResolutionLoop c₀.storage :: .user u :: c₀.stack)
      c₁ := by
  obtain ⟨-, rfl⟩ := userStep_call hcall
  have hwf : c₀.heap.WellFormed := hs.wellFormed
  have hroot : c₀.heap[c₀.heap.root p]? = some (.pending callbacks) := hpending
  have hcb : ((c₀.push [.user u]).follow p).heap[c₀.heap.root p]? = some (.pending callbacks) := by
    have hsame := (Heap.compressed_compress hwf p).getElem?_root hwf p
    simp only [Config.follow, Config.push]
    rw [hsame]
    exact hroot
  have hrun : execute (c₀.push [.user u]) (.wakeupLaterGeneral name p r) =
      runCallbacksOrDeferThem
        ((((c₀.push [.user u]).follow p).setState (c₀.heap.root p) (.resolved r)).emit
          (.resolved (c₀.heap.root p) r)) { maximumCallbackNestingDepth := 1 } (c₀.heap.root p)
        callbacks r := by
    simp only [execute, wakeupLaterGeneral, wakeupWith,
      show (c₀.push [.user u]).heap.root p = c₀.heap.root p from rfl, hcb, resolve]
  have hnow : runCallbacksOrDeferThem
        ((((c₀.push [.user u]).follow p).setState (c₀.heap.root p) (.resolved r)).emit
          (.resolved (c₀.heap.root p) r)) { maximumCallbackNestingDepth := 1 } (c₀.heap.root p)
        callbacks r =
      ({ (((c₀.push [.user u]).follow p).setState (c₀.heap.root p) (.resolved r)).emit
          (.resolved (c₀.heap.root p) r) with depth := c₀.depth + 1 }.push
        [.runCallbacks (c₀.heap.root p) callbacks r, .leaveResolutionLoop c₀.storage]).ret
        .unit := by
    refine if_neg ?_
    simp [Config.emit, Config.setState, Config.follow, Config.push, hdepth]
  rw [hrun, hnow]
  refine .waiting (t := []) rfl ⟨fun node hmem => .inr (by simpa using hmem), fun i hmem => ?_⟩
  obtain ⟨cell, hcell, -⟩ := hk.tracked.within.attached _ callbacks hroot i hmem
  exact ⟨(List.getElem?_eq_some_iff.mp hcell).1, .inr (.inr (by simpa using hmem))⟩

/-- When a call of `wakeup_later` made at depth zero has returned, every callback of its
promise has been called, or removed. -/
theorem wakeupLater_runs_callbacks {main hook : U} {name : String} {p : Pid} {r : Result U}
    {callbacks : Callbacks U} (hreach : Reach step (fun _ _ => True) (initial main hook) c₀)
    (hdepth : c₀.depth = 0) (hpending : c₀.heap.stateOf p = some (.pending callbacks))
    (hcall : step c₀ (.move (.call (.wakeupLaterGeneral name p r) u)) = some c₁)
    (hrun : Reach step (fun c _ => c.quiet = true) c₁ c) (hreturn : c₀.Returned u c) :
    (∀ node ∈ callbacks.nodes, .called node r ∈ c.trace) ∧
      ∀ i ∈ callbacks.cells, .cellCalled i r ∈ c.trace ∨ isLive c.cells i = false := by
  obtain ⟨hs, hk⟩ := reach_kept hreach (control_ne_crash_of_step hcall)
  have hinv : Past c₀ c ∧ Serving (c₀.heap.root p) callbacks r
      (.leaveResolutionLoop c₀.storage :: .user u :: c₀.stack) c := by
    refine hrun.invariant (P := fun c => Past c₀ c ∧ Serving (c₀.heap.root p) callbacks r
      (.leaveResolutionLoop c₀.storage :: .user u :: c₀.stack) c)
      ⟨(Past.refl hs).step hcall,
        wakeupLater_serves hs hk hdepth hpending (step_move hcall).2⟩ ?_
    rintro c a c' ⟨hpast, hserving⟩ hquiet hstep
    exact ⟨hpast.step hstep,
      hserving.step (hpast.sound (control_ne_crash_of_step hstep)) hquiet hstep⟩
  obtain ⟨hstack, outcome, hcontrol⟩ := hreturn
  cases hinv.2 with
  | crashed hcrash => simp [hcontrol] at hcrash
  | waiting hstack' =>
    have hlength := congrArg List.length (hstack.symm.trans hstack')
    simp only [List.length_append, List.length_cons] at hlength
    omega
  | iterating hstack' =>
    have hlength := congrArg List.length (hstack.symm.trans hstack')
    simp only [List.length_append, List.length_cons] at hlength
    omega
  | served hacc =>
    refine ⟨fun node hmem => ?_, fun i hmem => ?_⟩
    · simpa using hacc.node node hmem
    · simpa using (hacc.cell i hmem).2

/-! ## Leaving the loops -/

/-- A call of `abandon_wakeups` inside of some loop, during which no exception breaks a loop
and `abandon_wakeups` is not called again, has left all loops when it returns, with no
callback deferred, if and only if the depth was one.  Then the depth is zero as long as the
caller goes on, and whatever it wakes up later is served before `wakeup_later` returns. -/
theorem abandonWakeups_leaves_loops {main hook : U}
    (hreach : Reach step (fun _ _ => True) (initial main hook) c₀) (hdepth : 1 ≤ c₀.depth)
    (hcall : step c₀ (.move (.call .abandonWakeups u)) = some c₁)
    (hrun : Reach step (fun c a => c.quiet = true ∧ a.abandons = false ∧
      c₀.stack.length < c.stack.length) c₁ c)
    (hreturn : c₀.Returned u c) :
    (c.depth = 0 ∧ c.deferredCallbacks = [] ↔ c₀.depth = 1) ∧
    (c₀.depth = 1 → ∀ c₂, Reach step (fun c a => c.quiet = true ∧ a.abandons = false) c c₂ →
      c₂.stack = c₀.stack → c₂.depth = 0 ∧
      ∀ (name : String) (p : Pid) (r : Result U) (callbacks : Callbacks U) (v : U)
        (c₃ c₄ : Config U), c₂.heap.stateOf p = some (.pending callbacks) →
        step c₂ (.move (.call (.wakeupLaterGeneral name p r) v)) = some c₃ →
        Reach step (fun c _ => c.quiet = true) c₃ c₄ → c₂.Returned v c₄ →
        (∀ node ∈ callbacks.nodes, .called node r ∈ c₄.trace) ∧
          ∀ i ∈ callbacks.cells, .cellCalled i r ∈ c₄.trace ∨ isLive c₄.cells i = false) := by
  have hbalance : c.balance = c₀.balance - 1 := by
    rw [reach_balance_eq (fun _ _ h => ⟨h.1, h.2.1⟩) hrun]
    exact abandonWakeups_call (by omega) (step_move hcall).2
  have hleft : ∀ c₂ : Config U, c₂.balance = c₀.balance - 1 → c₂.stack = c₀.stack →
      c₂.depth = c₀.depth - 1 := by
    intro c₂ hc₂ hstack
    rw [Config.balance, Config.balance, hstack] at hc₂
    omega
  have hreach_c : Reach step (fun _ _ => True) (initial main hook) c :=
    (hreach.tail _ trivial hcall).trans (hrun.mono fun _ _ _ => trivial)
  have hdepth_c := hleft c hbalance hreturn.1
  refine ⟨⟨fun h => by omega, fun hone => ?_⟩, fun hone c₂ hlater hstack => ?_⟩
  · refine ⟨by omega, ?_⟩
    by_contra hne
    have hle := reach_defersInLoop hreach_c hne
    omega
  · have hdepth₂ : c₂.depth = 0 := by
      have h := hleft c₂ ((reach_balance_eq (fun _ _ h => h) hlater).trans hbalance) hstack
      omega
    refine ⟨hdepth₂, fun name p r callbacks v c₃ c₄ hpending hcall' hrun' hreturn' => ?_⟩
    exact wakeupLater_runs_callbacks (hreach_c.trans (hlater.mono fun _ _ _ => trivial)) hdepth₂
      hpending hcall' hrun' hreturn'

deriving instance DecidableEq for Frame

/-- Whether the call that user code made in `c₀`, to go on at `u`, has returned. -/
def Config.returned (c₀ : Config ℕ) (u : ℕ) (c : Config ℕ) : Bool :=
  decide (c.stack = c₀.stack) &&
    match c.control with
    | .user (.resume v _) => v == u
    | _ => false

theorem Config.returned_iff {c₀ c : Config ℕ} {u : ℕ} (h : c₀.returned u c = true) :
    c₀.Returned u c := by
  simp only [Config.returned, Bool.and_eq_true, decide_eq_true_eq] at h
  refine ⟨h.1, ?_⟩
  have hcontrol := h.2
  split at hcontrol
  · rename_i v outcome heq
    exact ⟨outcome, by rw [heq, beq_iff_eq.mp hcontrol]⟩
  · simp at hcontrol

/-- Two promises with a callback each; the callback of the first wakes up the second. -/
def nestedMoves : List (Move ℕ) :=
  [.call .task 0, .call .task 0, .call (.attach (.onSuccess 0) 0) 0,
    .call (.attach (.onSuccess 0) 1) 0, .call (.wakeupGeneral "wakeup" 0 (.fulfilled .unit)) 0,
    .call (.wakeupGeneral "wakeup" 1 (.fulfilled .unit)) 0]

def abandonMove : Move ℕ := .call .abandonWakeups 0

/-- Called from inside of two loops, `abandon_wakeups` leaves one of them. -/
theorem abandonWakeups_leaves_one_loop : ∃ c₀ c₁ c : Config ℕ,
    Reach step (fun _ _ => True) (initial 0 0) c₀ ∧ 1 ≤ c₀.depth ∧
    step c₀ (.move abandonMove) = some c₁ ∧
    Reach step (fun c a => c.quiet = true ∧ a.abandons = false ∧
      c₀.stack.length < c.stack.length) c₁ c ∧ c₀.Returned 0 c ∧ c.depth = 1 := by
  obtain ⟨c₀, hreach, hc₀⟩ := exists_reach (fun _ _ => true)
    (P := fun c₀ => 1 ≤ c₀.depth && (step c₀ (.move abandonMove)).any fun c₁ =>
      (script (fun c a => c.quiet && !a.abandons && c₀.stack.length < c.stack.length) 40 c₁ []).any
        fun c => c₀.returned 0 c && c.depth = 1)
    (show (script _ 40 (initial 0 0) nestedMoves).any _ = true by decide)
  simp only [Bool.and_eq_true, decide_eq_true_eq] at hc₀
  obtain ⟨c₁, hcall, hc₁⟩ := (Option.any_eq_true _ _).mp hc₀.2
  obtain ⟨c, hrun, hc⟩ := exists_reach _ hc₁
  simp only [Bool.and_eq_true, decide_eq_true_eq] at hc
  exact ⟨c₀, c₁, c, hreach.mono fun _ _ _ => trivial, hc₀.1, hcall,
    hrun.mono fun c a hok => by simpa [and_assoc] using hok, Config.returned_iff hc.1, hc.2⟩

/-- A callback that resolves another promise later, which is deferred. -/
def deferringMoves : List (Move ℕ) :=
  [.call .task 0, .call .task 0, .call (.attach (.onSuccess 0) 0) 0,
    .call (.attach (.onSuccess 0) 1) 0, .call (.wakeupGeneral "wakeup" 0 (.fulfilled .unit)) 0,
    .call (.wakeupLaterGeneral "wakeup_later" 1 (.fulfilled .unit)) 0]

/-- Called from inside of one loop, it runs the deferred callback and leaves the loop. -/
theorem abandonWakeups_leaves_loops_deferring : ∃ c₀ c₁ c : Config ℕ,
    1 ≤ c₀.depth ∧ c₀.deferredCallbacks ≠ [] ∧ step c₀ (.move abandonMove) = some c₁ ∧
    Reach step (fun c a => c.quiet = true ∧ a.abandons = false ∧
      c₀.stack.length < c.stack.length) c₁ c ∧ c₀.Returned 0 c ∧
    (c.depth = 0 ∧ c.deferredCallbacks = [] ↔ c₀.depth = 1) ∧ c₀.depth = 1 := by
  obtain ⟨c₀, hreach, hc₀⟩ := exists_reach (fun _ _ => true)
    (P := fun c₀ => 1 ≤ c₀.depth && !c₀.deferredCallbacks.isEmpty && c₀.depth = 1 &&
      (step c₀ (.move abandonMove)).any fun c₁ =>
        (script (fun c a => c.quiet && !a.abandons && c₀.stack.length < c.stack.length) 40 c₁
          [.ret .unit]).any fun c => c₀.returned 0 c)
    (show (script _ 40 (initial 0 0) deferringMoves).any _ = true by decide)
  simp only [Bool.and_eq_true, decide_eq_true_eq] at hc₀
  obtain ⟨⟨⟨hdepth, hqueue⟩, hone⟩, hcall⟩ := hc₀
  obtain ⟨c₁, hcall, hc₁⟩ := (Option.any_eq_true _ _).mp hcall
  obtain ⟨c, hrun, hc⟩ := exists_reach _ hc₁
  have hrun' : Reach step (fun c a => c.quiet = true ∧ a.abandons = false ∧
      c₀.stack.length < c.stack.length) c₁ c :=
    hrun.mono fun c a hok => by simpa [and_assoc] using hok
  refine ⟨c₀, c₁, c, hdepth, by simpa using hqueue, hcall, hrun', Config.returned_iff hc, ?_, hone⟩
  exact (abandonWakeups_leaves_loops (hreach.mono fun _ _ _ => trivial) hdepth hcall hrun'
    (Config.returned_iff hc)).1

end Lwt
