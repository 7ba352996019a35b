import Lwt.Promise.Delivery
import Lwt.Promise.Marks
import Lwt.Promise.Records

/-!
# Cancel callbacks are called once, and first

`run_callbacks` calls the cancel callbacks of a record before its regular callbacks, and
only if the promise has been canceled.  `CancelsFirst` follows the frames of one record;
`cancel_callbacks_called_once` puts it together with the account of the marks.
-/

namespace Lwt

open Heap Table Transition

variable {U : Type} {c c' : Config U} {a : Label U}

/-! ## Cancel callbacks come first -/

theorem runCancelCallbacks_turn (c : Config U) (todo : List (CancelCallbackList U)) :
    todo = [] ∧ (runCancelCallbacks c todo).stack = c.stack ∨ ∃ frames todo',
      (runCancelCallbacks c todo).stack = frames ++ .runCancelCallbacks todo' :: c.stack ∧
      ∀ mark ∈ total CancelCallbackList.marks todo,
        .cancelCalled mark ∈ (runCancelCallbacks c todo).trace ∨
          mark ∈ total CancelCallbackList.marks todo' := by
  cases todo with
  | nil => exact .inl ⟨rfl, rfl⟩
  | cons l rest =>
    refine .inr ?_
    have hleaf : ∀ {l : CancelCallbackList U} {mark' : Mark}, l.marks = {mark'} →
        ∀ mark ∈ total CancelCallbackList.marks (l :: rest),
          mark = mark' ∨ mark ∈ total CancelCallbackList.marks rest := by
      intro l mark' hl mark hmem
      simpa [hl] using hmem
    cases l with
    | empty =>
      exact ⟨[], rest, rfl, fun mark hmem => .inr (by
        simpa [CancelCallbackList.marks] using hmem)⟩
    | concat l l' =>
      exact ⟨[], l :: l' :: rest, rfl, fun mark hmem => .inr (by
        simpa [CancelCallbackList.marks, or_assoc] using hmem)⟩
    | removeSequenceNode mark' node =>
      refine ⟨[], rest, rfl, fun mark hmem => ?_⟩
      rcases hleaf rfl mark hmem with rfl | hmem
      · exact .inl (by simp [runCancelCallbacks, Config.emit, Config.push, Config.ret])
      · exact .inr hmem
    | callback mark' storage f =>
      cases f with
      | user f =>
        refine ⟨[.hooked], rest, rfl, fun mark hmem => ?_⟩
        rcases hleaf rfl mark hmem with rfl | hmem
        · exact .inl (by simp [runCancelCallbacks, Config.emit, Config.push, Config.apply])
        · exact .inr hmem
      | removeTheCallback i =>
        refine ⟨[], rest, rfl, fun mark hmem => ?_⟩
        rcases hleaf rfl mark hmem with rfl | hmem
        · exact .inl (by simp [runCancelCallbacks, Config.emit, Config.clearCell, Config.push,
            Config.ret])
        · exact .inr hmem

/-- The record of a canceled promise: it is still to be run, or its cancel callbacks are
being called with the regular ones still below them, or they have all been called. -/
inductive CancelsFirst (p : Pid) (callbacks : Callbacks U) (r : Result U)
    (below : List (Frame U)) (c : Config U) : Prop
  | waiting {t : List (Frame U)} : c.stack = t ++ .runCallbacks p callbacks r :: below →
      CancelsFirst p callbacks r below c
  | calling {t : List (Frame U)} {l : List (CancelCallbackList U)} :
      c.stack = t ++ .runCancelCallbacks l ::
        .runRegularCallbacks [callbacks.regularCallbacks] r :: below →
      (∀ mark ∈ callbacks.marks, .cancelCalled mark ∈ c.trace ∨
        mark ∈ total CancelCallbackList.marks l) → CancelsFirst p callbacks r below c
  | called : (∀ mark ∈ callbacks.marks, .cancelCalled mark ∈ c.trace) →
      CancelsFirst p callbacks r below c

theorem CancelsFirst.step {p : Pid} {callbacks : Callbacks U} {r : Result U}
    {below : List (Frame U)} (h : CancelsFirst p callbacks r below c)
    (hcanceled : r.isCanceled = true) (hs : Sound c.store) (hquiet : c.quiet = true)
    (hstep : step c a = some c') : CancelsFirst p callbacks r below c' := by
  have htrace : Extends c c' := step_trace hs hstep
  cases h with
  | called hall => exact .called fun mark hmem => htrace.mem (hall mark hmem)
  | waiting hstack =>
    rcases step_onStack (fun e => rfl) hquiet hstack hstep with ⟨top', hstack'⟩ | ⟨v, -, hret⟩
    · exact .waiting hstack'
    · cases hret
      refine .calling (t := []) (l := [callbacks.cancelCallbacks]) ?_ fun mark hmem => .inr ?_
      · simp [runCallbacks, hcanceled, Config.push, Config.emit, Config.ret]
      · simpa [Callbacks.marks] using hmem
  | @calling top todo hstack hacc =>
    rcases step_onStack (fun e => rfl) hquiet hstack hstep with ⟨top', hstack'⟩ | ⟨v, -, hret⟩
    · exact .calling hstack' fun mark hmem => (hacc mark hmem).imp_left htrace.mem
    · cases hret
      rcases runCancelCallbacks_turn { c with stack := _ } todo with
        ⟨rfl, -⟩ | ⟨frames, todo', hstack', hturn⟩
      · refine .called fun mark hmem => ?_
        rcases hacc mark hmem with hcalled | hmem
        · exact htrace.mem hcalled
        · simp at hmem
      · refine .calling hstack' fun mark hmem => ?_
        rcases hacc mark hmem with hcalled | hmem
        · exact .inl (htrace.mem hcalled)
        · exact hturn mark hmem

/-! ## Runs -/

/-- In every run in which no exception breaks a loop, `protected` is called back in time and
`npick` is undisturbed: no cancel callback is called twice; a cancel callback waits in the
record of its promise while that is pending; it is called only if its promise is canceled,
and then it has been called when the loops have ended; and as long as a cancel callback of a
canceled record is still to be called, the regular callbacks of the record are all still
below the frame that calls it. -/
theorem cancel_callbacks_called_once {main hook : U}
    (hreach : Reach step (fun c _ => c.quiet = true ∧ c.protectedInTime = true ∧
      c.npickUndisturbed = true) (initial main hook) c) :
    c.control ≠ .crash ∧ ((calledMarks c.trace).map Mark.id).Nodup ∧
    (∀ mark, .cancelAttached mark ∈ c.trace →
      (∀ callbacks, c.heap.stateOf mark.on = some (.pending callbacks) →
        mark ∈ callbacks.marks ∧ .cancelCalled mark ∉ c.trace) ∧
      (.cancelCalled mark ∈ c.trace →
        c.heap.stateOf mark.on = some (.resolved (.rejected .canceled))) ∧
      (c.loopsEnded = true → c.heap.stateOf mark.on = some (.resolved (.rejected .canceled)) →
        .cancelCalled mark ∈ c.trace)) ∧
    ∀ top p callbacks r below, c.stack = top ++ .runCallbacks p callbacks r :: below →
      r.isCanceled = true → ∀ c', Reach step (fun c _ => c.quiet = true ∧
        c.protectedInTime = true ∧ c.npickUndisturbed = true) c c' →
      CancelsFirst p callbacks r below c' := by
  have halive := (resolve_finds_pending (hreach.mono fun _ _ h => h.2)).1
  obtain ⟨hs, hm⟩ := reach_store (g := quietGuard) (P := Marked)
    (fun c a h => permits_quietGuard h.1)
    (fun s s' hs hm hact => hact.marked hs.wellFormed (fun h => h rfl) hm)
    (marked_initial main hook) hreach halive
  refine ⟨halive, ?_, fun mark hmark => ⟨fun callbacks hpending => ?_, hm.called mark,
    fun hended hcanceled => ?_⟩, ?_⟩
  · obtain ⟨lost, heq, -⟩ := hm.conserved
    refine Multiset.nodup_of_le (Multiset.map_le_map ?_) hm.nodup
    rw [heq, add_right_comm]
    exact Multiset.le_add_left _ _
  · have hnone : ∀ r, ¬ c.heap.IsResolved (c.heap.root mark.on) r := by
      intro r hr
      have hget : c.heap[c.heap.root mark.on]? = some (.pending callbacks) := hpending
      rw [IsResolved, hget] at hr
      simp at hr
    refine ⟨?_, fun hcalled => hnone _ (hm.called mark hcalled)⟩
    -- attached: it waits, is in the work, has been called, or was thrown away
    rcases hm.cases hmark with ⟨u, hw⟩ | ⟨w, hw, hmem⟩ | hcalled | ⟨r, -, hr⟩
    · have hroot : c.heap.root mark.on = u := hm.waits mark u hw
      obtain ⟨callbacks', hu, hmem⟩ := hw
      have hget : c.heap[c.heap.root mark.on]? = some (.pending callbacks) := hpending
      rw [hroot, show c.heap[u]? = some (.pending callbacks') from hu] at hget
      cases hget
      exact hmem
    · obtain ⟨r, hc⟩ := exists_cancels hmem
      exact absurd (hm.due w hw mark r hc) (hnone r)
    · exact absurd (hm.called mark hcalled) (hnone _)
    · exact absurd hr (hnone r)
  · have hwork := work_eq_zero (reach_balance (fun _ _ h => h.1) hreach)
      (reach_defersInLoop hreach) hended
    have hres : c.heap[c.heap.root mark.on]? = some (.resolved (.rejected .canceled)) := hcanceled
    -- there is no work when the loops have ended
    rcases hm.cases hmark with ⟨u, hw⟩ | ⟨w, hw, -⟩ | hcalled | ⟨r, hr, hres'⟩
    · have hroot : c.heap.root mark.on = u := hm.waits mark u hw
      obtain ⟨callbacks, hu, -⟩ := hw
      rw [hroot, show c.heap[u]? = some (.pending callbacks) from hu] at hres
      simp at hres
    · rw [hwork] at hw
      simp at hw
    · exact hcalled
    · have hget : c.heap[c.heap.root mark.on]? = some (.resolved r) := hres'
      rw [hres] at hget
      cases hget
      simp [Result.isCanceled] at hr
  · intro top p callbacks r below hstack hcanceled c' hrun
    have hinv : Past c c' ∧ CancelsFirst p callbacks r below c' := by
      refine hrun.invariant (P := fun c' => Past c c' ∧ CancelsFirst p callbacks r below c')
        ⟨.refl hs, .waiting hstack⟩ ?_
      rintro c₁ a c₂ ⟨hpast, hfirst⟩ hok hstep
      exact ⟨hpast.step hstep, hfirst.step hcanceled
        (hpast.sound (control_ne_crash_of_step hstep)) hok.1 hstep⟩
    exact hinv.2

/-- Two promises that one call of `cancel` rejects: the record of the second is run first,
and its callback is going to raise; the first has a cancel callback. -/
def handlerMoves : List (Move ℕ) :=
  [.call .task 0, .call .task 0, .call (.tryAttach 0 (.dontWait 0)) 0, .ret (.promise 1),
    .call (.onCancel 0 0) 0, .call (.join [0, 1]) 0, .call (.cancel 2) 0, .raise (.raised 0)]

/-- The mark of that cancel callback. -/
def handlerMark : Mark := ⟨1, 0⟩

/-- A handler of `dont_wait` that raises keeps a cancel callback from being called. -/
theorem cancel_callback_forgotten : ∃ c : Config ℕ,
    Reach step (fun c _ => c.protectedInTime = true ∧ c.npickUndisturbed = true) (initial 0 0) c ∧
    c.loopsEnded = true ∧ .cancelAttached handlerMark ∈ c.trace ∧
    c.heap.stateOf handlerMark.on = some (.resolved (.rejected .canceled)) ∧
    .cancelCalled handlerMark ∉ c.trace := by
  obtain ⟨c, hreach, hc⟩ := exists_reach (fun c _ => c.protectedInTime && c.npickUndisturbed)
    (P := fun c => c.loopsEnded && (.cancelAttached handlerMark ∈ c.trace &&
      (c.heap.stateOf handlerMark.on = some (.resolved (.rejected .canceled)) &&
        .cancelCalled handlerMark ∉ c.trace)))
    (show (script _ 40 (initial 0 0) handlerMoves).any _ = true by decide)
  simp only [Bool.and_eq_true, decide_eq_true_eq] at hc
  exact ⟨c, hreach.mono fun c a hok => by simpa using hok, hc⟩

/-- A task in a sequence with a cancel callback of the user. -/
def cancelTaskMoves : List (Move ℕ) :=
  [.call .createSequence 0, .call (.addTaskR 1) 0, .call (.onCancel 0 0) 0, .call (.cancel 0) 0,
    .ret .unit]

theorem cancel_callbacks_called_once_task : ∃ c : Config ℕ,
    Reach step (fun c _ => c.quiet = true ∧ c.protectedInTime = true ∧ c.npickUndisturbed = true)
      (initial 0 0) c ∧ c.loopsEnded = true ∧
    ((calledMarks c.trace).map Mark.id).Nodup ∧
    .cancelCalled ⟨0, 0⟩ ∈ c.trace ∧ .cancelCalled ⟨1, 0⟩ ∈ c.trace := by
  obtain ⟨c, hreach, hc⟩ := exists_reach
    (fun c _ => c.quiet && (c.protectedInTime && c.npickUndisturbed))
    (P := fun c => c.loopsEnded && (.cancelAttached ⟨0, 0⟩ ∈ c.trace &&
      (.cancelAttached ⟨1, 0⟩ ∈ c.trace &&
        c.heap.stateOf 0 = some (.resolved (.rejected .canceled)))))
    (show (script _ 40 (initial 0 0) cancelTaskMoves).any _ = true by decide)
  simp only [Bool.and_eq_true, decide_eq_true_eq] at hc
  obtain ⟨hended, hfirst, hsecond, hcanceled⟩ := hc
  have hreach' : Reach step (fun c _ => c.quiet = true ∧ c.protectedInTime = true ∧
      c.npickUndisturbed = true) (initial 0 0) c := hreach.mono fun c a hok => by simpa using hok
  obtain ⟨-, hnodup, hall, -⟩ := cancel_callbacks_called_once hreach'
  exact ⟨c, hreach', hended, hnodup, (hall _ hfirst).2.2 hended hcanceled,
    (hall _ hsecond).2.2 hended hcanceled⟩

end Lwt
