import Lwt.Io.Locks

/-!
# Passing the lock on

Who waits in the queue of a wrapper is woken by the task that gives the wrapper back.  Two branches
break this chain of wake-ups: the first of the queue is taken although it has been canceled, and a
woken task that finds its wrapper `Invalid` does not pass the wake-up on.  In the runs that avoid
both, and in which no woken task is overtaken, nothing waits for a wrapper that nobody uses.
-/

namespace Lwt.Io

open Transition

variable {m u : Channel} {i j v w tmp : ℕ} {s t : Status} {x : State} {o : Outcome}

namespace Channel

/-- A task is queued on `w`, and not canceled. -/
def live (m : Channel) (w : ℕ) : Bool :=
  m.tasks.any fun t => decide (t.wrapper = w ∧ t.status = .queued)

/-- The first of the queue of `w` has been canceled. -/
def stale (m : Channel) (w : ℕ) : Bool :=
  ((m.queued w).head?.bind fun j => m.tasks[j]?).any fun t => decide (t.status = .canceled)

theorem live_of_at (h : m.At i w .queued) : m.live w = true := by
  obtain ⟨kind, hi⟩ := h
  exact List.any_eq_true.mpr ⟨_, List.mem_of_getElem? hi, by simp⟩

theorem not_stale (hj : (m.queued w).head? = some j) (hs : m.stale w = false) :
    ¬ m.At j v .canceled := by
  rintro ⟨kind, h⟩
  simp [stale, hj, h] at hs

@[simp] theorem stale_setState (m : Channel) (v w : ℕ) (x : State) :
    (m.setState v x).stale w = m.stale w := by
  simp only [stale, queued_setState]
  rfl

@[simp] theorem live_setState (m : Channel) (v w : ℕ) (x : State) :
    (m.setState v x).live w = m.live w := rfl

/-- Something uses `w`. -/
def Used (m : Channel) (w : ℕ) : Prop := ∃ i s, m.At i w s ∧ s.uses = true

/-- Whatever is queued will be woken, except perhaps on `w`. -/
structure PassedBut (m : Channel) (w : ℕ) : Prop where
  queued : ∀ i v, v ≠ w → m.At i v .queued → m.Used v
  waiting : ∀ v, v ≠ w → m.state v = .waitingForBusy → ∃ j, m.At j v .woken

/-- Whatever is queued will be woken. -/
structure Passed (m : Channel) : Prop where
  queued : ∀ i v, m.At i v .queued → m.Used v
  waiting : ∀ v, m.state v = .waitingForBusy → ∃ j, m.At j v .woken

/-- The tasks that use a wrapper go on, and no task begins to wait. -/
structure Carries (m u : Channel) : Prop where
  used : ∀ w, m.Used w → u.Used w
  queued : ∀ i w, u.At i w .queued → m.At i w .queued
  waiting : ∀ w, u.state w = .waitingForBusy → m.state w = .waitingForBusy
  woken : ∀ j w, m.At j w .woken → u.state w = .waitingForBusy → u.At j w .woken

theorem Passed.of_carries (h : Passed m) (hu : Carries m u) : Passed u where
  queued := fun i v hi => hu.used v (h.queued i v (hu.queued i v hi))
  waiting := by
    intro v hv
    obtain ⟨j, hj⟩ := h.waiting v (hu.waiting v hv)
    exact ⟨j, hu.woken j v hj hv⟩

theorem Carries.trans {r : Channel} (h : Carries m u) (h' : Carries u r) : Carries m r where
  used := fun w hw => h'.used w (h.used w hw)
  queued := fun i w hi => h.queued i w (h'.queued i w hi)
  waiting := fun w hw => h.waiting w (h'.waiting w hw)
  woken := fun j w hj hw => h'.woken j w (h.woken j w hj (h'.waiting w hw)) hw

theorem Carries.of_states (hat : ∀ i w s, u.At i w s ↔ m.At i w s)
    (hstates : ∀ w, u.state w = .waitingForBusy → m.state w = .waitingForBusy) : Carries m u where
  used := by
    rintro w ⟨i, s, hi, hs⟩
    exact ⟨i, s, (hat i w s).mpr hi, hs⟩
  queued := fun i w hi => (hat i w _).mp hi
  waiting := hstates
  woken := fun j w hj _ => (hat j w _).mpr hj

theorem Carries.addTask (m : Channel) (kind : Kind) (w : ℕ) (ht : t ≠ .queued) :
    Carries m (m.addTask kind w t) where
  used := by
    rintro v ⟨i, s, hi, hs⟩
    exact ⟨i, s, by grind, hs⟩
  queued := by grind
  waiting := fun v hv => hv
  woken := by grind

theorem Carries.setStatus (hi : m.At i w s) (ht : t ≠ .queued)
    (huses : s.uses = true → t.uses = true) (hs : s ≠ .woken) : Carries m (m.setStatus i t) where
  used := by
    rintro v ⟨j, r, hj, hr⟩
    by_cases hji : j = i
    · subst hji
      obtain ⟨rfl, rfl⟩ := hi.unique hj
      exact ⟨j, t, by grind, huses hr⟩
    · exact ⟨j, r, by grind, hr⟩
  queued := by grind
  waiting := fun v hv => hv
  woken := by grind

theorem Carries.abort (m : Channel) (w : ℕ) : Carries m (m.abort w).1 := by
  refine Carries.of_states (fun i v s => at_abort m w i v s) ?_
  intro v hv
  rcases state_abort m w v with h | ⟨-, -, -, h⟩ <;> rw [h] at hv
  · exact hv
  · cases hv

theorem Carries.fail (hi : m.At i w s) (hs : s.uses = false) (kind : Kind) (o : Outcome) :
    Carries m (m.fail i kind o) := by
  have hwoken : s ≠ .woken := by
    rintro rfl
    cases hs
  have huses : s.uses = true → ∀ o, (Status.ended o).uses = true := by simp [hs]
  unfold Channel.fail
  split
  · have hi' : (m.abort 0).1.At i w s := by simpa using hi
    exact (Carries.abort m 0).trans
      (Carries.setStatus hi' (by simp) (fun h => huses h _) hwoken)
  · exact Carries.setStatus hi (by simp) (fun h => huses h _) hwoken

theorem Carries.take (hi : m.At i v s) (hlt : w < m.wrappers.length) (hv : s.uses = true → v = w)
    (ht : t.uses = true) (hx : x ≠ .waitingForBusy) :
    Carries m ((m.setState w x).setTask i w t) where
  used := by
    have hi' := hi.lt
    have hset : ((m.setState w x).setTask i w t).At i w t := by
      rw [at_setTask]
      exact Or.inl ⟨rfl, rfl, rfl, hi'⟩
    rintro k ⟨j, r, hj, hr⟩
    by_cases hji : j = i
    · subst hji
      obtain ⟨rfl, rfl⟩ := hi.unique hj
      obtain rfl := hv hr
      exact ⟨j, t, hset, ht⟩
    · exact ⟨j, r, by grind, hr⟩
  queued := by
    intro j k hj
    have hqueued : t ≠ .queued := by
      rintro rfl
      cases ht
    grind
  waiting := by grind
  woken := by
    intro j k hj hk
    have huses : Status.uses .woken = true := rfl
    grind

/-! ## Waking the next -/

theorem Passed.vacate (h : Passed m) (hi : m.At i w s) (ht : t.gone = true) :
    PassedBut (m.setStatus i t) w where
  queued := by
    intro j v hv hj
    have hqueued : t ≠ .queued := by
      rintro rfl
      cases ht
    obtain ⟨k, r, hk, hr⟩ := h.queued j v (by grind)
    exact ⟨k, r, by grind, hr⟩
  waiting := by
    intro v hv hstate
    obtain ⟨j, hj⟩ := h.waiting v hstate
    exact ⟨j, by grind⟩

theorem PassedBut.setState (h : PassedBut m w) (hx : v = w ∨ x ≠ .waitingForBusy) :
    PassedBut (m.setState v x) w where
  queued := h.queued
  waiting := by
    intro k hk hstate
    exact h.waiting k hk (by grind)

theorem PassedBut.wakeFirst (h : PassedBut m w) (hm : Fair m)
    (hstale : m.stale w = true → m.live w = false)
    (hwaiting : m.state w = .waitingForBusy → m.queued w ≠ [] ∧ m.stale w = false) :
    Passed (m.wakeFirst w) := by
  have hold : ∀ j v r, m.At j v r → r ≠ .queued → (m.wakeFirst w).At j v r := by
    intro j v r hj hr
    rw [at_wakeFirst]
    exact Or.inr ⟨hj, fun _ => hr⟩
  have hfirst : ∀ j, (m.queued w).head? = some j → m.stale w = false →
      (m.wakeFirst w).At j w .woken := by
    intro j hj hs
    rcases hm.queue j w (List.mem_of_mem_head? hj) with hq | hc
    · rw [at_wakeFirst]
      exact Or.inl ⟨hj, rfl, hq⟩
    · exact absurd hc (not_stale hj hs)
  refine ⟨?_, ?_⟩
  · intro i v hi
    have hi' : m.At i v .queued := by grind
    by_cases hv : v = w
    · subst hv
      cases hq : (m.queued v).head? with
      | none =>
        have hmem := hm.waits i v hi'
        rw [List.head?_eq_none_iff.mp hq] at hmem
        cases hmem
      | some j =>
        refine ⟨j, .woken, hfirst j hq ?_, rfl⟩
        by_contra hs
        have hlive := hstale (by simpa using hs)
        rw [live_of_at hi'] at hlive
        cases hlive
    · obtain ⟨j, r, hj, hr⟩ := h.queued i v hv hi'
      refine ⟨j, r, hold j v r hj ?_, hr⟩
      rintro rfl
      cases hr
  · intro v hv
    rw [state_wakeFirst] at hv
    by_cases hvw : v = w
    · subst hvw
      obtain ⟨hne, hs⟩ := hwaiting hv
      cases hq : (m.queued v).head? with
      | none => exact absurd (List.head?_eq_none_iff.mp hq) hne
      | some j => exact ⟨j, hfirst j hq hs⟩
    · obtain ⟨j, hj⟩ := h.waiting v hvw hv
      exact ⟨j, hold j v _ hj (by simp)⟩

theorem Carries.launchFlusher (m : Channel) : Carries m m.launchFlusher := by
  have h := Carries.addTask m (t := .paused) .autoFlush 0 (by simp)
  exact ⟨h.used, h.queued, h.waiting, h.woken⟩

theorem PassedBut.unlock (h : PassedBut m w) (hm : Vacant m w) (hidle : m.state w ≠ .idle)
    (hwaiting : m.state w ≠ .waitingForBusy)
    (hstale : m.stale w = true → m.live w = false ∧ (m.state w).busy = false) :
    Passed (m.unlock w) := by
  rcases unlock_cases m w with ⟨hbusy, hq, hu⟩ | ⟨hbusy, hq, hu⟩ | ⟨hstate, hu⟩ | ⟨hstate, -⟩
  · have hpassed : Passed (m.setState w .idle) := by
      have hset := h.setState (v := w) (x := .idle) (Or.inl rfl)
      refine ⟨?_, ?_⟩
      · intro i v hi
        refine hset.queued i v ?_ hi
        rintro rfl
        have hmem := hm.waits i v hi
        simp [hq] at hmem
      · intro v hv
        by_cases hvw : v = w
        · subst hvw
          rcases state_setState_self m v .idle with h | h <;> simp [h] at hv
        · exact hset.waiting v hvw hv
    rcases hu with hu | hu <;> rw [hu]
    · exact hpassed
    · exact hpassed.of_carries (Carries.launchFlusher _)
  · rw [hu]
    have hs : m.stale w = false := by
      by_contra hs
      have hfree := (hstale (by simpa using hs)).2
      rw [hbusy] at hfree
      cases hfree
    refine (h.setState (Or.inl rfl)).wakeFirst (hm.setState (x := .waitingForBusy) rfl).toFair ?_ ?_
    · simp [hs]
    · exact fun _ => ⟨by simpa using hq, by simpa using hs⟩
  · rw [hu]
    exact h.wakeFirst hm.toFair (fun hs => (hstale hs).1) fun hw => absurd hw hwaiting
  · rcases hstate with h | h
    · exact absurd h hidle
    · exact absurd h hwaiting

theorem stale_of_gone (ht : t.gone = true) (h : (m.setStatus i t).stale w = true) :
    m.stale w = true := by
  simp only [stale, queued_setStatus, Option.any_eq_true, Option.bind_eq_some_iff,
    decide_eq_true_eq] at h ⊢
  obtain ⟨x, ⟨j, hj, hx⟩, hcanceled⟩ := h
  refine ⟨x, ⟨j, hj, ?_⟩, hcanceled⟩
  simp only [Channel.setStatus, List.getElem?_modify] at hx
  by_cases hij : i = j
  · subst hij
    cases hi : m.tasks[i]? <;> simp [hi] at hx
    subst hx
    obtain rfl : t = .canceled := hcanceled
    cases ht
  · simpa [hij] using hx

theorem live_of_gone (ht : t.gone = true) (h : m.live w = false) :
    (m.setStatus i t).live w = false := by
  by_contra hlive
  have hlive' : (m.setStatus i t).live w = true := by simpa using hlive
  obtain ⟨x, hx, hqueued⟩ := List.any_eq_true.mp hlive'
  obtain ⟨j, hj⟩ := List.mem_iff_getElem?.mp hx
  obtain ⟨rfl, hstatus⟩ : x.wrapper = w ∧ x.status = .queued := by simpa using hqueued
  have hat := At.of_task hj
  rw [hstatus] at hat
  have hne : t ≠ .queued := by
    rintro rfl
    cases ht
  have hold : m.At j x.wrapper .queued := by grind
  rw [live_of_at hold] at h
  cases h

theorem Passed.release (h : Passed m) (hm : Locked m) (hi : m.At i w s) (hs : s.uses = true)
    (hidle : m.state w ≠ .idle) (hwaiting : m.state w ≠ .waitingForBusy)
    (hstale : m.stale w = true → m.live w = false ∧ (m.state w).busy = false)
    (ht : t.gone = true) : Passed ((m.setStatus i t).unlock w) := by
  refine (h.vacate hi ht).unlock (hm.vacate hi hs ht) hidle hwaiting fun hstale' => ?_
  obtain ⟨hlive, hbusy⟩ := hstale (stale_of_gone ht hstale')
  exact ⟨live_of_gone ht hlive, hbusy⟩

theorem Passed.unlock_fail (h : Passed m) (hm : Locked m) (hi : m.At i w s) (hs : s.uses = true)
    (hidle : m.state w ≠ .idle) (hwaiting : m.state w ≠ .waitingForBusy)
    (hstale : m.stale w = true → m.live w = false ∧ (m.state w).busy = false) (kind : Kind)
    (o : Outcome) : Passed (((m.setStatus i .called).unlock w).fail i kind o) := by
  have hi' : (m.setStatus i .called).At i w .called := by grind
  exact (h.release hm hi hs hidle hwaiting hstale rfl).of_carries
    (Carries.fail (hi'.unlock (by simp) w) rfl kind o)

theorem Carries.enter (hi : m.At i w s) (hlt : w < m.wrappers.length) (kind : Kind) :
    Carries m (m.enter i kind w) := by
  cases kind with
  | atomic =>
    have hi' : (m.addWrapper.setState w (.busyAtomic m.wrappers.length)).At i w s := hi
    have hadd : Carries m m.addWrapper :=
      Carries.of_states (fun _ _ _ => Iff.rfl) (by grind)
    rw [enter_atomic hlt, setStatus_eq_setTask hi']
    exact hadd.trans (Carries.take (m := m.addWrapper) hi (by simp; omega) (fun _ => rfl) rfl
      (by simp))
  | _ =>
    have hi' : (m.setState w .busyPrimitive).At i w s := hi
    change Carries m ((m.setState w .busyPrimitive).setStatus i .running)
    rw [setStatus_eq_setTask hi']
    exact Carries.take hi hlt (fun _ => rfl) rfl (by simp)

theorem Passed.call (h : Passed m) (hm : Locked m) (kind : Kind) (hw : w < m.wrappers.length) :
    Passed (m.call kind w) := by
  have hnew : (m.addTask kind w .called).At m.tasks.length w .called := by grind
  have hadd := Carries.addTask m (t := .called) kind w (by simp)
  have hfail := fun o => h.of_carries (hadd.trans (Carries.fail hnew rfl kind o))
  -- whoever is queued finds a task that uses the wrapper
  have hpush : m.Used w → Passed ((m.addTask kind w .queued).setQueued w
      (m.queued w ++ [m.tasks.length])) := by
    intro hused
    have hkeeps : ∀ v, m.Used v → ((m.addTask kind w .queued).setQueued w
        (m.queued w ++ [m.tasks.length])).Used v := by
      rintro v ⟨j, r, hj, hr⟩
      exact ⟨j, r, by grind, hr⟩
    refine ⟨?_, ?_⟩
    · intro i v hi
      rw [at_setQueued, at_addTask] at hi
      rcases hi with ⟨-, rfl, -⟩ | hi
      · exact hkeeps v hused
      · exact hkeeps v (h.queued i v hi)
    · intro v hv
      rw [state_setQueued, state_addTask] at hv
      obtain ⟨j, hj⟩ := h.waiting v hv
      exact ⟨j, by grind⟩
  unfold Channel.call
  cases hstate : m.state w with
  | idle => exact h.of_carries (hadd.trans (Carries.enter hnew hw kind))
  | busyPrimitive | busyAtomic => exact hpush (hm.busy w (by simp [hstate, State.busy]))
  | waitingForBusy =>
    obtain ⟨j, hj⟩ := h.waiting w hstate
    exact hpush ⟨j, .woken, hj, rfl⟩
  | closed | invalid => exact hfail _

theorem Passed.fail_invalid (h : Passed m) (hi : m.At i w .woken) (hw : m.state w = .invalid)
    (hlive : m.live w = false) (kind : Kind) (o : Outcome) : Passed (m.fail i kind o) := by
  have hended : ∀ {r : Channel}, Passed r → r.At i w .woken → r.state w ≠ .waitingForBusy →
      r.live w = false → ∀ o, Passed (r.setStatus i (.ended o)) := by
    intro r hr hi hw hlive o
    have hvacate := hr.vacate (t := .ended o) hi rfl
    refine ⟨?_, ?_⟩
    · intro j v hj
      refine hvacate.queued j v ?_ hj
      rintro rfl
      have hlive' := live_of_gone (i := i) (t := .ended o) rfl hlive
      rw [live_of_at hj] at hlive'
      cases hlive'
    · intro v hv
      refine hvacate.waiting v ?_ hv
      rintro rfl
      exact hw hv
  unfold Channel.fail
  split
  · refine hended (h.of_carries (Carries.abort m 0)) (by simpa using hi) ?_ ?_ _
    · rcases state_abort m 0 w with h | ⟨-, -, h, -⟩
      · simp [h, hw]
      · exact absurd hw h
    · simpa [live] using hlive
  · exact hended h hi (by simp [hw]) hlive o

theorem Passed.resume (h : Passed m) (hm : Locked m) (hi : m.At i w .woken) (kind : Kind)
    (hclosed : m.state w = .closed → m.stale w = true → m.live w = false)
    (hinvalid : m.state w = .invalid → m.live w = false) : Passed (m.resume i kind w) := by
  have hallows := hm.allows i w .woken hi rfl
  have hlt := hm.inside i w _ hi
  unfold Channel.resume
  cases hstate : m.state w with
  | closed =>
    exact h.unlock_fail hm hi rfl (by simp [hstate]) (by simp [hstate])
      (fun hs => ⟨hclosed hstate hs, by simp [hstate, State.busy]⟩) kind _
  | idle | waitingForBusy => exact h.of_carries (Carries.enter hi hlt kind)
  | invalid => exact h.fail_invalid hi hstate (hinvalid hstate) kind _
  | busyPrimitive | busyAtomic => simp [hstate, State.Allows, Status.active] at hallows

theorem Passed.autoFlush (h : Passed m) (hm : Locked m) (hi : m.At i w .paused) :
    Passed (m.autoFlush i) := by
  rcases autoFlush_cases (fun w tmp hw => (hm.atomic w tmp hw).1) i with
    ⟨hstate, hu⟩ | ⟨-, b, hu⟩ <;> rw [hu]
  · have hlt : m.deepestWrapper 0 < m.wrappers.length := lt_of_state (by simp [hstate])
    have hc := Carries.take (t := .running) (x := .busyPrimitive) hi hlt (by rintro ⟨⟩)
      rfl (by simp)
    exact h.of_carries ⟨hc.used, hc.queued, hc.waiting, hc.woken⟩
  · have hc := Carries.setStatus (t := .ended .returned) hi (by simp) (by rintro ⟨⟩) (by simp)
    exact h.of_carries ⟨hc.used, hc.queued, hc.waiting, hc.woken⟩

theorem Passed.endFlush (h : Passed m) (hm : Locked m) (hi : m.At i w s) (hs : s.active = true)
    (hstale : m.stale w = true → m.live w = false) : Passed (m.endFlush i w) := by
  have huses := Status.uses_of_active hs
  have hallows := hm.allows i w s hi huses
  have hpassed := h.vacate (t := .ended .returned) hi rfl
  have hvacant := hm.vacate (t := .ended .returned) hi huses rfl
  have hstale' : (m.setStatus i (.ended .returned)).stale w = true →
      (m.setStatus i (.ended .returned)).live w = false := fun hs =>
    live_of_gone rfl (hstale (stale_of_gone rfl hs))
  rcases endFlush_cases m i w with ⟨-, hu⟩ | ⟨hw, hu⟩ <;> rw [hu]
  · refine (hpassed.setState (Or.inl rfl)).wakeFirst (hvacant.setState (x := .idle) rfl).toFair
      (by simpa using hstale') ?_
    intro hwaiting
    rcases state_setState_self (m.setStatus i (.ended .returned)) w .idle with h | h <;>
      simp [h] at hwaiting
  · refine hpassed.wakeFirst hvacant.toFair hstale' ?_
    intro hwaiting
    rw [state_setStatus] at hwaiting
    rw [hwaiting] at hallows
    obtain rfl : s = .woken := hallows
    cases hs

theorem Locked.state_active (h : Locked m) (hi : m.At i w s) (hs : s.holds = true) :
    m.state w ≠ .idle ∧ m.state w ≠ .waitingForBusy := by
  have hallows := h.allows i w s hi (Status.uses_of_holds hs)
  refine ⟨?_, ?_⟩ <;> intro hw <;> rw [hw] at hallows
  · obtain rfl : s = .woken := hallows
    cases hs
  · obtain rfl : s = .woken := hallows
    cases hs

theorem Passed.closes (h : Passed m) (hm : Locked m) (hi : m.At i w s) (hs : s.active = true)
    (hstale : (m.abort 0).2 ≠ .closeResult → m.stale w = true →
      m.live w = false ∧ (m.state w).busy = false) : Passed (m.closes i w) := by
  have habort := h.of_carries (Carries.abort m 0)
  have hi' : (m.abort 0).1.At i w s := by simpa using hi
  have hholds := Status.holds_of_active hs
  obtain ⟨hidle, hwaiting⟩ := (hm.abort 0).state_active hi' hholds
  unfold Channel.closes
  simp only
  split
  case isTrue =>
    refine habort.of_carries (Carries.setStatus hi' (by simp) (fun _ => rfl) ?_)
    rintro rfl
    cases hs
  case isFalse hfailed =>
    refine habort.unlock_fail (hm.abort 0) hi' (Status.uses_of_holds hholds) hidle hwaiting ?_
      .close _
    intro hs
    obtain ⟨hlive, hbusy⟩ := hstale hfailed (by simpa [stale] using hs)
    exact ⟨by simpa [live] using hlive, busy_abort m 0 w hbusy⟩

theorem Passed.endBlock (h : Passed m) (hm : Locked m) (hi : m.At i w (.block tmp))
    (hstale : m.stale w = true → m.live w = false ∧ (m.state w).busy = false) :
    Passed (m.endBlock i w tmp) := by
  obtain ⟨hidle, hwaiting⟩ := hm.state_active hi rfl
  have hne : w ≠ tmp := Nat.ne_of_lt (hm.block i w tmp hi).1
  have hw : ((m.setStatus i (.ended .returned)).setState tmp .invalid).state w = m.state w := by
    grind
  refine ((h.vacate hi rfl).setState (Or.inr (by simp))).unlock
    ((hm.vacate hi rfl rfl).invalidate tmp) (by rwa [hw]) (by rwa [hw]) fun hs => ?_
  rw [stale_setState] at hs
  obtain ⟨hlive, hbusy⟩ := hstale (stale_of_gone rfl hs)
  exact ⟨by simpa using live_of_gone (i := i) (t := .ended .returned) rfl hlive, by rwa [hw]⟩

theorem Passed.active (h : Passed m) (hi : m.At i w s) (hs : s.active = true)
    (ht : t.active = true) : Passed (m.setStatus i t) := by
  refine h.of_carries (Carries.setStatus hi ?_ (fun _ => Status.uses_of_active ht) ?_)
  · rintro rfl
    cases ht
  · rintro rfl
    cases hs

theorem At.woken_by_unlock (hj : m.At j w .queued) (hhead : (m.queued w).head? = some j)
    (hidle : m.state w ≠ .idle) (hwaiting : m.state w ≠ .waitingForBusy) :
    (m.unlock w).At j w .woken := by
  rcases unlock_cases m w with ⟨-, hq, -⟩ | ⟨-, -, hu⟩ | ⟨-, hu⟩ | ⟨hstate, -⟩
  · simp [hq] at hhead
  · rw [hu, at_wakeFirst]
    exact Or.inl ⟨by simpa using hhead, rfl, hj⟩
  · rw [hu, at_wakeFirst]
    exact Or.inl ⟨hhead, rfl, hj⟩
  · rcases hstate with h | h
    · exact absurd h hidle
    · exact absurd h hwaiting

theorem Locked.woken_by_finish (h : Locked m) (hi : m.At i w s) (hs : s.holds = true)
    (hj : m.At j w .queued) (hhead : (m.queued w).head? = some j)
    (hu : Stepped m (.finish i) u) : u.At j w .woken := by
  have hne : j ≠ i := by
    rintro rfl
    obtain ⟨-, rfl⟩ := hi.unique hj
    cases hs
  obtain ⟨hidle, hwaiting⟩ := h.state_active hi hs
  have hj' : ∀ o, (m.setStatus i (.ended o)).At j w .queued := by grind
  cases hu with
  | call kind v a hv ha => simp at ha
  | abort kind v a hv ha => simp at ha
  | endFlush i v r hi' =>
    obtain ⟨rfl, rfl⟩ := hi.unique ⟨_, hi'⟩
    rcases endFlush_cases m i w with ⟨-, hu⟩ | ⟨-, hu⟩ <;> rw [hu, at_wakeFirst]
    · exact Or.inl ⟨by simpa using hhead, rfl, hj' _⟩
    · exact Or.inl ⟨hhead, rfl, hj' _⟩
  | ends i v kind r o hi' =>
    obtain ⟨rfl, rfl⟩ := hi.unique ⟨_, hi'⟩
    exact (hj' o).woken_by_unlock hhead hidle hwaiting
  | endBlock i v tmp hi' =>
    obtain ⟨rfl, rfl⟩ := hi.unique hi'
    have htmp : w ≠ tmp := Nat.ne_of_lt (h.block i w tmp hi).1
    have hw : ((m.setStatus i (.ended .returned)).setState tmp .invalid).state w = m.state w := by
      grind
    exact At.woken_by_unlock (hj' _) (by simpa using hhead) (by rwa [hw]) (by rwa [hw])

end Channel

open Channel

/-- The wrapper that a step passes on, and whether `unlock` does it. -/
def passedOn (m : Channel) : Step → Option (ℕ × Bool)
  | .finish i => (m.tasks[i]?).map fun t =>
    (t.wrapper, !(decide (t.kind = .autoFlush) && m.flushOver t.status))
  | .closes i =>
    if (m.abort 0).2 = .closeResult then none
    else (m.tasks[i]?).map fun t => (t.wrapper, true)
  | .closeFails i => (m.tasks[i]?).map fun t => (t.wrapper, true)
  | .resume i => (m.tasks[i]?).bind fun t =>
    if m.state t.wrapper = .closed then some (t.wrapper, true) else none
  | _ => none

/-- The invalid wrapper for which a task has been woken that goes on now. -/
def forgotten (m : Channel) : Step → Option ℕ
  | .resume i => (m.tasks[i]?).bind fun t =>
    if m.state t.wrapper = .invalid then some t.wrapper else none
  | _ => none

/-- The first of the queue of a wrapper that is passed on has not been canceled, or nothing is
queued there any more and the wrapper is not left `Waiting_for_busy`; and a task that finds its
wrapper invalid leaves nothing queued there. -/
def Handed (m : Channel) (a : Step) : Prop :=
  (∀ p ∈ passedOn m a, m.stale p.1 = true →
    m.live p.1 = false ∧ (p.2 = true → (m.state p.1).busy = false)) ∧
  ∀ w ∈ forgotten m a, m.live w = false

instance (m : Channel) (a : Step) : Decidable (Handed m a) :=
  inferInstanceAs (Decidable ((∀ p ∈ passedOn m a, m.stale p.1 = true →
    m.live p.1 = false ∧ (p.2 = true → (m.state p.1).busy = false)) ∧
    ∀ w ∈ forgotten m a, m.live w = false))

theorem passed_step {a : Step} (h : m.Passed) (hm : m.Locked) (ha : Handed m a)
    (hu : Stepped m a u) : u.Passed := by
  cases hu with
  | call kind w a hw => exact h.call hm kind hw
  | abort kind w a hw =>
    exact h.of_carries ((Carries.abort m w).trans (Carries.addTask _ kind w (by simp)))
  | writeChar w b =>
    have hbuffer : Passed (m.put [b]) := ⟨h.queued, h.waiting⟩
    unfold Channel.writeChar
    simp only
    split
    · exact hbuffer
    · exact hbuffer.of_carries (Carries.launchFlusher _)
  | resume i w kind hi =>
    refine h.resume hm ⟨kind, hi⟩ kind ?_ ?_
    -- the token goes on when the wrapper has been closed meanwhile
    · intro hclosed hs
      exact (ha.1 (w, true) (by simp [passedOn, hi, hclosed]) hs).1
    · intro hinvalid
      exact ha.2 w (by simp [forgotten, hi, hinvalid])
  | cancel i w hi => exact h.of_carries (Carries.setStatus hi (by simp) (by rintro ⟨⟩) (by simp))
  | runCanceled i w kind hi =>
    have hi' : m.At i w .canceled := ⟨kind, hi⟩
    have hdequeue : Carries m (m.setQueued w ((m.queued w).erase i)) :=
      Carries.of_states (fun _ _ _ => Iff.rfl) (by simp)
    have hi'' : (m.setQueued w ((m.queued w).erase i)).At i w .canceled := hi'
    exact h.of_carries (hdequeue.trans (Carries.fail hi'' rfl kind _))
  | write i w b hi => exact ⟨h.queued, h.waiting⟩
  | resize i w length hi => exact ⟨h.queued, h.waiting⟩
  | performIo i w kind hi =>
    have hi' : m.At i w .running := ⟨kind, hi⟩
    have hfailed := h.active hi' rfl (t := if kind.flushes then .flushFailed else .running)
      (Channel.active_performFailed kind)
    have hperforming := h.active hi' rfl (t := .performing m.buffer.length) rfl
    rcases performIoThen_cases m (·.performFailed i kind)
        (fun m => m.setStatus i (.performing m.buffer.length)) with
      ⟨b, n, hu, -⟩ | ⟨-, -, -, hu⟩ <;> rw [Channel.performIo, hu]
    · exact ⟨hfailed.queued, hfailed.waiting⟩
    · exact ⟨hperforming.queued, hperforming.waiting⟩
  | performed i w len n hi =>
    have hrunning := h.active hi rfl (t := .running) rfl
    obtain ⟨flushed, buffer, beyond, hu⟩ := shift_cases (m.setStatus i .running) len n
    rw [Channel.performed, hu]
    exact ⟨hrunning.queued, hrunning.waiting⟩
  | performFails i w len kind hi =>
    exact h.active ⟨kind, hi⟩ rfl (Channel.active_performFailed kind)
  | daPerform i w data =>
    rcases performIoThen_cases (m.put data) id
        (fun m => { m with calls := m.calls ++ [(i, m.buffer.length)] }) with
      ⟨b, n, hu, -⟩ | ⟨-, -, -, hu⟩ <;> rw [Channel.daPerform, hu] <;> exact ⟨h.queued, h.waiting⟩
  | daPerformed k i len n =>
    obtain ⟨flushed, buffer, beyond, hu⟩ := shift_cases (m.dropCall k) len n
    rw [hu]
    exact ⟨h.queued, h.waiting⟩
  | daFails k => exact ⟨h.queued, h.waiting⟩
  | flush i w hi => exact h.autoFlush hm hi
  | closes i w s hi hs =>
    refine h.closes hm ⟨_, hi⟩ (active_of_flushOver hs) fun hfailed hs => ?_
    obtain ⟨hlive, hbusy⟩ := ha.1 (w, true) (by simp [passedOn, hi, hfailed]) hs
    exact ⟨hlive, hbusy rfl⟩
  | closeFails i w hi =>
    obtain ⟨hidle, hwaiting⟩ := hm.state_active hi rfl
    refine h.unlock_fail hm hi rfl hidle hwaiting (fun hs => ?_) .close _
    obtain ⟨kind, hi'⟩ := hi
    obtain ⟨hlive, hbusy⟩ := ha.1 (w, true) (by simp [passedOn, hi']) hs
    exact ⟨hlive, hbusy rfl⟩
  | endFlush i w s hi hs =>
    refine h.endFlush hm ⟨_, hi⟩ (active_of_flushOver hs) fun hstale => ?_
    exact (ha.1 (w, false) (by simp [passedOn, hi, hs]) hstale).1
  | ends i w kind s o hi hs =>
    have hholds : s.holds = true := by rcases hs with ⟨rfl, -⟩ | ⟨rfl, -⟩ <;> rfl
    obtain ⟨hidle, hwaiting⟩ := hm.state_active ⟨kind, hi⟩ hholds
    have hpassed : passedOn m (.finish i) = some (w, true) := by
      rcases hs with ⟨rfl, rfl, -⟩ | ⟨rfl, -⟩ <;> simp [passedOn, hi, flushOver]
    refine h.release hm ⟨kind, hi⟩ (Status.uses_of_holds hholds) hidle hwaiting (fun hs => ?_) rfl
    obtain ⟨hlive, hbusy⟩ := ha.1 (w, true) hpassed hs
    exact ⟨hlive, hbusy rfl⟩
  | endBlock i w tmp hi =>
    refine h.endBlock hm hi fun hs => ?_
    obtain ⟨kind, hi'⟩ := hi
    obtain ⟨hlive, hbusy⟩ := ha.1 (w, true) (by simp [passedOn, hi', flushOver]) hs
    exact ⟨hlive, hbusy rfl⟩

theorem passed_make (typ : Typ) (mode : Mode) (length : ℕ) : (make typ mode length).Passed := by
  refine ⟨?_, ?_⟩
  · rintro i w ⟨kind, h⟩
    simp [make] at h
  · intro w hw
    cases w <;> simp [make, state] at hw

/-- In every run in which no woken task is overtaken, no canceled task is taken from a queue in the
place of another one, and no woken task finds its wrapper invalid while others are queued there:
whatever is queued on a wrapper, a task holds the wrapper and wakes the first of the queue when it
ends, or a task has been woken and is about to run; there is only one such task, and
`Waiting_for_busy` has a woken one behind it. -/
theorem queued_is_woken (typ : Typ) (mode : Mode) (length : ℕ)
    (hreach : Reach step (fun m a => Orderly m a ∧ Handed m a) (make typ mode length) m) :
    (∀ i w, m.At i w .queued →
      (∃ j s, m.At j w s ∧ s.holds = true) ∨ (∃ j, m.At j w .woken)) ∧
    (∀ w, m.state w = .waitingForBusy → ∃ j, m.At j w .woken) ∧
    (∀ i w, m.At i w .queued → m.state w = .idle → ∃ j, m.At j w .woken) ∧
    (∀ i j w s t, m.At i w s → m.At j w t → s.uses = true → t.uses = true → i = j) ∧
    (∀ i j w s u, m.At i w s → s.holds = true → m.At j w .queued → (m.queued w).head? = some j →
      step m (.finish i) = some u → u.At j w .woken) := by
  obtain ⟨hm, h⟩ : m.Locked ∧ m.Passed := by
    refine hreach.invariant (P := fun m => m.Locked ∧ m.Passed)
      ⟨locked_make typ mode length, passed_make typ mode length⟩ ?_
    rintro m a u ⟨hm, h⟩ ⟨horderly, hhanded⟩ hu
    have hu' := step_cases hm.main hu
    exact ⟨locked_step hm horderly hu', passed_step h hm hhanded hu'⟩
  have hqueued : ∀ i w, m.At i w .queued →
      (∃ j s, m.At j w s ∧ s.holds = true) ∨ (∃ j, m.At j w .woken) := by
    intro i w hi
    obtain ⟨j, s, hj, hs⟩ := h.queued i w hi
    rcases Bool.or_eq_true_iff.mp hs with hs | hs
    · exact Or.inl ⟨j, s, hj, hs⟩
    · obtain rfl := of_decide_eq_true hs
      exact Or.inr ⟨j, hj⟩
  refine ⟨hqueued, h.waiting, ?_, hm.unique, ?_⟩
  · intro i w hi hw
    rcases hqueued i w hi with ⟨j, s, hj, hs⟩ | hwoken
    · exact absurd hw (hm.state_active hj hs).1
    · exact hwoken
  · intro i j w s u hi hs hj hhead hu
    exact hm.woken_by_finish hi hs hj hhead (step_cases hm.main hu)

/-- An operation and an atomic block wait for another operation. -/
theorem queued_is_woken_two :
    ∃ m, Reach step (fun m a => Orderly m a ∧ Handed m a) (make .normal .output 16) m ∧
      m.At 2 0 .queued ∧ m.state 0 = .waitingForBusy ∧ ∃ j, m.At j 0 .woken := by
  obtain ⟨m, hm⟩ : ∃ m, replay (checked step fun m a => decide (Orderly m a ∧ Handed m a))
      (make .normal .output 16) [.primitive 0, .primitive 0, .atomic 0, .finish 0] = some m :=
    ⟨_, rfl⟩
  have hreach := (reach_of_checked _ hm).mono (k := fun m a => Orderly m a ∧ Handed m a)
    fun m a h => of_decide_eq_true h
  have hall := queued_is_woken .normal .output 16 hreach
  obtain ⟨hqueued, hstate⟩ : m.tasks[2]? = some ⟨.atomic, 0, .queued⟩ ∧
      m.state 0 = .waitingForBusy := by
    cases hm.symm.trans rfl
    exact ⟨rfl, rfl⟩
  exact ⟨m, hreach, ⟨_, hqueued⟩, hstate, hall.2.1 0 hstate⟩

/-- One `Lwt.cancel` reaches the operation that holds the main wrapper and the first of the queue;
the callbacks of the former run first.  The second of the queue stays there. -/
theorem canceled_is_woken :
    ¬ ∀ m, Reach step (fun _ _ => True) (make .normal .output 16) m →
      ∀ i w, m.At i w .queued → (∃ j s, m.At j w s ∧ s.holds = true) ∨ (∃ j, m.At j w .woken) := by
  intro hall
  obtain ⟨m, hm⟩ : ∃ m, replay step (make .normal .output 16) [.primitive 0, .primitive 0,
      .primitive 0, .cancel 1, .finish 0, .runCanceled 1] = some m := ⟨_, rfl⟩
  have hqueued := hall m (reach_of_replay _ hm) 2 0
  obtain ⟨htask, hunused⟩ : m.tasks[2]? = some ⟨.primitive, 0, .queued⟩ ∧
      ∀ t ∈ m.tasks, t.status.uses = false := by
    cases hm.symm.trans rfl
    exact ⟨rfl, by decide⟩
  rcases hqueued ⟨_, htask⟩ with ⟨j, s, ⟨kind, hj⟩, hs⟩ | ⟨j, kind, hj⟩
  · have hfree := hunused _ (List.mem_of_getElem? hj)
    rw [Status.uses_of_holds hs] at hfree
    cases hfree
  · cases hunused _ (List.mem_of_getElem? hj)

end Lwt.Io
