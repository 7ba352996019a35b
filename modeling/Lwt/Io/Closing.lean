import Lwt.Io.Frame

/-!
# Closing a channel

`abort` marks the deepest wrapper.  When the main wrapper has no atomic block this is the main one,
nothing gives it another state later, and everything that is called afterwards fails or returns
the result of the first `close`.  Inside an atomic block it is a temporary wrapper that is marked,
and the end of the block makes the main one usable again.
-/

namespace Lwt.Io

open Transition

variable {m u : Channel} {i j v w tmp : ℕ} {s t : Status} {x : State} {o : Outcome} {kind : Kind}

/-- What is known of a task, where `c` tells that the main wrapper is closed. -/
structure Task.Settled (c : Prop) (t : Task) : Prop where
  abort : t.kind = .abort → ∃ o, t.status = .ended o
  block : ∀ tmp, t.status = .block tmp → tmp ≠ 0 ∧ t.kind = .atomic
  paused : t.status = .paused → t.kind = .autoFlush
  closing : t.status = .closing → c
  ended : ∀ o, t.status = .ended o → o ≠ .invalidArgument ∧
    (t.kind = .close ∨ t.kind = .abort ∧ t.wrapper = 0 → o = .closeResult ∧ c)

namespace Channel

/-- The main wrapper is closed exactly when `abort_waiter` is rejected, and no other one is. -/
structure Sealed (m : Channel) : Prop where
  main : m.state 0 ≠ .invalid
  closed : ∀ w, m.state w = .closed → w = 0
  aborted : m.aborted = true ↔ m.state 0 = .closed
  invalidArgument : m.invalidArgument = false
  settled : ∀ t ∈ m.tasks, t.Settled (m.state 0 = .closed)

theorem Sealed.congr {m u : Channel} (h : Sealed m) (hw : u.wrappers = m.wrappers)
    (ht : u.tasks = m.tasks) (ha : u.aborted = m.aborted)
    (hi : u.invalidArgument = m.invalidArgument) : Sealed u := by
  cases m
  cases u
  cases hw
  cases ht
  cases ha
  cases hi
  exact ⟨h.main, h.closed, h.aborted, h.invalidArgument, h.settled⟩

/-- What all functions but `abort` and `perform_io` keep. -/
structure Seals (m u : Channel) : Prop where
  main : m.state 0 ≠ .invalid → u.state 0 ≠ .invalid
  closed : ∀ w, u.state w = .closed ↔ m.state w = .closed
  aborted : u.aborted = m.aborted
  invalidArgument : u.invalidArgument = m.invalidArgument
  performs : u.performs = m.performs

theorem Seals.trans {r : Channel} (h : Seals m u) (h' : Seals u r) : Seals m r where
  main := fun hm => h'.main (h.main hm)
  closed := fun w => (h'.closed w).trans (h.closed w)
  aborted := h'.aborted.trans h.aborted
  invalidArgument := h'.invalidArgument.trans h.invalidArgument
  performs := h'.performs.trans h.performs

theorem Sealed.of_seals (h : Sealed m) (hu : Seals m u)
    (hsettled : ∀ t ∈ u.tasks, t ∈ m.tasks ∨ t.Settled (m.state 0 = .closed)) : Sealed u where
  main := hu.main h.main
  closed := fun w hw => h.closed w ((hu.closed w).mp hw)
  aborted := by rw [hu.aborted, hu.closed 0, h.aborted]
  invalidArgument := hu.invalidArgument.trans h.invalidArgument
  settled := by
    intro t ht
    rw [hu.closed 0]
    rcases hsettled t ht with ht | ht
    · exact h.settled t ht
    · exact ht

theorem Seals.of_states (hstates : ∀ w, u.state w = m.state w) (haborted : u.aborted = m.aborted)
    (hinvalid : u.invalidArgument = m.invalidArgument) (hperforms : u.performs = m.performs) :
    Seals m u :=
  ⟨fun hm => by rwa [hstates 0], fun w => by rw [hstates w], haborted, hinvalid, hperforms⟩

theorem Seals.setStatus (m : Channel) (i : ℕ) (t : Status) : Seals m (m.setStatus i t) :=
  .of_states (fun _ => rfl) rfl rfl rfl

theorem Seals.addTask (m : Channel) (kind : Kind) (w : ℕ) (t : Status) :
    Seals m (m.addTask kind w t) :=
  .of_states (fun _ => rfl) rfl rfl rfl

theorem Seals.setQueued (m : Channel) (w : ℕ) (q : List ℕ) : Seals m (m.setQueued w q) :=
  .of_states (fun v => state_setQueued m w v q) rfl rfl rfl

theorem Seals.launchFlusher (m : Channel) : Seals m m.launchFlusher :=
  .of_states (fun _ => rfl) rfl rfl rfl

theorem Seals.wakeFirst (m : Channel) (w : ℕ) : Seals m (m.wakeFirst w) := by
  refine .of_states (fun v => state_wakeFirst m w v) ?_ ?_ ?_
  all_goals
    unfold Channel.wakeFirst
    split <;> rfl

theorem Seals.setState (m : Channel) (hw : m.state w ≠ .closed) (hx : x ≠ .closed)
    (hvalid : w = 0 → x ≠ .invalid) : Seals m (m.setState w x) := by
  refine ⟨?_, ?_, rfl, rfl, rfl⟩
  · grind
  · grind

theorem Seals.unlock (m : Channel) (w : ℕ) : Seals m (m.unlock w) := by
  have hset : (m.state w).busy = true → ∀ x, x ≠ .closed → x ≠ .invalid →
      Seals m (m.setState w x) := by
    intro hbusy x hx hvalid
    refine Seals.setState m ?_ hx fun _ => hvalid
    intro h
    simp [h, State.busy] at hbusy
  rcases unlock_cases m w with ⟨hbusy, -, hu | hu⟩ | ⟨hbusy, -, hu⟩ | ⟨-, hu⟩ | ⟨-, hu⟩ <;> rw [hu]
  · exact hset hbusy .idle (by simp) (by simp)
  · exact (hset hbusy .idle (by simp) (by simp)).trans (Seals.launchFlusher _)
  · exact (hset hbusy .waitingForBusy (by simp) (by simp)).trans (Seals.wakeFirst _ w)
  · exact Seals.wakeFirst m w
  · exact .of_states (fun _ => rfl) rfl rfl rfl

theorem Seals.enter (m : Channel) (i : ℕ) (kind : Kind)
    (hw : m.state w = .idle ∨ m.state w = .waitingForBusy) : Seals m (m.enter i kind w) := by
  have hset : ∀ x, x ≠ .closed → x ≠ .invalid → Seals m (m.setState w x) := by
    intro x hx hvalid
    refine Seals.setState m ?_ hx fun _ => hvalid
    rcases hw with hw | hw <;> simp [hw]
  cases kind with
  | atomic =>
    have hadd : ∀ r : Channel, Seals r r.addWrapper := by
      intro r
      refine ⟨by grind, ?_, rfl, rfl, rfl⟩
      intro v
      have hlt := lt_of_state (m := r) (w := v)
      grind
    exact ((hset _ (by simp) (by simp)).trans (Seals.setStatus _ i _)).trans (hadd _)
  | _ => exact (hset _ (by simp) (by simp)).trans (Seals.setStatus _ i _)

/-! ## The tasks -/

theorem Sealed.setStatus (h : Sealed m)
    (ht : ∀ y, m.tasks[i]? = some y → ({ y with status := t } : Task).Settled
    (m.state 0 = .closed)) :
    Sealed (m.setStatus i t) := by
  refine h.of_seals (Seals.setStatus m i t) fun x hx => ?_
  rcases mem_setStatus hx with hx | ⟨y, hy, rfl⟩
  · exact Or.inl hx
  · exact Or.inr (ht y hy)

theorem Sealed.addTask (h : Sealed m) (ht : (⟨kind, w, t⟩ : Task).Settled (m.state 0 = .closed)) :
    Sealed (m.addTask kind w t) := by
  refine h.of_seals (Seals.addTask m kind w t) fun x hx => ?_
  rcases List.mem_append.mp hx with hx | hx
  · exact Or.inl hx
  · obtain rfl := List.mem_singleton.mp hx
    exact Or.inr ht

end Channel

namespace Status

/-- The statuses of a task that neither has ended nor is an atomic block or a `close`. -/
def plain : Status → Bool
  | called | queued | woken | canceled | running | performing _ | flushFailed => true
  | _ => false

end Status

theorem Task.Settled.of_plain {c : Prop} {t : Task} (hkind : t.kind ≠ .abort)
    (ht : t.status.plain = true) : t.Settled c where
  abort := fun h => absurd h hkind
  block := by
    intro tmp h
    simp [h, Status.plain] at ht
  paused := by
    intro h
    simp [h, Status.plain] at ht
  closing := by
    intro h
    simp [h, Status.plain] at ht
  ended := by
    intro o h
    simp [h, Status.plain] at ht

theorem Task.Settled.of_paused {c : Prop} : (⟨.autoFlush, w, .paused⟩ : Task).Settled c :=
  ⟨by simp, by simp, by simp, by simp, by simp⟩

theorem Task.Settled.of_ended {c : Prop} (hkind : kind ≠ .abort) (hclose : kind ≠ .close)
    (ho : o ≠ .invalidArgument) : (⟨kind, w, .ended o⟩ : Task).Settled c where
  abort := fun h => absurd h hkind
  block := by simp
  paused := by simp
  closing := by simp
  ended := by
    rintro o ⟨⟩
    refine ⟨ho, ?_⟩
    rintro (h | ⟨h, -⟩)
    · exact absurd h hclose
    · exact absurd h hkind

theorem Task.Settled.of_closed {c : Prop} (hc : c) :
    (⟨kind, w, .ended .closeResult⟩ : Task).Settled c where
  abort := fun _ => ⟨_, rfl⟩
  block := by simp
  paused := by simp
  closing := by simp
  ended := by
    rintro o ⟨⟩
    exact ⟨by simp, fun _ => ⟨rfl, hc⟩⟩

theorem Task.Settled.kind_ne_abort {c : Prop} {t : Task} (h : t.Settled c)
    (ht : ∀ o, t.status ≠ .ended o) : t.kind ≠ .abort := by
  intro hkind
  obtain ⟨o, ho⟩ := h.abort hkind
  exact ht o ho

namespace Channel

/-- Once the main wrapper is closed it stays so, and the perform function is not called. -/
def Stays (m u : Channel) : Prop :=
  m.state 0 = .closed → u.state 0 = .closed ∧ u.performs = m.performs

theorem Stays.trans {r : Channel} (h : Stays m u) (h' : Stays u r) : Stays m r := by
  intro hm
  obtain ⟨hu, hperforms⟩ := h hm
  obtain ⟨hr, hperforms'⟩ := h' hu
  exact ⟨hr, hperforms'.trans hperforms⟩

theorem Seals.stays (h : Seals m u) : Stays m u := fun hm => ⟨(h.closed 0).mpr hm, h.performs⟩

theorem Sealed.woken (h : Sealed m) {y : Task} (hy : y ∈ m.tasks) (hqueued : y.status = .queued) :
    ({ y with status := .woken } : Task).Settled (m.state 0 = .closed) :=
  .of_plain ((h.settled y hy).kind_ne_abort (by simp [hqueued])) rfl

theorem Sealed.wakeFirst (h : Sealed m) (w : ℕ) : Sealed (m.wakeFirst w) := by
  refine h.of_seals (Seals.wakeFirst m w) fun x hx => ?_
  rcases mem_wakeFirst hx with hx | ⟨y, hy, hqueued, rfl⟩
  · exact Or.inl hx
  · exact Or.inr (h.woken hy hqueued)

theorem Sealed.unlock (h : Sealed m) (w : ℕ) : Sealed (m.unlock w) := by
  refine h.of_seals (Seals.unlock m w) fun x hx => ?_
  rcases mem_unlock hx with hx | ⟨y, hy, hqueued, rfl⟩ | rfl
  · exact Or.inl hx
  · exact Or.inr (h.woken hy hqueued)
  · exact Or.inr .of_paused

theorem Sealed.launchFlusher (h : Sealed m) : Sealed m.launchFlusher := by
  refine h.of_seals (Seals.launchFlusher m) fun x hx => ?_
  rcases List.mem_append.mp hx with hx | hx
  · exact Or.inl hx
  · obtain rfl := List.mem_singleton.mp hx
    exact Or.inr .of_paused

/-- `abort`, while the main wrapper has no atomic block. -/
theorem Sealed.abort_main (h : Sealed m) (hflat : ∀ tmp, m.state 0 ≠ .busyAtomic tmp) :
    (m.abort 0).2 = .closeResult ∧ Sealed (m.abort 0).1 ∧ (m.abort 0).1.state 0 = .closed ∧
      Stays m (m.abort 0).1 := by
  have hdeep : m.deepestWrapper 0 = 0 := by
    unfold Channel.deepestWrapper
    cases m.wrappers.length with
    | zero => rfl
    | succ fuel =>
      unfold Channel.deepestFrom
      split
      case h_1 tmp htmp => exact absurd htmp (hflat tmp)
      case h_2 => rfl
  have hlt : 0 < m.wrappers.length := lt_of_state h.main
  rcases abort_cases m 0 with ⟨hw, hu⟩ | ⟨hw, -⟩ | ⟨hw, -, ⟨-, hu⟩ | ⟨haborted, -⟩⟩
  · rw [hu]
    rw [hdeep] at hw
    exact ⟨rfl, h, hw, fun hm => ⟨hm, rfl⟩⟩
  · rw [hdeep] at hw
    exact absurd hw h.main
  · rw [hdeep] at hw hu
    have hstate : ∀ v, (m.abort 0).1.state v = if v = 0 then .closed else m.state v := by
      intro v
      rw [hu]
      refine (state_setState m 0 v .closed).trans ?_
      simp [hlt]
    refine ⟨by rw [hu], ⟨?_, ?_, ?_, ?_, ?_⟩, by simp [hstate], fun hm => absurd hm hw⟩
    · simp [hstate]
    · intro w hclosed
      by_contra hne
      rw [hstate] at hclosed
      exact hne (h.closed w (by simpa [hne] using hclosed))
    · exact iff_of_true (by rw [hu]) (by simp [hstate])
    · rw [hu]
      exact h.invalidArgument
    · intro t ht
      rw [hu] at ht
      have hold := h.settled t ht
      have hclosed : (m.abort 0).1.state 0 = .closed := by simp [hstate]
      refine ⟨hold.abort, hold.block, hold.paused, fun _ => hclosed, ?_⟩
      intro o ho
      refine ⟨(hold.ended o ho).1, fun hkind => ?_⟩
      exact ⟨((hold.ended o ho).2 hkind).1, hclosed⟩
  · rw [hdeep] at hw
    exact absurd (h.aborted.mp haborted) hw

theorem Sealed.fail_close (h : Sealed m) (hflat : ∀ tmp, m.state 0 ≠ .busyAtomic tmp) (i : ℕ)
    (o : Outcome) : Sealed (m.fail i .close o) ∧ Stays m (m.fail i .close o) := by
  obtain ⟨hresult, hsealed, hclosed, hstays⟩ := h.abort_main hflat
  refine ⟨hsealed.setStatus fun y hy => ?_, hstays.trans (Seals.setStatus _ i _).stays⟩
  rw [hresult]
  exact .of_closed hclosed

theorem Sealed.fail (h : Sealed m) (hi : m.tasks[i]? = some ⟨kind, w, s⟩) (hkind : kind ≠ .abort)
    (hflat : kind = .close → ∀ tmp, m.state 0 ≠ .busyAtomic tmp) (ho : o ≠ .invalidArgument) :
    Sealed (m.fail i kind o) ∧ Stays m (m.fail i kind o) := by
  by_cases hclose : kind = .close
  · obtain rfl := hclose
    exact h.fail_close (hflat rfl) i o
  · unfold Channel.fail
    rw [if_neg hclose]
    refine ⟨h.setStatus fun y hy => ?_, (Seals.setStatus m i _).stays⟩
    rw [hi] at hy
    cases hy
    exact .of_ended hkind hclose ho

theorem Sealed.enter (h : Sealed m) (hi : m.tasks[i]? = some ⟨kind, w, s⟩) (hkind : kind ≠ .abort)
    (hw : m.state w = .idle ∨ m.state w = .waitingForBusy) : Sealed (m.enter i kind w) := by
  refine h.of_seals (Seals.enter m i kind hw) fun x hx => ?_
  have hlt : 0 < m.wrappers.length := lt_of_state h.main
  cases hk : kind with
  | atomic =>
    subst hk
    rcases mem_setStatus (m := m.setState w (.busyAtomic m.wrappers.length))
      hx with hx | ⟨y, hy, rfl⟩
    · exact Or.inl hx
    · have hy' : m.tasks[i]? = some y := hy
      rw [hi] at hy'
      cases hy'
      refine Or.inr ⟨by simp, ?_, by simp, by simp, by simp⟩
      rintro tmp ⟨⟩
      exact ⟨Nat.ne_of_gt hlt, rfl⟩
  | abort => exact absurd hk hkind
  | _ =>
    subst hk
    rcases mem_setStatus (m := m.setState w .busyPrimitive) hx with hx | ⟨y, hy, rfl⟩
    · exact Or.inl hx
    · have hy' : m.tasks[i]? = some y := hy
      rw [hi] at hy'
      cases hy'
      exact Or.inr (.of_plain hkind rfl)

theorem tasks_length (m : Channel) (kind : Kind) (w : ℕ) (t : Status) :
    (m.addTask kind w t).tasks[m.tasks.length]? = some ⟨kind, w, t⟩ := by
  simp [Channel.addTask]

theorem Sealed.call (h : Sealed m) (hkind : kind ≠ .abort)
    (hflat : kind = .close → w = 0) : Sealed (m.call kind w) ∧ Stays m (m.call kind w) := by
  have hcalled : Sealed (m.addTask kind w .called) := h.addTask (.of_plain hkind rfl)
  have hstays := (Seals.addTask m kind w .called).stays
  have hnew := tasks_length m kind w .called
  have hfail : ∀ o, o ≠ .invalidArgument → (kind = .close → ∀ tmp, m.state 0 ≠ .busyAtomic tmp) →
      Sealed ((m.addTask kind w .called).fail m.tasks.length kind o) ∧
        Stays m ((m.addTask kind w .called).fail m.tasks.length kind o) := by
    intro o ho hclose
    obtain ⟨hsealed, hstays'⟩ := hcalled.fail hnew hkind hclose ho
    exact ⟨hsealed, hstays.trans hstays'⟩
  unfold Channel.call
  cases hstate : m.state w with
  | idle =>
    exact ⟨hcalled.enter hnew hkind (Or.inl hstate),
      hstays.trans (Seals.enter (m.addTask kind w .called) _ kind (Or.inl hstate)).stays⟩
  | busyPrimitive | busyAtomic | waitingForBusy =>
    have hqueued : Sealed (m.addTask kind w .queued) := h.addTask (.of_plain hkind rfl)
    exact ⟨hqueued.of_seals (Seals.setQueued _ w _) fun x hx => Or.inl hx,
      (Seals.addTask m kind w .queued).stays.trans (Seals.setQueued _ w _).stays⟩
  | closed | invalid =>
    refine hfail _ (by simp) fun hclose => ?_
    obtain rfl := hflat hclose
    simp [hstate]

theorem task_setStatus (hi : m.tasks[i]? = some ⟨kind, w, s⟩) (t : Status) :
    (m.setStatus i t).tasks[i]? = some ⟨kind, w, t⟩ := by
  simp [Channel.setStatus, hi]

theorem unlock_task (hi : m.tasks[i]? = some ⟨kind, w, .called⟩) (v : ℕ) :
    (m.unlock v).tasks[i]? = some ⟨kind, w, .called⟩ := by
  have hlt := (List.getElem?_eq_some_iff.mp hi).1
  have hwake : ∀ r : Channel, r.tasks = m.tasks →
    (r.wakeFirst v).tasks[i]? = some ⟨kind, w, .called⟩ := by
    intro r hr
    unfold Channel.wakeFirst
    split
    · rw [hr, hi]
    · simp only [List.getElem?_modify, hr, hi]
      split <;> simp
  rcases unlock_cases m v with ⟨-, -, hu | hu⟩ | ⟨-, -, hu⟩ | ⟨-, hu⟩ | ⟨-, hu⟩ <;> rw [hu]
  · exact hi
  · exact (List.getElem?_append_left hlt).trans hi
  · exact hwake _ rfl
  · exact hwake _ rfl
  · exact hi

theorem Sealed.give_back (h : Sealed m) (hi : m.tasks[i]? = some ⟨kind, w, s⟩)
    (hs : ∀ o, s ≠ .ended o) (v : ℕ) : Sealed ((m.setStatus i .called).unlock v) ∧
      Stays m ((m.setStatus i .called).unlock v) := by
  have hcalled : Sealed (m.setStatus i .called) := by
    refine h.setStatus fun y hy => ?_
    rw [hi] at hy
    cases hy
    exact .of_plain ((h.settled _ (List.mem_of_getElem? hi)).kind_ne_abort hs) rfl
  exact ⟨hcalled.unlock v, (Seals.setStatus m i .called).stays.trans (Seals.unlock _ v).stays⟩

theorem Sealed.resume (h : Sealed m) (hi : m.tasks[i]? = some ⟨kind, w, .woken⟩)
    (hflat : kind = .close → ∀ tmp, m.state 0 ≠ .busyAtomic tmp) :
    Sealed (m.resume i kind w) ∧ Stays m (m.resume i kind w) := by
  have hkind : kind ≠ .abort :=
    (h.settled _ (List.mem_of_getElem? hi)).kind_ne_abort (by simp)
  unfold Channel.resume
  cases hstate : m.state w with
  | closed =>
    obtain rfl := h.closed w hstate
    have hi' := task_setStatus hi .called
    obtain ⟨hsealed, hstays⟩ := h.give_back hi (by simp) 0
    obtain ⟨hsealed', hstays'⟩ := hsealed.fail (unlock_task hi' 0) hkind
      (fun _ => by simp [(hstays hstate).1]) (by simp : Outcome.closedChannel ≠ .invalidArgument)
    exact ⟨hsealed', hstays.trans hstays'⟩
  | idle => exact ⟨h.enter hi hkind (Or.inl hstate), (Seals.enter m i kind (Or.inl hstate)).stays⟩
  | waitingForBusy =>
    exact ⟨h.enter hi hkind (Or.inr hstate), (Seals.enter m i kind (Or.inr hstate)).stays⟩
  | invalid => exact h.fail hi hkind hflat (by simp)
  | busyPrimitive | busyAtomic =>
    have hasserted : Seals m { m with asserted := true } := .of_states (fun _ => rfl) rfl rfl rfl
    obtain ⟨hsealed, hstays⟩ := (h.of_seals hasserted fun x hx => Or.inl hx).fail hi hkind hflat
      (by simp : (Outcome.assertFalse) ≠ .invalidArgument)
    exact ⟨hsealed, hasserted.stays.trans hstays⟩

theorem Sealed.autoFlush (h : Sealed m) (hi : m.At i w .paused) :
    Sealed (m.autoFlush i) ∧ Stays m (m.autoFlush i) := by
  obtain ⟨kind, hi⟩ := hi
  obtain rfl : kind = .autoFlush := (h.settled _ (List.mem_of_getElem? hi)).paused rfl
  have hended : ∀ o, o ≠ .invalidArgument → Sealed (m.setStatus i (.ended o)) := by
    intro o ho
    refine h.setStatus fun y hy => ?_
    rw [hi] at hy
    cases hy
    exact .of_ended (by simp) (by simp) ho
  have hset := Seals.setStatus m i
  rcases autoFlush_split m i with ⟨hstate, hu⟩ | ⟨-, b, hu⟩ | ⟨tmp, -, hu⟩ <;> rw [hu]
  · have hset : Seals m (m.setState (m.deepestWrapper 0) .busyPrimitive) :=
      Seals.setState m (by simp [hstate]) (by simp) fun _ => by simp
    have hu : Seals m { (m.setState (m.deepestWrapper 0) .busyPrimitive).setTask i
        (m.deepestWrapper 0) .running with autoFlushing := false } :=
      hset.trans (.of_states (fun _ => rfl) rfl rfl rfl)
    refine ⟨h.of_seals hu fun x hx => ?_, hu.stays⟩
    rcases mem_setTask (m := m.setState (m.deepestWrapper 0) .busyPrimitive) hx with
      hx | ⟨y, hy, rfl⟩
    · exact Or.inl hx
    · have hy' : m.tasks[i]? = some y := hy
      rw [hi] at hy'
      cases hy'
      exact Or.inr (.of_plain (by simp) rfl)
  · have hu := (hset (.ended .returned)).trans (u := m.setStatus i (.ended .returned))
      (r := { m.setStatus i (.ended .returned) with autoFlushing := b })
      (.of_states (fun _ => rfl) rfl rfl rfl)
    exact ⟨(hended _ (by simp)).of_seals (.of_states (fun _ => rfl) rfl rfl rfl)
      fun x hx => Or.inl hx, hu.stays⟩
  · have hu := (hset (.ended .assertFalse)).trans
      (r := { m.setStatus i (.ended .assertFalse) with asserted := true })
      (.of_states (fun _ => rfl) rfl rfl rfl)
    exact ⟨(hended _ (by simp)).of_seals (.of_states (fun _ => rfl) rfl rfl rfl)
      fun x hx => Or.inl hx, hu.stays⟩

theorem Sealed.plain (h : Sealed m) (hi : m.At i w s) (hs : ∀ o, s ≠ .ended o)
    (ht : t.plain = true) : Sealed (m.setStatus i t) := by
  obtain ⟨kind, hi⟩ := hi
  refine h.setStatus fun y hy => ?_
  rw [hi] at hy
  cases hy
  exact .of_plain ((h.settled _ (List.mem_of_getElem? hi)).kind_ne_abort hs) ht

theorem Sealed.performFailed (h : Sealed m) (hi : m.At i w s) (hs : ∀ o, s ≠ .ended o)
    (kind : Kind) : Sealed (m.performFailed i kind) :=
  h.plain hi hs (by split <;> rfl)

theorem Sealed.performIo (h : Sealed m) (hi : m.At i w .running) (kind : Kind) :
    Sealed (m.performIo i kind) ∧ Stays m (m.performIo i kind) := by
  have hfailed := h.performFailed hi (by simp) kind
  have hperforming := h.plain (t := .performing m.buffer.length) hi (by simp) rfl
  rcases performIoThen_cases m (·.performFailed i kind)
      (fun m => m.setStatus i (.performing m.buffer.length)) with
    ⟨b, n, hu, -, hn, -⟩ | ⟨hbusy, -, -, hu⟩ <;> rw [Channel.performIo, hu]
  · exact ⟨hfailed.congr rfl rfl rfl rfl, fun hm => ⟨hm, hn hm⟩⟩
  · refine ⟨hperforming.congr rfl rfl rfl rfl, fun hm => ?_⟩
    rw [hm] at hbusy
    cases hbusy

theorem Sealed.daPerform (h : Sealed m) (i : ℕ) (data : List UInt8) :
    Sealed (m.daPerform i data) ∧ Stays m (m.daPerform i data) := by
  rcases performIoThen_cases (m.put data) id
      (fun m => { m with calls := m.calls ++ [(i, m.buffer.length)] }) with
    ⟨b, n, hu, -, hn, -⟩ | ⟨hbusy, -, -, hu⟩ <;> rw [Channel.daPerform, hu]
  · exact ⟨h.congr rfl rfl rfl rfl, fun hm => ⟨hm, hn hm⟩⟩
  · refine ⟨h.congr rfl rfl rfl rfl, fun hm => ?_⟩
    rw [show (m.put data).state 0 = .closed from hm] at hbusy
    cases hbusy

theorem Sealed.shift (h : Sealed m) (len n : ℕ) :
    Sealed (m.shift len n) ∧ Stays m (m.shift len n) := by
  obtain ⟨flushed, buffer, beyond, hu⟩ := shift_cases m len n
  rw [hu]
  exact ⟨h.congr rfl rfl rfl rfl, fun hm => ⟨hm, rfl⟩⟩

theorem Sealed.endFlush (h : Sealed m) (hi : m.tasks[i]? = some ⟨.autoFlush, w, s⟩) :
    Sealed (m.endFlush i w) ∧ Stays m (m.endFlush i w) := by
  have hended : Sealed (m.setStatus i (.ended .returned)) := by
    refine h.setStatus fun y hy => ?_
    rw [hi] at hy
    cases hy
    exact .of_ended (by simp) (by simp) (by simp)
  have hstays := (Seals.setStatus m i (.ended .returned)).stays
  rcases endFlush_cases m i w with ⟨hw, hu⟩ | ⟨-, hu⟩ <;> rw [hu]
  · have hset : Seals (m.setStatus i (.ended .returned))
        ((m.setStatus i (.ended .returned)).setState w .idle) :=
      Seals.setState _ (by simp [hw]) (by simp) fun _ => by simp
    exact ⟨(hended.of_seals hset fun x hx => Or.inl hx).wakeFirst w,
      (hstays.trans hset.stays).trans (Seals.wakeFirst _ w).stays⟩
  · exact ⟨hended.wakeFirst w, hstays.trans (Seals.wakeFirst _ w).stays⟩

theorem Sealed.endBlock (h : Sealed m) (hi : m.At i w (.block tmp)) :
    Sealed (m.endBlock i w tmp) ∧ Stays m (m.endBlock i w tmp) := by
  obtain ⟨kind, hi⟩ := hi
  obtain ⟨htmp, hkind⟩ := (h.settled _ (List.mem_of_getElem? hi)).block tmp rfl
  obtain rfl : kind = .atomic := hkind
  have hended : Sealed (m.setStatus i (.ended .returned)) := by
    refine h.setStatus fun y hy => ?_
    rw [hi] at hy
    cases hy
    exact .of_ended (by simp) (by simp) (by simp)
  have hset : Seals (m.setStatus i (.ended .returned))
      ((m.setStatus i (.ended .returned)).setState tmp .invalid) :=
    Seals.setState _ (fun hclosed => htmp (h.closed tmp hclosed)) (by simp) fun h => absurd h htmp
  exact ⟨(hended.of_seals hset fun x hx => Or.inl hx).unlock w,
    ((Seals.setStatus m i _).stays.trans hset.stays).trans (Seals.unlock _ w).stays⟩

theorem Sealed.closes (h : Sealed m) (hi : m.tasks[i]? = some ⟨.close, w, s⟩)
    (hflat : ∀ tmp, m.state 0 ≠ .busyAtomic tmp) :
    Sealed (m.closes i w) ∧ Stays m (m.closes i w) := by
  obtain ⟨hresult, hsealed, hclosed, hstays⟩ := h.abort_main hflat
  unfold Channel.closes
  simp only [hresult, if_true]
  refine ⟨hsealed.setStatus fun y hy => ?_, hstays.trans (Seals.setStatus _ i _).stays⟩
  rw [tasks_abort, hi] at hy
  cases hy
  exact ⟨by simp, by simp, by simp, fun _ => hclosed, by simp⟩

theorem Sealed.closeFails (h : Sealed m) (hi : m.At i w .closing) :
    Sealed (m.closeFails i w) ∧ Stays m (m.closeFails i w) := by
  obtain ⟨kind, hi⟩ := hi
  have hclosed := (h.settled _ (List.mem_of_getElem? hi)).closing rfl
  obtain ⟨hsealed, hstays⟩ := h.give_back hi (by simp) w
  obtain ⟨hsealed', hstays'⟩ := hsealed.fail_close (by simp [(hstays hclosed).1]) i .closeResult
  exact ⟨hsealed', hstays.trans hstays'⟩

theorem Sealed.ends (h : Sealed m) (hi : m.tasks[i]? = some ⟨kind, w, s⟩)
    (hs : s = .running ∧ kind = .primitive ∧ o = .returned ∨ s = .closing ∧ o = .closeResult) :
    Sealed ((m.setStatus i (.ended o)).unlock w) ∧
      Stays m ((m.setStatus i (.ended o)).unlock w) := by
  have hended : Sealed (m.setStatus i (.ended o)) := by
    refine h.setStatus fun y hy => ?_
    rw [hi] at hy
    cases hy
    rcases hs with ⟨-, rfl, rfl⟩ | ⟨rfl, rfl⟩
    · exact .of_ended (by simp) (by simp) (by simp)
    · exact .of_closed ((h.settled _ (List.mem_of_getElem? hi)).closing rfl)
  exact ⟨hended.unlock w, (Seals.setStatus m i _).stays.trans (Seals.unlock _ w).stays⟩

theorem Sealed.writeChar (h : Sealed m) (b : UInt8) :
    Sealed (m.writeChar b) ∧ Stays m (m.writeChar b) := by
  have hbuffer : Sealed (m.put [b]) := h.congr rfl rfl rfl rfl
  unfold Channel.writeChar
  simp only
  split
  · exact ⟨hbuffer, fun hm => ⟨hm, rfl⟩⟩
  · exact ⟨hbuffer.launchFlusher, fun hm => ⟨hm, rfl⟩⟩

theorem Sealed.performed (h : Sealed m) {len : ℕ} (hi : m.At i w (.performing len)) (n : ℕ) :
    Sealed (m.performed i len n) ∧ Stays m (m.performed i len n) :=
  (h.plain (t := .running) hi (by simp) rfl).shift len n

end Channel

open Channel

/-- The wrapper on which a step calls `abort`. -/
def aborts (m : Channel) : Step → Option ℕ
  | .abort w => some w
  | .close => if m.mode = .input then some 0 else none
  | .closes _ => some 0
  | .resume i | .runCanceled i => (m.tasks[i]?).bind fun t =>
    if t.kind = .close then some 0 else none
  | _ => none

def State.isAtomic : State → Bool
  | busyAtomic _ => true
  | _ => false

/-- `abort` is called on the main wrapper only while it has no atomic block, and on a temporary
one only when it finds it closed or invalid. -/
def Flat (m : Channel) (a : Step) : Prop :=
  ∀ w ∈ aborts m a, (w = 0 → (m.state 0).isAtomic = false) ∧
    (w ≠ 0 → m.state (m.deepestWrapper w) = .closed ∨ m.state (m.deepestWrapper w) = .invalid)

instance (m : Channel) (a : Step) : Decidable (Flat m a) :=
  inferInstanceAs (Decidable (∀ w ∈ aborts m a, (w = 0 → (m.state 0).isAtomic = false) ∧
    (w ≠ 0 → m.state (m.deepestWrapper w) = .closed ∨
      m.state (m.deepestWrapper w) = .invalid)))

theorem Flat.main {a : Step} (h : Flat m a) (ha : aborts m a = some 0) (tmp : ℕ) :
    m.state 0 ≠ .busyAtomic tmp := by
  intro hmain
  have hflat := (h 0 ha).1 rfl
  simp [hmain, State.isAtomic] at hflat

theorem sealed_make (typ : Typ) (mode : Mode) (length : ℕ) : (make typ mode length).Sealed := by
  refine ⟨by simp [make, state], ?_, by simp [make, state], rfl, by simp [make]⟩
  intro w hw
  cases w <;> simp [make, state] at hw

theorem sealed_step {a : Step} (h : m.Sealed) (ha : Flat m a) (hu : Stepped m a u) :
    u.Sealed ∧ Stays m u := by
  cases hu with
  | call kind w a hw hcall =>
    refine h.call ?_ ?_
    · rcases hcall with ⟨-, rfl⟩ | ⟨-, rfl⟩ | ⟨-, rfl, -⟩ <;> simp
    · intro hclose
      rcases hcall with ⟨-, rfl⟩ | ⟨-, rfl⟩ | ⟨-, -, -, rfl⟩
      · cases hclose
      · cases hclose
      · rfl
  | abort kind w a hw habort =>
    by_cases hmain : w = 0
    · subst hmain
      have haborts : aborts m a = some 0 := by
        rcases habort with ⟨rfl, -⟩ | ⟨rfl, -, hmode, -⟩
        · rfl
        · simp [aborts, hmode]
      obtain ⟨hresult, hsealed, hclosed, hstays⟩ := h.abort_main (ha.main haborts)
      rw [hresult]
      exact ⟨hsealed.addTask (.of_closed hclosed), hstays.trans (Seals.addTask _ kind 0 _).stays⟩
    · obtain ⟨rfl, rfl⟩ : a = .abort w ∧ kind = .abort := by
        rcases habort with h | ⟨-, -, -, h⟩
        · exact h
        · exact absurd h hmain
      -- the temporary wrapper is left as it is
      obtain ⟨habort', hresult⟩ : (m.abort w).1 = m ∧ (m.abort w).2 ≠ .invalidArgument := by
        rcases (ha w rfl).2 hmain with hdeep | hdeep
        · simp [Channel.abort, hdeep]
        · simp [Channel.abort, hdeep]
      rw [habort']
      refine ⟨h.addTask ⟨fun _ => ⟨_, rfl⟩, by simp, by simp, by simp, ?_⟩,
        (Seals.addTask m .abort w _).stays⟩
      rintro o ⟨⟩
      exact ⟨hresult, by simp [hmain]⟩
  | writeChar w b => exact h.writeChar b
  | resume i w kind hi =>
    exact h.resume hi fun hclose => ha.main (by simp [aborts, hi, hclose])
  | cancel i w hi => exact ⟨h.plain hi (by simp) rfl, (Seals.setStatus m i _).stays⟩
  | runCanceled i w kind hi =>
    have hkind := (h.settled _ (List.mem_of_getElem? hi)).kind_ne_abort (by simp)
    have hset := Seals.setQueued m w ((m.queued w).erase i)
    obtain ⟨hsealed, hstays⟩ := (h.of_seals hset fun x hx => Or.inl hx).fail
      (o := .canceled) hi hkind (fun hclose tmp => by
        rw [state_setQueued]
        exact ha.main (by simp [aborts, hi, hclose]) tmp) (by simp)
    exact ⟨hsealed, hset.stays.trans hstays⟩
  | write i w b hi =>
    exact ⟨h.congr rfl rfl rfl rfl, fun hm => ⟨hm, rfl⟩⟩
  | resize i w length hi =>
    exact ⟨h.congr rfl rfl rfl rfl, fun hm => ⟨hm, rfl⟩⟩
  | performIo i w kind hi => exact h.performIo ⟨kind, hi⟩ kind
  | performed i w len n hi => exact h.performed hi n
  | performFails i w len kind hi =>
    exact ⟨h.performFailed ⟨kind, hi⟩ (by simp) kind, (Seals.setStatus m i _).stays⟩
  | daPerform i w data => exact h.daPerform i data
  | daPerformed k i len n =>
    have hdrop : (m.dropCall k).Sealed := h.congr rfl rfl rfl rfl
    exact hdrop.shift len n
  | daFails k => exact ⟨h.congr rfl rfl rfl rfl, fun hm => ⟨hm, rfl⟩⟩
  | flush i w hi => exact h.autoFlush hi
  | closes i w s hi => exact h.closes hi (ha.main rfl)
  | closeFails i w hi => exact h.closeFails hi
  | endFlush i w s hi => exact h.endFlush hi
  | ends i w kind s o hi hs => exact h.ends hi hs
  | endBlock i w tmp hi => exact h.endBlock hi

/-! ## After the channel is closed -/

theorem setStatus_addTask (m : Channel) (kind : Kind) (w : ℕ) (s t : Status) :
    (m.addTask kind w s).setStatus m.tasks.length t = m.addTask kind w t := by
  simp only [Channel.addTask, Channel.setStatus]
  congr 1
  refine List.ext_getElem (by simp) fun j hj hj' => ?_
  simp only [List.getElem_modify, List.getElem_append]
  grind

theorem abort_of_closed (hm : m.state 0 = .closed) : m.abort 0 = (m, .closeResult) := by
  have hdeep : m.state (m.deepestWrapper 0) = .closed := by
    unfold Channel.deepestWrapper
    cases m.wrappers.length with
    | zero => exact hm
    | succ fuel => simp [Channel.deepestFrom, hm]
  simp [Channel.abort, hdeep]

theorem fail_of_closed (hm : m.state 0 = .closed) (i : ℕ) (kind : Kind) (o : Outcome) :
    m.fail i kind o = m.setStatus i (.ended (if kind = .close then .closeResult else o)) := by
  unfold Channel.fail
  split <;> simp [abort_of_closed hm]

theorem call_of_closed (hm : m.state 0 = .closed) (kind : Kind) : m.call kind 0 =
    m.addTask kind 0 (.ended (if kind = .close then .closeResult else .closedChannel)) := by
  simp only [Channel.call, hm]
  rw [fail_of_closed (m := m.addTask kind 0 .called) hm, setStatus_addTask]

theorem close_of_closed (hm : m.state 0 = .closed) :
    m.close = m.addTask .close 0 (.ended .closeResult) := by
  unfold Channel.close
  split
  · rw [abort_of_closed hm]
  · exact call_of_closed hm .close

/-- A task that was queued on the main wrapper goes on after it has been closed. -/
theorem resume_of_closed (hm : m.state 0 = .closed) (hi : m.tasks[i]? = some ⟨kind, 0, .woken⟩)
    (hu : step m (.resume i) = some u) : u.buffer = m.buffer ∧ u.tasks[i]? = some
      ⟨kind, 0, .ended (if kind = .close then .closeResult else .closedChannel)⟩ := by
  have hi' := task_setStatus hi .called
  have hwake : (m.setStatus i .called).unlock 0 = (m.setStatus i .called).wakeFirst 0 := by
    unfold Channel.unlock
    simp [hm]
  have hbuffer : ((m.setStatus i .called).wakeFirst 0).buffer = m.buffer := by
    unfold Channel.wakeFirst
    split <;> rfl
  have htask := unlock_task hi' 0
  obtain rfl : ((m.setStatus i .called).wakeFirst 0).fail i kind .closedChannel = u := by
    simpa [step, withTask, hi, Channel.resume, hm, hwake] using hu
  rw [hwake] at htask
  rw [fail_of_closed (by simpa using hm)]
  exact ⟨hbuffer, task_setStatus htask _⟩

/-- In every run in which `abort` finds no atomic block: no `close` and no `abort` raises
`Invalid_argument`; one that has ended on the main wrapper has given the result of closing, and the
channel is closed.  From then on it stays closed and the perform function is not called, an
operation, an atomic block, a `close` or an `abort` on it ends at once and changes nothing else,
and so does one that was queued. -/
theorem closed_for_ever (typ : Typ) (mode : Mode) (length : ℕ)
    (hreach : Reach step Flat (make typ mode length) m) :
    (m.invalidArgument = false ∧ ∀ i w, ¬ m.At i w (.ended .invalidArgument)) ∧
    (∀ (i : ℕ) (kind : Kind) (w : ℕ) (o : Outcome), m.tasks[i]? = some ⟨kind, w, .ended o⟩ →
      kind = .close ∨ kind = .abort ∧ w = 0 → o = .closeResult ∧ m.isClosed 0 = true) ∧
    (m.isClosed 0 = true →
      (∀ u, Reach step Flat m u → u.isClosed 0 = true ∧ u.performs = m.performs) ∧
      step m (.primitive 0) = some (m.addTask .primitive 0 (.ended .closedChannel)) ∧
      step m (.atomic 0) = some (m.addTask .atomic 0 (.ended .closedChannel)) ∧
      (∀ b, step m (.writeChar 0 b) = none) ∧
      step m .close = some (m.addTask .close 0 (.ended .closeResult)) ∧
      step m (.abort 0) = some (m.addTask .abort 0 (.ended .closeResult)) ∧
      (∀ (i : ℕ) (kind : Kind) (u : Channel), m.tasks[i]? = some ⟨kind, 0, .woken⟩ →
        step m (.resume i) = some u → u.buffer = m.buffer ∧ u.tasks[i]? = some
          ⟨kind, 0, .ended (if kind = .close then .closeResult else .closedChannel)⟩)) := by
  have hstep : ∀ m a u, m.Sealed → Flat m a → step m a = some u → u.Sealed ∧ Stays m u :=
    fun m a u hm ha hu => sealed_step hm ha (step_cases (lt_of_state hm.main) hu)
  have h : m.Sealed := hreach.invariant (sealed_make typ mode length) fun m a u hm ha hu =>
    (hstep m a u hm ha hu).1
  have hlt : 0 < m.wrappers.length := lt_of_state h.main
  refine ⟨⟨h.invalidArgument, ?_⟩, ?_, ?_⟩
  · rintro i w ⟨kind, hi⟩
    exact ((h.settled _ (List.mem_of_getElem? hi)).ended _ rfl).1 rfl
  · intro i kind w o hi hkind
    obtain ⟨ho, hclosed⟩ := ((h.settled _ (List.mem_of_getElem? hi)).ended o rfl).2 hkind
    exact ⟨ho, by simpa [isClosed] using hclosed⟩
  · intro hclosed
    have hm : m.state 0 = .closed := by simpa [isClosed] using hclosed
    refine ⟨?_, ?_, ?_, ?_, ?_, ?_, ?_⟩
    · intro u hu
      obtain ⟨-, hstays⟩ : u.Sealed ∧ Stays m u := by
        refine hu.invariant (P := fun u => u.Sealed ∧ Stays m u) ⟨h, fun hm => ⟨hm, rfl⟩⟩ ?_
        rintro r a u ⟨hr, hstays⟩ ha hu
        obtain ⟨hu', hstays'⟩ := hstep r a u hr ha hu
        exact ⟨hu', hstays.trans hstays'⟩
      exact ⟨by simpa [isClosed] using (hstays hm).1, (hstays hm).2⟩
    · simp [step, hlt, call_of_closed hm]
    · simp [step, hlt, call_of_closed hm]
    · intro b
      simp [step, hm]
    · simp [step, close_of_closed hm]
    · simp [step, hlt, abort_of_closed hm]
    · intro i kind u hi hu
      exact resume_of_closed hm hi hu

/-- An output channel is closed while an operation is queued on it. -/
theorem closed_for_ever_output :
    ∃ m, Reach step Flat (make .normal .output 16) m ∧
      m.tasks[0]? = some ⟨.close, 0, .ended .closeResult⟩ ∧ m.isClosed 0 = true := by
  obtain ⟨m, hm⟩ : ∃ m, replay (checked step fun m a => decide (Flat m a))
      (make .normal .output 16) [.close, .primitive 0, .closes 0, .finish 0, .resume 1, .abort 0] =
        some m := ⟨_, rfl⟩
  have hreach := (reach_of_checked _ hm).mono (k := Flat) fun m a h => of_decide_eq_true h
  have hall := closed_for_ever .normal .output 16 hreach
  have htask : m.tasks[0]? = some ⟨.close, 0, .ended .closeResult⟩ := by
    cases hm.symm.trans rfl
    rfl
  exact ⟨m, hreach, htask, (hall.2.1 0 .close 0 .closeResult htask (Or.inl rfl)).2⟩

/-- `abort`, called inside an atomic block, leaves the main wrapper usable, and raises
`Invalid_argument` when it is called again after the block. -/
theorem abort_inside_block :
    ¬ ∀ m, Reach step (fun _ _ => True) (make .normal .output 16) m →
      (∀ i w, ¬ m.At i w (.ended .invalidArgument)) ∧
      ∀ (i : ℕ) (kind : Kind) (w : ℕ) (o : Outcome), m.tasks[i]? = some ⟨kind, w, .ended o⟩ →
        kind = .close ∨ kind = .abort ∧ w = 0 → o = .closeResult ∧ m.isClosed 0 = true := by
  intro hall
  obtain ⟨m, hm⟩ : ∃ m, replay step (make .normal .output 16)
      [.atomic 0, .abort 0, .finish 0, .abort 0] = some m := ⟨_, rfl⟩
  refine (hall m (reach_of_replay _ hm)).1 3 0 ⟨.abort, ?_⟩
  cases hm.symm.trans rfl
  rfl

end Lwt.Io
