import Lwt.Io.Tasks

/-!
# Who holds a wrapper

At most one task at a time holds a wrapper or is about to take it, and what that task does agrees
with the state of the wrapper.  This is kept by every step that does not take an idle wrapper away
from a task that `auto_flush` has woken for it.
-/

namespace Lwt.Io

open Transition

variable {m u : Channel} {i j v w tmp : ℕ} {s t : Status} {x : State} {o : Outcome}

namespace State

/-- What a task that uses a wrapper can do while the wrapper is in the given state. -/
def Allows : State → Status → Prop
  | busyPrimitive, s => s.active = true
  | busyAtomic tmp, s => s = .block tmp
  | closed, s => s.active = true ∨ s = .woken
  | idle, s | waitingForBusy, s => s = .woken
  | invalid, _ => True

theorem Allows.active (h : x.Allows s) (hs : s.active = true) (ht : t.active = true) :
    x.Allows t := by
  cases x <;> simp_all [Allows]
  · cases hs
  · cases hs
  · cases hs

end State

namespace Channel

/-- The indices of a channel are right, the tasks that use a wrapper agree with its state, and
there is at most one of them. -/
structure Fair (m : Channel) : Prop where
  main : 0 < m.wrappers.length
  inside : ∀ i w s, m.At i w s → w < m.wrappers.length
  block : ∀ i w tmp, m.At i w (.block tmp) → w < tmp ∧ tmp < m.wrappers.length
  atomic : ∀ w tmp, m.state w = .busyAtomic tmp → w < tmp ∧ tmp < m.wrappers.length
  nodup : ∀ w, (m.queued w).Nodup
  queue : ∀ i w, i ∈ m.queued w → m.At i w .queued ∨ m.At i w .canceled
  waits : ∀ i w, m.At i w .queued → i ∈ m.queued w
  unique : ∀ i j w s t, m.At i w s → m.At j w t → s.uses = true → t.uses = true → i = j
  allows : ∀ i w s, m.At i w s → s.uses = true → (m.state w).Allows s

/-- Nothing uses `w`, which may be left busy. -/
structure Vacant (m : Channel) (w : ℕ) : Prop extends Fair m where
  busy : ∀ v, v ≠ w → (m.state v).busy = true → ∃ i s, m.At i v s ∧ s.uses = true
  vacant : ∀ i s, m.At i w s → s.uses = false

/-- A wrapper that is busy is held. -/
structure Locked (m : Channel) : Prop extends Fair m where
  busy : ∀ v, (m.state v).busy = true → ∃ i s, m.At i v s ∧ s.uses = true

theorem Fair.setStatus (h : Fair m) (hi : m.At i w s) (hqueued : t ≠ .queued)
    (hblock : ∀ tmp, t ≠ .block tmp) (hqueue : i ∉ m.queued w ∨ t = .canceled)
    (huses : t.uses = true → s.uses = true ∧ (m.state w).Allows t) : Fair (m.setStatus i t) where
  main := h.main
  inside := by have hinside := h.inside; grind
  block := by have hold := h.block; grind
  atomic := h.atomic
  nodup := h.nodup
  queue := by have hold := h.queue; grind
  waits := by have hold := h.waits; grind
  unique := by have hold := h.unique; grind
  allows := by have hold := h.allows; grind

theorem Fair.not_queued (h : Fair m) (hi : m.At i w s) (hs : s ≠ .queued) (hc : s ≠ .canceled)
    (v : ℕ) : i ∉ m.queued v := by
  intro hmem
  rcases h.queue i v hmem with hi' | hi'
  · exact hs (hi.unique hi').2
  · exact hc (hi.unique hi').2

theorem Fair.addTask (h : Fair m) (kind : Kind) (hw : w < m.wrappers.length)
    (ht : t.uses = false) (hqueued : t ≠ .queued) : Fair (m.addTask kind w t) where
  main := h.main
  inside := by have hold := h.inside; grind
  block := by have hold := h.block; grind [Status.uses, Status.holds]
  atomic := h.atomic
  nodup := h.nodup
  queue := by have hold := h.queue; grind
  waits := by have hold := h.waits; grind
  unique := by have hold := h.unique; grind
  allows := by have hold := h.allows; grind

/-- A wrapper that nothing uses can get any state that needs no holder. -/
theorem Fair.setState (h : Fair m) (hatomic : ∀ tmp, x ≠ .busyAtomic tmp)
    (hx : ∀ i s, m.At i w s → s.uses = true → x.Allows s) : Fair (m.setState w x) where
  main := by simpa using h.main
  inside := by have hold := h.inside; grind
  block := by have hold := h.block; grind
  atomic := by have hold := h.atomic; grind
  nodup := by simpa using h.nodup
  queue := by have hold := h.queue; grind
  waits := by have hold := h.waits; grind
  unique := by have hold := h.unique; grind
  allows := by have hold := h.allows; grind

/-! ## Giving a wrapper back -/

theorem Locked.vacate (h : Locked m) (hi : m.At i w s) (hs : s.uses = true) (ht : t.gone = true) :
    Vacant (m.setStatus i t) w where
  toFair := by
    have hqueue := h.not_queued hi (by rintro rfl; cases hs) (by rintro rfl; cases hs) w
    have hfree := Status.uses_of_gone ht
    exact h.setStatus hi (by rintro rfl; cases ht) (by rintro tmp rfl; cases ht) (Or.inl hqueue)
      (by simp [hfree])
  busy := by
    intro v hv hbusy
    obtain ⟨j, t, hj, ht⟩ := h.busy v hbusy
    exact ⟨j, t, by grind, ht⟩
  vacant := by
    have hold := h.unique
    have hfree := Status.uses_of_gone ht
    intro j r hj
    grind

theorem Vacant.locked (h : Vacant m w) (hw : (m.state w).busy = false) : Locked m where
  toFair := h.toFair
  busy := by have hold := h.busy; grind

theorem Vacant.setState (h : Vacant m w) (hx : x.busy = false) : Vacant (m.setState w x) w where
  toFair := by
    have hold := h.vacant
    exact h.toFair.setState (by rintro tmp rfl; cases hx) (by grind)
  busy := by
    intro v hv hbusy
    obtain ⟨j, t, hj, ht⟩ := h.busy v hv (by grind)
    exact ⟨j, t, hj, ht⟩
  vacant := by have hold := h.vacant; grind

theorem Vacant.invalidate (h : Vacant m w) (tmp : ℕ) :
    Vacant (m.setState tmp .invalid) w where
  toFair := h.toFair.setState (by simp) (by simp [State.Allows])
  busy := by
    intro v hv hbusy
    obtain ⟨j, t, hj, ht⟩ := h.busy v hv (by grind [State.busy])
    exact ⟨j, t, hj, ht⟩
  vacant := by have hold := h.vacant; grind

theorem Fair.mem_wakeFirst (h : Fair m) (hj : j ∈ (m.wakeFirst w).queued v) :
    j ∈ m.queued v ∧ (m.queued w).head? ≠ some j := by
  rw [queued_wakeFirst] at hj
  split at hj
  case isTrue hv =>
    subst hv
    have hnodup := h.nodup v
    cases hq : m.queued v with
    | nil => simp [hq] at hj
    | cons k rest =>
      simp only [hq, List.tail_cons] at hj
      rw [hq, List.nodup_cons] at hnodup
      refine ⟨List.mem_cons_of_mem k hj, ?_⟩
      rintro hk
      obtain rfl : k = j := by simpa using hk
      exact hnodup.1 hj
  case isFalse hv =>
    refine ⟨hj, fun hhead => hv ?_⟩
    have hv' := h.queue j v hj
    have hw' := h.queue j w (List.mem_of_mem_head? hhead)
    grind

theorem Fair.at_wakeFirst (h : Fair m) (hj : (m.wakeFirst w).At j v t) :
    m.At j v t ∨ ((m.queued w).head? = some j ∧ v = w ∧ t = .woken) := by
  rcases (Channel.at_wakeFirst m w j v t).mp hj with ⟨hhead, hwoken, hqueued⟩ | ⟨hj', -⟩
  · have hw := h.queue j w (List.mem_of_mem_head? hhead)
    exact Or.inr ⟨hhead, by grind, hwoken⟩
  · exact Or.inl hj'

theorem Vacant.wakeFirst (h : Vacant m w) (hw : (m.state w).busy = false) :
    Locked (m.wakeFirst w) where
  main := by simpa using h.main
  inside := by have hold := h.inside; grind
  block := by have hold := h.block; grind
  atomic := by have hold := h.atomic; grind
  nodup := by
    have hold := h.nodup
    intro v
    grind
  queue := by
    intro j v hj
    obtain ⟨hmem, hhead⟩ := h.mem_wakeFirst hj
    have hold := h.queue j v hmem
    grind
  waits := by
    intro j v hj
    have hhead : v = w → (m.queued w).head? ≠ some j := by grind
    have hmem := h.waits j v (by grind)
    rw [queued_wakeFirst]
    split
    case isTrue hv =>
      subst hv
      cases hq : m.queued v <;> grind
    case isFalse => exact hmem
  unique := by
    intro j k v r r' hj hk hr hr'
    have hold := h.unique j k v r r'
    have hvacant := h.vacant
    have hj' := h.at_wakeFirst hj
    have hk' := h.at_wakeFirst hk
    grind
  allows := by
    intro j v r hj hr
    rw [state_wakeFirst]
    rcases h.at_wakeFirst hj with hj' | ⟨-, rfl, rfl⟩
    · exact h.allows j v r hj' hr
    · cases hv : m.state v <;> simp_all [State.Allows, State.busy]
  busy := by
    intro v hv
    rw [state_wakeFirst] at hv
    obtain ⟨j, t, hj, ht⟩ := h.busy v (by grind) hv
    refine ⟨j, t, ?_, ht⟩
    grind [Status.uses, Status.holds]

theorem Locked.congr (h : Locked m) (hw : u.wrappers = m.wrappers) (ht : u.tasks = m.tasks) :
    Locked u := by
  cases m
  cases u
  cases hw
  cases ht
  exact ⟨⟨h.main, h.inside, h.block, h.atomic, h.nodup, h.queue, h.waits, h.unique, h.allows⟩,
    h.busy⟩

theorem Locked.addTask (h : Locked m) (kind : Kind) (hw : w < m.wrappers.length)
    (ht : t.uses = false) (hqueued : t ≠ .queued) : Locked (m.addTask kind w t) where
  toFair := h.toFair.addTask kind hw ht hqueued
  busy := by
    intro v hv
    obtain ⟨j, r, hj, hr⟩ := h.busy v hv
    exact ⟨j, r, by grind, hr⟩

theorem Locked.launchFlusher (h : Locked m) : Locked m.launchFlusher := by
  exact (h.addTask (t := .paused) .autoFlush h.main rfl (by simp)).congr rfl rfl

theorem Vacant.unlock (h : Vacant m w) : Locked (m.unlock w) := by
  have hidle := h.setState (x := .idle) rfl
  have hwaiting := h.setState (x := .waitingForBusy) rfl
  have hstate : ∀ x : State, x.busy = false → ((m.setState w x).state w).busy = false := by
    intro x hx
    rcases state_setState_self m w x with h | h <;> rw [h]
    · exact hx
    · rfl
  rcases unlock_cases m w with ⟨-, -, hu | hu⟩ | ⟨-, -, hu⟩ | ⟨hw, hu⟩ | ⟨hw, hu⟩ <;> rw [hu]
  · exact hidle.locked (hstate _ rfl)
  · exact (hidle.locked (hstate _ rfl)).launchFlusher
  · exact hwaiting.wakeFirst (hstate _ rfl)
  · exact h.wakeFirst (by rcases hw with hw | hw <;> rw [hw] <;> rfl)
  · exact (h.locked (by rcases hw with hw | hw <;> rw [hw] <;> rfl)).congr rfl rfl

/-! ## Ending, failing and waiting -/

theorem Locked.setStatus (h : Locked m) (hi : m.At i w s) (hqueued : t ≠ .queued)
    (hblock : ∀ tmp, t ≠ .block tmp) (hqueue : i ∉ m.queued w ∨ t = .canceled)
    (huses : t.uses = true → s.uses = true ∧ (m.state w).Allows t)
    (hfree : s.uses = true → (m.state w).busy = true → t.uses = true) :
    Locked (m.setStatus i t) where
  toFair := h.toFair.setStatus hi hqueued hblock hqueue huses
  busy := by
    intro v hv
    obtain ⟨j, r, hj, hr⟩ := h.busy v hv
    by_cases hji : j = i
    · subst hji
      obtain ⟨rfl, rfl⟩ := hi.unique hj
      exact ⟨j, t, by grind, hfree hr hv⟩
    · exact ⟨j, r, by grind, hr⟩

theorem Locked.ended (h : Locked m) (hi : m.At i w s) (hqueue : i ∉ m.queued w)
    (hfree : s.uses = true → (m.state w).busy = false) (o : Outcome) :
    Locked (m.setStatus i (.ended o)) := by
  refine h.setStatus hi (by simp) (by simp) (Or.inl hqueue) (by simp [Status.uses, Status.holds]) ?_
  intro hs hbusy
  rw [hfree hs] at hbusy
  cases hbusy

theorem Locked.abort (h : Locked m) (w : ℕ) : Locked (m.abort w).1 := by
  have hclose : m.state (m.deepestWrapper w) ≠ .invalid →
      Locked (m.setState (m.deepestWrapper w) .closed) := by
    intro hinvalid
    have hdeep := state_deepestWrapper (fun w tmp hw => (h.atomic w tmp hw).1) w
    refine ⟨h.toFair.setState (by simp) ?_, ?_⟩
    · intro i s hi hs
      have hallows := h.allows i _ s hi hs
      cases hd : m.state (m.deepestWrapper w) <;> simp_all [State.Allows]
    · intro v hv
      obtain ⟨j, r, hj, hr⟩ := h.busy v (by grind [State.busy])
      exact ⟨j, r, hj, hr⟩
  rcases abort_cases m w with ⟨-, hu⟩ | ⟨-, hu⟩ | ⟨-, hinvalid, ⟨-, hu⟩ | ⟨-, hu⟩⟩ <;> rw [hu]
  · exact h
  · exact h
  · exact (hclose hinvalid).congr rfl rfl
  · exact (hclose hinvalid).congr rfl rfl

theorem busy_abort (m : Channel) (w v : ℕ) (h : (m.state v).busy = false) :
    ((m.abort w).1.state v).busy = false := by
  rcases state_abort m w v with hv | ⟨-, -, -, hv⟩ <;> rw [hv]
  · exact h
  · rfl

theorem Locked.fail (h : Locked m) (hi : m.At i w s) (hqueue : i ∉ m.queued w)
    (hfree : s.uses = true → (m.state w).busy = false) (kind : Kind) (o : Outcome) :
    Locked (m.fail i kind o) := by
  unfold Channel.fail
  split
  · exact (h.abort 0).ended ((at_abort m 0 i w s).mpr hi) (by simpa using hqueue)
      (fun hs => busy_abort m 0 w (hfree hs)) _
  · exact h.ended hi hqueue hfree o

theorem Locked.push (h : Locked m) (kind : Kind) (hw : w < m.wrappers.length) :
    Locked ((m.addTask kind w .queued).setQueued w (m.queued w ++ [m.tasks.length])) where
  main := by simpa using h.main
  inside := by have hold := h.inside; grind
  block := by have hold := h.block; grind
  atomic := by have hold := h.atomic; grind
  nodup := by
    intro v
    have hnew : m.tasks.length ∉ m.queued w := by
      intro hmem
      rcases h.queue _ _ hmem with hi | hi
      · exact Nat.lt_irrefl _ hi.lt
      · exact Nat.lt_irrefl _ hi.lt
    have hold := h.nodup v
    rw [queued_setQueued]
    split
    case isTrue hv =>
      obtain ⟨rfl, -⟩ := hv
      exact List.nodup_append_comm.mp (List.nodup_cons.mpr ⟨hnew, hold⟩)
    case isFalse => exact hold
  queue := by have hold := h.queue; grind
  waits := by have hold := h.waits; grind
  unique := by have hold := h.unique; grind [Status.uses, Status.holds]
  allows := by have hold := h.allows; grind [Status.uses, Status.holds]
  busy := by
    intro v hv
    rw [state_setQueued, state_addTask] at hv
    obtain ⟨j, r, hj, hr⟩ := h.busy v hv
    exact ⟨j, r, by grind, hr⟩

theorem Locked.dequeue (h : Locked m) (hi : m.At i w .canceled) :
    Locked (m.setQueued w ((m.queued w).erase i)) where
  main := by simpa using h.main
  inside := by have hold := h.inside; grind
  block := by have hold := h.block; grind
  atomic := by have hold := h.atomic; grind
  nodup := by
    intro v
    have hold := h.nodup v
    rw [queued_setQueued]
    split
    case isTrue hv =>
      obtain ⟨rfl, -⟩ := hv
      exact hold.erase i
    case isFalse => exact hold
  queue := by have hold := h.queue; grind
  waits := by
    intro j v hj
    have hold := h.waits j v hj
    have hne : j ≠ i := by
      rintro rfl
      cases (hi.unique hj).2
    grind
  unique := h.unique
  allows := by have hold := h.allows; grind
  busy := by
    intro v hv
    rw [state_setQueued] at hv
    exact h.busy v hv

/-! ## Taking a wrapper -/

/-- A task takes a wrapper that nothing else uses. -/
theorem Locked.take (h : Locked m) (hi : m.At i v s) (hqueue : ∀ w, i ∉ m.queued w)
    (hlt : w < m.wrappers.length) (hfree : ∀ j r, m.At j w r → r.uses = true → j = i)
    (hv : s.uses = true → v = w) (ht : t.uses = true) (hx : x.Allows t)
    (hatomic : ∀ tmp, x = .busyAtomic tmp → w < tmp ∧ tmp < m.wrappers.length)
    (hblock : ∀ tmp, t = .block tmp → w < tmp ∧ tmp < m.wrappers.length) :
    Locked ((m.setState w x).setTask i w t) where
  main := by simpa using h.main
  inside := by have hold := h.inside; grind
  block := by have hold := h.block; grind
  atomic := by have hold := h.atomic; grind
  nodup := by simpa using h.nodup
  queue := by have hold := h.queue; grind
  waits := by have hold := h.waits; grind [Status.uses, Status.holds]
  unique := by have hold := h.unique; grind
  allows := by have hold := h.allows; grind
  busy := by
    have hi' := hi.lt
    have hset : ((m.setState w x).setTask i w t).At i w t := by
      rw [at_setTask]
      exact Or.inl ⟨rfl, rfl, rfl, hi'⟩
    intro k hk
    by_cases hkw : k = w
    · exact ⟨i, t, hkw ▸ hset, ht⟩
    · obtain ⟨j, r, hj, hr⟩ := h.busy k (by grind)
      exact ⟨j, r, by grind, hr⟩

theorem Locked.addWrapper (h : Locked m) : Locked m.addWrapper where
  main := by simp
  inside := by have hold := h.inside; grind
  block := by have hold := h.block; grind
  atomic := by have hold := h.atomic; grind
  nodup := by simpa using h.nodup
  queue := by simpa using h.queue
  waits := by simpa using h.waits
  unique := h.unique
  allows := by
    have hold := h.allows
    have hinside := h.inside
    grind
  busy := by
    intro v hv
    exact h.busy v (by grind [State.busy])

theorem enter_atomic (hw : w < m.wrappers.length) : m.enter i .atomic w =
    (m.addWrapper.setState w (.busyAtomic m.wrappers.length)).setStatus i
      (.block m.wrappers.length) := by
  have hmodify : ∀ (f : Wrapper → Wrapper) (x : Wrapper), m.wrappers.modify w f ++ [x] =
      (m.wrappers ++ [x]).modify w f := by
    intro f x
    refine List.ext_getElem (by simp) fun j hj hj' => ?_
    simp only [List.getElem_append, List.getElem_modify, List.length_modify]
    grind
  simp only [Channel.enter, Channel.addWrapper, Channel.setState, Channel.setStatus, hmodify]

theorem Locked.enter (h : Locked m) (hi : m.At i w s) (hs : s = .called ∨ s = .woken)
    (hvalid : m.state w ≠ .invalid)
    (hfree : ∀ j r, m.At j w r → r.uses = true → j = i) (kind : Kind) :
    Locked (m.enter i kind w) := by
  have hlt := lt_of_state hvalid
  have hqueue := h.not_queued hi (by grind) (by grind)
  have htmp : m.wrappers.length < m.addWrapper.wrappers.length := by simp
  cases kind with
  | atomic =>
    have hi' : (m.addWrapper.setState w (.busyAtomic m.wrappers.length)).At i w s := hi
    rw [enter_atomic hlt, setStatus_eq_setTask hi']
    refine h.addWrapper.take hi (by simpa using hqueue) (by simp; omega) hfree (fun _ => rfl) rfl
      rfl ?_ ?_
    · rintro tmp ⟨⟩
      exact ⟨hlt, htmp⟩
    · rintro tmp ⟨⟩
      exact ⟨hlt, htmp⟩
  | _ =>
    have hi' : (m.setState w .busyPrimitive).At i w s := hi
    change Locked ((m.setState w .busyPrimitive).setStatus i .running)
    rw [setStatus_eq_setTask hi']
    exact h.take hi hqueue hlt hfree (fun _ => rfl) rfl rfl (by simp) (by simp)

/-! ## Steps -/

theorem Locked.call (h : Locked m) (kind : Kind) (hw : w < m.wrappers.length)
    (hfree : m.state w = .idle → ∀ j, ¬ m.At j w .woken) : Locked (m.call kind w) := by
  have hcalled := h.addTask (t := .called) kind hw rfl (by simp)
  have hnew : (m.addTask kind w .called).At m.tasks.length w .called := by grind
  have hfail := hcalled.fail hnew (hcalled.not_queued hnew (by simp) (by simp) w)
    (by rintro ⟨⟩) kind
  unfold Channel.call
  cases hstate : m.state w with
  | idle =>
    refine hcalled.enter hnew (Or.inl rfl) (by simp [hstate]) ?_ kind
    intro j r hj hr
    rcases (at_addTask m kind w w j .called r).mp hj with ⟨rfl, -, -⟩ | hj
    · rfl
    · have hallows := h.allows j w r hj hr
      rw [hstate] at hallows
      obtain rfl : r = .woken := hallows
      exact absurd hj (hfree hstate j)
  | busyPrimitive | busyAtomic | waitingForBusy => exact h.push kind hw
  | closed | invalid => exact hfail _

theorem Locked.unlock_fail (h : Locked m) (hi : m.At i w s) (hs : s.uses = true) (kind : Kind)
    (o : Outcome) : Locked (((m.setStatus i .called).unlock w).fail i kind o) := by
  have hunlock := (h.vacate (t := .called) hi hs rfl).unlock
  have hi' : (m.setStatus i .called).At i w .called := by grind
  have hcalled := hi'.unlock (by simp) w
  exact hunlock.fail hcalled (hunlock.not_queued hcalled (by simp) (by simp) w)
    (by rintro ⟨⟩) kind o

theorem Locked.resume (h : Locked m) (hi : m.At i w .woken) (kind : Kind) :
    Locked (m.resume i kind w) := by
  have hallows := h.allows i w .woken hi rfl
  have hfree : ∀ j r, m.At j w r → r.uses = true → j = i := fun j r hj hr =>
    h.unique j i w r .woken hj hi hr rfl
  unfold Channel.resume
  cases hstate : m.state w with
  | closed => exact h.unlock_fail hi rfl kind _
  | idle | waitingForBusy =>
    exact h.enter hi (Or.inr rfl) (by simp [hstate]) hfree kind
  | invalid =>
    exact h.fail hi (h.not_queued hi (by simp) (by simp) w) (by simp [hstate, State.busy]) kind _
  | busyPrimitive | busyAtomic => simp [hstate, State.Allows, Status.active] at hallows

theorem Locked.autoFlush (h : Locked m) (hi : m.At i w .paused)
    (hfree : m.state (m.deepestWrapper 0) = .idle → ∀ j, ¬ m.At j (m.deepestWrapper 0) .woken) :
    Locked (m.autoFlush i) := by
  have hqueue := h.not_queued hi (by simp) (by simp)
  have hended := h.ended hi (hqueue w) (by rintro ⟨⟩)
  rcases autoFlush_cases (fun w tmp hw => (h.atomic w tmp hw).1) i with
    ⟨hstate, hu⟩ | ⟨-, b, hu⟩ <;> rw [hu]
  · have hlt : m.deepestWrapper 0 < m.wrappers.length := lt_of_state (by simp [hstate])
    refine (h.take (t := .running) (x := .busyPrimitive) hi hqueue hlt ?_ (by rintro ⟨⟩) rfl rfl
      (by simp) (by simp)).congr rfl rfl
    intro j r hj hr
    have hallows := h.allows j _ r hj hr
    rw [hstate] at hallows
    obtain rfl : r = .woken := hallows
    exact absurd hj (hfree hstate j)
  · exact (hended _).congr rfl rfl

theorem Locked.endFlush (h : Locked m) (hi : m.At i w s) (hs : s.active = true) :
    Locked (m.endFlush i w) := by
  have hallows := h.allows i w s hi (Status.uses_of_active hs)
  have hvacant := h.vacate (t := .ended .returned) hi (Status.uses_of_active hs) rfl
  have hlt := h.inside i w _ hi
  rcases endFlush_cases m i w with ⟨-, hu⟩ | ⟨hw, hu⟩ <;> rw [hu]
  · refine (hvacant.setState rfl).wakeFirst ?_
    rw [state_setState]
    simp [hlt, State.busy]
  · refine hvacant.wakeFirst ?_
    rw [state_setStatus]
    cases hstate : m.state w with
    | busyPrimitive => exact absurd hstate hw
    | busyAtomic tmp =>
      rw [hstate] at hallows
      obtain rfl : s = .block tmp := hallows
      cases hs
    | closed | idle | waitingForBusy | invalid => rfl

theorem Locked.active (h : Locked m) (hi : m.At i w s) (hs : s.active = true)
    (ht : t.active = true) :
    Locked (m.setStatus i t) := by
  have huses := Status.uses_of_active hs
  have hallows := (h.allows i w s hi huses).active hs ht
  refine h.setStatus hi ?_ ?_ (Or.inl (h.not_queued hi ?_ ?_ w)) (fun _ => ⟨huses, hallows⟩)
    (fun _ _ => Status.uses_of_active ht)
  · rintro rfl
    cases ht
  · rintro tmp rfl
    cases ht
  · rintro rfl
    cases hs
  · rintro rfl
    cases hs

theorem Locked.closes (h : Locked m) (hi : m.At i w s) (hs : s.active = true) :
    Locked (m.closes i w) := by
  have habort := h.abort 0
  have hi' : (m.abort 0).1.At i w s := by simpa using hi
  unfold Channel.closes
  simp only
  split
  · exact habort.active hi' hs rfl
  · exact habort.unlock_fail hi' (Status.uses_of_active hs) .close _

theorem active_performFailed (kind : Kind) :
    (if kind.flushes then Status.flushFailed else .running).active = true := by
  split <;> rfl

theorem Locked.performFailed (h : Locked m) (hi : m.At i w s) (hs : s.active = true) (kind : Kind) :
    Locked (m.performFailed i kind) :=
  h.active hi hs (active_performFailed kind)

theorem Locked.performIo (h : Locked m) (hi : m.At i w .running) (kind : Kind) :
    Locked (m.performIo i kind) := by
  rcases performIoThen_cases m (·.performFailed i kind)
      (fun m => m.setStatus i (.performing m.buffer.length)) with
    ⟨b, n, hu, -⟩ | ⟨-, -, -, hu⟩ <;> rw [Channel.performIo, hu]
  · exact (h.performFailed hi rfl kind).congr rfl rfl
  · exact (h.active (t := .performing m.buffer.length) hi rfl rfl).congr rfl rfl

theorem Locked.daPerform (h : Locked m) (i : ℕ) (data : List UInt8) :
    Locked (m.daPerform i data) := by
  rcases performIoThen_cases (m.put data) id
      (fun m => { m with calls := m.calls ++ [(i, m.buffer.length)] }) with
    ⟨b, n, hu, -⟩ | ⟨-, -, -, hu⟩ <;> rw [Channel.daPerform, hu] <;> exact h.congr rfl rfl

theorem Locked.shift (h : Locked m) (len n : ℕ) : Locked (m.shift len n) := by
  obtain ⟨flushed, buffer, beyond, hu⟩ := shift_cases m len n
  rw [hu]
  exact h.congr rfl rfl

theorem Locked.performed (h : Locked m) {len : ℕ} (hi : m.At i w (.performing len)) (n : ℕ) :
    Locked (m.performed i len n) :=
  (h.active (t := .running) hi rfl rfl).shift len n

theorem Locked.writeChar (h : Locked m) (b : UInt8) : Locked (m.writeChar b) := by
  have hbuffer : Locked (m.put [b]) := h.congr rfl rfl
  unfold Channel.writeChar
  simp only
  split
  · exact hbuffer
  · exact hbuffer.launchFlusher

theorem Locked.runCanceled (h : Locked m) (hi : m.At i w .canceled) (kind : Kind) :
    Locked (m.runCanceled i kind w) := by
  refine (h.dequeue hi).fail (s := .canceled) hi ?_ (by rintro ⟨⟩) kind .canceled
  rw [queued_setQueued]
  simp [h.inside i w _ hi, (h.nodup w).not_mem_erase]

end Channel

/-- The idle wrapper that is taken by a step. -/
def taken (m : Channel) : Step → Option ℕ
  | .primitive w | .atomic w => if m.state w = .idle then some w else none
  | .close => if m.mode = .output ∧ m.state 0 = .idle then some 0 else none
  | .flush _ =>
    if m.state (m.deepestWrapper 0) = .idle then some (m.deepestWrapper 0) else none
  | _ => none

/-- No idle wrapper is taken while a task that has been woken for it is about to run. -/
def Orderly (m : Channel) (a : Step) : Prop :=
  ∀ w ∈ taken m a, ∀ t ∈ m.tasks, t.wrapper = w → t.status ≠ .woken

instance (m : Channel) (a : Step) : Decidable (Orderly m a) :=
  inferInstanceAs (Decidable (∀ w ∈ taken m a, ∀ t ∈ m.tasks, t.wrapper = w → t.status ≠ .woken))

theorem Orderly.free {a : Step} (h : Orderly m a) (ha : taken m a = some w) (j : ℕ) :
    ¬ m.At j w .woken := by
  rintro ⟨kind, hj⟩
  exact h w ha _ (List.mem_of_getElem? hj) rfl rfl

theorem locked_make (typ : Typ) (mode : Mode) (length : ℕ) :
    (Channel.make typ mode length).Locked := by
  have hat : ∀ i w s, ¬ (Channel.make typ mode length).At i w s := by
    rintro i w s ⟨kind, h⟩
    simp [Channel.make] at h
  have hqueued : ∀ w, (Channel.make typ mode length).queued w = [] := by
    intro w
    cases w <;> simp [Channel.make, Channel.queued]
  have hstate : ∀ w, (Channel.make typ mode length).state w = .idle ∨
      (Channel.make typ mode length).state w = .invalid := by
    intro w
    cases w <;> simp [Channel.make, Channel.state]
  refine ⟨⟨by simp [Channel.make], ?_, ?_, ?_, ?_, ?_, ?_, ?_, ?_⟩, ?_⟩
  · intro i w s hi
    exact absurd hi (hat i w s)
  · intro i w tmp hi
    exact absurd hi (hat i w _)
  · intro w tmp hw
    rcases hstate w with h | h <;> simp [h] at hw
  · simp [hqueued]
  · intro i w hi
    simp [hqueued] at hi
  · intro i w hi
    exact absurd hi (hat i w _)
  · intro i j w s t hi
    exact absurd hi (hat i w _)
  · intro i w s hi
    exact absurd hi (hat i w _)
  · intro w hw
    rcases hstate w with h | h <;> simp [h, State.busy] at hw

theorem locked_step {a : Step} (h : m.Locked) (ha : Orderly m a) (hu : Stepped m a u) :
    u.Locked := by
  cases hu with
  | call kind w a hw hcall =>
    refine h.call kind hw fun hidle => ha.free ?_
    rcases hcall with ⟨rfl, -⟩ | ⟨rfl, -⟩ | ⟨rfl, -, hmode, rfl⟩
    · simp [taken, hidle]
    · simp [taken, hidle]
    · simp [taken, hidle, hmode]
  | abort kind w a hw =>
    exact (h.abort w).addTask kind (by simpa using hw) rfl (by simp)
  | writeChar w b => exact h.writeChar b
  | resume i w kind hi => exact h.resume ⟨kind, hi⟩ kind
  | cancel i w hi =>
    exact h.setStatus hi (by simp) (by simp) (Or.inr rfl) (by rintro ⟨⟩) (by rintro ⟨⟩)
  | runCanceled i w kind hi => exact h.runCanceled ⟨kind, hi⟩ kind
  | write | resize => exact h.congr rfl rfl
  | performIo i w kind hi => exact h.performIo ⟨kind, hi⟩ kind
  | performed i w len n hi => exact h.performed hi n
  | performFails i w len kind hi => exact h.performFailed ⟨kind, hi⟩ rfl kind
  | daPerform i w data => exact h.daPerform i data
  | daPerformed k i len n => exact (show (m.dropCall k).Locked from h.congr rfl rfl).shift len n
  | daFails k => exact h.congr rfl rfl
  | flush i w hi =>
    refine h.autoFlush hi fun hidle => ha.free ?_
    simp [taken, hidle]
  | closes i w s hi hs => exact h.closes ⟨_, hi⟩ (Channel.active_of_flushOver hs)
  | closeFails i w hi => exact h.unlock_fail hi rfl .close _
  | endFlush i w s hi hs => exact h.endFlush ⟨_, hi⟩ (Channel.active_of_flushOver hs)
  | ends i w kind s o hi hs =>
    refine (h.vacate ⟨kind, hi⟩ ?_ rfl).unlock
    rcases hs with ⟨rfl, -⟩ | ⟨rfl, -⟩ <;> rfl
  | endBlock i w tmp hi =>
    exact ((h.vacate hi rfl rfl).invalidate tmp).unlock

end Lwt.Io
