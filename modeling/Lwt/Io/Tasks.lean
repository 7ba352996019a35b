import Mathlib.Data.List.Nodup
import Lwt.Io.Channel

/-!
# The tasks and wrappers of a channel

What the elementary updates of a channel do to the states of the wrappers, to the queues and to
the tasks, and the shape that a channel keeps in every run: a temporary wrapper comes after the
one it was made for, a `close` is on the main wrapper, and the queue of a wrapper holds the tasks
that wait for it, each once.
-/

namespace Lwt.Io

variable {m u : Channel} {i j v w : ℕ} {s : Status}

def State.busy : State → Bool
  | busyPrimitive | busyAtomic _ => true
  | _ => false

namespace Status

/-- The task holds its wrapper. -/
def holds : Status → Bool
  | running | performing _ | flushFailed | block _ | closing => true
  | _ => false

/-- The task executes an operation on the channel itself. -/
def active : Status → Bool
  | running | performing _ | flushFailed | closing => true
  | _ => false

/-- The task holds its wrapper or is about to take it. -/
def uses (s : Status) : Bool := s.holds || decide (s = .woken)

/-- The task neither waits for its wrapper nor uses it. -/
def gone : Status → Bool
  | called | ended _ => true
  | _ => false

theorem uses_of_gone (hs : s.gone = true) : s.uses = false := by
  cases s <;> first | rfl | cases hs

theorem holds_of_active (hs : s.active = true) : s.holds = true := by
  cases s <;> first | rfl | cases hs

theorem uses_of_holds (hs : s.holds = true) : s.uses = true := by
  simp [uses, hs]

theorem uses_of_active (hs : s.active = true) : s.uses = true :=
  uses_of_holds (holds_of_active hs)

end Status

namespace Channel

theorem active_of_flushOver (hs : m.flushOver s = true) : s.active = true := by
  cases s <;> first | rfl | cases hs

/-- The task `i` is on the wrapper `w`, with the status `s`. -/
def At (m : Channel) (i w : ℕ) (s : Status) : Prop := ∃ kind, m.tasks[i]? = some ⟨kind, w, s⟩

@[grind →]
theorem At.unique {s t : Status} (h : m.At i w s) (h' : m.At i v t) : w = v ∧ s = t := by
  obtain ⟨kind, hk⟩ := h
  obtain ⟨kind', hk'⟩ := h'
  rw [hk] at hk'
  cases hk'
  exact ⟨rfl, rfl⟩

theorem At.of_task {t : Task} (h : m.tasks[i]? = some t) : m.At i t.wrapper t.status :=
  ⟨t.kind, h⟩

/-! ## Elementary updates -/

theorem lt_of_state (h : m.state w ≠ .invalid) : w < m.wrappers.length := by
  by_contra hw
  exact h (by simp [state, List.getElem?_eq_none (Nat.le_of_not_lt hw)])

@[grind =]
theorem state_setState (m : Channel) (w v : ℕ) (x : State) :
    (m.setState w x).state v = if v = w ∧ w < m.wrappers.length then x else m.state v := by
  simp only [state, setState, List.getElem?_modify]
  by_cases hv : w = v
  · subst hv
    by_cases hw : w < m.wrappers.length <;> simp [hw]
  · have hne : ¬ v = w := fun h => hv h.symm
    simp [hv, hne]

theorem state_setState_self (m : Channel) (w : ℕ) (x : State) :
    (m.setState w x).state w = x ∨ (m.setState w x).state w = .invalid := by
  rw [state_setState]
  by_cases hw : w < m.wrappers.length
  · simp [hw]
  · right
    simpa [hw] using fun h => hw (lt_of_state h)

@[grind =]
theorem queued_setQueued (m : Channel) (w v : ℕ) (q : List ℕ) :
    (m.setQueued w q).queued v = if v = w ∧ w < m.wrappers.length then q else m.queued v := by
  simp only [queued, setQueued, List.getElem?_modify]
  by_cases hv : w = v
  · subst hv
    by_cases hw : w < m.wrappers.length <;> simp [hw]
  · have hne : ¬ v = w := fun h => hv h.symm
    simp [hv, hne]

@[simp, grind =] theorem queued_setState (m : Channel) (w v : ℕ) (x : State) :
    (m.setState w x).queued v = m.queued v := by
  simp only [queued, setState, List.getElem?_modify]
  by_cases hv : w = v <;> cases m.wrappers[v]? <;> simp [hv]

@[simp, grind =] theorem state_setQueued (m : Channel) (w v : ℕ) (q : List ℕ) :
    (m.setQueued w q).state v = m.state v := by
  simp only [state, setQueued, List.getElem?_modify]
  by_cases hv : w = v <;> cases m.wrappers[v]? <;> simp [hv]

@[simp, grind =] theorem length_setState (m : Channel) (w : ℕ) (x : State) :
    (m.setState w x).wrappers.length = m.wrappers.length := by
  simp [setState]

@[simp, grind =] theorem length_setQueued (m : Channel) (w : ℕ) (q : List ℕ) :
    (m.setQueued w q).wrappers.length = m.wrappers.length := by
  simp [setQueued]

@[grind =]
theorem at_addTask (m : Channel) (kind : Kind) (w v j : ℕ) (s t : Status) :
    (m.addTask kind w s).At j v t ↔ (j = m.tasks.length ∧ v = w ∧ t = s) ∨ m.At j v t := by
  simp only [At, addTask, List.getElem?_append]
  by_cases hj : j < m.tasks.length
  · have hne : j ≠ m.tasks.length := Nat.ne_of_lt hj
    simp [hj, hne]
  · rw [if_neg hj, List.getElem?_eq_none (Nat.le_of_not_lt hj)]
    rcases Nat.eq_or_lt_of_le (Nat.le_of_not_lt hj) with h | h
    · subst h
      simp
      tauto
    · have hne : j ≠ m.tasks.length := (Nat.ne_of_lt h).symm
      have hsub : j - m.tasks.length ≠ 0 := by omega
      simp [hne, hsub]

@[grind =]
theorem at_setStatus (m : Channel) (i j v : ℕ) (s t : Status) :
    (m.setStatus i s).At j v t ↔
      (j = i ∧ t = s ∧ ∃ r, m.At i v r) ∨ (j ≠ i ∧ m.At j v t) := by
  simp only [At, setStatus, List.getElem?_modify]
  by_cases hj : i = j
  · subst hj
    cases h : m.tasks[i]? with
    | none => simp
    | some x =>
      obtain ⟨kind, w, r⟩ := x
      simp
      tauto
  · have hne : j ≠ i := fun h => hj h.symm
    cases h : m.tasks[j]? <;> simp [hj, hne]

@[grind =]
theorem at_setTask (m : Channel) (i w j v : ℕ) (s t : Status) :
    (m.setTask i w s).At j v t ↔
      (j = i ∧ v = w ∧ t = s ∧ i < m.tasks.length) ∨ (j ≠ i ∧ m.At j v t) := by
  simp only [At, setTask, List.getElem?_modify]
  by_cases hj : i = j
  · subst hj
    by_cases hi : i < m.tasks.length
    · simp [hi]
      tauto
    · simp [hi]
  · have hne : j ≠ i := fun h => hj h.symm
    cases h : m.tasks[j]? <;> simp [hj, hne]

theorem setStatus_eq_setTask (hi : m.At i w s) (t : Status) :
    m.setStatus i t = m.setTask i w t := by
  obtain ⟨kind, hk⟩ := hi
  obtain ⟨hlt, hget⟩ := List.getElem?_eq_some_iff.mp hk
  simp only [setStatus, setTask]
  congr 1
  refine List.ext_getElem (by simp) fun j hj hj' => ?_
  simp only [List.getElem_modify]
  by_cases hij : i = j
  · subst hij
    simp [hget]
  · simp [hij]

@[simp, grind =] theorem at_setState (m : Channel) (w j v : ℕ) (x : State) (t : Status) :
    (m.setState w x).At j v t ↔ m.At j v t := Iff.rfl

@[simp, grind =] theorem at_setQueued (m : Channel) (w j v : ℕ) (q : List ℕ) (t : Status) :
    (m.setQueued w q).At j v t ↔ m.At j v t := Iff.rfl

@[simp, grind =] theorem state_setStatus (m : Channel) (i v : ℕ) (t : Status) :
    (m.setStatus i t).state v = m.state v := rfl

@[simp, grind =] theorem queued_setStatus (m : Channel) (i v : ℕ) (t : Status) :
    (m.setStatus i t).queued v = m.queued v := rfl

@[simp, grind =] theorem wrappers_setStatus (m : Channel) (i : ℕ) (t : Status) :
    (m.setStatus i t).wrappers = m.wrappers := rfl

@[simp, grind =] theorem state_setTask (m : Channel) (i w v : ℕ) (t : Status) :
    (m.setTask i w t).state v = m.state v := rfl

@[simp, grind =] theorem queued_setTask (m : Channel) (i w v : ℕ) (t : Status) :
    (m.setTask i w t).queued v = m.queued v := rfl

@[simp, grind =] theorem wrappers_setTask (m : Channel) (i w : ℕ) (t : Status) :
    (m.setTask i w t).wrappers = m.wrappers := rfl

@[simp, grind =] theorem state_addTask (m : Channel) (kind : Kind) (w v : ℕ) (t : Status) :
    (m.addTask kind w t).state v = m.state v := rfl

@[simp, grind =] theorem queued_addTask (m : Channel) (kind : Kind) (w v : ℕ) (t : Status) :
    (m.addTask kind w t).queued v = m.queued v := rfl

@[simp, grind =] theorem wrappers_addTask (m : Channel) (kind : Kind) (w : ℕ) (t : Status) :
    (m.addTask kind w t).wrappers = m.wrappers := rfl

@[grind =]
theorem state_addWrapper (m : Channel) (v : ℕ) :
    m.addWrapper.state v = if v = m.wrappers.length then .idle else m.state v := by
  simp only [state, addWrapper, List.getElem?_append]
  rcases Nat.lt_trichotomy v m.wrappers.length with h | h | h
  · simp [h, Nat.ne_of_lt h]
  · simp [h]
  · have hsub : v - m.wrappers.length ≠ 0 := by omega
    have hnone : m.wrappers[v]? = none := List.getElem?_eq_none (by omega)
    simp [Nat.not_lt_of_gt h, (Nat.ne_of_lt h).symm, hsub]

@[simp, grind =] theorem queued_addWrapper (m : Channel) (v : ℕ) :
    m.addWrapper.queued v = m.queued v := by
  simp only [queued, addWrapper, List.getElem?_append]
  by_cases h : v < m.wrappers.length
  · simp [h]
  · have hnone : m.wrappers[v]? = none := List.getElem?_eq_none (by omega)
    by_cases hsub : v - m.wrappers.length = 0 <;> simp [h, hsub]

@[simp, grind =] theorem length_addWrapper (m : Channel) :
    m.addWrapper.wrappers.length = m.wrappers.length + 1 := by
  simp [addWrapper]

@[simp, grind =] theorem at_addWrapper (m : Channel) (j v : ℕ) (t : Status) :
    m.addWrapper.At j v t ↔ m.At j v t := Iff.rfl

/-- A task that is there has an index below that of the next one. -/
theorem At.lt (h : m.At i w s) : i < m.tasks.length := by
  obtain ⟨kind, hk⟩ := h
  exact (List.getElem?_eq_some_iff.mp hk).1

/-! ## The first of a queue -/

@[simp, grind =] theorem state_wakeFirst (m : Channel) (w v : ℕ) :
    (m.wakeFirst w).state v = m.state v := by
  unfold wakeFirst
  split
  · rfl
  · exact state_setQueued m w v _

@[simp, grind =] theorem length_wakeFirst (m : Channel) (w : ℕ) :
    (m.wakeFirst w).wrappers.length = m.wrappers.length := by
  unfold wakeFirst
  split
  · rfl
  · exact length_setQueued m w _

theorem lt_of_queued (h : i ∈ m.queued w) : w < m.wrappers.length := by
  by_contra hw
  simp [queued, List.getElem?_eq_none (Nat.le_of_not_lt hw)] at h

@[grind =]
theorem queued_wakeFirst (m : Channel) (w v : ℕ) :
    (m.wakeFirst w).queued v = if v = w then (m.queued w).tail else m.queued v := by
  unfold wakeFirst
  split
  case h_1 h =>
    by_cases hv : v = w
    · simp [hv, h]
    · simp [hv]
  case h_2 j rest h =>
    have hw : w < m.wrappers.length := lt_of_queued (i := j) (by simp [h])
    refine (queued_setQueued m w v rest).trans ?_
    simp [hw, h]

@[grind =]
theorem at_wakeFirst (m : Channel) (w j v : ℕ) (t : Status) :
    (m.wakeFirst w).At j v t ↔
      ((m.queued w).head? = some j ∧ t = .woken ∧ m.At j v .queued) ∨
        (m.At j v t ∧ ((m.queued w).head? = some j → t ≠ .queued)) := by
  unfold wakeFirst
  split
  case h_1 h => simp [h]
  case h_2 k rest h =>
    simp only [At, List.getElem?_modify, h, List.head?_cons, Option.some.injEq]
    by_cases hj : k = j
    · subst hj
      cases hk : m.tasks[k]? with
      | none => simp
      | some x =>
        obtain ⟨kind, x, r⟩ := x
        by_cases hr : r = .queued
        · subst hr
          simp
          tauto
        · simp [hr]
          rintro rfl rfl
          exact hr
    · cases hk : m.tasks[j]? <;> simp [hj]

/-! ## Unlocking -/

theorem unlock_cases (m : Channel) (w : ℕ) :
    ((m.state w).busy = true ∧ m.queued w = [] ∧
      (m.unlock w = m.setState w .idle ∨ m.unlock w = (m.setState w .idle).launchFlusher)) ∨
    ((m.state w).busy = true ∧ m.queued w ≠ [] ∧
      m.unlock w = (m.setState w .waitingForBusy).wakeFirst w) ∨
    ((m.state w = .closed ∨ m.state w = .invalid) ∧ m.unlock w = m.wakeFirst w) ∨
    ((m.state w = .idle ∨ m.state w = .waitingForBusy) ∧
      m.unlock w = { m with asserted := true }) := by
  unfold unlock
  cases hw : m.state w with
  | busyPrimitive | busyAtomic =>
    simp only [State.busy]
    by_cases hq : m.queued w = []
    · left
      by_cases hflush : (m.setState w .idle).mode = .output ∧
          (m.setState w .idle).autoFlushing = false <;> simp [hq, hflush]
    · simp [hq]
  | _ => simp [State.busy]

theorem At.unlock (h : m.At i w s) (hs : s ≠ .queued) (v : ℕ) : (m.unlock v).At i w s := by
  have hlt := h.lt
  rcases unlock_cases m v with ⟨-, -, hu | hu⟩ | ⟨-, -, hu⟩ | ⟨-, hu⟩ | ⟨-, hu⟩ <;> rw [hu]
  · exact h
  · exact (at_addTask _ .autoFlush 0 w i .paused s).mpr (Or.inr h)
  · rw [at_wakeFirst]
    exact Or.inr ⟨h, fun _ => hs⟩
  · rw [at_wakeFirst]
    exact Or.inr ⟨h, fun _ => hs⟩
  · exact h

/-! ## Aborting -/

theorem state_deepestFrom (hatomic : ∀ w tmp, m.state w = .busyAtomic tmp → w < tmp) (fuel w : ℕ)
    (hfuel : m.wrappers.length ≤ fuel + w) (tmp : ℕ) :
    m.state (m.deepestFrom fuel w) ≠ .busyAtomic tmp := by
  induction fuel generalizing w with
  | zero =>
    intro h
    have hw : w < m.wrappers.length := lt_of_state (by simp [deepestFrom] at h; simp [h])
    omega
  | succ fuel ih =>
    unfold deepestFrom
    split
    case h_1 tmp' hw => exact ih tmp' (by have := hatomic w tmp' hw; omega)
    case h_2 hw => exact hw tmp

theorem state_deepestWrapper (hatomic : ∀ w tmp, m.state w = .busyAtomic tmp → w < tmp)
    (w tmp : ℕ) : m.state (m.deepestWrapper w) ≠ .busyAtomic tmp :=
  state_deepestFrom hatomic m.wrappers.length w (Nat.le_add_right _ w) tmp

theorem autoFlush_split (m : Channel) (i : ℕ) :
    (m.state (m.deepestWrapper 0) = .idle ∧ m.autoFlush i =
      { (m.setState (m.deepestWrapper 0) .busyPrimitive).setTask i
          (m.deepestWrapper 0) .running with
        autoFlushing := false }) ∨
    (m.state (m.deepestWrapper 0) ≠ .idle ∧
      ∃ b, m.autoFlush i = { m.setStatus i (.ended .returned) with autoFlushing := b }) ∨
    (∃ tmp, m.state (m.deepestWrapper 0) = .busyAtomic tmp ∧
      m.autoFlush i = { m.setStatus i (.ended .assertFalse) with asserted := true }) := by
  unfold autoFlush
  cases hstate : m.state (m.deepestWrapper 0) with
  | idle => simp [hstate]
  | busyAtomic tmp =>
    refine Or.inr (Or.inr ⟨tmp, rfl, ?_⟩)
    simp only [hstate]
    rfl
  | busyPrimitive | waitingForBusy =>
    refine Or.inr (Or.inl ⟨by simp, false, ?_⟩)
    simp only [hstate]
    rfl
  | closed | invalid =>
    refine Or.inr (Or.inl ⟨by simp, m.autoFlushing, ?_⟩)
    simp only [hstate]
    rfl

theorem autoFlush_cases (hatomic : ∀ w tmp, m.state w = .busyAtomic tmp → w < tmp) (i : ℕ) :
    (m.state (m.deepestWrapper 0) = .idle ∧ m.autoFlush i =
      { (m.setState (m.deepestWrapper 0) .busyPrimitive).setTask i
          (m.deepestWrapper 0) .running with
        autoFlushing := false }) ∨
    (m.state (m.deepestWrapper 0) ≠ .idle ∧
      ∃ b, m.autoFlush i = { m.setStatus i (.ended .returned) with autoFlushing := b }) := by
  rcases autoFlush_split m i with h | h | ⟨tmp, hstate, -⟩
  · exact Or.inl h
  · exact Or.inr h
  · exact absurd hstate (state_deepestWrapper hatomic 0 tmp)

theorem endFlush_cases (m : Channel) (i w : ℕ) :
    (m.state w = .busyPrimitive ∧
      m.endFlush i w = ((m.setStatus i (.ended .returned)).setState w .idle).wakeFirst w) ∨
    (m.state w ≠ .busyPrimitive ∧
      m.endFlush i w = (m.setStatus i (.ended .returned)).wakeFirst w) := by
  by_cases hw : m.state w = .busyPrimitive <;> simp [endFlush, hw]

theorem abort_cases (m : Channel) (w : ℕ) :
    (m.state (m.deepestWrapper w) = .closed ∧ m.abort w = (m, .closeResult)) ∨
    (m.state (m.deepestWrapper w) = .invalid ∧ m.abort w = (m, .invalidChannel)) ∨
    (m.state (m.deepestWrapper w) ≠ .closed ∧ m.state (m.deepestWrapper w) ≠ .invalid ∧
      ((m.aborted = false ∧ m.abort w =
          ({ m.setState (m.deepestWrapper w) .closed with aborted := true }, .closeResult)) ∨
        (m.aborted = true ∧ m.abort w =
          ({ m.setState (m.deepestWrapper w) .closed with invalidArgument := true },
            .invalidArgument)))) := by
  unfold abort
  have haborted : (m.setState (m.deepestWrapper w) .closed).aborted = m.aborted := rfl
  split
  case h_1 h => exact Or.inl ⟨h, rfl⟩
  case h_2 h => exact Or.inr (Or.inl ⟨h, rfl⟩)
  case h_3 hclosed hinvalid =>
    refine Or.inr (Or.inr ⟨hclosed, hinvalid, ?_⟩)
    cases hm : m.aborted <;> simp [haborted, hm]

@[simp] theorem tasks_abort (m : Channel) (w : ℕ) : (m.abort w).1.tasks = m.tasks := by
  rcases abort_cases m w with ⟨-, h⟩ | ⟨-, h⟩ | ⟨-, -, ⟨-, h⟩ | ⟨-, h⟩⟩ <;> rw [h] <;> rfl

@[simp, grind =] theorem at_abort (m : Channel) (w j v : ℕ) (t : Status) :
    (m.abort w).1.At j v t ↔ m.At j v t := by
  simp [At]

@[simp, grind =] theorem queued_abort (m : Channel) (w v : ℕ) :
    (m.abort w).1.queued v = m.queued v := by
  rcases abort_cases m w with ⟨-, h⟩ | ⟨-, h⟩ | ⟨-, -, ⟨-, h⟩ | ⟨-, h⟩⟩ <;> rw [h]
  · exact queued_setState m _ v _
  · exact queued_setState m _ v _

@[simp, grind =] theorem length_abort (m : Channel) (w : ℕ) :
    (m.abort w).1.wrappers.length = m.wrappers.length := by
  rcases abort_cases m w with ⟨-, h⟩ | ⟨-, h⟩ | ⟨-, -, ⟨-, h⟩ | ⟨-, h⟩⟩ <;> rw [h]
  · exact length_setState m _ _
  · exact length_setState m _ _

theorem state_abort (m : Channel) (w v : ℕ) :
    (m.abort w).1.state v = m.state v ∨
      (v = m.deepestWrapper w ∧ m.state v ≠ .closed ∧ m.state v ≠ .invalid ∧
        (m.abort w).1.state v = .closed) := by
  have hset : m.state (m.deepestWrapper w) ≠ .closed → m.state (m.deepestWrapper w) ≠ .invalid →
      (m.setState (m.deepestWrapper w) .closed).state v = m.state v ∨
        (v = m.deepestWrapper w ∧ m.state v ≠ .closed ∧ m.state v ≠ .invalid ∧
          (m.setState (m.deepestWrapper w) .closed).state v = .closed) := by
    grind
  rcases abort_cases m w with ⟨-, h⟩ | ⟨-, h⟩ | ⟨hclosed, hinvalid, ⟨-, h⟩ | ⟨-, h⟩⟩ <;> rw [h]
  · exact Or.inl rfl
  · exact Or.inl rfl
  · exact hset hclosed hinvalid
  · exact hset hclosed hinvalid

/-! ## The perform function -/

theorem performIoThen_cases (m : Channel) (fails waits : Channel → Channel) :
    (∃ b n, m.performIoThen fails waits = fails { m with asserted := b, performs := n } ∧
      (m.state 0 ≠ .idle → m.state 0 ≠ .waitingForBusy → b = m.asserted) ∧
      (m.state 0 = .closed → n = m.performs) ∧
      ((m.state 0).busy = true → m.typ = .normal → m.aborted = true)) ∨
    ((m.state 0).busy = true ∧ m.typ = .normal ∧ m.aborted = false ∧
      m.performIoThen fails waits = waits { m with performs := m.performs + 1 }) := by
  unfold performIoThen
  split
  case h_1 hstate | h_2 hstate =>
    exact .inl ⟨m.asserted, m.performs, rfl, fun _ _ => rfl, fun _ => rfl,
      by simp [hstate, State.busy]⟩
  case h_3 hidle =>
    exact .inl ⟨true, m.performs, rfl, by simp [hidle], fun _ => rfl, by simp [hidle, State.busy]⟩
  case h_4 hwaiting =>
    exact .inl ⟨true, m.performs, rfl, by simp [hwaiting], fun _ => rfl,
      by simp [hwaiting, State.busy]⟩
  case h_5 hbusy | h_6 hbusy =>
    split
    · next htyp =>
        exact .inl ⟨m.asserted, m.performs, rfl, fun _ _ => rfl, fun _ => rfl, by simp [htyp]⟩
    · next htyp =>
        by_cases haborted : m.aborted = true
        · exact .inl ⟨m.asserted, m.performs + 1, by simp [haborted], fun _ _ => rfl,
            by simp [hbusy], fun _ _ => haborted⟩
        · exact .inr ⟨by simp [hbusy, State.busy], htyp, by simpa using haborted,
            by simp [haborted]⟩

theorem shift_cases (m : Channel) (len n : ℕ) :
    ∃ flushed buffer beyond, m.shift len n =
      { m with flushed := flushed, buffer := buffer, beyond := beyond } := by
  unfold shift
  split
  · exact ⟨m.flushed, m.buffer, m.beyond, rfl⟩
  · exact ⟨_, _, _, rfl⟩

end Channel

/-! ## Steps -/

/-- A step with what it needs of the channel and of the task. -/
inductive Stepped (m : Channel) : Step → Channel → Prop
  | call (kind : Kind) (w : ℕ) (a : Step) (hw : w < m.wrappers.length)
      (ha : a = .primitive w ∧ kind = .primitive ∨ a = .atomic w ∧ kind = .atomic ∨
        a = .close ∧ kind = .close ∧ m.mode = .output ∧ w = 0) : Stepped m a (m.call kind w)
  | abort (kind : Kind) (w : ℕ) (a : Step) (hw : w < m.wrappers.length)
      (ha : a = .abort w ∧ kind = .abort ∨
        a = .close ∧ kind = .close ∧ m.mode = .input ∧ w = 0) :
      Stepped m a ((m.abort w).1.addTask kind w (.ended (m.abort w).2))
  | writeChar (w : ℕ) (b : UInt8) (hmode : m.mode = .output) (hw : m.state w = .idle)
      (hroom : m.buffer.length < m.length) : Stepped m (.writeChar w b) (m.writeChar b)
  | resume (i w : ℕ) (kind : Kind) (hi : m.tasks[i]? = some ⟨kind, w, .woken⟩) :
      Stepped m (.resume i) (m.resume i kind w)
  | cancel (i w : ℕ) (hi : m.At i w .queued) : Stepped m (.cancel i) (m.setStatus i .canceled)
  | runCanceled (i w : ℕ) (kind : Kind) (hi : m.tasks[i]? = some ⟨kind, w, .canceled⟩) :
      Stepped m (.runCanceled i) (m.runCanceled i kind w)
  | write (i w : ℕ) (b : UInt8) (hi : m.At i w .running) : Stepped m (.write i b) (m.put [b])
  | resize (i w length : ℕ) (hi : m.At i w .running) :
      Stepped m (.resize i length) (m.resize length)
  | performIo (i w : ℕ) (kind : Kind) (hi : m.tasks[i]? = some ⟨kind, w, .running⟩)
      (hflush : kind.flushes = true → m.buffer ≠ []) :
      Stepped m (.performIo i) (m.performIo i kind)
  | performed (i w len n : ℕ) (hi : m.At i w (.performing len))
      (hn : m.mode = .output → n ≤ len) :
      Stepped m (.performed i n) (m.performed i len n)
  | performFails (i w len : ℕ) (kind : Kind) (hi : m.tasks[i]? = some ⟨kind, w, .performing len⟩) :
      Stepped m (.performFails i) (m.performFailed i kind)
  | daPerform (i w : ℕ) (data : List UInt8) (s : Status)
        (hi : m.tasks[i]? = some ⟨.primitive, w, s⟩)
      (hs : s.hasToken = true) (hinput : m.mode = .input → data = [])
      (hroom : m.buffer.length + data.length ≤ m.length) :
      Stepped m (.daPerform i data) (m.daPerform i data)
  | daPerformed (k i len n : ℕ) (hk : m.calls[k]? = some (i, len))
        (hn : m.mode = .output → n ≤ len) :
      Stepped m (.daPerformed k n) ((m.dropCall k).shift len n)
  | daFails (k : ℕ) (hk : k < m.calls.length) : Stepped m (.daFails k) (m.dropCall k)
  | flush (i w : ℕ) (hi : m.At i w .paused) : Stepped m (.flush i) (m.autoFlush i)
  | closes (i w : ℕ) (s : Status) (hi : m.tasks[i]? = some ⟨.close, w, s⟩)
        (hs : m.flushOver s = true) :
      Stepped m (.closes i) (m.closes i w)
  | closeFails (i w : ℕ) (hi : m.At i w .closing) : Stepped m (.closeFails i) (m.closeFails i w)
  | endFlush (i w : ℕ) (s : Status) (hi : m.tasks[i]? = some ⟨.autoFlush, w, s⟩)
      (hs : m.flushOver s = true) : Stepped m (.finish i) (m.endFlush i w)
  | ends (i w : ℕ) (kind : Kind) (s : Status) (o : Outcome)
      (hi : m.tasks[i]? = some ⟨kind, w, s⟩)
      (hs : s = .running ∧ kind = .primitive ∧ o = .returned ∨ s = .closing ∧ o = .closeResult) :
      Stepped m (.finish i) ((m.setStatus i (.ended o)).unlock w)
  | endBlock (i w tmp : ℕ) (hi : m.At i w (.block tmp)) :
      Stepped m (.finish i) (m.endBlock i w tmp)

theorem withTask_eq_some {f : Task → Option Channel} (h : withTask m i f = some u) :
    ∃ kind w s, m.tasks[i]? = some ⟨kind, w, s⟩ ∧ f ⟨kind, w, s⟩ = some u := by
  obtain ⟨t, ht, hf⟩ := Option.bind_eq_some_iff.mp h
  exact ⟨t.kind, t.wrapper, t.status, ht, hf⟩

theorem step_cases {a : Step} (hmain : 0 < m.wrappers.length) (h : step m a = some u) :
    Stepped m a u := by
  cases a with
  | primitive w =>
    obtain ⟨hw, rfl⟩ : w < m.wrappers.length ∧ m.call .primitive w = u := by
      simpa [step] using h
    exact .call .primitive w _ hw (by simp)
  | atomic w =>
    obtain ⟨hw, rfl⟩ : w < m.wrappers.length ∧ m.call .atomic w = u := by
      simpa [step] using h
    exact .call .atomic w _ hw (by simp)
  | close =>
    obtain rfl : m.close = u := by simpa [step] using h
    unfold Channel.close
    split
    -- an input channel is aborted at once, an output channel is locked first
    case h_1 hmode => exact .abort .close 0 _ hmain (by simp [hmode])
    case h_2 hmode => exact .call .close 0 _ hmain (by simp [hmode])
  | abort w =>
    obtain ⟨hw, rfl⟩ : w < m.wrappers.length ∧
        (m.abort w).1.addTask .abort w (.ended (m.abort w).2) = u := by simpa [step] using h
    exact .abort .abort w _ hw (by simp)
  | writeChar w b =>
    obtain ⟨⟨hmode, hw, hroom⟩, rfl⟩ : (m.mode = .output ∧ m.state w = .idle ∧
        m.buffer.length < m.length) ∧ m.writeChar b = u := by simpa [step] using h
    exact .writeChar w b hmode hw hroom
  | resume i =>
    obtain ⟨kind, w, s, hi, hf⟩ := withTask_eq_some h
    obtain ⟨rfl, rfl⟩ : s = .woken ∧ m.resume i kind w = u := by simpa using hf
    exact .resume i w kind hi
  | cancel i =>
    obtain ⟨kind, w, s, hi, hf⟩ := withTask_eq_some h
    obtain ⟨rfl, rfl⟩ : s = .queued ∧ m.setStatus i .canceled = u := by simpa using hf
    exact .cancel i w ⟨kind, hi⟩
  | runCanceled i =>
    obtain ⟨kind, w, s, hi, hf⟩ := withTask_eq_some h
    obtain ⟨rfl, rfl⟩ : s = .canceled ∧ m.runCanceled i kind w = u := by simpa using hf
    exact .runCanceled i w kind hi
  | write i b =>
    obtain ⟨kind, w, s, hi, hf⟩ := withTask_eq_some h
    simp only [Option.ite_none_right_eq_some, Option.some.injEq] at hf
    obtain ⟨⟨rfl, -⟩, rfl⟩ := hf
    exact .write i w b ⟨kind, hi⟩
  | resize i length =>
    obtain ⟨kind, w, s, hi, hf⟩ := withTask_eq_some h
    simp only [Option.ite_none_right_eq_some, Option.some.injEq] at hf
    obtain ⟨⟨rfl, -⟩, rfl⟩ := hf
    exact .resize i w length ⟨kind, hi⟩
  | performIo i =>
    obtain ⟨kind, w, s, hi, hf⟩ := withTask_eq_some h
    simp only [Option.ite_none_right_eq_some, Option.some.injEq] at hf
    obtain ⟨⟨rfl, hflush⟩, rfl⟩ := hf
    exact .performIo i w kind hi hflush
  | performed i n =>
    obtain ⟨kind, w, s, hi, hf⟩ := withTask_eq_some h
    cases s with
    | performing len =>
      obtain ⟨hn, rfl⟩ : (m.mode = .output → n ≤ len) ∧ m.performed i len n = u := by
        simpa using hf
      exact .performed i w len n ⟨kind, hi⟩ hn
    | _ => simp at hf
  | performFails i =>
    obtain ⟨kind, w, s, hi, hf⟩ := withTask_eq_some h
    cases s with
    | performing len =>
      obtain rfl : m.performFailed i kind = u := by simpa using hf
      exact .performFails i w len kind hi
    | _ => simp at hf
  | daPerform i data =>
    obtain ⟨kind, w, s, hi, hf⟩ := withTask_eq_some h
    simp only [Option.ite_none_right_eq_some, Option.some.injEq] at hf
    obtain ⟨⟨rfl, hs, hinput, hroom⟩, rfl⟩ := hf
    exact .daPerform i w data s hi hs hinput hroom
  | daPerformed k n =>
    obtain ⟨⟨i, len⟩, hk, hf⟩ := Option.bind_eq_some_iff.mp h
    simp only [Option.ite_none_right_eq_some, Option.some.injEq] at hf
    obtain ⟨hn, rfl⟩ := hf
    exact .daPerformed k i len n hk hn
  | daFails k =>
    obtain ⟨hk, rfl⟩ : k < m.calls.length ∧ m.dropCall k = u := by simpa [step] using h
    exact .daFails k hk
  | flush i =>
    obtain ⟨kind, w, s, hi, hf⟩ := withTask_eq_some h
    obtain ⟨rfl, rfl⟩ : s = .paused ∧ m.autoFlush i = u := by simpa using hf
    exact .flush i w ⟨kind, hi⟩
  | closes i =>
    obtain ⟨kind, w, s, hi, hf⟩ := withTask_eq_some h
    simp only [Option.ite_none_right_eq_some, Option.some.injEq] at hf
    obtain ⟨⟨rfl, hs⟩, rfl⟩ := hf
    exact .closes i w s hi hs
  | closeFails i =>
    obtain ⟨kind, w, s, hi, hf⟩ := withTask_eq_some h
    obtain ⟨rfl, rfl⟩ : s = .closing ∧ m.closeFails i w = u := by simpa using hf
    exact .closeFails i w ⟨kind, hi⟩
  | finish i =>
    obtain ⟨kind, w, s, hi, hf⟩ := withTask_eq_some h
    -- the auto-flusher is the only task that ends in other states
    by_cases hkind : kind = .autoFlush
    · subst hkind
      simp only [Channel.finish, Option.ite_none_right_eq_some, Option.some.injEq] at hf
      obtain ⟨hs, rfl⟩ := hf
      exact .endFlush i w s hi hs
    cases s with
    | running =>
      cases kind with
      | autoFlush => exact absurd rfl hkind
      | primitive =>
        obtain rfl : (m.setStatus i (.ended .returned)).unlock w = u := by
          simpa [Channel.finish] using hf
        exact .ends i w _ _ _ hi (by simp)
      | _ => simp [Channel.finish] at hf
    | closing =>
      obtain rfl : (m.setStatus i (.ended .closeResult)).unlock w = u := by
        simpa [Channel.finish] using hf
      exact .ends i w _ _ _ hi (by simp)
    | block tmp =>
      obtain rfl : m.endBlock i w tmp = u := by simpa [Channel.finish] using hf
      exact .endBlock i w tmp ⟨_, hi⟩
    | _ => simp [Channel.finish] at hf

end Lwt.Io
