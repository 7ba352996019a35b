import Lwt.Library.Tickets
import Lwt.Library.Transition

/-!
# `Lwt_mutex`

The functions of `lwt_mutex.ml`, run by any number of users in any order.  The promise
that `lock` returns is followed through the stages its user sees: it is made by
`add_task_r` and waits, it is fulfilled by an `unlock` and later its callbacks run, or a
`cancel` rejects it, and later its cancel callback takes the resolver out of `waiters`
and its regular callbacks run.  One `cancel` can reject several promises before any
callback of theirs runs, and other callbacks can run in between; the steps below allow
every such order.

`unlock` wakes the first resolver of `waiters` whatever has become of its promise, and
`wakeup_later` ignores a resolver whose promise is canceled.  The lock is then held by
nobody and stays locked.  This is the only way in which it is lost (`lock_handed_on`).
-/

namespace Lwt

open Tickets Transition

/-- What has become of a call of `lock`. -/
inductive LockState
  /-- pending, the resolver is in `waiters` -/
  | waiting
  /-- fulfilled, the callbacks are yet to run -/
  | granted
  | holding
  | released
  /-- rejected by `cancel`, the cancel callback is yet to run -/
  | canceled
  /-- the regular callbacks are yet to run -/
  | unlinked
  | gaveUp
  deriving DecidableEq

namespace LockState

/-- The resolver may be in `waiters`. -/
def Linked (st : LockState) : Prop := st = .waiting ∨ st = .canceled

/-- The lock belongs to the call. -/
def owns : LockState → Bool
  | granted | holding => true
  | _ => false

/-- The promise has been fulfilled. -/
def fulfilled : LockState → Bool
  | granted | holding | released => true
  | _ => false

end LockState

/-- `Lwt_mutex.t`, with what has become of the calls of `lock` and the calls among them that
`with_lock` made. -/
structure Mutex where
  locked : Bool
  waiters : List ℕ
  calls : List LockState
  bodies : List ℕ
  deriving DecidableEq

namespace Mutex

/-- `create ()`. -/
def create : Mutex := ⟨false, [], [], []⟩

/-- `lock m`. -/
def lock (m : Mutex) : Mutex :=
  if m.locked then
    { m with waiters := m.waiters ++ [m.calls.length], calls := m.calls ++ [.waiting] }
  else { m with locked := true, calls := m.calls ++ [.holding] }

def setState (m : Mutex) (n : ℕ) (st : LockState) : Mutex := { m with calls := m.calls.set n st }

/-- `Lwt.wakeup_later` of the resolver of the call `n`: ignored if the promise has been
canceled. -/
def wakeupLater (m : Mutex) (n : ℕ) : Mutex :=
  if m.calls[n]? = some .waiting then m.setState n .granted else m

/-- `unlock m`. -/
def unlock (m : Mutex) : Mutex :=
  if m.locked then
    match m.waiters with
    | [] => { m with locked := false }
    | n :: waiters => { m with waiters := waiters }.wakeupLater n
  else m

/-- `with_lock m f`, up to the call of `f`. -/
def withLock (m : Mutex) : Mutex := { m.lock with bodies := m.calls.length :: m.bodies }

/-- The part of `Lwt.cancel` that rejects the promise of the call `n`. -/
def reject (m : Mutex) (n : ℕ) : Mutex :=
  if m.calls[n]? = some .waiting then m.setState n .canceled else m

/-- A call of `Lwt.cancel` that reaches the promises of the calls `ns`. -/
def cancel (m : Mutex) (ns : List ℕ) : Mutex := ns.foldl reject m

/-- What can happen to a mutex. -/
inductive Step
  | lock
  | withLock
  | unlock (n : ℕ)
  /-- the promise of the body of the `with_lock` that made the call `n` is resolved -/
  | bodyEnds (n : ℕ)
  | cancel (ns : List ℕ)
  | runCancelCallbacks (n : ℕ)
  | runCallbacks (n : ℕ)

/-- A step; the users unlock only a lock they hold. -/
def step (m : Mutex) : Step → Option Mutex
  | .lock => some m.lock
  | .withLock => some m.withLock
  | .unlock n =>
    if m.calls[n]? = some .holding ∧ n ∉ m.bodies then some (m.setState n .released).unlock
    else none
  | .bodyEnds n =>
    if m.calls[n]? = some .holding ∧ n ∈ m.bodies then some (m.setState n .released).unlock
    else none
  | .cancel ns => some (m.cancel ns)
  | .runCancelCallbacks n =>
    if m.calls[n]? = some .canceled then
      some { m.setState n .unlinked with waiters := m.waiters.filter (· ≠ n) }
    else none
  | .runCallbacks n =>
    match m.calls[n]? with
    | some .granted => some (m.setState n .holding)
    | some .unlinked => some (m.setState n .gaveUp)
    | _ => none

/-! ## Invariant -/

/-- The lock belongs to the call `n`. -/
def Owns (m : Mutex) (n : ℕ) : Prop := ∃ st, m.calls[n]? = some st ∧ st.owns = true

structure Consistent (m : Mutex) : Prop where
  queued : Queued LockState.Linked (· = LockState.waiting) m.calls m.waiters
  unlocked : m.locked = false → m.waiters = [] ∧ ∀ n, ¬ m.Owns n
  owner : ∀ i j, m.Owns i → m.Owns j → i = j
  ordered : ∀ (i j : ℕ) (st : LockState), i < j → m.calls[i]? = some .waiting →
    m.calls[j]? = some st → st.fulfilled = false

/-- While the mutex is locked, the lock belongs to a call. -/
def Handed (m : Mutex) : Prop := m.locked = true → ∃ n, m.Owns n

variable {m m' : Mutex} {n : ℕ} {st t : LockState}

theorem consistent_create : Consistent create where
  queued := .empty _ _
  unlocked _ := ⟨rfl, by simp [Owns, create]⟩
  owner i j h := by simp [Owns, create] at h
  ordered i j st _ h := by simp [create] at h

theorem owns_setState {i : ℕ} (h : (m.setState n st).Owns i) :
    i = n ∧ st.owns = true ∨ i ≠ n ∧ m.Owns i := by
  obtain ⟨t, hst', howns⟩ := h
  rcases getElem?_set_cases hst' with ⟨rfl, rfl⟩ | ⟨hne, hst'⟩
  · exact .inl ⟨rfl, howns⟩
  · exact .inr ⟨hne, t, hst', howns⟩

theorem Owns.setState {i : ℕ} (h : m.Owns i) (hne : i ≠ n) : (m.setState n st).Owns i := by
  obtain ⟨t, hst', howns⟩ := h
  exact ⟨t, by rw [Mutex.setState, List.getElem?_set_ne hne.symm]; exact hst', howns⟩

theorem owns_setState_self (hn : m.calls[n]? = some st) (hst : t.owns = true) :
    (m.setState n t).Owns n :=
  ⟨t, by simp [Mutex.setState, (List.getElem?_eq_some_iff.mp hn).1], hst⟩

namespace Consistent

/-- A call changes its state without getting the lock. -/
theorem setState (hc : Consistent m) (hn : m.calls[n]? = some st) (hwaits : t ≠ .waiting)
    (hlinked : n ∈ m.waiters → t.Linked) (howns : t.owns = true → st.owns = true)
    (hfulfilled : t.fulfilled = true → st.fulfilled = true) : Consistent (m.setState n t) := by
  have hown : ∀ k, (m.setState n t).Owns k → m.Owns k := by
    intro k hk
    rcases owns_setState hk with ⟨rfl, h⟩ | ⟨-, h⟩
    · exact ⟨st, hn, howns h⟩
    · exact h
  refine ⟨hc.queued.set hlinked fun h => absurd h hwaits, fun h => ?_,
    fun i j h h' => hc.owner i j (hown i h) (hown j h'), fun i j st'' hij hwaiting hj => ?_⟩
  · obtain ⟨hempty, hnone⟩ := hc.unlocked h
    exact ⟨hempty, fun i hi => hnone i (hown i hi)⟩
  · rcases getElem?_set_cases hwaiting with ⟨-, h⟩ | ⟨-, hi⟩
    · exact absurd h.symm hwaits
    · rcases getElem?_set_cases hj with ⟨rfl, rfl⟩ | ⟨-, hj'⟩
      · have hold := hc.ordered i j st hij hi hn
        by_contra hnot
        rw [hfulfilled (by simpa using hnot)] at hold
        simp at hold
      · exact hc.ordered i j st'' hij hi hj'

theorem not_mem_waiters (hc : Consistent m) (hn : m.calls[n]? = some st) (hst : ¬ st.Linked) :
    n ∉ m.waiters := by
  intro hmem
  obtain ⟨t, hst', hlinked⟩ := hc.queued.linked n hmem
  obtain rfl : st = t := Option.some.inj (hn.symm.trans hst')
  exact hst hlinked

theorem unlink (hc : Consistent m) (hn : ∀ st, m.calls[n]? = some st → st ≠ .waiting) :
    Consistent { m with waiters := m.waiters.filter (· ≠ n) } where
  queued := by
    refine ⟨hc.queued.sorted.filter _, fun k hk => hc.queued.linked k (List.mem_filter.mp hk).1,
      fun k st hk hwaits => List.mem_filter.mpr ⟨hc.queued.waits k st hk hwaits, ?_⟩⟩
    have hne : k ≠ n := by
      rintro rfl
      exact hn st hk hwaits
    simpa using hne
  unlocked h := by
    obtain ⟨hempty, hnone⟩ := hc.unlocked h
    exact ⟨by simp [hempty], hnone⟩
  owner := hc.owner
  ordered := hc.ordered

theorem lock (hc : Consistent m) : Consistent m.lock := by
  unfold Mutex.lock
  split
  · rename_i hlocked
    have hown : ∀ {k}, Mutex.Owns { m with
        waiters := m.waiters ++ [m.calls.length], calls := m.calls ++ [.waiting] } k →
          m.Owns k := by
      rintro k ⟨st, hst, howns⟩
      rcases getElem?_append_cases hst with hst | ⟨-, rfl⟩
      · exact ⟨st, hst, howns⟩
      · simp [LockState.owns] at howns
    refine ⟨hc.queued.enqueue (.inl rfl), fun h => ?_, fun i j h h' =>
      hc.owner i j (hown h) (hown h'),
      fun i j st hij hi hj => ?_⟩
    · simp [hlocked] at h
    · rcases getElem?_append_cases hj with hj | ⟨-, rfl⟩
      · rcases getElem?_append_cases hi with hi | ⟨rfl, -⟩
        · exact hc.ordered i j st hij hi hj
        · have := (List.getElem?_eq_some_iff.mp hj).1
          omega
      · rfl
  · rename_i hlocked
    obtain ⟨hempty, hnone⟩ := hc.unlocked (by simpa using hlocked)
    have hown : ∀ {k}, Mutex.Owns { m with locked := true, calls := m.calls ++ [.holding] } k →
        k = m.calls.length := by
      rintro k ⟨st, hst, howns⟩
      rcases getElem?_append_cases hst with hst | ⟨rfl, -⟩
      · exact absurd ⟨st, hst, howns⟩ (hnone k)
      · rfl
    refine ⟨hc.queued.append (by simp), by simp, fun i j h h' => (hown h).trans (hown h').symm,
      fun i j st hij hi hj => ?_⟩
    -- Nobody waits, since `waiters` is empty.
    rcases getElem?_append_cases hi with hi | ⟨-, hi⟩
    · have hmem := hc.queued.waits i _ hi rfl
      simp [hempty] at hmem
    · simp at hi

theorem unlock (hc : Consistent m) (hfree : ∀ n, ¬ m.Owns n) : Consistent m.unlock := by
  unfold Mutex.unlock
  split
  · split
    · rename_i hempty
      exact ⟨hc.queued, fun _ => ⟨hempty, hfree⟩, hc.owner, hc.ordered⟩
    · rename_i n waiters hwaiters
      have hlocked : m.locked = true := by assumption
      have hq := hwaiters ▸ hc.queued
      obtain ⟨st, hst, hlinked⟩ := hc.queued.linked n (by simp [hwaiters])
      unfold Mutex.wakeupLater
      split
      · have hown : ∀ {k}, (Mutex.setState { m with waiters := waiters } n .granted).Owns k →
            k = n := by
          intro k hk
          rcases owns_setState hk with ⟨rfl, -⟩ | ⟨-, h⟩
          · rfl
          · exact absurd h (hfree k)
        refine ⟨hq.dequeue (by simp), fun h => ?_, fun i j h h' => (hown h).trans (hown h').symm,
          fun i j t hij hi hj => ?_⟩
        · simp [Mutex.setState, hlocked] at h
        · rcases getElem?_set_cases hi with ⟨-, hi'⟩ | ⟨-, hi'⟩
          · simp at hi'
          · rcases getElem?_set_cases hj with ⟨rfl, -⟩ | ⟨-, hj'⟩
            · have := hq.first_le hi' rfl
              omega
            · exact hc.ordered i j t hij hi' hj'
      · rename_i hnot
        have hwaits : st ≠ .waiting := by
          rintro rfl
          exact hnot hst
        exact ⟨hq.tail hst hwaits, fun h => by simp [hlocked] at h, hc.owner, hc.ordered⟩
  · exact hc

theorem reject (hc : Consistent m) (n : ℕ) : Consistent (m.reject n) := by
  unfold Mutex.reject
  split
  · rename_i hn
    exact hc.setState hn (by simp) (fun _ => .inr rfl) (by simp [LockState.owns])
      (by simp [LockState.fulfilled])
  · exact hc

theorem cancel (hc : Consistent m) (ns : List ℕ) : Consistent (m.cancel ns) := by
  induction ns generalizing m with
  | nil => exact hc
  | cons n ns ih => exact ih (hc.reject n)

theorem release (hc : Consistent m) (hn : m.calls[n]? = some .holding) :
    Consistent (m.setState n .released) ∧ ∀ k, ¬ (m.setState n .released).Owns k := by
  refine ⟨hc.setState hn (by simp) (fun hmem => ?_) (by simp [LockState.owns])
    (by simp [LockState.fulfilled]), fun k hk => ?_⟩
  · exact absurd hmem (hc.not_mem_waiters hn (by simp [LockState.Linked]))
  · rcases owns_setState hk with ⟨-, h⟩ | ⟨hne, h⟩
    · simp [LockState.owns] at h
    · exact hne (hc.owner k n h ⟨_, hn, rfl⟩)

theorem step {a : Step} (hc : Consistent m) (hstep : m.step a = some m') : Consistent m' := by
  cases a with
  | lock =>
    cases hstep
    exact hc.lock
  | withLock =>
    cases hstep
    exact ⟨hc.lock.queued, hc.lock.unlocked, hc.lock.owner, hc.lock.ordered⟩
  | unlock n =>
    simp only [Mutex.step, Option.ite_none_right_eq_some, Option.some.injEq] at hstep
    obtain ⟨⟨hn, -⟩, rfl⟩ := hstep
    obtain ⟨hc', hfree⟩ := hc.release hn
    exact hc'.unlock hfree
  | bodyEnds n =>
    simp only [Mutex.step, Option.ite_none_right_eq_some, Option.some.injEq] at hstep
    obtain ⟨⟨hn, -⟩, rfl⟩ := hstep
    obtain ⟨hc', hfree⟩ := hc.release hn
    exact hc'.unlock hfree
  | cancel ns =>
    cases hstep
    exact hc.cancel ns
  | runCancelCallbacks n =>
    simp only [Mutex.step, Option.ite_none_right_eq_some, Option.some.injEq] at hstep
    obtain ⟨hn, rfl⟩ := hstep
    have hunlinked := hc.unlink (n := n) (by simp [hn])
    exact hunlinked.setState (t := .unlinked) hn (by simp) (by simp) (by simp [LockState.owns])
      (by simp [LockState.fulfilled])
  | runCallbacks n =>
    simp only [Mutex.step] at hstep
    split at hstep
    · rename_i hn
      cases hstep
      exact hc.setState hn (by simp)
        (fun h => absurd h (hc.not_mem_waiters hn (by simp [LockState.Linked])))
        (fun _ => rfl) (fun _ => rfl)
    · rename_i hn
      cases hstep
      exact hc.setState hn (by simp)
        (fun h => absurd h (hc.not_mem_waiters hn (by simp [LockState.Linked])))
        (by simp [LockState.owns]) (by simp [LockState.fulfilled])
    · simp at hstep

end Consistent

/-! ## Handing the lock on -/

/-- An `unlock` finds nobody in `waiters`, or first in it a promise that still waits. -/
def wakesWaiter (m : Mutex) : Step → Bool
  | .unlock _ | .bodyEnds _ =>
    match m.waiters with
    | [] => true
    | n :: _ => m.calls[n]? = some .waiting
  | _ => true

theorem owns_unlock (hlocked : m.unlock.locked = true) (hwakes : m.wakesWaiter (.unlock n) = true) :
    ∃ k, m.unlock.Owns k := by
  by_cases h : m.locked = true
  · cases hwaiters : m.waiters with
    | nil => simp [unlock, h, hwaiters] at hlocked
    | cons k waiters =>
      have hk : m.calls[k]? = some .waiting := by simpa [wakesWaiter, hwaiters] using hwakes
      refine ⟨k, ?_⟩
      simp only [unlock, h, if_true, hwaiters, wakeupLater, hk]
      exact owns_setState_self (m := { m with waiters := waiters }) hk rfl
  · simp [unlock, h] at hlocked

/-- The lock is lost when the first of `waiters` has been canceled. -/
theorem unlock_lost (hlocked : m.locked = true) (hfree : ∀ k, ¬ m.Owns k)
    (hwakes : m.wakesWaiter (.unlock n) = false) :
    m.unlock.locked = true ∧ ∀ k, ¬ m.unlock.Owns k := by
  unfold unlock
  rw [if_pos hlocked]
  split
  · rename_i hwaiters
    simp [wakesWaiter, hwaiters] at hwakes
  · rename_i k waiters hwaiters
    have hk : ¬ m.calls[k]? = some .waiting := by simpa [wakesWaiter, hwaiters] using hwakes
    simp only [wakeupLater, hk, if_false]
    exact ⟨hlocked, hfree⟩

theorem Handed.reject (hh : Handed m) (k : ℕ) : Handed (m.reject k) := by
  unfold Mutex.reject
  split
  · rename_i hk
    intro hlocked
    obtain ⟨i, hi⟩ := hh hlocked
    refine ⟨i, hi.setState ?_⟩
    rintro rfl
    obtain ⟨st, hst, howns⟩ := hi
    cases hk.symm.trans hst
    simp [LockState.owns] at howns
  · exact hh

theorem Handed.cancel (hh : Handed m) (ns : List ℕ) : Handed (m.cancel ns) := by
  induction ns generalizing m with
  | nil => exact hh
  | cons n ns ih => exact ih (hh.reject n)

theorem Handed.lock (hh : Handed m) : Handed m.lock := by
  intro hlocked
  unfold Mutex.lock
  split
  · rename_i h
    obtain ⟨i, st, hst, howns⟩ := hh h
    refine ⟨i, st, ?_, howns⟩
    rw [List.getElem?_append_left (List.getElem?_eq_some_iff.mp hst).1]
    exact hst
  · exact ⟨m.calls.length, .holding, by simp, rfl⟩

theorem Handed.setState (hh : Handed m) (hn : m.calls[n]? = some st)
    (howns : st.owns = true → t.owns = true) : Handed (m.setState n t) := by
  intro hlocked
  obtain ⟨i, hi⟩ := hh hlocked
  by_cases hin : i = n
  · subst hin
    obtain ⟨st'', hst, h⟩ := hi
    cases hn.symm.trans hst
    exact ⟨i, owns_setState_self hn (howns h)⟩
  · exact ⟨i, hi.setState hin⟩

theorem step_unlocks {a : Step} (ha : (∃ n, a = .unlock n) ∨ ∃ n, a = .bodyEnds n)
    (hstep : m.step a = some m') :
    ∃ n, m.calls[n]? = some .holding ∧ m' = (m.setState n .released).unlock ∧
      (m.setState n .released).wakesWaiter (.unlock n) = m.wakesWaiter a := by
  have hwakes : ∀ n, m.calls[n]? = some .holding →
      (m.setState n .released).wakesWaiter (.unlock n) = m.wakesWaiter (.unlock n) := by
    intro n hn
    have hstill : ∀ k : ℕ, (m.setState n .released).calls[k]? = some .waiting ↔
        m.calls[k]? = some .waiting := by
      intro k
      refine ⟨fun hk => ?_, fun hk => ?_⟩
      · exact ((getElem?_set_cases hk).resolve_left (by simp)).2
      · have hkn : n ≠ k := by
          rintro rfl
          simp [hn] at hk
        rw [setState, List.getElem?_set_ne hkn]
        exact hk
    cases hwaiters : m.waiters with
    | nil => simp [wakesWaiter, setState, hwaiters]
    | cons k waiters =>
      simp only [wakesWaiter, show (m.setState n .released).waiters = k :: waiters from hwaiters,
        hwaiters, hstill]
  rcases ha with ⟨n, rfl⟩ | ⟨n, rfl⟩ <;>
    simp only [Mutex.step, Option.ite_none_right_eq_some, Option.some.injEq] at hstep
  · exact ⟨n, hstep.1.1, hstep.2.symm, hwakes n hstep.1.1⟩
  · exact ⟨n, hstep.1.1, hstep.2.symm, hwakes n hstep.1.1⟩

theorem Handed.step {a : Step} (hh : Handed m) (hwakes : m.wakesWaiter a = true)
    (hstep : m.step a = some m') : Handed m' := by
  cases a with
  | lock =>
    cases hstep
    exact hh.lock
  | withLock =>
    cases hstep
    exact hh.lock
  | unlock n =>
    obtain ⟨k, -, rfl, heq⟩ := step_unlocks (.inl ⟨n, rfl⟩) hstep
    exact fun hlocked => owns_unlock hlocked (heq.trans hwakes)
  | bodyEnds n =>
    obtain ⟨k, -, rfl, heq⟩ := step_unlocks (.inr ⟨n, rfl⟩) hstep
    exact fun hlocked => owns_unlock hlocked (heq.trans hwakes)
  | cancel ns =>
    cases hstep
    exact hh.cancel ns
  | runCancelCallbacks n =>
    simp only [Mutex.step, Option.ite_none_right_eq_some, Option.some.injEq] at hstep
    obtain ⟨hn, rfl⟩ := hstep
    exact hh.setState hn (by simp [LockState.owns])
  | runCallbacks n =>
    simp only [Mutex.step] at hstep
    split at hstep
    · rename_i hn
      cases hstep
      exact hh.setState hn fun _ => rfl
    · rename_i hn
      cases hstep
      exact hh.setState hn (by simp [LockState.owns])
    · simp at hstep

theorem reach_consistent {ok : Mutex → Step → Prop} (hreach : Reach step ok create m) :
    Consistent m :=
  hreach.invariant consistent_create fun _ _ _ hc _ hstep => hc.step hstep

/-! ## What others see of a step -/

/-- The calls keep their states, apart from waiting ones that are granted the lock. -/
def Advances (m m' : Mutex) : Prop :=
  ∀ (n : ℕ) (st : LockState), m.calls[n]? = some st →
    m'.calls[n]? = some st ∨ st = .waiting ∧ m'.calls[n]? = some .granted

theorem advances_lock (m : Mutex) : Advances m m.lock := by
  intro n st hn
  have hlt := (List.getElem?_eq_some_iff.mp hn).1
  unfold lock
  split <;> exact .inl (by rw [List.getElem?_append_left hlt]; exact hn)

theorem advances_unlock (m : Mutex) : Advances m m.unlock := by
  intro n st hn
  unfold unlock
  split
  · split
    · exact .inl hn
    · rename_i k waiters _
      unfold wakeupLater
      split
      · rename_i hk
        by_cases hkn : k = n
        · subst hkn
          cases hn.symm.trans hk
          exact .inr ⟨rfl, by simp [setState, (List.getElem?_eq_some_iff.mp hn).1]⟩
        · exact .inl (by rw [setState, List.getElem?_set_ne hkn]; exact hn)
      · exact .inl hn
  · exact .inl hn

/-- A `cancel` changes only waiting calls among those it reaches. -/
theorem getElem?_cancel {ns : List ℕ} (hn : m.calls[n]? = some st)
    (hkeep : n ∈ ns → st ≠ .waiting) : (m.cancel ns).calls[n]? = some st := by
  induction ns generalizing m with
  | nil => exact hn
  | cons k ns ih =>
    refine ih ?_ fun h => hkeep (List.mem_cons_of_mem _ h)
    unfold reject
    split
    · rename_i hk
      have hkn : k ≠ n := by
        rintro rfl
        cases hn.symm.trans hk
        exact hkeep List.mem_cons_self rfl
      rw [setState, List.getElem?_set_ne hkn]
      exact hn
    · exact hn

/-! ## Runs -/

/-- In every run at most one call holds the lock, and a promise that waits has not been
passed over for a later one.  In every run in which each `unlock` wakes a promise that
still waits, or finds none, a locked mutex is held, or given to exactly one promise whose
callbacks are yet to run; and an `unlock` that wakes a canceled one breaks this. -/
theorem lock_handed_on {m : Mutex} :
    (Reach step (fun _ _ => True) create m →
      (∀ i j : ℕ, m.calls[i]? = some .holding → m.calls[j]? = some .holding → i = j) ∧
      ∀ (i j : ℕ) (st : LockState), i < j → m.calls[i]? = some .waiting → m.calls[j]? = some st →
        st.fulfilled = false) ∧
    (Reach step (fun m a => m.wakesWaiter a = true) create m →
      (m.locked = true →
        (∃ i : ℕ, m.calls[i]? = some .holding) ∨ ∃! i : ℕ, m.calls[i]? = some .granted) ∧
      ∀ a m', m.step a = some m' → m.wakesWaiter a = false →
        m'.locked = true ∧ ∀ i : ℕ, m'.calls[i]? ≠ some .holding ∧
        m'.calls[i]? ≠ some .granted) := by
  refine ⟨fun hreach => ?_, fun hreach => ⟨fun hlocked => ?_, fun a m' hstep hwakes => ?_⟩⟩
  · have hc := reach_consistent hreach
    exact ⟨fun i j hi hj => hc.owner i j ⟨_, hi, rfl⟩ ⟨_, hj, rfl⟩, hc.ordered⟩
  · have hc := reach_consistent hreach
    have hh : Handed m := hreach.invariant (P := Handed) (by simp [Handed, create])
      fun _ _ _ hh hok hstep => hh.step hok hstep
    obtain ⟨i, st, hst, howns⟩ := hh hlocked
    cases st with
    | holding => exact .inl ⟨i, hst⟩
    | granted => exact .inr ⟨i, hst, fun j hj => hc.owner j i ⟨_, hj, rfl⟩ ⟨_, hst, rfl⟩⟩
    | _ => simp [LockState.owns] at howns
  · have hc := reach_consistent hreach
    have ha : (∃ n, a = .unlock n) ∨ ∃ n, a = .bodyEnds n := by
      cases a with
      | unlock n => exact .inl ⟨n, rfl⟩
      | bodyEnds n => exact .inr ⟨n, rfl⟩
      | _ => simp [wakesWaiter] at hwakes
    obtain ⟨n, hn, rfl, heq⟩ := step_unlocks ha hstep
    obtain ⟨-, hfree⟩ := hc.release hn
    have hlocked : m.locked = true := by
      by_contra hnot
      exact (hc.unlocked (by simpa using hnot)).2 n ⟨_, hn, rfl⟩
    obtain ⟨hlocked', hfree'⟩ :=
      unlock_lost (m := m.setState n .released) (n := n) hlocked hfree (heq.trans hwakes)
    exact ⟨hlocked', fun i => ⟨fun h => hfree' i ⟨_, h, rfl⟩, fun h => hfree' i ⟨_, h, rfl⟩⟩⟩

/-- A `with_lock`, a `lock` that waits, and one `cancel` of both the body of the first and
the promise of the second: the callbacks of the body run first, and unlock. -/
def cancelBothSteps : List Step := [.withLock, .lock, .cancel [1], .bodyEnds 0]

theorem lock_lost : ∃ m, Reach step (fun _ _ => True) create m ∧ m.locked = true ∧
    ∀ st ∈ m.calls, st ≠ .holding ∧ st ≠ .granted :=
  ⟨⟨true, [], [.released, .canceled], [0]⟩,
    reach_of_replay cancelBothSteps (by decide), by decide, by decide⟩

/-- A canceled promise is taken out in time, and the next one gets the lock. -/
def cancelFirstSteps : List Step :=
  [.lock, .lock, .withLock, .cancel [1], .runCancelCallbacks 1, .unlock 0]

theorem lock_handed_on_waiter : ∃ m, Reach step (fun m a => m.wakesWaiter a = true) create m ∧
    m.locked = true ∧ ((∃ i : ℕ, m.calls[i]? = some .holding) ∨
      ∃! i : ℕ, m.calls[i]? = some .granted) := by
  have hreach : Reach step (fun m a => m.wakesWaiter a = true) create
      ⟨true, [], [.released, .unlinked, .granted], [2]⟩ :=
    reach_of_checked cancelFirstSteps (by decide)
  exact ⟨_, hreach, rfl, (lock_handed_on.2 hreach).1 rfl⟩

end Mutex

end Lwt
