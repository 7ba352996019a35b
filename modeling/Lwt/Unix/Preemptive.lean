import Mathlib.Data.Int.Notation
import Lwt.Library.Tickets
import Lwt.Library.Transition

/-!
# Worker threads of `Lwt_preemptive`

`detach` gives its task to a worker thread: to an idle one, to a new one, or to the next one that is
put back, for which it waits.  A worker that has done a task decides on its own thread whether it
exits, because there are too many threads, and the main thread learns of it by the notification.

The main thread counts a worker that exits only then, so that several workers can exit for the same
reason, even all of them.  Nobody makes a worker for the calls that wait.  Such a call goes on when
a worker is not the last one to stay.  Other ways to wait for ever are a call that is made when all
workers are about to exit, or when the bounds allow none, and a worker that is given to a call
which has been canceled and is yet to be taken out of `waiters`.
-/

namespace Lwt.Unix

open Tickets Transition

/-- A worker thread. -/
inductive WorkerThread
  /-- It waits for its next task. -/
  | idle
  /-- It has the task of the call. -/
  | running (c : ℕ)
  /-- It has sent the notification, and the main thread has not received it. -/
  | finished (c : ℕ) (reuse : Bool)
  | joined
  deriving DecidableEq

/-- The worker will be put back when its task is done. -/
def WorkerThread.stays : WorkerThread → Bool
  | .running _ => true
  | .finished _ reuse => reuse
  | _ => false

/-- A call of `detach`. -/
inductive Detach
  /-- Its resolver is in `waiters`. -/
  | waiting
  | running (i : ℕ)
  | resolved
  /-- rejected by `cancel`, the cancel callback is yet to run -/
  | canceled
  | gaveUp
  deriving DecidableEq

/-- The resolver may be in `waiters`. -/
def Detach.Linked (st : Detach) : Prop := st = .waiting ∨ st = .canceled

structure Preemptive where
  initialized : Bool
  minThreads : ℕ
  maxThreads : ℕ
  threadsCount : ℕ
  /-- the idle workers -/
  workers : List ℕ
  waiters : List ℕ
  threads : List WorkerThread
  calls : List Detach
  /-- Not part of the program: `threadsCount` when `maxThreads` was last lowered. -/
  lowered : ℕ
  deriving DecidableEq

namespace Preemptive

/-- The state of the module when the program starts. -/
def start : Preemptive := ⟨false, 0, 0, 0, [], [], [], [], 0⟩

/-- `Lwt.wakeup` of the resolver of the call `c` with the worker `i`, and the task is sent to it:
ignored if the call has been canceled. -/
def wakeup (s : Preemptive) (c i : ℕ) : Preemptive :=
  if s.calls[c]? = some .waiting then
    { s with calls := s.calls.set c (.running i), threads := s.threads.set i (.running c) }
  else s

/-- The new worker is the last one. -/
def makeWorker (s : Preemptive) : Preemptive :=
  { s with threadsCount := s.threadsCount + 1, threads := s.threads ++ [.idle] }

def addWorker (s : Preemptive) (i : ℕ) : Preemptive :=
  match s.waiters with
  | [] => { s with workers := s.workers ++ [i] }
  | c :: waiters => { s with waiters := waiters }.wakeup c i

/-- The loop of `set_bounds`. -/
def launch : ℕ → Preemptive → Preemptive
  | 0, s => s
  | n + 1, s => launch n (s.makeWorker.addWorker s.threads.length)

/-- `set_bounds (min, max)`; with wrong bounds it raises `Invalid_argument`. -/
def setBounds (s : Preemptive) (min max : ℤ) : Preemptive :=
  if min < 0 ∨ max < min then s
  else
    launch (min.toNat - s.threadsCount)
      { s with
        minThreads := min.toNat
        maxThreads := max.toNat
        lowered := if max.toNat < s.maxThreads then s.threadsCount else s.lowered }

/-- `init min max _` -/
def init (s : Preemptive) (min max : ℤ) : Preemptive :=
  { s with initialized := true }.setBounds min max

def simpleInit (s : Preemptive) : Preemptive :=
  if s.initialized then s else s.init 0 4

/-- `detach`, with `get_worker`.  The new call is the last one. -/
def detach (s : Preemptive) : Preemptive :=
  let s := s.simpleInit
  match s.workers with
  | i :: workers =>
    { s with
      workers := workers
      calls := s.calls ++ [.running i]
      threads := s.threads.set i (.running s.calls.length) }
  | [] =>
    if s.threadsCount < s.maxThreads then
      { s.makeWorker with
        calls := s.calls ++ [.running s.threads.length]
        threads := s.threads ++ [.running s.calls.length] }
    else
      { s with waiters := s.waiters ++ [s.calls.length], calls := s.calls ++ [.waiting] }

/-- `worker_loop` after the task. -/
def finish (s : Preemptive) (i c : ℕ) : Preemptive :=
  { s with threads := s.threads.set i (.finished c (decide ¬s.threadsCount > s.maxThreads)) }

/-- The end of `detach`, when the notification is received. -/
def finalize (s : Preemptive) (i c : ℕ) (reuse : Bool) : Preemptive :=
  let s : Preemptive := { s with calls := s.calls.set c .resolved }
  if reuse then { s with threads := s.threads.set i .idle }.addWorker i
  else { s with threadsCount := s.threadsCount - 1, threads := s.threads.set i .joined }

/-- The part of `Lwt.cancel` that rejects the promise of a call. -/
def reject (s : Preemptive) (c : ℕ) : Preemptive :=
  if s.calls[c]? = some .waiting then { s with calls := s.calls.set c .canceled } else s

end Preemptive

inductive PreemptiveStep
  | init (min max : ℤ)
  | setBounds (min max : ℤ)
  | detach
  | cancel (cs : List ℕ)
  | runCancelCallbacks (c : ℕ)
  /-- on the thread of the worker -/
  | finish (i : ℕ)
  | notification (i : ℕ)

/-- The main loop receives a notification only when the cancel callbacks have run. -/
def preemptiveStep (s : Preemptive) : PreemptiveStep → Option Preemptive
  | .init min max => some (s.init min max)
  | .setBounds min max => some (s.setBounds min max)
  | .detach => some s.detach
  | .cancel cs => some (cs.foldl Preemptive.reject s)
  | .runCancelCallbacks c =>
    if s.calls[c]? = some .canceled then
      some { s with
        calls := s.calls.set c .gaveUp
        waiters := s.waiters.filter (· ≠ c) }
    else none
  | .finish i =>
    match s.threads[i]? with
    | some (.running c) => some (s.finish i c)
    | _ => none
  | .notification i =>
    match s.threads[i]? with
    | some (.finished c reuse) =>
      if .canceled ∈ s.calls then none else some (s.finalize i c reuse)
    | _ => none

namespace Preemptive

variable {s t : Preemptive} {i c : ℕ} {extra : List ℕ}

/-- A worker will be put back. -/
def Stays (threads : List WorkerThread) : Prop :=
  ∃ (i : ℕ) (t : WorkerThread), threads[i]? = some t ∧ t.stays = true

/-- The calls that have a worker are those that the workers have. -/
def Matched (threads : List WorkerThread) (calls : List Detach) : Prop :=
  ∀ i c : ℕ, calls[c]? = some (Detach.running i) ↔
    threads[i]? = some (WorkerThread.running c) ∨
      ∃ reuse, threads[i]? = some (WorkerThread.finished c reuse)

/-- The workers of `extra` are about to be put back. -/
structure Sound (s : Preemptive) (extra : List ℕ) : Prop where
  nodup : (extra ++ s.workers).Nodup
  idle : ∀ i : ℕ, i ∈ extra ++ s.workers ↔ s.threads[i]? = some WorkerThread.idle
  matched : Matched s.threads s.calls
  count : s.threadsCount = s.threads.countP (· ≠ .joined)
  bound : s.threadsCount ≤ max s.maxThreads s.lowered
  queued : Queued Detach.Linked (· = Detach.waiting) s.calls s.waiters
  handed : s.workers = [] ∨ s.waiters = []
  busy : .waiting ∈ s.calls → extra ≠ [] ∨ Stays s.threads

/-! ## Workers and calls -/

/-- A call that has no worker gets an idle one. -/
theorem Matched.give {threads : List WorkerThread} {calls : List Detach}
    (h : Matched threads calls) {st : Detach} (hi : threads[i]? = some .idle)
    (hc : calls[c]? = some st) (hst : ∀ j, st ≠ .running j) :
    Matched (threads.set i (.running c)) (calls.set c (.running i)) := by
  have hilt := (List.getElem?_eq_some_iff.mp hi).1
  have hclt := (List.getElem?_eq_some_iff.mp hc).1
  intro j d
  have hold := h j d
  by_cases hd : c = d
  · subst hd
    by_cases hj : i = j
    · subst hj
      simp [hilt, hclt]
    · have hne : i ≠ j := hj
      rw [hc] at hold
      simp only [Option.some.injEq, hst j, false_iff] at hold
      rw [List.getElem?_set_self hclt, List.getElem?_set_ne hne]
      simp only [Option.some.injEq, Detach.running.injEq, hne, false_iff]
      exact hold
  · rw [List.getElem?_set_ne hd, hold]
    by_cases hj : i = j
    · subst hj
      rw [List.getElem?_set_self hilt, hi]
      simp [hd]
    · rw [List.getElem?_set_ne hj]

theorem Matched.set_call {threads : List WorkerThread} {calls : List Detach}
    (h : Matched threads calls) {st st' : Detach} (hc : calls[c]? = some st)
    (hst : ∀ j, st ≠ .running j) (hst' : ∀ j, st' ≠ .running j) :
    Matched threads (calls.set c st') := by
  intro j d
  rw [← h j d]
  exact getElem?_set_iff hc (hst j) (hst' j) d

theorem Matched.append_call {threads : List WorkerThread} {calls : List Detach}
    (h : Matched threads calls) {st : Detach} (hst : ∀ j, st ≠ .running j) :
    Matched threads (calls ++ [st]) := by
  intro j d
  rw [← h j d]
  constructor
  · intro hd
    rcases getElem?_append_cases hd with hd | ⟨-, heq⟩
    · exact hd
    · exact absurd heq.symm (hst j)
  · intro hd
    rw [List.getElem?_append_left (List.getElem?_eq_some_iff.mp hd).1]
    exact hd

theorem Matched.append_thread {threads : List WorkerThread} {calls : List Detach}
    (h : Matched threads calls) : Matched (threads ++ [.idle]) calls := by
  intro j d
  rw [h j d]
  have hold : ∀ t : WorkerThread, t ≠ .idle →
      ((threads ++ [.idle])[j]? = some t ↔ threads[j]? = some t) := by
    intro t ht
    constructor
    · intro hj
      rcases getElem?_append_cases hj with hj | ⟨-, heq⟩
      · exact hj
      · exact absurd heq ht
    · intro hj
      rw [List.getElem?_append_left (List.getElem?_eq_some_iff.mp hj).1]
      exact hj
  simp only [hold (.running d) (by simp), hold (.finished d _) (by simp)]

theorem Stays.set {threads : List WorkerThread} {t : WorkerThread} (h : Stays threads)
    (ht : threads[i]? = some t) (hstays : t.stays = false) (t' : WorkerThread) :
    Stays (threads.set i t') := by
  obtain ⟨j, t'', hj, ht''⟩ := h
  have hne : i ≠ j := by
    rintro rfl
    cases ht.symm.trans hj
    rw [hstays] at ht''
    cases ht''
  exact ⟨j, t'', by rwa [List.getElem?_set_ne hne], ht''⟩

theorem stays_set {threads : List WorkerThread} {t : WorkerThread} (hi : i < threads.length)
    (ht : t.stays = true) : Stays (threads.set i t) :=
  ⟨i, t, List.getElem?_set_self hi, ht⟩

theorem countP_set_thread {threads : List WorkerThread} {t t' : WorkerThread}
    (ht : threads[i]? = some t) (hne : t ≠ .joined) (hne' : t' ≠ .joined) :
    (threads.set i t').countP (· ≠ .joined) = threads.countP (· ≠ .joined) := by
  obtain ⟨hi, rfl⟩ := List.getElem?_eq_some_iff.mp ht
  have hpos : 0 < threads.countP (· ≠ .joined) :=
    List.countP_pos_iff.mpr ⟨_, List.getElem_mem hi, by simpa using hne⟩
  rw [List.countP_set hi, if_pos (decide_eq_true hne), if_pos (decide_eq_true hne')]
  exact Nat.sub_add_cancel hpos

theorem idle_set {threads : List WorkerThread} {workers : List ℕ} {t : WorkerThread}
    (hnodup : (i :: workers).Nodup)
    (hidle : ∀ j : ℕ, j ∈ i :: workers ↔ threads[j]? = some WorkerThread.idle) (ht : t ≠ .idle)
    (j : ℕ) : j ∈ workers ↔ (threads.set i t)[j]? = some WorkerThread.idle := by
  have hi := (List.getElem?_eq_some_iff.mp ((hidle i).mp List.mem_cons_self)).1
  by_cases hj : i = j
  · subst hj
    rw [List.getElem?_set_self hi]
    simp [ht, (List.nodup_cons.mp hnodup).1]
  · rw [List.getElem?_set_ne hj, ← hidle j]
    simp [Ne.symm hj]

/-! ## Operations -/

theorem sound_start : start.Sound [] where
  nodup := List.nodup_nil
  idle i := by simp [start]
  matched i c := by simp [start]
  count := rfl
  bound := Nat.zero_le _
  queued := .empty _ _
  handed := .inl rfl
  busy h := absurd h List.not_mem_nil

theorem Sound.addWorker (h : s.Sound [i])
    (hfirst : ∀ c ∈ s.waiters.head?, s.calls[c]? = some .waiting) :
    (s.addWorker i).Sound [] := by
  have hi := (h.idle i).mp List.mem_cons_self
  unfold Preemptive.addWorker
  split
  case h_1 hempty =>
    have hperm : (s.workers ++ [i]).Perm ([i] ++ s.workers) := List.perm_append_comm
    refine ⟨hperm.nodup_iff.mpr h.nodup, fun j => ?_, h.matched, h.count, h.bound, h.queued,
      .inr hempty, fun hwaiting => ?_⟩
    · rw [← h.idle j]
      exact hperm.mem_iff
    · obtain ⟨c, hc, heq⟩ := List.getElem_of_mem hwaiting
      have hmem := h.queued.waits c _ (List.getElem?_eq_getElem hc) heq
      rw [hempty] at hmem
      cases hmem
  case h_2 c waiters hwaiters =>
    have hc := hfirst c (by rw [hwaiters]; rfl)
    have hqueued := h.queued
    rw [hwaiters] at hqueued
    have hworkers : s.workers = [] := h.handed.resolve_right (by rw [hwaiters]; simp)
    unfold wakeup
    rw [if_pos hc]
    refine ⟨(List.nodup_cons.mp h.nodup).2, fun j => ?_, ?_, ?_, h.bound,
      hqueued.dequeue (by simp), .inl hworkers, fun _ => .inr ?_⟩
    · exact idle_set h.nodup h.idle (by simp) j
    · exact h.matched.give hi hc (by simp)
    · exact h.count.trans (countP_set_thread hi (by simp) (by simp)).symm
    · exact stays_set (List.getElem?_eq_some_iff.mp hi).1 rfl

theorem Sound.makeWorker (h : s.Sound []) (hlt : s.threadsCount < max s.maxThreads s.lowered)
    (hworkers : s.workers = [] ∨ s.waiters = []) : s.makeWorker.Sound [s.threads.length] := by
  have hnew : s.threads.length ∉ s.workers := by
    intro hmem
    have hlen := (List.getElem?_eq_some_iff.mp ((h.idle _).mp hmem)).1
    omega
  refine ⟨List.nodup_cons.mpr ⟨hnew, h.nodup⟩, fun j => ?_, h.matched.append_thread, ?_, hlt,
    h.queued, hworkers, fun _ => .inl (by simp)⟩
  · have hold := h.idle j
    simp only [List.nil_append] at hold
    rw [List.mem_append, List.mem_singleton]
    unfold Preemptive.makeWorker
    simp only
    constructor
    · rintro (rfl | hmem)
      · simp
      · have hj := hold.mp hmem
        rw [List.getElem?_append_left (List.getElem?_eq_some_iff.mp hj).1]
        exact hj
    · intro hj
      rcases getElem?_append_cases hj with hj | ⟨rfl, -⟩
      · exact .inr (hold.mpr hj)
      · exact .inl rfl
  · simp [Preemptive.makeWorker, h.count, List.countP_append]

theorem Sound.launch : ∀ {n : ℕ} {s : Preemptive}, s.Sound [] →
    s.threadsCount + n ≤ s.maxThreads → (∀ c ∈ s.waiters.take n, s.calls[c]? = some .waiting) →
      (Preemptive.launch n s).Sound [] := by
  intro n
  induction n with
  | zero =>
    intro s h _ _
    exact h
  | succ n ih =>
    intro s h hle hfirst
    have hlt : s.threadsCount < max s.maxThreads s.lowered :=
      Nat.lt_of_lt_of_le (by omega) (Nat.le_max_left _ _)
    have hmade := h.makeWorker hlt h.handed
    have hhead : ∀ c ∈ s.waiters.head?, s.calls[c]? = some .waiting := by
      intro c hc
      obtain ⟨rest, hrest⟩ := List.head?_eq_some_iff.mp hc
      exact hfirst c (by rw [hrest, List.take_succ_cons]; exact List.mem_cons_self)
    refine ih (hmade.addWorker hhead) ?_ ?_
    · have hsame : (s.makeWorker.addWorker s.threads.length).threadsCount = s.threadsCount + 1 ∧
          (s.makeWorker.addWorker s.threads.length).maxThreads = s.maxThreads := by
        unfold Preemptive.addWorker
        split
        · exact ⟨rfl, rfl⟩
        · unfold wakeup
          split <;> exact ⟨rfl, rfl⟩
      omega
    · intro c hc
      unfold Preemptive.addWorker at hc ⊢
      split at hc
      -- nobody waits, or the new worker goes to the first caller
      case h_1 hempty =>
        have hnil : s.waiters = [] := hempty
        simp [Preemptive.makeWorker, hnil] at hc
      case h_2 d waiters hwaiters =>
        have hcons : s.waiters = d :: waiters := hwaiters
        have hd := hhead d (by rw [hcons]; rfl)
        have hqueued := h.queued
        rw [hcons] at hqueued hfirst
        have hc' : c ∈ waiters.take n := by
          unfold wakeup at hc
          split at hc <;> exact hc
        have hne : d ≠ c := by
          rintro rfl
          exact hqueued.not_mem_rest (List.mem_of_mem_take hc')
        have hold := hfirst c (by rw [List.take_succ_cons]; exact List.mem_cons_of_mem _ hc')
        simp only [wakeup]
        split
        · rwa [List.getElem?_set_ne hne]
        · exact hold

/-- The calls that `set_bounds` gives a worker have not been canceled. -/
def served (s : Preemptive) (min max : ℤ) : Bool :=
  min < 0 || max < min ||
    (s.waiters.take (min.toNat - s.threadsCount)).all fun c => s.calls[c]? = some .waiting

theorem Sound.setBounds (h : s.Sound []) {min max : ℤ} (hserved : s.served min max = true) :
    (s.setBounds min max).Sound [] := by
  unfold Preemptive.setBounds
  split
  case isTrue => exact h
  case isFalse hbounds =>
    rw [not_or] at hbounds
    have hnew : Sound { s with
        minThreads := min.toNat
        maxThreads := max.toNat
        lowered := if max.toNat < s.maxThreads then s.threadsCount else s.lowered } [] := by
      refine ⟨h.nodup, h.idle, h.matched, h.count, ?_, h.queued, h.handed, h.busy⟩
      have hbound := h.bound
      simp only
      split <;> omega
    by_cases hless : min.toNat ≤ s.threadsCount
    · rw [Nat.sub_eq_zero_of_le hless]
      exact hnew
    · refine hnew.launch (by simp only; omega) fun c hc => ?_
      simp only [served, hbounds.1, hbounds.2, decide_false, Bool.false_or, List.all_eq_true,
        decide_eq_true_eq] at hserved
      exact hserved c hc

theorem Sound.of_initialized (h : s.Sound []) (b : Bool) :
    Sound { s with initialized := b } [] :=
  ⟨h.nodup, h.idle, h.matched, h.count, h.bound, h.queued, h.handed, h.busy⟩

theorem Sound.init (h : s.Sound []) {min max : ℤ} (hserved : s.served min max = true) :
    (s.init min max).Sound [] :=
  (h.of_initialized true).setBounds hserved

theorem Sound.simpleInit (h : s.Sound []) : s.simpleInit.Sound [] := by
  unfold Preemptive.simpleInit
  split
  · exact h
  · exact h.init (by simp [served])

/-- The call finds a worker, or one that will be put back. -/
def finds (s : Preemptive) : Bool :=
  s.workers ≠ [] || s.threadsCount < s.maxThreads || s.threads.any WorkerThread.stays

theorem stays_iff {threads : List WorkerThread} :
    Stays threads ↔ threads.any WorkerThread.stays = true := by
  unfold Stays
  rw [List.any_eq_true]
  constructor
  · rintro ⟨i, t, hi, ht⟩
    exact ⟨t, List.mem_of_getElem? hi, ht⟩
  · rintro ⟨t, hmem, ht⟩
    obtain ⟨i, hi⟩ := List.mem_iff_getElem?.mp hmem
    exact ⟨i, t, hi, ht⟩

theorem Sound.assign (h : s.Sound [i]) :
    Sound { s with
      calls := s.calls ++ [.running i]
      threads := s.threads.set i (.running s.calls.length) } [] := by
  have hi := (h.idle i).mp List.mem_cons_self
  have hset : s.calls ++ [.running i] =
      (s.calls ++ [Detach.waiting]).set s.calls.length (.running i) := by simp
  refine ⟨(List.nodup_cons.mp h.nodup).2, fun j => ?_, ?_, ?_, h.bound,
    h.queued.append (by simp), h.handed, fun _ => .inr ?_⟩
  · exact idle_set h.nodup h.idle (by simp) j
  · have hmatched : Matched s.threads (s.calls ++ [Detach.waiting]) :=
      h.matched.append_call (by simp)
    have hnew : (s.calls ++ [Detach.waiting])[s.calls.length]? = some .waiting := by simp
    simp only [hset]
    exact hmatched.give hi hnew (by simp)
  · exact h.count.trans (countP_set_thread hi (by simp) (by simp)).symm
  · exact stays_set (List.getElem?_eq_some_iff.mp hi).1 rfl

theorem Sound.detach (h : s.Sound []) (hfinds : s.simpleInit.finds = true) :
    s.detach.Sound [] := by
  have hinit := h.simpleInit
  unfold Preemptive.detach
  generalize s.simpleInit = s at hinit hfinds
  simp only
  split
  case h_1 i workers hworkers =>
    have hextra : Sound { s with workers := workers } [i] := by
      refine ⟨?_, fun j => ?_, hinit.matched, hinit.count, hinit.bound, hinit.queued, .inr ?_,
        fun _ => .inl (by simp)⟩
      · have hnodup := hinit.nodup
        rwa [hworkers] at hnodup
      · have hidle := hinit.idle j
        rwa [hworkers] at hidle
      · exact hinit.handed.resolve_left (by rw [hworkers]; simp)
    exact hextra.assign
  case h_2 hworkers =>
    split
    case isTrue hlt =>
      have hmade := hinit.makeWorker (Nat.lt_of_lt_of_le hlt (Nat.le_max_left _ _)) hinit.handed
      have hassign := hmade.assign
      have hthreads : s.makeWorker.threads.set s.threads.length (.running s.calls.length) =
          s.threads ++ [.running s.calls.length] := by
        simp [Preemptive.makeWorker]
      have hcalls : s.makeWorker.calls = s.calls := rfl
      rw [hcalls, hthreads] at hassign
      exact hassign
    case isFalse hfull =>
      refine ⟨hinit.nodup, hinit.idle, hinit.matched.append_call (by simp), hinit.count,
        hinit.bound, hinit.queued.enqueue (.inl rfl), .inl hworkers, fun _ => .inr ?_⟩
      refine stays_iff.mpr ?_
      simpa [finds, hworkers, hfull] using hfinds

/-- The worker is not the last one to stay, or no call waits. -/
def dispensable (s : Preemptive) (i : ℕ) : Bool :=
  s.threadsCount ≤ s.maxThreads || .waiting ∉ s.calls || (s.threads.set i .joined).any
  WorkerThread.stays

theorem Matched.set_thread {threads : List WorkerThread} {calls : List Detach}
    (h : Matched threads calls) {t t' : WorkerThread} (hi : threads[i]? = some t)
    (ht : ∀ c, (t = .running c ∨ ∃ reuse, t = .finished c reuse) ↔
      (t' = .running c ∨ ∃ reuse, t' = .finished c reuse)) :
    Matched (threads.set i t') calls := by
  intro j d
  rw [h j d]
  by_cases hj : i = j
  · subst hj
    rw [List.getElem?_set_self (List.getElem?_eq_some_iff.mp hi).1, hi]
    simpa using ht d
  · rw [List.getElem?_set_ne hj]

theorem idle_set_of_ne {threads : List WorkerThread} {workers : List ℕ} {t t' : WorkerThread}
    (hidle : ∀ j : ℕ, j ∈ workers ↔ threads[j]? = some WorkerThread.idle)
    (hi : threads[i]? = some t) (ht : t ≠ .idle) (ht' : t' ≠ .idle) (j : ℕ) :
    j ∈ workers ↔ (threads.set i t')[j]? = some WorkerThread.idle := by
  rw [hidle j]
  exact (getElem?_set_iff hi ht ht' j).symm

theorem Sound.finish (h : s.Sound []) (hi : s.threads[i]? = some (.running c))
    (hstays : s.dispensable i = true) : (s.finish i c).Sound [] := by
  have hilt := (List.getElem?_eq_some_iff.mp hi).1
  refine ⟨h.nodup, idle_set_of_ne h.idle hi (by simp) (by simp), ?_, ?_, h.bound,
    h.queued, h.handed,
    fun hwaiting => .inr ?_⟩
  · exact h.matched.set_thread hi (by simp)
  · exact h.count.trans (countP_set_thread hi (by simp) (by simp)).symm
  · have hwaiting' : .waiting ∈ s.calls := hwaiting
    simp only [dispensable, Bool.or_eq_true, decide_eq_true_eq, hwaiting', not_true, or_false]
      at hstays
    rcases hstays with hfits | hother
    · exact stays_set hilt (by simpa [WorkerThread.stays] using hfits)
    · have hothers := (stays_iff.mpr hother).set (List.getElem?_set_self hilt) rfl
        (.finished c (decide ¬s.threadsCount > s.maxThreads))
      rwa [List.set_set] at hothers

theorem Matched.resolve {threads : List WorkerThread} {calls : List Detach}
    (h : Matched threads calls) {reuse : Bool} {t : WorkerThread}
    (hi : threads[i]? = some (.finished c reuse)) (ht : t = .idle ∨ t = .joined) :
    Matched (threads.set i t) (calls.set c .resolved) := by
  have hc := (h i c).mpr (.inr ⟨reuse, hi⟩)
  have hilt := (List.getElem?_eq_some_iff.mp hi).1
  have hclt := (List.getElem?_eq_some_iff.mp hc).1
  have hfree : ∀ d, t ≠ .running d ∧ ∀ r, t ≠ .finished d r := by
    rcases ht with rfl | rfl <;> simp
  intro j d
  have hold := h j d
  by_cases hd : c = d
  · subst hd
    by_cases hj : i = j
    · subst hj
      rw [List.getElem?_set_self hclt, List.getElem?_set_self hilt]
      simp [hfree]
    · rw [hc] at hold
      simp only [Option.some.injEq, Detach.running.injEq, hj, false_iff] at hold
      rw [List.getElem?_set_self hclt, List.getElem?_set_ne hj]
      simpa using hold
  · rw [List.getElem?_set_ne hd, hold]
    by_cases hj : i = j
    · subst hj
      rw [List.getElem?_set_self hilt, hi]
      simp [hfree, hd]
    · rw [List.getElem?_set_ne hj]

theorem Sound.finalize (h : s.Sound []) {reuse : Bool}
    (hi : s.threads[i]? = some (.finished c reuse)) (hcanceled : .canceled ∉ s.calls) :
    (s.finalize i c reuse).Sound [] := by
  have hilt := (List.getElem?_eq_some_iff.mp hi).1
  have hc := (h.matched i c).mpr (.inr ⟨reuse, hi⟩)
  -- the thread was at work, hence not among the workers
  have hnotIdle : i ∉ s.workers := by
    intro hmem
    have hidle := (h.idle i).mp hmem
    rw [hi] at hidle
    cases hidle
  have hqueued : Queued Detach.Linked (· = Detach.waiting) (s.calls.set c .resolved) s.waiters := by
    refine h.queued.set (fun hmem => ?_) (by simp)
    obtain ⟨st, hst, hlinked⟩ := h.queued.linked c hmem
    cases hc.symm.trans hst
    rcases hlinked with hlinked | hlinked <;> cases hlinked
  have hwaiting : .waiting ∈ s.calls.set c .resolved → .waiting ∈ s.calls := fun hmem =>
    (List.mem_or_eq_of_mem_set hmem).resolve_right (by simp)
  unfold Preemptive.finalize
  cases reuse with
  | true =>
    rw [if_pos rfl]
    refine Sound.addWorker ⟨?_, fun j => ?_, h.matched.resolve hi (.inl rfl), ?_,
      h.bound, hqueued,
      h.handed, fun _ => .inl (by simp)⟩ fun d hd => ?_
    · exact List.nodup_cons.mpr ⟨hnotIdle, h.nodup⟩
    · rw [List.mem_append, List.mem_singleton]
      by_cases hj : j = i
      · subst hj
        simp [hilt]
      · rw [List.getElem?_set_ne (Ne.symm hj), ← h.idle j]
        simp [hj]
    · exact h.count.trans (countP_set_thread hi (by simp) (by simp)).symm
    · -- the cancel callbacks have run, so that the first call of the queue waits
      obtain ⟨rest, hrest⟩ := List.head?_eq_some_iff.mp hd
      obtain ⟨st, hst, hlinked⟩ := hqueued.linked d (by rw [hrest]; exact List.mem_cons_self)
      rcases hlinked with rfl | rfl
      · exact hst
      · have hmem := List.mem_of_getElem? hst
        exact absurd ((List.mem_or_eq_of_mem_set hmem).resolve_right (by simp)) hcanceled
  | false =>
    -- a thread that is not used again is joined, and no longer counted
    have hcount : s.threads.countP (· ≠ .joined) =
        (s.threads.set i .joined).countP (· ≠ .joined) + 1 := by
      obtain ⟨hlt, heq⟩ := List.getElem?_eq_some_iff.mp hi
      have hpos : 0 < s.threads.countP (· ≠ .joined) :=
        List.countP_pos_iff.mpr ⟨_, List.getElem_mem hlt, by rw [heq]; rfl⟩
      rw [List.countP_set hlt, heq]
      exact (Nat.sub_add_cancel hpos).symm
    have hbound := h.bound
    rw [if_neg Bool.false_ne_true]
    refine ⟨h.nodup, idle_set_of_ne h.idle hi (by simp) (by simp),
      h.matched.resolve hi (.inr rfl),
      ?_, ?_, hqueued, h.handed, fun hmem => .inr ?_⟩
    · simp only
      rw [h.count, hcount]
      rfl
    · simp only
      omega
    · exact ((h.busy (hwaiting hmem)).resolve_left (by simp)).set hi rfl _

theorem Sound.reject (h : s.Sound []) (c : ℕ) : (s.reject c).Sound [] := by
  unfold Preemptive.reject
  split
  case isTrue hc =>
    refine ⟨h.nodup, h.idle, h.matched.set_call hc (by simp) (by simp), h.count, h.bound,
      h.queued.set (fun _ => .inr rfl) (by simp), h.handed, fun hmem => h.busy ?_⟩
    exact (List.mem_or_eq_of_mem_set hmem).resolve_right (by simp)
  case isFalse => exact h

theorem Sound.cancel (h : s.Sound []) (cs : List ℕ) :
    (cs.foldl Preemptive.reject s).Sound [] := by
  induction cs generalizing s with
  | nil => exact h
  | cons c cs ih => exact ih (h.reject c)

end Preemptive

open Preemptive

/-- The condition on a step: `set_bounds` gives no worker to a canceled call; a call of `detach`
that has to wait finds a worker that will be put back; and a worker that exits is not the last one
that would be put back, unless no call waits. -/
def handsOn (s : Preemptive) : PreemptiveStep → Bool
  | .init min max | .setBounds min max => s.served min max
  | .detach => s.simpleInit.finds
  | .finish i => s.dispensable i
  | _ => true

namespace Preemptive

theorem sound_step {s t : Preemptive} {a : PreemptiveStep} (h : s.Sound [])
    (hok : handsOn s a = true) (hstep : preemptiveStep s a = some t) : t.Sound [] := by
  cases a with
  | init min max =>
    cases hstep
    exact h.init hok
  | setBounds min max =>
    cases hstep
    exact h.setBounds hok
  | detach =>
    cases hstep
    exact h.detach hok
  | cancel cs =>
    cases hstep
    exact h.cancel cs
  | runCancelCallbacks c =>
    simp only [preemptiveStep, Option.ite_none_right_eq_some] at hstep
    obtain ⟨hc, hstep⟩ := hstep
    cases hstep
    refine ⟨h.nodup, h.idle, h.matched.set_call hc (by simp) (by simp), h.count, h.bound,
      h.queued.remove (by simp), h.handed.imp id
      fun hnil => by simp [hnil], fun hmem => h.busy ?_⟩
    exact (List.mem_or_eq_of_mem_set hmem).resolve_right (by simp)
  | finish i =>
    simp only [preemptiveStep] at hstep
    split at hstep
    case h_1 c hi =>
      cases hstep
      exact h.finish hi hok
    case h_2 => cases hstep
  | notification i =>
    simp only [preemptiveStep] at hstep
    split at hstep
    case h_1 c reuse hi =>
      split at hstep
      case isTrue => cases hstep
      case isFalse hcanceled =>
        cases hstep
        exact h.finalize hi hcanceled
    case h_2 => cases hstep

/-- A worker that is put back goes to the first call that waits. -/
theorem Sound.handed_on (h : s.Sound []) (hwaiting : .waiting ∈ s.calls)
    (hi : s.threads[i]? = some (.finished c true))
    (hstep : preemptiveStep s (.notification i) = some t) :
    ∃ d : ℕ, s.calls[d]? = some Detach.waiting ∧ t.calls[d]? = some (.running i) := by
  simp only [preemptiveStep, hi] at hstep
  split at hstep
  case isTrue => cases hstep
  case isFalse hcanceled =>
    cases hstep
    have hc := (h.matched i c).mpr (.inr ⟨true, hi⟩)
    obtain ⟨k, hk⟩ := List.mem_iff_getElem?.mp hwaiting
    have hmem := h.queued.waits k _ hk rfl
    cases hwaiters : s.waiters with
    | nil =>
      rw [hwaiters] at hmem
      cases hmem
    | cons d waiters =>
      obtain ⟨st, hst, hlinked⟩ := h.queued.linked d
        (by rw [hwaiters]; exact List.mem_cons_self)
      have hd : s.calls[d]? = some Detach.waiting := by
        rcases hlinked with rfl | rfl
        · exact hst
        · exact absurd (List.mem_of_getElem? hst) hcanceled
      have hne : c ≠ d := by
        rintro rfl
        rw [hc] at hd
        cases hd
      have hset : (s.calls.set c .resolved)[d]? = some Detach.waiting := by
        rwa [List.getElem?_set_ne hne]
      refine ⟨d, hd, ?_⟩
      simp only [Preemptive.finalize, if_true, Preemptive.addWorker, hwaiters, wakeup, hset]
      exact List.getElem?_set_self (List.getElem?_eq_some_iff.mp hset).1

end Preemptive

/-- In every run whose steps meet the condition: the idle workers are those in the queue, a worker
that has a task or has finished one has the call that has it, and `threadsCount` is the number of
workers that are not joined; it is at most `maxThreads`, or what it was when that was lowered; and
while a call waits, no worker is idle and one will be put back, which then goes to a call that
waits. -/
theorem waiting_calls_get_a_worker {s : Preemptive}
    (hreach : Reach preemptiveStep (fun s a => handsOn s a = true) start s) :
    (s.workers.Nodup ∧ ∀ i : ℕ, i ∈ s.workers ↔ s.threads[i]? = some WorkerThread.idle) ∧
      (∀ i c : ℕ, s.calls[c]? = some (Detach.running i) ↔
        s.threads[i]? = some (WorkerThread.running c) ∨
          ∃ reuse, s.threads[i]? = some (WorkerThread.finished c reuse)) ∧
      s.threadsCount = s.threads.countP (· ≠ .joined) ∧
      s.threadsCount ≤ max s.maxThreads s.lowered ∧
      (.waiting ∈ s.calls → s.workers = [] ∧ ∃ (i : ℕ) (t : WorkerThread),
        s.threads[i]? = some t ∧ t.stays = true) ∧
      ∀ (i c : ℕ) (t : Preemptive), .waiting ∈ s.calls →
        s.threads[i]? = some (WorkerThread.finished c true) →
          preemptiveStep s (.notification i) = some t →
            ∃ d : ℕ, s.calls[d]? = some Detach.waiting ∧ t.calls[d]? = some (.running i) := by
  have h : s.Sound [] := hreach.invariant sound_start fun s a t hs hok hstep =>
    sound_step hs hok hstep
  refine ⟨⟨h.nodup, h.idle⟩, h.matched, h.count, h.bound, fun hwaiting => ⟨?_, ?_⟩,
    fun i c t hwaiting hi hstep => h.handed_on hwaiting hi hstep⟩
  · refine h.handed.resolve_right fun hnil => ?_
    obtain ⟨c, hc⟩ := List.mem_iff_getElem?.mp hwaiting
    have hmem := h.queued.waits c _ hc rfl
    rw [hnil] at hmem
    cases hmem
  · exact (h.busy hwaiting).resolve_left (by simp)

/-- Two workers, a third call waits; after the maximum is lowered one worker exits and the other one
gets the call. -/
theorem waiting_calls_get_a_worker_that_stays :
    ∃ s : Preemptive, replay (checked preemptiveStep handsOn) start
        [.init 0 2, .detach, .detach, .detach, .setBounds 0 1, .finish 0, .notification 0,
          .finish 1] = some s ∧
      s.calls = [.resolved, .running 1, .waiting] ∧ s.threads = [.joined, .finished 1 true] ∧
      s.workers = [] ∧ ∃ (i : ℕ) (t : WorkerThread), s.threads[i]? = some t ∧ t.stays = true := by
  let s : Preemptive := ⟨true, 0, 1, 1, [], [2], [.joined, .finished 1 true],
    [.resolved, .running 1, .waiting], 2⟩
  have hs : replay (checked preemptiveStep handsOn) start
      [.init 0 2, .detach, .detach, .detach, .setBounds 0 1, .finish 0, .notification 0,
        .finish 1] = some s := by decide +kernel
  obtain ⟨-, -, -, -, hbusy, -⟩ := waiting_calls_get_a_worker (reach_of_checked _ hs)
  exact ⟨s, hs, rfl, rfl, hbusy (by simp [s])⟩

/-- When both finish before the main thread receives a notification, both exit, and nobody is left
for the call that waits. -/
theorem all_workers_exit :
    ∃ s : Preemptive, Reach preemptiveStep (fun _ _ => True) start s ∧
      .waiting ∈ s.calls ∧ s.threads = [.joined, .joined] ∧ s.workers = [] ∧ s.maxThreads = 1 := by
  let s : Preemptive := ⟨true, 0, 1, 0, [], [2], [.joined, .joined],
    [.resolved, .resolved, .waiting], 2⟩
  have hs : replay preemptiveStep start
      [.init 0 2, .detach, .detach, .detach, .setBounds 0 1, .finish 0, .finish 1,
        .notification 0, .notification 1] = some s := by decide +kernel
  exact ⟨s, reach_of_replay _ hs, by simp [s], rfl, rfl, rfl⟩

end Lwt.Unix
