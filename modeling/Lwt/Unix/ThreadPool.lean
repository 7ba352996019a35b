import Mathlib.Data.Int.Notation
import Lwt.Library.Circular
import Lwt.Library.Transition

/-!
# The thread pool

`lwt_unix_start_job` gives a job to a worker that waits for one, through a queue, or starts a new
worker for it.  A step is a section that is protected by `pool_mutex`, or one outside of it: the
test for the synchronous fallback, and the end of a job.  `pool_queue` points to the last job of a
circular list.

A worker counts itself in `thread_waiting_count` each time it starts to wait, and the submitter
takes it out of the count when it signals the condition.  A worker that wakes up without a signal,
which POSIX allows, is thus counted although it waits no longer.
-/

namespace Lwt.Unix

open Transition

/-- Where a worker stands in `worker_loop`. -/
inductive Worker
  | running (job : ℕ)
  /-- the job is done, the mutex is yet to be locked -/
  | entering
  | blocked
  /-- taken from the condition by a signal, the mutex is yet to be locked again -/
  | signaled
  deriving DecidableEq

/-- The static variables of `lwt_unix_stubs.c`, and the threads.  Jobs are numbered; `starting` is
the one of a `lwt_unix_start_job` that has not locked the mutex yet.  The last three fields are not
part of the program: the jobs that entered the queue, those that left it, and the calls of
`execute_job`. -/
structure ThreadPool where
  threadWaitingCount : ℕ
  threadCount : ℕ
  poolSize : ℤ
  poolQueue : Circular ℕ
  threadingInitialized : Bool
  workers : List Worker
  jobs : ℕ
  starting : Option ℕ
  entered : List ℕ
  taken : List ℕ
  executed : List ℕ

namespace ThreadPool

def init : ThreadPool := ⟨0, 0, 1000, ⟨none, fun _ => 0⟩, false, [], 0, none, [], [], []⟩

def setWorker (s : ThreadPool) (i : ℕ) (w : Worker) : ThreadPool :=
  { s with workers := s.workers.set i w }

/-- The beginning of `lwt_unix_start_job`, for an asynchronous method. -/
def startJob (s : ThreadPool) : ThreadPool :=
  if s.threadWaitingCount = 0 ∧ (s.threadCount : ℤ) ≥ s.poolSize then
    -- the job is executed synchronously
    { s with jobs := s.jobs + 1 }
  else { s with jobs := s.jobs + 1, starting := some s.jobs, threadingInitialized := true }

/-- `lwt_unix_condition_signal`, which unblocks the worker `i`. -/
def conditionSignal (s : ThreadPool) (i : ℕ) : Option ThreadPool :=
  if s.workers[i]? = some .blocked then some (s.setWorker i .signaled)
  else if Worker.blocked ∈ s.workers then none
  else some s

/-- The section of `lwt_unix_start_job`; `launched` tells whether a thread can be started. -/
def submit (s : ThreadPool) (job : ℕ) (launched : Bool) (i : ℕ) : Option ThreadPool :=
  let s := { s with starting := none }
  if s.threadWaitingCount = 0 then
    if launched then some { s with
      workers := s.workers ++ [.running job]
      threadCount := s.threadCount + 1
      executed := s.executed ++ [job] }
    else some s
  else { s with
    poolQueue := s.poolQueue.push job
    entered := s.entered ++ [job]
    threadWaitingCount := s.threadWaitingCount - 1 }.conditionSignal i

/-- A turn of `worker_loop`, from the test of the queue to the next wait or to `execute_job`. -/
def turn (s : ThreadPool) (i : ℕ) : ThreadPool :=
  match s.poolQueue.pop with
  | none => { s with threadWaitingCount := s.threadWaitingCount + 1 }.setWorker i .blocked
  | some (job, queue) => { s with
      poolQueue := queue
      taken := s.taken ++ [job]
      executed := s.executed ++ [job] }.setWorker i (.running job)

/-- The child of a fork has no worker; `lwt_unix_reset_after_fork`. -/
def resetAfterFork (s : ThreadPool) : ThreadPool :=
  let s := { s with workers := [], entered := [], taken := [], executed := [] }
  if s.threadingInitialized then { s with
    threadWaitingCount := 0
    threadCount := 0
    poolQueue := ⟨none, s.poolQueue.next⟩
    threadingInitialized := false }
  else s

end ThreadPool

inductive PoolStep
  | startJob
  | submit (launched : Bool) (i : ℕ)
  | setPoolSize (size : ℤ)
  /-- the worker `i` has executed its job -/
  | done (i : ℕ)
  | enter (i : ℕ)
  /-- a worker that was signaled, or not, gets the mutex back -/
  | wake (i : ℕ)
  | wakeSpuriously (i : ℕ)
  | fork

def poolStep (s : ThreadPool) : PoolStep → Option ThreadPool
  | .startJob => if s.starting = none then some s.startJob else none
  | .submit launched i => s.starting.bind fun job => s.submit job launched i
  | .setPoolSize size => some { s with poolSize := size }
  | .done i =>
    match s.workers[i]? with
    | some (.running _) => some (s.setWorker i .entering)
    | _ => none
  | .enter i => if s.workers[i]? = some .entering then some (s.turn i) else none
  | .wake i => if s.workers[i]? = some .signaled then some (s.turn i) else none
  | .wakeSpuriously i => if s.workers[i]? = some .blocked then some (s.turn i) else none
  | .fork => if s.starting = none then some s.resetAfterFork else none

namespace ThreadPool

variable {s t : ThreadPool} {i : ℕ} {w v : Worker}

/-- `thread_waiting_count` is the number of workers that wait. -/
def Counted (s : ThreadPool) : Prop := s.threadWaitingCount = s.workers.count .blocked

/-- There are not more jobs in the queue than workers on their way to it. -/
def Served (s : ThreadPool) (queue : List ℕ) : Prop := queue.length ≤ s.workers.count .signaled

/-- `queue` are the jobs that have entered the queue and not left it, in this order.  Those that
have left it have been executed once, the others not. -/
structure Queues (s : ThreadPool) (queue : List ℕ) : Prop where
  holds : s.poolQueue.Holds queue
  order : s.entered = s.taken ++ queue
  nodup : s.entered.Nodup
  once : ∀ job ∈ s.taken, s.executed.count job = 1
  later : ∀ job ∈ queue, s.executed.count job = 0

/-- Jobs are started once. -/
structure Numbered (s : ThreadPool) : Prop where
  entered : ∀ job ∈ s.entered, job < s.jobs
  executed : ∀ job ∈ s.executed, job < s.jobs
  starting : ∀ job ∈ s.starting, job < s.jobs ∧ job ∉ s.entered ∧ job ∉ s.executed

/-! ## Counting workers -/

theorem count_setWorker (hi : s.workers[i]? = some w) (v x : Worker) :
    (s.setWorker i v).workers.count x + (if w = x then 1 else 0) =
      s.workers.count x + (if v = x then 1 else 0) := by
  obtain ⟨hlt, hget⟩ := List.getElem?_eq_some_iff.mp hi
  have hpos : w = x → 0 < s.workers.count x := by
    rintro rfl
    exact List.count_pos_iff.mpr (List.mem_of_getElem? hi)
  simp only [setWorker, List.count_set hlt, hget, beq_iff_eq]
  split
  case isTrue hw =>
    have hcount := hpos hw
    omega
  case isFalse => omega

/-! ## The queue -/

theorem Queues.turn {job : ℕ} {queue : List ℕ} (h : Queues s (job :: queue)) (i : ℕ) :
    ∃ q, s.turn i = { s with
        poolQueue := q
        taken := s.taken ++ [job]
        executed := s.executed ++ [job] }.setWorker i (.running job) ∧ Queues (s.turn i) queue := by
  obtain ⟨q, hpop, hq⟩ := h.holds.pop
  have hturn : s.turn i = { s with
      poolQueue := q
      taken := s.taken ++ [job]
      executed := s.executed ++ [job] }.setWorker i (.running job) := by
    simp [ThreadPool.turn, hpop]
  refine ⟨q, hturn, ?_⟩
  have hnodup : (s.taken ++ job :: queue).Nodup := h.order ▸ h.nodup
  have hnew : job ∉ s.taken := fun hmem =>
    (List.nodup_append.mp hnodup).2.2 job hmem job List.mem_cons_self rfl
  have hrest : job ∉ queue := (List.nodup_cons.mp (List.nodup_append.mp hnodup).2.1).1
  rw [hturn]
  refine ⟨hq, by simp [setWorker, h.order], h.nodup, ?_, ?_⟩
  · intro k hk
    simp only [setWorker, List.count_append, List.count_singleton, beq_iff_eq]
    rcases List.mem_append.mp hk with hk | hk
    · have hne : ¬ job = k := by
        rintro rfl
        exact hnew hk
      simp [h.once k hk, hne]
    · obtain rfl : k = job := by simpa using hk
      simp [h.later k List.mem_cons_self]
  · intro k hk
    have hne : ¬ job = k := by
      rintro rfl
      exact hrest hk
    simp [setWorker, List.count_append, h.later k (List.mem_cons_of_mem job hk), hne]

theorem turn_of_empty (h : Queues s []) (i : ℕ) :
    s.turn i = { s with threadWaitingCount := s.threadWaitingCount + 1 }.setWorker i .blocked := by
  have hlast : s.poolQueue.last = none := h.holds.eq_nil_iff.mpr rfl
  simp [ThreadPool.turn, Circular.pop, hlast]

theorem Queues.push {queue : List ℕ} {job : ℕ} (h : Queues s queue) (hjob : job ∉ s.entered)
    (hnew : job ∉ s.executed) :
    Queues { s with poolQueue := s.poolQueue.push job, entered := s.entered ++ [job] }
      (queue ++ [job]) := by
  have hqueue : job ∉ queue := fun hmem => hjob (by simp [h.order, hmem])
  refine ⟨h.holds.push hqueue, by simp [h.order],
    List.nodup_append_comm.mp (List.nodup_cons.mpr ⟨hjob, h.nodup⟩), h.once, ?_⟩
  intro k hk
  rcases List.mem_append.mp hk with hk | hk
  · exact h.later k hk
  · obtain rfl : k = job := by simpa using hk
    exact List.count_eq_zero.mpr hnew

theorem Queues.congr {queue : List ℕ} (h : Queues s queue) (hq : t.poolQueue = s.poolQueue)
    (he : t.entered = s.entered) (ht : t.taken = s.taken) (hx : t.executed = s.executed) :
    Queues t queue := by
  refine ⟨hq ▸ h.holds, ?_, he ▸ h.nodup, ?_, ?_⟩
  · rw [he, ht, h.order]
  · rw [ht, hx]
    exact h.once
  · rw [hx]
    exact h.later

/-! ## Steps -/

structure Sound (s : ThreadPool) (queue : List ℕ) : Prop where
  numbered : Numbered s
  queues : Queues s queue
  counted : Counted s
  served : Served s queue
  uninitialized : s.threadingInitialized = false → s.workers = [] ∧ s.starting = none

theorem sound_init : Sound init [] where
  numbered := ⟨by simp [init], by simp [init], by simp [init]⟩
  queues := ⟨Circular.holds_nil _, rfl, .nil, by simp [init], by simp⟩
  counted := rfl
  served := Nat.le_refl 0
  uninitialized := fun _ => ⟨rfl, rfl⟩

theorem Sound.startJob {queue : List ℕ} (h : Sound s queue) : Sound s.startJob queue := by
  have hentered : ∀ job ∈ s.entered, job < s.jobs + 1 := fun job hjob =>
    Nat.lt_succ_of_lt (h.numbered.entered job hjob)
  have hexecuted : ∀ job ∈ s.executed, job < s.jobs + 1 := fun job hjob =>
    Nat.lt_succ_of_lt (h.numbered.executed job hjob)
  unfold ThreadPool.startJob
  split
  · refine ⟨⟨hentered, hexecuted, ?_⟩, h.queues.congr rfl rfl rfl rfl, h.counted, h.served,
      h.uninitialized⟩
    intro job hjob
    obtain ⟨hlt, hnew⟩ := h.numbered.starting job hjob
    exact ⟨Nat.lt_succ_of_lt hlt, hnew⟩
  · refine ⟨⟨hentered, hexecuted, ?_⟩, h.queues.congr rfl rfl rfl rfl, h.counted, h.served, by simp⟩
    intro job hjob
    obtain rfl : s.jobs = job := by simpa using hjob
    exact ⟨Nat.lt_succ_self _, fun hmem => Nat.lt_irrefl _ (h.numbered.entered _ hmem),
      fun hmem => Nat.lt_irrefl _ (h.numbered.executed _ hmem)⟩

/-- The signal reaches a worker, if one is blocked. -/
theorem conditionSignal_cases (hsignal : s.conditionSignal i = some t)
    (hblocked : 0 < s.workers.count .blocked) :
    s.workers[i]? = some .blocked ∧ t = s.setWorker i .signaled := by
  unfold conditionSignal at hsignal
  split at hsignal
  case isTrue hi => exact ⟨hi, (Option.some.inj hsignal).symm⟩
  case isFalse => simp [List.count_pos_iff.mp hblocked] at hsignal

theorem Sound.submit {queue : List ℕ} {job : ℕ} {launched : Bool} (h : Sound s queue)
    (hjob : s.starting = some job) (hstep : s.submit job launched i = some t) :
    ∃ queue', Sound t queue' := by
  obtain ⟨hlt, hentered, hexecuted⟩ := h.numbered.starting job hjob
  have hcount := h.counted
  have hinit : s.threadingInitialized = true := by
    by_contra hfalse
    rw [(h.uninitialized (eq_false_of_ne_true hfalse)).2] at hjob
    cases hjob
  unfold ThreadPool.submit at hstep
  simp only at hstep
  split at hstep
  case isTrue hzero =>
    split at hstep
    case isTrue =>
      -- a new worker executes the job
      cases hstep
      refine ⟨queue, ⟨h.numbered.entered, ?_, by simp⟩,
        ⟨h.queues.holds, h.queues.order, h.queues.nodup, ?_, ?_⟩, ?_, ?_, by simp [hinit]⟩
      · intro k hk
        rcases List.mem_append.mp hk with hk | hk
        · exact h.numbered.executed k hk
        · obtain rfl : k = job := by simpa using hk
          exact hlt
      · intro k hk
        have hne : ¬ job = k := by
          rintro rfl
          exact hentered (by simp [h.queues.order, hk])
        simp [List.count_append, h.queues.once k hk, hne]
      · intro k hk
        have hne : ¬ job = k := by
          rintro rfl
          exact hentered (by simp [h.queues.order, hk])
        simp [List.count_append, h.queues.later k hk, hne]
      · simpa [Counted, List.count_append] using hcount
      · simpa [Served, List.count_append] using h.served
    case isFalse =>
      cases hstep
      exact ⟨queue, ⟨h.numbered.entered, h.numbered.executed, by simp⟩,
        h.queues.congr rfl rfl rfl rfl, hcount, h.served, by simp [hinit]⟩
  case isFalse hpos =>
    -- the count tells that a worker is blocked, and the signal wakes one up
    have hblocked : 0 < s.workers.count .blocked := by
      rw [← hcount]
      exact Nat.pos_of_ne_zero hpos
    obtain ⟨hi, rfl⟩ := conditionSignal_cases hstep hblocked
    have hserved := h.served
    have hb := count_setWorker (s := s) hi .signaled .blocked
    have hs := count_setWorker (s := s) hi .signaled .signaled
    refine ⟨queue ++ [job], ⟨?_, h.numbered.executed, by simp [setWorker]⟩,
      (h.queues.push hentered hexecuted).congr rfl rfl rfl rfl, ?_,
      ?_, by simp [setWorker, hinit]⟩
    · intro k hk
      rcases List.mem_append.mp hk with hk | hk
      · exact h.numbered.entered k hk
      · obtain rfl : k = job := by simpa using hk
        exact hlt
    · simp only [Counted, setWorker] at hcount hb ⊢
      simp at hb
      omega
    · simp only [Served, setWorker, List.length_append, List.length_singleton] at hserved hs ⊢
      simp at hs
      omega

theorem Sound.initialized {queue : List ℕ} (h : Sound s queue) (hi : s.workers[i]? = some w) :
    s.threadingInitialized = true := by
  by_contra hfalse
  rw [(h.uninitialized (eq_false_of_ne_true hfalse)).1] at hi
  cases hi

theorem Sound.turn {queue : List ℕ} (h : Sound s queue) (hi : s.workers[i]? = some w)
    (hw : w = .entering ∨ w = .signaled) : ∃ queue', Sound (s.turn i) queue' := by
  have hcount := h.counted
  have hserved := h.served
  have hinit : s.threadingInitialized = true := h.initialized hi
  cases queue with
  | nil =>
    have hb := count_setWorker hi .blocked .blocked
    rw [turn_of_empty h.queues]
    refine ⟨[], ⟨h.numbered.entered, h.numbered.executed, h.numbered.starting⟩,
      h.queues.congr rfl rfl rfl rfl, ?_, Nat.zero_le _, by simp [setWorker, hinit]⟩
    simp only [Counted, setWorker] at hcount hb ⊢
    rcases hw with rfl | rfl <;> simp at hb <;> omega
  | cons job queue =>
    obtain ⟨q, hturn, hqueues⟩ := h.queues.turn i
    have hb := count_setWorker hi (.running job) .blocked
    have hs := count_setWorker hi (.running job) .signaled
    rw [hturn] at hqueues ⊢
    have hentered : job ∈ s.entered := by simp [h.queues.order]
    refine ⟨queue, ⟨h.numbered.entered, ?_, ?_⟩, hqueues, ?_, ?_, by simp [setWorker, hinit]⟩
    · intro k hk
      rcases List.mem_append.mp hk with hk | hk
      · exact h.numbered.executed k hk
      · obtain rfl : k = job := by simpa using hk
        exact h.numbered.entered k hentered
    · intro k hk
      obtain ⟨hlt, hne, hnx⟩ := h.numbered.starting k hk
      refine ⟨hlt, hne, fun hmem => ?_⟩
      rcases List.mem_append.mp hmem with hmem | hmem
      · exact hnx hmem
      · obtain rfl : k = job := by simpa using hmem
        exact hne hentered
    · simp only [Counted, setWorker] at hcount hb ⊢
      rcases hw with rfl | rfl <;> simp at hb <;> omega
    · simp only [Served, setWorker, List.length_cons] at hserved hs ⊢
      rcases hw with rfl | rfl <;> simp at hs <;> omega

theorem Sound.resetAfterFork {queue : List ℕ} (h : Sound s queue) (hstarting : s.starting = none) :
    Sound s.resetAfterFork [] := by
  unfold ThreadPool.resetAfterFork
  simp only
  split
  case isTrue =>
    exact ⟨⟨by simp, by simp, by simp [hstarting]⟩,
      ⟨Circular.holds_nil _, rfl, .nil, by simp, by simp⟩, rfl, Nat.zero_le _,
      fun _ => ⟨rfl, hstarting⟩⟩
  case isFalse hinit =>
    have hnone := (h.uninitialized (eq_false_of_ne_true hinit)).1
    have hcount : s.threadWaitingCount = 0 := by
      have hcounted := h.counted
      rw [Counted, hnone] at hcounted
      exact hcounted
    obtain rfl : queue = [] := by
      have hserved := h.served
      rw [Served, hnone] at hserved
      exact List.eq_nil_of_length_eq_zero (Nat.le_zero.mp hserved)
    exact ⟨⟨by simp, by simp, by simp [hstarting]⟩,
      ⟨h.queues.holds, rfl, .nil, by simp, by simp⟩, hcount, Nat.zero_le _,
      fun _ => ⟨rfl, hstarting⟩⟩

/-- No worker wakes up without a signal. -/
def regular : PoolStep → Bool
  | .wakeSpuriously _ => false
  | _ => true

theorem sound_step {queue : List ℕ} {a : PoolStep} (h : Sound s queue) (ha : regular a = true)
    (hstep : poolStep s a = some t) : ∃ queue', Sound t queue' := by
  cases a with
  | startJob =>
    obtain ⟨-, rfl⟩ : s.starting = none ∧ s.startJob = t := by simpa [poolStep] using hstep
    exact ⟨queue, h.startJob⟩
  | submit launched i =>
    obtain ⟨job, hjob, hsubmit⟩ := Option.bind_eq_some_iff.mp hstep
    exact h.submit hjob hsubmit
  | setPoolSize size =>
    cases hstep
    exact ⟨queue, ⟨h.numbered.entered, h.numbered.executed, h.numbered.starting⟩,
      h.queues.congr rfl rfl rfl rfl, h.counted, h.served, h.uninitialized⟩
  | done i =>
    simp only [poolStep] at hstep
    split at hstep
    case h_1 job hi =>
      cases hstep
      have hb := count_setWorker hi .entering .blocked
      have hs := count_setWorker hi .entering .signaled
      have hcount := h.counted
      have hserved := h.served
      refine ⟨queue, ⟨h.numbered.entered, h.numbered.executed, h.numbered.starting⟩,
        h.queues.congr rfl rfl rfl rfl, ?_, ?_, by simp [setWorker, h.initialized hi]⟩
      · simp only [Counted] at hcount ⊢
        simp at hb
        rw [hb]
        exact hcount
      · simp only [Served] at hserved ⊢
        simp at hs
        omega
    case h_2 => cases hstep
  | enter i =>
    obtain ⟨hi, rfl⟩ : s.workers[i]? = some .entering ∧ s.turn i = t := by
      simpa [poolStep] using hstep
    exact h.turn hi (Or.inl rfl)
  | wake i =>
    obtain ⟨hi, rfl⟩ : s.workers[i]? = some .signaled ∧ s.turn i = t := by
      simpa [poolStep] using hstep
    exact h.turn hi (Or.inr rfl)
  | wakeSpuriously i => cases ha
  | fork =>
    obtain ⟨hstarting, rfl⟩ : s.starting = none ∧ s.resetAfterFork = t := by
      simpa [poolStep] using hstep
    exact ⟨[], h.resetAfterFork hstarting⟩

end ThreadPool

open ThreadPool

/-- In every run in which no worker wakes up without a signal: `thread_waiting_count` is the number
of the workers that are blocked and not signaled, and at most as many jobs are queued as there are
signaled workers that have not looked at the queue yet.  The jobs leave the queue in the order in
which they entered it, and one that has left it has been executed once. -/
theorem queued_jobs_are_served {s : ThreadPool}
    (hreach : Reach poolStep (fun _ a => regular a = true) init s) :
    Counted s ∧ ∃ queue, Served s queue ∧ Queues s queue := by
  obtain ⟨queue, h⟩ : ∃ queue, ThreadPool.Sound s queue :=
    hreach.invariant (P := fun s => ∃ queue, ThreadPool.Sound s queue) ⟨[], ThreadPool.sound_init⟩
    fun s a t hs ha hstep => by
      obtain ⟨queue, h⟩ := hs
      exact ThreadPool.sound_step h ha hstep
  exact ⟨h.counted, queue, h.served, h.queues⟩

/-- A job is queued for a worker that waits; another worker has been started meanwhile, and takes
it. -/
theorem queued_jobs_are_served_by_another :
    ∃ s, Reach poolStep (fun _ a => regular a = true) init s ∧
      s.workers = [.signaled, .running 2] ∧ s.executed = [0, 1, 2] ∧ Counted s := by
  obtain ⟨s, hs⟩ : ∃ s, replay (checked poolStep fun _ a => regular a) init
      [.startJob, .submit true 0, .startJob, .submit true 0, .done 0, .enter 0, .startJob,
        .submit true 0, .done 1, .enter 1] = some s := ⟨_, rfl⟩
  have hreach := reach_of_checked _ hs
  obtain ⟨hworkers, hexecuted⟩ : s.workers = [.signaled, .running 2] ∧ s.executed = [0, 1, 2] := by
    cases hs.symm.trans rfl
    exact ⟨rfl, rfl⟩
  exact ⟨s, hreach, hworkers, hexecuted, (queued_jobs_are_served hreach).1⟩

/-- A worker wakes up without a signal and waits again; then two jobs are queued for it. -/
theorem spurious_wakeup_is_counted :
    ¬ ∀ s, Reach poolStep (fun _ _ => True) init s →
      Counted s ∧ ∃ queue, Served s queue ∧ Queues s queue := by
  intro hall
  obtain ⟨s, hs⟩ : ∃ s, replay poolStep init
      [.startJob, .submit true 0, .done 0, .enter 0, .wakeSpuriously 0, .startJob, .submit true 0,
        .startJob, .submit true 0] = some s := ⟨_, rfl⟩
  obtain ⟨-, queue, hserved, hqueues⟩ := hall s (reach_of_replay _ hs)
  obtain ⟨hworkers, hentered, htaken⟩ :
      s.workers = [.signaled] ∧ s.entered = [1, 2] ∧ s.taken = [] := by
    cases hs.symm.trans rfl
    exact ⟨rfl, rfl, rfl⟩
  have hqueue : queue = [1, 2] := by
    have horder := hqueues.order
    rw [hentered, htaken] at horder
    exact horder.symm
  rw [Served, hqueue, hworkers] at hserved
  simp at hserved

end Lwt.Unix
