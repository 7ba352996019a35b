import Mathlib.Data.List.Nodup
import Lwt.Library.Transition

/-!
# Jobs

`run_job_aux` starts a job, waits for one pause, and then for a notification.  A job is done by a
thread of the pool, or at once by the main thread.  The thread marks it as done and looks at `fast`
with the mutex of the job locked, and `lwt_unix_check_job` clears `fast` and looks at the mark with
the mutex locked as well; only `lwt_unix_start_job` looks at the mark without it, and locks it
before it reports the job.

A step is a section of one of the threads that is protected by the mutex of the job, or what the
main thread does between two of them.  The main thread may leave a job in any place for another
one, which allows more orders than the source.  The pool is not modelled (`ThreadPool`), nor is the
way of a notification to the buffer (`Notifications`).

`handle_notifications` takes all that have been sent and calls their handlers in turn.  When a
handler or a callback that it has run raises an exception, the rest is forgotten, and a job whose
notification is there is never reported (`job_is_lost`).  Otherwise each job is reported once
(`job_is_run_once`).
-/

namespace Lwt.Unix

open Transition

inductive AsyncMethod
  | none
  | detach
  | switch

inductive JobState
  | pending
  | running
  | done
  deriving DecidableEq

/-- Where the thread that executes a job stands in `execute_job`. -/
inductive JobThread
  | queued
  | working
  /-- the job is marked as done, its mutex is held -/
  | marking
  /-- the mutex is released, a notification is about to be sent -/
  | notifying
  | left
  deriving DecidableEq

/-- Where the main thread stands in `run_job_aux`. -/
inductive Caller
  /-- in `lwt_unix_start_job`, with the job in the pool -/
  | starting
  /-- the job has been seen to be done, its mutex is about to be locked -/
  | joining
  /-- in the pause; the number is the id of the notification -/
  | paused (id : ℕ)
  /-- `check_job` has returned `false` -/
  | waiting (id : ℕ)
  /-- the result function has been run -/
  | reported
  deriving DecidableEq

/-- What makes the main thread run the result function. -/
inductive Via
  | startJob
  | checkJob
  | notification

variable {α ε : Type}

/-- What the promise of a job is resolved with. -/
inductive Resolution (α ε : Type)
  | result (v : Option α)
  | aborted (exn : ε)

inductive JobEvent (α ε : Type)
  | ran (via : Via)
  | resolved (r : Resolution α ε)

/-- A job with its threads, the value that its worker function has left, and the promise `waiter`.
`log` is not part of the program. -/
structure Job (α ε : Type) where
  asyncMethod : AsyncMethod
  state : JobState
  fast : Bool
  notificationId : Option ℕ
  thread : JobThread
  caller : Caller
  value : Option α
  waiter : Option (Resolution α ε)
  log : List (JobEvent α ε)

/-- A notifier; one without an owner is not that of a job. -/
structure Notifier where
  id : ℕ
  once : Bool
  owner : Option ℕ

/-- The jobs that have been started, numbered; the sequence `jobs`; the notifiers; the ids of the
notifiers without an owner; the notifications that have been sent; and what the iterations of
`handle_notifications` that are under way have still to call, the innermost first. -/
structure Jobs (α ε : Type) where
  table : List (Job α ε)
  jobs : List ℕ
  notifiers : List Notifier
  currentNotificationId : ℕ
  others : List ℕ
  sent : List ℕ
  batches : List (List ℕ)

namespace Job

/-- The result function returns, and the promise is resolved if it is pending. -/
def report (job : Job α ε) (via : Via) : Job α ε :=
  match job.waiter with
  | none => { job with
      caller := .reported
      waiter := some (.result job.value)
      log := job.log ++ [.ran via, .resolved (.result job.value)] }
  | some _ => { job with caller := .reported, log := job.log ++ [.ran via] }

/-- The result function is run, and it may raise an exception. -/
def run (job : Job α ε) (via : Via) : Bool → Job α ε
  | true => { job with caller := .reported, log := job.log ++ [.ran via] }
  | false => job.report via

/-- The function of the job in `jobs`. -/
def abort (job : Job α ε) (exn : ε) : Job α ε :=
  match job.waiter with
  | none => { job with
      waiter := some (.aborted exn)
      log := job.log ++ [.resolved (.aborted exn)] }
  | some _ => job

end Job

namespace Jobs

def init : Jobs α ε := ⟨[], [], [], 0x7FFFFFFF - 1000, [], [], []⟩

def setJob (s : Jobs α ε) (j : ℕ) (job : Job α ε) : Jobs α ε :=
  { s with table := s.table.set j job }

/-! ## Notifiers -/

/-- The fuel is the number of notifiers. -/
def findFreeId (notifiers : List Notifier) : ℕ → ℕ → ℕ
  | 0, id => id
  | fuel + 1, id =>
    if notifiers.any (·.id = id) then findFreeId notifiers fuel (id + 1) else id

def freeId (s : Jobs α ε) : ℕ :=
  findFreeId s.notifiers s.notifiers.length (s.currentNotificationId + 1)

/-- `make_notification`, with the id `s.freeId`. -/
def makeNotification (s : Jobs α ε) (once : Bool) (owner : Option ℕ) : Jobs α ε :=
  { s with
    currentNotificationId := s.freeId
    notifiers := ⟨s.freeId, once, owner⟩ :: s.notifiers }

def stopNotification (s : Jobs α ε) (id : ℕ) : Jobs α ε :=
  { s with notifiers := s.notifiers.eraseP (·.id = id) }

/-- The handler of the notifier of a job. -/
def handler (s : Jobs α ε) (j : ℕ) (via : Via) (raises : Bool) : Jobs α ε :=
  { s with
    jobs := s.jobs.erase j
    table := s.table.modify j (·.run via raises) }

def callNotification (s : Jobs α ε) (id : ℕ) (via : Via) (raises : Bool) : Jobs α ε :=
  match s.notifiers.find? (·.id = id) with
  | none => s
  | some notifier =>
    let s := if notifier.once then s.stopNotification id else s
    match notifier.owner with
    | none => s
    | some j => s.handler j via raises

/-! ## Starting and checking -/

/-- `lwt_unix_start_job`, until the job is in the pool.  It is executed synchronously, with the
value `v`, if the pool is `saturated`; an exception is raised if no thread can be launched. -/
def startJob (s : Jobs α ε) (asyncMethod : AsyncMethod) (saturated launched : Bool) (v : α)
    (raises : Bool) : Jobs α ε :=
  let asyncMethod := if saturated then .none else asyncMethod
  match asyncMethod with
  | .none =>
    let job : Job α ε := ⟨.none, .pending, true, none, .left, .starting, some v, none, []⟩
    { s with table := s.table ++ [job.run .startJob raises] }
  | .detach | .switch =>
    if launched then
      { s with table := s.table ++
          [⟨asyncMethod, .pending, true, none, .queued, .starting, none, none, []⟩] }
    else s

/-- `start_job` has returned `false`: `run_job_aux`, up to the end of the pause. -/
def runJobAux (s : Jobs α ε) (j : ℕ) (job : Job α ε) : Jobs α ε :=
  { s with jobs := j :: s.jobs }.makeNotification true (some j)
    |>.setJob j { job with caller := .paused s.freeId }

/-- The rest of `lwt_unix_start_job`, which looks at the state without the mutex. -/
def readState (s : Jobs α ε) (j : ℕ) (job : Job α ε) : Jobs α ε :=
  if job.state = .done then s.setJob j { job with caller := .joining }
  else s.runJobAux j job

/-- `lwt_unix_check_job` and what follows it. -/
def checkJob (s : Jobs α ε) (j : ℕ) (job : Job α ε) (id : ℕ) (raises : Bool) : Jobs α ε :=
  let s := s.setJob j { job with fast := false, notificationId := some id, caller := .waiting id }
  if job.state = .done then s.callNotification id .checkJob raises else s

/-- The beginning of `handle_notifications`: all that have been sent are received. -/
def recvNotifications (s : Jobs α ε) : Jobs α ε :=
  { s with sent := [], batches := s.sent :: s.batches }

/-- A turn of `abort_jobs`. -/
def abortJob (s : Jobs α ε) (exn : ε) : Jobs α ε :=
  match s.jobs with
  | [] => s
  | j :: jobs => { s with jobs := jobs, table := s.table.modify j (·.abort exn) }

end Jobs

/-- `raises` tells whether the result function raises an exception, when it is run. -/
inductive JobStep (α ε : Type)
  | startJob (asyncMethod : AsyncMethod) (saturated launched : Bool) (v : α) (raises : Bool)
  | readState (j : ℕ)
  /-- the mutex is locked and unlocked, and `start_job` returns `true` -/
  | join (j : ℕ) (raises : Bool)
  /-- the pause is over -/
  | check (j : ℕ) (raises : Bool)
  /-- the thread marks the job as running, and executes it -/
  | execute (j : ℕ)
  /-- the worker function has returned, and the job is marked as done -/
  | done (j : ℕ) (v : α)
  | unlock (j : ℕ)
  | notify (j : ℕ)
  | receive
  /-- the innermost iteration calls the next handler -/
  | deliver (raises : Bool)
  /-- the innermost iteration ends, or is left by an exception of the handler that it has called -/
  | leave
  | abort (exn : ε)
  /-- notifications that are not those of jobs -/
  | makeNotification (once : Bool)
  | stopNotification (id : ℕ)
  | sendNotification (id : ℕ)

/-- The step of the job `j`, if there is one. -/
def withJob (s : Jobs α ε) (j : ℕ) (f : Job α ε → Option (Jobs α ε)) : Option (Jobs α ε) :=
  s.table[j]?.bind f

def jobStep (s : Jobs α ε) : JobStep α ε → Option (Jobs α ε)
  | .startJob asyncMethod saturated launched v raises =>
    some (s.startJob asyncMethod saturated launched v raises)
  | .readState j => withJob s j fun job =>
    if job.caller = .starting then some (s.readState j job) else none
  | .join j raises => withJob s j fun job =>
    if job.caller = .joining ∧ job.thread ≠ .marking
    then some (s.setJob j (job.run .startJob raises)) else none
  | .check j raises => withJob s j fun job =>
    match job.caller with
    | .paused id => if job.thread ≠ .marking then some (s.checkJob j job id raises) else none
    | _ => none
  | .execute j => withJob s j fun job =>
    if job.thread = .queued
    then some (s.setJob j { job with thread := .working, state := .running }) else none
  | .done j v => withJob s j fun job =>
    if job.thread = .working
    then some (s.setJob j { job with thread := .marking, value := some v, state := .done })
    else none
  | .unlock j => withJob s j fun job =>
    if job.thread = .marking
    then some (s.setJob j { job with thread := if job.fast then .left else .notifying })
    else none
  | .notify j => withJob s j fun job =>
    if job.thread = .notifying
    then some { s.setJob j { job with thread := .left } with
      sent := s.sent ++ job.notificationId.toList } else none
  | .receive => some s.recvNotifications
  | .deliver raises =>
    match s.batches with
    | (id :: ids) :: batches =>
      some ({ s with batches := ids :: batches }.callNotification id .notification raises)
    | _ => none
  | .leave =>
    match s.batches with
    | [] => none
    | _ :: batches => some { s with batches := batches }
  | .abort exn => some (s.abortJob exn)
  | .makeNotification once =>
    some { s.makeNotification once none with others := s.freeId :: s.others }
  | .stopNotification id => if id ∈ s.others then some (s.stopNotification id) else none
  | .sendNotification id =>
    if id ∈ s.others then some { s with sent := s.sent ++ [id] } else none

/-- The result functions raise no exception, and an iteration over notifications is not left while
that of a job is still to come. -/
def kept (s : Jobs α ε) : JobStep α ε → Bool
  | .startJob _ _ _ _ raises | .join _ raises | .check _ raises | .deliver raises => !raises
  | .leave => (s.batches.headD []).all fun id =>
    s.notifiers.all fun n => n.id ≠ id || n.owner.isNone
  | _ => true

/-! ## What is kept -/

/-- The worker function of the job has returned. -/
def JobThread.finished : JobThread → Bool
  | .marking | .notifying | .left => true
  | .queued | .working => false

namespace Jobs

variable {s t : Jobs α ε} {j k id : ℕ} {job job' : Job α ε} {via : Via}

/-- Where the main thread stands with the job `j`. -/
def At (s : Jobs α ε) (j : ℕ) (caller : Caller) : Prop :=
  ∃ job, s.table[j]? = some job ∧ job.caller = caller

/-- The notifications that have been sent and not been called. -/
def undelivered (s : Jobs α ε) : List ℕ := s.sent ++ s.batches.flatten

/-- `id` is the notification of the job `j`. -/
def Registered (s : Jobs α ε) (id j : ℕ) : Prop := ⟨id, true, some j⟩ ∈ s.notifiers

/-- The result function has not been run, and the promise is resolved only if the job has been
aborted. -/
def Open (s : Jobs α ε) (j : ℕ) (job : Job α ε) : Prop :=
  (job.waiter = none ∧ job.log = [] ∧ j ∈ s.jobs) ∨
  ∃ exn, job.waiter = some (.aborted exn) ∧ job.log = [.resolved (.aborted exn)] ∧ j ∉ s.jobs

/-- The result function has been run once, and the promise is resolved with its result, unless the
job had been aborted. -/
def Reported (job : Job α ε) : Prop :=
  ∃ via, job.log = [.ran via, .resolved (.result job.value)] ∨
    ∃ exn, job.log = [.resolved (.aborted exn), .ran via]

/-- What holds of the job `j`, by where its two threads stand. -/
structure Follows (s : Jobs α ε) (j : ℕ) (job : Job α ε) : Prop where
  value : job.thread.finished = true → job.value.isSome = true
  done : job.state = .done → job.thread.finished = true
  marked : job.thread.finished = true → job.state = .done ∨ job.caller = .reported
  early : job.caller = .starting ∨ job.caller = .joining →
    job.fast = true ∧ job.waiter = none ∧ job.log = [] ∧ j ∉ s.jobs ∧ ∀ id, ¬ s.Registered id j
  joining : job.caller = .joining → job.thread.finished = true
  paused : ∀ id, job.caller = .paused id →
    job.fast = true ∧ s.Registered id j ∧ s.undelivered.count id = 0 ∧ Open s j job
  waiting : ∀ id, job.caller = .waiting id →
    job.fast = false ∧ job.notificationId = some id ∧ s.Registered id j ∧
      s.undelivered.count id = (if job.thread = .left then 1 else 0) ∧ Open s j job
  notifying : job.thread = .notifying → ∃ id, job.caller = .waiting id
  reported : job.caller = .reported →
    Reported job ∧ job.thread = .left ∧ j ∉ s.jobs ∧ ∀ id, ¬ s.Registered id j

/-- The ids are those of jobs that wait, or of others. -/
structure Sound (s : Jobs α ε) : Prop where
  nodup : (s.notifiers.map (·.id)).Nodup
  fresh : ∀ n ∈ s.notifiers, n.id ≤ s.currentNotificationId
  sentFresh : ∀ id ∈ s.undelivered, id ≤ s.currentNotificationId
  othersFresh : ∀ id ∈ s.others, id ≤ s.currentNotificationId
  owner : ∀ n ∈ s.notifiers, (n.owner = none ∧ n.id ∈ s.others) ∨
    ∃ j, n.owner = some j ∧ n.once = true ∧ n.id ∉ s.others ∧
      (s.At j (.paused n.id) ∨ s.At j (.waiting n.id))
  known : ∀ id ∈ s.undelivered, id ∈ s.others ∨ ∃ j, s.At j (.waiting id)
  jobsNodup : s.jobs.Nodup
  inside : ∀ j ∈ s.jobs, j < s.table.length
  follows : ∀ j job, s.table[j]? = some job → Follows s j job

theorem sound_init : Sound (init : Jobs α ε) where
  nodup := .nil
  fresh := by simp [init]
  sentFresh := by simp [init, undelivered]
  othersFresh := by simp [init]
  owner := by simp [init]
  known := by simp [init, undelivered]
  jobsNodup := .nil
  inside := by simp [init]
  follows := by simp [init]

theorem Open.congr (h : Open s j job) (hjobs : j ∈ t.jobs ↔ j ∈ s.jobs) : Open t j job := by
  rcases h with ⟨hw, hl, hj⟩ | ⟨exn, hw, hl, hj⟩
  · exact Or.inl ⟨hw, hl, hjobs.mpr hj⟩
  · exact Or.inr ⟨exn, hw, hl, fun h => hj (hjobs.mp h)⟩

theorem Follows.frame (h : Follows s j job) (hjobs : j ∈ t.jobs ↔ j ∈ s.jobs)
    (hreg : ∀ id, t.Registered id j ↔ s.Registered id j)
    (hsent : ∀ id, s.Registered id j → t.undelivered.count id = s.undelivered.count id) :
    Follows t j job where
  value := h.value
  done := h.done
  marked := h.marked
  early := by
    intro hc
    obtain ⟨hf, hw, hl, hj, hr⟩ := h.early hc
    exact ⟨hf, hw, hl, fun hmem => hj (hjobs.mp hmem), fun id hid => hr id ((hreg id).mp hid)⟩
  joining := h.joining
  paused := by
    intro id hc
    obtain ⟨hf, hr, hs, hopen⟩ := h.paused id hc
    exact ⟨hf, (hreg id).mpr hr, by rw [hsent id hr, hs], hopen.congr hjobs⟩
  waiting := by
    intro id hc
    obtain ⟨hf, hid, hr, hs, hopen⟩ := h.waiting id hc
    exact ⟨hf, hid, (hreg id).mpr hr, by rw [hsent id hr, hs], hopen.congr hjobs⟩
  notifying := h.notifying
  reported := by
    intro hc
    obtain ⟨hrep, ht, hj, hr⟩ := h.reported hc
    exact ⟨hrep, ht, fun hmem => hj (hjobs.mp hmem), fun id hid => hr id ((hreg id).mp hid)⟩

theorem getElem?_setJob (hj : s.table[j]? = some job) (k : ℕ) :
    (s.setJob j job').table[k]? = if k = j then some job' else s.table[k]? := by
  obtain ⟨hlt, -⟩ := List.getElem?_eq_some_iff.mp hj
  simp only [setJob, List.getElem?_set]
  grind

theorem At.setJob {c : Caller} (hk : s.At k c) (hj : s.table[j]? = some job)
    (hc : job.caller = c → job'.caller = c) : (s.setJob j job').At k c := by
  obtain ⟨q, hq, hcaller⟩ := hk
  by_cases hkj : k = j
  · subst hkj
    cases hj.symm.trans hq
    exact ⟨job', by simp [getElem?_setJob hj], hc hcaller⟩
  · exact ⟨q, by simp [getElem?_setJob hj, hkj, hq], hcaller⟩

theorem Sound.setJob (h : Sound s) (hj : s.table[j]? = some job)
    (hpaused : ∀ id, job.caller = .paused id → job'.caller = .paused id ∨ job'.caller = .waiting id)
    (hwaiting : ∀ id, job.caller = .waiting id → job'.caller = .waiting id)
    (hf : Follows s j job') : Sound (s.setJob j job') where
  nodup := h.nodup
  fresh := h.fresh
  sentFresh := h.sentFresh
  othersFresh := h.othersFresh
  owner := by
    intro n hn
    rcases h.owner n hn with hother | ⟨k, howner, honce, hid, hk | hk⟩
    · exact Or.inl hother
    · obtain ⟨q, hq, hc⟩ := hk
      by_cases hkj : k = j
      · subst hkj
        cases hj.symm.trans hq
        refine Or.inr ⟨k, howner, honce, hid, ?_⟩
        rcases hpaused _ hc with hc' | hc'
        · exact Or.inl ⟨job', by simp [getElem?_setJob hj], hc'⟩
        · exact Or.inr ⟨job', by simp [getElem?_setJob hj], hc'⟩
      · exact Or.inr ⟨k, howner, honce, hid, Or.inl ⟨q, by simp [getElem?_setJob hj, hkj, hq], hc⟩⟩
    · exact Or.inr ⟨k, howner, honce, hid, Or.inr (hk.setJob hj (hwaiting _))⟩
  known := by
    intro id hid
    rcases h.known id hid with hother | ⟨k, hk⟩
    · exact Or.inl hother
    · exact Or.inr ⟨k, hk.setJob hj (hwaiting id)⟩
  jobsNodup := h.jobsNodup
  inside := by simpa [Jobs.setJob] using h.inside
  follows := by
    intro k q hk
    rw [getElem?_setJob hj] at hk
    split at hk
    case isTrue hkj =>
      cases hk
      subst hkj
      exact hf.frame Iff.rfl (fun _ => Iff.rfl) fun _ _ => rfl
    case isFalse => exact (h.follows k q hk).frame Iff.rfl (fun _ => Iff.rfl) fun _ _ => rfl

/-! ## Ids -/

theorem le_findFreeId (notifiers : List Notifier) (fuel id : ℕ) :
    id ≤ findFreeId notifiers fuel id := by
  induction fuel generalizing id with
  | zero => exact Nat.le_refl id
  | succ fuel ih =>
    unfold findFreeId
    split
    · exact Nat.le_of_succ_le (ih (id + 1))
    · exact Nat.le_refl id

theorem lt_freeId (s : Jobs α ε) : s.currentNotificationId < s.freeId :=
  le_findFreeId _ _ _

theorem Sound.registered_unique (h : Sound s) (hj : s.Registered id j) (hk : s.Registered id k) :
    j = k := by
  have heq := List.inj_on_of_nodup_map h.nodup hj hk rfl
  simpa using heq

theorem Sound.registered_not_other (h : Sound s) (hj : s.Registered id j) : id ∉ s.others := by
  rcases h.owner _ hj with ⟨howner, -⟩ | ⟨_, _, _, hid, -⟩
  · cases howner
  · exact hid

theorem Sound.registered_at (h : Sound s) (hj : s.Registered id j) :
    s.At j (.paused id) ∨ s.At j (.waiting id) := by
  rcases h.owner _ hj with ⟨howner, -⟩ | ⟨k, howner, -, -, hat⟩
  · cases howner
  · cases howner
    exact hat

theorem At.unique {c c' : Caller} (h : s.At j c) (h' : s.At j c') : c = c' := by
  obtain ⟨q, hq, rfl⟩ := h
  obtain ⟨q', hq', rfl⟩ := h'
  cases hq.symm.trans hq'
  rfl

theorem Sound.id_unique (h : Sound s) {m : ℕ} (hj : s.Registered id j) (hm : s.Registered m j) :
    m = id := by
  rcases h.registered_at hj with hc | hc
  · rcases h.registered_at hm with hc' | hc'
    · simpa using hc'.unique hc
    · cases hc'.unique hc
  · rcases h.registered_at hm with hc' | hc'
    · cases hc'.unique hc
    · simpa using hc'.unique hc

theorem Sound.find_registered (h : Sound s) (hj : s.Registered id j) :
    s.notifiers.find? (·.id = id) = some ⟨id, true, some j⟩ := by
  cases hfind : s.notifiers.find? (·.id = id) with
  | none =>
    have hnone := List.find?_eq_none.mp hfind _ hj
    simp at hnone
  | some n =>
    have hid : n.id = id := by simpa using List.find?_some hfind
    have heq := List.inj_on_of_nodup_map h.nodup (List.mem_of_find?_eq_some hfind) hj hid
    rw [heq]

theorem mem_eraseP_id {l : List Notifier} (hnodup : (l.map (·.id)).Nodup) (n : Notifier) :
    n ∈ l.eraseP (·.id = id) ↔ n ∈ l ∧ n.id ≠ id := by
  induction l with
  | nil => simp
  | cons m l ih =>
    obtain ⟨hm, hl⟩ := List.nodup_cons.mp hnodup
    have hne : n ∈ l → n.id ≠ m.id := by
      intro hn heq
      exact hm (List.mem_map.mpr ⟨n, hn, heq⟩)
    by_cases hid : m.id = id
    · rw [List.eraseP_cons_of_pos (by simpa using hid)]
      grind
    · rw [List.eraseP_cons_of_neg (by simpa using hid)]
      have hrest := ih hl
      grind

theorem Sound.mem_stopNotification (h : Sound s) (id : ℕ) (n : Notifier) :
    n ∈ (s.stopNotification id).notifiers ↔ n ∈ s.notifiers ∧ n.id ≠ id :=
  mem_eraseP_id h.nodup n

/-! ## Notifications -/

theorem Sound.callNotification_other (h : Sound s) (hid : id ∈ s.others) (via : Via) :
    s.callNotification id via false = s ∨
      s.callNotification id via false = s.stopNotification id := by
  unfold Jobs.callNotification
  cases hfind : s.notifiers.find? (·.id = id) with
  | none => exact Or.inl rfl
  | some n =>
    have hn : n.id = id := by simpa using List.find?_some hfind
    rcases h.owner n (List.mem_of_find?_eq_some hfind) with ⟨howner, -⟩ | ⟨_, _, _, hother, -⟩
    · simp only [howner]
      split
      · exact Or.inr rfl
      · exact Or.inl rfl
    · exact absurd (hn ▸ hid) hother

theorem Sound.stopNotification (h : Sound s) (hid : id ∈ s.others) :
    Sound (s.stopNotification id) where
  nodup := h.nodup.sublist (List.eraseP_sublist.map _)
  fresh := fun n hn => h.fresh n (List.mem_of_mem_eraseP hn)
  sentFresh := h.sentFresh
  othersFresh := h.othersFresh
  owner := fun n hn => h.owner n (List.mem_of_mem_eraseP hn)
  known := h.known
  jobsNodup := h.jobsNodup
  inside := h.inside
  follows := by
    intro j job hj
    refine (h.follows j job hj).frame Iff.rfl (fun id' => ?_) fun _ _ => rfl
    have hreg := h.mem_stopNotification id ⟨id', true, some j⟩
    refine hreg.trans ⟨fun hmem => hmem.1, fun hmem => ⟨hmem, ?_⟩⟩
    rintro rfl
    exact h.registered_not_other hmem hid

theorem Reported.of_open (hopen : Open s j job) (via : Via) : Reported (job.report via) := by
  rcases hopen with ⟨hw, hl, -⟩ | ⟨exn, hw, hl, -⟩
  · exact ⟨via, Or.inl (by simp [Job.report, hw, hl])⟩
  · exact ⟨via, Or.inr ⟨exn, by simp [Job.report, hw, hl]⟩⟩

@[simp] theorem caller_report (job : Job α ε) (via : Via) :
    (job.report via).caller = .reported := by
  unfold Job.report
  split <;> rfl

@[simp] theorem thread_report (job : Job α ε) (via : Via) :
    (job.report via).thread = job.thread := by
  unfold Job.report
  split <;> rfl

@[simp] theorem value_report (job : Job α ε) (via : Via) :
    (job.report via).value = job.value := by
  unfold Job.report
  split <;> rfl

@[simp] theorem state_report (job : Job α ε) (via : Via) :
    (job.report via).state = job.state := by
  unfold Job.report
  split <;> rfl

/-- The job `j` is reported through its notification: it leaves `jobs`, its notifier is removed, and
nothing is sent for it any more. -/
theorem Sound.report (h : Sound s) (hj : s.table[j]? = some job) (hreg : s.Registered id j)
    (hopen : Open s j job') (hthread : job'.thread = .left) (hvalue : job'.value.isSome = true)
    {batches : List (List ℕ)} (hsub : ∀ k ∈ s.sent ++ batches.flatten, k ∈ s.undelivered)
    (hgone : id ∉ s.sent ++ batches.flatten)
    (hsent : ∀ k, k ≠ id → (s.sent ++ batches.flatten).count k = s.undelivered.count k)
    (via : Via) :
    Sound { (s.stopNotification id).setJob j (job'.report via) with
      batches := batches, jobs := s.jobs.erase j } := by
  have hset : ∀ k, ((s.stopNotification id).setJob j (job'.report via)).table[k]? =
      if k = j then some (job'.report via) else s.table[k]? := getElem?_setJob (s := s) hj
  have hat : ∀ k c, k ≠ j → s.At k c →
      ((s.stopNotification id).setJob j (job'.report via)).At k c := by
    rintro k c hkj ⟨q, hq, hc⟩
    exact ⟨q, by rw [hset, if_neg hkj]; exact hq, hc⟩
  refine ⟨h.nodup.sublist (List.eraseP_sublist.map _),
    fun n hn => h.fresh n (List.mem_of_mem_eraseP hn), fun k hk => h.sentFresh k (hsub k hk),
    h.othersFresh, ?_, ?_, h.jobsNodup.erase j, ?_, ?_⟩
  · intro n hn
    obtain ⟨hmem, hne⟩ := (h.mem_stopNotification id n).mp hn
    rcases h.owner n hmem with hother | ⟨k, howner, honce, hnot, hk⟩
    · exact Or.inl hother
    · have hkj : k ≠ j := by
        rintro rfl
        have hreg' : s.Registered n.id k := by
          obtain ⟨nid, nonce, nowner⟩ := n
          obtain rfl : nonce = true := honce
          obtain rfl : nowner = some k := howner
          exact hmem
        exact hne (h.id_unique hreg hreg')
      exact Or.inr ⟨k, howner, honce, hnot, hk.imp (hat k _ hkj) (hat k _ hkj)⟩
  · intro k hk
    rcases h.known k (hsub k hk) with hother | ⟨m, hm⟩
    · exact Or.inl hother
    · refine Or.inr ⟨m, hat m _ ?_ hm⟩
      rintro rfl
      -- the job waits for its own notification only
      obtain rfl : k = id := by
        rcases h.registered_at hreg with hc | hc
        · cases hm.unique hc
        · simpa using hm.unique hc
      exact hgone hk
  · intro k hk
    simpa [Jobs.setJob, Jobs.stopNotification] using h.inside k (List.mem_of_mem_erase hk)
  · intro k q hk
    have hk' := (hset k).symm.trans hk
    split at hk'
    case isTrue hkj =>
      cases hk'
      subst hkj
      refine ⟨fun _ => by simpa using hvalue, fun _ => by simp [hthread, JobThread.finished],
        fun _ => Or.inr (by simp), by simp, by simp, by simp, by simp, by simp [hthread],
        fun _ => ?_⟩
      refine ⟨Reported.of_open hopen via, by simp [hthread], ?_, ?_⟩
      · exact (h.jobsNodup.not_mem_erase)
      · intro m hm
        obtain ⟨hm, hne⟩ := (h.mem_stopNotification id _).mp hm
        exact hne (h.id_unique hreg hm)
    case isFalse hkj =>
      refine (h.follows k q hk').frame ?_ ?_ ?_
      · exact List.mem_erase_of_ne hkj
      · intro m
        refine (h.mem_stopNotification id ⟨m, true, some k⟩).trans
          ⟨fun hmem => hmem.1, fun hmem => ⟨hmem, ?_⟩⟩
        rintro rfl
        exact hkj (h.registered_unique hmem hreg)
      · intro m hm
        refine hsent m ?_
        rintro rfl
        exact hkj (h.registered_unique hm hreg)

theorem modify_eq_set {f : Job α ε → Job α ε} (hj : s.table[j]? = some job) :
    s.table.modify j f = s.table.set j (f job) := by
  refine List.ext_getElem? fun k => ?_
  simp only [List.getElem?_modify, List.getElem?_set]
  grind

/-! ## Steps of the threads -/

theorem Sound.join (h : Sound s) (hj : s.table[j]? = some job) (hc : job.caller = .joining)
    (hmark : job.thread ≠ .marking) : Sound (s.setJob j (job.report .startJob)) := by
  have hf := h.follows j job hj
  obtain ⟨-, hw, hl, hjobs, hreg⟩ := hf.early (Or.inr hc)
  have hfinished := hf.joining hc
  have hthread : job.thread = .left := by
    have hnotifying : job.thread ≠ .notifying := by
      intro ht
      obtain ⟨id, hid⟩ := hf.notifying ht
      rw [hc] at hid
      cases hid
    cases ht : job.thread <;> simp_all [JobThread.finished]
  refine h.setJob hj (by simp [hc]) (by simp [hc]) ⟨fun _ => by simpa using hf.value hfinished,
    fun _ => by simpa using hfinished, fun _ => Or.inr (by simp), by simp, by simp, by simp,
    by simp, by simp [hthread], fun _ => ⟨?_, by simp [hthread], hjobs, hreg⟩⟩
  exact ⟨.startJob, Or.inl (by simp [Job.report, hw, hl])⟩

theorem Sound.execute (h : Sound s) (hj : s.table[j]? = some job) (ht : job.thread = .queued) :
    Sound (s.setJob j { job with thread := .working, state := .running }) := by
  have hf := h.follows j job hj
  refine h.setJob hj (fun _ => Or.inl) (fun _ => id) ⟨by simp [JobThread.finished], by simp,
    by simp [JobThread.finished], hf.early, fun hc => ?_, hf.paused, fun id hc => ?_, by simp,
    fun hc => ?_⟩
  · have hfinished := hf.joining hc
    simp [ht, JobThread.finished] at hfinished
  · obtain ⟨hfast, hid, hreg, hsent, hopen⟩ := hf.waiting id hc
    exact ⟨hfast, hid, hreg, by simpa [ht] using hsent, hopen⟩
  · have hleft := (hf.reported hc).2.1
    rw [ht] at hleft
    cases hleft

theorem Sound.done (h : Sound s) (hj : s.table[j]? = some job)
    (ht : job.thread = .working) (v : α) :
    Sound (s.setJob j { job with thread := .marking, value := some v, state := .done }) := by
  have hf := h.follows j job hj
  refine h.setJob hj (fun _ => Or.inl) (fun _ => id) ⟨fun _ => rfl, fun _ => rfl,
    fun _ => Or.inl rfl,
    hf.early, fun _ => rfl, hf.paused, fun id hc => ?_, by simp, fun hc => ?_⟩
  · obtain ⟨hfast, hid, hreg, hsent, hopen⟩ := hf.waiting id hc
    exact ⟨hfast, hid, hreg, by simpa [ht] using hsent, hopen⟩
  · have hleft := (hf.reported hc).2.1
    rw [ht] at hleft
    cases hleft

theorem Sound.unlock (h : Sound s) (hj : s.table[j]? = some job) (ht : job.thread = .marking) :
    Sound (s.setJob j { job with thread := if job.fast then .left else .notifying }) := by
  have hf := h.follows j job hj
  have hfinished : (if job.fast then JobThread.left else .notifying).finished = true := by
    split <;> rfl
  have hdone : job.state = .done := by
    rcases hf.marked (by rw [ht]; rfl) with hdone | hc
    · exact hdone
    · have hleft := (hf.reported hc).2.1
      rw [ht] at hleft
      cases hleft
  refine h.setJob hj (fun _ => Or.inl) (fun _ => id) ⟨fun _ => hf.value (by rw [ht]; rfl),
    fun _ => hfinished, fun _ => Or.inl hdone, hf.early, fun _ => hfinished, hf.paused,
    fun id hc => ?_, fun hnotifying => ?_, fun hc => ?_⟩
  · obtain ⟨hfast, hid, hreg, hsent, hopen⟩ := hf.waiting id hc
    simp only [ht, reduceCtorEq, if_false] at hsent
    exact ⟨hfast, hid, hreg, by simp [hfast, hsent], hopen⟩
  · have hfast : job.fast = false := by
      by_contra hfast
      simp [hfast] at hnotifying
    cases hc : job.caller with
    | waiting id => exact ⟨id, rfl⟩
    | starting => simp [(hf.early (Or.inl hc)).1] at hfast
    | joining => simp [(hf.early (Or.inr hc)).1] at hfast
    | paused id => simp [(hf.paused id hc).1] at hfast
    | reported =>
      have hleft := (hf.reported hc).2.1
      rw [ht] at hleft
      cases hleft
  · have hleft := (hf.reported hc).2.1
    rw [ht] at hleft
    cases hleft

theorem Sound.notify (h : Sound s) (hj : s.table[j]? = some job) (ht : job.thread = .notifying) :
    Sound { s.setJob j { job with thread := .left } with
      sent := s.sent ++ job.notificationId.toList } := by
  have hf := h.follows j job hj
  obtain ⟨id, hc⟩ := hf.notifying ht
  obtain ⟨hfast, hid, hreg, hsent, hopen⟩ := hf.waiting id hc
  have hat : ∀ k c, s.At k c → (s.setJob j { job with thread := .left }).At k c :=
    fun k c hk => hk.setJob hj fun hcaller => hcaller
  have hwaits : (s.setJob j { job with thread := .left }).At j (.waiting id) :=
    hat j _ ⟨job, hj, hc⟩
  have hbound := h.fresh _ hreg
  -- the only notification that is new is the one of this job
  have hmem : ∀ k ∈ (s.sent ++ job.notificationId.toList) ++ s.batches.flatten,
      k ∈ s.undelivered ∨ k = id := by
    intro k hk
    simp only [hid, Option.toList_some, List.mem_append, List.mem_singleton] at hk
    unfold undelivered
    rw [List.mem_append]
    grind
  refine ⟨h.nodup, h.fresh, ?_, h.othersFresh, ?_, ?_, h.jobsNodup, by
    simpa [Jobs.setJob] using h.inside, ?_⟩
  · intro k hk
    rcases hmem k hk with hk | rfl
    · exact h.sentFresh k hk
    · exact hbound
  · intro n hn
    rcases h.owner n hn with hother | ⟨k, howner, honce, hnot, hk⟩
    · exact Or.inl hother
    · exact Or.inr ⟨k, howner, honce, hnot, hk.imp (hat k _) (hat k _)⟩
  · intro k hk
    rcases hmem k hk with hk | rfl
    · exact (h.known k hk).imp_right fun ⟨m, hm⟩ => ⟨m, hat m _ hm⟩
    · exact Or.inr ⟨j, hwaits⟩
  · intro k q hk
    have hk' : (if k = j then some { job with thread := .left } else s.table[k]?) = some q :=
      (getElem?_setJob hj k).symm.trans hk
    split at hk'
    case isTrue hkj =>
      cases hk'
      subst hkj
      have hdone : job.state = .done := by
        rcases hf.marked (by rw [ht]; rfl) with hdone | hreported
        · exact hdone
        · rw [hc] at hreported
          cases hreported
      refine ⟨fun _ => hf.value (by rw [ht]; rfl), fun _ => rfl, fun _ => Or.inl hdone,
        by simp [hc], by simp [hc], by simp [hc], fun m hm => ?_, by simp, by simp [hc]⟩
      obtain rfl : id = m := by simpa [hc] using hm
      rw [ht] at hsent
      refine ⟨hfast, hid, hreg, ?_, hopen⟩
      -- it is sent once: it was not on its way before
      have hcount : s.sent.count id + s.batches.flatten.count id = 0 := by
        simpa [undelivered] using hsent
      change ((s.sent ++ job.notificationId.toList) ++ s.batches.flatten).count id = _
      simp only [hid, Option.toList_some, List.count_append, List.count_singleton_self, if_true]
      omega
    case isFalse hkj =>
      -- the other jobs have other notifications
      refine (h.follows k q hk').frame Iff.rfl (fun _ => Iff.rfl) fun m hm => ?_
      have hne : ¬ id = m := by
        rintro rfl
        exact hkj (h.registered_unique hm hreg)
      change ((s.sent ++ job.notificationId.toList) ++ s.batches.flatten).count m = _
      simp [undelivered, hid, List.count_append, hne]

theorem Sound.deliverable (h : Sound s) {sent : List ℕ} {batches : List (List ℕ)}
    (hsub : ∀ k ∈ sent ++ batches.flatten, k ∈ s.undelivered)
    (hcount : ∀ k j, s.Registered k j →
      (sent ++ batches.flatten).count k = s.undelivered.count k) :
    Sound { s with sent := sent, batches := batches } where
  nodup := h.nodup
  fresh := h.fresh
  sentFresh := fun k hk => h.sentFresh k (hsub k hk)
  othersFresh := h.othersFresh
  owner := h.owner
  known := fun k hk => h.known k (hsub k hk)
  jobsNodup := h.jobsNodup
  inside := h.inside
  follows := fun j job hj =>
    (h.follows j job hj).frame Iff.rfl (fun _ => Iff.rfl) fun k hk => hcount k j hk

theorem Sound.recvNotifications (h : Sound s) : Sound s.recvNotifications :=
  h.deliverable (fun _ hk => hk) fun _ _ _ => rfl

theorem Sound.leave (h : Sound s) {ids : List ℕ} {batches : List (List ℕ)}
    (hbatches : s.batches = ids :: batches) (hothers : ∀ id ∈ ids, ∀ j, ¬ s.Registered id j) :
    Sound { s with batches := batches } := by
  refine h.deliverable (fun k hk => ?_) fun k j hreg => ?_
  · rw [undelivered, hbatches, List.flatten_cons]
    simp only [List.mem_append] at hk ⊢
    exact hk.imp_right Or.inr
  · have hnot : k ∉ ids := fun hmem => hothers k hmem j hreg
    rw [undelivered, hbatches, List.flatten_cons, List.count_append, List.count_append,
      List.count_append, List.count_eq_zero.mpr hnot, Nat.zero_add]

theorem Sound.deliver (h : Sound s) {ids : List ℕ} {batches : List (List ℕ)}
    (hbatches : s.batches = (id :: ids) :: batches) :
    Sound ({ s with batches := ids :: batches }.callNotification id .notification false) := by
  have hcount : ∀ k, s.undelivered.count k =
      (s.sent ++ (ids :: batches).flatten).count k + (if id = k then 1 else 0) := by
    intro k
    rw [undelivered, hbatches, List.flatten_cons, List.flatten_cons, List.cons_append,
      List.count_append, List.count_append, List.count_cons]
    simp only [beq_iff_eq]
    omega
  have hsub : ∀ k ∈ s.sent ++ (ids :: batches).flatten, k ∈ s.undelivered := by
    intro k hk
    have hpos := List.count_pos_iff.mpr hk
    have hcount := hcount k
    exact List.count_pos_iff.mp (by omega)
  have hmem : id ∈ s.undelivered := by
    rw [← List.count_pos_iff, hcount id, if_pos rfl]
    omega
  rcases h.known id hmem with hother | ⟨j, job, hj, hc⟩
  · -- the notification of another user
    have hdropped : Sound { s with batches := ids :: batches } := by
      refine h.deliverable hsub fun k j hreg => ?_
      have hne : ¬ id = k := by
        rintro rfl
        exact h.registered_not_other hreg hother
      rw [hcount k, if_neg hne, Nat.add_zero]
    rcases hdropped.callNotification_other hother .notification with hcall | hcall <;> rw [hcall]
    · exact hdropped
    · exact hdropped.stopNotification hother
  · have hf := h.follows j job hj
    obtain ⟨-, -, hreg, hone, hopen⟩ := hf.waiting id hc
    have hself := hcount id
    rw [if_pos rfl] at hself
    -- the notification has been sent, hence the worker has ended
    have hleft : job.thread = .left := by
      by_contra hne
      rw [if_neg hne] at hone
      omega
    rw [if_pos hleft] at hone
    -- it was sent once, so that none is left
    have hgone : (s.sent ++ (ids :: batches).flatten).count id = 0 := by omega
    have hcall : { s with batches := ids :: batches }.callNotification id .notification false =
        { (s.stopNotification id).setJob j (job.report .notification) with
          batches := ids :: batches, jobs := s.jobs.erase j } := by
      have hfind := h.find_registered hreg
      simp [Jobs.callNotification, hfind, Jobs.handler, Jobs.stopNotification, Jobs.setJob,
        modify_eq_set hj, Job.run]
    rw [hcall]
    refine h.report hj hreg hopen hleft (hf.value (by rw [hleft]; rfl)) hsub
      (List.count_eq_zero.mp hgone) (fun k hk => ?_) .notification
    rw [hcount k, if_neg (Ne.symm hk), Nat.add_zero]

theorem Sound.checkJob (h : Sound s) (hj : s.table[j]? = some job) (hc : job.caller = .paused id)
    (hmark : job.thread ≠ .marking) : Sound (s.checkJob j job id false) := by
  have hf := h.follows j job hj
  obtain ⟨hfast, hreg, hsent, hopen⟩ := hf.paused id hc
  have hnotifying : job.thread ≠ .notifying := by
    intro ht
    obtain ⟨m, hm⟩ := hf.notifying ht
    rw [hc] at hm
    cases hm
  unfold Jobs.checkJob
  simp only
  split
  case isTrue hdone =>
    -- done already: the waiter is served on the spot
    have hleft : job.thread = .left := by
      have hfinished := hf.done hdone
      cases ht : job.thread <;> simp_all [JobThread.finished]
    have hcall : (s.setJob j { job with
        fast := false, notificationId := some id, caller := .waiting id }).callNotification id
          .checkJob false = { (s.stopNotification id).setJob j (Job.report { job with
            fast := false, notificationId := some id, caller := .waiting id } .checkJob) with
          batches := s.batches, jobs := s.jobs.erase j } := by
      have hfind := h.find_registered hreg
      have hset : (s.setJob j { job with
          fast := false, notificationId := some id, caller := .waiting id }).table[j]? = _ :=
        getElem?_setJob hj j
      rw [if_pos rfl] at hset
      have hmodify := modify_eq_set (f := (·.run .checkJob false)) hset
      simp only [Jobs.callNotification, Jobs.setJob, hfind, if_true, Jobs.handler,
        Jobs.stopNotification] at hmodify ⊢
      rw [hmodify, List.set_set, Job.run]
    have hopen' : Open s j { job with
        fast := false, notificationId := some id, caller := .waiting id } := hopen
    rw [hcall]
    exact h.report hj hreg hopen' hleft (hf.value (by rw [hleft]; rfl)) (fun _ hk => hk)
      (List.count_eq_zero.mp hsent) (fun _ _ => rfl) .checkJob
  case isFalse hdone =>
    -- still running: the job will send the notification when it ends
    have hthread : job.thread.finished = false := by
      by_contra hfinished
      rcases hf.marked (by simpa using hfinished) with hd | hr
      · exact hdone hd
      · rw [hc] at hr
        cases hr
    refine h.setJob hj (fun m hm => Or.inr ?_) (by simp [hc]) ⟨hf.value, hf.done,
      fun hfinished => ?_, by simp, by simp, by simp, fun m hm => ?_, by simp, by simp⟩
    · simpa [hc] using hm
    · rw [hthread] at hfinished
      cases hfinished
    · obtain rfl : id = m := by simpa using hm
      refine ⟨rfl, rfl, hreg, ?_, hopen⟩
      have hne : job.thread ≠ .left := by
        intro ht
        rw [ht] at hthread
        cases hthread
      simp [hne, hsent]

/-! ## Other steps -/

theorem registered_makeNotification (s : Jobs α ε) (once : Bool) (owner : Option ℕ) (m k : ℕ) :
    (s.makeNotification once owner).Registered m k ↔
      (m = s.freeId ∧ once = true ∧ owner = some k) ∨ s.Registered m k := by
  simp only [Registered, makeNotification, List.mem_cons, Notifier.mk.injEq]
  grind

theorem Sound.freeId_new (h : Sound s) : s.freeId ∉ s.undelivered ∧ s.freeId ∉ s.others ∧
    s.freeId ∉ s.notifiers.map (·.id) := by
  have hlt := s.lt_freeId
  refine ⟨fun hmem => ?_, fun hmem => ?_, fun hmem => ?_⟩
  · have hle := h.sentFresh _ hmem
    omega
  · have hle := h.othersFresh _ hmem
    omega
  · obtain ⟨n, hn, hid⟩ := List.mem_map.mp hmem
    have hle := h.fresh n hn
    omega

theorem Sound.makeNotification (h : Sound s) (once : Bool) :
    Sound { s.makeNotification once none with others := s.freeId :: s.others } := by
  have hlt := s.lt_freeId
  obtain ⟨hsent, hothers, hids⟩ := h.freeId_new
  refine ⟨List.nodup_cons.mpr ⟨hids, h.nodup⟩, ?_, ?_, ?_, ?_, ?_, h.jobsNodup, h.inside, ?_⟩
  · intro n hn
    rcases List.mem_cons.mp hn with rfl | hn
    · exact Nat.le_refl _
    · exact Nat.le_of_lt (Nat.lt_of_le_of_lt (h.fresh n hn) hlt)
  · exact fun k hk => Nat.le_of_lt (Nat.lt_of_le_of_lt (h.sentFresh k hk) hlt)
  · intro k hk
    rcases List.mem_cons.mp hk with rfl | hk
    · exact Nat.le_refl _
    · exact Nat.le_of_lt (Nat.lt_of_le_of_lt (h.othersFresh k hk) hlt)
  · intro n hn
    rcases List.mem_cons.mp hn with rfl | hn
    · exact Or.inl ⟨rfl, List.mem_cons_self⟩
    · rcases h.owner n hn with ⟨howner, hother⟩ | ⟨k, howner, honce, hnot, hk⟩
      · exact Or.inl ⟨howner, List.mem_cons_of_mem _ hother⟩
      · refine Or.inr ⟨k, howner, honce, fun hmem => ?_, hk⟩
        rcases List.mem_cons.mp hmem with heq | hmem
        · exact hids (List.mem_map.mpr ⟨n, hn, heq⟩)
        · exact hnot hmem
  · exact fun k hk => (h.known k hk).imp_left (List.mem_cons_of_mem _)
  · intro k q hk
    refine (h.follows k q hk).frame Iff.rfl (fun m => ?_) fun _ _ => rfl
    refine (s.registered_makeNotification once none m k).trans ⟨?_, Or.inr⟩
    rintro (⟨-, -, howner⟩ | hreg)
    · cases howner
    · exact hreg

theorem Sound.sendNotification (h : Sound s) (hid : id ∈ s.others) :
    Sound { s with sent := s.sent ++ [id] } := by
  have hmem : ∀ k ∈ (s.sent ++ [id]) ++ s.batches.flatten, k ∈ s.undelivered ∨ k = id := by
    intro k hk
    simp only [List.mem_append, List.mem_singleton] at hk
    unfold undelivered
    rw [List.mem_append]
    grind
  refine ⟨h.nodup, h.fresh, fun k hk => ?_, h.othersFresh, h.owner, fun k hk => ?_, h.jobsNodup,
    h.inside, fun k q hk => ?_⟩
  · rcases hmem k hk with hk | rfl
    · exact h.sentFresh k hk
    · exact h.othersFresh k hid
  · rcases hmem k hk with hk | rfl
    · exact h.known k hk
    · exact Or.inl hid
  · refine (h.follows k q hk).frame Iff.rfl (fun _ => Iff.rfl) fun m hm => ?_
    have hne : ¬ id = m := by
      rintro rfl
      exact h.registered_not_other hm hid
    simp [undelivered, List.count_append, hne]

theorem Sound.runJobAux (h : Sound s) (hj : s.table[j]? = some job) (hc : job.caller = .starting)
    (hstate : job.state ≠ .done) : Sound (s.runJobAux j job) := by
  have hlt := s.lt_freeId
  have hf := h.follows j job hj
  obtain ⟨hfast, hw, hl, hjobs, hreg⟩ := hf.early (Or.inl hc)
  obtain ⟨hsent, hothers, hids⟩ := h.freeId_new
  have hset : ∀ k, (s.runJobAux j job).table[k]? =
      if k = j then some { job with caller := .paused s.freeId } else s.table[k]? :=
    getElem?_setJob (s := s) hj
  -- the other jobs stay where they are
  have hat : ∀ k c, c ≠ .starting → s.At k c → (s.runJobAux j job).At k c := by
    rintro k c hne ⟨q, hq, hcaller⟩
    have hkj : k ≠ j := by
      rintro rfl
      cases hj.symm.trans hq
      exact hne (hcaller.symm.trans hc)
    exact ⟨q, by rw [hset, if_neg hkj]; exact hq, hcaller⟩
  have hregistered : ∀ m k, (s.runJobAux j job).Registered m k ↔
      (m = s.freeId ∧ true = true ∧ some j = some k) ∨ s.Registered m k :=
    fun m k => s.registered_makeNotification true (some j) m k
  have hthread : job.thread.finished = false := by
    by_contra hfinished
    rcases hf.marked (by simpa using hfinished) with hd | hr
    · exact hstate hd
    · rw [hc] at hr
      cases hr
  refine ⟨List.nodup_cons.mpr ⟨hids, h.nodup⟩, ?_, ?_, ?_, ?_, ?_,
    List.nodup_cons.mpr ⟨hjobs, h.jobsNodup⟩, ?_, ?_⟩
  · intro n hn
    rcases List.mem_cons.mp hn with rfl | hn
    · exact Nat.le_refl _
    · exact Nat.le_of_lt (Nat.lt_of_le_of_lt (h.fresh n hn) hlt)
  · exact fun k hk => Nat.le_of_lt (Nat.lt_of_le_of_lt (h.sentFresh k hk) hlt)
  · exact fun k hk => Nat.le_of_lt (Nat.lt_of_le_of_lt (h.othersFresh k hk) hlt)
  · intro n hn
    rcases List.mem_cons.mp hn with rfl | hn
    · exact Or.inr ⟨j, rfl, rfl, hothers, Or.inl ⟨_, by rw [hset, if_pos rfl], rfl⟩⟩
    · rcases h.owner n hn with hother | ⟨k, howner, honce, hnot, hk⟩
      · exact Or.inl hother
      · exact Or.inr ⟨k, howner, honce, hnot, hk.imp (hat k _ (by simp)) (hat k _ (by simp))⟩
  · exact fun k hk => (h.known k hk).imp_right fun ⟨m, hm⟩ => ⟨m, hat m _ (by simp) hm⟩
  · intro k hk
    have hinside : j < s.table.length := (List.getElem?_eq_some_iff.mp hj).1
    have hlength : (s.runJobAux j job).table.length = s.table.length := by
      simp [Jobs.runJobAux, Jobs.setJob, Jobs.makeNotification]
    rw [hlength]
    rcases List.mem_cons.mp hk with rfl | hk
    · exact hinside
    · exact h.inside k hk
  · intro k q hk
    rw [hset] at hk
    split at hk
    case isTrue hkj =>
      cases hk
      subst hkj
      refine ⟨hf.value, hf.done, fun hfinished => ?_, by simp, by simp, fun m hm => ?_, by simp,
        fun ht => ?_, by simp⟩
      · rw [hthread] at hfinished
        cases hfinished
      · obtain rfl : s.freeId = m := by simpa using hm
        exact ⟨hfast, (hregistered _ _).mpr (Or.inl ⟨rfl, rfl, rfl⟩),
          List.count_eq_zero.mpr (show s.freeId ∉ s.undelivered from hsent),
          Or.inl ⟨hw, hl, List.mem_cons_self⟩⟩
      · rw [show job.thread = .notifying from ht] at hthread
        cases hthread
    case isFalse hkj =>
      refine (h.follows k q hk).frame ?_ (fun m => ?_) fun _ _ => rfl
      · exact ⟨fun hmem => (List.mem_cons.mp hmem).resolve_left hkj, List.mem_cons_of_mem j⟩
      · refine (hregistered m k).trans ⟨?_, Or.inr⟩
        rintro (⟨-, -, howner⟩ | hm)
        · exact absurd (Option.some.inj howner).symm hkj
        · exact hm

theorem Sound.readState (h : Sound s) (hj : s.table[j]? = some job) (hc : job.caller = .starting) :
    Sound (s.readState j job) := by
  have hf := h.follows j job hj
  unfold Jobs.readState
  split
  case isTrue hdone =>
    refine h.setJob hj (by simp [hc]) (by simp [hc]) ⟨hf.value, hf.done, fun _ => Or.inl hdone,
      fun _ => hf.early (Or.inl hc), fun _ =>
      hf.done hdone, by simp, by simp, fun ht => ?_, by simp⟩
    obtain ⟨id, hid⟩ := hf.notifying ht
    rw [hc] at hid
    cases hid
  case isFalse hstate => exact h.runJobAux hj hc hstate

theorem Sound.append (h : Sound s) (hnew : ∀ t : Jobs α ε,
    (∀ id, ¬ t.Registered id s.table.length) →
    s.table.length ∉ t.jobs → Follows t s.table.length job) :
    Sound { s with table := s.table ++ [job] } := by
  have hat : ∀ k c, s.At k c → Jobs.At { s with table := s.table ++ [job] } k c := by
    rintro k c ⟨q, hq, hc⟩
    have hlt := (List.getElem?_eq_some_iff.mp hq).1
    exact ⟨q, by simp [List.getElem?_append_left hlt, hq], hc⟩
  refine ⟨h.nodup, h.fresh, h.sentFresh, h.othersFresh, ?_, ?_, h.jobsNodup, ?_, ?_⟩
  · intro n hn
    rcases h.owner n hn with hother | ⟨k, howner, honce, hnot, hk⟩
    · exact Or.inl hother
    · exact Or.inr ⟨k, howner, honce, hnot, hk.imp (hat k _) (hat k _)⟩
  · exact fun k hk => (h.known k hk).imp_right fun ⟨m, hm⟩ => ⟨m, hat m _ hm⟩
  · intro k hk
    have hlt := h.inside k hk
    simp only [List.length_append, List.length_singleton]
    omega
  · intro k q hk
    simp only [List.getElem?_append] at hk
    split at hk
    case isTrue => exact (h.follows k q hk).frame Iff.rfl (fun _ => Iff.rfl) fun _ _ => rfl
    case isFalse hle =>
      obtain ⟨hk0, rfl⟩ : k - s.table.length = 0 ∧ job = q := by
        simpa [List.getElem?_singleton] using hk
      obtain rfl : k = s.table.length := by omega
      refine hnew _ (fun m hm => ?_) fun hmem => Nat.lt_irrefl _ (h.inside _ hmem)
      rcases h.registered_at hm with ⟨q', hq', -⟩ | ⟨q', hq', -⟩
      · exact Nat.lt_irrefl _ (List.getElem?_eq_some_iff.mp hq').1
      · exact Nat.lt_irrefl _ (List.getElem?_eq_some_iff.mp hq').1

theorem Sound.startJob (h : Sound s) (asyncMethod : AsyncMethod) (saturated launched : Bool)
    (v : α) : Sound (s.startJob asyncMethod saturated launched v false) := by
  have hqueued : ∀ m, Sound { s with table := s.table ++
      [⟨m, .pending, true, none, .queued, .starting, none, none, []⟩] } := by
    intro m
    refine h.append fun t hreg hjobs => ?_
    exact ⟨by simp [JobThread.finished], by simp, by simp [JobThread.finished],
      fun _ => ⟨rfl, rfl, rfl, hjobs, hreg⟩, by simp, by simp, by simp, by simp, by simp⟩
  unfold Jobs.startJob
  simp only
  split
  case h_1 =>
    simp only [Job.run]
    refine h.append fun t hreg hjobs => ?_
    exact ⟨by simp, by simp [JobThread.finished], by simp, by simp, by simp, by simp, by simp,
      by simp, fun _ => ⟨⟨.startJob, Or.inl rfl⟩, rfl, hjobs, hreg⟩⟩
  case h_2 | h_3 =>
    split
    · exact hqueued _
    · exact h

theorem Sound.abortJob (h : Sound s) (exn : ε) : Sound (s.abortJob exn) := by
  unfold Jobs.abortJob
  split
  case h_1 => exact h
  case h_2 j jobs hjobs =>
    have hmem : j ∈ s.jobs := by rw [hjobs]; exact List.mem_cons_self
    obtain ⟨hnew, hnodup⟩ := List.nodup_cons.mp (hjobs ▸ h.jobsNodup)
    obtain ⟨job, hj⟩ : ∃ job, s.table[j]? = some job :=
      ⟨_, List.getElem?_eq_getElem (h.inside j hmem)⟩
    have hf := h.follows j job hj
    have hset : ∀ k, (s.setJob j (job.abort exn)).table[k]? = _ := getElem?_setJob hj
    -- a job in `jobs` has not been aborted before
    have habort : job.waiter = none → job.log = [] → job.abort exn = { job with
        waiter := some (.aborted exn), log := [.resolved (.aborted exn)] } := by
      intro hw hl
      simp [Job.abort, hw, hl]
    have hopen : Open s j job → job.waiter = none ∧ job.log = [] := by
      rintro (⟨hw, hl, -⟩ | ⟨_, _, _, hnot⟩)
      · exact ⟨hw, hl⟩
      · exact absurd hmem hnot
    obtain ⟨hw, hl⟩ : job.waiter = none ∧ job.log = [] := by
      cases hc : job.caller with
      | starting => exact absurd hmem (hf.early (Or.inl hc)).2.2.2.1
      | joining => exact absurd hmem (hf.early (Or.inr hc)).2.2.2.1
      | paused id => exact hopen (hf.paused id hc).2.2.2
      | waiting id => exact hopen (hf.waiting id hc).2.2.2.2
      | reported => exact absurd hmem (hf.reported hc).2.2.1
    rw [modify_eq_set hj]
    have hcaller : (job.abort exn).caller = job.caller := by rw [habort hw hl]
    have hat : ∀ k c, s.At k c → (s.setJob j (job.abort exn)).At k c :=
      fun k c hk => hk.setJob hj fun hc => hcaller.trans hc
    refine ⟨h.nodup, h.fresh, h.sentFresh, h.othersFresh, ?_, ?_, hnodup, ?_, ?_⟩
    · intro n hn
      rcases h.owner n hn with hother | ⟨k, howner, honce, hnot, hk⟩
      · exact Or.inl hother
      · exact Or.inr ⟨k, howner, honce, hnot, hk.imp (hat k _) (hat k _)⟩
    · exact fun k hk => (h.known k hk).imp_right fun ⟨m, hm⟩ => ⟨m, hat m _ hm⟩
    · intro k hk
      simpa using h.inside k (by rw [hjobs]; exact List.mem_cons_of_mem j hk)
    · intro k q hk
      have hk' := (hset k).symm.trans hk
      split at hk'
      case isTrue hkj =>
        cases hk'
        subst hkj
        have haborted : ∀ t : Jobs α ε, t.jobs = jobs → Open t k (job.abort exn) := by
          intro t ht
          refine Or.inr ⟨exn, by simp [habort hw hl], by simp [habort hw hl], ?_⟩
          rw [ht]
          exact hnew
        have hlive : job.caller ≠ .starting ∧ job.caller ≠ .joining ∧ job.caller ≠ .reported :=
          ⟨fun hc => (hf.early (Or.inl hc)).2.2.2.1 hmem,
            fun hc => (hf.early (Or.inr hc)).2.2.2.1 hmem, fun hc =>
            (hf.reported hc).2.2.1 hmem⟩
        have hkept : (job.abort exn).thread = job.thread ∧ (job.abort exn).value = job.value ∧
            (job.abort exn).state = job.state ∧ (job.abort exn).fast = job.fast ∧
            (job.abort exn).notificationId = job.notificationId := by
          rw [habort hw hl]
          exact ⟨rfl, rfl, rfl, rfl, rfl⟩
        obtain ⟨hthread, hvalue, hstate, hfast, hnid⟩ := hkept
        refine ⟨?_, ?_, ?_, ?_, ?_, ?_, ?_, ?_, ?_⟩ <;>
          simp only [hcaller, hthread, hvalue, hstate, hfast, hnid]
        · exact hf.value
        · exact hf.done
        · exact hf.marked
        · rintro (hc | hc)
          · exact absurd hc hlive.1
          · exact absurd hc hlive.2.1
        · exact hf.joining
        · intro m hc
          obtain ⟨hfast, hreg, hcount, -⟩ := hf.paused m hc
          exact ⟨hfast, hreg, hcount, haborted _ rfl⟩
        · intro m hc
          obtain ⟨hfast, hid, hreg, hcount, -⟩ := hf.waiting m hc
          exact ⟨hfast, hid, hreg, hcount, haborted _ rfl⟩
        · exact hf.notifying
        · exact fun hc => absurd hc hlive.2.2
      case isFalse hkj =>
        refine (h.follows k q hk').frame ?_ (fun _ => Iff.rfl) fun _ _ => rfl
        rw [hjobs]
        exact ⟨List.mem_cons_of_mem j, fun hm => (List.mem_cons.mp hm).resolve_left hkj⟩

end Jobs

open Jobs

variable {s t : Jobs α ε} {j : ℕ} {job : Job α ε}

theorem withJob_eq_some {f : Job α ε → Option (Jobs α ε)} (h : withJob s j f = some t) :
    ∃ job, s.table[j]? = some job ∧ f job = some t :=
  Option.bind_eq_some_iff.mp h

theorem Jobs.sound_step {a : JobStep α ε} (h : s.Sound) (hkept : kept s a = true)
    (hstep : jobStep s a = some t) : t.Sound := by
  cases a with
  | startJob asyncMethod saturated launched v raises =>
    obtain rfl : raises = false := by simpa [kept] using hkept
    cases hstep
    exact h.startJob asyncMethod saturated launched v
  | readState j =>
    obtain ⟨job, hj, hf⟩ := withJob_eq_some hstep
    obtain ⟨hc, rfl⟩ : job.caller = .starting ∧ s.readState j job = t := by simpa using hf
    exact h.readState hj hc
  | join j raises =>
    obtain rfl : raises = false := by simpa [kept] using hkept
    obtain ⟨job, hj, hf⟩ := withJob_eq_some hstep
    obtain ⟨⟨hc, hmark⟩, rfl⟩ : (job.caller = .joining ∧ job.thread ≠ .marking) ∧
        s.setJob j (job.report .startJob) = t := by simpa [Job.run] using hf
    exact h.join hj hc hmark
  | check j raises =>
    obtain rfl : raises = false := by simpa [kept] using hkept
    obtain ⟨job, hj, hf⟩ := withJob_eq_some hstep
    split at hf
    case h_1 id hc =>
      obtain ⟨hmark, rfl⟩ : job.thread ≠ .marking ∧ s.checkJob j job id false = t := by
        simpa using hf
      exact h.checkJob hj hc hmark
    case h_2 => cases hf
  | execute j =>
    obtain ⟨job, hj, hf⟩ := withJob_eq_some hstep
    obtain ⟨ht, rfl⟩ : job.thread = .queued ∧
        s.setJob j { job with thread := .working, state := .running } = t := by simpa using hf
    exact h.execute hj ht
  | done j v =>
    obtain ⟨job, hj, hf⟩ := withJob_eq_some hstep
    obtain ⟨ht, rfl⟩ : job.thread = .working ∧
        s.setJob j { job with thread := .marking, value := some v, state := .done } = t := by
      simpa using hf
    exact h.done hj ht v
  | unlock j =>
    obtain ⟨job, hj, hf⟩ := withJob_eq_some hstep
    obtain ⟨ht, rfl⟩ : job.thread = .marking ∧
        s.setJob j { job with thread := if job.fast then .left else .notifying } = t := by
      simpa using hf
    exact h.unlock hj ht
  | notify j =>
    obtain ⟨job, hj, hf⟩ := withJob_eq_some hstep
    split at hf
    case isTrue ht =>
      cases hf
      exact h.notify hj ht
    case isFalse => cases hf
  | receive =>
    cases hstep
    exact h.recvNotifications
  | deliver raises =>
    obtain rfl : raises = false := by simpa [kept] using hkept
    simp only [jobStep] at hstep
    split at hstep
    case h_1 id ids batches hbatches =>
      cases hstep
      exact h.deliver hbatches
    case h_2 => cases hstep
  | leave =>
    simp only [jobStep] at hstep
    split at hstep
    case h_1 => cases hstep
    case h_2 ids batches hbatches =>
      cases hstep
      refine h.leave hbatches fun id hid j hreg => ?_
      -- what is left of the batch is for nobody
      have hall : ids.all (fun id =>
          s.notifiers.all fun n => n.id ≠ id || n.owner.isNone) = true := by
        simpa [kept, hbatches] using hkept
      have hnone := List.all_eq_true.mp (List.all_eq_true.mp hall id hid) _ hreg
      simp at hnone
  | abort exn =>
    cases hstep
    exact h.abortJob exn
  | makeNotification once =>
    cases hstep
    exact h.makeNotification once
  | stopNotification id =>
    obtain ⟨hid, rfl⟩ : id ∈ s.others ∧ s.stopNotification id = t := by
      simpa [jobStep] using hstep
    exact h.stopNotification hid
  | sendNotification id =>
    obtain ⟨hid, rfl⟩ : id ∈ s.others ∧ { s with sent := s.sent ++ [id] } = t := by
      simpa [jobStep] using hstep
    exact h.sendNotification hid

/-- The log of a job tells that nothing has happened, that it has been aborted, or that it has been
reported once. -/
theorem Jobs.Follows.log_cases (h : Follows s j job) :
    (job.log = [] ∧ job.caller ≠ .reported) ∨
    (∃ exn, job.log = [.resolved (.aborted exn)] ∧ job.caller ≠ .reported ∧ j ∉ s.jobs) ∨
    (Reported job ∧ job.caller = .reported) := by
  have hopen : Open s j job → job.caller ≠ .reported →
      (job.log = [] ∧ job.caller ≠ .reported) ∨
      (∃ exn, job.log = [.resolved (.aborted exn)] ∧ job.caller ≠ .reported ∧ j ∉ s.jobs) ∨
      (Reported job ∧ job.caller = .reported) := by
    rintro (⟨-, hl, -⟩ | ⟨exn, -, hl, hnot⟩) hc
    · exact Or.inl ⟨hl, hc⟩
    · exact Or.inr (Or.inl ⟨exn, hl, hc, hnot⟩)
  cases hc : job.caller with
  | starting => exact Or.inl ⟨(h.early (Or.inl hc)).2.2.1, by simp⟩
  | joining => exact Or.inl ⟨(h.early (Or.inr hc)).2.2.1, by simp⟩
  | paused id => simpa [hc] using hopen (h.paused id hc).2.2.2 (by simp [hc])
  | waiting id => simpa [hc] using hopen (h.waiting id hc).2.2.2.2 (by simp [hc])
  | reported => exact Or.inr (Or.inr ⟨(h.reported hc).1, rfl⟩)

/-- In every run in which no result function raises an exception and no iteration is left while the
notification of a job is still to come, the result function of a job is run at most once, and its
promise is resolved at most once: with the result, just after it has been run, or with an exception,
if the job was aborted before.  A job that has been resolved is not in `jobs`.  When the result
function has been run the worker has finished and sends no notification any more; and it has been
run, once nothing is left to be done for the job and every notification has been delivered. -/
theorem job_is_run_once
    (hreach : Reach jobStep (fun s a => kept s a = true) (init : Jobs α ε) s)
    (hj : s.table[j]? = some job) :
    (job.log = [] ∨ (∃ exn, job.log = [.resolved (.aborted exn)]) ∨
      (∃ via, job.log = [.ran via, .resolved (.result job.value)]) ∨
      ∃ exn via, job.log = [.resolved (.aborted exn), .ran via]) ∧
    (job.log ≠ [] → j ∉ s.jobs) ∧
    ((∃ via, .ran via ∈ job.log) → job.value.isSome = true ∧ job.thread = .left) ∧
    (job.thread = .left → s.undelivered = [] →
      job.caller = .reported ∨ (∃ id, job.caller = .waiting id) → ∃ via, .ran via ∈ job.log) := by
  have h : s.Sound := hreach.invariant sound_init fun s a t hs hkept hstep =>
    Jobs.sound_step hs hkept hstep
  have hf := h.follows j job hj
  have hran : Reported job → ∃ via, .ran via ∈ job.log := by
    rintro ⟨via, hl | ⟨exn, hl⟩⟩
    · exact ⟨via, by simp [hl]⟩
    · exact ⟨via, by simp [hl]⟩
  refine ⟨?_, ?_, ?_, ?_⟩
  · rcases hf.log_cases with ⟨hl, -⟩ | ⟨exn, hl, -⟩ | ⟨⟨via, hl | ⟨exn, hl⟩⟩, -⟩
    · exact Or.inl hl
    · exact Or.inr (Or.inl ⟨exn, hl⟩)
    · exact Or.inr (Or.inr (Or.inl ⟨via, hl⟩))
    · exact Or.inr (Or.inr (Or.inr ⟨exn, via, hl⟩))
  · intro hlog
    rcases hf.log_cases with ⟨hl, -⟩ | ⟨_, _, _, hnot⟩ | ⟨-, hc⟩
    · exact absurd hl hlog
    · exact hnot
    · exact (hf.reported hc).2.2.1
  · rintro ⟨via, hvia⟩
    rcases hf.log_cases with ⟨hl, -⟩ | ⟨exn, hl, -⟩ | ⟨-, hc⟩
    · simp [hl] at hvia
    · simp [hl] at hvia
    · have hleft := (hf.reported hc).2.1
      exact ⟨hf.value (by rw [hleft]; rfl), hleft⟩
  · rintro hleft hsent (hc | ⟨id, hc⟩)
    · exact hran (hf.reported hc).1
    · -- the notification of a thread that has left is still on its way
      have hcount := (hf.waiting id hc).2.2.2.1
      rw [if_pos hleft, hsent] at hcount
      cases hcount

/-- Two jobs, of which the second one is aborted before its notification arrives. -/
theorem job_is_run_once_aborted :
    ∃ s : Jobs ℕ Unit, Reach jobStep (fun s a => kept s a = true) init s ∧
      ∃ job, s.table[1]? = some job ∧
        job.log = [.resolved (.aborted ()), .ran .notification] ∧ 1 ∉ s.jobs := by
  obtain ⟨s, hs⟩ : ∃ s : Jobs ℕ Unit, replay (checked jobStep kept) init
      [.startJob .detach false true 0 false, .execute 0, .done 0 5, .readState 0, .unlock 0,
        .join 0 false, .startJob .detach false true 0 false, .readState 1, .check 1 false,
        .execute 1, .abort (), .done 1 6, .unlock 1, .notify 1, .receive, .deliver false] =
      some s := ⟨_, rfl⟩
  have hreach := reach_of_checked _ hs
  obtain ⟨job, hj, hl⟩ : ∃ job, s.table[1]? = some job ∧
      job.log = [.resolved (.aborted ()), .ran .notification] := by
    cases hs.symm.trans rfl
    exact ⟨_, rfl, rfl⟩
  exact ⟨s, hreach, job, hj, hl, (job_is_run_once hreach hj).2.1 (by simp [hl])⟩

/-- The handler of another notification, which is before that of the job in the array, raises an
exception: the worker has finished, nothing is left to be delivered, and the result function has not
been run. -/
theorem job_is_lost :
    ∃ s : Jobs ℕ Unit, Reach jobStep (fun _ _ => True) init s ∧ ∃ job id, s.table[0]? = some job ∧
      job.thread = .left ∧ job.caller = .waiting id ∧ s.undelivered = [] ∧ job.log = [] ∧
      0 ∈ s.jobs := by
  obtain ⟨s, hs⟩ : ∃ s : Jobs ℕ Unit, replay jobStep init
      [.makeNotification false, .startJob .detach false true 0 false, .readState 0, .check 0 false,
        .execute 0, .done 0 5, .sendNotification (0x7FFFFFFF - 1000 + 1), .unlock 0, .notify 0,
        .receive, .deliver false, .leave] = some s := ⟨_, rfl⟩
  refine ⟨s, reach_of_replay _ hs, ?_⟩
  cases hs.symm.trans rfl
  exact ⟨_, _, rfl, rfl, rfl, rfl, rfl, List.mem_cons_self⟩

end Lwt.Unix
