import Lwt.Library.Tickets
import Lwt.Library.Total
import Lwt.Unix.Notifications

/-!
# `run_in_main`

A thread that wants a function to be run in the main thread adds a job to a queue, sends a
notification and waits in a cell for the result.  The main thread takes a job for each id of
`job_notification` that it receives, whatever thread has sent the id.  So the jobs are started in
the order in which they have been added, but not always by the notification of their own thread.

A step is a section that is protected by a mutex: `jobs_mutex`, that of the notifications or that
of a cell.  `CELL.set` signals after its mutex has been released, and a thread may be woken without
a signal.

The ids after that of a handler that raises are lost, and so are the last jobs of the queue then, as
long as no more are sent.  A call of `run_in_main` by the main thread itself does not return.
-/

namespace Lwt.Unix

open Tickets Transition

/-- The thread that calls `run_in_main` or `run_in_main_dont_wait`. -/
inductive MainCaller (ε α : Type)
  /-- The job is in the queue, and the notification is yet to be sent. -/
  | notifying
  /-- before `CELL.get` -/
  | getting
  /-- in `Condition.wait` -/
  | waiting
  /-- `Condition.wait` is about to take the mutex again. -/
  | woken
  | returned (result : Except ε α)
  /-- The function does not wait for the result. -/
  | left
  /-- `send_notification` has raised an exception. -/
  | raised

namespace MainCaller

variable {ε α : Type}

def isNotifying : MainCaller ε α → Bool
  | notifying => true
  | _ => false

def isWaiting : MainCaller ε α → Bool
  | waiting => true
  | _ => false

/-- The call is still being made. -/
def inside : MainCaller ε α → Bool
  | notifying | getting | waiting | woken => true
  | _ => false

end MainCaller

/-- The function that is run in the main thread. -/
inductive MainJob (ε α : Type)
  | queued
  | started
  | finished (result : Except ε α)

/-- A call of `run_in_main`, or of `run_in_main_dont_wait` if it does not wait. -/
structure MainCall (ε α : Type) where
  waits : Bool
  byMain : Bool
  caller : MainCaller ε α
  job : MainJob ε α
  cell : Option (Except ε α)

structure RunInMain (ε α : Type) where
  notifications : Notifications
  jobs : List ℕ
  jobsMutex : Bool
  calls : List (MainCall ε α)
  /-- the ids that `handle_notifications` has yet to handle -/
  batch : List ℤ
  /-- A handler runs. -/
  handling : Bool
  /-- the call that the main thread makes itself -/
  calling : Option ℕ
  /-- the call whose cell the main thread has set and not yet signalled -/
  signalling : Option ℕ
  /-- Not part of the program: the jobs that have been taken out of the queue. -/
  started : List ℕ
  /-- Not part of the program: the number of jobs whose notification was in a batch that a handler
  has left by an exception. -/
  lost : ℕ

namespace RunInMain

variable {ε α : Type}

def init (mode : NotificationMode) : RunInMain ε α :=
  ⟨Notifications.init mode, [], false, [], [], false, none, none, [], 0⟩

/-- The main thread runs code of the user: in a handler, or in another part of its loop. -/
def free (s : RunInMain ε α) : Bool :=
  s.calling.isNone && s.signalling.isNone && s.notifications.receiver.isNone &&
    (s.handling || s.batch.isEmpty)

/-- The first section of `run_in_main_dont_wait`.  The new call is the last one. -/
def addJob (s : RunInMain ε α) (waits byMain : Bool) : RunInMain ε α :=
  { s with
    jobs := s.jobs ++ [s.calls.length]
    calls := s.calls ++ [⟨waits, byMain, .notifying, .queued, none⟩]
    calling := if byMain then some s.calls.length else s.calling }

/-- `Lwt_unix.send_notification job_notification` -/
def notify (s : RunInMain ε α) (job : ℤ) (k : ℕ) (call : MainCall ε α) (written : Bool) :
    RunInMain ε α :=
  let caller : MainCaller ε α :=
    if s.notifications.wakes (.send job written) then (if call.waits then .getting else .left)
    else .raised
  { s with
    notifications := s.notifications.sendNotification job written
    calls := s.calls.set k { call with caller := caller }
    calling := if call.byMain && !caller.inside then none else s.calling }

/-- A turn of `await_value` in `CELL.get`. -/
def cellGet (s : RunInMain ε α) (k : ℕ) (call : MainCall ε α) : RunInMain ε α :=
  match call.cell with
  | none => { s with calls := s.calls.set k { call with caller := .waiting } }
  | some result =>
    { s with
      calls := s.calls.set k { call with caller := .returned result, cell := none }
      calling := if call.byMain then none else s.calling }

/-- The end of a job.  That of `run_in_main` has `CELL.set`, up to the end of its section. -/
def finish (s : RunInMain ε α) (k : ℕ) (call : MainCall ε α) (result : Except ε α) :
    RunInMain ε α :=
  if call.waits then
    { s with
      calls := s.calls.set k { call with job := .finished result, cell := some result }
      signalling := some k }
  else { s with calls := s.calls.set k { call with job := .finished result } }

/-- `Condition.signal`: at most one thread waits for the cell. -/
def signal (s : RunInMain ε α) (k : ℕ) (call : MainCall ε α) : RunInMain ε α :=
  { s with
    calls := if call.caller.isWaiting then s.calls.set k { call with caller := .woken } else s.calls
    signalling := none }

/-- The handler of `job_notification`, up to the call of the job.  If the queue is empty then
`Queue.take` raises an exception, with the mutex locked. -/
def takeJob (s : RunInMain ε α) (job : ℤ) : RunInMain ε α :=
  match s.jobs with
  | [] => { s with jobsMutex := true, batch := [], lost := s.lost + s.batch.count job }
  | k :: jobs =>
    { s with
      jobs := jobs
      calls := s.calls.modify k fun call => { call with job := .started }
      handling := true
      started := s.started ++ [k] }

/-- The next id of the batch.  What the handlers of other notifications do is left open. -/
def handle (s : RunInMain ε α) (job id : ℤ) (batch : List ℤ) : RunInMain ε α :=
  if id = job then { s with batch := batch }.takeJob job
  else { s with batch := batch, handling := true }

/-- A step of `recv_notifications`.  The batch is what it returns. -/
def receive (s : RunInMain ε α) (n : Notifications) : RunInMain ε α :=
  { s with
    notifications := n
    batch := (n.received.drop s.notifications.received.length).flatten }

end RunInMain

inductive RunInMainStep (ε α : Type)
  /-- `run_in_main` or `run_in_main_dont_wait` is called, by the main thread or by another one -/
  | call (waits byMain : Bool)
  | notify (k : ℕ) (written : Bool)
  | get (k : ℕ)
  /-- a wake-up without a signal -/
  | wake (k : ℕ)
  /-- another notification -/
  | send (id : ℤ) (written : Bool)
  | receive (a : NotificationStep)
  | handle
  /-- the handler returns -/
  | handled
  /-- the handler raises an exception, which leaves `handle_notifications` -/
  | raised
  | finish (k : ℕ) (result : Except ε α)
  | signal

/-- `job` is the id of `job_notification`. -/
def runInMainStep {ε α : Type} (job : ℤ) (s : RunInMain ε α) :
    RunInMainStep ε α → Option (RunInMain ε α)
  | .call waits byMain =>
    if !s.jobsMutex && (!byMain || s.free) then some (s.addJob waits byMain) else none
  | .notify k written =>
    s.calls[k]?.bind fun call =>
      if call.caller.isNotifying then some (s.notify job k call written) else none
  | .get k =>
    s.calls[k]?.bind fun call =>
      match call.caller with
      | .getting | .woken => some (s.cellGet k call)
      | _ => none
  | .wake k =>
    s.calls[k]?.bind fun call =>
      if call.caller.isWaiting then
        some { s with calls := s.calls.set k { call with caller := .woken } }
      else none
  | .send id written =>
    if id = job then none
    else some { s with notifications := s.notifications.sendNotification id written }
  | .receive a =>
    if s.calling.isNone && s.signalling.isNone && !s.handling && s.batch.isEmpty then
      match a with
      | .recv | .recvFails | .allocated => (notificationStep s.notifications a).map s.receive
      | .send _ _ | .fork _ => none
    else none
  | .handle =>
    if s.calling.isNone && s.signalling.isNone && !s.handling then
      match s.batch with
      | [] => none
      | id :: batch => if id = job && s.jobsMutex then none else some (s.handle job id batch)
    else none
  | .handled =>
    if s.calling.isNone && s.signalling.isNone && s.handling then
      some { s with handling := false }
    else none
  | .raised =>
    if s.calling.isNone && s.signalling.isNone && s.handling then
      some { s with handling := false, batch := [], lost := s.lost + s.batch.count job }
    else none
  | .finish k result =>
    s.calls[k]?.bind fun call =>
      match call.job with
      | .started => if s.free then some (s.finish k call result) else none
      | _ => none
  | .signal =>
    s.signalling.bind fun k => s.calls[k]?.map fun call => s.signal k call

namespace Notifications

variable {s t : Notifications} {id : ℤ} {written : Bool}

/-- The ids that have been sent and not received. -/
def contents (s : Notifications) : List ℤ := s.notifications.take s.notificationIndex

theorem sent_sendNotification (s : Notifications) (id : ℤ) (written : Bool) :
    (s.sendNotification id written).sent = s.sent ++ [id] ∧
      (s.sendNotification id written).received = s.received ∧
      (s.sendNotification id written).receiver = s.receiver := by
  unfold sendNotification
  split
  · split <;> exact ⟨rfl, rfl, rfl⟩
  · cases written <;> exact ⟨rfl, rfl, rfl⟩

theorem contents_sendNotification (h : s.Valid) (id : ℤ) (written : Bool) :
    (s.sendNotification id written).contents = s.contents ++ [id] := by
  obtain ⟨hsent, hreceived, -⟩ := sent_sendNotification s id written
  have horder := (h.sendNotification id written).inOrder
  rw [InOrder, hsent, hreceived, ← h.inOrder, List.append_assoc] at horder
  exact List.append_cancel_left horder

/-- What is received is taken out of the buffer. -/
theorem received_step {a : NotificationStep} (h : s.Valid)
    (ha : a = .recv ∨ a = .recvFails ∨ a = .allocated) (hstep : notificationStep s a = some t) :
    (t.received.drop s.received.length).flatten ++ t.contents = s.contents := by
  have hboth : t.sent = s.sent ∧ ∃ new, t.received = s.received ++ new := by
    rcases ha with rfl | rfl | rfl
    · obtain ⟨-, rfl⟩ : (s.receiver = none ∧ 0 < s.wakeups) ∧
          { s.notificationRecv with receiver := some s.notificationIndex } = t := by
        simpa [notificationStep] using hstep
      unfold notificationRecv
      split <;> exact ⟨rfl, [], (List.append_nil _).symm⟩
    · obtain ⟨-, rfl⟩ : s.receiver = none ∧ s = t := by simpa [notificationStep] using hstep
      exact ⟨rfl, [], (List.append_nil _).symm⟩
    · simp only [notificationStep] at hstep
      split at hstep
      · cases hstep
      · split at hstep
        · cases hstep
          exact ⟨rfl, _, rfl⟩
        · cases hstep
          exact ⟨rfl, [], (List.append_nil _).symm⟩
  obtain ⟨hsent, new, hnew⟩ := hboth
  have horder := (valid_step h hstep).inOrder
  rw [InOrder, hsent, hnew, ← h.inOrder, List.flatten_append, List.append_assoc] at horder
  rw [hnew, List.drop_left]
  exact List.append_cancel_left horder

end Notifications

namespace RunInMain

variable {ε α : Type} {job : ℤ} {s t : RunInMain ε α} {k : ℕ} {call : MainCall ε α}

/-! ## Calls -/

/-- The result of the job is in the cell until the caller takes it, and the caller sleeps only as
long as it will be signalled. -/
structure Served (calling signalling : Prop) (call : MainCall ε α) : Prop where
  returned : ∀ result, call.caller = .returned result →
    call.waits = true ∧ call.byMain = false ∧ call.job = .finished result
  stored : ∀ result, call.cell = some result → call.job = .finished result
  kept : ∀ result, call.job = .finished result → call.waits = true →
    call.cell = some result ∨ call.caller = .returned result
  asleep : call.caller.isWaiting = true → call.cell ≠ none → signalling
  gets : call.caller.inside = true → call.caller.isNotifying = false → call.waits = true
  main : call.byMain = true → call.caller.inside = true → calling ∧ call.job = .queued

theorem Served.mono {calling calling' signalling signalling' : Prop}
    (h : Served calling signalling call) (hcalling : calling → calling')
    (hsignalling : signalling → signalling') : Served calling' signalling' call :=
  ⟨h.returned, h.stored, h.kept, fun hw hc => hsignalling (h.asleep hw hc), h.gets,
    fun hm hi => (h.main hm hi).imp_left hcalling⟩

/-- The calls, with what the main thread is at. -/
structure Calls (s : RunInMain ε α) : Prop where
  served : ∀ k call, s.calls[k]? = some call →
    Served (s.calling = some k) (s.signalling = some k) call
  calling : ∀ k, s.calling = some k →
    ∃ call, s.calls[k]? = some call ∧ call.byMain = true ∧ call.caller.inside = true
  signalling : ∀ k, s.signalling = some k → k < s.calls.length

theorem Calls.congr (h : s.Calls) (hcalls : t.calls = s.calls) (hcalling : t.calling = s.calling)
    (hsignalling : t.signalling = s.signalling) : t.Calls := by
  refine ⟨?_, ?_, ?_⟩
  · rw [hcalls, hcalling, hsignalling]
    exact h.served
  · rw [hcalls, hcalling]
    exact h.calling
  · rw [hcalls, hsignalling]
    exact h.signalling

/-- One call changes, and the main thread goes on with this call or stays at what it is at. -/
theorem Calls.set (h : s.Calls) (hk : s.calls[k]? = some call) (call' : MainCall ε α)
    (hcalls : t.calls = s.calls.set k call')
    (hserved : Served (t.calling = some k) (t.signalling = some k) call')
    (hcalling : ∀ i, i ≠ k → (t.calling = some i ↔ s.calling = some i))
    (hsignalling : ∀ i, i ≠ k → (t.signalling = some i ↔ s.signalling = some i))
    (hinside : t.calling = some k → call'.byMain = true ∧ call'.caller.inside = true) :
    t.Calls := by
  refine ⟨fun i c hi => ?_, fun i hi => ?_, fun i hi => ?_⟩
  · rw [hcalls] at hi
    rcases getElem?_set_cases hi with ⟨rfl, rfl⟩ | ⟨hne, hold⟩
    · exact hserved
    · exact (h.served i c hold).mono (hcalling i hne).mpr (hsignalling i hne).mpr
  · rw [hcalls]
    by_cases hne : i = k
    · subst hne
      exact ⟨call', List.getElem?_set_self (List.getElem?_eq_some_iff.mp hk).1, hinside hi⟩
    · obtain ⟨c, hc, hin⟩ := h.calling i ((hcalling i hne).mp hi)
      exact ⟨c, by rw [List.getElem?_set_ne (Ne.symm hne)]; exact hc, hin⟩
  · rw [hcalls, List.length_set]
    by_cases hne : i = k
    · exact hne ▸ (List.getElem?_eq_some_iff.mp hk).1
    · exact h.signalling i ((hsignalling i hne).mp hi)

theorem Calls.addJob (h : s.Calls) (waits byMain : Bool)
    (hcalling : byMain = true → s.calling = none) : (s.addJob waits byMain).Calls := by
  have hlt : ∀ i, s.calling = some i → i < s.calls.length := fun i hi => by
    obtain ⟨c, hc, -⟩ := h.calling i hi
    exact (List.getElem?_eq_some_iff.mp hc).1
  refine ⟨fun i c hi => ?_, fun i hi => ?_, fun i hi => ?_⟩
  · rcases getElem?_append_cases hi with hold | ⟨rfl, rfl⟩
    · refine (h.served i c hold).mono (fun hcall => ?_) id
      cases byMain with
      | false => exact hcall
      | true =>
        rw [hcalling rfl] at hcall
        cases hcall
    · refine ⟨nofun, nofun, nofun, nofun, nofun, fun hmain _ => ⟨?_, rfl⟩⟩
      exact if_pos hmain
  · cases byMain with
    | false =>
      obtain ⟨c, hc, hin⟩ := h.calling i hi
      exact ⟨c, (List.getElem?_append_left (hlt i hi)).trans hc, hin⟩
    | true =>
      obtain rfl : s.calls.length = i := Option.some.inj hi
      exact ⟨_, List.getElem?_concat_length, rfl, rfl⟩
  · have hlt := h.signalling i hi
    simp only [RunInMain.addJob, List.length_append]
    omega

theorem Calls.notify (h : s.Calls) (hk : s.calls[k]? = some call)
    (hnotifying : call.caller.isNotifying = true) (written : Bool) :
    (s.notify job k call written).Calls := by
  have hserved := h.served k call hk
  have hcaller : call.caller = .notifying := by
    cases hcall : call.caller <;> simp [hcall, MainCaller.isNotifying] at hnotifying ⊢
  have hnot : ∀ i, i ≠ k → call.byMain = true → s.calling ≠ some i := fun i hne hmain hi =>
    hne (Option.some.inj (hi.symm.trans (hserved.main hmain (by rw [hcaller]; rfl)).1))
  obtain ⟨caller, hnew⟩ : ∃ caller, caller = if s.notifications.wakes (.send job written) then
    (if call.waits then .getting else .left) else (.raised : MainCaller ε α) := ⟨_, rfl⟩
  -- the caller goes on to the cell, returns, or raises when the write fails
  have hcases : caller = .getting ∧ call.waits = true ∨ caller = .left ∨ caller = .raised := by
    rw [hnew]
    split
    · split
      · exact .inl ⟨rfl, ‹_›⟩
      · exact .inr (.inl rfl)
    · exact .inr (.inr rfl)
  have hcalling : (s.notify job k call written).calling =
      if call.byMain && !caller.inside then none else s.calling := by rw [hnew]; rfl
  refine h.set hk { call with caller := caller } (by rw [hnew]; rfl) ?_ ?_
    (fun _ _ => Iff.rfl) ?_
  · refine ⟨?_, hserved.stored, ?_, ?_, ?_, ?_⟩
    · rintro result rfl
      simp at hcases
    · intro result hjob hwaits
      refine (hserved.kept result hjob hwaits).imp_right fun hr => ?_
      rw [hcaller] at hr
      cases hr
    · intro hwaiting
      rcases hcases with ⟨rfl, -⟩ | rfl | rfl <;> cases hwaiting
    · intro hinside _
      rcases hcases with ⟨-, hwaits⟩ | rfl | rfl
      · exact hwaits
      · cases hinside
      · cases hinside
    · intro hmain hinside
      obtain ⟨hcall, hjob⟩ := hserved.main hmain (by rw [hcaller]; rfl)
      rw [hcalling, if_neg (by simpa using fun _ => hinside)]
      exact ⟨hcall, hjob⟩
  · intro i hne
    rw [hcalling]
    split_ifs with hleft
    -- no other call is the one that the main thread was in
    · have hmain : call.byMain = true := (Bool.and_eq_true_iff.mp hleft).1
      exact iff_of_false nofun (hnot i hne hmain)
    · exact Iff.rfl
  · intro hcall
    rw [hcalling] at hcall
    split_ifs at hcall with hstays
    obtain ⟨c, hc, hmain, -⟩ := h.calling k hcall
    cases hk.symm.trans hc
    exact ⟨hmain, by simpa [hmain] using hstays⟩

theorem Calls.cellGet (h : s.Calls) (hk : s.calls[k]? = some call)
    (hget : call.caller = .getting ∨ call.caller = .woken) : (s.cellGet k call).Calls := by
  have hserved := h.served k call hk
  have hinside : call.caller.inside = true := by
    rcases hget with hcaller | hcaller <;> rw [hcaller] <;> rfl
  have hwaits : call.waits = true := hserved.gets hinside (by
    rcases hget with hcaller | hcaller <;> rw [hcaller] <;> rfl)
  unfold RunInMain.cellGet
  split
  case h_1 hcell =>
    refine h.set hk { call with caller := .waiting } rfl ?_ (fun _ _ => Iff.rfl)
      (fun _ _ => Iff.rfl) ?_
    · refine ⟨nofun, hserved.stored, ?_, fun _ hne => absurd hcell hne, fun _ _ => hwaits, ?_⟩
      · intro result hjob hw
        refine (hserved.kept result hjob hw).imp_right fun hr => ?_
        rw [hr] at hinside
        cases hinside
      · exact fun hmain _ => hserved.main hmain hinside
    · intro hcall
      obtain ⟨c, hc, hmain, -⟩ := h.calling k hcall
      cases hk.symm.trans hc
      exact ⟨hmain, rfl⟩
  case h_2 result hcell =>
    have hjob := hserved.stored result hcell
    have hother : call.byMain = false := by
      cases hmain : call.byMain with
      | false => rfl
      | true =>
        rw [(hserved.main hmain hinside).2] at hjob
        cases hjob
    refine h.set hk { call with caller := .returned result, cell := none } rfl ?_
      (fun _ _ => by simp [hother]) (fun _ _ => Iff.rfl) ?_
    · refine ⟨?_, nofun, ?_, nofun, nofun, nofun⟩
      · rintro r ⟨⟩
        exact ⟨hwaits, hother, hjob⟩
      · intro r hr _
        rw [hjob] at hr
        cases hr
        exact .inr rfl
    · intro hcall
      obtain ⟨c, hc, hmain, -⟩ := h.calling k (by simpa [hother] using hcall)
      cases hk.symm.trans hc
      rw [hother] at hmain
      cases hmain

theorem Calls.woken (h : s.Calls) (hk : s.calls[k]? = some call)
    (hwaiting : call.caller.isWaiting = true)
    (hcalls : t.calls = s.calls.set k { call with caller := .woken })
    (hcalling : t.calling = s.calling)
    (hsignalling : ∀ i, i ≠ k → (t.signalling = some i ↔ s.signalling = some i)) : t.Calls := by
  have hserved := h.served k call hk
  have hcaller : call.caller = .waiting := by
    cases hcall : call.caller <;> simp [hcall, MainCaller.isWaiting] at hwaiting ⊢
  have hinside : call.caller.inside = true := by rw [hcaller]; rfl
  refine h.set hk _ hcalls ?_ (fun _ _ => by rw [hcalling]) hsignalling ?_
  · refine ⟨nofun, hserved.stored, ?_, nofun, fun _ _ => ?_, fun hmain _ => ?_⟩
    · intro result hjob hwaits
      refine (hserved.kept result hjob hwaits).imp_right fun hr => ?_
      rw [hcaller] at hr
      cases hr
    · exact hserved.gets hinside (by rw [hcaller]; rfl)
    · rw [hcalling]
      exact hserved.main hmain hinside
  · intro hcall
    rw [hcalling] at hcall
    obtain ⟨c, hc, hmain, -⟩ := h.calling k hcall
    cases hk.symm.trans hc
    exact ⟨hmain, rfl⟩

theorem Calls.signal (h : s.Calls) (hk : s.calls[k]? = some call) (hs : s.signalling = some k) :
    (s.signal k call).Calls := by
  have hother : ∀ i, i ≠ k → ((none : Option ℕ) = some i ↔ s.signalling = some i) := fun i hne =>
    iff_of_false nofun fun hi => hne (Option.some.inj (hi.symm.trans hs))
  cases hwaiting : call.caller.isWaiting with
  | true => exact h.woken hk hwaiting (if_pos hwaiting) rfl hother
  | false =>
    have hset : s.calls.set k call = s.calls := by
      obtain ⟨hlt, rfl⟩ := List.getElem?_eq_some_iff.mp hk
      exact List.set_getElem_self hlt
    have hcalls : (s.signal k call).calls = s.calls.set k call :=
      (if_neg (by simp [hwaiting])).trans hset.symm
    have hserved := h.served k call hk
    refine h.set hk _ hcalls ⟨hserved.returned, hserved.stored, hserved.kept, ?_, hserved.gets,
      hserved.main⟩ (fun _ _ => Iff.rfl) hother fun hcall => ?_
    · rw [hwaiting]
      nofun
    · obtain ⟨c, hc, hin⟩ := h.calling k hcall
      cases hk.symm.trans hc
      exact hin

theorem Calls.finish (h : s.Calls) (hk : s.calls[k]? = some call) (hjob : call.job = .started)
    (hnone : s.calling = none) (hquiet : s.signalling = none) (result : Except ε α) :
    (s.finish k call result).Calls := by
  have hserved := h.served k call hk
  have hcell : call.cell = none := by
    cases hcell : call.cell with
    | none => rfl
    | some r =>
      have hdone := hserved.stored r hcell
      rw [hjob] at hdone
      cases hdone
  -- a call whose job has just been started has neither a result nor a caller inside
  have hout : call.byMain = true → call.caller.inside = true → False := fun hmain hinside => by
    have hqueued := (hserved.main hmain hinside).2
    rw [hjob] at hqueued
    cases hqueued
  have hreturned : ∀ r, call.caller ≠ .returned r := fun r hr => by
    have hdone := (hserved.returned r hr).2.2
    rw [hjob] at hdone
    cases hdone
  have hcalling : (s.finish k call result).calling = none := by
    unfold RunInMain.finish
    split <;> exact hnone
  have hidle : (s.finish k call result).calling ≠ some k := by
    rw [hcalling]
    nofun
  have hsame : ∀ i, i ≠ k → ((s.finish k call result).calling = some i ↔ s.calling = some i) := by
    intro i _
    rw [hcalling, hnone]
  unfold RunInMain.finish at *
  split at hidle
  -- the caller waits for the result: the job fills its cell
  case isTrue hwaits =>
    rw [if_pos hwaits] at hsame
    rw [if_pos hwaits]
    refine h.set hk { call with job := .finished result, cell := some result } rfl
      ⟨fun r hr => absurd hr (hreturned r), ?_, ?_, fun _ _ => rfl, hserved.gets,
        fun hm hi => (hout hm hi).elim⟩ hsame (fun i hne => ?_) fun hcall => absurd hcall hidle
    · rintro r ⟨⟩
      rfl
    · rintro r ⟨⟩ _
      exact .inl rfl
    · rw [hquiet]
      exact iff_of_false (fun hi => hne (Option.some.inj hi).symm) nofun
  case isFalse hwaits =>
    rw [if_neg hwaits] at hsame
    rw [if_neg hwaits]
    refine h.set hk { call with job := .finished result } rfl
      ⟨fun r hr => absurd hr (hreturned r), fun r hr => ?_, fun _ _ hw => absurd hw hwaits,
        fun _ hne => absurd hcell hne, hserved.gets, fun hm hi => (hout hm hi).elim⟩ hsame
      (fun _ _ => Iff.rfl) fun hcall => absurd hcall hidle
    rw [hcell] at hr
    cases hr

theorem Calls.start (h : s.Calls) (hk : s.calls[k]? = some call) (hjob : call.job = .queued)
    (hnone : s.calling = none) (hcalls : t.calls = s.calls.set k { call with job := .started })
    (hcalling : t.calling = none) (hsignalling : t.signalling = s.signalling) : t.Calls := by
  have hserved := h.served k call hk
  have hcell : call.cell = none := by
    cases hcell : call.cell with
    | none => rfl
    | some r =>
      have hdone := hserved.stored r hcell
      rw [hjob] at hdone
      cases hdone
  refine h.set hk _ hcalls ⟨fun r hr => ?_, fun r hr => ?_, nofun, fun _ hne => absurd hcell hne,
    hserved.gets, fun hm hi => ?_⟩ (fun i _ => by rw [hcalling, hnone])
    (fun i _ => by rw [hsignalling]) fun hcall => ?_
  · have hdone := (hserved.returned r hr).2.2
    rw [hjob] at hdone
    cases hdone
  · rw [hcell] at hr
    cases hr
  · have hcall := (hserved.main hm hi).1
    rw [hnone] at hcall
    cases hcall
  · rw [hcalling] at hcall
    cases hcall

/-! ## The queue -/

/-- The number of notifications that the call is yet to send. -/
def due (call : MainCall ε α) : ℕ := if call.caller.isNotifying then 1 else 0

theorem due_of_waiting (hwaiting : call.caller.isWaiting = true) : due call = 0 := by
  unfold due
  cases hcall : call.caller <;>
    simp [hcall, MainCaller.isWaiting, MainCaller.isNotifying] at hwaiting ⊢

/-- The queue has the jobs that have not been started, in order, and a notification is on its way
for each of them but those whose notification has been lost. -/
structure Queue (job : ℤ) (s : RunInMain ε α) : Prop where
  valid : s.notifications.Valid
  mutex : s.jobsMutex = false
  order : s.started ++ s.jobs = List.range s.calls.length
  queued : ∀ k call, s.calls[k]? = some call → (call.job = .queued ↔ k ∈ s.jobs)
  counted : s.jobs.length = Table.total due s.calls + s.notifications.contents.count job +
    s.batch.count job + s.lost

theorem Queue.congr (h : s.Queue job) (hvalid : t.notifications.Valid)
    (hmutex : t.jobsMutex = s.jobsMutex) (hstarted : t.started = s.started)
    (hjobs : t.jobs = s.jobs) (hcalls : t.calls = s.calls)
    (hcount : t.notifications.contents.count job + t.batch.count job + t.lost =
      s.notifications.contents.count job + s.batch.count job + s.lost) : t.Queue job := by
  refine ⟨hvalid, hmutex.trans h.mutex, ?_, ?_, ?_⟩
  · rw [hstarted, hjobs, hcalls]
    exact h.order
  · rw [hcalls, hjobs]
    exact h.queued
  · have hcounted := h.counted
    rw [hjobs, hcalls]
    omega

/-- One call changes, which stays in the queue or out of it. -/
theorem Queue.set (h : s.Queue job) (hk : s.calls[k]? = some call) (call' : MainCall ε α)
    (hcalls : t.calls = s.calls.set k call') (hqueued : call'.job = .queued ↔ call.job = .queued)
    (hvalid : t.notifications.Valid) (hmutex : t.jobsMutex = s.jobsMutex)
    (hstarted : t.started = s.started) (hjobs : t.jobs = s.jobs)
    (hcount : t.notifications.contents.count job + t.batch.count job + t.lost + due call' =
      s.notifications.contents.count job + s.batch.count job + s.lost + due call) :
    t.Queue job := by
  refine ⟨hvalid, hmutex.trans h.mutex, ?_, fun i c hi => ?_, ?_⟩
  · rw [hstarted, hjobs, hcalls, List.length_set]
    exact h.order
  · rw [hcalls] at hi
    rw [hjobs]
    rcases getElem?_set_cases hi with ⟨rfl, rfl⟩ | ⟨-, hold⟩
    · exact hqueued.trans (h.queued i call hk)
    · exact h.queued i c hold
  · have htotal := Table.total_set (f := due) (b := call') hk
    have hcounted := h.counted
    rw [hjobs, hcalls]
    omega

theorem Queue.addJob (h : s.Queue job) (waits byMain : Bool) :
    (s.addJob waits byMain).Queue job := by
  refine ⟨h.valid, h.mutex, ?_, fun i c hi => ?_, ?_⟩
  · simp only [RunInMain.addJob, List.length_append, List.length_singleton, List.range_succ]
    rw [← List.append_assoc, h.order]
  · have hjobs : ∀ j ∈ s.jobs, j < s.calls.length := fun j hj => by
      rw [← List.mem_range, ← h.order]
      exact List.mem_append_right _ hj
    simp only [RunInMain.addJob, List.mem_append, List.mem_singleton]
    rcases getElem?_append_cases hi with hold | ⟨rfl, rfl⟩
    · have hlt := (List.getElem?_eq_some_iff.mp hold).1
      exact (h.queued i c hold).trans (by simp [Nat.ne_of_lt hlt])
    · simp
  · have hcounted := h.counted
    simp only [RunInMain.addJob, List.length_append, List.length_singleton, Table.total_append,
      Table.total_cons, Table.total_nil, due, MainCaller.isNotifying]
    simp only [if_true]
    omega

theorem Queue.notify (h : s.Queue job) (hk : s.calls[k]? = some call)
    (hnotifying : call.caller.isNotifying = true) (written : Bool) :
    (s.notify job k call written).Queue job := by
  refine h.set hk _ rfl Iff.rfl (h.valid.sendNotification job written) rfl rfl rfl ?_
  have hcontents := Notifications.contents_sendNotification h.valid job written
  have hdue : due call = 1 := if_pos hnotifying
  simp only [RunInMain.notify, hcontents, List.count_append, List.count_singleton_self, hdue]
  simp only [due]
  split_ifs <;> simp [MainCaller.isNotifying] at * <;> omega

theorem Queue.takeJob (h : s.Queue job) {batch : List ℤ} (hbatch : s.batch = job :: batch) :
    ∃ k jobs call, s.jobs = k :: jobs ∧ s.calls[k]? = some call ∧ call.job = .queued ∧
      (s.handle job job batch).calls = s.calls.set k { call with job := .started } ∧
      (s.handle job job batch).Queue job := by
  have hcounted := h.counted
  rw [hbatch, List.count_cons_self] at hcounted
  -- each notification stands for a job in the queue
  obtain ⟨k, jobs, hjobs⟩ : ∃ k jobs, s.jobs = k :: jobs := by
    cases hjobs : s.jobs with
    | nil =>
      rw [hjobs, List.length_nil] at hcounted
      omega
    | cons k jobs => exact ⟨k, jobs, rfl⟩
  have hlt : k < s.calls.length := by
    rw [← List.mem_range, ← h.order, hjobs]
    exact List.mem_append_right _ List.mem_cons_self
  have hk : s.calls[k]? = some s.calls[k] := List.getElem?_eq_getElem hlt
  have hjob := (h.queued k _ hk).mpr (hjobs ▸ List.mem_cons_self)
  have hnot : k ∉ jobs := by
    have hnodup : (s.started ++ s.jobs).Nodup := h.order ▸ List.nodup_range
    rw [hjobs] at hnodup
    exact (List.nodup_cons.mp (List.nodup_append.mp hnodup).2.1).1
  have hcalls : (s.handle job job batch).calls =
      s.calls.set k { s.calls[k] with job := .started } := by
    simp only [handle, RunInMain.takeJob, if_pos, hjobs, List.modify_eq_set_getElem?, hk]
    rfl
  refine ⟨k, jobs, s.calls[k], hjobs, hk, hjob, hcalls, ?_⟩
  have hparts : (s.handle job job batch).jobs = jobs ∧
      (s.handle job job batch).started = s.started ++ [k] ∧
      (s.handle job job batch).batch = batch ∧
      (s.handle job job batch).notifications = s.notifications ∧
      (s.handle job job batch).jobsMutex = s.jobsMutex ∧
      (s.handle job job batch).lost = s.lost := by
    simp [handle, RunInMain.takeJob, hjobs]
  obtain ⟨hjobs', hstarted, hbatch', hnotifications, hmutex, hlost⟩ := hparts
  refine ⟨hnotifications ▸ h.valid, hmutex.trans h.mutex, ?_, fun i c hi => ?_, ?_⟩
  · rw [hjobs', hstarted, hcalls, List.length_set, List.append_assoc, List.singleton_append,
      ← hjobs]
    exact h.order
  · rw [hcalls] at hi
    rw [hjobs']
    rcases getElem?_set_cases hi with ⟨rfl, rfl⟩ | ⟨hne, hold⟩
    · exact iff_of_false nofun hnot
    · rw [h.queued i c hold, hjobs, List.mem_cons, or_iff_right hne]
  -- the start of a job changes nothing of what its caller has yet to send
  · have htotal := Table.total_set_of_eq (f := due)
      (b := { s.calls[k] with job := .started }) hk rfl
    rw [hjobs, List.length_cons] at hcounted
    rw [hjobs', hcalls, htotal, hbatch', hnotifications, hlost]
    omega

/-! ## A step -/

theorem idle_of_free (hfree : s.free = true) : s.calling = none ∧ s.signalling = none := by
  simp only [free, Bool.and_eq_true, Option.isNone_iff_eq_none] at hfree
  exact ⟨hfree.1.1.1, hfree.1.1.2⟩

theorem inv_init (mode : NotificationMode) :
    (init mode : RunInMain ε α).Calls ∧ (init mode : RunInMain ε α).Queue job := by
  refine ⟨⟨?_, ?_, ?_⟩, Notifications.valid_init mode, rfl, rfl, ?_, rfl⟩ <;> simp [init]

/-- What a step does. -/
inductive Stepped (job : ℤ) (s : RunInMain ε α) : RunInMainStep ε α → RunInMain ε α → Prop
  | call {waits byMain : Bool} (hmain : byMain = false ∨ s.free = true) :
      Stepped job s (.call waits byMain) (s.addJob waits byMain)
  | notify {k : ℕ} {call : MainCall ε α} {written : Bool} (hk : s.calls[k]? = some call)
      (hnotifying : call.caller.isNotifying = true) :
      Stepped job s (.notify k written) (s.notify job k call written)
  | get {k : ℕ} {call : MainCall ε α} (hk : s.calls[k]? = some call)
      (hcaller : call.caller = .getting ∨ call.caller = .woken) :
      Stepped job s (.get k) (s.cellGet k call)
  | wake {k : ℕ} {call : MainCall ε α} (hk : s.calls[k]? = some call)
      (hwaiting : call.caller.isWaiting = true) :
      Stepped job s (.wake k) { s with calls := s.calls.set k { call with caller := .woken } }
  | send {id : ℤ} {written : Bool} (hne : id ≠ job) :
      Stepped job s (.send id written)
        { s with notifications := s.notifications.sendNotification id written }
  | receive {a : NotificationStep} {n : Notifications}
      (ha : a = .recv ∨ a = .recvFails ∨ a = .allocated) (hbatch : s.batch = [])
      (hn : notificationStep s.notifications a = some n) :
      Stepped job s (.receive a) (s.receive n)
  | handle {id : ℤ} {batch : List ℤ} (hcalling : s.calling = none)
      (hbatch : s.batch = id :: batch) : Stepped job s .handle (s.handle job id batch)
  | handled : Stepped job s .handled { s with handling := false }
  | raised : Stepped job s .raised
      { s with handling := false, batch := [], lost := s.lost + s.batch.count job }
  | finish {k : ℕ} {call : MainCall ε α} {result : Except ε α} (hk : s.calls[k]? = some call)
      (hjob : call.job = .started) (hfree : s.free = true) :
      Stepped job s (.finish k result) (s.finish k call result)
  | signal {k : ℕ} {call : MainCall ε α} (hs : s.signalling = some k)
      (hk : s.calls[k]? = some call) : Stepped job s .signal (s.signal k call)

theorem step_cases {a : RunInMainStep ε α} (hstep : runInMainStep job s a = some t) :
    Stepped job s a t := by
  cases a with
  | call waits byMain =>
    obtain ⟨⟨-, hmain⟩, rfl⟩ : (s.jobsMutex = false ∧ (byMain = false ∨ s.free = true)) ∧
        s.addJob waits byMain = t := by
      simpa [runInMainStep] using hstep
    exact .call hmain
  | notify k written =>
    obtain ⟨call, hk, hnotifying, rfl⟩ : ∃ call, s.calls[k]? = some call ∧
        call.caller.isNotifying = true ∧ s.notify job k call written = t := by
      simpa [runInMainStep, Option.bind_eq_some_iff] using hstep
    exact .notify hk hnotifying
  | get k =>
    obtain ⟨call, hk, hget⟩ := Option.bind_eq_some_iff.mp hstep
    -- the cell is read by a call that was not blocked, or that was woken
    have hcases : (call.caller = .getting ∨ call.caller = .woken) ∧ s.cellGet k call = t := by
      cases hcaller : call.caller <;> simp [hcaller] at hget ⊢ <;> exact hget
    exact hcases.2 ▸ .get hk hcases.1
  | wake k =>
    obtain ⟨call, hk, hwaiting, rfl⟩ : ∃ call, s.calls[k]? = some call ∧
        call.caller.isWaiting = true ∧
        { s with calls := s.calls.set k { call with caller := .woken } } = t := by
      simpa [runInMainStep, Option.bind_eq_some_iff] using hstep
    exact .wake hk hwaiting
  | send id written =>
    obtain ⟨hne, rfl⟩ : id ≠ job ∧
        { s with notifications := s.notifications.sendNotification id written } = t := by
      simpa [runInMainStep] using hstep
    exact .send hne
  | receive a =>
    simp only [runInMainStep] at hstep
    split at hstep
    case isFalse => cases hstep
    case isTrue hidle =>
      have hbatch : s.batch = [] := by
        simpa using (Bool.and_eq_true_iff.mp hidle).2
      obtain ⟨ha, n, hn, rfl⟩ : (a = .recv ∨ a = .recvFails ∨ a = .allocated) ∧
          ∃ n, notificationStep s.notifications a = some n ∧ s.receive n = t := by
        cases a with
        | recv => exact ⟨.inl rfl, Option.map_eq_some_iff.mp hstep⟩
        | recvFails => exact ⟨.inr (.inl rfl), Option.map_eq_some_iff.mp hstep⟩
        | allocated => exact ⟨.inr (.inr rfl), Option.map_eq_some_iff.mp hstep⟩
        | send id written => cases hstep
        | fork mode => cases hstep
      exact .receive ha hbatch hn
  | handle =>
    simp only [runInMainStep] at hstep
    split at hstep
    case isFalse => cases hstep
    case isTrue hidle =>
      have hnone : s.calling = none := by
        simp only [Bool.and_eq_true, Option.isNone_iff_eq_none] at hidle
        exact hidle.1.1
      split at hstep
      · cases hstep
      · rename_i id batch hbatch
        -- a notification of `jobs` needs the mutex
        split at hstep
        · cases hstep
        · cases hstep
          exact .handle hnone hbatch
  | handled =>
    obtain ⟨-, rfl⟩ : _ ∧ { s with handling := false } = t := by
      simpa [runInMainStep] using hstep
    exact .handled
  | raised =>
    obtain ⟨-, rfl⟩ : _ ∧
        { s with handling := false, batch := [], lost := s.lost + s.batch.count job } = t := by
      simpa [runInMainStep] using hstep
    exact .raised
  | finish k result =>
    obtain ⟨call, hk, hfinish⟩ := Option.bind_eq_some_iff.mp hstep
    have hcases : call.job = .started ∧ s.free = true ∧ s.finish k call result = t := by
      cases hjob : call.job <;> simp [hjob] at hfinish
      exact ⟨rfl, hfinish⟩
    exact hcases.2.2 ▸ .finish hk hcases.1 hcases.2.1
  | signal =>
    obtain ⟨k, hs, call, hk, rfl⟩ : ∃ k, s.signalling = some k ∧
        ∃ call, s.calls[k]? = some call ∧ s.signal k call = t := by
      simpa [runInMainStep, Option.bind_eq_some_iff] using hstep
    exact .signal hs hk

theorem inv_step {a : RunInMainStep ε α} (hc : s.Calls) (hq : s.Queue job)
    (hstep : runInMainStep job s a = some t) : t.Calls ∧ t.Queue job := by
  cases step_cases hstep with
  | @call waits byMain hmain =>
    refine ⟨hc.addJob waits byMain fun htrue => ?_, hq.addJob waits byMain⟩
    rcases hmain with hfalse | hfree
    · rw [htrue] at hfalse
      cases hfalse
    · exact (idle_of_free hfree).1
  | notify hk hnotifying => exact ⟨hc.notify hk hnotifying _, hq.notify hk hnotifying _⟩
  | @get k call hk hcaller =>
    have hdue : due call = 0 := by
      rcases hcaller with hcaller | hcaller <;> simp [due, hcaller, MainCaller.isNotifying]
    refine ⟨hc.cellGet hk hcaller, ?_⟩
    unfold cellGet
    split
    · exact hq.set hk { call with caller := .waiting } rfl Iff.rfl hq.valid rfl rfl rfl
        (by rw [hdue]; rfl)
    · rename_i result _
      exact hq.set hk { call with caller := .returned result, cell := none } rfl
        Iff.rfl hq.valid rfl rfl rfl (by rw [hdue]; rfl)
  | wake hk hwaiting =>
    refine ⟨hc.woken hk hwaiting rfl rfl fun _ _ => Iff.rfl, ?_⟩
    exact hq.set hk _ rfl Iff.rfl hq.valid rfl rfl rfl (by rw [due_of_waiting hwaiting]; rfl)
  | @send id written hne =>
    refine ⟨hc.congr rfl rfl rfl,
      hq.congr (hq.valid.sendNotification id written) rfl rfl rfl rfl ?_⟩
    -- another id is not counted
    rw [Notifications.contents_sendNotification hq.valid, List.count_append,
      List.count_singleton, if_neg (by simpa using hne)]
    rfl
  | receive ha hbatch hn =>
    have hreceived := congrArg (List.count job) (Notifications.received_step hq.valid ha hn)
    rw [List.count_append] at hreceived
    refine ⟨hc.congr rfl rfl rfl,
      hq.congr (Notifications.valid_step hq.valid hn) rfl rfl rfl rfl ?_⟩
    simp only [receive, hbatch, List.count_nil]
    omega
  | @handle id batch hnone hbatch =>
    by_cases hid : id = job
    · subst hid
      obtain ⟨k, jobs, call, hjobs, hk, hjob, hcalls, hqueue⟩ := hq.takeJob hbatch
      refine ⟨hc.start hk hjob hnone hcalls ?_ ?_, hqueue⟩
      · simp [handle, RunInMain.takeJob, hjobs, hnone]
      · simp [handle, RunInMain.takeJob, hjobs]
    · rw [handle, if_neg hid]
      refine ⟨hc.congr rfl rfl rfl, hq.congr hq.valid rfl rfl rfl rfl ?_⟩
      rw [hbatch, List.count_cons_of_ne hid]
  | handled => exact ⟨hc.congr rfl rfl rfl, hq.congr hq.valid rfl rfl rfl rfl rfl⟩
  | raised =>
    -- the notifications of the batch that were not handled are lost
    refine ⟨hc.congr rfl rfl rfl, hq.congr hq.valid rfl rfl rfl rfl ?_⟩
    simp only [List.count_nil]
    omega
  | @finish k call result hk hjob hfree =>
    obtain ⟨hnone, hquiet⟩ := idle_of_free hfree
    refine ⟨hc.finish hk hjob hnone hquiet result, ?_⟩
    have hqueued : (MainJob.finished result : MainJob ε α) = .queued ↔ call.job = .queued := by
      rw [hjob]
      exact iff_of_false nofun nofun
    unfold finish
    split
    · exact hq.set hk { call with job := .finished result, cell := some result } rfl
        hqueued hq.valid rfl rfl rfl rfl
    · exact hq.set hk { call with job := .finished result } rfl hqueued hq.valid rfl
        rfl rfl rfl
  | signal hs hk =>
    refine ⟨hc.signal hk hs, ?_⟩
    unfold RunInMain.signal
    split
    · rename_i hwaiting
      exact hq.set hk _ rfl Iff.rfl hq.valid rfl rfl rfl (by rw [due_of_waiting hwaiting]; rfl)
    · exact hq.congr hq.valid rfl rfl rfl rfl rfl

/-! ## No job is left behind -/

/-- No wake-up is lost, and no handler raises. -/
def orderly (job : ℤ) (s : RunInMain ε α) : RunInMainStep ε α → Bool
  | .notify _ written => s.notifications.wakes (.send job written)
  | .send id written => s.notifications.wakes (.send id written)
  | .raised => false
  | _ => true

structure Prompt (s : RunInMain ε α) : Prop where
  watching : s.notifications.Watching
  lost : s.lost = 0

theorem prompt_init (mode : NotificationMode) : (init mode : RunInMain ε α).Prompt :=
  ⟨⟨rfl, fun hpos => absurd hpos (Nat.lt_irrefl 0)⟩, rfl⟩

theorem prompt_step {a : RunInMainStep ε α} (hq : s.Queue job) (h : s.Prompt)
    (ha : s.orderly job a = true) (hstep : runInMainStep job s a = some t) : t.Prompt := by
  cases step_cases hstep with
  | notify hk hnotifying =>
    refine ⟨h.watching.sendNotification job ?_, h.lost⟩
    simpa [orderly, Notifications.wakes] using ha
  | get hk hcaller =>
    unfold cellGet
    split <;> exact ⟨h.watching, h.lost⟩
  | @send id written hne =>
    refine ⟨h.watching.sendNotification id ?_, h.lost⟩
    simpa [orderly, Notifications.wakes] using ha
  | @receive b n hreceive hbatch hn =>
    have hwakes : s.notifications.wakes b = true := by
      rcases hreceive with rfl | rfl | rfl <;> rfl
    exact ⟨Notifications.watching_step h.watching hwakes hn, h.lost⟩
  | @handle id batch hnone hbatch =>
    by_cases hid : id = job
    · subst hid
      obtain ⟨k, jobs, call, hjobs, -⟩ := hq.takeJob hbatch
      have hparts : (s.handle id id batch).notifications = s.notifications ∧
          (s.handle id id batch).lost = s.lost := by
        simp [handle, RunInMain.takeJob, hjobs]
      exact ⟨hparts.1 ▸ h.watching, hparts.2.trans h.lost⟩
    · rw [handle, if_neg hid]
      exact ⟨h.watching, h.lost⟩
  | raised => cases ha
  | finish hk hjob hfree =>
    unfold finish
    split <;> exact ⟨h.watching, h.lost⟩
  | call _ | wake _ _ | handled | signal _ _ => exact ⟨h.watching, h.lost⟩

/-- What the threads have begun goes on, without new calls. -/
def proceeds : RunInMainStep ε α → Bool
  | .notify _ written => written
  | .receive _ | .handle | .handled | .signal => true
  | _ => false

theorem orderly_of_proceeds {a : RunInMainStep ε α} (ha : proceeds a = true) :
    s.orderly job a = true := by
  cases a with
  | notify k written => simp [orderly, Notifications.wakes, show written = true from ha]
  | raised => cases ha
  | send id written => cases ha
  | _ => rfl

/-- Allocating ends when nothing has been sent meanwhile. -/
def receiverRank (n : Notifications) : ℕ :=
  match n.receiver with
  | none => 0
  | some k => if k = n.notificationIndex then 1 else 2

/-- A bound for the number of steps that the threads can go on. -/
def rank (s : RunInMain ε α) : ℕ :=
  8 * Table.total due s.calls + 2 * s.notifications.wakeups +
    4 * s.notifications.contents.length + receiverRank s.notifications + 2 * s.batch.length +
    s.handling.toNat + s.signalling.isSome.toNat

theorem rank_sendNotification (n : Notifications) (id : ℤ) (written : Bool) :
    (n.sendNotification id written).wakeups ≤ n.wakeups + 1 ∧
      receiverRank (n.sendNotification id written) ≤ receiverRank n + 1 := by
  obtain ⟨-, -, hreceiver⟩ := Notifications.sent_sendNotification n id written
  refine ⟨?_, ?_⟩
  · unfold Notifications.sendNotification
    split
    · split <;> exact Nat.le_succ _
    · cases written
      · exact Nat.le_succ _
      · exact Nat.le_refl _
  · unfold receiverRank
    rw [hreceiver]
    split
    · exact Nat.zero_le _
    · split <;> split <;> omega

theorem rank_notify (h : s.Queue job) (hk : s.calls[k]? = some call)
    (hnotifying : call.caller.isNotifying = true) :
    (s.notify job k call true).rank < s.rank := by
  obtain ⟨hwakeups, hreceiver⟩ := rank_sendNotification s.notifications job true
  have hcontents := congrArg List.length (Notifications.contents_sendNotification h.valid job true)
  rw [List.length_append, List.length_singleton] at hcontents
  obtain ⟨caller, hcaller, hcalls⟩ : ∃ caller, MainCaller.isNotifying caller = false ∧
      (s.notify job k call true).calls = s.calls.set k { call with caller := caller } := by
    refine ⟨_, ?_, rfl⟩
    split
    · split <;> rfl
    · rfl
  have htotal := Table.total_set (f := due) (b := { call with caller := caller }) hk
  have hdue : due call = 1 := if_pos hnotifying
  have hdue' : due { call with caller := caller } = 0 := if_neg (by simp [hcaller])
  rw [hdue, hdue', ← hcalls] at htotal
  simp only [rank]
  simp only [RunInMain.notify] at htotal ⊢
  omega

theorem rank_receive {n : Notifications} {a : NotificationStep} (h : s.Queue job)
    (ha : a = .recv ∨ a = .allocated) (hn : notificationStep s.notifications a = some n)
    (hbatch : s.batch = []) : (s.receive n).rank < s.rank := by
  have hreceived := congrArg List.length (Notifications.received_step h.valid
    (ha.imp_right .inr) hn)
  rw [List.length_append] at hreceived
  simp only [rank, receive, hbatch, List.length_nil]
  rcases ha with rfl | rfl
  · obtain ⟨⟨-, hpos⟩, hrecv⟩ : (s.notifications.receiver = none ∧ 0 < s.notifications.wakeups) ∧
        { s.notifications.notificationRecv with
          receiver := some s.notifications.notificationIndex } = n := by
      simpa [notificationStep] using hn
    -- what is read leaves fewer wake-ups on the channel
    have hless : n.wakeups < s.notifications.wakeups := by
      rw [← hrecv]
      unfold Notifications.notificationRecv
      split
      · exact hpos
      · exact Nat.sub_lt hpos Nat.one_pos
      · exact Nat.sub_lt hpos Nat.one_pos
    have hrank : receiverRank n ≤ 1 := by
      have hindex : n.notificationIndex = s.notifications.notificationIndex := by
        rw [← hrecv]
        unfold Notifications.notificationRecv
        split <;> rfl
      have hreceiver : n.receiver = some s.notifications.notificationIndex := by rw [← hrecv]
      simp [receiverRank, hreceiver, hindex]
    omega
  · simp only [notificationStep] at hn
    split at hn
    · cases hn
    · rename_i current hcurrent
      split at hn
      case isTrue hsame =>
        cases hn
        have hrank : receiverRank s.notifications = 1 := by
          simp [receiverRank, hcurrent, hsame]
        have hrank' : receiverRank s.notifications.readAll = 0 := rfl
        have hwakeups : s.notifications.readAll.wakeups = s.notifications.wakeups := rfl
        omega
      -- something was sent meanwhile: another allocation
      case isFalse hother =>
        have hagain := Option.some.inj hn
        have hrank : receiverRank s.notifications = 2 := by
          simp [receiverRank, hcurrent, hother]
        have hrank' : receiverRank n = 1 := by
          rw [← hagain]
          exact if_pos rfl
        have hwakeups : n.wakeups = s.notifications.wakeups := by rw [← hagain]
        omega

theorem rank_handle {id : ℤ} {batch : List ℤ} (h : s.Queue job) (hbatch : s.batch = id :: batch)
    (hidle : s.handling = false) :
    (s.handle job id batch).rank < s.rank ∧ (s.handle job id batch).calling = s.calling ∧
      (s.handle job id batch).calls.length = s.calls.length := by
  by_cases hid : id = job
  · subst hid
    obtain ⟨k, jobs, call, hjobs, hk, -, hcalls, -⟩ := h.takeJob hbatch
    have htotal := Table.total_set_of_eq (f := due) (b := { call with job := .started }) hk rfl
    rw [← hcalls] at htotal
    refine ⟨?_, by simp [handle, RunInMain.takeJob, hjobs], by rw [hcalls, List.length_set]⟩
    have hparts : (s.handle id id batch).notifications = s.notifications ∧
        (s.handle id id batch).batch = batch ∧ (s.handle id id batch).handling = true ∧
        (s.handle id id batch).signalling = s.signalling := by
      simp [handle, RunInMain.takeJob, hjobs]
    obtain ⟨hnotifications, hbatch', hhandling, hsignalling⟩ := hparts
    simp only [rank, htotal, hnotifications, hbatch', hhandling, hsignalling, hbatch, hidle,
      List.length_cons, Bool.toNat_true, Bool.toNat_false]
    omega
  · rw [handle, if_neg hid]
    refine ⟨?_, rfl, rfl⟩
    simp only [rank, hbatch, hidle, List.length_cons, Bool.toNat_true, Bool.toNat_false]
    omega

theorem rank_signal (hk : s.calls[k]? = some call) (hsignalling : s.signalling = some k) :
    (s.signal k call).rank < s.rank ∧ (s.signal k call).calls.length = s.calls.length := by
  have hcalls : Table.total due (s.signal k call).calls = Table.total due s.calls ∧
      (s.signal k call).calls.length = s.calls.length := by
    unfold RunInMain.signal
    split
    case isTrue hwaiting =>
      refine ⟨Table.total_set_of_eq hk ?_, List.length_set⟩
      rw [due_of_waiting hwaiting]
      rfl
    case isFalse => exact ⟨rfl, rfl⟩
  refine ⟨?_, hcalls.2⟩
  simp only [rank, hcalls.1]
  simp [RunInMain.signal, hsignalling]

/-- As long as there is a job, and the main thread does not wait for one, a thread can go on. -/
theorem exists_proceeding (hc : s.Calls) (hq : s.Queue job) (hp : s.Prompt)
    (hmain : ∀ k call, s.calling = some k → s.calls[k]? = some call → call.waits = false)
    (hjobs : s.jobs ≠ []) :
    ∃ (a : RunInMainStep ε α) (t : RunInMain ε α), proceeds a = true ∧
      runInMainStep job s a = some t ∧ t.rank < s.rank ∧ t.calling = none ∧
      t.calls.length = s.calls.length := by
  cases hcalling : s.calling with
  | some k =>
    obtain ⟨call, hk, hby, hinside⟩ := hc.calling k hcalling
    have hwaits := hmain k call hcalling hk
    -- the main thread is inside a call and waits for nothing: it is to notify
    have hnotifying : call.caller.isNotifying = true := by
      by_contra hnot
      have hgets := (hc.served k call hk).gets hinside (by simpa using hnot)
      rw [hwaits] at hgets
      cases hgets
    refine ⟨.notify k true, _, rfl, by simp [runInMainStep, hk, hnotifying],
      rank_notify hq hk hnotifying, ?_, List.length_set⟩
    simp [RunInMain.notify, Notifications.wakes, hwaits, hby, MainCaller.inside]
  | none =>
    cases hsignalling : s.signalling with
    | some k =>
      have hlt := hc.signalling k hsignalling
      have hk : s.calls[k]? = some s.calls[k] := List.getElem?_eq_getElem hlt
      obtain ⟨hrank, hlength⟩ := rank_signal hk hsignalling
      exact ⟨.signal, s.signal k s.calls[k], rfl, by simp [runInMainStep, hsignalling, hlt],
        hrank, hcalling, hlength⟩
    | none =>
      cases hhandling : s.handling with
      | true =>
        refine ⟨.handled, { s with handling := false }, rfl,
          by simp [runInMainStep, hcalling, hsignalling, hhandling], ?_, hcalling, rfl⟩
        simp only [rank, hhandling, Bool.toNat_true, Bool.toNat_false]
        omega
      | false =>
        cases hbatch : s.batch with
        | cons id batch =>
          obtain ⟨hrank, hcall, hlength⟩ := rank_handle hq hbatch hhandling
          refine ⟨.handle, s.handle job id batch, rfl, ?_, hrank, hcall.trans hcalling,
            hlength⟩
          simp [runInMainStep, hcalling, hsignalling, hhandling, hbatch, hq.mutex]
        | nil =>
          -- nothing is left of the batch, so that the main thread receives again
          have hreceive : ∀ {a : NotificationStep} {n : Notifications},
              (a = .recv ∨ a = .allocated) →
              notificationStep s.notifications a = some n →
              runInMainStep job s (.receive a) = some (s.receive n) := by
            rintro a n (rfl | rfl) hn <;>
              simp [runInMainStep, hcalling, hsignalling, hhandling, hbatch, hn]
          cases hreceiver : s.notifications.receiver with
          | some current =>
            obtain ⟨n, hn⟩ : ∃ n,
                notificationStep s.notifications .allocated = some n := by
              simp only [notificationStep, hreceiver]
              split <;> exact ⟨_, rfl⟩
            exact ⟨.receive .allocated, _, rfl, hreceive (.inr rfl) hn,
              rank_receive hq (.inr rfl) hn hbatch, hcalling, rfl⟩
          | none =>
            by_cases hindex : s.notifications.notificationIndex = 0
            · -- nothing is in the buffer, so there is a notification yet to be sent
              obtain ⟨k, call, hk, hdue⟩ := Table.exists_of_total_ne_zero (f := due)
                (l := s.calls) (by
                  have hcounted := hq.counted
                  have hpos := List.length_pos_iff.mpr hjobs
                  simp only [Notifications.contents, hindex, hbatch, hp.lost,
                    List.take_zero, List.count_nil] at hcounted
                  omega)
              have hnotifying : call.caller.isNotifying = true := by
                by_contra hnot
                exact hdue (if_neg hnot)
              refine ⟨.notify k true, _, rfl, by simp [runInMainStep, hk, hnotifying],
                rank_notify hq hk hnotifying, ?_, List.length_set⟩
              simp [RunInMain.notify, hcalling]
            · have hwakeup := hp.watching.wakeup (Nat.pos_of_ne_zero hindex) hreceiver
              obtain ⟨n, hn⟩ : ∃ n, notificationStep s.notifications .recv = some n := by
                simp [notificationStep, hreceiver, hwakeup]
              exact ⟨.receive .recv, _, rfl, hreceive (.inl rfl) hn,
                rank_receive hq (.inl rfl) hn hbatch, hcalling, rfl⟩

/-- The threads go on until each job has been started. -/
theorem exists_drained (hc : s.Calls) (hq : s.Queue job) (hp : s.Prompt)
    (hmain : ∀ k call, s.calling = some k → s.calls[k]? = some call → call.waits = false) :
    ∃ t : RunInMain ε α, Reach (runInMainStep job) (fun _ a => proceeds a = true) s t ∧
      t.calls.length = s.calls.length ∧ t.started = List.range s.calls.length := by
  induction hrank : s.rank using Nat.strong_induction_on generalizing s with
  | h n ih =>
    by_cases hjobs : s.jobs = []
    · have horder := hq.order
      rw [hjobs, List.append_nil] at horder
      exact ⟨s, .refl, rfl, horder⟩
    · obtain ⟨a, u, ha, hstep, hless, hnone, hlength⟩ :=
        exists_proceeding hc hq hp hmain hjobs
      obtain ⟨hcu, hqu⟩ := inv_step hc hq hstep
      have hpu := prompt_step hq hp (orderly_of_proceeds ha) hstep
      obtain ⟨t, hreach, hlengtht, hstarted⟩ := ih u.rank (hrank ▸ hless) hcu hqu hpu
        (fun k call hcalling => by
          rw [hnone] at hcalling
          cases hcalling) rfl
      exact ⟨t, Reach.head a ha hstep hreach, hlengtht.trans hlength, hlength ▸ hstarted⟩

end RunInMain

open RunInMain

variable {ε α : Type} {job : ℤ} {mode : NotificationMode} {s : RunInMain ε α}

/-- In every run: the jobs are started in the order of the calls, each at most once; the queue is
not empty when a notification is handled; the jobs in the queue are as many as the notifications
that are yet to be sent, received and handled and those that have been lost by an exception of a
handler; a call that returns has the result of its own job, and is not one of the main thread; and
a thread whose job is done sleeps only until the main thread signals it, which it does next. -/
theorem main_jobs_are_served (hreach : Reach (runInMainStep job) (fun _ _ => True) (init mode) s) :
    s.started ++ s.jobs = List.range s.calls.length ∧
    (∀ batch, s.batch = job :: batch → s.jobs ≠ []) ∧
    s.jobs.length = Table.total due s.calls + s.notifications.contents.count job +
      s.batch.count job + s.lost ∧
    ∀ k call, s.calls[k]? = some call →
      (∀ result, call.caller = .returned result →
        call.byMain = false ∧ k ∈ s.started ∧ call.job = .finished result) ∧
      ∀ result, call.job = .finished result → call.caller = .waiting → s.signalling = some k := by
  obtain ⟨hc, hq⟩ : s.Calls ∧ s.Queue job :=
    hreach.invariant (P := fun s => s.Calls ∧ s.Queue job) (inv_init mode)
      fun _ _ _ h _ hstep => inv_step h.1 h.2 hstep
  refine ⟨hq.order, fun batch hbatch => ?_, hq.counted, fun k call hk => ⟨?_, ?_⟩⟩
  · obtain ⟨k, jobs, -, hjobs, -⟩ := hq.takeJob hbatch
    rw [hjobs]
    exact List.cons_ne_nil k jobs
  · intro result hreturned
    obtain ⟨-, hother, hjob⟩ := (hc.served k call hk).returned result hreturned
    have hlt := (List.getElem?_eq_some_iff.mp hk).1
    rw [← List.mem_range, ← hq.order, List.mem_append] at hlt
    refine ⟨hother, hlt.resolve_right fun hqueue => ?_, hjob⟩
    have hqueued := (hq.queued k call hk).mpr hqueue
    rw [hjob] at hqueued
    cases hqueued
  · intro result hjob hwaiting
    have hserved := hc.served k call hk
    have hwaits : call.waits = true := hserved.gets (by rw [hwaiting]; rfl) (by rw [hwaiting]; rfl)
    refine hserved.asleep (by rw [hwaiting]; rfl) ?_
    rcases hserved.kept result hjob hwaits with hcell | hreturned
    · rw [hcell]
      exact Option.some_ne_none result
    · rw [hwaiting] at hreturned
      cases hreturned

/-- The notification of the second thread comes first; the jobs are started in the order of the
calls all the same. -/
theorem main_jobs_are_served_crossed :
    ∃ s : RunInMain Unit ℕ, Reach (runInMainStep 1) (fun _ _ => True) (init .eventfd) s ∧
      s.started = [0, 1] ∧ (s.calls.map (·.cell)) = [none, some (.ok 8)] ∧
      s.started ++ s.jobs = List.range s.calls.length := by
  obtain ⟨s, hs⟩ : ∃ s : RunInMain Unit ℕ, replay (runInMainStep 1) (init .eventfd)
      [.call true false, .call true false, .notify 1 true, .receive .recv, .get 1, .notify 0 true,
        .receive .allocated, .receive .allocated, .handle, .finish 0 (.ok 7), .get 0, .signal,
        .handled, .handle, .finish 1 (.ok 8), .signal] = some s := ⟨_, rfl⟩
  have hreach := reach_of_replay _ hs
  obtain ⟨hstarted, hcells⟩ :
      s.started = [0, 1] ∧ s.calls.map (·.cell) = [none, some (.ok 8)] := by
    cases hs.symm.trans rfl
    exact ⟨rfl, rfl⟩
  exact ⟨s, hreach, hstarted, hcells, (main_jobs_are_served hreach).1⟩

/-- In every run in which no wake-up is lost and no handler raises an exception: unless the main
thread itself has called `run_in_main`, the threads can go on, without any new call, until the jobs
of all calls have been started. -/
theorem main_jobs_can_be_started
    (hreach : Reach (runInMainStep job) (fun s a => s.orderly job a = true) (init mode) s)
    (hmain : ∀ k call, s.calling = some k → s.calls[k]? = some call → call.waits = false) :
    ∃ t : RunInMain ε α, Reach (runInMainStep job) (fun _ a => proceeds a = true) s t ∧
      t.calls.length = s.calls.length ∧ t.started = List.range s.calls.length := by
  obtain ⟨⟨hc, hq⟩, hp⟩ : (s.Calls ∧ s.Queue job) ∧ s.Prompt :=
    hreach.invariant (P := fun s => (s.Calls ∧ s.Queue job) ∧ s.Prompt)
      ⟨inv_init mode, prompt_init mode⟩ fun _ _ _ h ha hstep =>
        ⟨inv_step h.1.1 h.1.2 hstep, prompt_step h.1.2 h.2 ha hstep⟩
  exact exists_drained hc hq hp hmain

/-- Two jobs, of which one has its notification in a batch, and another notification. -/
theorem main_jobs_can_be_started_two :
    ∃ s t : RunInMain Unit ℕ,
      Reach (runInMainStep 1) (fun s a => s.orderly 1 a = true) (init .pipe) s ∧
      s.started = [] ∧ Reach (runInMainStep 1) (fun _ a => proceeds a = true) s t ∧
      t.started = [0, 1] := by
  obtain ⟨s, hs⟩ : ∃ s : RunInMain Unit ℕ,
      replay (checked (runInMainStep 1) (orderly 1)) (init .pipe)
        [.call true false, .send 2 true, .notify 0 true, .receive .recv, .receive .allocated,
          .call false false, .handle] = some s := ⟨_, rfl⟩
  have hreach := reach_of_checked _ hs
  obtain ⟨hstarted, hlength, hcalling⟩ :
      s.started = [] ∧ s.calls.length = 2 ∧ s.calling = none := by
    cases hs.symm.trans rfl
    exact ⟨rfl, rfl, rfl⟩
  obtain ⟨t, ht, -, hall⟩ := main_jobs_can_be_started hreach fun k call hk => by
    rw [hcalling] at hk
    cases hk
  exact ⟨s, t, hreach, hstarted, ht, by rw [hall, hlength]; rfl⟩

end Lwt.Unix
