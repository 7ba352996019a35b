import Lwt.Library.Transition
import Lwt.Sequence.Prepending

/-!
# Waiting for child processes

`waitpid` and `wait4` of `lwt_unix.cppo.ml`.  Each call asks the system at once, with `WNOHANG`; if
there is nothing to report yet, the call is put into `wait_children`, and the handler of `SIGCHLD`
asks again for each of the calls that wait.  The callbacks of a call that returns are run in the
middle of this and may wait for other children or cancel calls.

The system is what is documented of `waitpid`: it reports a termination once, and any of the
children that have something to report may be the one.  A child does not change its process group.
-/

namespace Lwt.Children

open Transition

/-- How a process ends. -/
inductive Termination
  | wexited (code : ℕ)
  | wsignaled (signal : ℕ)
  deriving DecidableEq

/-- `Unix.process_status` -/
inductive ProcessStatus
  | terminated (termination : Termination)
  | wstopped (signal : ℕ)
  deriving DecidableEq

inductive ChildState
  | running
  /-- a zombie -/
  | terminated (termination : Termination)
  /-- reported to a call of `waitpid` or `wait4` -/
  | reaped (termination : Termination)
  /-- reported to a call outside `Lwt_unix` -/
  | taken
  deriving DecidableEq

/-- A child; `stopped` is a stop that has not been reported. -/
structure Child where
  pid : ℕ
  group : ℕ
  state : ChildState
  stopped : Option ℕ

/-- The arguments of `wait4`, without `WNOHANG`. -/
structure Request where
  pid : ℤ
  untraced : Bool

/-- What `do_wait4` returns: `(0, _, _)`, the status of a child, or the exception `ECHILD`. -/
inductive WaitResult
  | running
  | reported (child : ℕ) (status : ProcessStatus)
  | echild
  deriving DecidableEq

inductive CallState
  | pending
  | returned (result : WaitResult)
  | canceled

/-- A call of `waitpid` or `wait4`; `node` is its node in `wait_children`, if it has waited. -/
structure Call where
  request : Request
  node : ℕ
  state : CallState

/-- The handler of `SIGCHLD`: it has passed the node `curr`; `user` tells that the callbacks of the
call that has returned are running. -/
inductive Handler
  | idle
  | handling (curr : ℕ) (user : Bool)
  deriving DecidableEq

/-- `own` is the process group of the process itself, `waitChildren` is `wait_children`, with the
places of the calls, and `signaled` tells that a signal has not been handled yet. -/
structure Processes where
  own : ℕ
  children : List Child
  waitChildren : Sequences ℕ
  calls : List Call
  signaled : Bool
  handler : Handler

/-- The child can be waited for. -/
def Child.present (c : Child) : Bool :=
  match c.state with
  | .running | .terminated _ => true
  | _ => false

/-- What there is to report. -/
def Child.report (c : Child) (untraced : Bool) : Option ProcessStatus :=
  match c.state with
  | .running => if untraced then c.stopped.map .wstopped else none
  | .terminated termination => some (.terminated termination)
  | _ => none

/-- A report is made once. -/
def Child.reported (c : Child) : Child :=
  match c.state with
  | .terminated termination => { c with state := .reaped termination }
  | _ => { c with stopped := none }

/-- The children that a call of `waitpid` is about. -/
def Request.concerns (own : ℕ) (r : Request) (c : Child) : Bool :=
  if 0 < r.pid then (c.pid : ℤ) = r.pid
  else if r.pid = 0 then c.group = own
  else r.pid = -1 || (c.group : ℤ) = -r.pid

namespace Processes

def init (own : ℕ) : Processes where
  own := own
  children := []
  waitChildren := Sequences.create []
  calls := []
  signaled := false
  handler := .idle

/-- `do_wait4 (WNOHANG :: flags) pid`; `choice` is the child of which the status is reported. -/
def doWait4 (s : Processes) (r : Request) (choice : ℕ) : Option WaitResult :=
  if s.children.any fun c => c.present && r.concerns s.own c then
    if s.children.any fun c => r.concerns s.own c && (c.report r.untraced).isSome then
      match s.children[choice]? with
      | some c =>
        if r.concerns s.own c then (c.report r.untraced).map (.reported choice) else none
      | none => none
    else some .running
  else some .echild

/-- The system has answered. -/
def answered (s : Processes) : WaitResult → Processes
  | .reported child _ => { s with children := s.children.modify child Child.reported }
  | _ => s

def addCall (s : Processes) (call : Call) : Processes := { s with calls := s.calls ++ [call] }

def setCall (s : Processes) (i : ℕ) (state : CallState) : Processes :=
  { s with calls := s.calls.modify i fun call => { call with state := state } }

/-- `wait4 flags pid` and `waitpid flags pid`, where `nohang` tells whether `WNOHANG` is one of the
flags. -/
def wait4 (s : Processes) (nohang : Bool) (r : Request) (choice : ℕ) : Option Processes :=
  (s.doWait4 r choice).map fun result =>
    let s := s.answered result
    if result = .running ∧ nohang = false then
      { s with waitChildren := s.waitChildren.addL s.calls.length 0 }.addCall
        ⟨r, s.waitChildren.length, .pending⟩
    else s.addCall ⟨r, 0, .returned result⟩

/-- `cancel` on the promise of a call, with the function of `on_cancel`. -/
def cancel (s : Processes) (i : ℕ) : Processes :=
  match s.calls[i]? with
  | some ⟨_, node, .pending⟩ =>
    { s with waitChildren := s.waitChildren.remove node }.setCall i .canceled
  | _ => s

/-- The function of `iter_node_l`, on the node `curr` of the call at place `i`. -/
def handle (s : Processes) (curr i : ℕ) (r : Request) (choice : ℕ) : Option Processes :=
  (s.doWait4 r choice).map fun result =>
    if result = .running then { s with handler := .handling curr false }
    else
      let s := s.answered result
      { { s with waitChildren := s.waitChildren.remove curr }.setCall i (.returned result) with
        handler := .handling curr true }

/-- `iter_node_l` goes on from the node `curr`. -/
def turn (s : Processes) (curr : ℕ) (choice : ℕ) : Option Processes :=
  let next := s.waitChildren.next curr
  if next = 0 then some { s with handler := .idle }
  else if s.waitChildren.active next then
    match s.waitChildren.data next with
    | some i =>
      match s.calls[i]? with
      | some call => s.handle next i call.request choice
      | none => none
    | none => none
  else some { s with handler := .handling next false }

/-- The code of the user can run. -/
def userCode (s : Processes) : Bool :=
  match s.handler with
  | .idle => true
  | .handling _ user => user

def setChild (s : Processes) (k : ℕ) (c : Child) : Processes :=
  { s with children := s.children.set k c }

end Processes

/-- What can happen. -/
inductive Op
  | wait4 (nohang : Bool) (r : Request) (choice : ℕ)
  | cancel (i : ℕ)
  | fork (pid group : ℕ)
  | terminate (k : ℕ) (termination : Termination)
  | stop (k : ℕ) (signal : ℕ)
  | resume (k : ℕ)
  /-- a call of `waitpid` outside `Lwt_unix` -/
  | take (k : ℕ)
  /-- the handler of `SIGCHLD` is called -/
  | deliver
  /-- the handler goes on -/
  | turn (choice : ℕ)
  /-- the callbacks return to the handler -/
  | leave

open Processes

def step (s : Processes) : Op → Option Processes
  | .wait4 nohang r choice => if s.userCode then s.wait4 nohang r choice else none
  | .cancel i => if s.userCode then some (s.cancel i) else none
  | .fork pid group =>
    if s.userCode ∧ 0 < pid ∧ ∀ c ∈ s.children, c.present → c.pid ≠ pid then
      some { s with children := s.children ++ [⟨pid, group, .running, none⟩] }
    else none
  | .terminate k termination =>
    match s.children[k]? with
    | some c =>
      if c.state = .running then
        some { s.setChild k { c with state := .terminated termination } with signaled := true }
      else none
    | none => none
  | .stop k signal =>
    match s.children[k]? with
    | some c =>
      if c.state = .running then
        some { s.setChild k { c with stopped := some signal } with signaled := true }
      else none
    | none => none
  | .resume k =>
    match s.children[k]? with
    | some c =>
      if c.state = .running then
        some { s.setChild k { c with stopped := none } with signaled := true }
      else none
    | none => none
  | .take k =>
    match s.children[k]? with
    | some c =>
      match c.state with
      | .terminated _ => some (s.setChild k { c with state := .taken })
      | _ => none
    | none => none
  | .deliver =>
    if s.handler = .idle then some { s with handler := .handling 0 false, signaled := false }
    else none
  | .turn choice =>
    match s.handler with
    | .handling curr false => s.turn curr choice
    | _ => none
  | .leave =>
    match s.handler with
    | .handling curr true => some { s with handler := .handling curr false }
    | _ => none

/-! ## What a step does -/

variable {s s' : Processes} {op : Op}

/-- The cases of `step`. -/
inductive Stepped (s : Processes) : Op → Processes → Prop
  | returned (nohang : Bool) (r : Request) (choice : ℕ) (result : WaitResult)
      (hresult : s.doWait4 r choice = some result) (hcode : s.userCode = true) :
      Stepped s (.wait4 nohang r choice) ((s.answered result).addCall ⟨r, 0, .returned result⟩)
  | waits (r : Request) (choice : ℕ) (hresult : s.doWait4 r choice = some .running)
      (hcode : s.userCode = true) :
      Stepped s (.wait4 false r choice)
        ({ s with waitChildren := s.waitChildren.addL s.calls.length 0 }.addCall
          ⟨r, s.waitChildren.length, .pending⟩)
  | canceled (i : ℕ) (call : Call) (hcall : s.calls[i]? = some call)
      (hpending : call.state = .pending) (hcode : s.userCode = true) :
      Stepped s (.cancel i)
        ({ s with waitChildren := s.waitChildren.remove call.node }.setCall i .canceled)
  | resolved (i : ℕ) : Stepped s (.cancel i) s
  | fork (pid group : ℕ) : Stepped s (.fork pid group)
      { s with children := s.children ++ [⟨pid, group, .running, none⟩] }
  | terminate (k : ℕ) (termination : Termination) (c : Child) (hc : s.children[k]? = some c)
      (hrunning : c.state = .running) : Stepped s (.terminate k termination)
      { s.setChild k { c with state := .terminated termination } with signaled := true }
  | stop (k signal : ℕ) (c : Child) (hc : s.children[k]? = some c) (hrunning : c.state = .running) :
      Stepped s (.stop k signal)
        { s.setChild k { c with stopped := some signal } with signaled := true }
  | resume (k : ℕ) (c : Child) (hc : s.children[k]? = some c) (hrunning : c.state = .running) :
      Stepped s (.resume k) { s.setChild k { c with stopped := none } with signaled := true }
  | take (k : ℕ) (termination : Termination) (c : Child) (hc : s.children[k]? = some c)
      (hterminated : c.state = .terminated termination) :
      Stepped s (.take k) (s.setChild k { c with state := .taken })
  | deliver (hidle : s.handler = .idle) :
      Stepped s .deliver { s with handler := .handling 0 false, signaled := false }
  | ended (choice curr : ℕ) (hhandler : s.handler = .handling curr false)
      (hnext : s.waitChildren.next curr = 0) : Stepped s (.turn choice) { s with handler := .idle }
  | passed (choice curr : ℕ) (hhandler : s.handler = .handling curr false)
      (hnext : s.waitChildren.next curr ≠ 0)
      (hactive : s.waitChildren.active (s.waitChildren.next curr) = false) :
      Stepped s (.turn choice) { s with handler := .handling (s.waitChildren.next curr) false }
  | stillRunning (choice curr i : ℕ) (call : Call) (hhandler : s.handler = .handling curr false)
      (hnext : s.waitChildren.next curr ≠ 0)
      (hactive : s.waitChildren.active (s.waitChildren.next curr) = true)
      (hdata : s.waitChildren.data (s.waitChildren.next curr) = some i)
      (hcall : s.calls[i]? = some call) (hresult : s.doWait4 call.request choice = some .running) :
      Stepped s (.turn choice) { s with handler := .handling (s.waitChildren.next curr) false }
  | handled (choice curr i : ℕ) (call : Call) (result : WaitResult)
      (hhandler : s.handler = .handling curr false) (hnext : s.waitChildren.next curr ≠ 0)
      (hactive : s.waitChildren.active (s.waitChildren.next curr) = true)
      (hdata : s.waitChildren.data (s.waitChildren.next curr) = some i)
      (hcall : s.calls[i]? = some call) (hresult : s.doWait4 call.request choice = some result)
      (hne : result ≠ .running) :
      Stepped s (.turn choice)
        { { s.answered result with
              waitChildren := s.waitChildren.remove (s.waitChildren.next curr) }.setCall i
            (.returned result) with handler := .handling (s.waitChildren.next curr) true }
  | leave (curr : ℕ) (hhandler : s.handler = .handling curr true) :
      Stepped s .leave { s with handler := .handling curr false }

theorem Stepped.of_handle {curr choice i : ℕ} {call : Call}
    (hhandler : s.handler = .handling curr false)
    (hnext : s.waitChildren.next curr ≠ 0)
    (hactive : s.waitChildren.active (s.waitChildren.next curr) = true)
    (hdata : s.waitChildren.data (s.waitChildren.next curr) = some i)
    (hcall : s.calls[i]? = some call)
    (h : s.handle (s.waitChildren.next curr) i call.request choice = some s') :
    Stepped s (.turn choice) s' := by
  obtain ⟨result, hresult, rfl⟩ := Option.map_eq_some_iff.mp h
  split
  · rename_i hrunning
    subst hrunning
    exact .stillRunning choice curr i call hhandler hnext hactive hdata hcall hresult
  · rename_i hrunning
    have hanswered : (s.answered result).waitChildren = s.waitChildren := by
      cases result <;> rfl
    simp only [hanswered]
    exact .handled choice curr i call result hhandler hnext hactive hdata hcall hresult hrunning

theorem Stepped.of_turn {curr choice : ℕ} (hhandler : s.handler = .handling curr false)
    (h : s.turn curr choice = some s') : Stepped s (.turn choice) s' := by
  unfold turn at h
  simp only at h
  split at h
  · rename_i hnext
    cases h
    exact .ended choice curr hhandler hnext
  · rename_i hnext
    split at h
    · rename_i hactive
      split at h
      · rename_i i hdata
        split at h
        · rename_i call hcall
          exact .of_handle hhandler hnext hactive hdata hcall h
        · cases h
      · cases h
    · rename_i hactive
      cases h
      exact .passed choice curr hhandler hnext (by simpa using hactive)

theorem Stepped.of_wait4 {nohang : Bool} {r : Request} {choice : ℕ} (hcode : s.userCode = true)
    (h : s.wait4 nohang r choice = some s') : Stepped s (.wait4 nohang r choice) s' := by
  obtain ⟨result, hresult, rfl⟩ := Option.map_eq_some_iff.mp h
  simp only
  split
  · rename_i hwaits
    obtain ⟨rfl, rfl⟩ := hwaits
    exact .waits r choice hresult hcode
  · exact .returned nohang r choice result hresult hcode

theorem Stepped.of_cancel {i : ℕ} (hcode : s.userCode = true) :
    Stepped s (.cancel i) (s.cancel i) := by
  unfold Processes.cancel
  split
  · rename_i r node hcall
    exact .canceled i ⟨r, node, .pending⟩ hcall rfl hcode
  · exact .resolved i

theorem step_cases (h : step s op = some s') : Stepped s op s' := by
  unfold step at h
  cases op with
  | wait4 nohang r choice =>
    obtain ⟨hcode, h⟩ := Option.ite_none_right_eq_some.mp h
    exact .of_wait4 hcode h
  | cancel i =>
    obtain ⟨hcode, h⟩ := Option.ite_none_right_eq_some.mp h
    cases h
    exact .of_cancel hcode
  | fork pid group =>
    obtain ⟨-, h⟩ := Option.ite_none_right_eq_some.mp h
    cases h
    exact .fork pid group
  | terminate k termination =>
    simp only at h
    split at h
    · rename_i c hc
      obtain ⟨hrunning, h⟩ := Option.ite_none_right_eq_some.mp h
      cases h
      exact .terminate k termination c hc hrunning
    · cases h
  | stop k signal =>
    simp only at h
    split at h
    · rename_i c hc
      obtain ⟨hrunning, h⟩ := Option.ite_none_right_eq_some.mp h
      cases h
      exact .stop k signal c hc hrunning
    · cases h
  | resume k =>
    simp only at h
    split at h
    · rename_i c hc
      obtain ⟨hrunning, h⟩ := Option.ite_none_right_eq_some.mp h
      cases h
      exact .resume k c hc hrunning
    · cases h
  | take k =>
    simp only at h
    split at h
    · rename_i c hc
      split at h
      · rename_i termination hterminated
        cases h
        exact .take k termination c hc hterminated
      · cases h
    · cases h
  | deliver =>
    obtain ⟨hidle, h⟩ := Option.ite_none_right_eq_some.mp h
    cases h
    exact .deliver hidle
  | turn choice =>
    simp only at h
    split at h
    · rename_i curr hhandler
      exact .of_turn hhandler h
    · cases h
  | leave =>
    simp only at h
    split at h
    · rename_i curr hhandler
      cases h
      exact .leave curr hhandler
    · cases h

end Lwt.Children
