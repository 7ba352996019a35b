import Lwt.Library.Transition
import Lwt.Sequence.Growing

/-!
# Actions on a file descriptor

One file descriptor of `lwt_unix.cppo.ml`: the actions that wait for it to become readable or
writable are hooks in two sequences, and an event of the engine is registered for each sequence
that is in use.  An action is tried again by `retry_syscall` when the event calls the hooks, and
`close` and `abort` call all the hooks so that `check_descriptor` makes them fail.

The callbacks on a promise are run when it is resolved, in the middle of an iteration over the
hooks, and may call any function on the descriptor again.  So what is under way is a stack, and the
code of the user runs when it is empty or a callback is on the top.  An action is a system call: it
returns or raises an exception, and does nothing else with the descriptor.

`Lwt.cancel` rejects the waiters of all the actions that it reaches before it runs a callback, so
the hook of a canceled action stays where it is until `register_action`'s callback of `on_cancel`
runs, and callbacks of the user may run before.
-/

namespace Lwt.Descriptor

open Transition

/-- `io_event` -/
inductive IoEvent
  | read
  | write
  deriving DecidableEq

/-- The exceptions; those of `Unix.Unix_error` are given by their codes. -/
inductive Exn
  | retry
  | retryRead
  | retryWrite
  | sysBlockedIo
  | eagain
  | ewouldblock
  | eintr
  | ebadf
  | outOfMemory
  | stackOverflow
  | other (n : ℕ)
  deriving DecidableEq

/-- `Lwt.Exception_filter.t` -/
inductive ExceptionFilter
  | handleAll
  | handleAllExceptRuntime

/-- `Lwt.Exception_filter.run e` -/
def ExceptionFilter.run : ExceptionFilter → Exn → Bool
  | .handleAll, _ => true
  | .handleAllExceptRuntime, .outOfMemory => false
  | .handleAllExceptRuntime, .stackOverflow => false
  | .handleAllExceptRuntime, _ => true

/-- `state` -/
inductive State
  | opened
  | closed
  | aborted (e : Exn)
  deriving DecidableEq

/-- The function `fun () -> retry_syscall node event ch wakener action` of an action. -/
structure Hook where
  action : ℕ
  event : IoEvent

inductive Waiter
  | pending
  | fulfilled
  | rejected (e : Exn)
  | canceled
  deriving DecidableEq

/-- A call of `register_action`: the reference `node`, the promise `waiter`, and the event of its
last hook; `canceling` if the waiter has been canceled and the callback of `on_cancel waiter` is
still to run. -/
structure Action where
  node : ℕ
  waiter : Waiter
  event : IoEvent
  canceling : Bool

/-- The hook of the action may be in its sequence. -/
def Action.live (a : Action) : Bool :=
  a.waiter = .pending || (a.waiter = .canceled && a.canceling)

/-- What is under way.  `curr` is the node of an iteration, and `called` tells that its function has
been called. -/
inductive Frame
  /-- the callback of an event, over the hooks of the event -/
  | iterate (event : IoEvent) (curr : ℕ) (called : Bool)
  /-- `clear_events`, over the hooks of the event; the first field is not part of the program: the
  number of the actions registered before -/
  | clear (since : ℕ) (event : IoEvent) (curr : ℕ) (called : Bool)
  /-- a callback on a promise of the descriptor -/
  | user
  /-- an exception that the exception filter refuses -/
  | raising
  deriving DecidableEq

/-- `event` is `event_readable` and `event_writable`, and `hooks` holds `hooks_readable` and
`hooks_writable`.  `registered` are the events that the engine has, `waiting` the calls of
`wrap_syscall` that wait for `blocking`, and `pauses` the callbacks of `stop_events` that are still
to run.  `runs` is not part of the program: how often an action has been executed. -/
structure FileDescr where
  state : State
  event : IoEvent → Option ℕ
  hooks : Sequences Hook
  registered : List (ℕ × IoEvent)
  nextEvent : ℕ
  actions : List Action
  waiting : List IoEvent
  pauses : ℕ
  runs : ℕ
  stack : List Frame

/-- The headers of `hooks_readable` and `hooks_writable`. -/
def header : IoEvent → ℕ
  | .read => 0
  | .write => 1

/-- `mk_ch fd` -/
def mkCh : FileDescr where
  state := .opened
  event _ := none
  hooks := Sequences.create (Sequences.create [])
  registered := []
  nextEvent := 0
  actions := []
  waiting := []
  pauses := 0
  runs := 0
  stack := []

/-- `check_descriptor ch` -/
def checkDescriptor : State → Except Exn Unit
  | .opened => .ok ()
  | .closed => .error .ebadf
  | .aborted e => .error e

/-- `outcome`; `escapes` is an exception that the filter refuses. -/
inductive Outcome
  | success
  | exn (e : Exn)
  | requeued (event : IoEvent)
  | escapes
  deriving DecidableEq

/-- What `retry_syscall` makes of the end of the action, or of `check_descriptor`. -/
def outcome (filter : ExceptionFilter) (event : IoEvent) : Except Exn Unit → Outcome
  | .ok () => .success
  | .error .retry => .requeued event
  | .error .eagain => .requeued event
  | .error .ewouldblock => .requeued event
  | .error .eintr => .requeued event
  | .error .sysBlockedIo => .requeued event
  | .error .retryRead => .requeued .read
  | .error .retryWrite => .requeued .write
  | .error e => if filter.run e then .exn e else .escapes

namespace FileDescr

/-- `Lwt_engine.stop_event` on the event, if there is one. -/
def stopEvent (ch : FileDescr) (event : IoEvent) : FileDescr :=
  match ch.event event with
  | some ev => { ch with
      event := Function.update ch.event event none
      registered := ch.registered.erase (ev, event) }
  | none => ch

/-- `stop_events ch`, up to the pause. -/
def stopEvents (ch : FileDescr) : FileDescr := { ch with pauses := ch.pauses + 1 }

/-- `stop_events ch` after the pause, for one of the events. -/
def stopUnused (ch : FileDescr) (event : IoEvent) : FileDescr :=
  if ch.hooks.isEmpty (header event) then ch.stopEvent event else ch

/-- `register_readable ch` and `register_writable ch` -/
def register (ch : FileDescr) (event : IoEvent) : FileDescr :=
  match ch.event event with
  | none => { ch with
      event := Function.update ch.event event (some ch.nextEvent)
      registered := ch.registered ++ [(ch.nextEvent, event)]
      nextEvent := ch.nextEvent + 1 }
  | some _ => ch

/-- `node := Lwt_sequence.add_r (fun () -> retry_syscall node event ch wakener action) hooks` -/
def addHook (ch : FileDescr) (i : ℕ) (event : IoEvent) : FileDescr :=
  { ch with
    hooks := ch.hooks.addR ⟨i, event⟩ (header event)
    actions := ch.actions.modify i fun a => { a with node := ch.hooks.length, event := event } }

/-- `Lwt_sequence.remove !node` -/
def removeHook (ch : FileDescr) (i : ℕ) : FileDescr :=
  match ch.actions[i]? with
  | some a => { ch with hooks := ch.hooks.remove a.node }
  | none => ch

def setWaiter (ch : FileDescr) (i : ℕ) (waiter : Waiter) : FileDescr :=
  { ch with actions := ch.actions.modify i fun a => { a with waiter := waiter } }

def push (ch : FileDescr) (frame : Frame) : FileDescr := { ch with stack := frame :: ch.stack }

/-- The hook is removed, and the waiter is resolved and its callbacks are run; `Lwt.wakeup` does
nothing if it has been canceled. -/
def finish (ch : FileDescr) (i : ℕ) (waiter : Waiter) : FileDescr :=
  let ch := (ch.removeHook i).stopEvents
  match ch.actions[i]?.map Action.waiter with
  | some .pending => (ch.setWaiter i waiter).push .user
  | _ => ch

/-- The action is executed. -/
def execute (ch : FileDescr) : FileDescr := { ch with runs := ch.runs + 1 }

/-- `retry_syscall node event ch wakener action`, from the result of the `try` on. -/
def retry (ch : FileDescr) (hook : Hook) : Outcome → FileDescr
  | .success => ch.finish hook.action .fulfilled
  | .exn e => ch.finish hook.action (.rejected e)
  | .requeued event =>
    if hook.event ≠ event then
      (((ch.removeHook hook.action).stopEvents).addHook hook.action event).register event
    else ch
  | .escapes => ch.push .raising

/-- `retry_syscall node event ch wakener action`, for an action that ends with `result` if it is
executed. -/
def retrySyscall (filter : ExceptionFilter) (ch : FileDescr) (hook : Hook)
    (result : Except Exn Unit) : FileDescr :=
  match checkDescriptor ch.state with
  | .ok () => ch.execute.retry hook (outcome filter hook.event result)
  | .error e => ch.retry hook (outcome filter hook.event (.error e))

/-- `register_action event ch action` -/
def registerAction (ch : FileDescr) (event : IoEvent) : FileDescr :=
  let ch' : FileDescr := { ch with actions := ch.actions ++ [⟨0, .pending, event, false⟩] }
  (ch'.addHook ch.actions.length event).register event

/-- `wrap_syscall event ch action`, when `blocking` is known; `none` if the descriptor is blocking
and not ready, and else how the action ends. -/
def syscall (filter : ExceptionFilter) (ch : FileDescr) (event : IoEvent) :
    Option (Except Exn Unit) → FileDescr
  | none => ch.registerAction event
  | some result =>
    match outcome filter event result with
    | .success => ch.execute
    | .exn _ => ch.execute
    | .requeued event => ch.execute.registerAction event
    | .escapes => ch.execute.push .raising

/-- `clear_events ch` is called. -/
def clearEvents (ch : FileDescr) : FileDescr :=
  ch.push (.clear ch.actions.length .read (ch.hooks.next (header .read)) false)

/-- `abort ch e` -/
def abort (ch : FileDescr) (e : Exn) : FileDescr :=
  if ch.state = .closed then ch else { ch with state := .aborted e }.clearEvents

/-- `close ch`, up to the job that closes the descriptor. -/
def close (ch : FileDescr) : FileDescr :=
  if ch.state = .closed then ch else { ch with state := .closed }.clearEvents

/-- The waiter of the action is rejected by `Lwt.cancel`. -/
def reject (ch : FileDescr) (i : ℕ) : FileDescr :=
  match ch.actions[i]?.map Action.waiter with
  | some .pending => { ch with
      actions := ch.actions.modify i fun a => { a with waiter := .canceled, canceling := true } }
  | _ => ch

/-- A call of `Lwt.cancel` that reaches the waiters of the actions `is`: they are rejected, and the
callbacks are run. -/
def cancel (ch : FileDescr) (is : List ℕ) : FileDescr := (is.foldl reject ch).push .user

/-- The callback of `on_cancel waiter`. -/
def cancelCallback (ch : FileDescr) (i : ℕ) : FileDescr :=
  let ch := (ch.removeHook i).stopEvents
  { ch with actions := ch.actions.modify i fun a => { a with canceling := false } }

/-- One turn of `iter_l` in the callback of an event. -/
def iterate (filter : ExceptionFilter) (ch : FileDescr) (event : IoEvent) (curr : ℕ) (called : Bool)
    (result : Except Exn Unit) : FileDescr :=
  if called then ch.push (.iterate event (ch.hooks.next curr) false)
  else if curr = header event then ch
  else if ch.hooks.active curr then
    match ch.hooks.data curr with
    | some hook => (ch.push (.iterate event curr true)).retrySyscall filter hook result
    | none => ch.push (.iterate event curr true)
  else ch.push (.iterate event curr true)

/-- One turn of `iter_node_l` in `clear_events`. -/
def clear (filter : ExceptionFilter) (ch : FileDescr) (since : ℕ) (event : IoEvent) (curr : ℕ)
    (called : Bool) (result : Except Exn Unit) : FileDescr :=
  if called then ch.push (.clear since event (ch.hooks.next curr) false)
  else if curr = header event then
    match event with
    | .read => ch.push (.clear since .write (ch.hooks.next (header .write)) false)
    | .write => (ch.stopEvent .read).stopEvent .write
  else if ch.hooks.active curr then
    match ch.hooks.data curr with
    | some hook =>
      ({ ch with hooks := ch.hooks.remove curr }.push (.clear since event curr true)).retrySyscall
        filter hook result
    | none => ch.push (.clear since event curr true)
  else ch.push (.clear since event curr true)

/-- The code of the user is running. -/
def userCode (ch : FileDescr) : Bool :=
  match ch.stack with
  | [] => true
  | frame :: _ => frame = .user

end FileDescr

/-- What can happen; the results are those of the actions that are executed. -/
inductive Op
  /-- the last argument is `none` if `blocking` is not known yet -/
  | wrapSyscall (event : IoEvent) (attempt : Option (Option (Except Exn Unit)))
  /-- `blocking` is known for the call of `wrap_syscall` at this place -/
  | resume (i : ℕ) (attempt : Option (Except Exn Unit))
  | registerAction (event : IoEvent)
  | cancel (is : List ℕ)
  /-- `Lwt.cancel` comes to the callback of the action -/
  | cancelCallback (i : ℕ)
  | close
  | abort (e : Exn)
  /-- the engine calls the callback of the event -/
  | ready (ev : ℕ) (event : IoEvent)
  /-- the pause of a call of `stop_events` ends -/
  | unpause
  /-- an iteration goes on -/
  | turn (result : Except Exn Unit)
  /-- a callback returns -/
  | leave
  /-- an exception goes through this number of frames -/
  | escape (n : ℕ)

open FileDescr

def step (filter : ExceptionFilter) (ch : FileDescr) : Op → Option FileDescr
  | .wrapSyscall event attempt =>
    if ch.userCode then
      match checkDescriptor ch.state with
      | .error _ => some ch
      | .ok () =>
        match attempt with
        | none => some { ch with waiting := ch.waiting ++ [event] }
        | some attempt => some (ch.syscall filter event attempt)
    else none
  | .resume i attempt =>
    match ch.waiting[i]? with
    | some event =>
      if ch.userCode then
        some ({ ch with waiting := ch.waiting.eraseIdx i }.syscall filter event attempt)
      else none
    | none => none
  | .registerAction event => if ch.userCode then some (ch.registerAction event) else none
  | .cancel is => if ch.userCode then some (ch.cancel is) else none
  | .cancelCallback i =>
    match ch.actions[i]? with
    | some a =>
      if ch.userCode ∧ a.waiter = .canceled ∧ a.canceling then some (ch.cancelCallback i)
      else none
    | none => none
  | .close => if ch.userCode then some ch.close else none
  | .abort e => if ch.userCode then some (ch.abort e) else none
  | .ready ev event =>
    if ch.userCode ∧ (ev, event) ∈ ch.registered then
      some (ch.push (.iterate event (ch.hooks.next (header event)) false))
    else none
  | .unpause =>
    if ch.userCode ∧ 0 < ch.pauses then
      some (({ ch with pauses := ch.pauses - 1 }.stopUnused .read).stopUnused .write)
    else none
  | .turn result =>
    match ch.stack with
    | .iterate event curr called :: stack =>
      some ({ ch with stack := stack }.iterate filter event curr called result)
    | .clear since event curr called :: stack =>
      some ({ ch with stack := stack }.clear filter since event curr called result)
    | _ => none
  | .leave =>
    match ch.stack with
    | .user :: stack => some { ch with stack := stack }
    | _ => none
  | .escape n =>
    match ch.stack with
    | .user :: _ | .raising :: _ =>
      if 0 < n ∧ { ch with stack := ch.stack.drop n }.userCode then
        some { ch with stack := ch.stack.drop n }
      else none
    | _ => none

/-! ## What a step does -/

variable {filter : ExceptionFilter} {ch ch' : FileDescr} {op : Op}

/-- The cases of `step`. -/
inductive Stepped (filter : ExceptionFilter) (ch : FileDescr) : Op → FileDescr → Prop
  | refused (event : IoEvent) (attempt : Option (Option (Except Exn Unit))) :
      Stepped filter ch (.wrapSyscall event attempt) ch
  | waits (event : IoEvent) (hopened : ch.state = .opened) :
      Stepped filter ch (.wrapSyscall event none) { ch with waiting := ch.waiting ++ [event] }
  | syscall (event : IoEvent) (attempt : Option (Except Exn Unit)) (hopened : ch.state = .opened)
      (hcode : ch.userCode = true) :
      Stepped filter ch (.wrapSyscall event (some attempt)) (ch.syscall filter event attempt)
  | resume (i : ℕ) (event : IoEvent) (attempt : Option (Except Exn Unit))
      (hcode : ch.userCode = true) :
      Stepped filter ch (.resume i attempt)
        ({ ch with waiting := ch.waiting.eraseIdx i }.syscall filter event attempt)
  | registerAction (event : IoEvent) (hcode : ch.userCode = true) :
      Stepped filter ch (.registerAction event) (ch.registerAction event)
  | cancel (is : List ℕ) (hcode : ch.userCode = true) :
      Stepped filter ch (.cancel is) (ch.cancel is)
  | cancelCallback (i : ℕ) (a : Action) (hcode : ch.userCode = true) (ha : ch.actions[i]? = some a)
      (hcanceled : a.waiter = .canceled) :
      Stepped filter ch (.cancelCallback i) (ch.cancelCallback i)
  | close (hcode : ch.userCode = true) : Stepped filter ch .close ch.close
  | abort (e : Exn) (hcode : ch.userCode = true) : Stepped filter ch (.abort e) (ch.abort e)
  | ready (ev : ℕ) (event : IoEvent) (hcode : ch.userCode = true) :
      Stepped filter ch (.ready ev event)
        (ch.push (.iterate event (ch.hooks.next (header event)) false))
  | unpause (hcode : ch.userCode = true) : Stepped filter ch .unpause
      (({ ch with pauses := ch.pauses - 1 }.stopUnused .read).stopUnused .write)
  | iterate (event : IoEvent) (curr : ℕ) (called : Bool) (stack : List Frame)
      (result : Except Exn Unit) (hstack : ch.stack = .iterate event curr called :: stack) :
      Stepped filter ch (.turn result)
        ({ ch with stack := stack }.iterate filter event curr called result)
  | clear (since : ℕ) (event : IoEvent) (curr : ℕ) (called : Bool) (stack : List Frame)
      (result : Except Exn Unit) (hstack : ch.stack = .clear since event curr called :: stack) :
      Stepped filter ch (.turn result)
        ({ ch with stack := stack }.clear filter since event curr called result)
  | leave (stack : List Frame) (hstack : ch.stack = .user :: stack) :
      Stepped filter ch .leave { ch with stack := stack }
  | escape (n : ℕ) (frame : Frame) (stack : List Frame) (hstack : ch.stack = frame :: stack)
      (hframe : frame = .user ∨ frame = .raising) :
      Stepped filter ch (.escape n) { ch with stack := ch.stack.drop n }

theorem opened_of_check {state : State} (h : checkDescriptor state = .ok ()) : state = .opened := by
  cases state with
  | opened => rfl
  | closed => cases h
  | aborted e => cases h

theorem step_cases (h : step filter ch op = some ch') : Stepped filter ch op ch' := by
  unfold step at h
  cases op with
  | wrapSyscall event attempt =>
    obtain ⟨hcode, h⟩ := Option.ite_none_right_eq_some.mp h
    split at h
    · cases h
      exact .refused event attempt
    · rename_i hcheck
      have hopened := opened_of_check hcheck
      -- the action is tried at once, or the call waits for `ch.blocking`
      split at h
      · cases h
        exact .waits event hopened
      · cases h
        exact .syscall event _ hopened hcode
  | resume i attempt =>
    simp only at h
    split at h
    · obtain ⟨hcode, h⟩ := Option.ite_none_right_eq_some.mp h
      cases h
      exact .resume i _ attempt hcode
    · cases h
  | registerAction event =>
    obtain ⟨hcode, h⟩ := Option.ite_none_right_eq_some.mp h
    cases h
    exact .registerAction event hcode
  | cancel is =>
    obtain ⟨hcode, h⟩ := Option.ite_none_right_eq_some.mp h
    cases h
    exact .cancel is hcode
  | cancelCallback i =>
    simp only at h
    split at h
    · rename_i a ha
      -- `Lwt.cancel` has rejected the waiter and comes to its callback
      obtain ⟨⟨hcode, hcanceled, -⟩, h⟩ := Option.ite_none_right_eq_some.mp h
      cases h
      exact .cancelCallback i a hcode ha hcanceled
    · cases h
  | close =>
    obtain ⟨hcode, h⟩ := Option.ite_none_right_eq_some.mp h
    cases h
    exact .close hcode
  | abort e =>
    obtain ⟨hcode, h⟩ := Option.ite_none_right_eq_some.mp h
    cases h
    exact .abort e hcode
  | ready ev event =>
    obtain ⟨⟨hcode, -⟩, h⟩ := Option.ite_none_right_eq_some.mp h
    cases h
    exact .ready ev event hcode
  | unpause =>
    obtain ⟨⟨hcode, -⟩, h⟩ := Option.ite_none_right_eq_some.mp h
    cases h
    exact .unpause hcode
  | turn result =>
    simp only at h
    split at h
    · rename_i event curr called stack hstack
      cases h
      exact .iterate event curr called stack result hstack
    · rename_i since event curr called stack hstack
      cases h
      exact .clear since event curr called stack result hstack
    · cases h
  | leave =>
    simp only at h
    split at h
    · rename_i stack hstack
      cases h
      exact .leave stack hstack
    · cases h
  | escape n =>
    simp only at h
    split at h
    · rename_i stack hstack
      obtain ⟨-, h⟩ := Option.ite_none_right_eq_some.mp h
      cases h
      exact .escape n .user stack hstack (.inl rfl)
    · rename_i stack hstack
      obtain ⟨-, h⟩ := Option.ite_none_right_eq_some.mp h
      cases h
      exact .escape n .raising stack hstack (.inr rfl)
    · cases h

end Lwt.Descriptor
