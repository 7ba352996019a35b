import Mathlib.Data.List.Basic
import Lwt.Library.Transition

/-!
# The locks of `Lwt_io`

A channel with its wrappers: the main one, and a temporary one for each atomic block.  The
operations on the channel, the blocks and the auto-flushers are tasks that are taken one step at a
time: a task waits in the queue of its wrapper, holds the wrapper, waits for the perform function,
or has ended.  The user's functions and the perform function are not modelled: an operation that
runs may write, call `perform_io` and end at any time.  A `direct_access` may also call `da_perform`
without waiting for the result; such a call is kept apart from the task, which goes on and may end
before the perform function returns.

The buffer is followed for output channels: `buffer` are the bytes up to `ptr`, `beyond` those after
it, `length` is the size.  An `assert false` that is reached and a `Lwt.wakeup_exn` that raises
`Invalid_argument` are noted in the state.  The fast paths of `read_char` and `read_char_opt` leave
everything that is modelled as it is.
-/

namespace Lwt.Io

inductive Mode
  | input
  | output
  deriving DecidableEq

/-- `Type_normal` and `Type_bytes`. -/
inductive Typ
  | normal
  | bytes
  deriving DecidableEq

inductive State
  | busyPrimitive
  | busyAtomic (tmp : ℕ)
  | waitingForBusy
  | idle
  | closed
  | invalid
  deriving DecidableEq

/-- A wrapper, with the tasks in `queued`. -/
structure Wrapper where
  state : State
  queued : List ℕ

inductive Kind
  | primitive
  | atomic
  | close
  | abort
  | autoFlush
  deriving DecidableEq

/-- The task holds its wrapper to run `safe_flush_total`. -/
def Kind.flushes : Kind → Bool
  | autoFlush | close => true
  | primitive | atomic | abort => false

/-- How a task ends. -/
inductive Outcome
  /-- with what the user's function gives or raises -/
  | returned
  /-- with the promise of `Lazy.force channel.close` -/
  | closeResult
  /-- with `Channel_closed` -/
  | closedChannel
  /-- with the failure of a temporary channel that is no more valid -/
  | invalidChannel
  | canceled
  | assertFalse
  | invalidArgument
  deriving DecidableEq

inductive Status
  /-- in the code of `primitive`, `atomic` or `close`, without the wrapper -/
  | called
  /-- an auto-flusher after `Lwt.pause ()` -/
  | paused
  | queued
  /-- taken from the queue and fulfilled; what follows in `primitive` or `atomic` is yet to run -/
  | woken
  /-- rejected with `Canceled` while it was queued; its callbacks are yet to run -/
  | canceled
  | running
  /-- `perform_io` waits for the perform function, which has been given `len` bytes -/
  | performing (len : ℕ)
  /-- `flush_total` has failed in `safe_flush_total` -/
  | flushFailed
  /-- an atomic block on the temporary wrapper `tmp` -/
  | block (tmp : ℕ)
  /-- a `close` that waits for `channel.close` -/
  | closing
  | ended (o : Outcome)
  deriving DecidableEq

/-- `da_perform` of a `direct_access` is not refused: its token is only taken away when its function
is fulfilled. -/
def Status.hasToken : Status → Bool
  | running | performing _ | ended .returned => true
  | _ => false

structure Task where
  kind : Kind
  wrapper : ℕ
  status : Status

/-- A `_channel`; the first of `wrappers` is the main one.  `aborted` tells whether `abort_waiter`
has been rejected.  `calls` are the calls of `da_perform` that wait for the perform function, each
with the task that it belongs to and the number of bytes that the function has been given.  The last
five fields are not part of the program: the number of calls of the perform function, the bytes that
have been put in the buffer and those that the perform function has taken, and what has gone
wrong. -/
structure Channel where
  typ : Typ
  mode : Mode
  length : ℕ
  wrappers : List Wrapper
  tasks : List Task
  autoFlushing : Bool
  aborted : Bool
  buffer : List UInt8
  beyond : List UInt8
  calls : List (ℕ × ℕ)
  performs : ℕ
  written : List UInt8
  flushed : List UInt8
  asserted : Bool
  invalidArgument : Bool

namespace Channel

/-- `make ~mode ~buffer`, and `of_bytes ~mode` for `Type_bytes`. -/
def make (typ : Typ) (mode : Mode) (length : ℕ) : Channel :=
  ⟨typ, mode, length, [⟨.idle, []⟩], [], decide (typ = .bytes), false, [], List.replicate length 0,
    [], 0, [], [], false, false⟩

def state (m : Channel) (w : ℕ) : State := (m.wrappers[w]?).elim .invalid (·.state)

def queued (m : Channel) (w : ℕ) : List ℕ := (m.wrappers[w]?).elim [] (·.queued)

def setState (m : Channel) (w : ℕ) (state : State) : Channel :=
  { m with wrappers := m.wrappers.modify w fun x => { x with state := state } }

def setQueued (m : Channel) (w : ℕ) (queued : List ℕ) : Channel :=
  { m with wrappers := m.wrappers.modify w fun x => { x with queued := queued } }

def setStatus (m : Channel) (i : ℕ) (status : Status) : Channel :=
  { m with tasks := m.tasks.modify i fun t => { t with status := status } }

/-- The task is moved to the wrapper `w`. -/
def setTask (m : Channel) (i w : ℕ) (status : Status) : Channel :=
  { m with tasks := m.tasks.modify i fun t => { t with wrapper := w, status := status } }

def addTask (m : Channel) (kind : Kind) (w : ℕ) (status : Status) : Channel :=
  { m with tasks := m.tasks ++ [⟨kind, w, status⟩] }

/-- A new wrapper, for an atomic block. -/
def addWrapper (m : Channel) : Channel := { m with wrappers := m.wrappers ++ [⟨.idle, []⟩] }

def isClosed (m : Channel) (w : ℕ) : Bool := decide (m.state w = .closed)

/-! ## Locking -/

/-- The wrapper that the loop of `deepest_wrapper` and `abort` comes to from `w`. -/
def deepestFrom (m : Channel) : ℕ → ℕ → ℕ
  | 0, w => w
  | fuel + 1, w =>
    match m.state w with
    | .busyAtomic tmp => m.deepestFrom fuel tmp
    | _ => w

/-- A temporary wrapper is later in the list than the one it was made for. -/
def deepestWrapper (m : Channel) (w : ℕ) : ℕ := m.deepestFrom m.wrappers.length w

/-- `Lwt.wakeup_later (Lwt_sequence.take_l wrapper.queued) ()`, if something is queued; this does
nothing to a task that is already canceled. -/
def wakeFirst (m : Channel) (w : ℕ) : Channel :=
  match m.queued w with
  | [] => m
  | j :: rest =>
    { m.setQueued w rest with tasks := m.tasks.modify j fun t =>
        if t.status = .queued then { t with status := .woken } else t }

/-- `ch.auto_flushing <- true; ignore (auto_flush ch)`. -/
def launchFlusher (m : Channel) : Channel :=
  { m.addTask .autoFlush 0 .paused with autoFlushing := true }

def unlock (m : Channel) (w : ℕ) : Channel :=
  match m.state w with
  | .busyPrimitive | .busyAtomic _ =>
    if m.queued w = [] then
      let m := m.setState w .idle
      if m.mode = .output ∧ m.autoFlushing = false then m.launchFlusher else m
    else (m.setState w .waitingForBusy).wakeFirst w
  | .closed | .invalid => m.wakeFirst w
  | .idle | .waitingForBusy => { m with asserted := true }

/-- `abort`, for the wrapper `w`. -/
def abort (m : Channel) (w : ℕ) : Channel × Outcome :=
  match m.state (m.deepestWrapper w) with
  | .closed => (m, .closeResult)
  | .invalid => (m, .invalidChannel)
  | _ =>
    let q := m.setState (m.deepestWrapper w) .closed
    if q.aborted then ({ q with invalidArgument := true }, .invalidArgument)
    else ({ q with aborted := true }, .closeResult)

/-- The end of a task that fails with `o`; the handler of `close` calls `abort`. -/
def fail (m : Channel) (i : ℕ) (kind : Kind) (o : Outcome) : Channel :=
  if kind = .close then (m.abort 0).1.setStatus i (.ended (m.abort 0).2)
  else m.setStatus i (.ended o)

/-- The task takes the wrapper `w`: the user's function is called, for an atomic block with a new
wrapper. -/
def enter (m : Channel) (i : ℕ) (kind : Kind) (w : ℕ) : Channel :=
  match kind with
  | .atomic =>
    let tmp := m.wrappers.length
    ((m.setState w (.busyAtomic tmp)).setStatus i (.block tmp)).addWrapper
  | _ => (m.setState w .busyPrimitive).setStatus i .running

/-- `primitive` and `atomic`, until they return or wait. -/
def call (m : Channel) (kind : Kind) (w : ℕ) : Channel :=
  let i := m.tasks.length
  match m.state w with
  | .idle => (m.addTask kind w .called).enter i kind w
  | .busyPrimitive | .busyAtomic _ | .waitingForBusy =>
    (m.addTask kind w .queued).setQueued w (m.queued w ++ [i])
  | .closed => (m.addTask kind w .called).fail i kind .closedChannel
  | .invalid => (m.addTask kind w .called).fail i kind .invalidChannel

/-- `primitive` and `atomic`, after they have waited in the queue. -/
def resume (m : Channel) (i : ℕ) (kind : Kind) (w : ℕ) : Channel :=
  match m.state w with
  | .closed => ((m.setStatus i .called).unlock w).fail i kind .closedChannel
  | .idle | .waitingForBusy => m.enter i kind w
  | .invalid => m.fail i kind .invalidChannel
  | .busyPrimitive | .busyAtomic _ => { m with asserted := true }.fail i kind .assertFalse

/-- `auto_flush`, after `Lwt.pause ()`. -/
def autoFlush (m : Channel) (i : ℕ) : Channel :=
  let w := m.deepestWrapper 0
  match m.state w with
  | .busyPrimitive | .waitingForBusy =>
    { m with autoFlushing := false }.setStatus i (.ended .returned)
  | .busyAtomic _ => { m with asserted := true }.setStatus i (.ended .assertFalse)
  | .idle =>
    { (m.setState w .busyPrimitive).setTask i w .running with autoFlushing := false }
  | .closed | .invalid => m.setStatus i (.ended .returned)

/-- `auto_flush`, after `safe_flush_total oc`. -/
def endFlush (m : Channel) (i w : ℕ) : Channel :=
  let m := m.setStatus i (.ended .returned)
  let m := if m.state w = .busyPrimitive then m.setState w .idle else m
  m.wakeFirst w

/-! ## The buffer -/

/-- Bytes are put in the buffer, at `ptr`. -/
def put (m : Channel) (data : List UInt8) : Channel :=
  { m with
    buffer := m.buffer ++ data
    beyond := m.beyond.drop data.length
    written := m.written ++ data }

/-- `resize_buffer`, after its flushes. -/
def resize (m : Channel) (length : ℕ) : Channel :=
  { m with length := length, beyond := List.replicate (length - m.buffer.length) 0 }

/-- `perform_io`, until it fails or waits for the perform function. -/
def performIoThen (m : Channel) (fails waits : Channel → Channel) : Channel :=
  match m.state 0 with
  | .closed | .invalid => fails m
  | .idle | .waitingForBusy => fails { m with asserted := true }
  | .busyPrimitive | .busyAtomic _ =>
    match m.typ with
    | .bytes => fails m
    | .normal =>
      let m := { m with performs := m.performs + 1 }
      if m.aborted then fails m else waits m

/-- The `perform_io` of a task has failed; a user's function may handle this. -/
def performFailed (m : Channel) (i : ℕ) (kind : Kind) : Channel :=
  m.setStatus i (if kind.flushes then .flushFailed else .running)

/-- A task calls `perform_io` and waits for it. -/
def performIo (m : Channel) (i : ℕ) (kind : Kind) : Channel :=
  m.performIoThen (·.performFailed i kind) fun m => m.setStatus i (.performing m.buffer.length)

/-- The function given to a `direct_access` has put `data` in the buffer, and calls `da_perform`. -/
def daPerform (m : Channel) (i : ℕ) (data : List UInt8) : Channel :=
  (m.put data).performIoThen id fun m => { m with calls := m.calls ++ [(i, m.buffer.length)] }

/-- The end of `perform_io`, when the perform function has been given `len` bytes and returns `n`:
the remaining data is shifted. -/
def shift (m : Channel) (len n : ℕ) : Channel :=
  match m.mode with
  | .input => m
  | .output =>
    let memory := m.buffer ++ m.beyond
    { m with
      flushed := m.flushed ++ memory.take n
      buffer := (memory.take len).drop n
      beyond := memory.drop (len - n) }

def performed (m : Channel) (i len n : ℕ) : Channel := (m.setStatus i .running).shift len n

/-- The call of `da_perform` with the number `k` is over. -/
def dropCall (m : Channel) (k : ℕ) : Channel := { m with calls := m.calls.eraseIdx k }

/-- The fast path of `write_char`. -/
def writeChar (m : Channel) (b : UInt8) : Channel :=
  let m := m.put [b]
  if m.autoFlushing then m else m.launchFlusher

/-! ## Whole tasks -/

/-- `close`, called on the main wrapper; on another one it fails and does nothing. -/
def close (m : Channel) : Channel :=
  match m.mode with
  | .input => (m.abort 0).1.addTask .close 0 (.ended (m.abort 0).2)
  | .output => m.call .close 0

/-- A `close` that holds the main wrapper calls `abort`, whose exceptions go to the handler. -/
def closes (m : Channel) (i w : ℕ) : Channel :=
  let o := (m.abort 0).2
  let q := (m.abort 0).1
  if o = .closeResult then q.setStatus i .closing
  else ((q.setStatus i .called).unlock w).fail i .close o

/-- The promise of `channel.close` is rejected. -/
def closeFails (m : Channel) (i w : ℕ) : Channel :=
  ((m.setStatus i .called).unlock w).fail i .close .closeResult

/-- A canceled task leaves the queue. -/
def runCanceled (m : Channel) (i : ℕ) (kind : Kind) (w : ℕ) : Channel :=
  (m.setQueued w ((m.queued w).erase i)).fail i kind .canceled

/-- The end of an atomic block. -/
def endBlock (m : Channel) (i w tmp : ℕ) : Channel :=
  ((m.setStatus i (.ended .returned)).setState tmp .invalid).unlock w

/-- `safe_flush_total` is over. -/
def flushOver (m : Channel) : Status → Bool
  | .running => m.buffer.isEmpty
  | .flushFailed => true
  | _ => false

/-- What a task that holds its wrapper does when it ends by itself. -/
def finish (m : Channel) (i : ℕ) (t : Task) : Option Channel :=
  match t.status, t.kind with
  | s, .autoFlush => if m.flushOver s = true then some (m.endFlush i t.wrapper) else none
  | .running, .primitive => some ((m.setStatus i (.ended .returned)).unlock t.wrapper)
  | .closing, _ => some ((m.setStatus i (.ended .closeResult)).unlock t.wrapper)
  | .block tmp, _ => some (m.endBlock i t.wrapper tmp)
  | _, _ => none

end Channel

/-- What happens on a channel. -/
inductive Step
  | primitive (w : ℕ)
  | atomic (w : ℕ)
  | close
  | abort (w : ℕ)
  /-- the fast path of `write_char` -/
  | writeChar (w : ℕ) (b : UInt8)
  /-- a task that was taken from the queue goes on -/
  | resume (i : ℕ)
  /-- a queued task is rejected by `Lwt.cancel`, and its callbacks run -/
  | cancel (i : ℕ)
  | runCanceled (i : ℕ)
  /-- a primitive operation puts a byte in the buffer, or changes the size of the buffer -/
  | write (i : ℕ) (b : UInt8)
  | resize (i length : ℕ)
  | performIo (i : ℕ)
  | performed (i n : ℕ)
  | performFails (i : ℕ)
  /-- the function given to a `direct_access` calls `da_perform`, after it has written `data` -/
  | daPerform (i : ℕ) (data : List UInt8)
  /-- the perform function returns to the `k`th call of `da_perform` that waits, or fails -/
  | daPerformed (k n : ℕ)
  | daFails (k : ℕ)
  /-- the pause of an auto-flusher is over -/
  | flush (i : ℕ)
  | closes (i : ℕ)
  | closeFails (i : ℕ)
  | finish (i : ℕ)

open Channel

/-- The step of the task `i`, if there is one. -/
def withTask (m : Channel) (i : ℕ) (f : Task → Option Channel) : Option Channel :=
  (m.tasks[i]?).bind f

def step (m : Channel) : Step → Option Channel
  | .primitive w => if w < m.wrappers.length then some (m.call .primitive w) else none
  | .atomic w => if w < m.wrappers.length then some (m.call .atomic w) else none
  | .close => some m.close
  | .abort w =>
    if w < m.wrappers.length then some ((m.abort w).1.addTask .abort w (.ended (m.abort w).2))
    else none
  | .writeChar w b =>
    if m.mode = .output ∧ m.state w = .idle ∧ m.buffer.length < m.length
    then some (m.writeChar b) else none
  | .resume i => withTask m i fun t =>
    if t.status = .woken then some (m.resume i t.kind t.wrapper) else none
  | .cancel i => withTask m i fun t =>
    if t.status = .queued then some (m.setStatus i .canceled) else none
  | .runCanceled i => withTask m i fun t =>
    if t.status = .canceled then some (m.runCanceled i t.kind t.wrapper) else none
  | .write i b => withTask m i fun t =>
    if t.status = .running ∧ t.kind = .primitive ∧ m.mode = .output ∧ m.buffer.length < m.length
    then some (m.put [b]) else none
  | .resize i length => withTask m i fun t =>
    if t.status = .running ∧ t.kind = .primitive ∧ m.typ = .normal ∧ m.buffer.length ≤ length
    then some (m.resize length) else none
  | .performIo i => withTask m i fun t =>
    if t.status = .running ∧ (t.kind.flushes = true → m.buffer ≠ [])
    then some (m.performIo i t.kind) else none
  | .performed i n => withTask m i fun t =>
    match t.status with
    | .performing len =>
      if m.mode = .output → n ≤ len then some (m.performed i len n) else none
    | _ => none
  | .performFails i => withTask m i fun t =>
    match t.status with
    | .performing _ => some (m.performFailed i t.kind)
    | _ => none
  | .daPerform i data => withTask m i fun t =>
    if t.kind = .primitive ∧ t.status.hasToken = true ∧ (m.mode = .input → data = []) ∧
        m.buffer.length + data.length ≤ m.length
    then some (m.daPerform i data) else none
  | .daPerformed k n => (m.calls[k]?).bind fun c =>
    if m.mode = .output → n ≤ c.2 then some ((m.dropCall k).shift c.2 n) else none
  | .daFails k => if k < m.calls.length then some (m.dropCall k) else none
  | .flush i => withTask m i fun t =>
    if t.status = .paused then some (m.autoFlush i) else none
  | .closes i => withTask m i fun t =>
    if t.kind = .close ∧ m.flushOver t.status = true then some (m.closes i t.wrapper) else none
  | .closeFails i => withTask m i fun t =>
    if t.status = .closing then some (m.closeFails i t.wrapper) else none
  | .finish i => withTask m i fun t => m.finish i t

end Lwt.Io
