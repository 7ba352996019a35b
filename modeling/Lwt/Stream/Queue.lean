import Mathlib.Data.Int.Notation
import Lwt.Library.Transition

/-!
# `Lwt_stream`

A stream with its clones: the queue of nodes, the source that fills it and the reads under
way.  The nodes are numbered in the order of the queue: an element or an end marker is put in
the last node, which gets a new successor, and never changes afterwards, so that `data` lists the
nodes before the last one and `node.next` is the next number.

A read goes on when the promise it waits for is resolved, and its code is taken one turn of
its loop at a time.  Other reads, pushes and results of the source come between two turns: this
allows more orders than `lwt_stream.ml`, where a turn is left only to wait, to call the user's
function, or to run the callbacks of a promise that `feed` or `consume` resolves.
-/

namespace Lwt

variable {α : Type}

inductive Signal
  | sleeping
  | fulfilled
  | rejected
  deriving DecidableEq

/-- What has become of a `pushb_push_waiter`. -/
inductive PushWaiter
  /-- no `push` waits for it -/
  | unused
  | sleeping
  | fulfilled
  /-- rejected with `Canceled`; the handler of the `push` is yet to run -/
  | canceled
  /-- rejected, nothing is left to run -/
  | rejected
  deriving DecidableEq

/-- `push_bounded`, with the attribute `closed` of the object and the number of the current
`pushb_push_waiter`. -/
structure PushBounded (α : Type) where
  waiting : Bool
  size : ℤ
  count : ℤ
  pending : Option α
  closed : Bool
  pushWaiter : ℕ

inductive Source (α : Type)
  | fromCreate
  | fromDirect
  | push (waiting : Bool)
  | pushBounded (info : PushBounded α)

def Source.isFrom : Source α → Bool
  | .fromCreate => true
  | _ => false

def Source.isPushBounded : Source α → Bool
  | .pushBounded _ => true
  | _ => false

/-- What a call of the function of a `from` or `from_direct` gives, for a `from` at once or
later. -/
inductive Reply (α : Type)
  | later
  | gives (x : Option α)
  | raises

/-- The reads, with the arguments of the user. -/
inductive ReadOp (α : Type)
  | peek
  | isEmpty
  | get
  | next
  | nget (n : ℤ)
  | npeek (n : ℤ)
  | getWhile (f : α → Bool)
  | getWhileS (f : α → Bool)
  | toList
  | junk
  | njunk (n : ℤ)
  | getAvailable
  | getAvailableUpTo (n : ℤ)

/-- A call of one of the recursive functions behind the reads. -/
inductive Call (α : Type)
  | peekRec (node : ℕ)
  | isEmpty
  | getRec (node : ℕ)
  | nextRec (node : ℕ)
  | ngetRec (node : ℕ) (acc : List α) (n : ℤ)
  | npeekRec (node : ℕ) (acc : List α) (n : ℤ)
  | getWhileRec (node : ℕ) (acc : List α) (f : α → Bool)
  | getWhileSRec (node : ℕ) (acc : List α) (f : α → Bool)
  | toListRec (node : ℕ) (acc : List α)
  | junk (node : ℕ)
  /-- `junk` after `feed` -/
  | junkFed (node : ℕ)
  | njunkRec (node : ℕ) (n : ℤ)
  | getAvailableRec (node : ℕ) (acc : List α)
  | getAvailableUpToRec (node : ℕ) (acc : List α) (n : ℤ)

inductive Answer (α : Type)
  | option (x : Option α)
  | value (x : α)
  | list (l : List α)
  | bool (b : Bool)
  | unit

/-- Where a read stands. -/
inductive ReadStatus (α : Type)
  | running (call : Call α)
  | waiting (signal : ℕ) (call : Call α)
  /-- the user's predicate is given `x` by the call -/
  | testing (x : α) (call : Call α)
  | returned (a : Answer α)
  /-- ended with `Empty` -/
  | empty
  /-- ended with an exception of the source or of the predicate, or canceled -/
  | failed

/-- A read of the clone `reader`.  `start` and `taken` are not part of the program: the head of
the clone when the read began, and the elements that the read has passed since then. -/
structure Read (α : Type) where
  reader : ℕ
  op : ReadOp α
  start : ℕ
  taken : List α
  status : ReadStatus α

/-- A stream and its clones, the first of `nodes` being the head of the stream itself.  `signals`
holds the successive `from_thread`, `push_signal` or `pushb_signal`, of which `signal` is the
current one; `closing` counts the calls `push None` whose `wakeup close` is still to come. -/
structure Streams (α : Type) where
  data : List (Option α)
  nodes : List ℕ
  source : Source α
  closed : Bool
  closing : ℕ
  signals : List Signal
  signal : ℕ
  pushWaiters : List PushWaiter
  reads : List (Read α)

namespace Streams

/-- `from_source source`. -/
def fromSource (source : Source α) (signal : Signal) : Streams α :=
  ⟨[], [0], source, false, 0, [signal], 0, [.unused], []⟩

/-- `Lwt_stream.from`: the first `from_thread` is `return_unit`. -/
def «from» : Streams α := fromSource .fromCreate .fulfilled

def fromDirect : Streams α := fromSource .fromDirect .fulfilled

def create : Streams α := fromSource (.push false) .sleeping

/-- `create_bounded size`, for a size that is not negative. -/
def createBounded (size : ℤ) : Streams α :=
  fromSource (.pushBounded ⟨false, size, 0, none, false, 0⟩) .sleeping

/-- The node that `s.last` points to. -/
def last (m : Streams α) : ℕ := m.data.length

/-- `node.data`. -/
def nodeData (m : Streams α) (node : ℕ) : Option α := m.data[node]?.join

/-- The head `s.node` of a clone. -/
def node (m : Streams α) (reader : ℕ) : ℕ := (m.nodes[reader]?).getD m.last

def enqueue (m : Streams α) (x : Option α) : Streams α := { m with data := m.data ++ [x] }

def setSignal (m : Streams α) (k : ℕ) (signal : Signal) : Streams α :=
  { m with signals := m.signals.set k signal }

/-! ## The sources -/

/-- A result of the source: `enqueue x s; if x = None then Lwt.wakeup s.close ()`. -/
def addResult (m : Streams α) (x : Option α) : Streams α :=
  { m.enqueue x with closed := m.closed || x.isNone }

/-- `notify_pusher info last`. -/
def notifyPusher (m : Streams α) (info : PushBounded α) : Streams α :=
  { m.enqueue info.pending with
    source := .pushBounded { info with pending := none, pushWaiter := m.pushWaiters.length }
    pushWaiters := (m.pushWaiters.modify info.pushWaiter fun waiter =>
      if waiter = .sleeping then .fulfilled else waiter) ++ [.unused] }

/-- `consume s node`. -/
def consume (m : Streams α) (reader node : ℕ) : Streams α :=
  if node = m.node reader then
    let m := { m with nodes := m.nodes.set reader (node + 1) }
    match m.source with
    | .pushBounded info =>
      match info.pending with
      | none => { m with source := .pushBounded { info with count := info.count - 1 } }
      | some _ => m.notifyPusher info
    | _ => m
  else m

/-- What a reader finds after `feed s`. -/
inductive Fed
  | waits (signal : ℕ)
  | ready
  | fails

/-- The promise with the number `k`, seen by a reader. -/
def await (m : Streams α) (k : ℕ) : Fed :=
  match m.signals[k]? with
  | some .sleeping => .waits k
  | some .rejected => .fails
  | _ => .ready

/-- A new `from_thread`. -/
def addThread (m : Streams α) (signal : Signal) : Streams α :=
  { m with signals := m.signals ++ [signal], signal := m.signals.length }

/-- `feed s`; the reply is that of the function of the source, if it is called. -/
def feed (m : Streams α) (reply : Reply α) : Option (Streams α × Fed) :=
  match m.source with
  | .fromCreate =>
    if m.signals[m.signal]? = some .sleeping then some (m, .waits m.signal)
    else
      match reply with
      | .later => some (m.addThread .sleeping, .waits m.signals.length)
      | .gives x => some ((m.addResult x).addThread .fulfilled, .ready)
      | .raises => some (m.addThread .rejected, .fails)
  | .fromDirect =>
    match reply with
    | .later => none
    | .gives x => some (m.addResult x, .ready)
    | .raises => some (m, .fails)
  | .push _ => some ({ m with source := .push true }, m.await m.signal)
  | .pushBounded info =>
    some ({ m with source := .pushBounded { info with waiting := true } }, m.await m.signal)

/-- The thread `k` of a `from` ends: with a result, which is enqueued, or with an exception. -/
def result (m : Streams α) (k : ℕ) (reply : Reply α) : Option (Streams α) :=
  if m.source.isFrom ∧ m.signals[k]? = some .sleeping then
    match reply with
    | .later => none
    | .gives x => some ((m.addResult x).setSignal k .fulfilled)
    | .raises => some (m.setSignal k .rejected)
  else none

/-- The signal that an element has been received, and a new promise for the next signal. -/
def sendSignal (m : Streams α) : Streams α :=
  { m with
    signals := m.signals.set m.signal .fulfilled ++ [.sleeping]
    signal := m.signals.length }

/-- The push function of `create ()`; `none` if it raises `Closed`. -/
def push (m : Streams α) (x : Option α) : Option (Streams α) :=
  match m.source with
  | .push waiting =>
    if m.closed then none
    else
      let m := m.enqueue x
      let m := if waiting then { m.sendSignal with source := .push false } else m
      some { m with closing := m.closing + if x.isNone then 1 else 0 }
  | _ => none

/-- `if x = None then Lwt.wakeup close ()` at the end of a push. -/
def wakeupClose (m : Streams α) : Option (Streams α) :=
  if m.closing = 0 then none else some { m with closing := m.closing - 1, closed := true }

/-- The method `push`; `none` if it fails with `Closed` or `Full`. -/
def pushBounded (m : Streams α) (x : α) : Option (Streams α) :=
  match m.source with
  | .pushBounded info =>
    if info.closed || info.pending.isSome then none
    else if info.count ≥ info.size then
      some { m with
        source := .pushBounded { info with pending := some x }
        pushWaiters := m.pushWaiters.set info.pushWaiter .sleeping }
    else
      let m := m.enqueue (some x)
      let info := { info with count := info.count + 1 }
      if info.waiting then
        some { m.sendSignal with source := .pushBounded { info with waiting := false } }
      else some { m with source := .pushBounded info }
  | _ => none

/-- The method `resize`, for a size that is not negative. -/
def resize (m : Streams α) (size : ℤ) : Option (Streams α) :=
  match m.source with
  | .pushBounded info =>
    let info := { info with size := size }
    if info.count < info.size && info.pending.isSome then
      some (m.notifyPusher { info with count := info.count + 1 })
    else some { m with source := .pushBounded info }
  | _ => none

/-- The method `close`. -/
def closeBounded (m : Streams α) : Option (Streams α) :=
  match m.source with
  | .pushBounded info =>
    if info.closed then some m
    else
      let waiters := if info.pending.isSome then
          m.pushWaiters.modify info.pushWaiter fun waiter =>
            if waiter = .sleeping then .rejected else waiter
        else m.pushWaiters
      let m := { m.enqueue none with pushWaiters := waiters, closed := true }
      let m := if info.waiting then m.setSignal m.signal .fulfilled else m
      let info := { info with closed := true, pending := none, waiting := false }
      some { m with source := .pushBounded info }
  | _ => none

/-- A call of `Lwt.cancel` reaches the promise `j` that a `push` has returned. -/
def cancelPush (m : Streams α) (j : ℕ) : Option (Streams α) :=
  if m.pushWaiters[j]? = some .sleeping then
    some { m with pushWaiters := m.pushWaiters.set j .canceled }
  else none

/-- The handler of a canceled `push`. -/
def runPushCallbacks (m : Streams α) (j : ℕ) : Option (Streams α) :=
  match m.source with
  | .pushBounded info =>
    if m.pushWaiters[j]? = some .canceled then
      some { m with
        source := .pushBounded { info with pending := none, pushWaiter := m.pushWaiters.length }
        pushWaiters := m.pushWaiters.set j .rejected ++ [.unused] }
    else none
  | _ => none

end Streams

end Lwt
