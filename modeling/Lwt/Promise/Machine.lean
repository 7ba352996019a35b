import Lwt.Promise.PendingCallbacks
import Lwt.Sequence.Ring

/-!
# The machine: resolution loop, cancellation, composition

The functions of `lwt.ml` call user functions, which call the library again, to any
depth.  The machine makes the call stack explicit: a `Frame` is the rest of a library
function that waits for a call to return, and a configuration runs either user code or
the frame on top of its stack.  What the user code does is not part of the machine; the
next module lets it make any call at all.

`control` says what happens next.  `ret v` and `exn e` return a value or raise an
exception to the top frame.  `crash` is the state after `let Pending callbacks = p.state`
met a promise that is not pending: the compiled code does not check the tag, so nothing
can be said about what follows.
-/

namespace Lwt

variable (U : Type)

/-- Where the user code stands: at the start of a function, or after a call of its own
with its outcome.  The machine keeps the point of return `u` for the user. -/
inductive UserState
  | start (f : U) (argument : Val U)
  | resume (u : U) (outcome : Except (Exn U) (Val U))

inductive Control
  | user (s : UserState U)
  | ret (v : Val U)
  | exn (e : Exn U)
  | crash

/-- Ghost record of what happened, for the statements about runs. -/
inductive Event
  | attached (node : Node U)
  | called (node : Node U) (r : Result U)
  | cellCalled (cell : ℕ) (r : Result U)
  | cancelAttached (mark : Mark)
  | cancelCalled (mark : Mark)
  | cancelRequested (p : Pid)
  | recordRun (p : Pid) (r : Result U)
  | resolved (p : Pid) (r : Result U)
  | applied (f : U) (argument : Val U)
  deriving DecidableEq

/-- The combinators that attach one callback to one promise.  `catch'`, `tryBind`,
`dontWait` and `async` stand for their part after `f ()` has given a promise. -/
inductive Combinator
  | bind (f : U)
  | map (f : U)
  | catch' (h : U)
  | tryBind (f' h : U)
  | noCancel
  | onSuccess (f : U)
  | onFailure (f : U)
  | onTermination (f : U)
  | onAny (f g : U)
  | dontWait (h : U)
  | async
  | ignoreResult
  deriving DecidableEq

/-- What a combinator does at once with a promise that is already resolved. -/
inductive Immediate
  /-- tail call of the user function, without a guard -/
  | call (f : U)
  /-- a new promise with the outcome of `f` -/
  | map (f : U)
  /-- a new promise with the same result -/
  | forward
  /-- the underlying promise -/
  | underlying
  /-- the promise given -/
  | given
  | observe (o : Observe U)
  | reraise

/-- The rest of a library function, waiting for a call to return. -/
inductive Frame
  /-- user code that made a call -/
  | user (u : U)
  /-- `try f v with exn when Exception_filter.run exn -> fail exn` -/
  | guardFail
  /-- the part of a combinator after its promise is known -/
  | attach (k : Combinator U)
  /-- `make_into_proxy ~outer_promise:(underlying p'') ~user_provided_promise` -/
  | proxyInto (target : Pid)
  /-- `try Fulfilled (f v) with exn -> Rejected exn`, then `resolve (underlying p'')` -/
  | resolveWith (target : Pid)
  /-- the same in `map` of a fulfilled promise: a new promise -/
  | allocWith
  /-- `handle_with_async_exception_hook` -/
  | hooked
  /-- `run_callbacks callbacks result`; `p` is ghost, the promise of the record -/
  | runCallbacks (p : Pid) (callbacks : Callbacks U) (r : Result U)
  | runCancelCallbacks (todo : List (CancelCallbackList U))
  | runRegularCallbacks (todo : List (RegularCallbackList U)) (r : Result U)
  /-- `leave_resolution_loop storage_snapshot` -/
  | leaveResolutionLoop (snapshot : Storage U)
  /-- the `while` of `leave_resolution_loop` and what follows it -/
  | drain (snapshot : Storage U)
  /-- `cancel_and_collect_callbacks` over the promises of `todo` -/
  | propagateCancel (todo : List Pid) (collected : List (Pid × Callbacks U))
  /-- `cancel` after its propagation phase -/
  | runRecords (records : List (Pid × Callbacks U))
  /-- `List.iter cancel ps` -/
  | iterCancel (ps : List Pid)
  /-- `resolve (underlying p) result` -/
  | resolveUnderlying (target : Pid) (r : Result U)
  /-- `resolve p result` -/
  | resolveExact (p : Pid) (r : Result U)
  /-- `nth_resolved_and_cancel_pending ps n` -/
  | nthResolvedAndCancelPending (ps : List Pid) (n : ℕ)
  /-- `nth_resolved ps n` -/
  | nthResolved (ps : List Pid) (n : ℕ)
  | returnPromise (p : Pid)
  /-- `to_public_promise {state = result}` -/
  | allocResult (r : Result U)
  /-- `with_value` around its function -/
  | withValue (savedStorage : Storage U)
  /-- `Lwt_sequence.iter_l (fun r -> wakeup r ()) tmp` at the node `curr` -/
  | wakeupEach (tmp curr : ℕ) (woken : Bool)

/-- A configuration of the library and its user. -/
structure Config where
  heap : Heap U
  cells : List Cell
  joins : List (Join U)
  /-- `deferred_callbacks`; the promise in an entry is ghost -/
  deferredCallbacks : List (Pid × Callbacks U × Result U)
  /-- `current_callback_nesting_depth` -/
  depth : ℤ
  /-- `current_storage` -/
  storage : Storage U
  sequences : Sequences Pid
  pausedCount : ℤ
  pauseHook : Option U
  asyncExceptionHook : U
  exceptionFilter : Exn U → Bool
  nextKey : ℕ
  control : Control U
  stack : List (Frame U)
  /-- ghost: the next `Node.id` or `Mark.id` -/
  nextNode : ℕ
  /-- ghost: the promises that have a resolver -/
  resolvers : List Pid
  /-- ghost: what happened, latest first -/
  trace : List (Event U)

variable {U}

namespace Config

def ret (c : Config U) (v : Val U) : Config U := { c with control := .ret v }

def raise (c : Config U) (e : Exn U) : Config U := { c with control := .exn e }

def push (c : Config U) (frames : List (Frame U)) : Config U :=
  { c with stack := frames ++ c.stack }

def emit (c : Config U) (e : Event U) : Config U := { c with trace := e :: c.trace }

/-- Hands control to the user function `f`. -/
def apply (c : Config U) (f : U) (argument : Val U) : Config U :=
  { c with control := .user (.start f argument), trace := .applied f argument :: c.trace }

/-- `{state}`: the new promise is the last of the heap. -/
def alloc (c : Config U) (s : State U) : Config U := { c with heap := c.heap ++ [s] }

/-- A new promise, returned. -/
def retNew (c : Config U) (s : State U) : Config U :=
  (c.alloc s).ret (.promise c.heap.length)

/-- `underlying p`, for its path compression. -/
def follow (c : Config U) (p : Pid) : Config U := { c with heap := c.heap.compress p }

def followAll (c : Config U) (ps : List Pid) : Config U :=
  { c with heap := c.heap.compressAll ps }

def setState (c : Config U) (p : Pid) (s : State U) : Config U :=
  { c with heap := c.heap.set p s }

def isLive (c : Config U) (cell : ℕ) : Bool := Lwt.isLive c.cells cell

/-- `add_implicitly_removed_callback` on the record of the pending promise `u`. -/
def attachCallback (c : Config U) (u : Pid) (callback : Callback U) : Config U :=
  let node : Node U := ⟨c.nextNode, u, callback⟩
  { c with
    heap := c.heap.modifyPending u (addImplicitlyRemovedCallback node)
    nextNode := c.nextNode + 1
    trace := .attached node :: c.trace }

/-- `add_cancel_callback` on the record of the pending promise `u`. -/
def attachCancelCallback (c : Config U) (u : Pid) (f : CancelCallback U) : Config U :=
  let mark : Mark := ⟨c.nextNode, u⟩
  { c with
    heap := c.heap.modifyPending u (addCancelCallback mark c.storage f)
    nextNode := c.nextNode + 1
    trace := .cancelAttached mark :: c.trace }

def clearCell (c : Config U) (cell : ℕ) (ps : List Pid) : Config U :=
  let (heap, cells) := clearExplicitlyRemovableCallbackCell c.heap c.cells cell ps
  { c with heap := heap, cells := cells }

end Config

/-- `new_pending ~how_to_cancel`. -/
def newPending (how : HowToCancel) : State U :=
  .pending
    { regularCallbacks := .empty
      cancelCallbacks := .empty
      howToCancel := how
      cleanupsDeferred := 0 }

/-! ## Resolution loop -/

def defaultMaximumCallbackNestingDepth : ℤ := 42

/-- The optional arguments of `run_callbacks_or_defer_them`. -/
structure Deferral where
  allowDeferring : Bool := true
  maximumCallbackNestingDepth : ℤ := defaultMaximumCallbackNestingDepth

/-- `~allow_deferring:false`. -/
def Deferral.immediately : Deferral := { allowDeferring := false }

/-- `run_callbacks_or_defer_them`; `p` is the promise of the record. -/
def runCallbacksOrDeferThem (c : Config U) (d : Deferral) (p : Pid) (callbacks : Callbacks U)
    (r : Result U) : Config U :=
  if d.allowDeferring && decide (d.maximumCallbackNestingDepth ≤ c.depth) then
    { c with deferredCallbacks := c.deferredCallbacks ++ [(p, callbacks, r)] }.ret .unit
  else
    ({ c with depth := c.depth + 1 }.push
      [.runCallbacks p callbacks r, .leaveResolutionLoop c.storage]).ret .unit

/-- `resolve p result`. -/
def resolve (c : Config U) (d : Deferral) (p : Pid) (r : Result U) : Config U :=
  match c.heap[p]? with
  | some (.pending callbacks) =>
    runCallbacksOrDeferThem ((c.setState p (.resolved r)).emit (.resolved p r)) d p callbacks r
  | _ => { c.setState p (.resolved r) with control := .crash }

/-- `resolve ~allow_deferring:false (underlying p) result`. -/
def resolveUnderlying (c : Config U) (p : Pid) (r : Result U) : Config U :=
  resolve (c.follow p) .immediately (c.heap.root p) r

/-! ## Sequential composition -/

/-- `make_into_proxy ~outer_promise ~user_provided_promise`. -/
def makeIntoProxy (c : Config U) (outer : Pid) (userProvided : Pid) : Config U :=
  let p' := c.heap.root userProvided
  let c := c.follow userProvided
  if p' = outer then c.ret .unit
  else
    match c.heap[p']? with
    | some (.resolved r) => resolve c .immediately outer r
    | some (.pending callbacks) =>
      match c.heap[outer]? with
      | some (.pending outerCallbacks) =>
        let merged := mergeCallbacks c.cells callbacks outerCallbacks
        ((c.setState outer (.pending { merged with howToCancel := callbacks.howToCancel })
          ).setState p' (.proxy outer)).ret .unit
      | _ => { c with control := .crash }
    | _ => { c with control := .crash }

/-- The callback of a promise-producing combinator. -/
def runCompose (c : Config U) (target : Pid) (storage : Storage U) (r : Result U) :
    Compose U → Config U
  | .pass => resolveUnderlying c target r
  | .proxy f =>
    ({ c with storage := storage }.push [.guardFail, .proxyInto target]).apply f r.argument
  | .map f => ({ c with storage := storage }.push [.resolveWith target]).apply f r.argument

/-- The callback of a combinator that makes no promise. -/
def runObserve (c : Config U) (storage : Storage U) (r : Result U) : Observe U → Config U
  | .ignore => c.ret .unit
  | .hooked f => ({ c with storage := storage }.push [.hooked]).apply f r.argument
  | .hookedUnit f => ({ c with storage := storage }.push [.hooked]).apply f .unit
  | .bare h => c.apply h r.argument
  | .hook => c.apply c.asyncExceptionHook r.argument

/-- `join_result` after a promise with the result `new_result`: the first rejection wins. -/
def updateJoinResult (newResult : Result U) : Result U → Result U
  | .fulfilled v =>
    match newResult with
    | .rejected e => .rejected e
    | .fulfilled _ => .fulfilled v
  | .rejected e => .rejected e

/-- The callback of `join`. -/
def runJoin (c : Config U) (j : ℕ) (newResult : Result U) : Config U :=
  match c.joins[j]? with
  | none => c.ret .unit
  | some join =>
    let joinResult := updateJoinResult newResult join.joinResult
    let pending := join.numberPendingInPs - 1
    let join := { join with joinResult := joinResult, numberPendingInPs := pending }
    if pending = 0 then
      resolveUnderlying { c with joins := c.joins.set j { join with live := false } }
        join.target joinResult
    else
      { c with joins := c.joins.set j join }.ret .unit

def runCallback (c : Config U) (r : Result U) : Callback U → Config U
  | .compose target storage onFulfilled onRejected =>
    match r with
    | .fulfilled _ => runCompose c target storage r onFulfilled
    | .rejected _ => runCompose c target storage r onRejected
  | .observe storage onFulfilled onRejected =>
    match r with
    | .fulfilled _ => runObserve c storage r onFulfilled
    | .rejected _ => runObserve c storage r onRejected
  | .join j => runJoin c j r

namespace Combinator

def onFulfilled : Combinator U → Immediate U
  | bind f => .call f
  | map f => .map f
  | catch' _ => .underlying
  | tryBind f' _ => .call f'
  | noCancel => .given
  | onSuccess f => .observe (.hooked f)
  | onFailure _ => .observe .ignore
  | onTermination f => .observe (.hookedUnit f)
  | onAny f _ => .observe (.hooked f)
  | dontWait _ => .observe .ignore
  | async => .observe .ignore
  | ignoreResult => .observe .ignore

def onRejected : Combinator U → Immediate U
  | bind _ => .forward
  | map _ => .forward
  | catch' h => .call h
  | tryBind _ h => .call h
  | noCancel => .given
  | onSuccess _ => .observe .ignore
  | onFailure f => .observe (.hooked f)
  | onTermination f => .observe (.hookedUnit f)
  | onAny _ g => .observe (.hooked g)
  | dontWait h => .observe (.bare h)
  | async => .observe .hook
  | ignoreResult => .reraise

/-- The callback attached to a pending promise, given the promise `p''` it resolves if
the combinator makes one. -/
def callback (p'' : Pid) (storage : Storage U) : Combinator U → Callback U
  | bind f => .compose p'' storage (.proxy f) .pass
  | map f => .compose p'' storage (.map f) .pass
  | catch' h => .compose p'' storage .pass (.proxy h)
  | tryBind f' h => .compose p'' storage (.proxy f') (.proxy h)
  | noCancel => .compose p'' storage .pass .pass
  | onSuccess f => .observe storage (.hooked f) .ignore
  | onFailure f => .observe storage .ignore (.hooked f)
  | onTermination f => .observe storage (.hookedUnit f) (.hookedUnit f)
  | onAny f g => .observe storage (.hooked f) (.hooked g)
  | dontWait h => .observe storage .ignore (.bare h)
  | async => .observe storage .ignore .hook
  | ignoreResult => .observe storage .ignore .hook

/-- How to cancel the promise that the combinator makes of the pending promise `p`;
`none` if it makes no promise. -/
def howToCancel (p : Pid) : Combinator U → Option HowToCancel
  | bind _ | map _ | catch' _ | tryBind _ _ => some (.propagateCancelToOne p)
  | noCancel => some .notCancelable
  | _ => none

end Combinator

/-- A combinator on a promise that is already resolved: `given` is the promise the user
passed and `u` its underlying promise. -/
def runImmediate (c : Config U) (given u : Pid) (r : Result U) : Immediate U → Config U
  | .call f => c.apply f r.argument
  | .map f => (c.push [.allocWith]).apply f r.argument
  | .forward => c.retNew (.resolved r)
  | .underlying => c.ret (.promise u)
  | .given => c.ret (.promise given)
  | .observe (.hooked f) => (c.push [.hooked]).apply f r.argument
  | .observe (.hookedUnit f) => (c.push [.hooked]).apply f .unit
  | .observe (.bare h) => c.apply h r.argument
  | .observe .hook => c.apply c.asyncExceptionHook r.argument
  | .observe .ignore => c.ret .unit
  | .reraise =>
    match r with
    | .rejected e => c.raise e
    | .fulfilled _ => c.ret .unit

/-- A combinator on the promise `p`. -/
def attachTo (c : Config U) (k : Combinator U) (p : Pid) : Config U :=
  let u := c.heap.root p
  let c := c.follow p
  match c.heap[u]? with
  | some (.resolved r@(.fulfilled _)) => runImmediate c p u r k.onFulfilled
  | some (.resolved r@(.rejected _)) => runImmediate c p u r k.onRejected
  | some (.pending _) =>
    match k.howToCancel u with
    | some how =>
      let p'' := c.heap.length
      ((c.alloc (newPending how)).attachCallback u (k.callback p'' c.storage)).ret
        (.promise p'')
    | none => (c.attachCallback u (k.callback u c.storage)).ret .unit
  | _ => { c with control := .crash }

/-! ## Cancellation -/

/-- `cancel p`: its propagation phase starts at `p`. -/
def cancel (c : Config U) (p : Pid) : Config U :=
  ((c.emit (.cancelRequested p)).push [.propagateCancel [p] []]).ret .unit

/-- One call of `cancel_and_collect_callbacks`. -/
def cancelAndCollectCallbacks (c : Config U) (p : Pid) (todo : List Pid)
    (collected : List (Pid × Callbacks U)) : Config U :=
  let u := c.heap.root p
  let c := c.follow p
  match c.heap[u]? with
  | some (.pending callbacks) =>
    match callbacks.howToCancel with
    | .notCancelable => (c.push [.propagateCancel todo collected]).ret .unit
    | .cancelThisPromise =>
      (((c.setState u (.resolved (.rejected .canceled))).emit
        (.resolved u (.rejected .canceled))).push
          [.propagateCancel todo ((u, callbacks) :: collected)]).ret .unit
    | .propagateCancelToOne p' => (c.push [.propagateCancel (p' :: todo) collected]).ret .unit
    | .propagateCancelToSeveral ps =>
      (c.push [.propagateCancel (ps ++ todo) collected]).ret .unit
  | _ => (c.push [.propagateCancel todo collected]).ret .unit

/-! ## Concurrent composition -/

/-- `count_gather_rejected` of `count_resolved_promises_in`. -/
def countAndGatherRejected (h : Heap U) (total : ℕ) (rejected : List Pid) :
    List Pid → ℕ × List Pid
  | [] => (total, rejected)
  | p :: ps =>
    match h.stateOf p with
    | some (.resolved (.rejected _)) => countAndGatherRejected h (total + 1) (p :: rejected) ps
    | _ => countAndGatherRejected h total rejected ps

/-- `count_fulfilled` of `count_resolved_promises_in`. -/
def countFulfilled (h : Heap U) (total : ℕ) : List Pid → Except (ℕ × List Pid) ℕ
  | [] => .ok total
  | p :: ps =>
    match h.stateOf p with
    | some (.resolved (.fulfilled _)) => countFulfilled h (total + 1) ps
    | some (.resolved (.rejected _)) => .error (countAndGatherRejected h 1 [p] ps)
    | _ => countFulfilled h total ps

/-- `count_resolved_promises_in ps`. -/
def countResolvedPromisesIn (h : Heap U) (ps : List Pid) : Except (ℕ × List Pid) ℕ :=
  countFulfilled h 0 ps

/-- `nth_resolved ps n`; `none` is its `assert false`. -/
def nthResolved (h : Heap U) : List Pid → ℕ → Option Pid
  | [], _ => none
  | p :: ps, n =>
    match h.stateOf p with
    | some (.resolved _) =>
      match n with
      | 0 => some p
      | n + 1 => nthResolved h ps n
    | _ => nthResolved h ps n

/-- `nth_resolved_and_cancel_pending ps n`, up to the next call of `cancel`. -/
def nthResolvedAndCancelPending (c : Config U) : List Pid → ℕ → Config U
  | [], _ => c.raise .assertFailure
  | p :: ps, n =>
    match c.heap.stateOf p with
    | some (.resolved _) =>
      match n with
      | 0 => ((c.follow p).push [.iterCancel ps, .returnPromise p]).ret .unit
      | n + 1 => nthResolvedAndCancelPending (c.follow p) ps n
    | _ => cancel ((c.follow p).push [.nthResolvedAndCancelPending ps n]) p

/-- `collect_fulfilled_promises_after_pending results ps`, `results` reversed. -/
def collectFulfilledPromisesAfterPending (h : Heap U) (results : List (Val U)) :
    List Pid → Result U
  | [] => .fulfilled (Val.ofList results.reverse)
  | p :: ps =>
    match h.stateOf p with
    | some (.resolved (.fulfilled v)) =>
      collectFulfilledPromisesAfterPending h (v :: results) ps
    | some (.resolved (.rejected e)) => .rejected e
    | _ => collectFulfilledPromisesAfterPending h results ps

/-- `finish to_resolve fulfilled pending ps` of `nchoose_split`: the result it resolves
with. -/
def finishSplit (h : Heap U) (fulfilled : List (Val U)) (pending : List Pid) :
    List Pid → Result U
  | [] =>
    .fulfilled (.pair (Val.ofList fulfilled.reverse)
      (Val.ofList (pending.reverse.map Val.promise)))
  | p :: ps =>
    match h.stateOf p with
    | some (.resolved (.fulfilled v)) => finishSplit h (v :: fulfilled) pending ps
    | some (.resolved (.rejected e)) => .rejected e
    | _ => finishSplit h fulfilled (p :: pending) ps

/-- `collect_already_resolved_promises results pending ps` of `nchoose_split`; the list
of pending promises is not reversed here. -/
def collectAlreadyResolvedPromises (h : Heap U) (results : List (Val U)) (pending : List Pid) :
    List Pid → Result U
  | [] =>
    .fulfilled (.pair (Val.ofList results.reverse) (Val.ofList (pending.map Val.promise)))
  | p :: ps =>
    match h.stateOf p with
    | some (.resolved (.fulfilled v)) =>
      collectAlreadyResolvedPromises h (v :: results) pending ps
    | some (.resolved (.rejected e)) => .rejected e
    | _ => collectAlreadyResolvedPromises h results (p :: pending) ps

/-- `check_for_already_resolved_promises ps` of `nchoose` and `npick`: the result found,
or `none` if all promises are pending. -/
def checkForAlreadyResolvedPromises (h : Heap U) : List Pid → Option (Result U)
  | [] => none
  | p :: ps =>
    match h.stateOf p with
    | some (.resolved (.fulfilled v)) =>
      some (collectFulfilledPromisesAfterPending h [v] ps)
    | some (.resolved (.rejected e)) => some (.rejected e)
    | _ => checkForAlreadyResolvedPromises h ps

/-- `check_for_already_resolved_promises pending_acc ps` of `nchoose_split`. -/
def checkForAlreadyResolvedSplit (h : Heap U) (pending : List Pid) :
    List Pid → Option (Result U)
  | [] => none
  | p :: ps =>
    match h.stateOf p with
    | some (.resolved (.fulfilled v)) =>
      some (collectAlreadyResolvedPromises h [v] pending ps)
    | some (.resolved (.rejected e)) => some (.rejected e)
    | _ => checkForAlreadyResolvedSplit h (p :: pending) ps

/-- The callback in a cell, without the removal it starts with. -/
def runCellBody (c : Config U) (cell : Cell) (r : Result U) : Config U :=
  let ps := cell.originallyAddedTo
  match cell.kind with
  | .choose | .protection => resolveUnderlying c cell.target r
  | .pick => (c.push [.iterCancel ps, .resolveUnderlying cell.target r]).ret .unit
  | .nchoose =>
    resolveUnderlying (c.followAll ps) cell.target
      (collectFulfilledPromisesAfterPending c.heap [] ps)
  | .npick =>
    -- The underlying promise is looked up before the members are canceled.
    (((c.follow cell.target).followAll ps).push
      [.iterCancel ps, .resolveExact (c.heap.root cell.target)
        (collectFulfilledPromisesAfterPending c.heap [] ps)]).ret .unit
  | .nchooseSplit =>
    resolveUnderlying (c.followAll ps) cell.target (finishSplit c.heap [] [] ps)

/-- The self-removing callback in the cell `i`. -/
def runCell (c : Config U) (i : ℕ) (cell : Cell) (r : Result U) : Config U :=
  runCellBody ((c.emit (.cellCalled i r)).clearCell i cell.originallyAddedTo) cell r

/-- A new pending promise that the first of `ps` to be resolved resolves, through a
removable callback. -/
def attachCell (c : Config U) (kind : CellKind) (how : HowToCancel) (ps : List Pid) : Config U :=
  let p := c.heap.length
  let cell := c.cells.length
  let c := c.alloc (newPending how)
  match addCellToEach cell c.heap ps with
  | some heap =>
    { c with heap := heap, cells := c.cells ++ [Cell.mk kind p ps true] }.ret (.promise p)
  | none => c.raise .assertFailure

/-- `choose ps`; `random` stands for the number drawn. -/
def choose (c : Config U) (ps : List Pid) (random : ℕ) : Config U :=
  if ps = [] then
    c.raise (.invalidArgument "Lwt.choose [] would return a promise that is pending forever")
  else
    let c := c.followAll ps
    let nth := fun ps n =>
      match nthResolved c.heap ps n with
      | some p => c.ret (.promise p)
      | none => c.raise .assertFailure
    match countResolvedPromisesIn c.heap ps with
    | .ok 0 => attachCell c .choose (.propagateCancelToSeveral ps) ps
    | .ok 1 => nth ps 0
    | .ok n => nth ps (random % n)
    | .error (n, ps) => nth ps (random % n)

/-- `pick ps`; `random` stands for the number drawn. -/
def pick (c : Config U) (ps : List Pid) (random : ℕ) : Config U :=
  if ps = [] then
    c.raise (.invalidArgument "Lwt.pick [] would return a promise that is pending forever")
  else
    let c := c.followAll ps
    match countResolvedPromisesIn c.heap ps with
    | .ok 0 => attachCell c .pick (.propagateCancelToSeveral ps) ps
    | .ok 1 => nthResolvedAndCancelPending c ps 0
    | .ok n => nthResolvedAndCancelPending c ps (random % n)
    | .error (n, qs) => (c.push [.iterCancel ps, .nthResolved qs (random % n)]).ret .unit

def nchoose (c : Config U) (ps : List Pid) : Config U :=
  if ps = [] then
    c.raise (.invalidArgument "Lwt.nchoose [] would return a promise that is pending forever")
  else
    let c := c.followAll ps
    match checkForAlreadyResolvedPromises c.heap ps with
    | some r => c.retNew (.resolved r)
    | none => attachCell c .nchoose (.propagateCancelToSeveral ps) ps

def npick (c : Config U) (ps : List Pid) : Config U :=
  if ps = [] then
    c.raise (.invalidArgument "Lwt.npick [] would return a promise that is pending forever")
  else
    let c := c.followAll ps
    match checkForAlreadyResolvedPromises c.heap ps with
    | some r => (c.push [.iterCancel ps, .allocResult r]).ret .unit
    | none => attachCell c .npick (.propagateCancelToSeveral ps) ps

def nchooseSplit (c : Config U) (ps : List Pid) : Config U :=
  if ps = [] then
    c.raise
      (.invalidArgument "Lwt.nchoose_split [] would return a promise that is pending forever")
  else
    let c := c.followAll ps
    match checkForAlreadyResolvedSplit c.heap [] ps with
    | some r => c.retNew (.resolved r)
    | none => attachCell c .nchooseSplit (.propagateCancelToSeveral ps) ps

/-- One promise of `attach_callback_or_resolve_immediately`, in the call of `join` with
the references `j`. -/
def attachCallbackOrNoteResult (c : Config U) (j : ℕ) (p : Pid) : Config U :=
  let u := c.heap.root p
  let c := c.follow p
  match c.joins[j]?, c.heap[u]? with
  | some join, some (.pending _) =>
    { c with
      joins := c.joins.set j { join with numberPendingInPs := join.numberPendingInPs + 1 }
    }.attachCallback u (.join j)
  | some join, some (.resolved r) =>
    { c with
      joins := c.joins.set j { join with joinResult := updateJoinResult r join.joinResult } }
  | _, _ => c

/-- `attach_callback_or_resolve_immediately ps`. -/
def attachCallbackOrResolveImmediately (c : Config U) (j : ℕ) : List Pid → Config U
  | [] =>
    match c.joins[j]? with
    | some join =>
      if join.numberPendingInPs = 0 then
        { c with joins := c.joins.set j { join with live := false } }.retNew
          (.resolved join.joinResult)
      else c.ret (.promise join.target)
    | none => c.ret .unit
  | p :: ps => attachCallbackOrResolveImmediately (attachCallbackOrNoteResult c j p) j ps

/-- `join ps`. -/
def join (c : Config U) (ps : List Pid) : Config U :=
  let p' := c.heap.length
  let j := c.joins.length
  let c := c.alloc (newPending (.propagateCancelToSeveral ps))
  attachCallbackOrResolveImmediately
    { c with joins := c.joins ++ [Join.mk p' 0 (.fulfilled .unit) true] } j ps

/-- `protected p`. -/
def protected' (c : Config U) (p : Pid) : Config U :=
  let u := c.heap.root p
  let c := c.follow p
  match c.heap[u]? with
  | some (.pending _) =>
    let p' := c.heap.length
    let cell := c.cells.length
    (attachCell c .protection .cancelThisPromise [p]).attachCancelCallback p'
      (.removeTheCallback cell)
  | _ => c.ret (.promise p)

end Lwt
