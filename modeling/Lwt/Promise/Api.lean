import Lwt.Promise.Machine

/-!
# The public functions, user code and the step function

`Op` lists the public functions of `lwt.ml` that are not written in terms of others.
`step` lets user code do anything it can do in OCaml: call any of these functions on any
promises made so far, call another user function, return (a promise made so far, where a
promise is expected), or raise.  All else is the library's own and deterministic; the
numbers `choose` and `pick` draw are part of the call.

`step c a = none` means that `a` is not what comes next: a label for user code while the
library runs, or the reverse, or a call with a promise that does not exist.
-/

namespace Lwt

variable {U : Type}

/-! ## Resolving -/

/-- `wakeup_general api_function_name r result` and `wakeup_later_general`. -/
def wakeupWith (d : Deferral) (c : Config U) (apiFunctionName : String) (p : Pid) (r : Result U) :
    Config U :=
  let u := c.heap.root p
  let c := c.follow p
  match c.heap[u]? with
  | some (.resolved (.rejected .canceled)) => c.ret .unit
  | some (.resolved _) => c.raise (.invalidArgument ("Lwt." ++ apiFunctionName))
  | _ => resolve c d u r

def wakeupGeneral : Config U → String → Pid → Result U → Config U :=
  wakeupWith .immediately

def wakeupLaterGeneral : Config U → String → Pid → Result U → Config U :=
  wakeupWith { maximumCallbackNestingDepth := 1 }

/-! ## Returning to a frame -/

/-- `run_cancel_callbacks`: one turn of `iter_callback_list`. -/
def runCancelCallbacks (c : Config U) : List (CancelCallbackList U) → Config U
  | [] => c.ret .unit
  | .empty :: rest => (c.push [.runCancelCallbacks rest]).ret .unit
  | .concat fs fs' :: rest => (c.push [.runCancelCallbacks (fs :: fs' :: rest)]).ret .unit
  | .callback mark storage (.user f) :: rest =>
    (({ c with storage := storage }.emit (.cancelCalled mark)).push
      [.hooked, .runCancelCallbacks rest]).apply f .unit
  | .callback mark storage (.removeTheCallback cell) :: rest =>
    let ps := (c.cells[cell]?.map Cell.originallyAddedTo).getD []
    ((({ c with storage := storage }.emit (.cancelCalled mark)).clearCell cell ps).push
      [.runCancelCallbacks rest]).ret .unit
  | .removeSequenceNode mark node :: rest =>
    (({ c with sequences := c.sequences.remove node }.emit (.cancelCalled mark)).push
      [.runCancelCallbacks rest]).ret .unit

/-- `run_regular_callbacks`: one turn of `iter_callback_list`. -/
def runRegularCallbacks (c : Config U) (r : Result U) : List (RegularCallbackList U) → Config U
  | [] => c.ret .unit
  | .empty :: rest => (c.push [.runRegularCallbacks rest r]).ret .unit
  | .concat fs fs' :: rest => (c.push [.runRegularCallbacks (fs :: fs' :: rest) r]).ret .unit
  | .implicitlyRemoved node :: rest =>
    runCallback ((c.emit (.called node r)).push [.runRegularCallbacks rest r]) r node.callback
  | .explicitlyRemovable i :: rest =>
    let c := c.push [.runRegularCallbacks rest r]
    match c.cells[i]? with
    | some cell => if cell.live then runCell c i cell r else c.ret .unit
    | none => c.ret .unit

/-- `run_callbacks callbacks result`. -/
def runCallbacks (c : Config U) (p : Pid) (callbacks : Callbacks U) (r : Result U) : Config U :=
  let regular : Frame U := .runRegularCallbacks [callbacks.regularCallbacks] r
  ((c.emit (.recordRun p r)).push
    (if r.isCanceled then [.runCancelCallbacks [callbacks.cancelCallbacks], regular]
      else [regular])).ret .unit

/-- One turn of `Lwt_sequence.iter_l (fun r -> wakeup r ()) tmp`; the next node is read
after the function has run. -/
def wakeupEach (c : Config U) (tmp curr : ℕ) (woken : Bool) : Config U :=
  if woken then (c.push [.wakeupEach tmp (c.sequences.next curr) false]).ret .unit
  else if curr = tmp then c.ret .unit
  else
    match c.sequences.active curr, c.sequences.data curr with
    | true, some p =>
      wakeupGeneral (c.push [.wakeupEach tmp curr true]) "wakeup" p (.fulfilled .unit)
    | _, _ => (c.push [.wakeupEach tmp (c.sequences.next curr) false]).ret .unit

/-- The value `v` returned to a frame that was on top of the stack of `c`. -/
def returnTo (c : Config U) (v : Val U) : Frame U → Option (Config U)
  | .user u => some { c with control := .user (.resume u (.ok v)) }
  | .guardFail => some (c.ret v)
  | .attach k =>
    match v with
    | .promise p => if p < c.heap.length then some (attachTo c k p) else none
    | _ => none
  | .proxyInto target =>
    match v with
    | .promise p =>
      if p < c.heap.length then
        some (makeIntoProxy (c.follow target) (c.heap.root target) p)
      else none
    | _ => none
  | .resolveWith target => some (resolveUnderlying c target (.fulfilled v))
  | .allocWith => some (c.retNew (.resolved (.fulfilled v)))
  | .hooked => some (c.ret .unit)
  | .runCallbacks p callbacks r => some (runCallbacks c p callbacks r)
  | .runCancelCallbacks todo => some (runCancelCallbacks c todo)
  | .runRegularCallbacks todo r => some (runRegularCallbacks c r todo)
  | .leaveResolutionLoop snapshot =>
    if c.depth = 1 then some ((c.push [.drain snapshot]).ret .unit)
    else some ({ c with depth := c.depth - 1, storage := snapshot }.ret .unit)
  | .drain snapshot =>
    match c.deferredCallbacks with
    | [] => some ({ c with depth := c.depth - 1, storage := snapshot }.ret .unit)
    | (p, callbacks, r) :: rest =>
      some (({ c with deferredCallbacks := rest }.push
        [.runCallbacks p callbacks r, .drain snapshot]).ret .unit)
  | .propagateCancel [] collected => some ((c.push [.runRecords collected]).ret .unit)
  | .propagateCancel (p :: todo) collected => some (cancelAndCollectCallbacks c p todo collected)
  | .runRecords [] => some (c.ret .unit)
  | .runRecords ((p, callbacks) :: rest) =>
    some (runCallbacksOrDeferThem (c.push [.runRecords rest]) .immediately p callbacks
      (.rejected .canceled))
  | .iterCancel [] => some (c.ret .unit)
  | .iterCancel (p :: ps) => some (cancel (c.push [.iterCancel ps]) p)
  | .resolveUnderlying target r => some (resolveUnderlying c target r)
  | .resolveExact p r => some (resolve c .immediately p r)
  | .nthResolvedAndCancelPending ps n => some (nthResolvedAndCancelPending c ps n)
  | .nthResolved ps n =>
    match nthResolved c.heap ps n with
    | some p => some ((c.followAll ps).ret (.promise p))
    | none => some ((c.followAll ps).raise .assertFailure)
  | .returnPromise p => some (c.ret (.promise p))
  | .allocResult r => some (c.retNew (.resolved r))
  | .withValue savedStorage => some ({ c with storage := savedStorage }.ret v)
  | .wakeupEach tmp curr woken => some (wakeupEach c tmp curr woken)

/-- The exception `e` raised to a frame that was on top of the stack of `c`.  Only user
code and the frames with a handler stop it; in particular nothing restores
`current_callback_nesting_depth`. -/
def raiseTo (c : Config U) (e : Exn U) : Frame U → Config U
  | .user u => { c with control := .user (.resume u (.error e)) }
  | .guardFail | .allocWith =>
    if c.exceptionFilter e then c.retNew (.resolved (.rejected e)) else c.raise e
  | .resolveWith target =>
    if c.exceptionFilter e then resolveUnderlying c target (.rejected e) else c.raise e
  | .hooked => if c.exceptionFilter e then c.apply c.asyncExceptionHook (.exn e) else c.raise e
  | .withValue savedStorage =>
    if c.exceptionFilter e then { c with storage := savedStorage }.raise e else c.raise e
  | _ => c.raise e

/-! ## The public functions -/

variable (U)

/-- The public functions. -/
inductive Op
  /-- `of_result`, `return`, `fail` -/
  | ofResult (r : Result U)
  | wait
  | task
  | addTaskR (seq : ℕ)
  | addTaskL (seq : ℕ)
  /-- `bind`, `map`, `no_cancel`, `on_*`, `ignore_result`, and `catch (fun () -> p)` and
  the like -/
  | attach (k : Combinator U) (p : Pid)
  /-- `catch f`, `try_bind f`, `dont_wait f`, `async f` -/
  | tryAttach (f : U) (k : Combinator U)
  | onCancel (p : Pid) (f : U)
  | protected' (p : Pid)
  | join (ps : List Pid)
  | choose (ps : List Pid) (random : ℕ)
  | pick (ps : List Pid) (random : ℕ)
  | nchoose (ps : List Pid)
  | npick (ps : List Pid)
  | nchooseSplit (ps : List Pid)
  | cancel (p : Pid)
  | wakeupGeneral (apiFunctionName : String) (p : Pid) (r : Result U)
  | wakeupLaterGeneral (apiFunctionName : String) (p : Pid) (r : Result U)
  | state (p : Pid)
  | poll (p : Pid)
  | pause
  | wakeupPaused
  | abandonPaused
  | pausedCount
  | registerPauseNotifier (f : U)
  | newKey
  | get (key : ℕ)
  | withValue (key : ℕ) (value : Option (Val U)) (f : U)
  | abandonWakeups
  | setAsyncExceptionHook (f : U)
  | setExceptionFilter (filter : Exn U → Bool)
  /-- `Lwt_sequence.create` of a sequence of resolvers -/
  | createSequence
  | takeL (seq : ℕ)
  | takeR (seq : ℕ)

variable {U}

namespace Op

def «return» (v : Val U) : Op U := .ofResult (.fulfilled v)
def fail (e : Exn U) : Op U := .ofResult (.rejected e)
def bind (p : Pid) (f : U) : Op U := .attach (.bind f) p
def map (f : U) (p : Pid) : Op U := .attach (.map f) p
def catch' (f h : U) : Op U := .tryAttach f (.catch' h)
def tryBind (f f' h : U) : Op U := .tryAttach f (.tryBind f' h)
def noCancel (p : Pid) : Op U := .attach .noCancel p
def onSuccess (p : Pid) (f : U) : Op U := .attach (.onSuccess f) p
def onFailure (p : Pid) (f : U) : Op U := .attach (.onFailure f) p
def onTermination (p : Pid) (f : U) : Op U := .attach (.onTermination f) p
def onAny (p : Pid) (f g : U) : Op U := .attach (.onAny f g) p
def ignoreResult (p : Pid) : Op U := .attach .ignoreResult p
def dontWait (f h : U) : Op U := .tryAttach f (.dontWait h)
def async (f : U) : Op U := .tryAttach f .async
def wakeup (p : Pid) (v : Val U) : Op U := .wakeupGeneral "wakeup" p (.fulfilled v)
def wakeupExn (p : Pid) (e : Exn U) : Op U := .wakeupGeneral "wakeup_exn" p (.rejected e)
def wakeupResult (p : Pid) (r : Result U) : Op U := .wakeupGeneral "wakeup_result" p r
def wakeupLater (p : Pid) (v : Val U) : Op U := .wakeupLaterGeneral "wakeup_later" p (.fulfilled v)
def wakeupLaterExn (p : Pid) (e : Exn U) : Op U :=
  .wakeupLaterGeneral "wakeup_later_exn" p (.rejected e)
def wakeupLaterResult (p : Pid) (r : Result U) : Op U :=
  .wakeupLaterGeneral "wakeup_later_result" p r

/-- The promises a call is given. -/
def promises : Op U → List Pid
  | attach _ p | onCancel p _ | protected' p | cancel p | wakeupGeneral _ p _
  | wakeupLaterGeneral _ p _ | state p | poll p => [p]
  | join ps | choose ps _ | pick ps _ | nchoose ps | npick ps | nchooseSplit ps => ps
  | _ => []

/-- The resolvers a call is given. -/
def resolvers : Op U → List Pid
  | wakeupGeneral _ p _ | wakeupLaterGeneral _ p _ => [p]
  | _ => []

/-- The sequences a call is given. -/
def sequences : Op U → List ℕ
  | addTaskR seq | addTaskL seq | takeL seq | takeR seq => [seq]
  | _ => []

/-- The arguments of a call exist. -/
def valid (c : Config U) (o : Op U) : Bool :=
  o.promises.all (· < c.heap.length) && o.resolvers.all (· ∈ c.resolvers) &&
    o.sequences.all fun seq => seq < c.sequences.length && (c.sequences.data seq).isNone

end Op

/-- The header of the sequence `paused`. -/
def paused : ℕ := 0

/-- `add_task_r sequence` and `add_task_l sequence`, by the function that adds the node. -/
def addTask (add : Sequences Pid → Pid → ℕ → Sequences Pid) (c : Config U) (seq : ℕ) : Config U :=
  let p := c.heap.length
  let node := c.sequences.length
  let mark : Mark := ⟨c.nextNode, p⟩
  { c.alloc
      (.pending
        { regularCallbacks := .empty
          cancelCallbacks := .removeSequenceNode mark node
          howToCancel := .cancelThisPromise
          cleanupsDeferred := 0 }) with
    sequences := add c.sequences p seq
    resolvers := p :: c.resolvers
    nextNode := c.nextNode + 1
    trace := .cancelAttached mark :: c.trace }.ret (.promise p)

/-- `wait ()` and `task ()`. -/
def newInitial (c : Config U) (how : HowToCancel) : Config U :=
  { c.alloc (newPending how) with resolvers := c.heap.length :: c.resolvers }.ret
    (.promise c.heap.length)

/-- `on_cancel p f`. -/
def onCancel (c : Config U) (p : Pid) (f : U) : Config U :=
  let u := c.heap.root p
  let c := c.follow p
  match c.heap[u]? with
  | some (.resolved (.rejected .canceled)) => (c.push [.hooked]).apply f .unit
  | some (.pending _) =>
    (c.attachCancelCallback u (.user f)).ret .unit
  | _ => c.ret .unit

/-- `pause ()`. -/
def pause (c : Config U) : Config U :=
  let p := c.heap.length
  let c := addTask Sequences.addR c paused
  let c := { c with pausedCount := c.pausedCount + 1 }
  match c.pauseHook with
  | none => c.ret (.promise p)
  | some f => (c.push [.returnPromise p]).apply f (.int c.pausedCount)

/-- `wakeup_paused ()`. -/
def wakeupPaused (c : Config U) : Config U :=
  if c.sequences.isEmpty paused then { c with pausedCount := 0 }.ret .unit
  else
    let tmp := c.sequences.length
    let sequences := c.sequences.create.transferR paused tmp
    ({ c with sequences := sequences, pausedCount := 0 }.push
      [.wakeupEach tmp (sequences.next tmp) false]).ret .unit

/-- `Lwt_sequence.take_l` and `take_r`. -/
def take (taken : Option (Pid × Sequences Pid)) (c : Config U) : Config U :=
  match taken with
  | some (p, sequences) => { c with sequences := sequences }.ret (.promise p)
  | none => c.raise .empty

/-- `state p`. -/
def stateVal : Option (State U) → Val U
  | some (.resolved (.fulfilled v)) => .returned v
  | some (.resolved (.rejected e)) => .failed e
  | _ => .sleep

/-- `poll p`. -/
def poll (c : Config U) (p : Pid) : Config U :=
  match c.heap.stateOf p with
  | some (.resolved (.fulfilled v)) => (c.follow p).ret (.some v)
  | some (.resolved (.rejected e)) => (c.follow p).raise e
  | _ => (c.follow p).ret .none

/-- A call of a public function by user code whose frame is on the stack. -/
def execute (c : Config U) : Op U → Config U
  | .ofResult r => c.retNew (.resolved r)
  | .wait => newInitial c .notCancelable
  | .task => newInitial c .cancelThisPromise
  | .addTaskR seq => addTask Sequences.addR c seq
  | .addTaskL seq => addTask Sequences.addL c seq
  | .attach k p => attachTo c k p
  | .tryAttach f k => (c.push [.guardFail, .attach k]).apply f .unit
  | .onCancel p f => onCancel c p f
  | .protected' p => protected' c p
  | .join ps => join c ps
  | .choose ps random => choose c ps random
  | .pick ps random => pick c ps random
  | .nchoose ps => nchoose c ps
  | .npick ps => npick c ps
  | .nchooseSplit ps => nchooseSplit c ps
  | .cancel p => cancel c p
  | .wakeupGeneral name p r => wakeupGeneral c name p r
  | .wakeupLaterGeneral name p r => wakeupLaterGeneral c name p r
  | .state p => (c.follow p).ret (stateVal (c.heap.stateOf p))
  | .poll p => poll c p
  | .pause => pause c
  | .wakeupPaused => wakeupPaused c
  | .abandonPaused => { c with sequences := c.sequences.clear paused, pausedCount := 0 }.ret .unit
  | .pausedCount => c.ret (.int c.pausedCount)
  | .registerPauseNotifier f => { c with pauseHook := some f }.ret .unit
  | .newKey => { c with nextKey := c.nextKey + 1 }.ret (.int c.nextKey)
  | .get key =>
    c.ret
      (match c.storage.find key with
        | some v => .some v
        | none => .none)
  | .withValue key value f =>
    let storage :=
      match value with
      | some v => c.storage.add key v
      | none => c.storage.remove key
    ({ c with storage := storage }.push [.withValue c.storage]).apply f .unit
  | .abandonWakeups =>
    if c.depth ≠ 0 then (c.push [.leaveResolutionLoop []]).ret .unit else c.ret .unit
  | .setAsyncExceptionHook f => { c with asyncExceptionHook := f }.ret .unit
  | .setExceptionFilter filter => { c with exceptionFilter := filter }.ret .unit
  | .createSequence =>
    { c with sequences := c.sequences.create }.ret (.int c.sequences.length)
  | .takeL seq => take (c.sequences.takeL seq) c
  | .takeR seq => take (c.sequences.takeR seq) c

/-! ## Steps -/

variable (U)

/-- What user code can do.  `u` is where it goes on after a call. -/
inductive Move
  | call (o : Op U) (u : U)
  | apply (f : U) (argument : Val U) (u : U)
  | ret (v : Val U)
  | raise (e : Exn U)

/-- A step of the library or a move of the user. -/
inductive Label
  | tau
  | move (m : Move U)

variable {U}

/-- A user function that has to return a promise returns one that exists. -/
def Frame.accepts (c : Config U) (v : Val U) : Frame U → Bool
  | .guardFail | .attach _ | .proxyInto _ =>
    match v with
    | .promise p => p < c.heap.length
    | _ => false
  | _ => true

def userStep (c : Config U) : Move U → Option (Config U)
  | .call o u =>
    if o.valid c then some (execute (c.push [.user u]) o) else none
  | .apply f argument u => some ((c.push [.user u]).apply f argument)
  | .ret v =>
    match c.stack with
    | [] => none
    | frame :: _ => if frame.accepts c v then some (c.ret v) else none
  | .raise e =>
    match c.stack with
    | [] => none
    | _ :: _ => some (c.raise e)

def step (c : Config U) (a : Label U) : Option (Config U) :=
  match c.control, a with
  | .user _, .move m => userStep c m
  | .ret v, .tau =>
    match c.stack with
    | [] => none
    | frame :: stack => returnTo { c with stack := stack } v frame
  | .exn e, .tau =>
    match c.stack with
    | [] => none
    | frame :: stack => some (raiseTo { c with stack := stack } e frame)
  | _, _ => none

/-- The start of a program: the user code `main`, no promises, default settings. -/
def initial (main hook : U) : Config U where
  heap := []
  cells := []
  joins := []
  deferredCallbacks := []
  depth := 0
  storage := []
  sequences := Sequences.create []
  pausedCount := 0
  pauseHook := none
  asyncExceptionHook := hook
  exceptionFilter := fun _ => true
  nextKey := 0
  control := .user (.start main .unit)
  stack := []
  nextNode := 0
  resolvers := []
  trace := []

end Lwt
