import Lwt.Stream.Queue

/-!
# The reads of a stream

One turn of each of the recursive functions behind the reads: what the function does with the
node it is at, and the call it goes on with.  `nget_rec` and `get_available_up_to_rec` test and
return `s.node.data` where the others use the data of their own node; `is_empty` has no node of
its own.
-/

namespace Lwt

variable {α : Type}

/-- What a call does next. -/
inductive Turn (α : Type)
  /-- `feed s >>= fun () -> ...` -/
  | feed (next : Call α)
  /-- `match Lwt.state (feed s) with ...`, where `acc` is returned if the source sleeps -/
  | feedAvailable (next : Call α) (acc : List α)
  /-- `f x` -/
  | test (x : α)
  /-- go past `node`, with `consume s node` if it `removes` -/
  | pass (node : ℕ) (x : α) (removes : Bool) (next : Call α ⊕ Answer α)
  | return (a : Answer α)
  /-- `Lwt.fail Empty` -/
  | empty

namespace Streams

section Calls

variable (m : Streams α) (reader node : ℕ) (acc : List α) (n : ℤ) (f : α → Bool)

def peekRec : Turn α :=
  if node = m.last then .feed (.peekRec node) else .return (.option (m.nodeData node))

def isEmpty : Turn α :=
  if m.node reader = m.last then .feed .isEmpty
  else .return (.bool (m.nodeData (m.node reader)).isNone)

def getRec : Turn α :=
  if node = m.last then .feed (.getRec node)
  else
    match m.nodeData node with
    | some x => .pass node x true (.inr (.option (some x)))
    | none => .return (.option none)

def nextRec : Turn α :=
  if node = m.last then .feed (.nextRec node)
  else
    match m.nodeData node with
    | some x => .pass node x true (.inr (.value x))
    | none => .empty

def ngetRec : Turn α :=
  if n ≤ 0 then .return (.list acc.reverse)
  else if node = m.last then .feed (.ngetRec node acc n)
  else
    match m.nodeData (m.node reader) with
    | some x => .pass node x true (.inl (.ngetRec (node + 1) (x :: acc) (n - 1)))
    | none => .return (.list acc.reverse)

def npeekRec : Turn α :=
  if n ≤ 0 then .return (.list acc.reverse)
  else if node = m.last then .feed (.npeekRec node acc n)
  else
    match m.nodeData node with
    | some x => .pass node x false (.inl (.npeekRec (node + 1) (x :: acc) (n - 1)))
    | none => .return (.list acc.reverse)

def getWhileRec : Turn α :=
  if node = m.last then .feed (.getWhileRec node acc f)
  else
    match m.nodeData node with
    | some x => .test x
    | none => .return (.list acc.reverse)

def getWhileSRec : Turn α :=
  if node = m.last then .feed (.getWhileSRec node acc f)
  else
    match m.nodeData node with
    | some x => .test x
    | none => .return (.list acc.reverse)

def toListRec : Turn α :=
  if node = m.last then .feed (.toListRec node acc)
  else
    match m.nodeData node with
    | some x => .pass node x true (.inl (.toListRec (node + 1) (x :: acc)))
    | none => .return (.list acc.reverse)

/-- `junk` after `feed`: if the node has got no data there is nothing to remove. -/
def junkFed : Turn α :=
  match m.nodeData node with
  | some x => .pass node x true (.inr .unit)
  | none => .return .unit

def junk : Turn α := if node = m.last then .feed (.junkFed node) else m.junkFed node

def njunkRec : Turn α :=
  if n ≤ 0 then .return .unit
  else if node = m.last then .feed (.njunkRec node n)
  else
    match m.nodeData node with
    | some x => .pass node x true (.inl (.njunkRec (node + 1) (n - 1)))
    | none => .return .unit

def getAvailableRec : Turn α :=
  if node = m.last then .feedAvailable (.getAvailableRec node acc) acc.reverse
  else
    match m.nodeData node with
    | some x => .pass node x true (.inl (.getAvailableRec (node + 1) (x :: acc)))
    | none => .return (.list acc.reverse)

def getAvailableUpToRec : Turn α :=
  if n ≤ 0 then .return (.list acc.reverse)
  else if node = m.last then .feedAvailable (.getAvailableUpToRec node acc n) acc.reverse
  else
    match m.nodeData (m.node reader) with
    | some x => .pass node x true (.inl (.getAvailableUpToRec (node + 1) (x :: acc) (n - 1)))
    | none => .return (.list acc.reverse)

end Calls

/-- One turn of a call made by a reader of the clone `reader`. -/
def turnOf (m : Streams α) (reader : ℕ) : Call α → Turn α
  | .peekRec node => m.peekRec node
  | .isEmpty => m.isEmpty reader
  | .getRec node => m.getRec node
  | .nextRec node => m.nextRec node
  | .ngetRec node acc n => m.ngetRec reader node acc n
  | .npeekRec node acc n => m.npeekRec node acc n
  | .getWhileRec node acc f => m.getWhileRec node acc f
  | .getWhileSRec node acc f => m.getWhileSRec node acc f
  | .toListRec node acc => m.toListRec node acc
  | .junk node => m.junk node
  | .junkFed node => m.junkFed node
  | .njunkRec node n => m.njunkRec node n
  | .getAvailableRec node acc => m.getAvailableRec node acc
  | .getAvailableUpToRec node acc n => m.getAvailableUpToRec reader node acc n

end Streams

/-- What `get_while_rec` and `get_while_s_rec` do with the result of the predicate. -/
def Call.tested (x : α) : Call α → Turn α
  | .getWhileRec node acc f =>
    if f x then .pass node x true (.inl (.getWhileRec (node + 1) (x :: acc) f))
    else .return (.list acc.reverse)
  | .getWhileSRec node acc f =>
    if f x then .pass node x true (.inl (.getWhileSRec (node + 1) (x :: acc) f))
    else .return (.list acc.reverse)
  | _ => .return .unit

/-- The call that a read begins with, at the head `node`. -/
def ReadOp.call (node : ℕ) : ReadOp α → Call α
  | .peek => .peekRec node
  | .isEmpty => .isEmpty
  | .get => .getRec node
  | .next => .nextRec node
  | .nget n => .ngetRec node [] n
  | .npeek n => .npeekRec node [] n
  | .getWhile f => .getWhileRec node [] f
  | .getWhileS f => .getWhileSRec node [] f
  | .toList => .toListRec node []
  | .junk => .junk node
  | .njunk n => .njunkRec node n
  | .getAvailable => .getAvailableRec node []
  | .getAvailableUpTo n => .getAvailableUpToRec node [] n

/-- The read removes what it returns from the stream. -/
def ReadOp.removes : ReadOp α → Bool
  | .peek | .isEmpty | .npeek _ => false
  | _ => true

namespace Streams

def setStatus (m : Streams α) (i : ℕ) (status : ReadStatus α) : Streams α :=
  { m with reads := m.reads.modify i fun r => { r with status := status } }

/-- The read `i` does what its call does next. -/
def doTurn (m : Streams α) (i reader : ℕ) (call : Call α) (reply : Reply α) :
    Turn α → Option (Streams α)
  | .feed next =>
    (m.feed reply).map fun
      | (m, .waits k) => m.setStatus i (.waiting k next)
      | (m, .ready) => m.setStatus i (.running next)
      | (m, .fails) => m.setStatus i .failed
  | .feedAvailable next acc =>
    (m.feed reply).map fun
      | (m, .waits _) => m.setStatus i (.returned (.list acc))
      | (m, .ready) => m.setStatus i (.running next)
      | (m, .fails) => m.setStatus i .failed
  | .test x => some (m.setStatus i (.testing x call))
  | .pass node x removes next =>
    let m := if removes then m.consume reader node else m
    let status := next.elim .running .returned
    some { m with reads := m.reads.modify i fun r =>
      { r with status := status, taken := r.taken ++ [x] } }
  | .return a => some (m.setStatus i (.returned a))
  | .empty => some (m.setStatus i .empty)

/-- What can happen to a stream and its clones. -/
inductive Step (α : Type)
  | clone (reader : ℕ)
  | start (reader : ℕ) (op : ReadOp α)
  | turn (i : ℕ) (reply : Reply α)
  /-- the promise that the read `i` waits for is resolved, and its callback runs -/
  | resume (i : ℕ)
  /-- the predicate of the read `i` gives its result, or an exception -/
  | answer (i : ℕ) (raises : Bool)
  | cancel (i : ℕ)
  | result (k : ℕ) (reply : Reply α)
  | push (x : Option α)
  | wakeupClose
  | pushBounded (x : α)
  | resize (size : ℤ)
  | closeBounded
  | cancelPush (j : ℕ)
  | runPushCallbacks (j : ℕ)

/-- `clone s`. -/
def clone (m : Streams α) (reader : ℕ) : Option (Streams α) :=
  if m.source.isPushBounded then none
  else some { m with nodes := m.nodes ++ [m.node reader] }

def step (m : Streams α) : Step α → Option (Streams α)
  | .clone reader => if reader < m.nodes.length then m.clone reader else none
  | .start reader op =>
    if reader < m.nodes.length then
      let start := m.node reader
      some { m with reads := m.reads ++ [⟨reader, op, start, [], .running (op.call start)⟩] }
    else none
  | .turn i reply =>
    match m.reads[i]? with
    | some ⟨reader, _, _, _, .running call⟩ =>
      m.doTurn i reader call reply (m.turnOf reader call)
    | _ => none
  | .resume i =>
    match m.reads[i]? with
    | some ⟨_, _, _, _, .waiting k call⟩ =>
      match m.signals[k]? with
      | some .fulfilled => some (m.setStatus i (.running call))
      | some .rejected => some (m.setStatus i .failed)
      | _ => none
    | _ => none
  | .answer i raises =>
    match m.reads[i]? with
    | some ⟨reader, _, _, _, .testing x call⟩ =>
      if raises then some (m.setStatus i .failed)
      else m.doTurn i reader call .later (call.tested x)
    | _ => none
  | .cancel i =>
    match m.reads[i]? with
    | some ⟨_, _, _, _, .waiting _ _⟩ => some (m.setStatus i .failed)
    | _ => none
  | .result k reply => m.result k reply
  | .push x => m.push x
  | .wakeupClose => m.wakeupClose
  | .pushBounded x => m.pushBounded x
  | .resize size => m.resize size
  | .closeBounded => m.closeBounded
  | .cancelPush j => m.cancelPush j
  | .runPushCallbacks j => m.runPushCallbacks j

end Streams

end Lwt
