import Lwt.Library.Total
import Lwt.Promise.Api
import Lwt.Promise.Shape

/-!
# The store: who still has to resolve what

An abstract view of a configuration.  The stack and the queue of deferred callbacks are
forgotten but for the work in them: records to be run, parts of callback lists to be
iterated over, and promises that a function on the stack still has to resolve.  Work is
a multiset, since the order in which it is done matters to none of the invariants.

`Act` says everything that can happen to a store.  The next module proves that a step of
the machine is a sequence of acts; the invariants of later modules are about acts only.
Some kinds of acts are hazardous, and a `Guard` says when they are admitted.
-/

namespace Lwt

open Heap

variable (U : Type)

/-- Something that is still to be done. -/
inductive Work
  /-- `run_callbacks callbacks r` of the record of `p` -/
  | record (p : Pid) (callbacks : Callbacks U) (r : Result U)
  /-- regular callbacks to be called with `r` -/
  | regular (l : RegularCallbackList U) (r : Result U)
  /-- cancel callbacks to be called -/
  | cancels (l : CancelCallbackList U)
  /-- the underlying promise of `target` to be resolved or linked, with the result if it
  is known -/
  | owe (target : Pid) (r : Option (Result U))
  /-- the promise `p` itself to be resolved -/
  | oweExact (p : Pid) (r : Result U)

/-- The parts of a configuration that the invariants are about.  `joining` is the call
of `join` that is attaching its callbacks. -/
structure Store where
  heap : Heap U
  cells : List Cell
  joins : List (Join U)
  joining : Option ℕ
  sequences : Sequences Pid
  work : Multiset (Work U)
  resolvers : List Pid
  nextNode : ℕ
  trace : List (Event U)

variable {U}

/-- The acts that can go wrong: calling the callback in a cell, removing it, linking
`inner` under `outer`, losing work to an exception, and a call of `protected`. -/
inductive Hazard
  | call (cell : ℕ)
  | remove (cell : ℕ)
  | link (outer inner : Pid)
  | drop
  | protect

abbrev Guard (U : Type) := Store U → Hazard → Prop

/-- `p` is the data of a node. -/
def Sequences.Holds (s : Sequences Pid) (p : Pid) : Prop := ∃ i, s.data i = some p

/-- The events that no invariant reads. -/
def Event.IsNote : Event U → Prop
  | .applied _ _ | .cancelRequested _ => True
  | _ => False

namespace Store

def attach (s : Store U) (u : Pid) (callback : Callback U) : Store U :=
  let node : Node U := ⟨s.nextNode, u, callback⟩
  { s with
    heap := s.heap.modifyPending u (addImplicitlyRemovedCallback node)
    nextNode := s.nextNode + 1
    trace := .attached node :: s.trace }

def attachCancel (s : Store U) (u : Pid) (storage : Storage U) (f : CancelCallback U) : Store U :=
  let mark : Mark := ⟨s.nextNode, u⟩
  { s with
    heap := s.heap.modifyPending u (addCancelCallback mark storage f)
    nextNode := s.nextNode + 1
    trace := .cancelAttached mark :: s.trace }

/-- The cancel callbacks a new promise starts with, and the events that say so: none, or
the removal of its node from a sequence. -/
def Initializes (s : Store U) (l : CancelCallbackList U) (new : List (Event U)) : Prop :=
  (l = .empty ∧ new = []) ∨
    ∃ node, l = .removeSequenceNode ⟨s.nextNode, s.heap.length⟩ node ∧
      new = [.cancelAttached ⟨s.nextNode, s.heap.length⟩]

/-- The pending promise `u` is resolved, and its record is to be run. -/
def resolve (s : Store U) (u : Pid) (callbacks : Callbacks U) (r : Result U) : Store U :=
  { s with
    heap := s.heap.set u (.resolved r)
    work := .record u callbacks r ::ₘ s.work
    trace := .resolved u r :: s.trace }

/-- The members of the list a cell was added to. -/
def members (s : Store U) (i : ℕ) : List Pid :=
  (s.cells[i]?.map Cell.originallyAddedTo).getD []

def clear (s : Store U) (i : ℕ) : Store U :=
  { s with
    heap := visitEach (clearedCells s.cells i) s.heap (s.members i)
    cells := clearedCells s.cells i }

end Store

/-- What is left to do for the callback in a cell once it has removed itself; `h` is the
heap after the removal. -/
def Cell.owed (h : Heap U) (cell : Cell) (r : Result U) : Work U :=
  match cell.kind with
  | .choose | .pick | .protection => .owe cell.target (some r)
  | .nchoose =>
    .owe cell.target (some (collectFulfilledPromisesAfterPending h [] cell.originallyAddedTo))
  | .npick =>
    .oweExact (h.root cell.target)
      (collectFulfilledPromisesAfterPending h [] cell.originallyAddedTo)
  | .nchooseSplit => .owe cell.target (some (finishSplit h [] [] cell.originallyAddedTo))

/-- The work in a record that is being run. -/
def Callbacks.opened (callbacks : Callbacks U) (r : Result U) : Multiset (Work U) :=
  if r.isCanceled then {.cancels callbacks.cancelCallbacks, .regular callbacks.regularCallbacks r}
  else {.regular callbacks.regularCallbacks r}

/-- What can happen to a store. -/
inductive Act (g : Guard U) : Store U → Store U → Prop
  | compress {s : Store U} {h : Heap U} : Compressed s.heap h → Act g s { s with heap := h }
  | note {s : Store U} {e : Event U} : e.IsNote → Act g s { s with trace := e :: s.trace }
  | sequences {s : Store U} {q : Sequences Pid} :
      (∀ p, q.Holds p → s.sequences.Holds p) → Act g s { s with sequences := q }
  -- New promises.
  | allocResolved {s : Store U} (r : Result U) :
      Act g s { s with heap := s.heap ++ [.resolved r] }
  | allocInitial {s : Store U} {l : CancelCallbackList U} {how : HowToCancel}
      {q : Sequences Pid} {new : List (Event U)} : s.Initializes l new →
      (how = .notCancelable ∨ how = .cancelThisPromise) →
      (∀ p, q.Holds p → s.sequences.Holds p ∨ p = s.heap.length) →
      Act g s { s with
        heap := s.heap ++ [.pending ⟨.empty, l, how, 0⟩]
        sequences := q
        resolvers := s.heap.length :: s.resolvers
        nextNode := s.nextNode + new.length
        trace := new ++ s.trace }
  | attachCompose {s : Store U} {u : Pid} {how : HowToCancel} {storage : Storage U}
      {onFulfilled onRejected : Compose U} : s.heap.IsPending u →
      (how = .propagateCancelToOne u ∨ how = .notCancelable) →
      Act g s ({ s with heap := s.heap ++ [newPending how] }.attach u
        (.compose s.heap.length storage onFulfilled onRejected))
  | attachObserve {s : Store U} {u : Pid} {storage : Storage U}
      {onFulfilled onRejected : Observe U} : s.heap.IsPending u →
      Act g s (s.attach u (.observe storage onFulfilled onRejected))
  | newCell {s : Store U} {kind : CellKind} {ps : List Pid} {h : Heap U} : kind ≠ .protection →
      addCellToEach s.cells.length (s.heap ++ [newPending (.propagateCancelToSeveral ps)]) ps =
        some h →
      Act g s { s with heap := h, cells := s.cells ++ [⟨kind, s.heap.length, ps, true⟩] }
  | newProtection {s : Store U} {p : Pid} {storage : Storage U} {h : Heap U} :
      addCellToEach s.cells.length (s.heap ++ [newPending .cancelThisPromise]) [p] = some h →
      g s .protect →
      Act g s ({ s with
        heap := h
        cells := s.cells ++ [Cell.mk .protection s.heap.length [p] true]
      }.attachCancel s.heap.length storage (.removeTheCallback s.cells.length))
  | addUserCancel {s : Store U} {u : Pid} {storage : Storage U} {f : U} : s.heap.IsPending u →
      Act g s (s.attachCancel u storage (.user f))
  -- The calls of `join`.
  | joinNew {s : Store U} {l : List Pid} : s.joining = none →
      Act g s { s with
        heap := s.heap ++ [newPending (.propagateCancelToSeveral l)]
        joins := s.joins ++ [⟨s.heap.length, 0, .fulfilled .unit, true⟩]
        joining := some s.joins.length }
  | joinAttach {s : Store U} {j : ℕ} {join : Join U} {u : Pid} : s.joining = some j →
      s.joins[j]? = some join → s.heap.IsPending u →
      Act g s ({ s with
        joins := s.joins.set j { join with numberPendingInPs := join.numberPendingInPs + 1 }
      }.attach u (.join j))
  | joinNote {s : Store U} {j : ℕ} {join : Join U} {r : Result U} : s.joining = some j →
      s.joins[j]? = some join →
      Act g s { s with joins := s.joins.set j { join with joinResult := r } }
  | joinEnd {s : Store U} {j : ℕ} {join : Join U} : s.joining = some j →
      s.joins[j]? = some join → join.numberPendingInPs ≠ 0 → Act g s { s with joining := none }
  | joinEndEmpty {s : Store U} {j : ℕ} {join : Join U} : s.joining = some j →
      s.joins[j]? = some join → join.numberPendingInPs = 0 →
      Act g s { s with
        heap := s.heap ++ [.resolved join.joinResult]
        joins := s.joins.set j { join with live := false }
        joining := none }
  -- Resolution by the user.
  | wake {s : Store U} {p : Pid} {callbacks : Callbacks U} {r : Result U} : p ∈ s.resolvers →
      s.heap[s.heap.root p]? = some (.pending callbacks) →
      Act g s (s.resolve (s.heap.root p) callbacks r)
  | cancelMark {s : Store U} {u : Pid} {callbacks : Callbacks U} :
      s.heap[u]? = some (.pending callbacks) → callbacks.howToCancel = .cancelThisPromise →
      Act g s (s.resolve u callbacks (.rejected .canceled))
  -- Work.
  | runRecord {s : Store U} {w : Multiset (Work U)} {p : Pid} {callbacks : Callbacks U}
      {r : Result U} : s.work = .record p callbacks r ::ₘ w →
      Act g s { s with work := callbacks.opened r + w, trace := .recordRun p r :: s.trace }
  | regularEmpty {s : Store U} {w : Multiset (Work U)} {r : Result U} :
      s.work = .regular .empty r ::ₘ w → Act g s { s with work := w }
  | regularConcat {s : Store U} {w : Multiset (Work U)} {l l' : RegularCallbackList U}
      {r : Result U} : s.work = .regular (.concat l l') r ::ₘ w →
      Act g s { s with work := .regular l r ::ₘ .regular l' r ::ₘ w }
  | regularDead {s : Store U} {w : Multiset (Work U)} {i : ℕ} {r : Result U} :
      s.work = .regular (.explicitlyRemovable i) r ::ₘ w → isLive s.cells i = false →
      Act g s { s with work := w }
  | cancelsEmpty {s : Store U} {w : Multiset (Work U)} :
      s.work = .cancels .empty ::ₘ w → Act g s { s with work := w }
  | cancelsConcat {s : Store U} {w : Multiset (Work U)} {l l' : CancelCallbackList U} :
      s.work = .cancels (.concat l l') ::ₘ w →
      Act g s { s with work := .cancels l ::ₘ .cancels l' ::ₘ w }
  | cancelsUser {s : Store U} {w : Multiset (Work U)} {mark : Mark} {storage : Storage U} {f : U} :
      s.work = .cancels (.callback mark storage (.user f)) ::ₘ w →
      Act g s { s with work := w, trace := .cancelCalled mark :: s.trace }
  | cancelsNode {s : Store U} {w : Multiset (Work U)} {mark : Mark} {node : ℕ} :
      s.work = .cancels (.removeSequenceNode mark node) ::ₘ w →
      Act g s { s with work := w, trace := .cancelCalled mark :: s.trace }
  | cancelsRemove {s : Store U} {w : Multiset (Work U)} {mark : Mark} {storage : Storage U}
      {i : ℕ} : s.work = .cancels (.callback mark storage (.removeTheCallback i)) ::ₘ w →
      g s (.remove i) →
      Act g s { s.clear i with work := w, trace := .cancelCalled mark :: s.trace }
  | callCompose {s : Store U} {w : Multiset (Work U)} {node : Node U} {target : Pid}
      {storage : Storage U} {onFulfilled onRejected : Compose U} {r : Result U}
      {o : Option (Result U)} : s.work = .regular (.implicitlyRemoved node) r ::ₘ w →
      node.callback = .compose target storage onFulfilled onRejected →
      Act g s { s with work := .owe target o ::ₘ w, trace := .called node r :: s.trace }
  | callObserve {s : Store U} {w : Multiset (Work U)} {node : Node U} {storage : Storage U}
      {onFulfilled onRejected : Observe U} {r : Result U} :
      s.work = .regular (.implicitlyRemoved node) r ::ₘ w →
      node.callback = .observe storage onFulfilled onRejected →
      Act g s { s with work := w, trace := .called node r :: s.trace }
  | callJoinNone {s : Store U} {w : Multiset (Work U)} {node : Node U} {j : ℕ} {r : Result U} :
      s.work = .regular (.implicitlyRemoved node) r ::ₘ w → node.callback = .join j →
      s.joins[j]? = none → Act g s { s with work := w, trace := .called node r :: s.trace }
  | callJoin {s : Store U} {w : Multiset (Work U)} {node : Node U} {j : ℕ} {r x : Result U}
      {join : Join U} : s.work = .regular (.implicitlyRemoved node) r ::ₘ w →
      node.callback = .join j → s.joins[j]? = some join → join.numberPendingInPs - 1 ≠ 0 →
      Act g s { s with
        joins := s.joins.set j
          { join with joinResult := x, numberPendingInPs := join.numberPendingInPs - 1 }
        work := w
        trace := .called node r :: s.trace }
  | callJoinLast {s : Store U} {w : Multiset (Work U)} {node : Node U} {j : ℕ}
      {r x : Result U} {join : Join U} : s.joining = none →
      s.work = .regular (.implicitlyRemoved node) r ::ₘ w →
      node.callback = .join j → s.joins[j]? = some join → join.numberPendingInPs - 1 = 0 →
      Act g s { s with
        joins := s.joins.set j
          { join with
            joinResult := x, numberPendingInPs := join.numberPendingInPs - 1, live := false }
        work := .owe join.target (some x) ::ₘ w
        trace := .called node r :: s.trace }
  | callCell {s : Store U} {w : Multiset (Work U)} {i : ℕ} {cell : Cell} {r : Result U} :
      s.work = .regular (.explicitlyRemovable i) r ::ₘ w → s.cells[i]? = some cell →
      cell.live = true → cell.kind ≠ .protection → g s (.call i) →
      Act g s { s.clear i with
        work := cell.owed (s.clear i).heap r ::ₘ w
        trace := .cellCalled i r :: s.trace }
  | callProtection {s : Store U} {w : Multiset (Work U)} {i : ℕ} {cell : Cell} {r : Result U}
      {h : Heap U} {callbacks : Callbacks U} :
      s.work = .regular (.explicitlyRemovable i) r ::ₘ w → s.cells[i]? = some cell →
      cell.live = true → cell.kind = .protection → g s (.call i) →
      Compressed (s.clear i).heap h →
      h[s.heap.root cell.target]? = some (.pending callbacks) →
      Act g s ({ s.clear i with
        heap := h
        work := w
        trace := .cellCalled i r :: s.trace
      }.resolve (s.heap.root cell.target) callbacks r)
  -- What is owed is paid.
  | settle {s : Store U} {w : Multiset (Work U)} {target : Pid} {o : Option (Result U)}
      {r : Result U} {callbacks : Callbacks U} : s.work = .owe target o ::ₘ w →
      (o = none ∨ o = some r) →
      s.heap[s.heap.root target]? = some (.pending callbacks) →
      Act g s ({ s with work := w }.resolve (s.heap.root target) callbacks r)
  | settleExact {s : Store U} {w : Multiset (Work U)} {p : Pid} {r : Result U}
      {callbacks : Callbacks U} : s.work = .oweExact p r ::ₘ w →
      s.heap[p]? = some (.pending callbacks) →
      Act g s ({ s with work := w }.resolve p callbacks r)
  | link {s : Store U} {w : Multiset (Work U)} {target q : Pid} {h : Heap U}
      {callbacks outerCallbacks : Callbacks U} : s.work = .owe target none ::ₘ w →
      Compressed s.heap h → s.heap.root q ≠ s.heap.root target →
      h[s.heap.root q]? = some (.pending callbacks) →
      h[s.heap.root target]? = some (.pending outerCallbacks) →
      g s (.link (s.heap.root target) (s.heap.root q)) →
      Act g s { s with
        heap :=
          (h.set (s.heap.root target)
            (.pending { mergeCallbacks s.cells callbacks outerCallbacks with
              howToCancel := callbacks.howToCancel })).set (s.heap.root q)
            (.proxy (s.heap.root target))
        work := w }
  | same {s : Store U} {w : Multiset (Work U)} {target q : Pid} :
      s.work = .owe target none ::ₘ w → s.heap.root q = s.heap.root target →
      Act g s { s with work := w }
  | drop {s : Store U} {w : Multiset (Work U)} : g s .drop → w ≤ s.work →
      Act g s { s with work := w }

/-- Any number of acts. -/
abbrev Acts (g : Guard U) : Store U → Store U → Prop := Relation.ReflTransGen (Act g)

/-- A promise has to be resolved that is not pending. -/
inductive Stuck (g : Guard U) (s : Store U) : Prop
  | owe {t : Pid} {o : Option (Result U)} : .owe t o ∈ s.work →
      ¬ s.heap.IsPending (s.heap.root t) → Stuck g s
  | oweExact {p : Pid} {r : Result U} : .oweExact p r ∈ s.work → ¬ s.heap.IsPending p → Stuck g s
  | protection {i : ℕ} {cell : Cell} {r : Result U} :
      .regular (.explicitlyRemovable i) r ∈ s.work → s.cells[i]? = some cell → cell.live = true →
      cell.kind = .protection → g s (.call i) →
      ¬ s.heap.IsPending (s.heap.root cell.target) → Stuck g s

end Lwt
