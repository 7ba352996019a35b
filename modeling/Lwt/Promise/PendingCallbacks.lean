import Lwt.Promise.Heap

/-!
# Callback lists of pending promises

Module `Pending_callbacks` of `lwt.ml`: adding callbacks to the record of a pending
promise, merging two records, and clearing the cell of an explicitly removable
callback.  The reference cells live in a table; whether a cell still holds its function
is read through `isLive`.

Clearing a cell also visits the promises it was added to.  A visit empties a callback
list that is a single removable callback, and otherwise counts, scanning the list for
cleared cells once the count passes `cleanupThrottle`.
-/

namespace Lwt

variable {U : Type}

def concatRegularCallbacks : RegularCallbackList U → RegularCallbackList U → RegularCallbackList U
  | .empty, l2 => l2
  | l1, .empty => l1
  | l1, l2 => .concat l1 l2

def concatCancelCallbacks : CancelCallbackList U → CancelCallbackList U → CancelCallbackList U
  | .empty, l2 => l2
  | l1, .empty => l1
  | l1, l2 => .concat l1 l2

/-- Whether the reference cell `c` is `{contents = Some _}`. -/
def isLive (cells : List Cell) (c : ℕ) : Bool :=
  match cells[c]? with
  | some cell => cell.live
  | none => false

/-- Filters out the cells of removed callbacks. -/
def cleanUpCallbackCells (cells : List Cell) : RegularCallbackList U → RegularCallbackList U
  | .explicitlyRemovable c => if isLive cells c then .explicitlyRemovable c else .empty
  | .implicitlyRemoved node => .implicitlyRemoved node
  | .empty => .empty
  | .concat l1 l2 =>
    concatRegularCallbacks (cleanUpCallbackCells cells l1) (cleanUpCallbackCells cells l2)

def cleanupThrottle : ℕ := 42

/-- What `clear_explicitly_removable_callback_cell` does to the record of one promise. -/
def deferOrCleanUp (cells : List Cell) (callbacks : Callbacks U) : Callbacks U :=
  match callbacks.regularCallbacks with
  | .explicitlyRemovable _ => { callbacks with regularCallbacks := .empty }
  | regularCallbacks =>
    if cleanupThrottle < callbacks.cleanupsDeferred + 1 then
      { callbacks with
        cleanupsDeferred := 0
        regularCallbacks := cleanUpCallbackCells cells regularCallbacks }
    else
      { callbacks with cleanupsDeferred := callbacks.cleanupsDeferred + 1 }

/-- Changes the record of `u` if `u` is pending. -/
def Heap.modifyPending (h : Heap U) (u : Pid) (f : Callbacks U → Callbacks U) : Heap U :=
  match h[u]? with
  | some (.pending callbacks) => h.set u (.pending (f callbacks))
  | _ => h

/-- The iteration of `clear_explicitly_removable_callback_cell` over the promises the
cell was added to. -/
def visitEach (cells : List Cell) (h : Heap U) (ps : List Pid) : Heap U :=
  ps.foldl (fun h p => (h.compress p).modifyPending (h.root p) (deferOrCleanUp cells)) h

/-- The table of cells after `cell := None`. -/
def clearedCells (cells : List Cell) (c : ℕ) : List Cell :=
  cells.modify c fun cell => { cell with live := false }

/-- `clear_explicitly_removable_callback_cell cell ~originally_added_to:ps`. -/
def clearExplicitlyRemovableCallbackCell (h : Heap U) (cells : List Cell) (c : ℕ)
    (ps : List Pid) : Heap U × List Cell :=
  (visitEach (clearedCells cells c) h ps, clearedCells cells c)

/-- `merge_callbacks ~from ~into`: the new record of `into`. -/
def mergeCallbacks (cells : List Cell) (from' into : Callbacks U) : Callbacks U :=
  let regularCallbacks := concatRegularCallbacks into.regularCallbacks from'.regularCallbacks
  let cleanupsDeferred := into.cleanupsDeferred + from'.cleanupsDeferred
  { into with
    regularCallbacks :=
      if cleanupThrottle < cleanupsDeferred then cleanUpCallbackCells cells regularCallbacks
      else regularCallbacks
    cleanupsDeferred := if cleanupThrottle < cleanupsDeferred then 0 else cleanupsDeferred
    cancelCallbacks := concatCancelCallbacks into.cancelCallbacks from'.cancelCallbacks }

def addRegularCallbackListNode (node : RegularCallbackList U) (callbacks : Callbacks U) :
    Callbacks U :=
  { callbacks with
    regularCallbacks :=
      match callbacks.regularCallbacks with
      | .empty => node
      | existing => .concat node existing }

def addImplicitlyRemovedCallback (node : Node U) (callbacks : Callbacks U) : Callbacks U :=
  addRegularCallbackListNode (.implicitlyRemoved node) callbacks

/-- The iteration of `add_explicitly_removable_callback_and_give_cell`; `none` is its
`assert false`. -/
def addCellToEach (c : ℕ) : Heap U → List Pid → Option (Heap U)
  | h, [] => some h
  | h, p :: ps =>
    match h.stateOf p with
    | some (.pending callbacks) =>
      addCellToEach c
        ((h.compress p).set (h.root p)
          (.pending (addRegularCallbackListNode (.explicitlyRemovable c) callbacks))) ps
    | _ => none

def addCancelCallback (mark : Mark) (storage : Storage U) (f : CancelCallback U)
    (callbacks : Callbacks U) : Callbacks U :=
  { callbacks with
    cancelCallbacks :=
      match callbacks.cancelCallbacks with
      | .empty => .callback mark storage f
      | existing => .concat (.callback mark storage f) existing }

end Lwt
