import Mathlib.Data.Multiset.AddSub
import Mathlib.Data.Int.Notation

/-!
# Promises, callbacks and how to cancel

The data model of `lwt.ml`, module `Main_internal_types`.  Everything the user of the
library supplies and the library never looks into (function values, exceptions,
values, the user's own continuation) is drawn from one arbitrary type `U`.

Closures are named, not embedded: a callback of the source is an arrow
`'a resolved_state -> unit` built in one of a few places, so `Callback` has one
constructor for each shape of closure and lists the variables it captures.  The
sequential combinators differ only in what they do with a fulfilled and with a
rejected promise, and share the constructors `compose` and `observe`.

Fields marked *ghost* are read by no function of the machine; they give a callback an
identity and remember the promise it was attached to, for the statements about runs.
-/

namespace Lwt

/-- A reference to a promise: its index in the heap. -/
abbrev Pid := ℕ

variable (U : Type)

/-- Exceptions: `Canceled`, those the library raises itself, and the user's. -/
inductive Exn
  | canceled
  | invalidArgument (message : String)
  | assertFailure
  | empty
  | raised (e : U)
  deriving DecidableEq

/-- Values that promises hold and functions take and return. -/
inductive Val
  | unit
  | int (n : ℤ)
  | data (a : U)
  | exn (e : Exn U)
  | promise (p : Pid)
  | nil
  | cons (head tail : Val)
  | pair (fst snd : Val)
  | none
  | some (x : Val)
  | returned (v : Val)
  | failed (e : Exn U)
  | sleep
  deriving DecidableEq

variable {U}

/-- An OCaml list as a value. -/
def Val.ofList : List (Val U) → Val U
  | [] => .nil
  | x :: xs => .cons x (Val.ofList xs)

variable (U)

/-- `'a resolved_state`. -/
inductive Result
  | fulfilled (v : Val U)
  | rejected (e : Exn U)
  deriving DecidableEq

/-- Sequence-associated storage: a finite map from keys to values. -/
abbrev Storage := List (ℕ × Val U)

variable {U}

/-- The argument a user function gets from a result: the value, or the exception. -/
def Result.argument : Result U → Val U
  | .fulfilled v => v
  | .rejected e => .exn e

/-- `match result with Rejected Canceled -> true | _ -> false`. -/
def Result.isCanceled : Result U → Bool
  | .rejected .canceled => true
  | _ => false

/-- `Storage_map.add`. -/
def Storage.add (key : ℕ) (value : Val U) (storage : Storage U) : Storage U :=
  (key, value) :: storage.filter fun entry => entry.1 ≠ key

/-- `Storage_map.remove`. -/
def Storage.remove (key : ℕ) (storage : Storage U) : Storage U :=
  storage.filter fun entry => entry.1 ≠ key

/-- `Storage_map.find`. -/
def Storage.find (key : ℕ) (storage : Storage U) : Option (Val U) :=
  (storage.find? fun entry => entry.1 = key).map Prod.snd

variable (U)

/-- What the callback of a promise-producing combinator does with one kind of result. -/
inductive Compose
  /-- `resolve p'' p_result` -/
  | pass
  /-- restore the storage, `try f v with exn -> fail exn`, `make_into_proxy` -/
  | proxy (f : U)
  /-- restore the storage, `try Fulfilled (f v) with exn -> Rejected exn`, `resolve` -/
  | map (f : U)
  deriving DecidableEq

/-- What the callback of a combinator that makes no promise does with one kind of result. -/
inductive Observe
  | ignore
  /-- restore the storage, `handle_with_async_exception_hook f v` -/
  | hooked (f : U)
  /-- restore the storage, `handle_with_async_exception_hook f ()` -/
  | hookedUnit (f : U)
  /-- `h exn`, as `dont_wait` does -/
  | bare (h : U)
  /-- `!async_exception_hook exn` -/
  | hook
  deriving DecidableEq

/-- The closures attached as implicitly removed callbacks. -/
inductive Callback
  | compose (target : Pid) (storage : Storage U) (onFulfilled onRejected : Compose U)
  | observe (storage : Storage U) (onFulfilled onRejected : Observe U)
  | join (j : ℕ)
  deriving DecidableEq

/-- An implicitly removed callback.  `id` and `on` are ghost: a number no other
attachment has, and the promise the callback was attached to. -/
structure Node where
  id : ℕ
  on : Pid
  callback : Callback U
  deriving DecidableEq

/-- `'a regular_callback_list`; a removable callback is a reference to a cell. -/
inductive RegularCallbackList
  | empty
  | concat (l r : RegularCallbackList)
  | implicitlyRemoved (node : Node U)
  | explicitlyRemovable (cell : ℕ)
  deriving DecidableEq

/-- The functions attached as cancel callbacks: the user's, and the
`remove_the_callback` of `protected`. -/
inductive CancelCallback
  | user (f : U)
  | removeTheCallback (cell : ℕ)
  deriving DecidableEq

/-- Ghost: a number no other attachment has, and the promise a cancel callback was
attached to. -/
structure Mark where
  id : ℕ
  on : Pid
  deriving DecidableEq

/-- `'a cancel_callback_list`; the marks are ghost. -/
inductive CancelCallbackList
  | empty
  | concat (l r : CancelCallbackList)
  | callback (mark : Mark) (storage : Storage U) (f : CancelCallback U)
  | removeSequenceNode (mark : Mark) (node : ℕ)
  deriving DecidableEq

/-- `how_to_cancel`. -/
inductive HowToCancel
  | notCancelable
  | cancelThisPromise
  | propagateCancelToOne (p : Pid)
  | propagateCancelToSeveral (ps : List Pid)
  deriving DecidableEq

/-- The record of a pending promise. -/
structure Callbacks where
  regularCallbacks : RegularCallbackList U
  cancelCallbacks : CancelCallbackList U
  howToCancel : HowToCancel
  cleanupsDeferred : ℕ
  deriving DecidableEq

/-- The state of a promise; `resolved` stands for `Fulfilled _` and `Rejected _`. -/
inductive State
  | resolved (r : Result U)
  | pending (callbacks : Callbacks U)
  | proxy (p : Pid)
  deriving DecidableEq

/-- All promises ever made, by reference. -/
abbrev Heap := List (State U)

/-- The combinators that attach an explicitly removable callback. -/
inductive CellKind
  | choose
  | pick
  | nchoose
  | npick
  | nchooseSplit
  | protection
  deriving DecidableEq

/-- The reference cell of an explicitly removable callback, with what the closure in
it captures.  `live` is whether the cell still holds the function. -/
structure Cell where
  kind : CellKind
  target : Pid
  originallyAddedTo : List Pid
  live : Bool

/-- The references one call of `join` allocates: its promise, `number_pending_in_ps`
and `join_result`.  `live` is ghost: the promise is still to be resolved. -/
structure Join where
  target : Pid
  numberPendingInPs : ℤ
  joinResult : Result U
  live : Bool

end Lwt
