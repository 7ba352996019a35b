import Lwt.Library.Tickets
import Lwt.Library.Transition
import Mathlib.Order.Bounds.Basic

/-!
# The waiters of `Lwt_condition`

`broadcast` copies the queue of the condition variable, empties it, and then wakes the
resolvers of its copy one after the other.  Each wakeup can run callbacks of the user,
which call `wait`, `signal`, `broadcast` or `cancel` before the next wakeup, so broadcasts
nest.  `signal` takes the first resolver and wakes it.  A resolver whose promise has been
canceled is ignored by `wakeup_later`.

A `cancel` that reaches several promises rejects all of them before it runs the callbacks
of the first one, and it is a callback of the promise of `wait` that takes its resolver
out of the queue.  A `signal` of a callback in between can be spent on a promise that is
already rejected (`signal_wakes_first_iff`).
-/

namespace Lwt

open Tickets Transition

/-- Where the promise `waiter` of a call of `wait` stands. -/
inductive WaitState (α : Type)
  | pending
  | signaled (arg : α)
  /-- resolved by the call `k` of `broadcast` or `broadcast_exn` -/
  | broadcasted (k : ℕ)
  /-- rejected by `cancel`, its cancel callback is yet to run -/
  | canceled
  /-- rejected by `cancel`, its cancel callback has run -/
  | removed

namespace WaitState

variable {α : Type}

def isPending : WaitState α → Bool
  | .pending => true
  | _ => false

def isCanceled : WaitState α → Bool
  | .canceled | .removed => true
  | _ => false

/-- The promise has not been resolved by a resolver. -/
def Unresolved (st : WaitState α) : Prop :=
  st.isPending = true ∨ st.isCanceled = true

end WaitState

/-- A call of `broadcast` or `broadcast_exn`.  The code has only `arg`; the other fields
record what the promises were at the call and which of them the call has resolved. -/
structure Broadcast (α ε : Type) where
  arg : Except ε α
  /-- the calls of `wait` made before -/
  started : ℕ
  /-- the promises that were pending on the condition variable -/
  waiting : List ℕ
  resolved : List ℕ

/-- The promise of the wait `n` is resolved by the call. -/
def Broadcast.book {α ε : Type} (b : Broadcast α ε) (n : ℕ) : Broadcast α ε :=
  { b with resolved := b.resolved ++ [n] }

/-- A call of `broadcast` that is under way, with the rest of the list it iterates over. -/
structure Iteration where
  number : ℕ
  wakeners : List ℕ

/-- A condition variable with the calls of `wait` on it, in the order they were made. -/
structure ConditionQueue (α ε : Type) where
  cvar : List ℕ
  waits : List (WaitState α)
  broadcasts : List (Broadcast α ε)
  /-- the broadcasts under way, innermost first -/
  stack : List Iteration
  /-- `wakeup_later` has raised `Invalid_argument` -/
  raised : Bool

namespace ConditionQueue

variable {α ε : Type}

/-- `create ()`. -/
def create : ConditionQueue α ε := ⟨[], [], [], [], false⟩

/-- The promise of the wait `n` is pending. -/
def pending (x : ConditionQueue α ε) (n : ℕ) : Bool := holds WaitState.isPending x.waits n

/-- The promise of the wait `n` has been canceled. -/
def canceled (x : ConditionQueue α ε) (n : ℕ) : Bool := holds WaitState.isCanceled x.waits n

/-- `wait cvar`, up to its finalizer. -/
def wait (x : ConditionQueue α ε) : ConditionQueue α ε :=
  { x with cvar := x.cvar ++ [x.waits.length], waits := x.waits ++ [.pending] }

/-- `Lwt.wakeup_later` and `Lwt.wakeup_later_exn` of the resolver of the wait `n`. -/
def wakeupLater (x : ConditionQueue α ε) (n : ℕ) (st : WaitState α) : ConditionQueue α ε :=
  match x.waits[n]? with
  | some .pending => { x with waits := x.waits.set n st }
  | some (.signaled _) | some (.broadcasted _) => { x with raised := true }
  | _ => x

/-- `signal cvar arg`. -/
def signal (x : ConditionQueue α ε) (arg : α) : ConditionQueue α ε :=
  match x.cvar with
  | [] => x
  | n :: cvar => { x with cvar := cvar }.wakeupLater n (.signaled arg)

/-- `broadcast cvar arg` and `broadcast_exn cvar exn`, up to the iteration over the
resolvers. -/
def broadcast (x : ConditionQueue α ε) (arg : Except ε α) : ConditionQueue α ε :=
  { x with
    cvar := []
    broadcasts := x.broadcasts ++
      [⟨arg, x.waits.length, x.cvar.filter x.pending, []⟩]
    stack := ⟨x.broadcasts.length, x.cvar⟩ :: x.stack }

/-- The innermost broadcast goes on: it wakes its next resolver, or it returns. -/
def iterate (x : ConditionQueue α ε) : Option (ConditionQueue α ε) :=
  match x.stack with
  | [] => none
  | ⟨_, []⟩ :: stack => some { x with stack := stack }
  | ⟨k, n :: wakeners⟩ :: stack =>
    some ({ x with
      broadcasts := if x.pending n then x.broadcasts.modify k (·.book n) else x.broadcasts
      stack := ⟨k, wakeners⟩ :: stack }.wakeupLater n (.broadcasted k))

/-- The part of `Lwt.cancel` that rejects the promise of the wait `n`. -/
def reject (x : ConditionQueue α ε) (n : ℕ) : ConditionQueue α ε :=
  match x.waits[n]? with
  | some .pending => { x with waits := x.waits.set n .canceled }
  | _ => x

/-- What can happen; the calls of the user can come at any moment between two wakeups. -/
inductive Step (α ε : Type)
  | wait
  | signal (arg : α)
  | broadcast (arg : Except ε α)
  | iterate
  /-- a call of `Lwt.cancel` that reaches the promises of these waits, and perhaps others -/
  | cancel (ns : List ℕ)
  /-- the cancel callback of the wait `n`, which removes the node of its resolver -/
  | runCancelCallbacks (n : ℕ)

def step (x : ConditionQueue α ε) : Step α ε → Option (ConditionQueue α ε)
  | .wait => some x.wait
  | .signal arg => some (x.signal arg)
  | .broadcast arg => some (x.broadcast arg)
  | .iterate => x.iterate
  | .cancel ns => some (ns.foldl reject x)
  | .runCancelCallbacks n =>
    match x.waits[n]? with
    | some .canceled =>
      some { x with waits := x.waits.set n .removed, cvar := x.cvar.filter (· ≠ n) }
    | _ => none

/-! ## Invariant -/

/-- The resolvers in the order of their waits: those that the broadcasts under way have yet
to wake, outermost first, and then those of the queue. -/
def line (x : ConditionQueue α ε) : List ℕ :=
  x.stack.reverse.flatMap (·.wakeners) ++ x.cvar

/-- The resolvers that the broadcast `k` has yet to wake. -/
def left (x : ConditionQueue α ε) (k : ℕ) : List ℕ :=
  (x.stack.filter (·.number = k)).flatMap (·.wakeners)

/-- The promises that were pending at the call of `b` and have not been canceled since are
those it has resolved, and then those it has yet to resolve. -/
def Account (x : ConditionQueue α ε) (b : Broadcast α ε) (wakeners : List ℕ) : Prop :=
  b.waiting.filter (fun n => !x.canceled n) = b.resolved ++ wakeners.filter x.pending

structure Orderly (x : ConditionQueue α ε) : Prop where
  line : Queued WaitState.Unresolved (·.isPending = true) x.waits x.line
  numbers : ∀ it ∈ x.stack, it.number < x.broadcasts.length
  resolved : ∀ n k : ℕ, x.waits[n]? = some (WaitState.broadcasted k) ↔
    ∃ b, x.broadcasts[k]? = some b ∧ n ∈ b.resolved
  waiting : ∀ b ∈ x.broadcasts, b.waiting.Pairwise (· < ·) ∧
    (∀ n ∈ b.waiting, n < b.started) ∧ b.started ≤ x.waits.length
  account : ∀ (k : ℕ) b, x.broadcasts[k]? = some b → x.Account b (x.left k)
  raised : x.raised = false

variable {x y : ConditionQueue α ε} {b : Broadcast α ε} {wakeners : List ℕ} {n k : ℕ}
  {st : WaitState α}

@[simp] theorem pending_eq_true_iff : x.pending n = true ↔ x.waits[n]? = some .pending := by
  constructor
  · intro h
    obtain ⟨st, hst, hp⟩ := getElem?_of_holds h
    cases st <;> simp_all [WaitState.isPending]
  · intro h
    exact holds_of_getElem? h

/-- An account does not change if the promises it is about stay as they are. -/
theorem Account.congr (h : x.Account b wakeners)
    (hcanceled : ∀ n ∈ b.waiting, y.canceled n = x.canceled n)
    (hpending : ∀ n ∈ wakeners, y.pending n = x.pending n) : y.Account b wakeners := by
  have hleft : b.waiting.filter (fun n => !y.canceled n) =
      b.waiting.filter (fun n => !x.canceled n) :=
    List.filter_congr fun n hn => by rw [hcanceled n hn]
  have hright : wakeners.filter y.pending = wakeners.filter x.pending :=
    List.filter_congr fun n hn => hpending n hn
  unfold Account
  rw [hleft, hright]
  exact h

theorem Account.reject (h : x.Account b wakeners) (hn : x.waits[n]? = some .pending)
    (hres : n ∉ b.resolved) :
    Account { x with waits := x.waits.set n .canceled } b wakeners := by
  have hlt : n < x.waits.length := (List.getElem?_eq_some_iff.mp hn).1
  have hcanceled : ∀ m, holds WaitState.isCanceled (x.waits.set n .canceled) m =
      (decide (m = n) || x.canceled m) := by
    intro m
    by_cases hm : m = n
    · subst hm
      simp [holds_set_self hlt, WaitState.isCanceled]
    · simp [holds_set_of_ne hm, hm, canceled]
  have hpending : ∀ m, holds WaitState.isPending (x.waits.set n .canceled) m =
      (decide (m ≠ n) && x.pending m) := by
    intro m
    by_cases hm : m = n
    · subst hm
      simp [holds_set_self hlt, WaitState.isPending]
    · simp [holds_set_of_ne hm, hm, pending]
  have hleft : b.waiting.filter (fun m => !holds WaitState.isCanceled
      (x.waits.set n .canceled) m) =
      (b.waiting.filter (fun m => !x.canceled m)).filter (· ≠ n) := by
    rw [List.filter_filter]
    refine List.filter_congr fun m _ => ?_
    simp [hcanceled]
  have hright : wakeners.filter (holds WaitState.isPending (x.waits.set n .canceled)) =
      (wakeners.filter x.pending).filter (· ≠ n) := by
    rw [List.filter_filter]
    exact List.filter_congr fun m _ => hpending m
  have hresolved : b.resolved.filter (· ≠ n) = b.resolved := by
    refine List.filter_eq_self.mpr fun m hm => ?_
    have hne : m ≠ n := by
      rintro rfl
      exact hres hm
    simpa using hne
  calc b.waiting.filter (fun m => !holds WaitState.isCanceled (x.waits.set n .canceled) m)
      = (b.waiting.filter (fun m => !x.canceled m)).filter (· ≠ n) := hleft
    _ = (b.resolved ++ wakeners.filter x.pending).filter (· ≠ n) := by rw [h]
    _ = b.resolved ++ (wakeners.filter x.pending).filter (· ≠ n) := by
        rw [List.filter_append, hresolved]
    _ = b.resolved ++
        wakeners.filter (holds WaitState.isPending (x.waits.set n .canceled)) := by rw [hright]

theorem Account.book (h : x.Account b (n :: wakeners)) (hn : x.waits[n]? = some .pending)
    (hnew : n ∉ wakeners) :
    Account { x with waits := x.waits.set n (.broadcasted k) } (b.book n) wakeners := by
  have hcanceled : ∀ m, holds WaitState.isCanceled (x.waits.set n (.broadcasted k)) m =
      x.canceled m := fun m => holds_set_of_eq hn rfl
  have hpending : wakeners.filter (holds WaitState.isPending (x.waits.set n (.broadcasted k))) =
      wakeners.filter x.pending := by
    refine List.filter_congr fun m hm => holds_set_of_ne ?_
    rintro rfl
    exact hnew hm
  have hfirst : (n :: wakeners).filter x.pending = n :: wakeners.filter x.pending :=
    List.filter_cons_of_pos (pending_eq_true_iff.mpr hn)
  show b.waiting.filter (fun m => !holds WaitState.isCanceled _ m) = _ ++ List.filter _ wakeners
  calc b.waiting.filter (fun m => !holds WaitState.isCanceled _ m)
      = b.waiting.filter (fun m => !x.canceled m) :=
        List.filter_congr fun m _ => by rw [hcanceled]
    _ = b.resolved ++ n :: wakeners.filter x.pending := by rw [h, hfirst]
    _ = (b.resolved ++ [n]) ++ wakeners.filter x.pending := by simp
    _ = (b.resolved ++ [n]) ++ wakeners.filter (holds WaitState.isPending _) := by rw [hpending]

theorem mem_flatMap_of_left (h : n ∈ x.left k) : n ∈ x.stack.reverse.flatMap (·.wakeners) := by
  obtain ⟨it, hit, hn⟩ := List.mem_flatMap.mp h
  have hstack : it ∈ x.stack.reverse := List.mem_reverse.mpr (List.mem_filter.mp hit).1
  exact List.mem_flatMap.mpr ⟨it, hstack, hn⟩

theorem mem_line_of_left (h : n ∈ x.left k) : n ∈ x.line :=
  List.mem_append_left _ (mem_flatMap_of_left h)

theorem orderly_create : Orderly (create : ConditionQueue α ε) where
  line := .empty _ _
  numbers := by simp [create]
  resolved := by simp [create]
  waiting := by simp [create]
  account := by simp [create]
  raised := rfl

namespace Orderly

theorem pending_or_canceled (hx : Orderly x) (hn : n ∈ x.line) :
    x.waits[n]? = some .pending ∨ ∃ old, x.waits[n]? = some old ∧ old.isCanceled = true := by
  obtain ⟨old, hold, hunresolved⟩ := hx.line.linked n hn
  rcases hunresolved with h | h
  · refine .inl (pending_eq_true_iff.mp ?_)
    rw [pending, holds_of_getElem? hold, h]
  · exact .inr ⟨old, hold, h⟩

theorem number_lt (hx : Orderly x) (hn : n ∈ x.left k) : k < x.broadcasts.length := by
  obtain ⟨it, hit, -⟩ := List.mem_flatMap.mp hn
  obtain ⟨hstack, hk⟩ := List.mem_filter.mp hit
  obtain rfl : it.number = k := by simpa using hk
  exact hx.numbers it hstack

theorem waiting_lt (hx : Orderly x) (hb : b ∈ x.broadcasts) (hn : n ∈ b.waiting) :
    n < x.waits.length :=
  Nat.lt_of_lt_of_le ((hx.waiting b hb).2.1 n hn) (hx.waiting b hb).2.2

theorem wait (hx : Orderly x) : Orderly x.wait where
  line := by
    have h := hx.line.enqueue (show (WaitState.pending : WaitState α).Unresolved from .inl rfl)
    rwa [ConditionQueue.line, List.append_assoc] at h
  numbers := hx.numbers
  resolved n k := by
    refine Iff.trans ?_ (hx.resolved n k)
    constructor
    · intro h
      rcases getElem?_append_cases h with h | ⟨-, h⟩
      · exact h
      · cases h
    · intro h
      have hlt := (List.getElem?_eq_some_iff.mp h).1
      rw [← h]
      exact List.getElem?_append_left hlt
  waiting b hb := by
    obtain ⟨hsorted, hlt, hle⟩ := hx.waiting b hb
    refine ⟨hsorted, hlt, ?_⟩
    show b.started ≤ (x.waits ++ [WaitState.pending]).length
    rw [List.length_append]
    omega
  account k b hb := by
    refine (hx.account k b hb).congr (fun n hn => holds_append ?_) fun n hn => holds_append ?_
    · exact hx.waiting_lt (List.mem_of_getElem? hb) hn
    · exact hx.line.lt_length (mem_line_of_left hn)
  raised := hx.raised

/-- The promise of the wait `n` is resolved by no broadcast, and its resolver goes out of the
queue of the condition variable or stays where it is. -/
theorem settle (hx : Orderly x) {cvar : List ℕ} {old : WaitState α}
    (hn : x.waits[n]? = some old) (hold : ∀ k, old ≠ .broadcasted k)
    (hst : ∀ k, st ≠ .broadcasted k)
    (hline : Queued WaitState.Unresolved (·.isPending = true) (x.waits.set n st)
      (x.stack.reverse.flatMap (·.wakeners) ++ cvar))
    (haccount : ∀ (k : ℕ) b, x.broadcasts[k]? = some b →
      Account { x with waits := x.waits.set n st } b (x.left k)) :
    Orderly { x with cvar := cvar, waits := x.waits.set n st } where
  line := hline
  numbers := hx.numbers
  resolved m k := by
    rw [← hx.resolved m k]
    exact getElem?_set_iff hn (hold k) (hst k) m
  waiting b hb := by
    obtain ⟨hsorted, hlt, hle⟩ := hx.waiting b hb
    exact ⟨hsorted, hlt, by simpa using hle⟩
  account k b hb := haccount k b hb
  raised := hx.raised

theorem reject (hx : Orderly x) (n : ℕ) : Orderly (x.reject n) := by
  unfold ConditionQueue.reject
  split
  · rename_i hn
    refine hx.settle hn (by simp) (by simp) ?_ fun k b hb => ?_
    · exact hx.line.set (fun _ => .inr rfl) (by simp [WaitState.isPending])
    · refine (hx.account k b hb).reject hn fun hres => ?_
      have h := (hx.resolved n k).mpr ⟨b, hb, hres⟩
      simp [hn] at h
  · exact hx

theorem cancel (hx : Orderly x) (ns : List ℕ) : Orderly (ns.foldl ConditionQueue.reject x) := by
  induction ns generalizing x with
  | nil => exact hx
  | cons n ns ih => exact ih (hx.reject n)

theorem runCancelCallbacks (hx : Orderly x) (hn : x.waits[n]? = some .canceled) :
    Orderly { x with waits := x.waits.set n .removed, cvar := x.cvar.filter (· ≠ n) } := by
  refine hx.settle hn (by simp) (by simp) ?_ fun k b hb => ?_
  · refine hx.line.shrink ?_ (fun m hm hmn => ?_) (by simp [WaitState.isPending])
      fun _ => .inr rfl
    · exact List.Sublist.append_left List.filter_sublist _
    · rcases List.mem_append.mp hm with hm | hm
      · exact List.mem_append_left _ hm
      · exact List.mem_append_right _ (List.mem_filter.mpr ⟨hm, by simpa using hmn⟩)
  · exact (hx.account k b hb).congr (fun m _ => holds_set_of_eq hn rfl)
      fun m _ => holds_set_of_eq hn rfl

theorem signal (hx : Orderly x) (arg : α) : Orderly (x.signal arg) := by
  unfold ConditionQueue.signal
  split
  · exact hx
  · rename_i n cvar hcvar
    have hsorted := hx.line.sorted
    rw [ConditionQueue.line, hcvar] at hsorted
    have hmem : n ∈ x.line := by simp [ConditionQueue.line, hcvar]
    have hsub : (x.stack.reverse.flatMap (·.wakeners) ++ cvar).Sublist x.line := by
      rw [ConditionQueue.line, hcvar]
      exact List.Sublist.append_left (List.sublist_cons_self n cvar) _
    have hrest : ∀ m ∈ x.line, m ≠ n → m ∈ x.stack.reverse.flatMap (·.wakeners) ++ cvar := by
      intro m hm hmn
      simpa [ConditionQueue.line, hcvar, hmn] using hm
    have hout : n ∉ x.stack.reverse.flatMap (·.wakeners) ++ cvar := by
      intro hn
      rcases List.mem_append.mp hn with hn | hn
      · have h := (List.pairwise_append.mp hsorted).2.2 n hn n List.mem_cons_self
        exact Nat.lt_irrefl n h
      · have h := (List.pairwise_cons.mp (List.pairwise_append.mp hsorted).2.1).1 n hn
        exact Nat.lt_irrefl n h
    have hleft : ∀ (k m : ℕ), m ∈ x.left k → m ≠ n := by
      rintro k m hm rfl
      exact hout (List.mem_append_left _ (mem_flatMap_of_left hm))
    rcases hx.pending_or_canceled hmem with hn | ⟨old, hn, hold⟩
    · simp only [wakeupLater, hn]
      refine hx.settle hn (by simp) (by simp) ?_ fun k b hb => ?_
      · exact hx.line.shrink hsub hrest (by simp [WaitState.isPending]) fun h => absurd h hout
      · exact (hx.account k b hb).congr (fun m _ => holds_set_of_eq hn rfl)
          fun m hm => holds_set_of_ne (hleft k m hm)
    · have hset : x.waits.set n old = x.waits := by
        obtain ⟨hlt, rfl⟩ := List.getElem?_eq_some_iff.mp hn
        exact List.set_getElem_self hlt
      have hnot : ∀ k, old ≠ .broadcasted k := by
        rintro k rfl
        cases hold
      have hpending : ¬ old.isPending = true := by
        intro h
        cases old <;> simp_all [WaitState.isPending, WaitState.isCanceled]
      have h : Orderly { x with cvar := cvar, waits := x.waits.set n old } := by
        refine hx.settle hn hnot hnot ?_ fun k b hb => ?_
        · exact hx.line.shrink hsub hrest hpending fun h => absurd h hout
        · exact (hx.account k b hb).congr (fun m _ => holds_set_of_eq hn rfl)
            fun m hm => holds_set_of_ne (hleft k m hm)
      rw [hset] at h
      have hignored : ({ x with cvar := cvar } : ConditionQueue α ε).wakeupLater n (.signaled arg) =
          { x with cvar := cvar } := by
        cases old <;> simp_all [wakeupLater, WaitState.isCanceled]
      rw [hignored]
      exact h

theorem broadcast (hx : Orderly x) (arg : Except ε α) : Orderly (x.broadcast arg) where
  line := by
    have hline : (x.broadcast arg).line = x.line := by
      simp [ConditionQueue.line, ConditionQueue.broadcast]
    rw [hline]
    exact hx.line
  numbers it hit := by
    have hlength : (x.broadcast arg).broadcasts.length = x.broadcasts.length + 1 := by
      simp [ConditionQueue.broadcast]
    rcases List.mem_cons.mp hit with rfl | hit
    · show x.broadcasts.length < _
      omega
    · have := hx.numbers it hit
      omega
  resolved n k := by
    refine (hx.resolved n k).trans ⟨?_, ?_⟩
    · rintro ⟨b, hb, hn⟩
      refine ⟨b, ?_, hn⟩
      rw [← hb]
      exact List.getElem?_append_left (List.getElem?_eq_some_iff.mp hb).1
    · rintro ⟨b, hb, hn⟩
      rcases getElem?_append_cases hb with hb | ⟨-, rfl⟩
      · exact ⟨b, hb, hn⟩
      · simp at hn
  waiting b hb := by
    rcases List.mem_append.mp hb with hb | hb
    · exact hx.waiting b hb
    · obtain rfl := List.mem_singleton.mp hb
      refine ⟨?_, fun n hn => ?_, Nat.le_refl _⟩
      · exact (List.pairwise_append.mp hx.line.sorted).2.1.filter _
      · exact hx.line.lt_length (List.mem_append_right _ (List.mem_filter.mp hn).1)
  account k b hb := by
    have hleft : (x.broadcast arg).left k =
        (if x.broadcasts.length = k then x.cvar else []) ++ x.left k := by
      unfold ConditionQueue.left ConditionQueue.broadcast
      split <;> simp_all
    rcases getElem?_append_cases hb with hold | ⟨rfl, rfl⟩
    -- the earlier broadcasts have the waits left that they had
    · have hne : x.broadcasts.length ≠ k :=
        Nat.ne_of_gt (List.getElem?_eq_some_iff.mp hold).1
      rw [hleft, if_neg hne]
      exact hx.account k b hold
    -- the new one has woken nobody yet
    · have hnone : x.left x.broadcasts.length = [] := by
        refine List.eq_nil_iff_forall_not_mem.mpr fun n hn => ?_
        exact Nat.lt_irrefl _ (hx.number_lt hn)
      rw [hleft, if_pos rfl, hnone, List.append_nil]
      refine List.filter_eq_self.mpr fun n hn => ?_
      have hpending := pending_eq_true_iff.mp (List.mem_filter.mp hn).2
      have hcanceled : (x.broadcast arg).canceled n = false := holds_of_getElem? hpending
      rw [hcanceled]
      rfl
  raised := hx.raised

/-- The resolver `n` is the next of the innermost broadcast `k`; `y` is the state after the
broadcast has taken it from its list. -/
theorem taken (hx : Orderly x) {stack : List Iteration}
    (hstack : x.stack = ⟨k, n :: wakeners⟩ :: stack)
    (hy : y = { x with stack := ⟨k, wakeners⟩ :: stack }) :
    y.line.Sublist x.line ∧ (∀ m ∈ x.line, m ≠ n → m ∈ y.line) ∧ n ∈ x.line ∧ n ∉ y.line ∧
      x.left k = n :: y.left k ∧ ∀ j ≠ k, x.left j = y.left j := by
  have hxline : x.line = stack.reverse.flatMap (·.wakeners) ++ n :: (wakeners ++ x.cvar) := by
    simp [ConditionQueue.line, hstack]
  have hyline : y.line = stack.reverse.flatMap (·.wakeners) ++ (wakeners ++ x.cvar) := by
    simp [ConditionQueue.line, hy]
  have hsorted := hx.line.sorted
  rw [hxline] at hsorted
  refine ⟨?_, ?_, ?_, ?_, ?_, ?_⟩
  · rw [hxline, hyline]
    exact List.Sublist.append_left (List.sublist_cons_self n _) _
  · intro m hm hmn
    rw [hxline] at hm
    rw [hyline]
    simpa [hmn] using hm
  · simp [hxline]
  · intro hn
    rw [hyline] at hn
    obtain ⟨-, hlater, hbefore⟩ := List.pairwise_append.mp hsorted
    rcases List.mem_append.mp hn with hn | hn
    · exact Nat.lt_irrefl n (hbefore n hn n List.mem_cons_self)
    · exact Nat.lt_irrefl n ((List.pairwise_cons.mp hlater).1 n hn)
  · simp [ConditionQueue.left, hstack, hy]
  · intro j hj
    simp [ConditionQueue.left, hstack, hy, Ne.symm hj]

theorem pass (hx : Orderly x) {stack : List Iteration} {old : WaitState α}
    (hstack : x.stack = ⟨k, n :: wakeners⟩ :: stack) (hn : x.waits[n]? = some old)
    (hold : old.isCanceled = true) : Orderly { x with stack := ⟨k, wakeners⟩ :: stack } := by
  obtain ⟨hsub, hrest, hmem, hout, hleft, hothers⟩ := hx.taken hstack rfl
  have hpending : old.isPending = false := by
    cases old <;> simp_all [WaitState.isPending, WaitState.isCanceled]
  have hset : x.waits.set n old = x.waits := by
    obtain ⟨hlt, rfl⟩ := List.getElem?_eq_some_iff.mp hn
    exact List.set_getElem_self hlt
  refine ⟨?_, fun it hit => ?_, hx.resolved, hx.waiting, fun j b hb => ?_, hx.raised⟩
  · have hnot : ¬ old.isPending = true := by simp [hpending]
    have h := hx.line.shrink hsub hrest hnot fun h => absurd h hout
    rwa [hset] at h
  · rcases List.mem_cons.mp hit with rfl | hit
    · exact hx.numbers ⟨k, n :: wakeners⟩ (by simp [hstack])
    · exact hx.numbers it (by simp [hstack, hit])
  · have h := hx.account j b hb
    by_cases hj : j = k
    · subst hj
      rw [hleft] at h
      have hfirst : ¬ x.pending n = true := by
        rw [pending, holds_of_getElem? hn, hpending]
        simp
      exact h.trans (congrArg (b.resolved ++ ·) (List.filter_cons_of_neg hfirst))
    · rw [hothers j hj] at h
      exact h

theorem getElem?_modify_cases {broadcasts : List (Broadcast α ε)} {j : ℕ}
    (h : (broadcasts.modify k (·.book n))[j]? = some b) :
    (j = k ∧ ∃ b', broadcasts[k]? = some b' ∧ b = b'.book n) ∨ j ≠ k ∧ broadcasts[j]? = some b := by
  rw [List.getElem?_modify] at h
  by_cases hj : k = j
  · subst hj
    obtain ⟨b', hb', rfl⟩ := Option.map_eq_some_iff.mp h
    exact .inl ⟨rfl, b', hb', by simp⟩
  · obtain ⟨b', hb', rfl⟩ := Option.map_eq_some_iff.mp h
    exact .inr ⟨Ne.symm hj, by simpa [hj] using hb'⟩

theorem wakeup (hx : Orderly x) {stack : List Iteration}
    (hstack : x.stack = ⟨k, n :: wakeners⟩ :: stack) (hn : x.waits[n]? = some .pending) :
    Orderly { x with
      waits := x.waits.set n (.broadcasted k)
      broadcasts := x.broadcasts.modify k (·.book n)
      stack := ⟨k, wakeners⟩ :: stack } := by
  obtain ⟨hsub, hrest, hmem, hout, hleft, hothers⟩ := hx.taken hstack rfl
  have hlt : k < x.broadcasts.length := hx.numbers ⟨k, n :: wakeners⟩ (by simp [hstack])
  refine ⟨?_, fun it hit => ?_, fun m j => ?_, fun b hb => ?_, fun j b hb => ?_, hx.raised⟩
  · exact hx.line.shrink hsub hrest (by simp [WaitState.isPending]) fun h => absurd h hout
  · show it.number < (x.broadcasts.modify k _).length
    rw [List.length_modify]
    rcases List.mem_cons.mp hit with rfl | hit
    · exact hlt
    · exact hx.numbers it (by simp [hstack, hit])
  · have hself : (x.waits.set n (.broadcasted k))[n]? = some (WaitState.broadcasted k) :=
      List.getElem?_set_self (List.getElem?_eq_some_iff.mp hn).1
    -- a wait that a broadcast has resolved is booked by it, and conversely
    constructor
    · intro h
      rcases getElem?_set_cases h with ⟨rfl, hj⟩ | ⟨hmn, h⟩
      · obtain rfl : j = k := by simpa using hj
        refine ⟨x.broadcasts[j].book m, ?_, by simp [Broadcast.book]⟩
        simp [hlt]
      · obtain ⟨b, hb, hm⟩ := (hx.resolved m j).mp h
        by_cases hj : j = k
        · subst hj
          exact ⟨b.book n, by simp [hb], List.mem_append_left _ hm⟩
        · exact ⟨b, by simp [Ne.symm hj, hb], hm⟩
    · rintro ⟨b, hb, hm⟩
      rcases getElem?_modify_cases hb with ⟨rfl, b', hb', rfl⟩ | ⟨hj, hb⟩
      · rcases List.mem_append.mp hm with hm | hm
        · have hres := (hx.resolved m j).mpr ⟨b', hb', hm⟩
          have hmn : n ≠ m := by
            rintro rfl
            simp [hn] at hres
          exact (List.getElem?_set_ne hmn).trans hres
        · obtain rfl := List.mem_singleton.mp hm
          exact hself
      · have hres := (hx.resolved m j).mpr ⟨b, hb, hm⟩
        have hmn : n ≠ m := by
          rintro rfl
          simp [hn] at hres
        exact (List.getElem?_set_ne hmn).trans hres
  · show _ ∧ _ ∧ b.started ≤ (x.waits.set n _).length
    rw [List.length_set]
    obtain ⟨j, hj⟩ := List.mem_iff_getElem?.mp hb
    rcases getElem?_modify_cases hj with ⟨-, b', hb', rfl⟩ | ⟨-, hb⟩
    · exact hx.waiting b' (List.mem_of_getElem? hb')
    · exact hx.waiting b (List.mem_of_getElem? hb)
  -- the broadcast moves `n` from what is left to what it has woken
  · rcases getElem?_modify_cases hb with ⟨rfl, b', hb', rfl⟩ | ⟨hj, hb⟩
    · have h := hx.account j b' hb'
      rw [hleft] at h
      exact h.book hn fun hmem => hout (mem_line_of_left hmem)
    · have h := hx.account j b hb
      rw [hothers j hj] at h
      refine h.congr (fun m _ => holds_set_of_eq hn rfl) fun m hm => holds_set_of_ne ?_
      rintro rfl
      exact hout (mem_line_of_left hm)

theorem iterate (hx : Orderly x) (hy : x.iterate = some y) : Orderly y := by
  unfold ConditionQueue.iterate at hy
  split at hy
  · cases hy
  · rename_i k stack hstack
    cases hy
    refine ⟨?_, fun it hit => ?_, hx.resolved, hx.waiting, fun j b hb => ?_, hx.raised⟩
    · have hline : ConditionQueue.line { x with stack := stack } = x.line := by
        simp [ConditionQueue.line, hstack]
      rw [hline]
      exact hx.line
    · exact hx.numbers it (by simp [hstack, show it ∈ stack from hit])
    · have hleft : ConditionQueue.left { x with stack := stack } j = x.left j := by
        by_cases hj : k = j <;> simp [ConditionQueue.left, hstack, hj]
      rw [hleft]
      exact hx.account j b hb
  · rename_i k n wakeners stack hstack
    cases hy
    have hmem : n ∈ x.line := by simp [ConditionQueue.line, hstack]
    rcases hx.pending_or_canceled hmem with hn | ⟨old, hn, hold⟩
    · have hpending : x.pending n = true := pending_eq_true_iff.mpr hn
      simp only [hpending, if_true, wakeupLater, hn]
      exact hx.wakeup hstack hn
    · have hpending : ¬ x.pending n = true := by
        intro h
        cases hn.symm.trans (pending_eq_true_iff.mp h)
        cases hold
      have h := hx.pass hstack hn hold
      rw [if_neg hpending]
      cases old <;> simp_all [wakeupLater, WaitState.isCanceled]

theorem step (hx : Orderly x) {a : Step α ε} (hy : x.step a = some y) : Orderly y := by
  cases a with
  | wait =>
    cases hy
    exact hx.wait
  | signal arg =>
    cases hy
    exact hx.signal arg
  | broadcast arg =>
    cases hy
    exact hx.broadcast arg
  | iterate => exact hx.iterate hy
  | cancel ns =>
    cases hy
    exact hx.cancel ns
  | runCancelCallbacks n =>
    simp only [ConditionQueue.step] at hy
    split at hy
    · rename_i hn
      cases hy
      exact hx.runCancelCallbacks hn
    · cases hy

theorem of_reach (h : Reach ConditionQueue.step (fun _ _ => True) create x) : Orderly x :=
  h.invariant orderly_create fun _ _ _ hx _ hy => hx.step hy

theorem cvar_sorted (hx : Orderly x) : x.cvar.Pairwise (· < ·) :=
  (List.pairwise_append.mp hx.line.sorted).2.1

end Orderly

/-! ## Broadcast -/

theorem broadcasts_keep (hb : x.broadcasts[k]? = some b) {a : Step α ε} (hy : x.step a = some y) :
    ∃ b', y.broadcasts[k]? = some b' ∧ b'.arg = b.arg ∧ b'.waiting = b.waiting := by
  have hwakeup : ∀ (z : ConditionQueue α ε) n st,
    (z.wakeupLater n st).broadcasts = z.broadcasts := by
    intro z n st
    unfold wakeupLater
    split <;> rfl
  -- `cancel` rejects one wait after the other, and touches no broadcast
  have hreject : ∀ (ns : List ℕ) (z : ConditionQueue α ε),
      (ns.foldl reject z).broadcasts = z.broadcasts := by
    intro ns
    induction ns with
    | nil => exact fun _ => rfl
    | cons n ns ih =>
      intro z
      have hz : (z.reject n).broadcasts = z.broadcasts := by
        unfold reject
        split <;> rfl
      rw [List.foldl_cons, ih, hz]
  have hsame : y.broadcasts = x.broadcasts →
      ∃ b', y.broadcasts[k]? = some b' ∧ b'.arg = b.arg ∧ b'.waiting = b.waiting := by
    intro h
    exact ⟨b, by rw [h, hb], rfl, rfl⟩
  cases a with
  | wait =>
    cases hy
    exact hsame rfl
  | signal arg =>
    cases hy
    refine hsame ?_
    unfold signal
    split
    · rfl
    · rw [hwakeup]
  | broadcast arg =>
    cases hy
    refine ⟨b, ?_, rfl, rfl⟩
    exact (List.getElem?_append_left (List.getElem?_eq_some_iff.mp hb).1).trans hb
  | iterate =>
    simp only [step, iterate] at hy
    split at hy
    · cases hy
    · cases hy
      exact hsame rfl
    · rename_i j n wakeners stack hstack
      cases hy
      rw [hwakeup]
      split
      -- only the broadcast of the iteration books a woken wait
      · by_cases hj : j = k
        · subst hj
          exact ⟨b.book n, by simp [hb], rfl, rfl⟩
        · exact ⟨b, by simp [hj, hb], rfl, rfl⟩
      · exact ⟨b, hb, rfl, rfl⟩
  | cancel ns =>
    cases hy
    exact hsame (hreject ns x)
  | runCancelCallbacks n =>
    simp only [step] at hy
    split at hy
    · cases hy
      exact hsame rfl
    · cases hy

/-- At any moment after the call, the promises that were pending at it and have not been
canceled are those it has resolved, and then those it is yet to resolve. -/
theorem broadcast_resolves (hx : Orderly x) (arg : Except ε α)
    (hy : Reach step (fun _ _ => True) (x.broadcast arg) y) :
    y.broadcasts[x.broadcasts.length]?.map (·.arg) = some arg ∧ ∃ resolved rest,
      (x.cvar.filter x.pending).filter (fun n => !y.canceled n) = resolved ++ rest ∧
      (∀ n, y.waits[n]? = some (.broadcasted x.broadcasts.length) ↔ n ∈ resolved) ∧
      (∀ n ∈ rest, y.pending n = true) ∧
      ((∀ it ∈ y.stack, it.number ≠ x.broadcasts.length) → rest = []) := by
  let P : ConditionQueue α ε → Prop := fun z => Orderly z ∧
    ∃ b, z.broadcasts[x.broadcasts.length]? = some b ∧ b.arg = arg ∧
      b.waiting = x.cvar.filter x.pending
  have hcall : P (x.broadcast arg) :=
    ⟨hx.broadcast arg, _, List.getElem?_concat_length, rfl, rfl⟩
  have hP : P y := by
    refine hy.invariant hcall fun z a z' hz _ hstep => ?_
    obtain ⟨hz, b, hb, harg, hwaiting⟩ := hz
    obtain ⟨b', hb', harg', hwaiting'⟩ := broadcasts_keep hb hstep
    exact ⟨hz.step hstep, b', hb', harg'.trans harg, hwaiting'.trans hwaiting⟩
  obtain ⟨hy', b, hb, harg, hwaiting⟩ := hP
  refine ⟨by simp [hb, harg], b.resolved, (y.left x.broadcasts.length).filter y.pending, ?_,
    fun n => ?_, fun n hn => (List.mem_filter.mp hn).2, fun hdone => ?_⟩
  · rw [← hwaiting]
    exact hy'.account _ b hb
  · rw [hy'.resolved]
    simp [hb]
  · have hleft : y.left x.broadcasts.length = [] := by
      unfold left
      rw [List.filter_eq_nil_iff.mpr fun it hit => by simpa using hdone it hit]
      rfl
    rw [hleft]
    rfl

/-! ## Signal -/

/-- The first of the waits that are pending on the condition variable. -/
def IsFirst (x : ConditionQueue α ε) (n : ℕ) : Prop :=
  IsLeast {m | m ∈ x.cvar ∧ x.pending m = true} n

theorem signal_wakes_first_iff (hx : Orderly x) (arg : α)
    (hsome : ∃ n ∈ x.cvar, x.pending n = true) :
    (∃ n, x.IsFirst n ∧ (x.signal arg).waits = x.waits.set n (.signaled arg)) ↔
      ∃ n, x.cvar.head? = some n ∧ x.pending n = true := by
  obtain ⟨n, hn, -⟩ := hsome
  cases hcvar : x.cvar with
  | nil => simp [hcvar] at hn
  | cons first cvar =>
    have hmem : first ∈ x.line := List.mem_append_right _ (by simp [hcvar])
    rcases hx.pending_or_canceled hmem with hfirst | ⟨old, hfirst, hold⟩
    · have hpending : x.pending first = true := pending_eq_true_iff.mpr hfirst
      have hsorted := hx.cvar_sorted
      rw [hcvar] at hsorted
      refine iff_of_true ⟨first, ⟨⟨by simp [hcvar], hpending⟩, ?_⟩, ?_⟩ ⟨first, rfl, hpending⟩
      · rintro m ⟨hm, -⟩
        rw [hcvar] at hm
        rcases List.mem_cons.mp hm with rfl | hm
        · exact Nat.le_refl _
        · exact Nat.le_of_lt ((List.pairwise_cons.mp hsorted).1 m hm)
      · simp [signal, hcvar, wakeupLater, hfirst]
    · have hwaits : (x.signal arg).waits = x.waits := by
        cases old <;> simp_all [signal, wakeupLater, WaitState.isCanceled]
      refine iff_of_false ?_ ?_
      · rintro ⟨m, ⟨⟨-, hm⟩, -⟩, hset⟩
        have hm' := pending_eq_true_iff.mp hm
        have hself := List.getElem?_set_self (a := WaitState.signaled arg)
          (List.getElem?_eq_some_iff.mp hm').1
        rw [← hset, hwaits, hm'] at hself
        cases hself
      · rintro ⟨m, hm, hpending⟩
        obtain rfl : first = m := by simpa using hm
        cases hfirst.symm.trans (pending_eq_true_iff.mp hpending)
        cases hold

/-- A `broadcast` resolves, in the order of their waits and each once, the promises that are
pending on the condition variable at the call and are not canceled before their turn, and
no other.  A `signal` resolves the first of the promises that are pending exactly if the
first resolver of the queue is that of a pending promise. -/
theorem waiters_are_woken_in_order_iff
    (hx : Reach step (fun _ _ => True) (create : ConditionQueue α ε) x) :
    x.cvar.Pairwise (· < ·) ∧
    (∀ n, x.pending n = true → n ∈ x.cvar ∨ ∃ it ∈ x.stack, n ∈ it.wakeners) ∧
    x.raised = false ∧
    (∀ arg y, Reach step (fun _ _ => True) (x.broadcast arg) y →
      y.broadcasts[x.broadcasts.length]?.map (·.arg) = some arg ∧ ∃ resolved rest,
        (x.cvar.filter x.pending).filter (fun n => !y.canceled n) = resolved ++ rest ∧
        (∀ n, y.waits[n]? = some (.broadcasted x.broadcasts.length) ↔ n ∈ resolved) ∧
        (∀ n ∈ rest, y.pending n = true) ∧
        ((∀ it ∈ y.stack, it.number ≠ x.broadcasts.length) → rest = [])) ∧
    ∀ arg, (∃ n ∈ x.cvar, x.pending n = true) →
      ((∃ n, x.IsFirst n ∧ (x.signal arg).waits = x.waits.set n (.signaled arg)) ↔
        ∃ n, x.cvar.head? = some n ∧ x.pending n = true) := by
  have horderly := Orderly.of_reach hx
  refine ⟨horderly.cvar_sorted, fun n hn => ?_, horderly.raised,
    fun arg y hy => broadcast_resolves horderly arg hy,
    fun arg hsome => signal_wakes_first_iff horderly arg hsome⟩
  have hline := horderly.line.waits n _ (pending_eq_true_iff.mp hn) rfl
  rcases List.mem_append.mp hline with hmem | hmem
  · obtain ⟨it, hit, hn⟩ := List.mem_flatMap.mp hmem
    exact .inr ⟨it, List.mem_reverse.mp hit, hn⟩
  · exact .inl hmem

/-- Two calls of `wait`, and a `cancel` that has rejected the promise of the first one but not
yet run its cancel callback. -/
def canceledFirst : ConditionQueue ℕ Unit :=
  ⟨[0, 1], [.canceled, .pending], [], [], false⟩

theorem reach_canceledFirst :
    Reach step (fun _ _ => True) (create : ConditionQueue ℕ Unit) canceledFirst :=
  reach_of_replay [.wait, .wait, .cancel [0]] rfl

/-- The `signal` of another callback of the same `cancel` is spent on the canceled promise:
the wait 1 stays pending. -/
theorem signal_is_lost :
    ¬ ∀ x : ConditionQueue ℕ Unit, Reach step (fun _ _ => True) create x →
      ∀ arg, (∃ n ∈ x.cvar, x.pending n = true) →
        ∃ n, x.IsFirst n ∧ (x.signal arg).waits = x.waits.set n (.signaled arg) := by
  intro hclaim
  obtain ⟨n, ⟨⟨-, hn⟩, -⟩, hset⟩ :=
    hclaim canceledFirst reach_canceledFirst 5 ⟨1, by decide, by decide⟩
  have hn' := pending_eq_true_iff.mp hn
  have hself := List.getElem?_set_self (a := WaitState.signaled 5)
    (List.getElem?_eq_some_iff.mp hn').1
  rw [← hset] at hself
  have hwaits : (canceledFirst.signal 5).waits = canceledFirst.waits := rfl
  rw [hwaits, hn'] at hself
  cases hself

/-- Before that `cancel`, a `broadcast` resolves both promises, and a `signal` the first. -/
theorem waiters_are_woken_in_order_two : ∃ x y : ConditionQueue ℕ Unit,
    x.cvar = [0, 1] ∧ Reach step (fun _ _ => True) (x.broadcast (.ok 5)) y ∧
      y.waits = [.broadcasted 0, .broadcasted 0] ∧ y.stack = [] ∧
      y.broadcasts[0]?.map (·.arg) = some (.ok 5) ∧
      ∃ n, x.IsFirst n ∧ (x.signal 5).waits = x.waits.set n (.signaled 5) := by
  let x : ConditionQueue ℕ Unit := ⟨[0, 1], [.pending, .pending], [], [], false⟩
  have hx : Reach step (fun _ _ => True) (create : ConditionQueue ℕ Unit) x :=
    reach_of_replay [.wait, .wait] rfl
  let y : ConditionQueue ℕ Unit :=
    ⟨[], [.broadcasted 0, .broadcasted 0], [⟨.ok 5, 2, [0, 1], [0, 1]⟩], [], false⟩
  have hy : Reach step (fun _ _ => True) (x.broadcast (.ok 5)) y :=
    reach_of_replay [.iterate, .iterate, .iterate] rfl
  obtain ⟨-, -, -, hbroadcast, hsignal⟩ := waiters_are_woken_in_order_iff hx
  have hfirst := (hsignal 5 ⟨0, by decide, by decide⟩).mpr ⟨0, rfl, rfl⟩
  exact ⟨x, y, rfl, hy, rfl, rfl, (hbroadcast (.ok 5) y hy).1, hfirst⟩

end ConditionQueue

end Lwt
