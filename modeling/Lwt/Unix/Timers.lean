import Mathlib.Order.Defs.LinearOrder
import Lwt.Library.Transition
import Lwt.Pqueue.Binomial

/-!
# Timers of the `select` and `poll` engines

An iteration moves `new_sleeps` into `sleep_queue`, waits, and takes the sleepers that are due out
of the queue one by one.  The action of a repeating sleeper gives it a new time, which is why a
sleeper is taken out before its action is called.

The queue without them is put back when all actions have returned.  An exception of an action
leaves the old queue, with the sleepers whose actions have been called: one that is not repeating is
called again, and a repeating one is in the queue with its new time, where it is not in order, and
in `new_sleeps` as well.
-/

namespace Lwt.Unix

open Pqueue Transition

structure Sleeper (τ : Type) where
  time : τ
  stopped : Bool
  /-- The action is the function `g` of `register_timer`. -/
  repeating : Bool
  deriving Inhabited

/-- `restart_actions`: what is left of the queue, and `now`.  The other fields are not part of the
program: the number of sleepers when the iteration began, the sleepers when `restart_actions` was
called, and those whose actions it has called. -/
structure Iteration (τ : Type) where
  queue : List (Pqueue.Tree ℕ)
  now : τ
  mark : ℕ
  before : List (Sleeper τ)
  ran : List ℕ

/-- Where `iter` is. -/
inductive TimerPhase (τ : Type)
  | idle
  /-- It waits for file descriptors. -/
  | selecting (mark : ℕ)
  | looking (it : Iteration τ)
  /-- It has called an action. -/
  | acting (it : Iteration τ)

/-- Sleepers are numbered, the queue is one of numbers.  `log` is not part of the program: the
sleepers whose actions have been called. -/
structure Timers (τ : Type) where
  sleepers : List (Sleeper τ)
  sleepQueue : List (Pqueue.Tree ℕ)
  newSleeps : List ℕ
  phase : TimerPhase τ
  log : List ℕ

variable {τ : Type} [LinearOrder τ]

/-- The order of sleepers by their times. -/
def byTime (time : ℕ → τ) : OrderedType ℕ where
  compare i j := if time i < time j then -1 else if time j < time i then 1 else 0
  neg_iff i j := by
    rcases lt_trichotomy (time i) (time j) with h | h | h
    · simp [h, h.not_gt]
    · simp [h]
    · simp [h, h.not_gt]
  trans i j k := by
    have hle : ∀ i j : ℕ,
        (if time i < time j then (-1 : ℤ) else if time j < time i then 1 else 0) ≤ 0 ↔
          time i ≤ time j := by
      intro i j
      rcases lt_trichotomy (time i) (time j) with h | h | h
      · simp [h, h.le]
      · simp [h]
      · simp [h, h.not_gt]
    simp only [hle]
    exact le_trans

namespace Timers

variable [Inhabited τ]

def init : Timers τ := ⟨[], [], [], .idle, []⟩

def sleeper (s : Timers τ) (i : ℕ) : Sleeper τ := s.sleepers[i]?.getD default

/-- `compare` of the queue, with the times that the sleepers have now. -/
def order (s : Timers τ) : OrderedType ℕ := byTime fun i => (s.sleeper i).time

def registerTimer (s : Timers τ) (time : τ) (repeating : Bool) : Timers τ :=
  { s with
    sleepers := s.sleepers ++ [⟨time, false, repeating⟩]
    newSleeps := s.sleepers.length :: s.newSleeps }

def stop (s : Timers τ) (i : ℕ) : Timers τ :=
  { s with sleepers := s.sleepers.modify i fun x => { x with stopped := true } }

/-- `iter`, up to the call of `select` or `poll`. -/
def transfer (s : Timers τ) : Timers τ :=
  { s with
    sleepQueue := s.newSleeps.foldl (fun q e => add s.order e q) s.sleepQueue
    newSleeps := []
    phase := .selecting s.sleepers.length }

/-- The call of an action, up to the function of the user.  A repeating sleeper gets the time
`time`. -/
def act (s : Timers τ) (i : ℕ) (time : τ) : Timers τ :=
  if (s.sleeper i).repeating then
    { s with
      sleepers := s.sleepers.modify i fun x => { x with time := time }
      newSleeps := i :: s.newSleeps
      log := s.log ++ [i] }
  else { s with log := s.log ++ [i] }

/-- A call of `restart_actions`. -/
def restartActions (s : Timers τ) (it : Iteration τ) (time : τ) : Option (Timers τ) :=
  match lookupMin s.order it.queue with
  | none => some { s with sleepQueue := it.queue, phase := .idle }
  | some i =>
    if (s.sleeper i).stopped then
      match removeMin s.order it.queue with
      | .ok q => some { s with phase := .looking { it with queue := q } }
      | .error _ => none
    else if (s.sleeper i).time ≤ it.now then
      match removeMin s.order it.queue with
      | .ok q =>
        some { s.act i time with phase := .acting { it with queue := q, ran := it.ran ++ [i] } }
      | .error _ => none
    else some { s with sleepQueue := it.queue, phase := .idle }

/-- Code of the user runs. -/
def running (s : Timers τ) : Bool :=
  match s.phase with
  | .looking _ => false
  | _ => true

end Timers

inductive TimerStep (τ : Type)
  | register (time : τ) (repeating : Bool)
  | stop (i : ℕ)
  | transfer
  /-- `select` or `poll` raises an exception. -/
  | fail
  | restart (now : τ)
  /-- A call of `restart_actions`, where a repeating sleeper gets the time `time`. -/
  | turn (time : τ)
  | returns
  | raises
  deriving DecidableEq

def timerStep [Inhabited τ] (s : Timers τ) : TimerStep τ → Option (Timers τ)
  | .register time repeating => if s.running then some (s.registerTimer time repeating) else none
  | .stop i => if s.running then some (s.stop i) else none
  | .transfer =>
    match s.phase with
    | .idle => some s.transfer
    | _ => none
  | .fail =>
    match s.phase with
    | .selecting _ => some { s with phase := .idle }
    | _ => none
  | .restart now =>
    match s.phase with
    | .selecting mark =>
      some { s with phase := .looking ⟨s.sleepQueue, now, mark, s.sleepers, []⟩ }
    | _ => none
  | .turn time =>
    match s.phase with
    | .looking it => s.restartActions it time
    | _ => none
  | .returns =>
    match s.phase with
    | .acting it => some { s with phase := .looking it }
    | _ => none
  | .raises =>
    match s.phase with
    | .acting _ => some { s with phase := .idle }
    | _ => none

namespace Timers

variable [Inhabited τ] {s t : Timers τ} {it : Iteration τ} {i j : ℕ} {time now : τ}
  {repeating : Bool} {q : List (Pqueue.Tree ℕ)}

/-- The heap that is in use: the one of `restart_actions` while it is called. -/
def queue (s : Timers τ) : List (Pqueue.Tree ℕ) :=
  match s.phase with
  | .looking it | .acting it => it.queue
  | _ => s.sleepQueue

/-- The sleepers that are in the heap or in `new_sleeps`. -/
def pending (s : Timers τ) : Multiset ℕ := Pqueue.elements s.queue + (s.newSleeps : Multiset ℕ)

/-- The time that a sleeper had when the actions of the iteration began. -/
def timeBefore (it : Iteration τ) (i : ℕ) : τ := (it.before[i]?.getD default).time

/-- What an iteration has done. -/
structure Follows (s : Timers τ) (it : Iteration τ) : Prop where
  times : ∀ i ∈ Pqueue.elements it.queue, (s.sleeper i).time = timeBefore it i
  le : ∀ i ∈ it.ran, ∀ j ∈ Pqueue.elements it.queue, timeBefore it i ≤ timeBefore it j
  sorted : it.ran.Pairwise fun i j => timeBefore it i ≤ timeBefore it j
  nodup : it.ran.Nodup
  gone : ∀ i ∈ it.ran, i ∉ Pqueue.elements it.queue
  due : ∀ i ∈ it.ran, timeBefore it i ≤ it.now
  ran_lt : ∀ i ∈ it.ran, i < it.mark
  queue_lt : ∀ i ∈ Pqueue.elements it.queue, i < it.mark
  complete : ∀ i ∈ Pqueue.elements s.sleepQueue,
    i ∈ it.ran ∨ (s.sleeper i).stopped = true ∨ i ∈ Pqueue.elements it.queue

/-- What holds of the phase. -/
def Sane (s : Timers τ) : Prop :=
  match s.phase with
  | .idle => True
  | .selecting mark => ∀ i ∈ Pqueue.elements s.sleepQueue, i < mark
  | .looking it | .acting it => Follows s it

structure Sound (s : Timers τ) : Prop where
  heap : Increasing s.order 0 s.queue
  nodup : s.pending.Nodup
  known : ∀ i ∈ s.pending, i < s.sleepers.length
  logged : ∀ i ∈ s.log, i < s.sleepers.length
  live : ∀ i < s.sleepers.length, (s.sleeper i).stopped = false →
    (s.sleeper i).repeating = true ∨ i ∉ s.log → i ∈ s.pending
  fired : ∀ i ∈ s.log, (s.sleeper i).repeating = false → i ∉ s.pending
  sane : Sane s

theorem le_order : s.order.Le i j ↔ (s.sleeper i).time ≤ (s.sleeper j).time := by
  unfold OrderedType.Le order byTime
  rcases lt_trichotomy (s.sleeper i).time (s.sleeper j).time with h | h | h
  · simp [h, h.le]
  · simp [h]
  · simp [h, h.not_gt]

theorem heap_congr (h : Increasing s.order 0 q)
    (htimes : ∀ i ∈ Pqueue.elements q, (t.sleeper i).time = (s.sleeper i).time) :
    Increasing t.order 0 q := by
  refine h.congr fun i hi j hj hle => ?_
  rw [le_order] at hle ⊢
  rwa [htimes i hi, htimes j hj]

omit [LinearOrder τ] in
theorem lt_of_stopped (h : (s.sleeper i).stopped = true) : i < s.sleepers.length := by
  by_contra hge
  have hnone : s.sleepers[i]? = none := List.getElem?_eq_none (Nat.le_of_not_lt hge)
  unfold sleeper at h
  rw [hnone] at h
  cases h

theorem Follows.update (h : Follows s it) (hqueue : t.sleepQueue = s.sleepQueue)
    (htimes : ∀ i ∈ Pqueue.elements it.queue, (t.sleeper i).time = (s.sleeper i).time)
    (hstopped : ∀ i, (s.sleeper i).stopped = true → (t.sleeper i).stopped = true) :
    Follows t it where
  times i hi := (htimes i hi).trans (h.times i hi)
  le := h.le
  sorted := h.sorted
  nodup := h.nodup
  gone := h.gone
  due := h.due
  ran_lt := h.ran_lt
  queue_lt := h.queue_lt
  complete i hi := by
    rw [hqueue] at hi
    rcases h.complete i hi with hran | hi | hi
    · exact .inl hran
    · exact .inr (.inl (hstopped i hi))
    · exact .inr (.inr hi)

theorem Sane.update (h : Sane s) (hqueue : t.sleepQueue = s.sleepQueue)
    (hphase : t.phase = s.phase)
    (htimes : ∀ i ∈ Pqueue.elements s.queue, (t.sleeper i).time = (s.sleeper i).time)
    (hstopped : ∀ i, (s.sleeper i).stopped = true → (t.sleeper i).stopped = true) : Sane t := by
  unfold Sane queue at *
  rw [hphase]
  cases hs : s.phase with
  | idle => trivial
  | selecting mark =>
    rw [hs] at h
    simpa only [hqueue] using h
  | looking it =>
    rw [hs] at h htimes
    exact Follows.update h hqueue htimes hstopped
  | acting it =>
    rw [hs] at h htimes
    exact Follows.update h hqueue htimes hstopped

/-! ## Code of the user -/

omit [LinearOrder τ] in
theorem sleeper_registerTimer (hi : i < s.sleepers.length) :
    (s.registerTimer time repeating).sleeper i = s.sleeper i := by
  unfold sleeper registerTimer
  rw [List.getElem?_append_left hi]

theorem Sound.registerTimer (h : s.Sound) (time : τ) (repeating : Bool) :
    (s.registerTimer time repeating).Sound := by
  have hqueue : (s.registerTimer time repeating).queue = s.queue := rfl
  have hpending : (s.registerTimer time repeating).pending = s.sleepers.length ::ₘ s.pending := by
    have hcons := Multiset.add_cons s.sleepers.length (Pqueue.elements s.queue)
      (s.newSleeps : Multiset ℕ)
    exact hcons
  have hnew : s.sleepers.length ∉ s.pending := fun hmem => Nat.lt_irrefl _ (h.known _ hmem)
  have hlength : (s.registerTimer time repeating).sleepers.length = s.sleepers.length + 1 := by
    simp [Timers.registerTimer]
  have htimes : ∀ i ∈ Pqueue.elements s.queue,
      ((s.registerTimer time repeating).sleeper i).time = (s.sleeper i).time := by
    intro i hi
    rw [sleeper_registerTimer (h.known i (Multiset.mem_add.mpr (.inl hi)))]
  refine ⟨?_, ?_, ?_, ?_, ?_, ?_, ?_⟩
  · rw [hqueue]
    exact heap_congr h.heap htimes
  · rw [hpending, Multiset.nodup_cons]
    exact ⟨hnew, h.nodup⟩
  · intro i hi
    rw [hpending, Multiset.mem_cons] at hi
    rw [hlength]
    rcases hi with rfl | hi
    · exact Nat.lt_succ_self _
    · exact Nat.lt_succ_of_lt (h.known i hi)
  · intro i hi
    rw [hlength]
    exact Nat.lt_succ_of_lt (h.logged i hi)
  · intro i hi hstopped hlive
    rw [hpending, Multiset.mem_cons]
    rw [hlength] at hi
    rcases Nat.lt_succ_iff_lt_or_eq.mp hi with hi | hi
    · rw [sleeper_registerTimer hi] at hstopped hlive
      exact .inr (h.live i hi hstopped hlive)
    · exact .inl hi
  · intro i hi hrepeating
    have hlt := h.logged i hi
    rw [sleeper_registerTimer hlt] at hrepeating
    rw [hpending, Multiset.mem_cons, not_or]
    exact ⟨Nat.ne_of_lt hlt, h.fired i hi hrepeating⟩
  · refine h.sane.update rfl rfl htimes fun i hi => ?_
    rwa [sleeper_registerTimer (lt_of_stopped hi)]

omit [LinearOrder τ] in
theorem sleeper_stop (s : Timers τ) (i j : ℕ) :
    ((s.stop i).sleeper j).time = (s.sleeper j).time ∧
      ((s.stop i).sleeper j).repeating = (s.sleeper j).repeating ∧
      ((s.sleeper j).stopped = true → ((s.stop i).sleeper j).stopped = true) := by
  unfold sleeper stop
  rw [List.getElem?_modify]
  cases s.sleepers[j]? with
  | none => exact ⟨rfl, rfl, id⟩
  | some x => by_cases hij : i = j <;> simp [hij]

theorem Sound.stop (h : s.Sound) (i : ℕ) : (s.stop i).Sound := by
  have hlength : (s.stop i).sleepers.length = s.sleepers.length := by simp [Timers.stop]
  refine ⟨heap_congr h.heap fun j _ => (sleeper_stop s i j).1, h.nodup, ?_, ?_, ?_, ?_, ?_⟩
  · intro j hj
    rw [hlength]
    exact h.known j hj
  · intro j hj
    rw [hlength]
    exact h.logged j hj
  · intro j hj hstopped hlive
    rw [hlength] at hj
    rw [(sleeper_stop s i j).2.1] at hlive
    refine h.live j hj ?_ hlive
    by_contra hnot
    rw [(sleeper_stop s i j).2.2 (by simpa using hnot)] at hstopped
    cases hstopped
  · intro j hj hrepeating
    rw [(sleeper_stop s i j).2.1] at hrepeating
    exact h.fired j hj hrepeating
  · exact h.sane.update rfl rfl (fun j _ => (sleeper_stop s i j).1)
      fun j => (sleeper_stop s i j).2.2

/-! ## Iterations -/

theorem foldl_add (l : List ℕ) (h : Increasing s.order 0 q) :
    Increasing s.order 0 (l.foldl (fun q e => add s.order e q) q) ∧
      Pqueue.elements (l.foldl (fun q e => add s.order e q) q) = Pqueue.elements q +
      (l : Multiset ℕ) := by
  induction l generalizing q with
  | nil => exact ⟨h, by simp⟩
  | cons e l ih =>
    obtain ⟨hheap, helements⟩ := ih (h.add e)
    refine ⟨hheap, ?_⟩
    rw [List.foldl_cons, helements, elements_add, ← Multiset.cons_coe, Multiset.cons_add,
      Multiset.add_cons]

theorem Sound.transfer (h : s.Sound) (hphase : s.phase = .idle) : s.transfer.Sound := by
  have hqueue : s.queue = s.sleepQueue := by simp [queue, hphase]
  have hheap := h.heap
  rw [hqueue] at hheap
  obtain ⟨hheap', helements⟩ := foldl_add s.newSleeps hheap
  have hpending : s.transfer.pending = s.pending := by
    unfold pending
    rw [hqueue, ← helements]
    exact Multiset.add_zero _
  refine ⟨hheap', by rw [hpending]; exact h.nodup, by rw [hpending]; exact h.known, h.logged,
    by rw [hpending]; exact h.live, by rw [hpending]; exact h.fired, fun i hi => ?_⟩
  have hmem : i ∈ s.pending := by
    rw [← hpending]
    exact Multiset.mem_add.mpr (.inl hi)
  exact h.known i hmem

theorem Sound.of_phase (h : s.Sound) {phase : TimerPhase τ} {sleepQueue : List (Pqueue.Tree ℕ)}
    (hqueue : queue { s with sleepQueue := sleepQueue, phase := phase } = s.queue)
    (hsane : Sane { s with sleepQueue := sleepQueue, phase := phase }) :
    Sound { s with sleepQueue := sleepQueue, phase := phase } := by
  have hpending : pending { s with sleepQueue := sleepQueue, phase := phase } = s.pending := by
    unfold pending
    rw [hqueue]
  have hheap := h.heap
  rw [← hqueue] at hheap
  exact ⟨hheap, by rw [hpending]; exact h.nodup, by rw [hpending]; exact h.known, h.logged,
    by rw [hpending]; exact h.live, by rw [hpending]; exact h.fired, hsane⟩

theorem Sound.restart (h : s.Sound) {mark : ℕ} (hphase : s.phase = .selecting mark) (now : τ) :
    Sound { s with phase := .looking ⟨s.sleepQueue, now, mark, s.sleepers, []⟩ } := by
  have hsane := h.sane
  unfold Sane at hsane
  rw [hphase] at hsane
  refine h.of_phase (by simp [queue, hphase]) ?_
  exact {
    times := fun i _ => rfl
    le := by simp
    sorted := .nil
    nodup := .nil
    gone := by simp
    due := by simp
    ran_lt := by simp
    queue_lt := hsane
    complete := fun i hi => .inr (.inr hi) }

/-- The smallest sleeper of the heap. -/
structure Smallest (s : Timers τ) (it : Iteration τ) (i : ℕ) (q : List (Pqueue.Tree ℕ)) : Prop where
  lookup : lookupMin s.order it.queue = some i
  remove : removeMin s.order it.queue = .ok q
  heap : Increasing s.order 0 q
  elements : Pqueue.elements it.queue = i ::ₘ Pqueue.elements q
  le : ∀ j ∈ Pqueue.elements it.queue, (s.sleeper i).time ≤ (s.sleeper j).time

theorem exists_smallest (h : Increasing s.order 0 it.queue) (hne : it.queue ≠ []) :
    ∃ i q, Smallest s it i q := by
  obtain ⟨i, q, hlookup, hremove, hheap, helements, hle⟩ := h.pop hne
  exact ⟨i, q, hlookup, hremove, hheap, helements, fun j hj => le_order.mp (hle j hj)⟩

/-- What a call of `restart_actions` does. -/
inductive Turn (s : Timers τ) (it : Iteration τ) (time : τ) : Timers τ → Prop
  | empty : it.queue = [] → Turn s it time { s with sleepQueue := it.queue, phase := .idle }
  | later {i : ℕ} {q : List (Pqueue.Tree ℕ)} : Smallest s it i q → (s.sleeper i).stopped = false →
      it.now < (s.sleeper i).time →
      Turn s it time { s with sleepQueue := it.queue, phase := .idle }
  | drop {i : ℕ} {q : List (Pqueue.Tree ℕ)} : Smallest s it i q → (s.sleeper i).stopped = true →
      Turn s it time { s with phase := .looking { it with queue := q } }
  | act {i : ℕ} {q : List (Pqueue.Tree ℕ)} : Smallest s it i q → (s.sleeper i).stopped = false →
      (s.sleeper i).time ≤ it.now →
      Turn s it time { s.act i time with
        phase := .acting { it with queue := q, ran := it.ran ++ [i] } }

theorem turn_of_restartActions (h : Increasing s.order 0 it.queue)
    (hstep : s.restartActions it time = some t) : Turn s it time t := by
  unfold restartActions at hstep
  by_cases hqueue : it.queue = []
  · have hnone : lookupMin s.order it.queue = none := by rw [hqueue]; rfl
    rw [hnone] at hstep
    cases hstep
    exact .empty hqueue
  · obtain ⟨i, q, hsmallest⟩ := exists_smallest h hqueue
    rw [hsmallest.lookup, hsmallest.remove] at hstep
    simp only at hstep
    split at hstep
    case isTrue hstopped =>
      cases hstep
      exact .drop hsmallest hstopped
    case isFalse hstopped =>
      have hgoes : (s.sleeper i).stopped = false := by simpa using hstopped
      split at hstep
      case isTrue hdue =>
        cases hstep
        exact .act hsmallest hgoes hdue
      case isFalse hlater =>
        cases hstep
        exact .later hsmallest hgoes (not_le.mp hlater)

omit [LinearOrder τ] in
theorem sleeper_act (s : Timers τ) (i j : ℕ) (time : τ) :
    ((s.act i time).sleeper j).stopped = (s.sleeper j).stopped ∧
      ((s.act i time).sleeper j).repeating = (s.sleeper j).repeating ∧
      (i ≠ j → ((s.act i time).sleeper j).time = (s.sleeper j).time) := by
  unfold Timers.act
  split
  · unfold sleeper
    simp only
    rw [List.getElem?_modify]
    cases s.sleepers[j]? with
    | none => exact ⟨rfl, rfl, fun _ => rfl⟩
    | some x => by_cases hij : i = j <;> simp [hij]
  · exact ⟨rfl, rfl, fun _ => rfl⟩

omit [LinearOrder τ] [Inhabited τ] in
theorem pending_looking (hphase : s.phase = .looking it) :
    s.pending = Pqueue.elements it.queue + (s.newSleeps : Multiset ℕ) := by
  simp [pending, queue, hphase]

theorem Follows.drop (h : Follows s it) (hsmallest : Smallest s it i q)
    (hstopped : (s.sleeper i).stopped = true) : Follows s { it with queue := q } := by
  have hmem : ∀ j ∈ Pqueue.elements q, j ∈ Pqueue.elements it.queue := by
    intro j hj
    rw [hsmallest.elements]
    exact Multiset.mem_cons_of_mem hj
  exact {
    times := fun j hj => h.times j (hmem j hj)
    le := fun k hk j hj => h.le k hk j (hmem j hj)
    sorted := h.sorted
    nodup := h.nodup
    gone := fun k hk hq => h.gone k hk (hmem k hq)
    due := h.due
    ran_lt := h.ran_lt
    queue_lt := fun j hj => h.queue_lt j (hmem j hj)
    complete := fun j hj => by
      rcases h.complete j hj with hran | hj | hj
      · exact .inl hran
      · exact .inr (.inl hj)
      · rw [hsmallest.elements, Multiset.mem_cons] at hj
        rcases hj with rfl | hj
        · exact .inr (.inl hstopped)
        · exact .inr (.inr hj) }

theorem Follows.act (h : Follows s it) (hsmallest : Smallest s it i q)
    (hnodup : (Pqueue.elements it.queue).Nodup) (hdue : (s.sleeper i).time ≤ it.now)
    (hsleeper : ∀ j, (t.sleeper j).stopped = (s.sleeper j).stopped ∧
      (i ≠ j → (t.sleeper j).time = (s.sleeper j).time))
    (hqueue : t.sleepQueue = s.sleepQueue) :
    Follows t { it with queue := q, ran := it.ran ++ [i] } := by
  rw [hsmallest.elements, Multiset.nodup_cons] at hnodup
  have hmem : ∀ j ∈ Pqueue.elements q, j ∈ Pqueue.elements it.queue := by
    intro j hj
    rw [hsmallest.elements]
    exact Multiset.mem_cons_of_mem hj
  have hi : i ∈ Pqueue.elements it.queue := by
    rw [hsmallest.elements]
    exact Multiset.mem_cons_self i _
  have hbefore := h.times i hi
  exact {
    times := fun j hj => by
      have hne : i ≠ j := fun heq => hnodup.1 (heq ▸ hj)
      rw [(hsleeper j).2 hne]
      exact h.times j (hmem j hj)
    -- what stays in the queue is not before the sleeper that is run
    le := fun k hk j hj => by
      rcases List.mem_append.mp hk with hk | hk
      · exact h.le k hk j (hmem j hj)
      · obtain rfl := List.mem_singleton.mp hk
        have hle := hsmallest.le j (hmem j hj)
        rwa [hbefore, h.times j (hmem j hj)] at hle
    sorted := by
      refine List.pairwise_append.mpr ⟨h.sorted, List.pairwise_singleton _ _, fun k hk j hj => ?_⟩
      obtain rfl := List.mem_singleton.mp hj
      exact h.le k hk j hi
    nodup := by
      refine List.nodup_append.mpr ⟨h.nodup, List.nodup_singleton i, fun k hk j hj => ?_⟩
      obtain rfl := List.mem_singleton.mp hj
      rintro rfl
      exact h.gone k hk hi
    gone := fun k hk hq => by
      rcases List.mem_append.mp hk with hk | hk
      · exact h.gone k hk (hmem k hq)
      · obtain rfl := List.mem_singleton.mp hk
        exact hnodup.1 hq
    due := fun k hk => by
      rcases List.mem_append.mp hk with hk | hk
      · exact h.due k hk
      · obtain rfl := List.mem_singleton.mp hk
        exact hbefore ▸ hdue
    ran_lt := fun k hk => by
      rcases List.mem_append.mp hk with hk | hk
      · exact h.ran_lt k hk
      · obtain rfl := List.mem_singleton.mp hk
        exact h.queue_lt k hi
    queue_lt := fun j hj => h.queue_lt j (hmem j hj)
    -- a sleeper that was in the queue is run, or is still in it
    complete := fun j hj => by
      rw [hqueue] at hj
      rcases h.complete j hj with hran | hj | hj
      · exact .inl (List.mem_append_left _ hran)
      · exact .inr (.inl ((hsleeper j).1.trans hj))
      · rw [hsmallest.elements, Multiset.mem_cons] at hj
        rcases hj with rfl | hj
        · exact .inl (List.mem_append_right _ (List.mem_singleton_self j))
        · exact .inr (.inr hj) }

theorem Sound.drop (h : s.Sound) (hphase : s.phase = .looking it) (hsmallest : Smallest s it i q)
    (hstopped : (s.sleeper i).stopped = true) :
    Sound { s with phase := .looking { it with queue := q } } := by
  have hfollows : Follows s it := by
    have hsane := h.sane
    unfold Sane at hsane
    rwa [hphase] at hsane
  have hpending :
      s.pending = i ::ₘ pending { s with phase := .looking { it with queue := q } } := by
    rw [pending_looking hphase, hsmallest.elements, Multiset.cons_add]
    rfl
  have hmem : ∀ j ∈ pending { s with phase := .looking { it with queue := q } }, j ∈ s.pending := by
    intro j hj
    rw [hpending]
    exact Multiset.mem_cons_of_mem hj
  have hnodup := h.nodup
  rw [hpending, Multiset.nodup_cons] at hnodup
  refine ⟨hsmallest.heap, hnodup.2, fun j hj => h.known j (hmem j hj), h.logged,
    fun j hj hgoes hlive => ?_, fun j hj hrepeating hq => h.fired j hj hrepeating (hmem j hq),
    (hfollows.drop hsmallest hstopped).update rfl (fun _ _ => rfl) fun _ => id⟩
  have hold := h.live j hj hgoes hlive
  rw [hpending, Multiset.mem_cons] at hold
  refine hold.resolve_left ?_
  rintro rfl
  have hgoes' : (s.sleeper j).stopped = false := hgoes
  rw [hstopped] at hgoes'
  cases hgoes'

theorem Sound.act (h : s.Sound) (hphase : s.phase = .looking it) (hsmallest : Smallest s it i q)
    (hdue : (s.sleeper i).time ≤ it.now) :
    Sound { s.act i time with phase := .acting { it with queue := q, ran := it.ran ++ [i] } } := by
  have hfollows : Follows s it := by
    have hsane := h.sane
    unfold Sane at hsane
    rwa [hphase] at hsane
  have hpending := pending_looking hphase
  rw [hsmallest.elements, Multiset.cons_add] at hpending
  have hnodup := h.nodup
  rw [hpending, Multiset.nodup_cons] at hnodup
  have hi : i ∈ s.pending := by
    rw [hpending]
    exact Multiset.mem_cons_self i _
  have hqueue : (Pqueue.elements it.queue).Nodup := by
    rw [hsmallest.elements, Multiset.nodup_cons]
    exact ⟨fun hq => hnodup.1 (Multiset.mem_add.mpr (.inl hq)),
      Multiset.nodup_of_le (Multiset.le_add_right _ _) hnodup.2⟩
  have hnotMem : i ∉ Pqueue.elements q := fun hq => hnodup.1 (Multiset.mem_add.mpr (.inl hq))
  have hsleeper := fun j => sleeper_act s i j time
  have hlog : (s.act i time).log = s.log ++ [i] := by
    unfold Timers.act
    split <;> rfl
  have hlength : (s.act i time).sleepers.length = s.sleepers.length := by
    unfold Timers.act
    split <;> simp
  have hsleepQueue : (s.act i time).sleepQueue = s.sleepQueue := by
    unfold Timers.act
    split <;> rfl
  -- a repeating sleeper goes into `new_sleeps`
  have hpending' : (s.sleeper i).repeating = true ∧
        Pqueue.elements q + ((s.act i time).newSleeps : Multiset ℕ) = s.pending ∨
      (s.sleeper i).repeating = false ∧
        i ::ₘ (Pqueue.elements q + ((s.act i time).newSleeps : Multiset ℕ)) = s.pending := by
    unfold Timers.act
    cases hrepeating : (s.sleeper i).repeating with
    | true =>
      refine .inl ⟨rfl, ?_⟩
      rw [if_pos rfl, hpending, ← Multiset.cons_coe, Multiset.add_cons]
    | false => exact .inr ⟨rfl, hpending.symm⟩
  have hmem : ∀ j ∈ Pqueue.elements q + ((s.act i time).newSleeps : Multiset ℕ), j ∈ s.pending := by
    intro j hj
    rcases hpending' with ⟨-, heq⟩ | ⟨-, heq⟩
    · rwa [heq] at hj
    · rw [← heq]
      exact Multiset.mem_cons_of_mem hj
  refine ⟨?_, ?_, ?_, ?_, ?_, ?_, ?_⟩
  · exact heap_congr hsmallest.heap fun j hj =>
      (hsleeper j).2.2 fun heq => hnotMem (heq ▸ hj)
  · have hnodup' : (Pqueue.elements q + ((s.act i time).newSleeps : Multiset ℕ)).Nodup := by
      rcases hpending' with ⟨-, heq⟩ | ⟨-, heq⟩
      · rw [heq]
        exact h.nodup
      · have hold := h.nodup
        rw [← heq, Multiset.nodup_cons] at hold
        exact hold.2
    exact hnodup'
  · intro j hj
    exact Nat.lt_of_lt_of_eq (h.known j (hmem j hj)) hlength.symm
  · intro j hj
    simp only [hlog] at hj
    refine Nat.lt_of_lt_of_eq ?_ hlength.symm
    rcases List.mem_append.mp hj with hj | hj
    · exact h.logged j hj
    · rw [List.mem_singleton.mp hj]
      exact h.known i hi
  · intro j hj hstopped hlive
    have hlive' : (s.sleeper j).repeating = true ∨ j ∉ s.log ++ [i] := by
      rw [← (hsleeper j).2.1, ← hlog]
      exact hlive
    have hold := h.live j (Nat.lt_of_lt_of_eq hj hlength) ((hsleeper j).1.symm.trans hstopped)
      (hlive'.imp id fun hnot hmem => hnot (List.mem_append_left _ hmem))
    have hnew : j ∈ Pqueue.elements q + ((s.act i time).newSleeps : Multiset ℕ) := by
      rcases hpending' with ⟨-, heq⟩ | ⟨hrepeating, heq⟩
      · rwa [heq]
      · rw [← heq, Multiset.mem_cons] at hold
        refine hold.resolve_left ?_
        rintro rfl
        rcases hlive' with hlive' | hlive'
        · rw [hrepeating] at hlive'
          cases hlive'
        · exact hlive' (List.mem_append_right _ (List.mem_singleton_self j))
    exact hnew
  · intro j hj hrepeating hq
    have hq' : j ∈ Pqueue.elements q + ((s.act i time).newSleeps : Multiset ℕ) := hq
    have hrepeating' : (s.sleeper j).repeating = false := (hsleeper j).2.1.symm.trans hrepeating
    simp only [hlog] at hj
    rcases List.mem_append.mp hj with hj | hj
    · exact h.fired j hj hrepeating' (hmem j hq')
    · obtain rfl := List.mem_singleton.mp hj
      rcases hpending' with ⟨hrep, -⟩ | ⟨-, heq⟩
      · rw [hrepeating'] at hrep
        cases hrep
      · have hold := h.nodup
        rw [← heq, Multiset.nodup_cons] at hold
        exact hold.1 hq'
  · exact hfollows.act hsmallest hqueue hdue (fun j =>
      ⟨(hsleeper j).1, (hsleeper j).2.2⟩) hsleepQueue

theorem Sound.turn (h : s.Sound) (hphase : s.phase = .looking it) (hturn : Turn s it time t) :
    t.Sound := by
  cases hturn with
  | empty => exact h.of_phase (by simp [queue, hphase]) trivial
  | later => exact h.of_phase (by simp [queue, hphase]) trivial
  | drop hsmallest hstopped => exact h.drop hphase hsmallest hstopped
  | act hsmallest _ hdue => exact h.act hphase hsmallest hdue

theorem turn_of_step (h : s.Sound) (hphase : s.phase = .looking it)
    (hstep : timerStep s (.turn time) = some t) : Turn s it time t := by
  have hheap := h.heap
  unfold queue at hheap
  rw [hphase] at hheap
  simp only [timerStep, hphase] at hstep
  exact turn_of_restartActions hheap hstep

theorem sound_init : (init : Timers τ).Sound :=
  ⟨increasing_nil, by simp [pending, queue, init], by simp [pending, queue, init], by simp [init],
    by simp [init], by simp [init], trivial⟩

theorem sound_step {a : TimerStep τ} (h : s.Sound) (ha : a ≠ .raises)
    (hstep : timerStep s a = some t) : t.Sound := by
  cases a with
  | register time repeating =>
    simp only [timerStep, Option.ite_none_right_eq_some] at hstep
    obtain rfl := Option.some.inj hstep.2
    exact h.registerTimer time repeating
  | stop i =>
    simp only [timerStep, Option.ite_none_right_eq_some] at hstep
    obtain rfl := Option.some.inj hstep.2
    exact h.stop i
  | transfer =>
    simp only [timerStep] at hstep
    split at hstep
    case h_1 hphase =>
      cases hstep
      exact h.transfer hphase
    case h_2 => cases hstep
  | fail =>
    simp only [timerStep] at hstep
    split at hstep
    case h_1 mark hphase =>
      cases hstep
      exact h.of_phase (by simp [queue, hphase]) trivial
    case h_2 => cases hstep
  | restart now =>
    simp only [timerStep] at hstep
    split at hstep
    case h_1 mark hphase =>
      cases hstep
      exact h.restart hphase now
    case h_2 => cases hstep
  | turn time =>
    cases hphase : s.phase with
    | looking it => exact h.turn hphase (turn_of_step h hphase hstep)
    | _ => simp [timerStep, hphase] at hstep
  | returns =>
    simp only [timerStep] at hstep
    split at hstep
    case h_1 it hphase =>
      cases hstep
      have hsane := h.sane
      unfold Sane at hsane
      rw [hphase] at hsane
      exact h.of_phase (by simp [queue, hphase])
        (Follows.update hsane rfl (fun _ _ => rfl) fun _ => id)
    case h_2 => cases hstep
  | raises => exact absurd rfl ha

theorem stopped_step {a : TimerStep τ} (h : s.Sound) (hstopped : (s.sleeper i).stopped = true)
    (hstep : timerStep s a = some t) :
    (t.sleeper i).stopped = true ∧ t.log.count i = s.log.count i := by
  cases a with
  | register time repeating =>
    simp only [timerStep, Option.ite_none_right_eq_some] at hstep
    obtain rfl := Option.some.inj hstep.2
    exact ⟨by rwa [sleeper_registerTimer (lt_of_stopped hstopped)], rfl⟩
  | stop j =>
    simp only [timerStep, Option.ite_none_right_eq_some] at hstep
    obtain rfl := Option.some.inj hstep.2
    exact ⟨(sleeper_stop s j i).2.2 hstopped, rfl⟩
  | turn time =>
    cases hphase : s.phase with
    | looking it =>
      cases turn_of_step h hphase hstep with
      | empty | later | drop => exact ⟨hstopped, rfl⟩
      | @act j q _ hgoes _ =>
        have hne : j ≠ i := by
          rintro rfl
          rw [hgoes] at hstopped
          cases hstopped
        have hlog : (s.act j time).log = s.log ++ [j] := by
          unfold Timers.act
          split <;> rfl
        refine ⟨(sleeper_act s j i time).1.trans hstopped, ?_⟩
        simp [hlog, List.count_append, hne]
    | _ => simp [timerStep, hphase] at hstep
  | _ =>
    simp only [timerStep] at hstep
    split at hstep
    case h_1 =>
      cases hstep
      exact ⟨hstopped, rfl⟩
    case h_2 => cases hstep

theorem complete_of_turn (h : Follows s it) (hturn : Turn s it time t) (hidle : t.phase = .idle) :
    t.sleepQueue = it.queue ∧
      ∀ i ∈ Pqueue.elements s.sleepQueue, timeBefore it i ≤ it.now →
        i ∈ it.ran ∨ (s.sleeper i).stopped = true := by
  cases hturn with
  | empty hqueue =>
    refine ⟨rfl, fun i hi _ => ?_⟩
    rcases h.complete i hi with hran | hi | hi
    · exact .inl hran
    · exact .inr hi
    · simp [hqueue] at hi
  | later hsmallest _ hlater =>
    refine ⟨rfl, fun i hi hdue => ?_⟩
    rcases h.complete i hi with hran | hi | hi
    · exact .inl hran
    · exact .inr hi
    · have hle := hsmallest.le i hi
      rw [h.times i hi] at hle
      exact absurd (hlater.trans_le (hle.trans hdue)) (lt_irrefl _)
  | drop | act => cases hidle

end Timers

open Timers

/-- In every run in which no action raises an exception: a timer that is not stopped, and repeats or
has not been called, is once in the queue or in `new_sleeps`, and one that does not repeat and has
been called is not there; the queue is a heap; an iteration calls the actions of sleepers that were
in the queue when it began, in the order of their times, each at most once, and when it ends it has
called the actions of all that were due and are not stopped; and the action of a stopped timer is
not called any more. -/
theorem timers_are_called_in_order {τ : Type} [LinearOrder τ] [Inhabited τ] {s : Timers τ}
    (hreach : Reach timerStep (fun _ a => a ≠ .raises) init s) :
    ((∀ i < s.sleepers.length, (s.sleeper i).stopped = false →
        (s.sleeper i).repeating = true ∨ i ∉ s.log → s.pending.count i = 1) ∧
      ∀ i ∈ s.log, (s.sleeper i).repeating = false → i ∉ s.pending) ∧
      Increasing s.order 0 s.queue ∧
      (∀ it, s.phase = .looking it ∨ s.phase = .acting it →
        (it.ran.Pairwise fun i j => timeBefore it i ≤ timeBefore it j) ∧ it.ran.Nodup ∧
          ∀ i ∈ it.ran, timeBefore it i ≤ it.now ∧ i < it.mark) ∧
      (∀ it time t, s.phase = .looking it → timerStep s (.turn time) = some t → t.phase = .idle →
        t.sleepQueue = it.queue ∧
          ∀ i ∈ Pqueue.elements s.sleepQueue, timeBefore it i ≤ it.now →
            i ∈ it.ran ∨ (s.sleeper i).stopped = true) ∧
      ∀ i t, (s.sleeper i).stopped = true → Reach timerStep (fun _ a => a ≠ .raises) s t →
        t.log.count i = s.log.count i := by
  have h : s.Sound := hreach.invariant sound_init fun s a t hs ha hstep => sound_step hs ha hstep
  have hfollows : ∀ it, s.phase = .looking it ∨ s.phase = .acting it → Follows s it := by
    intro it hphase
    have hsane := h.sane
    unfold Sane at hsane
    rcases hphase with hphase | hphase <;> rwa [hphase] at hsane
  refine ⟨⟨fun i hi hgoes hlive => ?_, h.fired⟩, h.heap, fun it hphase => ?_,
    fun it time t hphase hstep hidle => ?_, fun i t hstopped ht => ?_⟩
  · exact Multiset.count_eq_one_of_mem h.nodup (h.live i hi hgoes hlive)
  · have hit := hfollows it hphase
    exact ⟨hit.sorted, hit.nodup, fun i hi => ⟨hit.due i hi, hit.ran_lt i hi⟩⟩
  · exact complete_of_turn (hfollows it (.inl hphase)) (turn_of_step h hphase hstep) hidle
  · let P : Timers τ → Prop := fun t =>
      t.Sound ∧ (t.sleeper i).stopped = true ∧ t.log.count i = s.log.count i
    have hinit : P s := ⟨h, hstopped, rfl⟩
    have hinv : P t := ht.invariant hinit fun t a u ht ha hstep => by
      obtain ⟨hstopped, hlog⟩ := stopped_step ht.1 ht.2.1 hstep
      exact ⟨sound_step ht.1 ha hstep, hstopped, hlog.trans ht.2.2⟩
    exact hinv.2.2

/-- The action of the first timer has been called, the second one is not due. -/
theorem timers_are_called_in_order_one_by_one :
    ∃ s : Timers ℕ, replay (checked timerStep fun _ a => decide (a ≠ .raises)) init
        [.register 3 true, .register 1 false, .transfer, .restart 2, .turn 5] = some s ∧
      s.log = [1] ∧ s.pending.count 0 = 1 ∧ 1 ∉ s.pending := by
  let s : Timers ℕ := ⟨[⟨3, false, true⟩, ⟨1, false, false⟩], [.node 1 1 [.node 0 0 []]], [],
    .acting ⟨[.node 0 0 []], 2, 2, [⟨3, false, true⟩, ⟨1, false, false⟩], [1]⟩, [1]⟩
  have hs : replay (checked timerStep fun _ a => decide (a ≠ .raises)) init
      [.register 3 true, .register 1 false, .transfer, .restart 2, .turn 5] = some s := by
    simp [s, replay, checked, timerStep, init, running, registerTimer, transfer, restartActions,
      lookupMin, removeMin, getMin, sleeper, Pqueue.Tree.root, Pqueue.Tree.children,
      Pqueue.Tree.rank, union, act, add, ins,
      link, order, byTime, bind, Except.bind]
  have hreach := (reach_of_checked _ hs).mono (k := fun _ a => a ≠ .raises) fun _ _ h => by
    simpa using h
  obtain ⟨⟨hlive, hfired⟩, -⟩ := timers_are_called_in_order hreach
  exact ⟨s, hs, rfl, hlive 0 (by decide) rfl (.inl rfl), hfired 1 (List.mem_singleton_self 1) rfl⟩

/-- The action of a timer that does not repeat raises an exception: the timer is still in the
queue. -/
theorem fired_timer_stays :
    ∃ s : Timers ℕ, Reach timerStep (fun _ _ => True) init s ∧
      s.phase = .idle ∧ 0 ∈ s.log ∧ (s.sleeper 0).repeating = false ∧
      0 ∈ Pqueue.elements s.sleepQueue := by
  let s : Timers ℕ := ⟨[⟨1, false, false⟩], [.node 0 0 []], [], .idle, [0]⟩
  have hs : replay timerStep init [.register 1 false, .transfer, .restart 2, .turn 5, .raises] =
      some s := by
    simp [s, replay, timerStep, init, running, registerTimer, transfer, restartActions, lookupMin,
      removeMin, getMin, sleeper, Pqueue.Tree.root, Pqueue.Tree.children, union, act, add,
      ins, order, bind,
      Except.bind]
  exact ⟨s, reach_of_replay _ hs, rfl, List.mem_singleton_self 0, rfl, by simp [s]⟩

end Lwt.Unix
