import Lwt.Stream.Signals

/-!
# The pushes of a bounded push stream

A log of the calls of the method `push` beside the stream: the element and what its promise
depends on.  As long as no pending element is moved into the queue between the cancellation of its
push and the handler of that push (`Kept`), the queue holds the elements of the pushes that are
fulfilled, in the order of the pushes, and a push that still waits has its element pending.
-/

namespace Lwt

open Table Transition

variable {α : Type}

/-- What a call of `push` returns. -/
inductive PushResult
  | fulfilled
  /-- waits for the push waiter with the number `j` -/
  | waits (j : ℕ)
  /-- rejected with `Closed` or `Full` -/
  | fails

structure PushCall (α : Type) where
  element : α
  result : PushResult

/-- A stream and the calls of `push`, in their order. -/
structure Logged (α : Type) where
  streams : Streams α
  pushes : List (PushCall α)

namespace Streams

variable {m m' : Streams α} {info : PushBounded α} {l : List α}

/-- The number of the current push waiter. -/
def pushWaiter (m : Streams α) : ℕ :=
  match m.source with
  | .pushBounded info => info.pushWaiter
  | _ => 0

/-- The promise of the push is fulfilled. -/
def isFulfilled (m : Streams α) (push : PushCall α) : Bool :=
  match push.result with
  | .fulfilled => true
  | .waits j => decide (m.pushWaiters[j]? = some .fulfilled)
  | .fails => false

/-- A pending element that is moved into the queue is not that of a canceled push. -/
def Kept (m : Streams α) (a : Step α) : Prop :=
  m.handsOver a = true → m.pushWaiters[m.pushWaiter]? ≠ some .canceled

instance (m : Streams α) (a : Step α) : Decidable (m.Kept a) :=
  inferInstanceAs (Decidable (_ → _))

end Streams

namespace Logged

open Streams

variable {s s' : Logged α} {m m' : Streams α} {info : PushBounded α} {l : List α}

/-- `create_bounded size`, before any push. -/
def createBounded (size : ℤ) : Logged α := ⟨Streams.createBounded size, []⟩

/-- A step of the stream; a push is logged, also one that fails. -/
def step (s : Logged α) : Step α → Option (Logged α)
  | .pushBounded x =>
    match s.streams.pushBounded x with
    | none => some { s with pushes := s.pushes ++ [⟨x, .fails⟩] }
    | some m =>
      let result := if m.blocked then .waits s.streams.pushWaiter else .fulfilled
      some ⟨m, s.pushes ++ [⟨x, result⟩]⟩
  | a => (s.streams.step a).map fun m => { s with streams := m }

/-- The elements that have entered the queue. -/
def entered (s : Logged α) : List α := s.streams.data.filterMap id

/-- The elements of the pushes that are fulfilled. -/
def fulfilled (s : Logged α) : List α := (s.pushes.filter s.streams.isFulfilled).map (·.element)

/-- The step of the stream that a step of the log makes. -/
theorem step_cases {a : Step α} (h : s.step a = some s') :
    (∃ x, a = .pushBounded x ∧ s.streams.pushBounded x = none ∧
      s' = { s with pushes := s.pushes ++ [⟨x, .fails⟩] }) ∨
    (∃ x m, a = .pushBounded x ∧ s.streams.pushBounded x = some m ∧ s' = ⟨m, s.pushes ++
      [⟨x, if m.blocked then .waits s.streams.pushWaiter else .fulfilled⟩]⟩) ∨
    (∀ x, a ≠ .pushBounded x) ∧ s.streams.step a = some s'.streams ∧ s'.pushes = s.pushes := by
  cases a with
  | pushBounded x =>
    simp only [step] at h
    cases hpush : s.streams.pushBounded x with
    | none =>
      rw [hpush] at h
      exact .inl ⟨x, rfl, hpush, (Option.some.inj h).symm⟩
    | some m =>
      rw [hpush] at h
      exact .inr (.inl ⟨x, m, rfl, hpush, (Option.some.inj h).symm⟩)
  | _ =>
    obtain ⟨m, hm, rfl⟩ := Option.map_eq_some_iff.mp h
    exact .inr (.inr ⟨by simp, hm, rfl⟩)

/-! ## The invariant -/

/-- The pending element is that of the last push that has not failed. -/
def PendingLogged (s : Logged α) (info : PushBounded α) (x : α) : Prop :=
  ∃ p₁ p₂, s.pushes = p₁ ++ ⟨x, .waits info.pushWaiter⟩ :: p₂ ∧
    (∀ q ∈ p₁, q.result ≠ .waits info.pushWaiter) ∧ ∀ q ∈ p₂, q.result = .fails

structure Orderly (s : Logged α) (info : PushBounded α) : Prop where
  last : info.pushWaiter + 1 = s.streams.pushWaiters.length
  exact : s.fulfilled = s.entered
  waits : ∀ q ∈ s.pushes, ∀ j, q.result = .waits j →
    j ≤ info.pushWaiter ∧ s.streams.pushWaiters[j]? ≠ some .unused
  pending : ∀ x, info.pending = some x → s.PendingLogged info x ∧
    (s.streams.pushWaiters[info.pushWaiter]? = some .sleeping ∨
      s.streams.pushWaiters[info.pushWaiter]? = some .canceled)
  idle : info.pending = none → info.closed = false →
    s.streams.pushWaiters[info.pushWaiter]? = some .unused
  sleeping : ∀ j, s.streams.pushWaiters[j]? = some .sleeping →
    j = info.pushWaiter ∧ info.pending ≠ none
  canceled : ∀ j, s.streams.pushWaiters[j]? = some .canceled → j = info.pushWaiter

theorem orderly_createBounded (size : ℤ) :
    Orderly (createBounded size : Logged α) ⟨false, size, 0, none, false, 0⟩ where
  last := rfl
  exact := rfl
  waits := by simp [createBounded]
  pending := by simp
  idle := fun _ _ => rfl
  sleeping := fun j hj => by
    cases j <;> simp [createBounded, Streams.createBounded, fromSource] at hj
  canceled := fun j hj => by
    cases j <;> simp [createBounded, Streams.createBounded, fromSource] at hj

/-- The pushes are fulfilled as before if the waiters up to the current one are. -/
theorem Orderly.filter_eq (h : Orderly s info)
    (hsame : ∀ j ≤ info.pushWaiter, (m'.pushWaiters[j]? = some .fulfilled ↔
      s.streams.pushWaiters[j]? = some .fulfilled)) :
    (s.pushes.filter m'.isFulfilled).map (·.element) = s.fulfilled := by
  rw [fulfilled]
  congr 1
  refine List.filter_congr fun q hq => ?_
  unfold isFulfilled
  split
  · rfl
  · rename_i j hj
    exact decide_eq_decide.mpr (hsame j (h.waits q hq j hj).1)
  · rfl

theorem Orderly.same {info' : PushBounded α} (h : Orderly s info) (hpushes : s'.pushes = s.pushes)
    (hwaiters : s'.streams.pushWaiters = s.streams.pushWaiters)
    (hdata : s'.streams.data = s.streams.data) (hwaiter : info'.pushWaiter = info.pushWaiter)
    (hpending : info'.pending = info.pending) (hclosed : info'.closed = info.closed) :
    Orderly s' info' where
  last := by rw [hwaiter, hwaiters, h.last]
  exact := by
    rw [fulfilled, hpushes, h.filter_eq fun j
      _ => by rw [hwaiters], h.exact, entered, entered, hdata]
  waits := by
    rw [hpushes, hwaiters, hwaiter]
    exact h.waits
  pending := by
    unfold PendingLogged
    rw [hpushes, hwaiters, hwaiter, hpending]
    exact h.pending
  idle := by
    rw [hpending, hclosed, hwaiters, hwaiter]
    exact h.idle
  sleeping := by
    rw [hwaiters, hwaiter, hpending]
    exact h.sleeping
  canceled := by
    rw [hwaiters, hwaiter]
    exact h.canceled

/-- A step after which the current waiter is a new one, and the old one is resolved. -/
theorem Orderly.renew {info' : PushBounded α} {waiter : PushWaiter} (h : Orderly s info)
    (hpushes : s'.pushes = s.pushes)
    (hold : ∀ j < info.pushWaiter, s'.streams.pushWaiters[j]? = s.streams.pushWaiters[j]?)
    (hnow : s'.streams.pushWaiters[info.pushWaiter]? = some waiter)
    (hresolved : waiter = .fulfilled ∨ waiter = .rejected)
    (hnew : s'.streams.pushWaiters[info.pushWaiter + 1]? = some .unused)
    (hlength : s'.streams.pushWaiters.length = info.pushWaiter + 2)
    (hwaiter : info'.pushWaiter = info.pushWaiter + 1) (hpending : info'.pending = none)
    (hexact : s'.fulfilled = s'.entered) : Orderly s' info' := by
  have hcases : ∀ j v, s'.streams.pushWaiters[j]? = some v →
      (j < info.pushWaiter ∧ s.streams.pushWaiters[j]? = some v) ∨ v = waiter ∨ v = .unused := by
    intro j v hj
    have hlt := (List.getElem?_eq_some_iff.mp hj).1
    rcases Nat.lt_trichotomy j info.pushWaiter with hlt' | rfl | hgt
    · exact .inl ⟨hlt', hold j hlt' ▸ hj⟩
    · exact .inr (.inl (Option.some.inj (hj.symm.trans hnow)))
    · obtain rfl : j = info.pushWaiter + 1 := by omega
      exact .inr (.inr (Option.some.inj (hj.symm.trans hnew)))
  have hnone : ∀ j : ℕ, s'.streams.pushWaiters[j]? ≠ some .sleeping ∧
      s'.streams.pushWaiters[j]? ≠ some .canceled := by
    intro j
    constructor
    all_goals
      intro hj
      rcases hcases j _ hj with ⟨hlt, hj⟩ | rfl | hfalse
    · exact absurd (h.sleeping j hj).1 hlt.ne
    · simp at hresolved
    · cases hfalse
    · exact absurd (h.canceled j hj) hlt.ne
    · simp at hresolved
    · cases hfalse
  refine ⟨by rw [hwaiter, hlength], hexact, fun q hq j hj => ?_, fun x hx => ?_, fun _ _ => ?_,
    fun j hj => absurd hj (hnone j).1, fun j hj => absurd hj (hnone j).2⟩
  · obtain ⟨hle, hunused⟩ := h.waits q (hpushes ▸ hq) j hj
    refine ⟨by omega, ?_⟩
    rcases hle.lt_or_eq with hlt | rfl
    · rw [hold j hlt]
      exact hunused
    · rw [hnow]
      rintro ⟨rfl⟩
      simp at hresolved
  · rw [hpending] at hx
    cases hx
  · rw [hwaiter]
    exact hnew

private theorem waiters_renewed {w : List PushWaiter} {n : ℕ} (hlast : n + 1 = w.length)
    (f : PushWaiter → PushWaiter) : (∀ j < n, (w.modify n f ++ [.unused])[j]? = w[j]?) ∧
      (w.modify n f ++ [.unused])[n]? = w[n]?.map f ∧
      (w.modify n f ++ [PushWaiter.unused])[n + 1]? = some .unused ∧
      (w.modify n f ++ [PushWaiter.unused]).length = n + 2 := by
  have hlength := List.length_modify f w n
  refine ⟨fun j hj => ?_, ?_, ?_, ?_⟩
  · rw [List.getElem?_append_left (by omega), List.getElem?_modify_ne _ _ (by omega)]
  · rw [List.getElem?_append_left (by omega), List.getElem?_modify_eq]
    rfl
  · rw [hlast, ← hlength]
    exact List.getElem?_concat_length
  · rw [List.length_append, hlength, List.length_singleton]
    omega

theorem Orderly.handOver {y : α} {info' : PushBounded α} (h : Orderly s info)
    (hpending : info.pending = some y) (hpushes : s'.pushes = s.pushes)
    (hwaiters : s'.streams.pushWaiters = (s.streams.pushWaiters.modify info.pushWaiter fun waiter =>
      if waiter = .sleeping then .fulfilled else waiter) ++ [.unused])
    (hdata : s'.streams.data = s.streams.data ++ [some y])
    (hwaiter : info'.pushWaiter = s.streams.pushWaiters.length) (hpending' : info'.pending = none) :
    (s.streams.pushWaiters[info.pushWaiter]? ≠ some .canceled → Orderly s' info') ∧
      (s'.fulfilled = s'.entered ↔ s.streams.pushWaiters[info.pushWaiter]? ≠ some .canceled) := by
  obtain ⟨⟨p₁, p₂, hsplit, hbefore, hafter⟩, hstate⟩ := h.pending y hpending
  obtain ⟨hold, hnow, hnew, hlength⟩ := waiters_renewed h.last fun waiter =>
    if waiter = .sleeping then .fulfilled else waiter
  rw [← hwaiters] at hold hnow hnew hlength
  have hentered : s'.entered = s.entered ++ [y] := by simp [Logged.entered, hdata]
  rcases hstate with hsleeping | hcanceled
  · rw [hsleeping, Option.map_some, if_pos rfl] at hnow
    have hne : s.streams.pushWaiters[info.pushWaiter]? ≠ some .canceled := by simp [hsleeping]
    have hexact : s'.fulfilled = s'.entered := by
      have hfirst : ∀ q ∈ p₁, s'.streams.isFulfilled q = s.streams.isFulfilled q := by
        intro q hq
        have hmem : q ∈ s.pushes := hsplit ▸ List.mem_append_left _ hq
        unfold isFulfilled
        split
        · rfl
        · rename_i j hj
          have hne : j ≠ info.pushWaiter := fun heq => hbefore q hq (heq ▸ hj)
          rw [hold j (lt_of_le_of_ne (h.waits q hmem j hj).1 hne)]
        · rfl
      have hrest : ∀ m : Streams α, p₂.filter m.isFulfilled = [] := fun m =>
        List.filter_eq_nil_iff.mpr fun q hq => by simp [isFulfilled, hafter q hq]
      have hbefore' : s.fulfilled = (p₁.filter s.streams.isFulfilled).map (·.element) := by
        simp [fulfilled, hsplit, isFulfilled, hsleeping, hrest]
      rw [hentered, ← h.exact, hbefore', fulfilled, hpushes, hsplit]
      simp [List.filter_congr hfirst, isFulfilled, hnow, hrest]
    refine ⟨fun _ => h.renew hpushes hold hnow (.inl rfl) hnew hlength ?_ hpending' hexact,
      fun _ => hne, fun _ => hexact⟩
    rw [hwaiter, h.last]
  · have hsame : s'.fulfilled = s.fulfilled := by
      rw [fulfilled, hpushes]
      refine h.filter_eq fun j hj => ?_
      rcases hj.lt_or_eq with hlt | rfl
      · rw [hold j hlt]
      · rw [hnow, hcanceled]
        simp
    refine ⟨fun hne => absurd hcanceled hne, fun hfalse => ?_, fun hne => absurd hcanceled hne⟩
    rw [hsame, hentered, h.exact] at hfalse
    simp at hfalse

/-- The stream is full, and the push waits. -/
theorem Orderly.block {x : α} {info' : PushBounded α} (h : Orderly s info)
    (hpending : info.pending = none) (hopen : info.closed = false)
    (hpushes : s'.pushes = s.pushes ++ [⟨x, .waits info.pushWaiter⟩])
    (hwaiters : s'.streams.pushWaiters = s.streams.pushWaiters.set info.pushWaiter .sleeping)
    (hdata : s'.streams.data = s.streams.data) (hwaiter : info'.pushWaiter = info.pushWaiter)
    (hpending' : info'.pending = some x) : Orderly s' info' := by
  have hunused := h.idle hpending hopen
  have hlt : info.pushWaiter < s.streams.pushWaiters.length :=
    (List.getElem?_eq_some_iff.mp hunused).1
  have hnow : s'.streams.pushWaiters[info.pushWaiter]? = some .sleeping := by
    rw [hwaiters, List.getElem?_set_self hlt]
  -- only the current waiter starts to sleep, and no push had it
  have hold : ∀ j ≠ info.pushWaiter, s'.streams.pushWaiters[j]? = s.streams.pushWaiters[j]? :=
    fun j hj => by rw [hwaiters, List.getElem?_set_ne hj.symm]
  have hnot : ∀ q ∈ s.pushes, q.result ≠ .waits info.pushWaiter := fun q hq hj =>
    (h.waits q hq _ hj).2 hunused
  refine ⟨by rw [hwaiter, hwaiters, List.length_set, h.last], ?_, fun q hq j hj => ?_,
    fun y hy => ?_, fun hnone _ => ?_, fun j hj => ?_, fun j hj => ?_⟩
  · have hfulfilled : s'.fulfilled = s.fulfilled := by
      rw [fulfilled, hpushes, List.filter_append, List.map_append, h.filter_eq fun j hj => ?_]
      · simp [isFulfilled, hnow]
      · by_cases hj : j = info.pushWaiter
        · rw [hj, hnow, hunused]
          simp
        · rw [hold j hj]
    rw [hfulfilled, h.exact, entered, entered, hdata]
  · rw [hpushes] at hq
    rcases List.mem_append.mp hq with hq | hq
    · obtain ⟨hle, hused⟩ := h.waits q hq j hj
      have hne : j ≠ info.pushWaiter := fun heq => hnot q hq (heq ▸ hj)
      rw [hold j hne]
      exact ⟨hwaiter ▸ hle, hused⟩
    · rw [List.mem_singleton.mp hq] at hj
      cases hj
      exact ⟨hwaiter.ge, by rw [hnow]; simp⟩
  · cases hpending'.symm.trans hy
    rw [hwaiter]
    exact ⟨⟨s.pushes, [], by rw [hpushes, hwaiter], by rwa [hwaiter], by simp⟩, .inl hnow⟩
  · rw [hpending'] at hnone
    cases hnone
  -- a waiter that slept would have had a pending element
  · refine ⟨?_, by simp [hpending']⟩
    by_contra hne
    rw [hwaiter] at hne
    rw [hold j hne] at hj
    exact (h.sleeping j hj).2 hpending
  · by_contra hne
    rw [hwaiter] at hne
    rw [hold j hne] at hj
    exact hne (h.canceled j hj)

/-- A push that fails, or that enters the queue of an open stream with no pending element. -/
theorem Orderly.log {q : PushCall α} {info' : PushBounded α} (h : Orderly s info)
    (hpushes : s'.pushes = s.pushes ++ [q])
    (hresult : q.result = .fails ∧ s'.entered = s.entered ∨
      q.result = .fulfilled ∧ s'.entered = s.entered ++ [q.element] ∧ info.pending = none)
    (hwaiters : s'.streams.pushWaiters = s.streams.pushWaiters)
    (hwaiter : info'.pushWaiter = info.pushWaiter) (hpending : info'.pending = info.pending)
    (hclosed : info'.closed = info.closed) : Orderly s' info' := by
  refine ⟨by rw [hwaiter, hwaiters, h.last], ?_, fun q' hq j hj => ?_, fun x hx => ?_, ?_, ?_, ?_⟩
  · rw [fulfilled, hpushes, List.filter_append, List.map_append,
      h.filter_eq fun j hj => by rw [hwaiters], h.exact]
    rcases hresult with ⟨hq, hentered⟩ | ⟨hq, hentered, -⟩
    · simp [isFulfilled, hq, hentered]
    · simp [isFulfilled, hq, hentered]
  · rw [hpushes] at hq
    rw [hwaiters, hwaiter]
    rcases List.mem_append.mp hq with hq | hq
    · exact h.waits q' hq j hj
    · rw [List.mem_singleton.mp hq] at hj
      rcases hresult with ⟨hq, -⟩ | ⟨hq, -⟩ <;> simp [hq] at hj
  · rw [hpending] at hx
    rcases hresult with ⟨hq, -⟩ | ⟨-, -, hnone⟩
    · obtain ⟨⟨p₁, p₂, hsplit, hbefore, hafter⟩, hstate⟩ := h.pending x hx
      rw [hwaiters, hwaiter]
      refine ⟨⟨p₁, p₂ ++ [q], by rw [hpushes, hsplit, hwaiter]; simp, hwaiter ▸ hbefore,
        fun q' hq' => ?_⟩, hstate⟩
      rcases List.mem_append.mp hq' with hq' | hq'
      · exact hafter q' hq'
      · rw [List.mem_singleton.mp hq', hq]
    · rw [hnone] at hx
      cases hx
  · rw [hpending, hclosed, hwaiters, hwaiter]
    exact h.idle
  · rw [hwaiters, hwaiter, hpending]
    exact h.sleeping
  · rw [hwaiters, hwaiter]
    exact h.canceled

/-- The stream is closed, and a push that waits is rejected. -/
theorem Orderly.close {info' : PushBounded α} (h : Orderly s info) (hpushes : s'.pushes = s.pushes)
    (hwaiters : s'.streams.pushWaiters = if info.pending.isSome then
        s.streams.pushWaiters.modify info.pushWaiter fun waiter =>
          if waiter = .sleeping then .rejected else waiter
      else s.streams.pushWaiters)
    (hentered : s'.entered = s.entered) (hwaiter : info'.pushWaiter = info.pushWaiter)
    (hpending : info'.pending = none) (hclosed : info'.closed = true) : Orderly s' info' := by
  have hlength : s'.streams.pushWaiters.length = s.streams.pushWaiters.length := by
    rw [hwaiters]
    split
    · exact List.length_modify ..
    · rfl
  -- Only the waiter of the push changes.
  have hcases : ∀ j : ℕ, s'.streams.pushWaiters[j]? = s.streams.pushWaiters[j]? ∧
        s.streams.pushWaiters[j]? ≠ some .sleeping ∨
      s'.streams.pushWaiters[j]? = some .rejected ∧ s.streams.pushWaiters[j]? = some .sleeping := by
    intro j
    by_cases hj : s.streams.pushWaiters[j]? = some .sleeping
    · obtain ⟨rfl, hne⟩ := h.sleeping j hj
      refine .inr ⟨?_, hj⟩
      rw [hwaiters, if_pos (Option.isSome_iff_ne_none.mpr hne), List.getElem?_modify_eq, hj]
      rfl
    · refine .inl ⟨?_, hj⟩
      rw [hwaiters]
      split
      · rw [List.getElem?_modify]
        cases hw : s.streams.pushWaiters[j]? with
        | none => rfl
        | some waiter =>
          have hne : waiter ≠ .sleeping := fun heq => hj (heq ▸ hw)
          simp [hne]
      · rfl
  refine ⟨by rw [hwaiter, hlength, h.last], ?_, fun q hq j hj => ?_, fun x hx => ?_,
    fun _ hopen => ?_, fun j hj => ?_, fun j hj => ?_⟩
  · rw [hentered, ← h.exact, fulfilled, hpushes]
    refine h.filter_eq fun j _ => ?_
    rcases hcases j with ⟨hsame, -⟩ | ⟨hnow, hbefore⟩
    · rw [hsame]
    · rw [hnow, hbefore]
      simp
  · obtain ⟨hle, hused⟩ := h.waits q (hpushes ▸ hq) j hj
    refine ⟨hwaiter ▸ hle, ?_⟩
    rcases hcases j with ⟨hsame, -⟩ | ⟨hnow, -⟩
    · rwa [hsame]
    · simp [hnow]
  · rw [hpending] at hx
    cases hx
  · rw [hclosed] at hopen
    cases hopen
  · rcases hcases j with ⟨hsame, hne⟩ | ⟨hnow, -⟩
    · exact absurd (hsame ▸ hj) hne
    · rw [hnow] at hj
      cases hj
  · rcases hcases j with ⟨hsame, -⟩ | ⟨hnow, -⟩
    · rw [hwaiter]
      exact h.canceled j (hsame ▸ hj)
    · rw [hnow] at hj
      cases hj

theorem Orderly.cancelPush {j : ℕ} (h : Orderly s info) (hpushes : s'.pushes = s.pushes)
    (hj : s.streams.pushWaiters[j]? = some .sleeping)
    (hwaiters : s'.streams.pushWaiters = s.streams.pushWaiters.set j .canceled)
    (hdata : s'.streams.data = s.streams.data) : Orderly s' info := by
  obtain ⟨rfl, hne⟩ := h.sleeping j hj
  have hlt := (List.getElem?_eq_some_iff.mp hj).1
  have hnow : s'.streams.pushWaiters[info.pushWaiter]? = some .canceled := by
    rw [hwaiters, List.getElem?_set_self hlt]
  have hold : ∀ j ≠ info.pushWaiter, s'.streams.pushWaiters[j]? = s.streams.pushWaiters[j]? :=
    fun j hj => by rw [hwaiters, List.getElem?_set_ne hj.symm]
  refine ⟨by rw [hwaiters, List.length_set, h.last], ?_, fun q hq k hk => ?_, fun x hx => ?_,
    fun hnone _ => absurd hnone hne, fun k hk => ?_, fun k hk => ?_⟩
  · rw [entered, hdata, ← entered, ← h.exact, fulfilled, hpushes]
    refine h.filter_eq fun k _ => ?_
    by_cases hk : k = info.pushWaiter
    · rw [hk, hnow, hj]
      simp
    · rw [hold k hk]
  · obtain ⟨hle, hused⟩ := h.waits q (hpushes ▸ hq) k hk
    refine ⟨hle, ?_⟩
    by_cases hk : k = info.pushWaiter
    · simp [hk, hnow]
    · rwa [hold k hk]
  · unfold PendingLogged
    rw [hpushes]
    exact ⟨(h.pending x hx).1, .inr hnow⟩
  · have hk' : k ≠ info.pushWaiter := by
      rintro rfl
      rw [hnow] at hk
      cases hk
    exact h.sleeping k (hold k hk' ▸ hk)
  · by_contra hk'
    exact hk' (h.canceled k (hold k hk' ▸ hk))

/-- The handler of a canceled push discards the pending element of that push. -/
theorem Orderly.runPushCallbacks {j : ℕ} {info' : PushBounded α} (h : Orderly s info)
    (hpushes : s'.pushes = s.pushes) (hj : s.streams.pushWaiters[j]? = some .canceled)
    (hwaiters : s'.streams.pushWaiters = s.streams.pushWaiters.set j .rejected ++ [.unused])
    (hdata : s'.streams.data = s.streams.data)
    (hwaiter : info'.pushWaiter = s.streams.pushWaiters.length) (hpending : info'.pending = none) :
    Orderly s' info' := by
  obtain rfl := h.canceled j hj
  obtain ⟨hold, hnow, hnew, hlength⟩ := waiters_renewed h.last fun _ => .rejected
  have hset : (s.streams.pushWaiters.modify info.pushWaiter fun _ => .rejected) =
      s.streams.pushWaiters.set info.pushWaiter .rejected := by
    let _ : Inhabited PushWaiter := ⟨.unused⟩
    exact List.modify_eq_set _ _ _
  rw [hset, ← hwaiters] at hold hnow hnew hlength
  rw [hj, Option.map_some] at hnow
  refine h.renew hpushes hold hnow (.inr rfl) hnew hlength ?_ hpending ?_
  · rw [hwaiter, h.last]
  · rw [entered, hdata, ← entered, ← h.exact, fulfilled, hpushes]
    refine h.filter_eq fun k hk => ?_
    rcases hk.lt_or_eq with hlt | rfl
    · rw [hold k hlt]
    · rw [hnow, hj]
      simp

/-! ## Runs -/

theorem Orderly.step {a : Step α} (h : Orderly s info) (hc : Counted s.streams info l)
    (hstep : s.step a = some s') :
    ∃ info' l', Counted s'.streams info' l' ∧ (s.streams.Kept a → Orderly s' info') ∧
      (s'.fulfilled = s'.entered ↔ s.streams.Kept a) := by
  have hpw : s.streams.pushWaiter = info.pushWaiter := by rw [Streams.pushWaiter, hc.source]
  -- A step that keeps the log right whatever the state.
  have hkeep : ∀ {info' : PushBounded α} {l' : List α}, s.streams.handsOver a = false →
      Counted s'.streams info' l' → Orderly s' info' →
      ∃ info' l', Counted s'.streams info' l' ∧ (s.streams.Kept a → Orderly s' info') ∧
        (s'.fulfilled = s'.entered ↔ s.streams.Kept a) := by
    intro info' l' hhands hcounted horderly
    refine ⟨info', l', hcounted, fun _ => horderly, fun _ htrue => ?_, fun _ => horderly.exact⟩
    simp [hhands] at htrue
  rcases step_cases hstep with ⟨x, rfl, hfails, rfl⟩ | ⟨x, m, rfl, hpush, rfl⟩ | ⟨hne, hm, hpushes⟩
  · refine hkeep (by simp [handsOver, hc.source, consumes]) hc ?_
    exact h.log rfl (.inl ⟨rfl, rfl⟩) rfl rfl rfl rfl
  · have hhands : s.streams.handsOver (.pushBounded x) = false := by
      simp [handsOver, hc.source, consumes]
    obtain ⟨info', l', hcounted⟩ := hc.step (a := .pushBounded x) hpush
    have hsource := hcounted.source
    refine hkeep hhands hcounted ?_
    cases hc.happens (a := .pushBounded x) hpush with
    | block y hy hopen hpending _ =>
      cases hy
      cases hsource
      exact h.block hpending hopen (by rw [hpw]; rfl) rfl rfl rfl rfl
    | enter y hy _ hpending _ _ | enterSignal y hy _ hpending _ _ =>
      cases hy
      cases hsource
      refine h.log rfl (.inr ⟨?_, ?_, hpending⟩) rfl rfl rfl rfl
      · simp [blocked, setInfo, hpending]
      · simp [entered, setInfo, enqueue, sendSignal]
    | reads _ ha _ _ => simp [Step.isSource] at ha
    | feed _ _ _ _ ha _ _ _ _ => simp [Step.isSource] at ha
    | consume _ _ ha _ _ _ | handOver _ _ _ ha _ _ _ => simp [consumes] at ha
    | resize _ ha _ | resizeOver _ _ ha _ _ | closed ha _ | close _ _ ha _ _ _ | cancelPush _ ha _
    | runPushCallbacks _ ha _ => cases ha
  · obtain ⟨info', l', hcounted⟩ := hc.step hm
    have hsource := hcounted.source
    obtain ⟨m', pushes⟩ := s'
    obtain rfl : pushes = s.pushes := hpushes
    dsimp only at hm hcounted hsource
    have hread : a.isSource = false → s.streams.consumes a = false →
        s.streams.handsOver a = false := by
      intro ha hconsumes
      cases a with
      | resize size => cases ha
      | _ => simp [handsOver, hc.source, hconsumes]
    have hhandOver : ∀ {x}, info.pending = some x → s.streams.consumes a = true →
        s.streams.handsOver a = true := by
      intro x hpending hconsumes
      cases a with
      | resize size => simp [consumes] at hconsumes
      | _ => simp [handsOver, hc.source, hpending, hconsumes]
    -- The pending element is moved into the queue.
    have hover : s.streams.handsOver a = true →
        (s.streams.pushWaiters[info.pushWaiter]? ≠ some .canceled → Orderly ⟨m', s.pushes⟩ info') ∧
          (Logged.fulfilled ⟨m', s.pushes⟩ = Logged.entered ⟨m', s.pushes⟩ ↔
            s.streams.pushWaiters[info.pushWaiter]? ≠ some .canceled) →
        ∃ info' l', Counted m' info' l' ∧ (s.streams.Kept a → Orderly ⟨m', s.pushes⟩ info') ∧
          (Logged.fulfilled ⟨m', s.pushes⟩ = Logged.entered ⟨m', s.pushes⟩ ↔ s.streams.Kept a) := by
      rintro hhands ⟨horderly, hexact⟩
      have hkept : s.streams.Kept a ↔ s.streams.pushWaiters[info.pushWaiter]? ≠ some .canceled := by
        rw [Streams.Kept, hpw]
        exact ⟨fun h => h hhands, fun h _ => h⟩
      exact ⟨info', l', hcounted, fun h => horderly (hkept.mp h), hexact.trans hkept.symm⟩
    cases hc.happens hm with
    | reads reads ha hnot _ =>
      cases hc.source.symm.trans hsource
      exact hkeep (hread ha hnot) hcounted (h.same rfl rfl rfl rfl rfl rfl)
    | feed i r next status ha hnot _ _ _ =>
      cases hsource
      exact hkeep (hread ha hnot) hcounted (h.same rfl rfl rfl rfl rfl rfl)
    | consume reads x _ _ _ hpending =>
      cases hsource
      exact hkeep (handsOver_eq_false hc.source hpending) hcounted
        (h.same rfl rfl rfl rfl rfl rfl)
    | handOver reads x y hconsumes _ _ hpending =>
      cases hsource
      refine hover (hhandOver hpending hconsumes) (h.handOver hpending rfl rfl ?_ rfl rfl)
      rw [← hpending]
      rfl
    | resize size ha hsize =>
      cases hsource
      refine hkeep ?_ hcounted (h.same rfl rfl rfl rfl rfl rfl)
      subst ha
      simp only [handsOver, hc.source, Bool.and_eq_false_imp, decide_eq_false_iff_not, not_lt]
      exact hsize
    | resizeOver size y ha hcount hpending =>
      cases hsource
      refine hover ?_ (h.handOver hpending rfl rfl ?_ rfl rfl)
      · subst ha
        simp [handsOver, hc.source, hpending, hcount]
      · rw [← hpending]
        rfl
    | closed ha _ =>
      subst ha
      exact hkeep (by simp [handsOver, hc.source, consumes]) hc h
    | close signals waiters ha _ _ hwaiters =>
      subst ha
      cases hsource
      refine hkeep (by simp [handsOver, hc.source, consumes]) hcounted
        (h.close rfl hwaiters ?_ rfl rfl rfl)
      simp [entered, setInfo, enqueue]
    | cancelPush j ha hj =>
      subst ha
      cases hc.source.symm.trans hsource
      exact hkeep (by simp [handsOver, hc.source, consumes]) hcounted
        (h.cancelPush rfl hj rfl rfl)
    | runPushCallbacks j ha hj =>
      subst ha
      cases hsource
      exact hkeep (by simp [handsOver, hc.source, consumes]) hcounted
        (h.runPushCallbacks rfl hj rfl rfl rfl rfl)
    | block x ha _ _ _ => exact absurd ha (hne x)
    | enter x ha _ _ _ _ | enterSignal x ha _ _ _ _ => exact absurd ha (hne x)

/-- In every run in which no pending element enters the queue between the cancellation of its push
and the handler of that push, the elements that have entered the queue are those of the pushes
that are fulfilled, in their order; a push that still waits has its element pending and its waiter
in place; and the next step keeps the first if and only if it meets the condition as well. -/
theorem pushes_enter_once {size : ℤ}
    (hreach : Reach step (fun s a => s.streams.Kept a) (createBounded size) s) :
    s.entered = s.fulfilled ∧
    (∀ q ∈ s.pushes, ∀ j, q.result = .waits j → s.streams.pushWaiters[j]? = some .sleeping →
      ∃ info, s.streams.source = .pushBounded info ∧ info.pending = some q.element ∧
        info.pushWaiter = j) ∧
    ∀ a s', s.step a = some s' → (s'.entered = s'.fulfilled ↔ s.streams.Kept a) := by
  obtain ⟨info, l, hc, h⟩ : ∃ info l, Counted s.streams info l ∧ Orderly s info :=
    hreach.invariant (P := fun s => ∃ info l, Counted s.streams info l ∧ Orderly s info)
      ⟨_, _, counted_createBounded size, orderly_createBounded size⟩ fun _ _ _ hq hkept hstep => by
        obtain ⟨info, l, hc, h⟩ := hq
        obtain ⟨info', l', hc', h', -⟩ := h.step hc hstep
        exact ⟨info', l', hc', h' hkept⟩
  refine ⟨h.exact.symm, fun q hq j hj hsleeping => ?_, fun a s' hstep => ?_⟩
  · obtain ⟨rfl, hne⟩ := h.sleeping j hsleeping
    obtain ⟨x, hx⟩ := Option.ne_none_iff_exists'.mp hne
    obtain ⟨⟨p₁, p₂, hsplit, hbefore, hafter⟩, -⟩ := h.pending x hx
    refine ⟨info, hc.source, ?_, rfl⟩
    rw [hsplit] at hq
    rcases List.mem_append.mp hq with hq | hq
    · exact absurd hj (hbefore q hq)
    · rcases List.mem_cons.mp hq with rfl | hq
      · exact hx
      · rw [hafter q hq] at hj
        cases hj
  · obtain ⟨info', l', -, -, hexact⟩ := h.step hc hstep
    exact eq_comm.trans hexact

/-- A push is canceled, its element enters the queue before its handler runs, and the handler
then finds the element of another push pending. -/
def cancelBeforeGet : List (Step ℕ) :=
  [.pushBounded 1, .pushBounded 2, .cancelPush 0, .start 0 .get, .turn 0 .later, .pushBounded 3,
    .runPushCallbacks 0]

/-- The element 2 of the canceled push is in the queue, and the element 3 of a push that still
waits is lost, with its waiter. -/
theorem canceled_push_enters : ∃ s : Logged ℕ,
    Reach step (fun _ _ => True) (createBounded 1) s ∧ s.entered = [1, 2] ∧ s.fulfilled = [1] ∧
      s.pushes = [⟨1, .fulfilled⟩, ⟨2, .waits 0⟩, ⟨3, .waits 1⟩] ∧
      s.streams.pushWaiters[0]? = some .rejected ∧ s.streams.pushWaiters[1]? = some .sleeping ∧
      ∃ info, s.streams.source = .pushBounded info ∧ info.pending = none ∧ info.pushWaiter ≠ 1 := by
  obtain ⟨s, hs⟩ : ∃ s, replay step (createBounded 1) cancelBeforeGet = some s := ⟨_, rfl⟩
  refine ⟨s, reach_of_replay _ hs, ?_⟩
  cases hs.symm.trans rfl
  exact ⟨rfl, rfl, rfl, rfl, rfl, _, rfl, rfl, by decide⟩

/-- A push waits until a `get` makes room for its element. -/
def pushBeforeGet : List (Step ℕ) :=
  [.pushBounded 1, .pushBounded 2, .start 0 .get, .turn 0 .later]

theorem pushes_enter_once_get : ∃ s : Logged ℕ,
    Reach step (fun s a => s.streams.Kept a) (createBounded 1) s ∧ s.entered = s.fulfilled ∧
      s.entered = [1, 2] ∧ s.pushes = [⟨1, .fulfilled⟩, ⟨2, .waits 0⟩] := by
  obtain ⟨s, hs⟩ : ∃ s, replay (checked step fun s a => decide (s.streams.Kept a))
      (createBounded 1) pushBeforeGet = some s := ⟨_, rfl⟩
  have hreach : Reach step (fun s a => s.streams.Kept a) (createBounded 1) s :=
    (reach_of_checked _ hs).mono fun _ _ hkept => of_decide_eq_true hkept
  refine ⟨s, hreach, (pushes_enter_once hreach).1, ?_⟩
  cases hs.symm.trans rfl
  exact ⟨rfl, rfl⟩

end Logged

end Lwt
