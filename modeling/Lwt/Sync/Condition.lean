import Lwt.Sync.Mutex

/-!
# `Lwt_condition` with a mutex

`wait ~mutex:m cvar` adds a resolver to the condition variable, unlocks `m` and locks it
again in a finalizer, before the promise it returned is resolved.  The users are critical
sections: a section gets `m` from `with_lock` (or from `lock`), calls `wait` only while it
holds `m`, and unlocks at its end.  As for the mutex, a `cancel` rejects promises first
and their callbacks run later, in any order with everything else.

The promise of the lock in the finalizer can be canceled like any other.  The promise of
`wait` is then rejected although its section does not hold `m`, and the end of the section
unlocks a lock that another user may hold.  If no such promise is canceled, a section
whose `wait` is resolved holds `m` (`wait_holds_mutex`).
-/

namespace Lwt

open Tickets Transition

/-- What the promise of a wait was resolved with: by `signal` or `broadcast`, by
`broadcast_exn`, or by `cancel`. -/
inductive Woken (α ε : Type)
  | value (v : α)
  | exn (e : ε)
  | canceled
  deriving DecidableEq

/-- Where a critical section stands.  The number is that of its call of `lock`. -/
inductive Section (α ε : Type)
  /-- the promise of `lock` is not resolved, or its callbacks are yet to run -/
  | entering (n : ℕ)
  | inside (n : ℕ)
  /-- the promise `waiter` of `wait` is pending -/
  | waiting
  /-- `waiter` is resolved, the finalizer is yet to run -/
  | woken (o : Woken α ε)
  /-- `waiter` is rejected by `cancel`, its cancel callback is yet to run -/
  | canceled
  /-- the finalizer waits for the promise of its call of `lock` -/
  | locking (n : ℕ) (o : Woken α ε)
  | left
  deriving DecidableEq

/-- The call of `lock` that a section has to do with. -/
def Section.call {α ε : Type} : Section α ε → Option ℕ
  | .entering n | .inside n | .locking n _ => some n
  | _ => none

/-- The promise of `wait` is not resolved. -/
def Section.blocked {α ε : Type} : Section α ε → Bool
  | .waiting | .woken _ | .canceled | .locking _ _ => true
  | _ => false

/-- A condition variable and a mutex, with the sections that use them. -/
structure Condition (α ε : Type) where
  cvar : List ℕ
  mutex : Mutex
  sections : List (Section α ε)
  deriving DecidableEq

namespace Condition

variable {α ε : Type}

/-- `create ()`, with a new mutex. -/
def create : Condition α ε := ⟨[], .create, []⟩

def setSection (x : Condition α ε) (s : ℕ) (sec : Section α ε) : Condition α ε :=
  { x with sections := x.sections.set s sec }

/-- `lock m >>= …` of a new section. -/
def enter (x : Condition α ε) : Condition α ε :=
  let n := x.mutex.calls.length
  { x with
    mutex := x.mutex.lock
    sections := x.sections ++ [if x.mutex.locked then .entering n else .inside n] }

/-- `unlock m` at the end of the section `s` with the call `n`. -/
def leave (x : Condition α ε) (s n : ℕ) : Condition α ε :=
  { x with mutex := (x.mutex.setState n .released).unlock }.setSection s .left

/-- `wait ~mutex:m cvar` by the section `s` with the call `n`, up to its finalizer. -/
def wait (x : Condition α ε) (s n : ℕ) : Condition α ε :=
  { x with
    cvar := x.cvar ++ [s]
    mutex := (x.mutex.setState n .released).unlock }.setSection s .waiting

/-- `Lwt.wakeup_later` and `Lwt.wakeup_later_exn` of the resolver of the section `s`:
ignored if its promise has been canceled. -/
def wakeupLater (x : Condition α ε) (o : Woken α ε) (s : ℕ) : Condition α ε :=
  match x.sections[s]? with
  | some .waiting => x.setSection s (.woken o)
  | _ => x

/-- `signal cvar arg`. -/
def signal (x : Condition α ε) (arg : α) : Condition α ε :=
  match x.cvar with
  | [] => x
  | s :: cvar => { x with cvar := cvar }.wakeupLater (.value arg) s

/-- `broadcast cvar arg` and `broadcast_exn cvar exn`. -/
def broadcast (x : Condition α ε) (o : Woken α ε) : Condition α ε :=
  x.cvar.foldl (fun x s => x.wakeupLater o s) { x with cvar := [] }

/-- The finalizer of `wait`: `lock m`. -/
def finalizer (x : Condition α ε) (s : ℕ) (o : Woken α ε) : Condition α ε :=
  let n := x.mutex.calls.length
  { x with mutex := x.mutex.lock }.setSection s
    (if x.mutex.locked then .locking n o else .inside n)

/-- The callbacks of the promise of the call `n` of `lock`, on the section that made it:
the section goes on if it has got the lock, and after a canceled `lock` in the finalizer
of `wait` it goes on as well, with the exception `Canceled`. -/
def runLockCallbacks (n : ℕ) (granted : Bool) : Section α ε → Section α ε
  | .entering k => if k = n then (if granted then .inside n else .left) else .entering k
  | .locking k o => if k = n then .inside n else .locking k o
  | sec => sec

/-- The part of `Lwt.cancel` that rejects the promise `waiter` of the section `s`. -/
def reject (x : Condition α ε) (s : ℕ) : Condition α ε :=
  match x.sections[s]? with
  | some .waiting => x.setSection s .canceled
  | _ => x

/-- A call of `Lwt.cancel` that reaches the waits of the sections `ss` and the promises of
the calls `ns` of `lock`. -/
def cancel (x : Condition α ε) (ss ns : List ℕ) : Condition α ε :=
  ss.foldl reject { x with mutex := x.mutex.cancel ns }

/-- What can happen. -/
inductive Step (α ε : Type)
  | enter
  | leave (s : ℕ)
  | wait (s : ℕ)
  | signal (arg : α)
  | broadcast (arg : α)
  | broadcastExn (e : ε)
  | cancel (ss ns : List ℕ)
  | runCancelCallbacks (s : ℕ)
  | runCallbacks (s : ℕ)
  | runLockCancelCallbacks (n : ℕ)
  | runLockCallbacks (n : ℕ)

/-- A step; `wait` is called only by a section that holds the mutex. -/
def step (x : Condition α ε) : Step α ε → Option (Condition α ε)
  | .enter => some x.enter
  | .leave s =>
    match x.sections[s]? with
    | some (.inside n) => some (x.leave s n)
    | _ => none
  | .wait s =>
    match x.sections[s]? with
    | some (.inside n) => if x.mutex.calls[n]? = some .holding then some (x.wait s n) else none
    | _ => none
  | .signal arg => some (x.signal arg)
  | .broadcast arg => some (x.broadcast (.value arg))
  | .broadcastExn e => some (x.broadcast (.exn e))
  | .cancel ss ns => some (x.cancel ss ns)
  | .runCancelCallbacks s =>
    match x.sections[s]? with
    | some .canceled =>
      some ({ x with cvar := x.cvar.filter (· ≠ s) }.setSection s (.woken .canceled))
    | _ => none
  | .runCallbacks s =>
    match x.sections[s]? with
    | some (.woken o) => some (x.finalizer s o)
    | _ => none
  | .runLockCancelCallbacks n =>
    (x.mutex.step (.runCancelCallbacks n)).map fun m => { x with mutex := m }
  | .runLockCallbacks n =>
    (x.mutex.step (.runCallbacks n)).map fun m =>
      { x with
        mutex := m
        sections :=
          x.sections.map (runLockCallbacks n (decide (x.mutex.calls[n]? = some .granted))) }

/-! ## Invariant -/

/-- A section that is inside holds the lock, and the lock in a finalizer is not canceled. -/
def Fits (m : Mutex) : Section α ε → Prop
  | .entering n => n < m.calls.length
  | .inside n => m.calls[n]? = some .holding
  | .locking n _ => m.calls[n]? = some .waiting ∨ m.calls[n]? = some .granted
  | _ => True

structure Guarded (x : Condition α ε) : Prop where
  mutex : x.mutex.Consistent
  fits : ∀ (s : ℕ) sec, x.sections[s]? = some sec → Fits x.mutex sec
  unique : ∀ (s s' : ℕ) sec sec' n, x.sections[s]? = some sec → x.sections[s']? = some sec' →
    sec.call = some n → sec'.call = some n → s = s'

variable {x x' : Condition α ε} {m : Mutex} {s n : ℕ} {sec : Section α ε}

theorem guarded_create : Guarded (create : Condition α ε) :=
  ⟨Mutex.consistent_create, by simp [create], by simp [create]⟩

theorem Fits.advances {m' : Mutex} (hf : Fits m sec) (hadv : m.Advances m') : Fits m' sec := by
  cases sec with
  | entering n =>
    have hlt : n < m.calls.length := hf
    have hn : m.calls[n]? = some m.calls[n] := List.getElem?_eq_getElem hlt
    rcases hadv n _ hn with h | ⟨-, h⟩ <;> exact (List.getElem?_eq_some_iff.mp h).1
  | inside n => exact (hadv n _ hf).resolve_right (by simp)
  | locking n o =>
    rcases hf with hn | hn
    · exact (hadv n _ hn).imp id fun h => h.2
    · exact .inr ((hadv n _ hn).resolve_right (by simp))
  | _ => trivial

theorem Fits.call_lt (hf : Fits m sec) (hn : sec.call = some n) : n < m.calls.length := by
  cases sec with
  | entering k =>
    cases hn
    exact hf
  | inside k =>
    cases hn
    exact (List.getElem?_eq_some_iff.mp hf).1
  | locking k o =>
    cases hn
    rcases hf with h | h <;> exact (List.getElem?_eq_some_iff.mp h).1
  | _ => simp [Section.call] at hn

theorem Fits.setState (hf : Fits m sec) (hn : sec.call ≠ some n) (st : LockState) :
    Fits (m.setState n st) sec := by
  cases sec with
  | entering k => simpa [Fits, Mutex.setState] using hf
  | inside k =>
    have hne : n ≠ k := by
      rintro rfl
      exact hn rfl
    simpa [Fits, Mutex.setState, List.getElem?_set_ne hne] using hf
  | locking k o =>
    have hne : n ≠ k := by
      rintro rfl
      exact hn rfl
    simpa [Fits, Mutex.setState, List.getElem?_set_ne hne] using hf
  | _ => trivial

namespace Guarded

theorem update (hg : Guarded x) {cvar : List ℕ} (hm : m.Consistent)
    (hothers : ∀ (k : ℕ) sec', k ≠ s → x.sections[k]? = some sec' → Fits m sec')
    (hfits : Fits m sec)
    (hcall : ∀ n, sec.call = some n → ∀ (k : ℕ) sec', k ≠ s → x.sections[k]? = some sec' →
      sec'.call ≠ some n) :
    Guarded (Condition.setSection { x with cvar := cvar, mutex := m } s sec) where
  mutex := hm
  fits k sec' hk := by
    rcases getElem?_set_cases hk with ⟨-, rfl⟩ | ⟨hne, hk⟩
    · exact hfits
    · exact hothers k sec' hne hk
  unique k k' sec₁ sec₂ n hk hk' hn hn' := by
    rcases getElem?_set_cases hk with ⟨rfl, rfl⟩ | ⟨hne, hold⟩
    · rcases getElem?_set_cases hk' with ⟨rfl, -⟩ | ⟨hne', hold'⟩
      · rfl
      · exact absurd hn' (hcall n hn k' sec₂ hne' hold')
    · rcases getElem?_set_cases hk' with ⟨rfl, rfl⟩ | ⟨-, hold'⟩
      · exact absurd hn (hcall n hn' k sec₁ hne hold)
      · exact hg.unique k k' sec₁ sec₂ n hold hold' hn hn'

theorem setSection (hg : Guarded x) (cvar : List ℕ) (hfits : Fits x.mutex sec)
    (hcall : sec.call = none) : Guarded (Condition.setSection { x with cvar := cvar } s sec) :=
  hg.update (m := x.mutex) hg.mutex (fun k sec' _ hk => hg.fits k sec' hk) hfits (by simp [hcall])

theorem of_cvar (hg : Guarded x) (cvar : List ℕ) : Guarded { x with cvar := cvar } :=
  ⟨hg.mutex, hg.fits, hg.unique⟩

theorem wakeupLater (hg : Guarded x) (o : Woken α ε) (s : ℕ) : Guarded (x.wakeupLater o s) := by
  unfold Condition.wakeupLater
  split
  · exact hg.setSection x.cvar trivial rfl
  · exact hg

theorem broadcast (hg : Guarded x) (o : Woken α ε) : Guarded (x.broadcast o) := by
  have hfold : ∀ (l : List ℕ) (y : Condition α ε), Guarded y →
      Guarded (l.foldl (fun y s => y.wakeupLater o s) y) := by
    intro l
    induction l with
    | nil => exact fun _ h => h
    | cons s l ih => exact fun y h => ih _ (h.wakeupLater o s)
  exact hfold x.cvar _ (hg.of_cvar [])

theorem call_ne (hg : Guarded x) (hs : x.sections[s]? = some sec) (hn : sec.call = some n)
    {k : ℕ} {sec' : Section α ε} (hk : k ≠ s) (hsec' : x.sections[k]? = some sec') :
    sec'.call ≠ some n :=
  fun hn' => hk (hg.unique k s sec' sec n hsec' hs hn' hn)

theorem unlock (hg : Guarded x) (cvar : List ℕ) (hs : x.sections[s]? = some (.inside n))
    (hfits : ∀ m, Fits m sec) (hcall : sec.call = none) :
    Guarded (Condition.setSection
      { x with cvar := cvar, mutex := (x.mutex.setState n .released).unlock } s sec) := by
  obtain ⟨hm, hfree⟩ := hg.mutex.release (hg.fits s _ hs)
  refine hg.update (hm.unlock hfree) (fun k sec' hne hk => ?_) (hfits _) (by simp [hcall])
  exact ((hg.fits k sec' hk).setState (hg.call_ne hs rfl hne hk) _).advances
    (Mutex.advances_unlock _)

theorem call_ne_length (hg : Guarded x) {k : ℕ} (hk : x.sections[k]? = some sec) :
    sec.call ≠ some x.mutex.calls.length := by
  intro hn
  exact Nat.lt_irrefl _ ((hg.fits k sec hk).call_lt hn)

theorem finalizer (hg : Guarded x) (s : ℕ) (o : Woken α ε) : Guarded (x.finalizer s o) := by
  refine hg.update hg.mutex.lock
    (fun k sec' _ hk => (hg.fits k sec' hk).advances (Mutex.advances_lock _)) ?_ ?_
  · unfold Mutex.lock
    split <;> simp [Fits]
  · intro n hn k sec' _ hk
    obtain rfl : x.mutex.calls.length = n := by
      split at hn <;> exact Option.some.inj hn
    exact hg.call_ne_length hk

theorem enter (hg : Guarded x) : Guarded x.enter where
  mutex := hg.mutex.lock
  fits k sec' hk := by
    rcases getElem?_append_cases hk with hk | ⟨-, rfl⟩
    · exact (hg.fits k sec' hk).advances (Mutex.advances_lock _)
    · show Fits x.mutex.lock _
      unfold Mutex.lock
      split <;> simp [Fits]
  unique k k' sec₁ sec₂ n hk hk' hn hn' := by
    have hnew : ∀ {j : ℕ} {sec : Section α ε}, x.sections[j]? = some sec → sec.call = some n →
        (if x.mutex.locked then Section.entering x.mutex.calls.length
          else .inside x.mutex.calls.length : Section α ε).call ≠ some n := by
      intro j sec hj hsec hn
      obtain rfl : x.mutex.calls.length = n := by
        split at hn <;> exact Option.some.inj hn
      exact hg.call_ne_length hj hsec
    rcases getElem?_append_cases hk with hk | ⟨rfl, rfl⟩
    · rcases getElem?_append_cases hk' with hk' | ⟨-, rfl⟩
      · exact hg.unique k k' sec₁ sec₂ n hk hk' hn hn'
      · exact absurd hn' (hnew hk hn)
    · rcases getElem?_append_cases hk' with hk' | ⟨rfl, -⟩
      · exact absurd hn (hnew hk' hn')
      · rfl

end Guarded

/-! ## Runs -/

/-- A `cancel` reaches no lock that the finalizer of a `wait` waits for. -/
def sparesRelock (x : Condition α ε) : Step α ε → Bool
  | .cancel _ ns => ns.all fun n => x.mutex.calls[n]? ≠ some .waiting ||
      x.sections.all fun sec =>
        match sec with
        | .locking k _ => k ≠ n
        | _ => true
  | _ => true

theorem Guarded.cancel {ss ns : List ℕ} (hg : Guarded x)
    (hspares : x.sparesRelock (.cancel ss ns) = true) : Guarded (x.cancel ss ns) := by
  have hmutex : Guarded { x with mutex := x.mutex.cancel ns } := by
    refine ⟨hg.mutex.cancel ns, fun s sec hs => ?_, hg.unique⟩
    have hfits := hg.fits s sec hs
    cases sec with
    | entering n =>
      have hlen : ∀ (l : List ℕ) (m : Mutex), (m.cancel l).calls.length = m.calls.length := by
        intro l
        induction l with
        | nil => exact fun _ => rfl
        | cons k l ih =>
          intro m
          refine (ih (m.reject k)).trans ?_
          unfold Mutex.reject
          split <;> simp [Mutex.setState]
      simpa [Fits, hlen] using hfits
    | inside n => exact Mutex.getElem?_cancel hfits (by simp)
    | locking n o =>
      rcases hfits with hn | hn
      · refine .inl (Mutex.getElem?_cancel hn fun hmem => ?_)
        simp only [sparesRelock, List.all_eq_true] at hspares
        have hall := hspares n hmem
        simp only [hn, ne_eq, not_true_eq_false, decide_false, Bool.false_or,
          List.all_eq_true] at hall
        have hk := hall _ (List.mem_of_getElem? hs)
        simp at hk
      · exact .inr (Mutex.getElem?_cancel hn (by simp))
    | _ => trivial
  have hfold : ∀ (l : List ℕ) (y : Condition α ε), Guarded y → Guarded (l.foldl reject y) := by
    intro l
    induction l with
    | nil => exact fun _ h => h
    | cons s l ih =>
      refine fun y h => ih _ ?_
      unfold reject
      split
      · exact h.setSection y.cvar trivial rfl
      · exact h
  exact hfold ss _ hmutex

theorem runLockCallbacks_of_ne {b : Bool} (hn : sec.call ≠ some n) :
    Condition.runLockCallbacks n b sec = sec := by
  cases sec with
  | entering k =>
    have hne : k ≠ n := fun h => hn (by simp [Section.call, h])
    simp [Condition.runLockCallbacks, hne]
  | locking k o =>
    have hne : k ≠ n := fun h => hn (by simp [Section.call, h])
    simp [Condition.runLockCallbacks, hne]
  | _ => rfl

theorem call_runLockCallbacks {b : Bool} {k : ℕ}
    (hk : (Condition.runLockCallbacks n b sec).call = some k) : sec.call = some k := by
  by_cases hn : sec.call = some n
  · cases sec with
    | entering j =>
      cases hn
      cases b <;> simp_all [Condition.runLockCallbacks, Section.call]
    | locking j o =>
      cases hn
      simpa [Condition.runLockCallbacks, Section.call] using hk
    | _ => exact hk
  · rwa [runLockCallbacks_of_ne hn] at hk

theorem Fits.runLockCallbacks {m' : Mutex} (hf : Fits m sec)
    (hstep : m.step (.runCallbacks n) = some m') :
    Fits m' (Condition.runLockCallbacks n (decide (m.calls[n]? = some .granted)) sec) := by
  have hset : ∀ st', (∃ st, m.calls[n]? = some st) →
      (m.setState n st').calls[n]? = some st' := by
    rintro st' ⟨st, hn⟩
    simp [Mutex.setState, (List.getElem?_eq_some_iff.mp hn).1]
  simp only [Mutex.step] at hstep
  by_cases hcall : sec.call = some n
  · split at hstep
    · rename_i hn
      obtain rfl := Option.some.inj hstep
      cases sec with
      | entering k =>
        obtain rfl := Option.some.inj hcall
        simpa [Condition.runLockCallbacks, hn, Fits] using hset .holding ⟨_, hn⟩
      | inside k =>
        obtain rfl := Option.some.inj hcall
        have hholding : m.calls[k]? = some .holding := hf
        simp [hn] at hholding
      | locking k o =>
        obtain rfl := Option.some.inj hcall
        simpa [Condition.runLockCallbacks, hn, Fits] using hset .holding ⟨_, hn⟩
      | _ => trivial
    · rename_i hn
      obtain rfl := Option.some.inj hstep
      cases sec with
      | entering k =>
        obtain rfl := Option.some.inj hcall
        simp [Condition.runLockCallbacks, hn, Fits]
      | inside k =>
        obtain rfl := Option.some.inj hcall
        have hholding : m.calls[k]? = some .holding := hf
        simp [hn] at hholding
      | locking k o =>
        obtain rfl := Option.some.inj hcall
        rcases hf with h | h <;> simp [hn] at h
      | _ => trivial
    · simp at hstep
  · rw [runLockCallbacks_of_ne hcall]
    split at hstep
    · obtain rfl := Option.some.inj hstep
      exact hf.setState hcall _
    · obtain rfl := Option.some.inj hstep
      exact hf.setState hcall _
    · simp at hstep

theorem Guarded.runLockCallbacks {m' : Mutex} (hg : Guarded x)
    (hstep : x.mutex.step (.runCallbacks n) = some m') :
    Guarded { x with
      mutex := m'
      sections := x.sections.map
        (runLockCallbacks n (decide (x.mutex.calls[n]? = some .granted))) } := by
  have hcases : ∀ {s : ℕ} {sec : Section α ε}, (x.sections.map (Condition.runLockCallbacks n
      (decide (x.mutex.calls[n]? = some .granted))))[s]? = some sec →
      ∃ old, x.sections[s]? = some old ∧ sec = Condition.runLockCallbacks n
        (decide (x.mutex.calls[n]? = some .granted)) old := by
    intro s sec hs
    rw [List.getElem?_map] at hs
    obtain ⟨old, hold, rfl⟩ := Option.map_eq_some_iff.mp hs
    exact ⟨old, hold, rfl⟩
  refine ⟨hg.mutex.step hstep, fun s sec hs => ?_, fun s s' sec sec' k hs hs' hk hk' => ?_⟩
  · obtain ⟨old, hold, rfl⟩ := hcases hs
    exact (hg.fits s old hold).runLockCallbacks hstep
  · obtain ⟨old, hold, rfl⟩ := hcases hs
    obtain ⟨old', hold', rfl⟩ := hcases hs'
    exact hg.unique s s' old old' k hold hold' (call_runLockCallbacks hk)
      (call_runLockCallbacks hk')

theorem Fits.runLockCancelCallbacks {m' : Mutex} (hf : Fits m sec)
    (hstep : m.step (.runCancelCallbacks n) = some m') : Fits m' sec := by
  simp only [Mutex.step, Option.ite_none_right_eq_some, Option.some.injEq] at hstep
  obtain ⟨hn, rfl⟩ := hstep
  have hkeep : Fits (m.setState n .unlinked) sec := by
    by_cases hcall : sec.call = some n
    · cases sec with
      | entering k => simpa [Fits, Mutex.setState] using hf
      | inside k =>
        obtain rfl := Option.some.inj hcall
        have hholding : m.calls[k]? = some .holding := hf
        simp [hn] at hholding
      | locking k o =>
        obtain rfl := Option.some.inj hcall
        rcases hf with h | h <;> simp [hn] at h
      | _ => trivial
    · exact hf.setState hcall _
  exact hkeep

theorem Guarded.step {a : Step α ε} (hg : Guarded x) (hspares : x.sparesRelock a = true)
    (hstep : x.step a = some x') : Guarded x' := by
  cases a with
  | enter =>
    cases hstep
    exact hg.enter
  | leave s =>
    simp only [Condition.step] at hstep
    split at hstep
    · rename_i hs
      cases hstep
      exact hg.unlock x.cvar hs (fun _ => trivial) rfl
    · simp at hstep
  | wait s =>
    simp only [Condition.step] at hstep
    split at hstep
    · rename_i hs
      split at hstep
      · cases hstep
        exact hg.unlock (x.cvar ++ [s]) hs (fun _ => trivial) rfl
      · simp at hstep
    · simp at hstep
  | signal arg =>
    cases hstep
    unfold Condition.signal
    split
    · exact hg
    · exact (hg.of_cvar _).wakeupLater _ _
  | broadcast arg =>
    cases hstep
    exact hg.broadcast _
  | broadcastExn e =>
    cases hstep
    exact hg.broadcast _
  | cancel ss ns =>
    -- no lock of a finalizer is among the cancelled ones
    cases hstep
    exact hg.cancel hspares
  | runCancelCallbacks s =>
    simp only [Condition.step] at hstep
    split at hstep
    · cases hstep
      exact hg.setSection _ trivial rfl
    · simp at hstep
  | runCallbacks s =>
    simp only [Condition.step] at hstep
    split at hstep
    · cases hstep
      exact hg.finalizer s _
    · simp at hstep
  | runLockCancelCallbacks n =>
    obtain ⟨m', hm', rfl⟩ := Option.map_eq_some_iff.mp hstep
    exact ⟨hg.mutex.step hm', fun s sec hs => (hg.fits s sec hs).runLockCancelCallbacks hm',
      hg.unique⟩
  | runLockCallbacks n =>
    obtain ⟨m', hm', rfl⟩ := Option.map_eq_some_iff.mp hstep
    exact hg.runLockCallbacks hm'

/-! ## The end of a wait -/

/-- Sections whose `wait` is not resolved. -/
def KeepsBlocked (x x' : Condition α ε) : Prop :=
  ∀ (s : ℕ) sec, x.sections[s]? = some sec → sec.blocked = true →
    ∃ sec', x'.sections[s]? = some sec' ∧ sec'.blocked = true

theorem KeepsBlocked.setSection (hold : x.sections[s]? = some sec) {sec' : Section α ε}
    (h : sec.blocked = true → sec'.blocked = true) : KeepsBlocked x (x.setSection s sec') := by
  intro k sec₁ hk hblocked
  by_cases hks : k = s
  · subst hks
    cases hold.symm.trans hk
    exact ⟨sec', by simp [Condition.setSection, (List.getElem?_eq_some_iff.mp hk).1], h hblocked⟩
  · exact ⟨sec₁, by rw [Condition.setSection,
      List.getElem?_set_ne (Ne.symm hks)]; exact hk, hblocked⟩

theorem keepsBlocked_wakeupLater (x : Condition α ε) (o : Woken α ε) (s : ℕ) :
    KeepsBlocked x (x.wakeupLater o s) := by
  unfold wakeupLater
  split
  · rename_i hs
    exact .setSection hs fun _ => rfl
  · exact fun k sec hk hblocked => ⟨sec, hk, hblocked⟩

theorem keepsBlocked_reject (x : Condition α ε) (s : ℕ) : KeepsBlocked x (x.reject s) := by
  unfold reject
  split
  · rename_i hs
    exact .setSection hs fun _ => rfl
  · exact fun k sec hk hblocked => ⟨sec, hk, hblocked⟩

theorem keepsBlocked_foldl {f : Condition α ε → ℕ → Condition α ε}
    (hf : ∀ x s, KeepsBlocked x (f x s)) (l : List ℕ) (x : Condition α ε) :
    KeepsBlocked x (l.foldl f x) := by
  induction l generalizing x with
  | nil => exact fun k sec hk hblocked => ⟨sec, hk, hblocked⟩
  | cons s l ih =>
    intro k sec hk hblocked
    obtain ⟨sec₁, hk₁, hblocked₁⟩ := hf x s k sec hk hblocked
    exact ih (f x s) k sec₁ hk₁ hblocked₁

/-- When the promise of a `wait` is resolved, its section goes on inside. -/
theorem step_blocked {a : Step α ε} (hstep : x.step a = some x')
    (hs : x.sections[s]? = some sec) (hblocked : sec.blocked = true) :
    ∃ sec', x'.sections[s]? = some sec' ∧ (sec'.blocked = true ∨ ∃ n, sec' = .inside n) := by
  have hkeep : KeepsBlocked x x' →
      ∃ sec', x'.sections[s]? = some sec' ∧ (sec'.blocked = true ∨ ∃ n, sec' = .inside n) := by
    intro h
    obtain ⟨sec', hs', hblocked'⟩ := h s sec hs hblocked
    exact ⟨sec', hs', .inl hblocked'⟩
  cases a with
  | enter =>
    cases hstep
    refine ⟨sec, ?_, .inl hblocked⟩
    rw [Condition.enter, List.getElem?_append_left (List.getElem?_eq_some_iff.mp hs).1]
    exact hs
  | leave k =>
    simp only [Condition.step] at hstep
    split at hstep
    · rename_i hk
      cases hstep
      exact hkeep (.setSection (x := { x with mutex := _ }) hk (by simp [Section.blocked]))
    · simp at hstep
  | wait k =>
    simp only [Condition.step] at hstep
    split at hstep
    · rename_i hk
      split at hstep
      · cases hstep
        exact hkeep (.setSection (x := { x with cvar := _, mutex := _ }) hk
          (by simp [Section.blocked]))
      · simp at hstep
    · simp at hstep
  | signal arg =>
    cases hstep
    refine hkeep ?_
    unfold Condition.signal
    split
    · exact fun k sec hk hblocked => ⟨sec, hk, hblocked⟩
    · rename_i k cvar _
      exact keepsBlocked_wakeupLater { x with cvar := cvar } (.value arg) k
  | broadcast arg =>
    cases hstep
    exact hkeep (keepsBlocked_foldl (fun x s => keepsBlocked_wakeupLater x _ s) x.cvar
      { x with cvar := [] })
  | broadcastExn e =>
    cases hstep
    exact hkeep (keepsBlocked_foldl (fun x s => keepsBlocked_wakeupLater x _ s) x.cvar
      { x with cvar := [] })
  | cancel ss ns =>
    cases hstep
    exact hkeep (keepsBlocked_foldl keepsBlocked_reject ss { x with mutex := x.mutex.cancel ns })
  | runCancelCallbacks k =>
    simp only [Condition.step] at hstep
    split at hstep
    · rename_i hk
      cases hstep
      exact hkeep (.setSection (x := { x with cvar := _ }) hk fun _ => rfl)
    · simp at hstep
  | runCallbacks k =>
    simp only [Condition.step] at hstep
    split at hstep
    · rename_i o hk
      cases hstep
      -- the finalizer goes inside if the mutex is free, and waits otherwise
      by_cases hsk : s = k
      · subst hsk
        refine ⟨_, by simp [Condition.finalizer, Condition.setSection,
          (List.getElem?_eq_some_iff.mp hs).1]; rfl, ?_⟩
        split
        · exact .inl rfl
        · exact .inr ⟨_, rfl⟩
      · refine ⟨sec, ?_, .inl hblocked⟩
        rw [Condition.finalizer, Condition.setSection, List.getElem?_set_ne (Ne.symm hsk)]
        exact hs
    · simp at hstep
  | runLockCancelCallbacks n =>
    obtain ⟨m', hm', rfl⟩ := Option.map_eq_some_iff.mp hstep
    exact ⟨sec, hs, .inl hblocked⟩
  | runLockCallbacks n =>
    obtain ⟨m', hm', rfl⟩ := Option.map_eq_some_iff.mp hstep
    refine ⟨_, by rw [List.getElem?_map, hs]; rfl, ?_⟩
    -- the lock of the finalizer may have come
    cases sec with
    | locking k o =>
      simp only [runLockCallbacks]
      split
      · exact .inr ⟨_, rfl⟩
      · exact .inl rfl
    | entering k => simp [Section.blocked] at hblocked
    | _ => exact .inl hblocked

/-- In every run in which no `cancel` reaches the lock in the finalizer of a `wait`: when
the promise of a `wait` is resolved, its section holds the mutex; and a section that is
inside, and so one that ends and unlocks, holds it and is the only one to hold it. -/
theorem wait_holds_mutex {x : Condition α ε}
    (hreach : Reach step (fun x a => x.sparesRelock a = true) create x) :
    (∀ (a : Step α ε) (x' : Condition α ε) (s : ℕ) (sec sec' : Section α ε),
      x.sparesRelock a = true → x.step a = some x' →
      x.sections[s]? = some sec → sec.blocked = true →
      x'.sections[s]? = some sec' → sec'.blocked = false →
        ∃ n : ℕ, sec' = .inside n ∧ x'.mutex.locked = true ∧
          x'.mutex.calls[n]? = some .holding) ∧
    ∀ s n : ℕ, x.sections[s]? = some (.inside n) →
      x.mutex.locked = true ∧ x.mutex.calls[n]? = some .holding ∧
        ∀ k : ℕ, x.mutex.calls[k]? = some .holding → k = n := by
  have hg : Guarded x := hreach.invariant guarded_create fun _ _ _ hg hok hstep => hg.step hok hstep
  have hinside : ∀ {x : Condition α ε} {s n : ℕ}, Guarded x →
      x.sections[s]? = some (.inside n) → x.mutex.locked = true ∧
        x.mutex.calls[n]? = some .holding ∧
          ∀ k : ℕ, x.mutex.calls[k]? = some .holding → k = n := by
    intro x s n hg hs
    have hn : x.mutex.calls[n]? = some .holding := hg.fits s _ hs
    refine ⟨?_, hn, fun k hk => hg.mutex.owner k n ⟨_, hk, rfl⟩ ⟨_, hn, rfl⟩⟩
    by_contra hnot
    exact (hg.mutex.unlocked (by simpa using hnot)).2 n ⟨_, hn, rfl⟩
  refine ⟨fun a x' s sec sec' hok hstep hs hblocked hs' hresolved => ?_,
    fun s n hs => hinside hg hs⟩
  obtain ⟨sec'', hs'', hcases⟩ := step_blocked hstep hs hblocked
  cases hs'.symm.trans hs''
  rcases hcases with h | ⟨n, rfl⟩
  · simp [hresolved] at h
  · obtain ⟨hlocked, hholding, -⟩ := hinside (hg.step hok hstep) hs'
    exact ⟨n, rfl, hlocked, hholding⟩

/-- One section waits; another gets the mutex; the first is woken, has to wait for the mutex
in its finalizer, and is canceled there. -/
def cancelRelockSteps : List (Step Unit Unit) :=
  [.enter, .wait 0, .enter, .signal (), .runCallbacks 0, .cancel [] [2],
    .runLockCancelCallbacks 2]

/-- The promise of the `wait` is resolved while the other section holds the mutex, and the
end of the first section then unlocks it. -/
theorem wait_loses_mutex : ∃ x x' x'' : Condition Unit Unit,
    Reach step (fun _ _ => True) create x ∧ x.step (.runLockCallbacks 2) = some x' ∧
      x.sections[0]? = some (.locking 2 (.value ())) ∧
      x'.sections = [.inside 2, .inside 1] ∧ x'.mutex.calls = [.released, .holding, .gaveUp] ∧
      x'.step (.leave 0) = some x'' ∧ x''.mutex.locked = false ∧
      x''.mutex.calls[1]? = some .holding :=
  ⟨⟨[], ⟨true, [], [.released, .holding, .unlinked], []⟩, [.locking 2 (.value ()), .inside 1]⟩, _,
  _,
    reach_of_replay cancelRelockSteps (by decide), rfl, rfl, rfl, rfl, rfl, rfl, rfl⟩

/-- The same without the cancellation. -/
def relockSteps : List (Step Unit Unit) :=
  [.enter, .wait 0, .enter, .signal (), .runCallbacks 0, .leave 1]

theorem wait_holds_mutex_relock : ∃ x x' : Condition Unit Unit,
    Reach step (fun x a => x.sparesRelock a = true) create x ∧
      x.step (.runLockCallbacks 2) = some x' ∧ x.sections[0]? = some (.locking 2 (.value ())) ∧
      x'.mutex.locked = true ∧ x'.mutex.calls[2]? = some .holding := by
  have hreach : Reach step (fun x a => x.sparesRelock a = true) create
      (⟨[], ⟨true, [], [.released, .released, .granted], []⟩, [.locking 2 (.value ()), .left]⟩ :
        Condition Unit Unit) :=
    reach_of_checked relockSteps (by decide)
  obtain ⟨n, hn, hlocked, hholding⟩ := (wait_holds_mutex hreach).1 (.runLockCallbacks 2) _ 0
    (.locking 2 (.value ())) (.inside 2) rfl rfl rfl rfl rfl rfl
  obtain rfl : 2 = n := by simpa using hn
  exact ⟨_, _, hreach, rfl, rfl, hlocked, hholding⟩

end Condition

end Lwt
