import Mathlib.Data.List.Induction
import Lwt.Library.Transition

/-!
# The functions of `Lwt_react.E` that use a mutex

`E.fold_s` and its relatives call the function of the user for one occurrence of the event after the
other: each call is made inside `Lwt_mutex.with_lock`, and a callback on the promise of `with_lock`
stores the accumulator and pushes the result.  So the mutex has been unlocked, and the next
occurrence has been woken up, before the accumulator is stored.

`unlock` uses `wakeup_later`, which only puts the callbacks into a queue when it is called inside a
resolution loop; the queue is emptied when the outermost loop is left.  The unlocking of a mutex
with waiters always happens inside a loop (`Phase`), so the next call of the function comes after
the accumulator of the one before has been stored.

The code of the user runs outside of all loops, as a callback inside a loop, and inside a call of
the function.  It may send occurrences, unless an update step is under way, enter and leave loops,
and resolve promises.
-/

namespace Lwt.React

open Transition

variable {α β γ δ : Type}

/-- What the functions differ in.  `f` gives the result of the promise of a call, from the number of
the call, the accumulator and the occurrence, `none` for a rejection; `finish` is the callback that
is run with the result, and gives the new accumulator and what is pushed. -/
structure Serial (α β γ δ : Type) where
  f : ℕ → β → α → Option γ
  finish : β → α → γ → β × Option δ

/-- `E.fold_s f` -/
def foldS (f : ℕ → β → α → Option β) : Serial α β β β := ⟨f, fun _ _ x => (x, some x)⟩

/-- `E.accum_s`; the occurrences are functions. -/
def accumS : Serial (β → Option β) β β β := ⟨fun _ acc f => f acc, fun _ _ x => (x, some x)⟩

/-- `E.map_s f` -/
def mapS (f : ℕ → α → Option γ) : Serial α Unit γ γ :=
  ⟨fun i _ x => f i x, fun _ _ v => ((), some v)⟩

/-- `E.filter_s f` -/
def filterS (f : ℕ → α → Option Bool) : Serial α Unit Bool α :=
  ⟨fun i _ x => f i x, fun _ x test => ((), if test then some x else none)⟩

/-- `E.fmap_s f` -/
def fmapS (f : ℕ → α → Option (Option γ)) : Serial α Unit (Option γ) γ :=
  ⟨fun i _ x => f i x, fun _ _ y => ((), y)⟩

/-- A call of the function, with the accumulator that it was given. -/
structure Call (α β : Type) where
  number : ℕ
  acc : β
  x : α

/-- What is under way: a resolution loop, a call of the function, in an update step or not, and what
is left of a callback whose `unlock` has entered a loop. -/
inductive Frame (α β : Type)
  | loop
  | call (update : Bool) (c : Call α β)
  | finish (c : Call α β)

/-- `waiters` are the occurrences that wait for the mutex, `deferred` those whose promises are
resolved and have their callbacks in the queue of the loop.  The promises of the calls in `pending`
are pending; those in `due` are resolved, with their callbacks still to be run.  The last four
fields are not part of the program: the occurrences, the calls with their accumulators, how many of
the calls have been finished, and what was pushed. -/
structure State (α β δ : Type) where
  acc : β
  locked : Bool
  waiters : List α
  deferred : List α
  frames : List (Frame α β)
  pending : List (Call α β)
  due : List (Call α β)
  occurrences : List α
  calls : List (β × α)
  finished : ℕ
  pushed : List δ

def Frame.isLoop : Frame α β → Bool
  | .loop => true
  | _ => false

def Frame.isUpdate : Frame α β → Bool
  | .call update _ => update
  | _ => false

namespace State

def init (acc : β) : State α β δ where
  acc := acc
  locked := false
  waiters := []
  deferred := []
  frames := []
  pending := []
  due := []
  occurrences := []
  calls := []
  finished := 0
  pushed := []

/-- `current_callback_nesting_depth` -/
def depth (s : State α β δ) : ℕ := s.frames.countP Frame.isLoop

/-- The code of the user is running. -/
def userCode (s : State α β δ) : Bool :=
  match s.frames with
  | .finish _ :: _ => false
  | _ => true

/-- The function is called, with the accumulator of this moment. -/
def call (s : State α β δ) (update : Bool) (x : α) : State α β δ :=
  { s with
    frames := .call update ⟨s.calls.length, s.acc, x⟩ :: s.frames
    calls := s.calls ++ [(s.acc, x)] }

/-- The function of `fmap`: `with_lock` calls the function at once if the mutex is unlocked. -/
def occurrence (s : State α β δ) (x : α) : State α β δ :=
  let s := { s with occurrences := s.occurrences ++ [x] }
  if s.locked then { s with waiters := s.waiters ++ [x] }
  else { s with locked := true }.call true x

variable (g : Serial α β γ δ)

/-- The callback of `on_success`, if the promise is fulfilled. -/
def finish (s : State α β δ) (c : Call α β) : State α β δ :=
  match g.f c.number c.acc c.x with
  | none => { s with finished := s.finished + 1 }
  | some v =>
    let (acc, y) := g.finish s.acc c.x v
    { s with acc := acc, pushed := s.pushed ++ y.toList, finished := s.finished + 1 }

/-- The callback of `finalize`: `unlock m`, and then the callback of `on_success`. -/
def finalize (s : State α β δ) (c : Call α β) : State α β δ :=
  if s.locked then
    match s.waiters with
    | [] => { s with locked := false }.finish g c
    | x :: waiters =>
      let s := { s with waiters := waiters }
      if 1 ≤ s.depth then { s with deferred := s.deferred ++ [x] }.finish g c
      else { s with frames := .loop :: .finish c :: s.frames }.call false x
  else s.finish g c

/-- What was left of a callback is run, when the loop it has entered is left. -/
def resume (s : State α β δ) : State α β δ :=
  match s.frames with
  | .finish c :: frames => { s with frames := frames }.finish g c
  | _ => s

/-- The end of the resolution loop on top of `frames`; the outermost one first empties the queue. -/
def leave (s : State α β δ) (frames : List (Frame α β)) : State α β δ :=
  if s.depth = 1 then
    match s.deferred with
    | x :: deferred => { s with deferred := deferred }.call false x
    | [] => { s with frames := frames }.resume g
  else { s with frames := frames }.resume g

end State

inductive SerialStep (α : Type)
  /-- an occurrence is sent -/
  | occurrence (x : α)
  /-- a resolution loop is entered -/
  | enter
  /-- the loop on top is left, or takes the next callbacks from the queue -/
  | leave
  /-- the call on top returns a promise, that is resolved or not -/
  | returns (resolved : Bool)
  /-- the promise of a call is resolved -/
  | resolve (i : ℕ)
  /-- the callbacks of such a promise are run -/
  | callback (i : ℕ)

def serialStep (g : Serial α β γ δ) (s : State α β δ) : SerialStep α → Option (State α β δ)
  | .occurrence x =>
    if s.userCode && !s.frames.any Frame.isUpdate then some (s.occurrence x) else none
  | .enter => if s.userCode then some { s with frames := .loop :: s.frames } else none
  | .leave =>
    match s.frames with
    | .loop :: frames => some (s.leave g frames)
    | _ => none
  | .returns resolved =>
    match s.frames with
    | .call _ c :: frames =>
      let s := { s with frames := frames }
      some (if resolved then s.finalize g c else { s with pending := s.pending ++ [c] })
    | _ => none
  | .resolve i =>
    if s.userCode then
      s.pending[i]?.map fun c => { s with pending := s.pending.eraseIdx i, due := s.due ++ [c] }
    else none
  | .callback i =>
    match s.frames with
    | .loop :: _ => s.due[i]?.map fun c => { s with due := s.due.eraseIdx i }.finalize g c
    | _ => none

/-! ## The occurrences one after the other -/

namespace Serial

variable (g : Serial α β γ δ)

/-- One occurrence, with its number: the accumulator and what has been pushed. -/
def next (r : β × List δ) (x : α × ℕ) : β × List δ :=
  match g.f x.2 r.1 x.1 with
  | none => r
  | some v => ((g.finish r.1 x.1 v).1, r.2 ++ (g.finish r.1 x.1 v).2.toList)

/-- The left fold over the occurrences: the last accumulator, and what is pushed. -/
def results (acc : β) (l : List α) : β × List δ := l.zipIdx.foldl g.next (acc, [])

/-- The calls, each with the accumulator after the occurrences before. -/
def history (acc : β) (l : List α) : List (β × α) :=
  l.zipIdx.map fun x => ((g.results acc (l.take x.2)).1, x.1)

variable {g} {acc : β} {l : List α} {x : α}

theorem results_concat :
    g.results acc (l ++ [x]) = g.next (g.results acc l) (x, l.length) := by
  unfold results
  rw [List.zipIdx_append, List.foldl_append]
  simp

theorem length_history : (g.history acc l).length = l.length := by
  simp [history]

theorem history_concat :
    g.history acc (l ++ [x]) = g.history acc l ++ [((g.results acc l).1, x)] := by
  unfold history
  rw [List.zipIdx_append, List.map_append]
  congr 1
  · refine List.map_congr_left fun y hy => ?_
    have hlt := List.snd_lt_of_mem_zipIdx hy
    rw [List.take_append_of_le_length (by simpa using Nat.le_of_lt hlt)]
  · simp

/-- Without an accumulator each occurrence contributes by itself. -/
theorem results_unit (g : Serial α Unit γ δ) (l : List α) :
    (g.results () l).2 =
      l.zipIdx.filterMap fun x => (g.f x.2 () x.1).bind fun v => (g.finish () x.1 v).2 := by
  induction l using List.reverseRecOn with
  | nil => rfl
  | append_singleton l x ih =>
    rw [results_concat, List.zipIdx_append, List.filterMap_append, ← ih]
    simp only [next, Nat.zero_add, List.zipIdx_singleton, List.filterMap_cons,
      List.filterMap_nil]
    cases g.f l.length () x with
    | none => simp
    | some v => cases hy : (g.finish () x v).2 <;> simp [hy]

end Serial

/-! ## One call at a time -/

section Steps

variable {g : Serial α β γ δ} {acc₀ : β} {s t : State α β δ} {done waiting : List α} {x : α}

/-- The first occurrences are finished, and what they give is in the accumulator and was pushed. -/
structure Progress (g : Serial α β γ δ) (acc₀ : β) (s : State α β δ) (done waiting : List α) :
    Prop where
  occurrences : s.occurrences = done ++ waiting
  finished : s.finished = done.length
  results : (s.acc, s.pushed) = g.results acc₀ done

def Loops (frames : List (Frame α β)) : Prop := ∀ frame ∈ frames, frame = .loop

theorem loops_cons {frames : List (Frame α β)} (h : Loops frames) : Loops (.loop :: frames) := by
  intro frame hframe
  rcases List.mem_cons.mp hframe with rfl | hmem
  · rfl
  · exact h frame hmem

theorem Loops.depth (h : Loops s.frames) : s.depth = s.frames.length := by
  unfold State.depth
  rw [List.countP_eq_length]
  intro frame hframe
  rw [h frame hframe]
  rfl

/-- Where the first occurrence that is not finished is.  A call that is not made in an update step
is made inside a loop, and in an update step no occurrence comes. -/
inductive Phase (g : Serial α β γ δ) (acc₀ : β) (s : State α β δ) (done : List α) : List α → Prop
  | idle (hframes : Loops s.frames) (hlocked : s.locked = false) (hwaiters : s.waiters = [])
      (hdeferred : s.deferred = []) (hpending : s.pending = []) (hdue : s.due = [])
      (hcalls : s.calls = g.history acc₀ done) : Phase g acc₀ s done []
  | calling (update : Bool) (x : α) (l l' : List (Frame α β))
      (hframes : s.frames = l ++ .call update ⟨done.length, s.acc, x⟩ :: l') (hl : Loops l)
      (hl' : Loops l') (hupdate : if update then s.waiters = [] else l' ≠ [])
      (hlocked : s.locked = true) (hdeferred : s.deferred = []) (hpending : s.pending = [])
      (hdue : s.due = []) (hcalls : s.calls = g.history acc₀ (done ++ [x])) :
      Phase g acc₀ s done (x :: s.waiters)
  | pending (x : α) (hframes : Loops s.frames) (hlocked : s.locked = true)
      (hdeferred : s.deferred = []) (hpending : s.pending = [⟨done.length, s.acc, x⟩])
      (hdue : s.due = []) (hcalls : s.calls = g.history acc₀ (done ++ [x])) :
      Phase g acc₀ s done (x :: s.waiters)
  | due (x : α) (hframes : Loops s.frames) (hlocked : s.locked = true)
      (hdeferred : s.deferred = []) (hpending : s.pending = [])
      (hdue : s.due = [⟨done.length, s.acc, x⟩])
      (hcalls : s.calls = g.history acc₀ (done ++ [x])) :
      Phase g acc₀ s done (x :: s.waiters)
  | deferred (x : α) (hframes : Loops s.frames) (hloop : s.frames ≠ []) (hlocked : s.locked = true)
      (hdeferred : s.deferred = [x]) (hpending : s.pending = []) (hdue : s.due = [])
      (hcalls : s.calls = g.history acc₀ done) :
      Phase g acc₀ s done (x :: s.waiters)

theorem finish_eq (c : Call α β) (hacc : c.acc = s.acc) :
    s.finish g c =
      { s with
        acc := (g.next (s.acc, s.pushed) (c.x, c.number)).1
        pushed := (g.next (s.acc, s.pushed) (c.x, c.number)).2
        finished := s.finished + 1 } := by
  unfold State.finish Serial.next
  rw [hacc]
  cases g.f c.number s.acc c.x <;> rfl

theorem Progress.finish (h : Progress g acc₀ s done (x :: waiting)) :
    Progress g acc₀ (s.finish g ⟨done.length, s.acc, x⟩) (done ++ [x]) waiting := by
  rw [finish_eq _ rfl]
  refine ⟨?_, ?_, ?_⟩
  · change s.occurrences = _
    rw [h.occurrences, List.append_assoc, List.singleton_append]
  · change s.finished + 1 = _
    rw [h.finished, List.length_append, List.length_singleton]
  · rw [Serial.results_concat, ← h.results]

theorem Progress.call (h : Progress g acc₀ s done waiting) (update : Bool) (x : α)
    (hframes : Loops s.frames) (hupdate : if update then s.waiters = [] else s.frames ≠ [])
    (hlocked : s.locked = true) (hdeferred : s.deferred = []) (hpending : s.pending = [])
    (hdue : s.due = []) (hcalls : s.calls = g.history acc₀ done) :
    Phase g acc₀ (s.call update x) done (x :: s.waiters) := by
  have hacc : s.acc = (g.results acc₀ done).1 := by rw [← h.results]
  refine .calling update x [] s.frames ?_ nofun hframes hupdate hlocked hdeferred hpending hdue ?_
  · unfold State.call
    rw [hcalls, Serial.length_history]
    rfl
  · rw [Serial.history_concat, ← hacc, ← hcalls]
    rfl

/-- What has to be preserved. -/
def Serialized (g : Serial α β γ δ) (acc₀ : β) (s : State α β δ) : Prop :=
  ∃ done waiting, Progress g acc₀ s done waiting ∧ Phase g acc₀ s done waiting

theorem finalize_unlock (c : Call α β) (hlocked : s.locked = true) (hwaiters : s.waiters = []) :
    s.finalize g c = { s with locked := false }.finish g c := by
  unfold State.finalize
  rw [if_pos hlocked]
  split
  · rfl
  · rename_i hcons
    cases hwaiters.symm.trans hcons

theorem finalize_defer {y : α} {waiters : List α} (c : Call α β) (hlocked : s.locked = true)
    (hwaiters : s.waiters = y :: waiters) (hdepth : 1 ≤ s.depth) :
    s.finalize g c =
      { s with waiters := waiters, deferred := s.deferred ++ [y] }.finish g c := by
  unfold State.finalize
  rw [if_pos hlocked]
  split
  · rename_i hnil
    cases hwaiters.symm.trans hnil
  · rename_i hcons
    cases hwaiters.symm.trans hcons
    exact if_pos hdepth

/-- A call has ended, inside a loop or without waiters. -/
theorem serialized_finalize (h : Progress g acc₀ s done (x :: s.waiters)) (hframes : Loops s.frames)
    (hloop : s.waiters = [] ∨ s.frames ≠ []) (hlocked : s.locked = true)
    (hdeferred : s.deferred = []) (hpending : s.pending = []) (hdue : s.due = [])
    (hcalls : s.calls = g.history acc₀ (done ++ [x])) :
    Serialized g acc₀ (s.finalize g ⟨done.length, s.acc, x⟩) := by
  cases hwaiters : s.waiters with
  | nil =>
    rw [finalize_unlock _ hlocked hwaiters]
    rw [hwaiters] at h
    have hprogress : Progress g acc₀ { s with locked := false } done [x] :=
      ⟨h.occurrences, h.finished, h.results⟩
    refine ⟨done ++ [x], [], hprogress.finish, ?_⟩
    rw [finish_eq _ rfl]
    exact .idle hframes rfl hwaiters hdeferred hpending hdue hcalls
  | cons y waiters =>
    -- the next occurrence is woken up, and its callbacks are put into the queue
    have hne : s.frames ≠ [] := by
      rcases hloop with hnil | hne
      · cases hnil.symm.trans hwaiters
      · exact hne
    have hdepth : 1 ≤ s.depth := by
      rw [hframes.depth]
      exact List.length_pos_of_ne_nil hne
    rw [finalize_defer _ hlocked hwaiters hdepth]
    rw [hwaiters] at h
    have hprogress : Progress g acc₀
        { s with waiters := waiters, deferred := s.deferred ++ [y] } done (x :: y :: waiters) :=
      ⟨h.occurrences, h.finished, h.results⟩
    refine ⟨done ++ [x], y :: waiters, hprogress.finish, ?_⟩
    rw [finish_eq _ rfl]
    exact .deferred y hframes hne hlocked (by simp [hdeferred]) hpending hdue hcalls

theorem occurrence_locked (x : α) (hlocked : s.locked = true) :
    s.occurrence x =
      { s with occurrences := s.occurrences ++ [x], waiters := s.waiters ++ [x] } := by
  unfold State.occurrence
  exact if_pos hlocked

theorem occurrence_unlocked (x : α) (hlocked : s.locked = false) :
    s.occurrence x =
      { s with occurrences := s.occurrences ++ [x], locked := true }.call true x := by
  unfold State.occurrence
  exact if_neg (by simp [hlocked])

theorem Serialized.occurrence (h : Serialized g acc₀ s)
    (hupdate : s.frames.any Frame.isUpdate = false) (x : α) :
    Serialized g acc₀ (s.occurrence x) := by
  obtain ⟨done, waiting, hprogress, hphase⟩ := h
  have hoccurrences : s.occurrences ++ [x] = done ++ (waiting ++ [x]) := by
    rw [hprogress.occurrences, List.append_assoc]
  refine ⟨done, waiting ++ [x], ?_⟩
  cases hphase with
  | idle hframes hlocked hwaiters hdeferred hpending hdue hcalls =>
    rw [occurrence_unlocked x hlocked]
    have hprogress' : Progress g acc₀
        { s with occurrences := s.occurrences ++ [x], locked := true } done [x] :=
      ⟨hoccurrences, hprogress.finished, hprogress.results⟩
    refine ⟨⟨hoccurrences, hprogress.finished, hprogress.results⟩, ?_⟩
    have hwaiting : [] ++ [x] = x :: s.waiters := by rw [hwaiters, List.nil_append]
    rw [hwaiting]
    exact hprogress'.call true x hframes hwaiters rfl hdeferred hpending hdue hcalls
  | calling update y l l' hframes hl hl' hu hlocked hdeferred hpending hdue hcalls =>
    rw [occurrence_locked x hlocked]
    refine ⟨⟨hoccurrences, hprogress.finished, hprogress.results⟩, ?_⟩
    rw [hframes] at hupdate
    obtain rfl : update = false := by
      simp only [List.any_append, List.any_cons, Bool.or_eq_false_iff] at hupdate
      exact hupdate.2.1
    exact .calling false y l l' hframes hl hl' hu hlocked hdeferred hpending hdue hcalls
  | pending y hframes hlocked hdeferred hpending hdue hcalls =>
    rw [occurrence_locked x hlocked]
    exact ⟨⟨hoccurrences, hprogress.finished, hprogress.results⟩,
      .pending y hframes hlocked hdeferred hpending hdue hcalls⟩
  | due y hframes hlocked hdeferred hpending hdue hcalls =>
    rw [occurrence_locked x hlocked]
    exact ⟨⟨hoccurrences, hprogress.finished, hprogress.results⟩,
      .due y hframes hlocked hdeferred hpending hdue hcalls⟩
  | deferred y hframes hloop hlocked hdeferred hpending hdue hcalls =>
    rw [occurrence_locked x hlocked]
    exact ⟨⟨hoccurrences, hprogress.finished, hprogress.results⟩,
      .deferred y hframes hloop hlocked hdeferred hpending hdue hcalls⟩

theorem Serialized.enter (h : Serialized g acc₀ s) :
    Serialized g acc₀ { s with frames := .loop :: s.frames } := by
  obtain ⟨done, waiting, hprogress, hphase⟩ := h
  refine ⟨done, waiting, ⟨hprogress.occurrences, hprogress.finished, hprogress.results⟩, ?_⟩
  cases hphase with
  | idle hframes hlocked hwaiters hdeferred hpending hdue hcalls =>
    exact .idle (loops_cons hframes) hlocked hwaiters hdeferred hpending hdue hcalls
  | calling update y l l' hframes hl hl' hu hlocked hdeferred hpending hdue hcalls =>
    exact .calling update y (.loop :: l) l' (congrArg (.loop :: ·) hframes) (loops_cons hl) hl' hu
      hlocked hdeferred hpending hdue hcalls
  | pending y hframes hlocked hdeferred hpending hdue hcalls =>
    exact .pending y (loops_cons hframes) hlocked hdeferred hpending hdue hcalls
  | due y hframes hlocked hdeferred hpending hdue hcalls =>
    exact .due y (loops_cons hframes) hlocked hdeferred hpending hdue hcalls
  | deferred y hframes hloop hlocked hdeferred hpending hdue hcalls =>
    exact .deferred y (loops_cons hframes) (List.cons_ne_nil _ _) hlocked hdeferred hpending hdue
      hcalls

theorem leave_pop {frames : List (Frame α β)}
    (hdeferred : s.depth = 1 → s.deferred = [])
    (hframes : ∀ c frames', frames ≠ .finish c :: frames') :
    s.leave g frames = { s with frames := frames } := by
  have hresume : State.resume g { s with frames := frames } = { s with frames := frames } := by
    unfold State.resume
    split
    · rename_i c frames' heq
      exact absurd heq (hframes c frames')
    · rfl
  unfold State.leave
  split
  · rename_i hdepth
    split
    · rename_i hcons
      cases (hdeferred hdepth).symm.trans hcons
    · exact hresume
  · exact hresume

theorem Loops.ne_finish {frames : List (Frame α β)} (h : Loops frames) (c : Call α β)
    (frames' : List (Frame α β)) : frames ≠ .finish c :: frames' := by
  rintro rfl
  cases h _ List.mem_cons_self

theorem leave_call {frames : List (Frame α β)} (hdepth : s.depth = 1)
    (hdeferred : s.deferred = [x]) :
    s.leave g frames = { s with deferred := [] }.call false x := by
  unfold State.leave
  rw [if_pos hdepth]
  split
  · rename_i hcons
    cases hdeferred.symm.trans hcons
    rfl
  · rename_i hnil
    cases hdeferred.symm.trans hnil

theorem Serialized.leave (h : Serialized g acc₀ s) {frames : List (Frame α β)}
    (htop : s.frames = .loop :: frames) : Serialized g acc₀ (s.leave g frames) := by
  obtain ⟨done, waiting, hprogress, hphase⟩ := h
  have htail : Loops s.frames → Loops frames := fun hloops frame hframe =>
    hloops frame (htop ▸ List.mem_cons_of_mem _ hframe)
  have hprogress' : Progress g acc₀ { s with frames := frames } done waiting :=
    ⟨hprogress.occurrences, hprogress.finished, hprogress.results⟩
  cases hphase with
  -- no call is under way: the loop only ends
  | idle hframes hlocked hwaiters hdeferred hpending hdue hcalls =>
    rw [leave_pop (fun _ => hdeferred) (htail hframes).ne_finish]
    exact ⟨done, [], hprogress',
      .idle (htail hframes) hlocked hwaiters hdeferred hpending hdue hcalls⟩
  | calling update y l l' hframes hl hl' hu hlocked hdeferred hpending hdue hcalls =>
    cases l with
    | nil => cases htop.symm.trans hframes
    | cons fr l =>
      obtain ⟨-, rfl⟩ := List.cons.inj (htop.symm.trans hframes)
      rw [leave_pop (fun _ => hdeferred) ?_]
      · exact ⟨done, _, hprogress', .calling update y l l' rfl
          (fun fr' hfr => hl fr' (List.mem_cons_of_mem _ hfr)) hl' hu hlocked hdeferred hpending
          hdue hcalls⟩
      -- the frame under the loop is another loop, or that of the call
      · intro c frames' heq
        cases l with
        | nil => cases heq
        | cons fr' l =>
          obtain ⟨rfl, -⟩ := List.cons.inj heq
          cases hl _ (List.mem_cons_of_mem _ List.mem_cons_self)
  | pending y hframes hlocked hdeferred hpending hdue hcalls =>
    rw [leave_pop (fun _ => hdeferred) (htail hframes).ne_finish]
    exact ⟨done, _, hprogress',
      .pending y (htail hframes) hlocked hdeferred hpending hdue hcalls⟩
  | due y hframes hlocked hdeferred hpending hdue hcalls =>
    rw [leave_pop (fun _ => hdeferred) (htail hframes).ne_finish]
    exact ⟨done, _, hprogress', .due y (htail hframes) hlocked hdeferred hpending hdue hcalls⟩
  | deferred y hframes hloop hlocked hdeferred hpending hdue hcalls =>
    -- the outermost loop runs the deferred callback, an inner one leaves it
    by_cases hdepth : s.depth = 1
    · rw [leave_call hdepth hdeferred]
      have hprogress'' : Progress g acc₀ { s with deferred := [] } done (y :: s.waiters) :=
        ⟨hprogress.occurrences, hprogress.finished, hprogress.results⟩
      exact ⟨done, y :: s.waiters,
        ⟨hprogress.occurrences, hprogress.finished, hprogress.results⟩,
        hprogress''.call false y hframes hloop hlocked rfl hpending hdue hcalls⟩
    · rw [leave_pop (fun h => absurd h hdepth) (htail hframes).ne_finish]
      refine ⟨done, _, hprogress', .deferred y (htail hframes) ?_ hlocked hdeferred hpending hdue
        hcalls⟩
      rintro rfl
      rw [hframes.depth, htop] at hdepth
      exact hdepth rfl

theorem Serialized.returns (h : Serialized g acc₀ s) {update : Bool} {c : Call α β}
    {frames : List (Frame α β)} (htop : s.frames = .call update c :: frames) (resolved : Bool) :
    Serialized g acc₀
      (if resolved then { s with frames := frames }.finalize g c
        else { s with frames := frames, pending := s.pending ++ [c] }) := by
  obtain ⟨done, waiting, hprogress, hphase⟩ := h
  have hno : ¬ Loops s.frames := by
    intro hloops
    rw [htop] at hloops
    cases hloops _ List.mem_cons_self
  cases hphase with
  | idle hframes => exact absurd hframes hno
  | pending _ hframes => exact absurd hframes hno
  | due _ hframes => exact absurd hframes hno
  | deferred _ hframes => exact absurd hframes hno
  | calling update' y l l' hframes hl hl' hu hlocked hdeferred hpending hdue hcalls =>
    cases l with
    | cons fr l =>
      obtain ⟨rfl, -⟩ := List.cons.inj (htop.symm.trans hframes)
      cases hl _ List.mem_cons_self
    | nil =>
      obtain ⟨hcall, rfl⟩ := List.cons.inj (htop.symm.trans hframes)
      cases hcall
      have hprogress' : Progress g acc₀ { s with frames := frames } done (y :: s.waiters) :=
        ⟨hprogress.occurrences, hprogress.finished, hprogress.results⟩
      cases resolved with
      | true =>
        refine serialized_finalize hprogress' hl' ?_ hlocked hdeferred hpending hdue hcalls
        cases update with
        | true => exact .inl hu
        | false => exact .inr hu
      | false =>
        refine ⟨done, y :: s.waiters,
          ⟨hprogress.occurrences, hprogress.finished, hprogress.results⟩,
          .pending y hl' hlocked hdeferred ?_ hdue hcalls⟩
        exact congrArg (· ++ _) hpending

theorem eq_of_getElem?_singleton {c c' : Call α β} {i : ℕ} (h : [c][i]? = some c') :
    i = 0 ∧ c = c' := by
  cases i with
  | zero => exact ⟨rfl, Option.some.inj h⟩
  | succ i => cases h

theorem Serialized.resolve (h : Serialized g acc₀ s) {i : ℕ} {c : Call α β}
    (hc : s.pending[i]? = some c) :
    Serialized g acc₀ { s with pending := s.pending.eraseIdx i, due := s.due ++ [c] } := by
  obtain ⟨done, waiting, hprogress, hphase⟩ := h
  have hne : s.pending ≠ [] := by
    intro hnil
    rw [hnil] at hc
    cases hc
  cases hphase with
  | idle _ _ _ _ hpending => exact absurd hpending hne
  | calling _ _ _ _ _ _ _ _ _ _ hpending => exact absurd hpending hne
  | due _ _ _ _ hpending => exact absurd hpending hne
  | deferred _ _ _ _ _ hpending => exact absurd hpending hne
  | pending y hframes hlocked hdeferred hpending hdue hcalls =>
    rw [hpending] at hc
    obtain ⟨rfl, rfl⟩ := eq_of_getElem?_singleton hc
    refine ⟨done, y :: s.waiters,
      ⟨hprogress.occurrences, hprogress.finished, hprogress.results⟩,
      .due y hframes hlocked hdeferred ?_ ?_ hcalls⟩
    · simp [hpending]
    · simp [hdue]

theorem Serialized.callback (h : Serialized g acc₀ s) (hloop : s.frames ≠ []) {i : ℕ}
    {c : Call α β} (hc : s.due[i]? = some c) :
    Serialized g acc₀ ({ s with due := s.due.eraseIdx i }.finalize g c) := by
  obtain ⟨done, waiting, hprogress, hphase⟩ := h
  have hne : s.due ≠ [] := by
    intro hnil
    rw [hnil] at hc
    cases hc
  cases hphase with
  | idle _ _ _ _ _ hdue => exact absurd hdue hne
  | calling _ _ _ _ _ _ _ _ _ _ _ hdue => exact absurd hdue hne
  | pending _ _ _ _ _ hdue => exact absurd hdue hne
  | deferred _ _ _ _ _ _ hdue => exact absurd hdue hne
  | due y hframes hlocked hdeferred hpending hdue hcalls =>
    rw [hdue] at hc
    obtain ⟨rfl, rfl⟩ := eq_of_getElem?_singleton hc
    have hprogress' : Progress g acc₀ { s with due := s.due.eraseIdx 0 } done (y :: s.waiters) :=
      ⟨hprogress.occurrences, hprogress.finished, hprogress.results⟩
    exact serialized_finalize hprogress' hframes (.inr hloop) hlocked hdeferred hpending
      (by simp [hdue]) hcalls

theorem serialized_step {a : SerialStep α} (h : Serialized g acc₀ s)
    (hstep : serialStep g s a = some t) : Serialized g acc₀ t := by
  cases a with
  | occurrence x =>
    obtain ⟨hok, hstep⟩ := Option.ite_none_right_eq_some.mp hstep
    cases hstep
    simp only [Bool.and_eq_true, Bool.not_eq_true'] at hok
    exact h.occurrence hok.2 x
  | enter =>
    obtain ⟨-, hstep⟩ := Option.ite_none_right_eq_some.mp hstep
    cases hstep
    exact h.enter
  | leave =>
    simp only [serialStep] at hstep
    split at hstep
    · rename_i htop
      cases hstep
      exact h.leave htop
    · cases hstep
  | returns resolved =>
    simp only [serialStep] at hstep
    split at hstep
    · rename_i htop
      cases hstep
      exact h.returns htop resolved
    · cases hstep
  | resolve i =>
    obtain ⟨-, hstep⟩ := Option.ite_none_right_eq_some.mp hstep
    obtain ⟨c, hc, rfl⟩ := Option.map_eq_some_iff.mp hstep
    exact h.resolve hc
  | callback i =>
    simp only [serialStep] at hstep
    split at hstep
    · rename_i htop
      obtain ⟨c, hc, rfl⟩ := Option.map_eq_some_iff.mp hstep
      exact h.callback (by simp [htop]) hc
    · cases hstep

end Steps

/-- In every run the occurrences are finished in their order, each with the accumulator that those
before have left: the accumulator and what has been pushed are those of the left fold over the
finished ones.  At most one more call has been made, with the accumulator stored before.  When no
code is running and no promise of a call is pending, all occurrences are finished. -/
def InOrder (g : Serial α β γ δ) (acc₀ : β) : Prop :=
  ∀ s : State α β δ, Reach (serialStep g) (fun _ _ => True) (State.init acc₀) s →
    ∃ done waiting, s.occurrences = done ++ waiting ∧ s.finished = done.length ∧
      (s.acc, s.pushed) = g.results acc₀ done ∧
      (s.calls = g.history acc₀ done ∨
        ∃ x rest, waiting = x :: rest ∧ s.calls = g.history acc₀ (done ++ [x])) ∧
      (s.frames = [] → s.pending = [] → s.due = [] → waiting = [])

theorem Serial.inOrder (g : Serial α β γ δ) (acc₀ : β) : InOrder g acc₀ := by
  intro s hreach
  have hinit : Serialized g acc₀ (State.init acc₀) :=
    ⟨[], [], ⟨rfl, rfl, rfl⟩, .idle nofun rfl rfl rfl rfl rfl rfl⟩
  have h : Serialized g acc₀ s :=
    hreach.invariant hinit fun _ _ _ h _ hstep => serialized_step h hstep
  obtain ⟨done, waiting, hprogress, hphase⟩ := h
  refine ⟨done, waiting, hprogress.occurrences, hprogress.finished, hprogress.results, ?_, ?_⟩
  · cases hphase with
    | idle _ _ _ _ _ _ hcalls => exact .inl hcalls
    | calling _ x _ _ _ _ _ _ _ _ _ _ hcalls => exact .inr ⟨x, s.waiters, rfl, hcalls⟩
    | pending x _ _ _ _ _ hcalls => exact .inr ⟨x, s.waiters, rfl, hcalls⟩
    | due x _ _ _ _ _ hcalls => exact .inr ⟨x, s.waiters, rfl, hcalls⟩
    | deferred _ _ _ _ _ _ _ hcalls => exact .inl hcalls
  · intro hframes hpending hdue
    cases hphase with
    | idle => rfl
    | calling _ _ _ _ hcall => simp [hframes] at hcall
    | pending _ _ _ _ hsome => cases hpending.symm.trans hsome
    | due _ _ _ _ _ hsome => cases hdue.symm.trans hsome
    | deferred _ _ hne => exact absurd hframes hne

/-- `fold_s` and `accum_s` push the successive accumulators, in the order of the occurrences and
without those whose promise is rejected, and `map_s`, `filter_s` and `fmap_s` their results. -/
theorem serial_in_order :
    (∀ {α β : Type} (f : ℕ → β → α → Option β) (acc : β), InOrder (foldS f) acc ∧
      ∀ l x, (foldS f).results acc (l ++ [x]) =
        match f l.length ((foldS f).results acc l).1 x with
        | none => (foldS f).results acc l
        | some v => (v, ((foldS f).results acc l).2 ++ [v])) ∧
    (∀ {β : Type} (acc : β), InOrder accumS acc ∧
      ∀ l (f : β → Option β), accumS.results acc (l ++ [f]) =
        match f (accumS.results acc l).1 with
        | none => accumS.results acc l
        | some v => (v, (accumS.results acc l).2 ++ [v])) ∧
    (∀ {α γ : Type} (f : ℕ → α → Option γ), InOrder (mapS f) () ∧
      ∀ l, ((mapS f).results () l).2 = l.zipIdx.filterMap fun x => f x.2 x.1) ∧
    (∀ {α : Type} (f : ℕ → α → Option Bool), InOrder (filterS f) () ∧
      ∀ l, ((filterS f).results () l).2 =
        l.zipIdx.filterMap fun x => if f x.2 x.1 = some true then some x.1 else none) ∧
    (∀ {α γ : Type} (f : ℕ → α → Option (Option γ)), InOrder (fmapS f) () ∧
      ∀ l, ((fmapS f).results () l).2 = l.zipIdx.filterMap fun x => (f x.2 x.1).join) := by
  refine ⟨fun f acc => ⟨(foldS f).inOrder acc, fun l x => Serial.results_concat⟩,
    fun acc => ⟨accumS.inOrder acc, fun l x => Serial.results_concat⟩,
    fun f => ⟨(mapS f).inOrder (), fun l => ?_⟩, fun f => ⟨(filterS f).inOrder (), fun l => ?_⟩,
    fun f => ⟨(fmapS f).inOrder (), fun l => ?_⟩⟩
  · rw [Serial.results_unit]
    simp [mapS]
  · rw [Serial.results_unit]
    refine List.filterMap_congr fun x _ => ?_
    cases htest : f x.2 x.1 with
    | none => simp [filterS, htest]
    | some test => cases test <;> simp [filterS, htest]
  · rw [Serial.results_unit]
    refine List.filterMap_congr fun x _ => ?_
    cases hy : f x.2 x.1 <;> simp [fmapS, hy]

/-- The second occurrence comes while the first call is under way; its own call is made when the
loop is left, and gets the first sum. -/
example : (replay (serialStep (foldS fun _ acc x => some (acc + x))) (State.init 0)
    [.occurrence 1, .returns false, .occurrence 2, .resolve 0, .enter, .callback 0, .leave,
      .returns true, .leave]).map (fun s => (s.pushed, s.calls)) =
    some ([1, 3], [(0, 1), (1, 2)]) := rfl

end Lwt.React
