import Mathlib.Data.Int.Order.Basic
import Lwt.Library.Transition
import Lwt.Promise.Api

/-!
# The resolution loop

`enter_resolution_loop` and `leave_resolution_loop` keep a count of the loops under way
in `current_callback_nesting_depth`.  The frames of the machine make the same count
visible: each loop under way has one frame that is going to leave it.  `Grows` is what
every function of the library does to the two, and `step_balance` says that they move
together, except where an exception removes such a frame (`Config.quiet` excludes it) and
in `abandon_wakeups`, which leaves a loop that it did not enter.
-/

namespace Lwt

open Transition

variable {U : Type}

/-! ## Exceptions that break a loop -/

/-- An exception that reaches the frame leaves a call of the resolution loop behind. -/
def Frame.breaks (c : Config U) (e : Exn U) : Frame U → Bool
  | .resolveWith _ => !c.exceptionFilter e
  | .proxyInto _ | .runCallbacks _ _ _ | .runCancelCallbacks _ | .runRegularCallbacks _ _
  | .leaveResolutionLoop _ | .drain _ | .propagateCancel _ _ | .runRecords _
  | .resolveUnderlying _ _ | .resolveExact _ _ => true
  | _ => false

/-- No exception is about to break a loop. -/
def Config.quiet (c : Config U) : Bool :=
  match c.control, c.stack with
  | .exn e, frame :: _ => !frame.breaks c e
  | _, _ => true

/-- The move is a call of `abandon_wakeups`. -/
def Label.abandons : Label U → Bool
  | .move (.call .abandonWakeups _) => true
  | _ => false

/-! ## Counting loops -/

/-- A frame that is going to leave a loop. -/
def Frame.leaves : Frame U → Bool
  | .leaveResolutionLoop _ | .drain _ => true
  | _ => false

/-- The number of loops under way. -/
def loops (stack : List (Frame U)) : ℕ := stack.countP Frame.leaves

@[simp] theorem loops_nil : loops ([] : List (Frame U)) = 0 := rfl

@[simp] theorem loops_append (stack stack' : List (Frame U)) :
    loops (stack ++ stack') = loops stack + loops stack' :=
  List.countP_append

theorem loops_cons (frame : Frame U) (stack : List (Frame U)) :
    loops (frame :: stack) = loops stack + if frame.leaves then 1 else 0 :=
  List.countP_cons

/-- A function that puts frames on the stack counts the loops it enters, and defers
callbacks only inside of a loop. -/
def Grows (c c' : Config U) : Prop :=
  ∃ frames, c'.stack = frames ++ c.stack ∧ c'.depth = c.depth + loops frames ∧
    (c'.deferredCallbacks ≠ [] → c.deferredCallbacks ≠ [] ∨ 1 ≤ c'.depth)

namespace Grows

variable {c c' c'' : Config U}

theorem trans (h : Grows c c') (h' : Grows c' c'') : Grows c c'' := by
  obtain ⟨frames, hstack, hdepth, hqueue⟩ := h
  obtain ⟨frames', hstack', hdepth', hqueue'⟩ := h'
  refine ⟨frames' ++ frames, by rw [hstack', hstack, List.append_assoc], ?_, fun hne => ?_⟩
  · rw [hdepth', hdepth, loops_append]
    push_cast
    omega
  · rcases hqueue' hne with hne' | hle
    · rcases hqueue hne' with hne'' | hle
      · exact .inl hne''
      · exact .inr (by omega)
    · exact .inr hle

theorem of_eq (hstack : c'.stack = c.stack) (hdepth : c'.depth = c.depth)
    (hqueue : c'.deferredCallbacks = c.deferredCallbacks) : Grows c c' :=
  ⟨[], hstack, by simp [hdepth], fun hne => .inl (by rwa [hqueue] at hne)⟩

theorem of_push (frames : List (Frame U)) (hloops : loops frames = 0)
    (hstack : c'.stack = frames ++ c.stack) (hdepth : c'.depth = c.depth)
    (hqueue : c'.deferredCallbacks = c.deferredCallbacks) : Grows c c' :=
  ⟨frames, hstack, by simp [hloops, hdepth], fun hne => .inl (by rwa [hqueue] at hne)⟩

end Grows

/-! ## The functions of the library -/

section Functions

variable (c : Config U)

theorem grows_runCallbacksOrDeferThem {d : Deferral} (hd : 1 ≤ d.maximumCallbackNestingDepth)
    (p : Pid) (callbacks : Callbacks U) (r : Result U) :
    Grows c (runCallbacksOrDeferThem c d p callbacks r) := by
  unfold runCallbacksOrDeferThem
  split
  · rename_i hdefer
    simp only [Bool.and_eq_true, decide_eq_true_eq] at hdefer
    exact ⟨[], rfl, by simp [Config.ret], fun _ => .inr (Int.le_trans hd hdefer.2)⟩
  · exact ⟨[.runCallbacks p callbacks r, .leaveResolutionLoop c.storage], rfl, rfl,
      fun hne => .inl hne⟩

theorem grows_resolve {d : Deferral} (hd : 1 ≤ d.maximumCallbackNestingDepth) (p : Pid)
    (r : Result U) : Grows c (resolve c d p r) := by
  unfold resolve
  split
  · exact Grows.trans (.of_eq rfl rfl rfl) (grows_runCallbacksOrDeferThem _ hd _ _ _)
  · exact .of_eq rfl rfl rfl

theorem one_le_immediately : 1 ≤ Deferral.immediately.maximumCallbackNestingDepth := by decide

theorem grows_resolveUnderlying (p : Pid) (r : Result U) : Grows c (resolveUnderlying c p r) :=
  Grows.trans (.of_eq rfl rfl rfl) (grows_resolve _ one_le_immediately _ _)

theorem grows_makeIntoProxy (outer q : Pid) : Grows c (makeIntoProxy c outer q) := by
  unfold makeIntoProxy
  dsimp only
  split
  · exact .of_eq rfl rfl rfl
  · split
    · exact Grows.trans (.of_eq rfl rfl rfl) (grows_resolve _ one_le_immediately _ _)
    · split
      · exact .of_eq rfl rfl rfl
      · exact .of_eq rfl rfl rfl
    · exact .of_eq rfl rfl rfl

theorem grows_runCompose (target : Pid) (storage : Storage U) (r : Result U) (k : Compose U) :
    Grows c (runCompose c target storage r k) := by
  cases k with
  | pass => exact grows_resolveUnderlying c target r
  | proxy f => exact .of_push [.guardFail, .proxyInto target] rfl rfl rfl rfl
  | map f => exact .of_push [.resolveWith target] rfl rfl rfl rfl

theorem grows_runObserve (storage : Storage U) (r : Result U) (k : Observe U) :
    Grows c (runObserve c storage r k) := by
  cases k with
  | hooked f => exact .of_push [.hooked] rfl rfl rfl rfl
  | hookedUnit f => exact .of_push [.hooked] rfl rfl rfl rfl
  | _ => exact .of_eq rfl rfl rfl

theorem grows_runJoin (j : ℕ) (r : Result U) : Grows c (runJoin c j r) := by
  unfold runJoin
  split
  · exact .of_eq rfl rfl rfl
  · dsimp only
    split
    · exact Grows.trans (.of_eq rfl rfl rfl) (grows_resolveUnderlying _ _ _)
    · exact .of_eq rfl rfl rfl

theorem grows_runCallback (r : Result U) (callback : Callback U) :
    Grows c (runCallback c r callback) := by
  cases callback with
  | compose target storage onFulfilled onRejected =>
    cases r with
    | fulfilled v => exact grows_runCompose c _ _ _ _
    | rejected e => exact grows_runCompose c _ _ _ _
  | observe storage onFulfilled onRejected =>
    cases r with
    | fulfilled v => exact grows_runObserve c _ _ _
    | rejected e => exact grows_runObserve c _ _ _
  | join j => exact grows_runJoin c j r

theorem grows_runImmediate (given u : Pid) (r : Result U) (k : Immediate U) :
    Grows c (runImmediate c given u r k) := by
  cases k with
  | map f => exact .of_push [.allocWith] rfl rfl rfl rfl
  | observe k =>
    cases k with
    | hooked f => exact .of_push [.hooked] rfl rfl rfl rfl
    | hookedUnit f => exact .of_push [.hooked] rfl rfl rfl rfl
    | _ => exact .of_eq rfl rfl rfl
  | reraise =>
    cases r with
    | fulfilled v => exact .of_eq rfl rfl rfl
    | rejected e => exact .of_eq rfl rfl rfl
  | _ => exact .of_eq rfl rfl rfl

theorem grows_attachTo (k : Combinator U) (p : Pid) : Grows c (attachTo c k p) := by
  unfold attachTo
  dsimp only
  split
  · exact Grows.trans (.of_eq rfl rfl rfl) (grows_runImmediate _ _ _ _ _)
  · exact Grows.trans (.of_eq rfl rfl rfl) (grows_runImmediate _ _ _ _ _)
  · split
    · exact .of_eq rfl rfl rfl
    · exact .of_eq rfl rfl rfl
  · exact .of_eq rfl rfl rfl

theorem grows_cancel (p : Pid) : Grows c (cancel c p) :=
  .of_push [.propagateCancel [p] []] rfl rfl rfl rfl

theorem grows_cancelAndCollectCallbacks (p : Pid) (todo : List Pid)
    (collected : List (Pid × Callbacks U)) :
    Grows c (cancelAndCollectCallbacks c p todo collected) := by
  unfold cancelAndCollectCallbacks
  dsimp only
  split
  · split
    · exact .of_push [.propagateCancel todo collected] rfl rfl rfl rfl
    · exact .of_push [.propagateCancel todo _] rfl rfl rfl rfl
    · exact .of_push [.propagateCancel (_ :: todo) collected] rfl rfl rfl rfl
    · exact .of_push [.propagateCancel (_ ++ todo) collected] rfl rfl rfl rfl
  · exact .of_push [.propagateCancel todo collected] rfl rfl rfl rfl

theorem grows_nthResolvedAndCancelPending (ps : List Pid) (n : ℕ) :
    Grows c (nthResolvedAndCancelPending c ps n) := by
  induction ps generalizing c n with
  | nil => exact .of_eq rfl rfl rfl
  | cons p ps ih =>
    rw [nthResolvedAndCancelPending.eq_def]
    dsimp only
    split
    · split
      · exact .of_push [.iterCancel ps, .returnPromise p] rfl rfl rfl rfl
      · exact Grows.trans (.of_eq rfl rfl rfl) (ih _ _)
    · exact .of_push [.propagateCancel [p] [], .nthResolvedAndCancelPending ps n] rfl rfl rfl rfl

theorem grows_runCellBody (cell : Cell) (r : Result U) : Grows c (runCellBody c cell r) := by
  unfold runCellBody
  dsimp only
  split
  · exact grows_resolveUnderlying c _ _
  · exact grows_resolveUnderlying c _ _
  · exact .of_push [.iterCancel _, .resolveUnderlying _ _] rfl rfl rfl rfl
  · exact Grows.trans (.of_eq rfl rfl rfl) (grows_resolveUnderlying _ _ _)
  · exact .of_push [.iterCancel _, .resolveExact _ _] rfl rfl rfl rfl
  · exact Grows.trans (.of_eq rfl rfl rfl) (grows_resolveUnderlying _ _ _)

theorem grows_attachCell (kind : CellKind) (how : HowToCancel) (ps : List Pid) :
    Grows c (attachCell c kind how ps) := by
  unfold attachCell
  dsimp only
  split
  · exact .of_eq rfl rfl rfl
  · exact .of_eq rfl rfl rfl

theorem grows_nth (ps : List Pid) (n : ℕ) :
    Grows c
      (match nthResolved c.heap ps n with
        | some p => c.ret (.promise p)
        | none => c.raise .assertFailure) := by
  split
  · exact .of_eq rfl rfl rfl
  · exact .of_eq rfl rfl rfl

theorem grows_choose (ps : List Pid) (random : ℕ) : Grows c (choose c ps random) := by
  unfold choose
  split
  · exact .of_eq rfl rfl rfl
  · have hfollow : Grows c (c.followAll ps) := .of_eq rfl rfl rfl
    dsimp only
    split
    · exact hfollow.trans (grows_attachCell _ _ _ _)
    · exact hfollow.trans (grows_nth _ _ _)
    · exact hfollow.trans (grows_nth _ _ _)
    · exact hfollow.trans (grows_nth _ _ _)

theorem grows_pick (ps : List Pid) (random : ℕ) : Grows c (pick c ps random) := by
  unfold pick
  split
  · exact .of_eq rfl rfl rfl
  · have hfollow : Grows c (c.followAll ps) := .of_eq rfl rfl rfl
    dsimp only
    split
    · exact hfollow.trans (grows_attachCell _ _ _ _)
    · exact hfollow.trans (grows_nthResolvedAndCancelPending _ _ _)
    · exact hfollow.trans (grows_nthResolvedAndCancelPending _ _ _)
    · exact .of_push [.iterCancel ps, .nthResolved _ _] rfl rfl rfl rfl

theorem grows_nchoose (ps : List Pid) : Grows c (nchoose c ps) := by
  unfold nchoose
  split
  · exact .of_eq rfl rfl rfl
  · have hfollow : Grows c (c.followAll ps) := .of_eq rfl rfl rfl
    dsimp only
    split
    · exact .of_eq rfl rfl rfl
    · exact hfollow.trans (grows_attachCell _ _ _ _)

theorem grows_npick (ps : List Pid) : Grows c (npick c ps) := by
  unfold npick
  split
  · exact .of_eq rfl rfl rfl
  · have hfollow : Grows c (c.followAll ps) := .of_eq rfl rfl rfl
    dsimp only
    split
    · exact .of_push [.iterCancel ps, .allocResult _] rfl rfl rfl rfl
    · exact hfollow.trans (grows_attachCell _ _ _ _)

theorem grows_nchooseSplit (ps : List Pid) : Grows c (nchooseSplit c ps) := by
  unfold nchooseSplit
  split
  · exact .of_eq rfl rfl rfl
  · have hfollow : Grows c (c.followAll ps) := .of_eq rfl rfl rfl
    dsimp only
    split
    · exact .of_eq rfl rfl rfl
    · exact hfollow.trans (grows_attachCell _ _ _ _)

theorem grows_attachCallbackOrNoteResult (j : ℕ) (p : Pid) :
    Grows c (attachCallbackOrNoteResult c j p) := by
  unfold attachCallbackOrNoteResult
  dsimp only
  split
  · exact .of_eq rfl rfl rfl
  · exact .of_eq rfl rfl rfl
  · exact .of_eq rfl rfl rfl

theorem grows_attachCallbackOrResolveImmediately (j : ℕ) (ps : List Pid) :
    Grows c (attachCallbackOrResolveImmediately c j ps) := by
  induction ps generalizing c with
  | nil =>
    unfold attachCallbackOrResolveImmediately
    split
    · split
      · exact .of_eq rfl rfl rfl
      · exact .of_eq rfl rfl rfl
    · exact .of_eq rfl rfl rfl
  | cons p ps ih => exact (grows_attachCallbackOrNoteResult c j p).trans (ih _)

theorem grows_join (ps : List Pid) : Grows c (join c ps) :=
  Grows.trans (.of_eq rfl rfl rfl) (grows_attachCallbackOrResolveImmediately _ _ _)

theorem grows_protected (p : Pid) : Grows c (protected' c p) := by
  unfold protected'
  dsimp only
  split
  · have hfollow : Grows c (c.follow p) := .of_eq rfl rfl rfl
    exact (hfollow.trans (grows_attachCell _ _ _ _)).trans (.of_eq rfl rfl rfl)
  · exact .of_eq rfl rfl rfl

theorem grows_wakeupWith {d : Deferral} (hd : 1 ≤ d.maximumCallbackNestingDepth)
    (name : String) (p : Pid) (r : Result U) : Grows c (wakeupWith d c name p r) := by
  unfold wakeupWith
  dsimp only
  split
  · exact .of_eq rfl rfl rfl
  · exact .of_eq rfl rfl rfl
  · exact Grows.trans (.of_eq rfl rfl rfl) (grows_resolve _ hd _ _)

theorem grows_onCancel (p : Pid) (f : U) : Grows c (onCancel c p f) := by
  unfold onCancel
  dsimp only
  split
  · exact .of_push [.hooked] rfl rfl rfl rfl
  · exact .of_eq rfl rfl rfl
  · exact .of_eq rfl rfl rfl

theorem grows_pause : Grows c (pause c) := by
  unfold pause
  dsimp only
  split
  · exact .of_eq rfl rfl rfl
  · exact .of_push [.returnPromise _] rfl rfl rfl rfl

theorem grows_wakeupPaused : Grows c (wakeupPaused c) := by
  unfold wakeupPaused
  split
  · exact .of_eq rfl rfl rfl
  · exact .of_push [.wakeupEach _ _ _] rfl rfl rfl rfl

theorem grows_take (taken : Option (Pid × Sequences Pid)) : Grows c (take taken c) := by
  unfold take
  split
  · exact .of_eq rfl rfl rfl
  · exact .of_eq rfl rfl rfl

theorem grows_poll (p : Pid) : Grows c (poll c p) := by
  unfold poll
  split
  · exact .of_eq rfl rfl rfl
  · exact .of_eq rfl rfl rfl
  · exact .of_eq rfl rfl rfl

theorem grows_runCancelCallbacks (todo : List (CancelCallbackList U)) :
    Grows c (runCancelCallbacks c todo) := by
  unfold runCancelCallbacks
  split
  · exact .of_eq rfl rfl rfl
  · exact .of_push [.runCancelCallbacks _] rfl rfl rfl rfl
  · exact .of_push [.runCancelCallbacks _] rfl rfl rfl rfl
  · exact .of_push [.hooked, .runCancelCallbacks _] rfl rfl rfl rfl
  · exact .of_push [.runCancelCallbacks _] rfl rfl rfl rfl
  · exact .of_push [.runCancelCallbacks _] rfl rfl rfl rfl

theorem grows_runRegularCallbacks (r : Result U) (todo : List (RegularCallbackList U)) :
    Grows c (runRegularCallbacks c r todo) := by
  have hpush : ∀ rest, Grows c (c.push [.runRegularCallbacks rest r]) := fun rest =>
    .of_push [.runRegularCallbacks rest r] rfl rfl rfl rfl
  unfold runRegularCallbacks
  split
  · exact .of_eq rfl rfl rfl
  · exact .of_push [.runRegularCallbacks _ r] rfl rfl rfl rfl
  · exact .of_push [.runRegularCallbacks _ r] rfl rfl rfl rfl
  · rename_i node rest
    have hcalled : Grows c ((c.emit (.called node r)).push [.runRegularCallbacks rest r]) :=
      .of_push [.runRegularCallbacks rest r] rfl rfl rfl rfl
    exact hcalled.trans (grows_runCallback _ _ _)
  · dsimp only
    split
    · split
      · exact ((hpush _).trans (.of_eq rfl rfl rfl)).trans (grows_runCellBody _ _ _)
      · exact (hpush _).trans (.of_eq rfl rfl rfl)
    · exact (hpush _).trans (.of_eq rfl rfl rfl)

theorem grows_runCallbacks (p : Pid) (callbacks : Callbacks U) (r : Result U) :
    Grows c (runCallbacks c p callbacks r) := by
  unfold runCallbacks
  dsimp only
  split
  · exact .of_push [.runCancelCallbacks _, .runRegularCallbacks _ r] rfl rfl rfl rfl
  · exact .of_push [.runRegularCallbacks _ r] rfl rfl rfl rfl

theorem grows_wakeupEach (tmp curr : ℕ) (woken : Bool) :
    Grows c (wakeupEach c tmp curr woken) := by
  have hpush : ∀ curr' woken', Grows c (c.push [.wakeupEach tmp curr' woken']) :=
    fun curr' woken' => .of_push [.wakeupEach tmp curr' woken'] rfl rfl rfl rfl
  unfold wakeupEach
  split
  · exact (hpush _ _).trans (.of_eq rfl rfl rfl)
  · split
    · exact .of_eq rfl rfl rfl
    · split
      · exact (hpush _ _).trans (grows_wakeupWith _ one_le_immediately _ _ _)
      · exact (hpush _ _).trans (.of_eq rfl rfl rfl)

theorem grows_returnTo {c' : Config U} {v : Val U} {frame : Frame U}
    (hframe : frame.leaves = false) (hret : returnTo c v frame = some c') : Grows c c' := by
  cases frame with
  | leaveResolutionLoop => simp [Frame.leaves] at hframe
  | drain => simp [Frame.leaves] at hframe
  | attach k =>
    simp only [returnTo] at hret
    -- the function has returned a promise, to which the callback is attached
    split at hret
    · split at hret
      · cases hret
        exact grows_attachTo c _ _
      · simp at hret
    · simp at hret
  | proxyInto target =>
    simp only [returnTo] at hret
    split at hret
    · split at hret
      · cases hret
        exact Grows.trans (.of_eq rfl rfl rfl) (grows_makeIntoProxy _ _ _)
      · simp at hret
    · simp at hret
  | propagateCancel todo collected =>
    cases todo with
    | nil =>
      cases hret
      exact .of_push [.runRecords collected] rfl rfl rfl rfl
    | cons p todo =>
      cases hret
      exact grows_cancelAndCollectCallbacks c _ _ _
  | runRecords records =>
    cases records with
    | nil =>
      cases hret
      exact .of_eq rfl rfl rfl
    | cons entry rest =>
      cases hret
      -- the rest of the records waits in a frame of its own
      have hpush : Grows c (c.push [.runRecords rest]) :=
        .of_push [.runRecords rest] rfl rfl rfl rfl
      exact hpush.trans (grows_runCallbacksOrDeferThem _ one_le_immediately _ _ _)
  | iterCancel ps =>
    cases ps with
    | nil =>
      cases hret
      exact .of_eq rfl rfl rfl
    | cons p ps =>
      cases hret
      exact .of_push [.propagateCancel [p] [], .iterCancel ps] rfl rfl rfl rfl
  | nthResolved ps n =>
    simp only [returnTo] at hret
    split at hret
    · cases hret
      exact .of_eq rfl rfl rfl
    · cases hret
      exact .of_eq rfl rfl rfl
  | runCallbacks p callbacks r =>
    cases hret
    exact grows_runCallbacks c _ _ _
  | runCancelCallbacks todo =>
    cases hret
    exact grows_runCancelCallbacks c _
  | runRegularCallbacks todo r =>
    cases hret
    exact grows_runRegularCallbacks c _ _
  | resolveWith target =>
    cases hret
    exact grows_resolveUnderlying c _ _
  | resolveUnderlying target r =>
    cases hret
    exact grows_resolveUnderlying c _ _
  | resolveExact p r =>
    cases hret
    exact grows_resolve c one_le_immediately _ _
  | nthResolvedAndCancelPending ps n =>
    cases hret
    exact grows_nthResolvedAndCancelPending c _ _
  | wakeupEach tmp curr woken =>
    cases hret
    exact grows_wakeupEach c _ _ _
  | _ =>
    cases hret
    exact .of_eq rfl rfl rfl

theorem grows_raiseTo (e : Exn U) (frame : Frame U) : Grows c (raiseTo c e frame) := by
  unfold raiseTo
  split
  · exact .of_eq rfl rfl rfl
  · split
    · exact .of_eq rfl rfl rfl
    · exact .of_eq rfl rfl rfl
  · split
    · exact .of_eq rfl rfl rfl
    · exact .of_eq rfl rfl rfl
  · split
    · exact grows_resolveUnderlying c _ _
    · exact .of_eq rfl rfl rfl
  · split
    · exact .of_eq rfl rfl rfl
    · exact .of_eq rfl rfl rfl
  · split
    · exact .of_eq rfl rfl rfl
    · exact .of_eq rfl rfl rfl
  · exact .of_eq rfl rfl rfl

theorem grows_execute {o : Op U} (ho : o ≠ .abandonWakeups) : Grows c (execute c o) := by
  cases o with
  | abandonWakeups => exact absurd rfl ho
  | attach k p => exact grows_attachTo c k p
  | tryAttach f k => exact .of_push [.guardFail, .attach k] rfl rfl rfl rfl
  | onCancel p f => exact grows_onCancel c p f
  | protected' p => exact grows_protected c p
  | join ps => exact grows_join c ps
  | choose ps random => exact grows_choose c ps random
  | pick ps random => exact grows_pick c ps random
  | nchoose ps => exact grows_nchoose c ps
  | npick ps => exact grows_npick c ps
  | nchooseSplit ps => exact grows_nchooseSplit c ps
  | cancel p => exact grows_cancel c p
  | wakeupGeneral name p r => exact grows_wakeupWith c one_le_immediately _ _ _
  | wakeupLaterGeneral name p r => exact grows_wakeupWith c (by simp) _ _ _
  | poll p => exact grows_poll c p
  | pause => exact grows_pause c
  | wakeupPaused => exact grows_wakeupPaused c
  | withValue key value f => exact .of_push [.withValue c.storage] rfl rfl rfl rfl
  | takeL seq => exact grows_take c _
  | takeR seq => exact grows_take c _
  | _ => exact .of_eq rfl rfl rfl

end Functions

/-! ## Steps -/

variable {c c' : Config U} {a : Label U}

/-- What a step is: a move of the user, or a value or an exception that reaches the top
frame. -/
theorem step_cases (hstep : step c a = some c') :
    (∃ s m, c.control = .user s ∧ a = .move m ∧ userStep c m = some c') ∨
    (∃ v frame stack, c.control = .ret v ∧ c.stack = frame :: stack ∧ a = .tau ∧
      returnTo { c with stack := stack } v frame = some c') ∨
    ∃ e frame stack, c.control = .exn e ∧ c.stack = frame :: stack ∧ a = .tau ∧
      c' = raiseTo { c with stack := stack } e frame := by
  unfold step at hstep
  split at hstep
  · rename_i s m hcontrol
    exact .inl ⟨s, m, hcontrol, rfl, hstep⟩
  · rename_i v hcontrol
    split at hstep
    · simp at hstep
    · rename_i frame stack hstack
      exact .inr (.inl ⟨v, frame, stack, hcontrol, hstack, rfl, hstep⟩)
  · rename_i e hcontrol
    split at hstep
    · simp at hstep
    · rename_i frame stack hstack
      exact .inr (.inr ⟨e, frame, stack, hcontrol, hstack, rfl, (Option.some.inj hstep).symm⟩)
  · simp at hstep

theorem control_ne_crash_of_step (hstep : step c a = some c') : c.control ≠ .crash := by
  intro hcrash
  simp [step, hcrash] at hstep

theorem step_move {m : Move U} (hstep : step c (.move m) = some c') :
    (∃ s, c.control = .user s) ∧ userStep c m = some c' := by
  rcases step_cases hstep with ⟨s, m', hcontrol, hm, huser⟩ | ⟨_, _, _, _, _, hm, _⟩ |
    ⟨_, _, _, _, _, hm, _⟩
  · obtain rfl : m = m' := by simpa using hm
    exact ⟨⟨s, hcontrol⟩, huser⟩
  · simp at hm
  · simp at hm

theorem userStep_call {o : Op U} {u : U} (hcall : userStep c (.call o u) = some c') :
    o.valid c = true ∧ c' = execute (c.push [.user u]) o := by
  simp only [userStep] at hcall
  split at hcall
  · rename_i hvalid
    exact ⟨hvalid, (Option.some.inj hcall).symm⟩
  · simp at hcall

theorem step_top {frame : Frame U} {stack : List (Frame U)} (hstack : c.stack = frame :: stack)
    (hstep : step c a = some c') :
    (∃ s m, c.control = .user s ∧ a = .move m ∧ userStep c m = some c') ∨
    (∃ v, c.control = .ret v ∧ returnTo { c with stack := stack } v frame = some c') ∨
    ∃ e, c.control = .exn e ∧ c' = raiseTo { c with stack := stack } e frame := by
  rcases step_cases hstep with hmove | ⟨v, frame', stack', hcontrol, hstack', -, hret⟩ |
    ⟨e, frame', stack', hcontrol, hstack', -, hraise⟩
  · exact .inl hmove
  · obtain ⟨rfl, rfl⟩ : frame' = frame ∧ stack' = stack := by simpa using hstack'.symm.trans hstack
    exact .inr (.inl ⟨v, hcontrol, hret⟩)
  · obtain ⟨rfl, rfl⟩ : frame' = frame ∧ stack' = stack := by simpa using hstack'.symm.trans hstack
    exact .inr (.inr ⟨e, hcontrol, hraise⟩)

theorem returnTo_of_step {v : Val U} {frame : Frame U} {stack : List (Frame U)}
    (hcontrol : c.control = .ret v) (hstack : c.stack = frame :: stack)
    (hstep : step c a = some c') : returnTo { c with stack := stack } v frame = some c' := by
  rcases step_top hstack hstep with ⟨s, m, hcontrol', -⟩ | ⟨v', hcontrol', hret⟩ | ⟨e, hcontrol', -⟩
  · simp [hcontrol] at hcontrol'
  · obtain rfl : v = v' := by simpa [hcontrol] using hcontrol'
    exact hret
  · simp [hcontrol] at hcontrol'

theorem raiseTo_of_step {e : Exn U} {frame : Frame U} {stack : List (Frame U)}
    (hcontrol : c.control = .exn e) (hstack : c.stack = frame :: stack)
    (hstep : step c a = some c') : c' = raiseTo { c with stack := stack } e frame := by
  rcases step_top hstack hstep with ⟨s, m, hcontrol', -⟩ | ⟨v, hcontrol', -⟩ | ⟨e',
    hcontrol', hraise⟩
  · simp [hcontrol] at hcontrol'
  · simp [hcontrol] at hcontrol'
  · obtain rfl : e = e' := by simpa [hcontrol] using hcontrol'
    exact hraise

theorem grows_userStep {m : Move U} (hm : (Label.move m).abandons = false)
    (hstep : userStep c m = some c') : Grows c c' := by
  cases m with
  | call o u =>
    simp only [userStep] at hstep
    split at hstep
    · cases hstep
      have hpush : Grows c (c.push [.user u]) := .of_push [.user u] rfl rfl rfl rfl
      refine hpush.trans (grows_execute _ ?_)
      rintro rfl
      simp [Label.abandons] at hm
    · simp at hstep
  | apply f argument u =>
    cases hstep
    exact .of_push [.user u] rfl rfl rfl rfl
  | ret v =>
    simp only [userStep] at hstep
    split at hstep
    · simp at hstep
    · split at hstep
      · cases hstep
        exact .of_eq rfl rfl rfl
      · simp at hstep
  | raise e =>
    simp only [userStep] at hstep
    split at hstep
    · simp at hstep
    · cases hstep
      exact .of_eq rfl rfl rfl

theorem eq_abandonWakeups {m : Move U} (hm : (Label.move m).abandons = true) :
    ∃ u, m = .call .abandonWakeups u := by
  unfold Label.abandons at hm
  split at hm
  · rename_i u heq
    exact ⟨u, by simpa using heq⟩
  · simp at hm

theorem userStep_abandonWakeups {u : U} (hstep : userStep c (.call .abandonWakeups u) = some c') :
    c'.depth = c.depth ∧ c'.deferredCallbacks = c.deferredCallbacks ∧
      ∃ frames, c'.stack = frames ++ c.stack ∧ loops c'.stack = loops c.stack + loops frames := by
  simp only [userStep] at hstep
  split at hstep
  · cases hstep
    simp only [execute]
    split
    · exact ⟨rfl, rfl, [.leaveResolutionLoop [], .user u], rfl, by
        simp [Config.push, Config.ret, loops_cons, Frame.leaves]⟩
    · exact ⟨rfl, rfl, [.user u], rfl, by simp [Config.push, Config.ret, loops_cons, Frame.leaves]⟩
  · simp at hstep

/-- The depth, less the number of loops under way. -/
def Config.balance (c : Config U) : ℤ := c.depth - loops c.stack

/-- Callbacks are deferred only inside of a loop. -/
def Config.DefersInLoop (c : Config U) : Prop := c.deferredCallbacks ≠ [] → 1 ≤ c.depth

theorem Grows.balance (h : Grows c c') : c'.balance = c.balance := by
  obtain ⟨frames, hstack, hdepth, -⟩ := h
  rw [Config.balance, Config.balance, hstack, hdepth, loops_append]
  push_cast
  omega

theorem Grows.defersInLoop (h : Grows c c') (hc : c.DefersInLoop) : c'.DefersInLoop := by
  obtain ⟨frames, hstack, hdepth, hqueue⟩ := h
  intro hne
  rcases hqueue hne with hne' | hle
  · have hle := hc hne'
    omega
  · exact hle

theorem balance_pop {frame : Frame U} {stack : List (Frame U)} (hstack : c.stack = frame :: stack)
    (hframe : frame.leaves = false) : Config.balance { c with stack := stack } = c.balance := by
  simp [Config.balance, hstack, loops_cons, hframe]

theorem returnTo_leaves {v : Val U} {frame : Frame U} {stack : List (Frame U)}
    (hstack : c.stack = frame :: stack) (hframe : frame.leaves = true)
    (hret : returnTo { c with stack := stack } v frame = some c') :
    (∃ frames, c'.stack = frames ++ stack) ∧ c'.balance = c.balance ∧
      (c.DefersInLoop → c'.DefersInLoop) := by
  cases frame with
  | leaveResolutionLoop snapshot =>
    simp only [returnTo] at hret
    split at hret
    · cases hret
      refine ⟨⟨[.drain snapshot], rfl⟩, ?_, fun hc => hc⟩
      simp [Config.balance, Config.push, Config.ret, hstack, loops_cons, Frame.leaves]
    · rename_i hdepth
      cases hret
      refine ⟨⟨[], rfl⟩, ?_, fun hc hne => ?_⟩
      · simp only [Config.balance, Config.ret, hstack, loops_cons, Frame.leaves, if_true]
        push_cast
        omega
      · have hle : 1 ≤ c.depth := hc hne
        have hne' : c.depth ≠ 1 := hdepth
        simp only [Config.ret]
        omega
  | drain snapshot =>
    simp only [returnTo] at hret
    split at hret
    · rename_i hqueue
      cases hret
      refine ⟨⟨[], rfl⟩, ?_, fun _ hne => absurd hqueue hne⟩
      simp only [Config.balance, Config.ret, hstack, loops_cons, Frame.leaves, if_true]
      push_cast
      omega
    · rename_i p callbacks r rest hqueue
      cases hret
      refine ⟨⟨[.runCallbacks p callbacks r, .drain snapshot], rfl⟩, ?_, fun hc _ => hc ?_⟩
      · simp [Config.balance, Config.push, Config.ret, hstack, loops_cons, Frame.leaves]
      · have hqueue' : c.deferredCallbacks = (p, callbacks, r) :: rest := hqueue
        simp [hqueue']
  | _ => simp [Frame.leaves] at hframe

theorem leaves_of_quiet {e : Exn U} {frame : Frame U} {stack : List (Frame U)}
    (hcontrol : c.control = .exn e) (hstack : c.stack = frame :: stack) (hquiet : c.quiet = true) :
    frame.leaves = false := by
  simp only [Config.quiet, hcontrol, hstack] at hquiet
  cases frame <;> simp_all [Frame.leaves, Frame.breaks]

theorem step_defersInLoop (hstep : step c a = some c') (hc : c.DefersInLoop) :
    c'.DefersInLoop := by
  rcases step_cases hstep with ⟨s, m, hcontrol, rfl, huser⟩ |
    ⟨v, frame, stack, hcontrol, hstack, rfl, hret⟩ | ⟨e, frame, stack, hcontrol, hstack, rfl, rfl⟩
  · by_cases hm : (Label.move m).abandons = true
    · obtain ⟨u, rfl⟩ := eq_abandonWakeups hm
      obtain ⟨hdepth, hqueue, -⟩ := userStep_abandonWakeups huser
      rw [Config.DefersInLoop, hdepth, hqueue]
      exact hc
    · exact (grows_userStep (by simpa using hm) huser).defersInLoop hc
  · by_cases hframe : frame.leaves = true
    · exact (returnTo_leaves hstack hframe hret).2.2 hc
    · exact (grows_returnTo _ (by simpa using hframe) hret).defersInLoop hc
  · exact (grows_raiseTo { c with stack := stack } e frame).defersInLoop hc

/-- In a quiet step the depth and the number of loops under way move together, but for
`abandon_wakeups`. -/
theorem step_balance (hquiet : c.quiet = true) (hstep : step c a = some c') :
    c'.balance ≤ c.balance ∧ (a.abandons = false → c'.balance = c.balance) := by
  rcases step_cases hstep with ⟨s, m, hcontrol, rfl, huser⟩ |
    ⟨v, frame, stack, hcontrol, hstack, rfl, hret⟩ | ⟨e, frame, stack, hcontrol, hstack, rfl, rfl⟩
  · by_cases hm : (Label.move m).abandons = true
    · obtain ⟨u, rfl⟩ := eq_abandonWakeups hm
      obtain ⟨hdepth, -, frames, -, hloops⟩ := userStep_abandonWakeups huser
      refine ⟨?_, fun h => absurd (hm.symm.trans h) (by simp)⟩
      rw [Config.balance, Config.balance, hdepth, hloops]
      push_cast
      omega
    · have h := grows_userStep (by simpa using hm) huser
      exact ⟨h.balance.le, fun _ => h.balance⟩
  · by_cases hframe : frame.leaves = true
    · obtain ⟨-, hbalance, -⟩ := returnTo_leaves hstack hframe hret
      exact ⟨hbalance.le, fun _ => hbalance⟩
    · have hframe' : frame.leaves = false := by simpa using hframe
      have hpop := (grows_returnTo _ hframe' hret).balance.trans (balance_pop hstack hframe')
      exact ⟨hpop.le, fun _ => hpop⟩
  · have hframe := leaves_of_quiet hcontrol hstack hquiet
    have h := grows_raiseTo { c with stack := stack } e frame
    have hpop := h.balance.trans (balance_pop hstack hframe)
    exact ⟨hpop.le, fun _ => hpop⟩

theorem reach_defersInLoop {ok : Config U → Label U → Prop} {main hook : U}
    (hreach : Reach step ok (initial main hook) c) : c.DefersInLoop :=
  hreach.invariant (fun hne => absurd rfl hne) fun _ _ _ hc _ hstep => step_defersInLoop hstep hc

theorem reach_balance {ok : Config U → Label U → Prop} {main hook : U}
    (hok : ∀ c a, ok c a → c.quiet = true) (hreach : Reach step ok (initial main hook) c) :
    c.balance ≤ 0 := by
  refine hreach.invariant (P := fun c => c.balance ≤ 0) (le_refl _) ?_
  intro c a c' hc hokc hstep
  exact (step_balance (hok c a hokc) hstep).1.trans hc

end Lwt
