import Lwt.Promise.Loop
import Lwt.Promise.Script

/-!
# Every call gives the storage back

The storage is one global variable that callbacks overwrite and that nobody restores between
two of them.  What restores it are the frames of the functions that took a snapshot: those
that leave a loop, and that of `with_value`.  `Aligned` reads this off the stack: going down
from the current storage, each frame hands a storage to the one below it, and the user code
of a frame gets back the storage that it had when it made its call.  Callbacks are called
only above a frame that restores, so it does not matter what they leave behind.

`Works` says how a library function goes on by itself, and `Layers` which frames it puts on
the stack.  `Aligned.step` follows from one lemma for each function, and
`call_restores_storage` from it by induction.
-/

namespace Lwt

open Transition

variable {U : Type} {c c' : Config U} {a : Label U} {storage : Storage U}

/-! ## Frames -/

/-- The storage that the frame is going to restore. -/
def Frame.restores : Frame U → Option (Storage U)
  | .leaveResolutionLoop snapshot | .drain snapshot => some snapshot
  | .withValue savedStorage => some savedStorage
  | _ => none

/-- The frame is going to call callbacks. -/
def Frame.callsBack : Frame U → Bool
  | .runCallbacks _ _ _ | .runCancelCallbacks _ | .runRegularCallbacks _ _ => true
  | _ => false

/-- The frame hands on the storage that it finds. -/
def Frame.passes : Frame U → Bool
  | .user _ => false
  | frame => frame.restores.isNone && !frame.callsBack

/-- The frame belongs to a function that goes on in the storage of the user function that it
has called: to attach a callback, or to call the hook. -/
def Frame.direct : Frame U → Bool
  | .guardFail | .attach _ | .hooked => true
  | _ => false

/-- The stack does not start with such a frame. -/
def Bare (stack : List (Frame U)) : Prop := ∀ frame ∈ stack.head?, frame.direct = false

/-- Only `try` around a user function lies on top of such a frame. -/
def Frame.MayCover (frame : Frame U) (stack : List (Frame U)) : Prop :=
  frame = .guardFail ∨ Bare stack

@[simp] theorem bare_nil : Bare ([] : List (Frame U)) := by simp [Bare]

@[simp] theorem bare_cons {frame : Frame U} {stack : List (Frame U)} :
    Bare (frame :: stack) ↔ frame.direct = false := by
  simp [Bare]

theorem Bare.append {frames stack : List (Frame U)} (hframes : Bare frames) (hstack : Bare stack) :
    Bare (frames ++ stack) := by
  cases frames with
  | nil => exact hstack
  | cons frame frames => simpa using hframes

theorem Frame.MayCover.append {frame : Frame U} {frames stack : List (Frame U)}
    (hframe : frame.MayCover frames) (hstack : Bare stack) : frame.MayCover (frames ++ stack) :=
  hframe.imp_right fun hbare => hbare.append hstack

/-! ## Layers -/

variable (storage) in
/-- Frames that a function puts on the stack while the storage is current: they hand it on,
or belong to a loop that was entered with it. -/
inductive Layers : List (Frame U) → Prop
  | nil : Layers []
  | keep {frame : Frame U} {frames : List (Frame U)} : frame.passes = true →
      frame.MayCover frames → Layers frames → Layers (frame :: frames)
  | loop {p : Pid} {callbacks : Callbacks U} {r : Result U} {frames : List (Frame U)} :
      Bare frames → Layers frames →
      Layers (.runCallbacks p callbacks r :: .leaveResolutionLoop storage :: frames)

theorem Layers.append {frames below : List (Frame U)} (h : Layers storage frames)
    (hbelow : Layers storage below) (hbare : Bare below) : Layers storage (frames ++ below) := by
  induction h with
  | nil => exact hbelow
  | keep hpasses hcover _ ih => exact .keep hpasses (hcover.append hbare) ih
  | loop hframes _ ih => exact .loop (hframes.append hbare) ih

/-- The frames are of functions that call no user function. -/
def Frame.steady (frame : Frame U) : Bool := frame.passes && !frame.direct

theorem bare_of_steady {frames : List (Frame U)} (h : frames.all Frame.steady = true) :
    Bare frames := by
  intro frame hmem
  have hframe := List.all_eq_true.mp h frame (List.mem_of_mem_head? hmem)
  simp only [Frame.steady, Bool.and_eq_true, Bool.not_eq_true'] at hframe
  exact hframe.2

theorem Layers.of_steady {frames : List (Frame U)} (h : frames.all Frame.steady = true) :
    Layers storage frames := by
  induction frames with
  | nil => exact .nil
  | cons frame frames ih =>
    simp only [List.all_cons, Bool.and_eq_true] at h
    have hframe := h.1
    simp only [Frame.steady, Bool.and_eq_true] at hframe
    exact .keep hframe.1 (.inr (bare_of_steady h.2)) (ih h.2)

theorem layers_guardFail {frame : Frame U} (hframe : frame.passes = true) :
    Layers storage [.guardFail, frame] :=
  .keep rfl (.inl rfl) (.keep hframe (.inr bare_nil) .nil)

theorem layers_singleton {frame : Frame U} (hframe : frame.passes = true) :
    Layers storage [frame] :=
  .keep hframe (.inr bare_nil) .nil

/-- A function that keeps the storage, and may have called a user function. -/
structure Lays (c c' : Config U) : Prop where
  storage : c'.storage = c.storage
  stack : ∃ frames, c'.stack = frames ++ c.stack ∧ Layers c.storage frames

/-- A function that keeps the storage, calls no user function and attaches nothing. -/
structure Works (c c' : Config U) : Prop where
  control : ∀ s, c'.control ≠ .user s
  storage : c'.storage = c.storage
  nextNode : c'.nextNode = c.nextNode
  stack : ∃ frames, c'.stack = frames ++ c.stack ∧ Layers c.storage frames ∧ Bare frames

theorem Lays.of_push (frames : List (Frame U)) (hframes : Layers c.storage frames)
    (hstack : c'.stack = frames ++ c.stack) (hstorage : c'.storage = c.storage) : Lays c c' :=
  ⟨hstorage, frames, hstack, hframes⟩

namespace Works

theorem of_eq (hcontrol : ∀ s, c'.control ≠ .user s) (hstack : c'.stack = c.stack)
    (hstorage : c'.storage = c.storage) (hnext : c'.nextNode = c.nextNode) : Works c c' :=
  ⟨hcontrol, hstorage, hnext, [], hstack, .nil, bare_nil⟩

theorem of_push (frames : List (Frame U)) (hframes : frames.all Frame.steady = true)
    (hcontrol : ∀ s, c'.control ≠ .user s) (hstack : c'.stack = frames ++ c.stack)
    (hstorage : c'.storage = c.storage) (hnext : c'.nextNode = c.nextNode) : Works c c' :=
  ⟨hcontrol, hstorage, hnext, frames, hstack, .of_steady hframes, bare_of_steady hframes⟩

theorem on {c₁ : Config U} (h : Works c₁ c') (below : List (Frame U))
    (hbelow : below.all Frame.steady = true) (hstack : c₁.stack = below ++ c.stack)
    (hstorage : c₁.storage = c.storage) (hnext : c₁.nextNode = c.nextNode) : Works c c' := by
  obtain ⟨hcontrol, hstorage', hnext', frames, hstack', hlayers, hbare⟩ := h
  have hbare' := bare_of_steady hbelow
  refine ⟨hcontrol, hstorage'.trans hstorage, hnext'.trans hnext, frames ++ below, ?_,
    (hstorage ▸ hlayers).append (.of_steady hbelow) hbare', hbare.append hbare'⟩
  rw [hstack', hstack, List.append_assoc]

theorem lays (h : Works c c') : Lays c c' := by
  obtain ⟨frames, hstack, hlayers, -⟩ := h.stack
  exact ⟨h.storage, frames, hstack, hlayers⟩

end Works

/-! ## Functions that go on by themselves -/

section Functions

variable (c)

theorem works_runCallbacksOrDeferThem (d : Deferral) (p : Pid) (callbacks : Callbacks U)
    (r : Result U) : Works c (runCallbacksOrDeferThem c d p callbacks r) := by
  unfold runCallbacksOrDeferThem
  split
  · exact .of_eq (by simp [Config.ret]) rfl rfl rfl
  · exact ⟨by simp [Config.ret], rfl, rfl,
      [.runCallbacks p callbacks r, .leaveResolutionLoop c.storage], rfl, .loop bare_nil .nil,
      bare_cons.mpr rfl⟩

theorem works_resolve (d : Deferral) (p : Pid) (r : Result U) : Works c (resolve c d p r) := by
  unfold resolve
  split
  · exact (works_runCallbacksOrDeferThem _ d _ _ _).on [] rfl rfl rfl rfl
  · exact .of_eq (by simp) rfl rfl rfl

theorem works_resolveUnderlying (p : Pid) (r : Result U) :
    Works c (resolveUnderlying c p r) :=
  (works_resolve _ _ _ _).on [] rfl rfl rfl rfl

theorem works_makeIntoProxy (outer q : Pid) : Works c (makeIntoProxy c outer q) := by
  unfold makeIntoProxy
  dsimp only
  split
  · exact .of_eq (by simp [Config.ret]) rfl rfl rfl
  · split
    · exact (works_resolve _ _ _ _).on [] rfl rfl rfl rfl
    · split
      · exact .of_eq (by simp [Config.ret]) rfl rfl rfl
      · exact .of_eq (by simp) rfl rfl rfl
    · exact .of_eq (by simp) rfl rfl rfl

theorem works_runJoin (j : ℕ) (r : Result U) : Works c (runJoin c j r) := by
  unfold runJoin
  split
  · exact .of_eq (by simp [Config.ret]) rfl rfl rfl
  · dsimp only
    split
    · exact (works_resolveUnderlying _ _ _).on [] rfl rfl rfl rfl
    · exact .of_eq (by simp [Config.ret]) rfl rfl rfl

theorem works_cancel (p : Pid) : Works c (cancel c p) :=
  .of_push [.propagateCancel [p] []] rfl (by simp [cancel, Config.ret]) rfl rfl rfl

theorem works_cancelAndCollectCallbacks (p : Pid) (todo : List Pid)
    (collected : List (Pid × Callbacks U)) :
    Works c (cancelAndCollectCallbacks c p todo collected) := by
  unfold cancelAndCollectCallbacks
  dsimp only
  split
  · split
    · exact .of_push [.propagateCancel todo collected] rfl (by simp [Config.ret]) rfl rfl rfl
    · exact .of_push [.propagateCancel todo _] rfl (by simp [Config.ret]) rfl rfl rfl
    · exact .of_push [.propagateCancel (_ :: todo) collected] rfl (by simp [Config.ret]) rfl rfl rfl
    · exact .of_push [.propagateCancel (_ ++ todo) collected] rfl (by simp [Config.ret]) rfl rfl rfl
  · exact .of_push [.propagateCancel todo collected] rfl (by simp [Config.ret]) rfl rfl rfl

theorem works_nthResolvedAndCancelPending (ps : List Pid) (n : ℕ) :
    Works c (nthResolvedAndCancelPending c ps n) := by
  induction ps generalizing c n with
  | nil => exact .of_eq (by simp [nthResolvedAndCancelPending, Config.raise]) rfl rfl rfl
  | cons p ps ih =>
    rw [nthResolvedAndCancelPending.eq_def]
    dsimp only
    split
    · split
      · exact .of_push [.iterCancel ps, .returnPromise p] rfl (by simp [Config.ret]) rfl rfl rfl
      · exact (ih _ _).on [] rfl rfl rfl rfl
    · exact (works_cancel _ p).on [.nthResolvedAndCancelPending ps n] rfl rfl rfl rfl

theorem works_runCellBody (cell : Cell) (r : Result U) : Works c (runCellBody c cell r) := by
  unfold runCellBody
  dsimp only
  split
  · exact works_resolveUnderlying c _ _
  · exact works_resolveUnderlying c _ _
  · exact .of_push [.iterCancel _, .resolveUnderlying _ _] rfl (by simp [Config.ret]) rfl rfl rfl
  · exact (works_resolveUnderlying _ _ _).on [] rfl rfl rfl rfl
  · exact .of_push [.iterCancel _, .resolveExact _ _] rfl (by simp [Config.ret]) rfl rfl rfl
  · exact (works_resolveUnderlying _ _ _).on [] rfl rfl rfl rfl

theorem works_attachCell (kind : CellKind) (how : HowToCancel) (ps : List Pid) :
    Works c (attachCell c kind how ps) := by
  unfold attachCell
  dsimp only
  split
  · exact .of_eq (by simp [Config.ret]) rfl rfl rfl
  · exact .of_eq (by simp [Config.raise]) rfl rfl rfl

theorem works_nth (ps : List Pid) (n : ℕ) :
    Works c
      (match nthResolved c.heap ps n with
        | some p => c.ret (.promise p)
        | none => c.raise .assertFailure) := by
  split
  · exact .of_eq (by simp [Config.ret]) rfl rfl rfl
  · exact .of_eq (by simp [Config.raise]) rfl rfl rfl

theorem works_choose (ps : List Pid) (random : ℕ) : Works c (choose c ps random) := by
  unfold choose
  split
  · exact .of_eq (by simp [Config.raise]) rfl rfl rfl
  · dsimp only
    split
    · exact (works_attachCell _ _ _ _).on [] rfl rfl rfl rfl
    · exact (works_nth _ _ _).on [] rfl rfl rfl rfl
    · exact (works_nth _ _ _).on [] rfl rfl rfl rfl
    · exact (works_nth _ _ _).on [] rfl rfl rfl rfl

theorem works_pick (ps : List Pid) (random : ℕ) : Works c (pick c ps random) := by
  unfold pick
  split
  · exact .of_eq (by simp [Config.raise]) rfl rfl rfl
  · dsimp only
    split
    · exact (works_attachCell _ _ _ _).on [] rfl rfl rfl rfl
    · exact (works_nthResolvedAndCancelPending _ _ _).on [] rfl rfl rfl rfl
    · exact (works_nthResolvedAndCancelPending _ _ _).on [] rfl rfl rfl rfl
    · exact .of_push [.iterCancel ps, .nthResolved _ _] rfl (by simp [Config.ret]) rfl rfl rfl

theorem works_nchoose (ps : List Pid) : Works c (nchoose c ps) := by
  unfold nchoose
  split
  · exact .of_eq (by simp [Config.raise]) rfl rfl rfl
  · dsimp only
    split
    · exact .of_eq (by simp [Config.retNew, Config.ret]) rfl rfl rfl
    · exact (works_attachCell _ _ _ _).on [] rfl rfl rfl rfl

theorem works_npick (ps : List Pid) : Works c (npick c ps) := by
  unfold npick
  split
  · exact .of_eq (by simp [Config.raise]) rfl rfl rfl
  · dsimp only
    split
    · exact .of_push [.iterCancel ps, .allocResult _] rfl (by simp [Config.ret]) rfl rfl rfl
    · exact (works_attachCell _ _ _ _).on [] rfl rfl rfl rfl

theorem works_nchooseSplit (ps : List Pid) : Works c (nchooseSplit c ps) := by
  unfold nchooseSplit
  split
  · exact .of_eq (by simp [Config.raise]) rfl rfl rfl
  · dsimp only
    split
    · exact .of_eq (by simp [Config.retNew, Config.ret]) rfl rfl rfl
    · exact (works_attachCell _ _ _ _).on [] rfl rfl rfl rfl

theorem works_wakeupWith (d : Deferral) (name : String) (p : Pid) (r : Result U) :
    Works c (wakeupWith d c name p r) := by
  unfold wakeupWith
  dsimp only
  split
  · exact .of_eq (by simp [Config.ret]) rfl rfl rfl
  · exact .of_eq (by simp [Config.raise]) rfl rfl rfl
  · exact (works_resolve _ d _ _).on [] rfl rfl rfl rfl

theorem works_poll (p : Pid) : Works c (poll c p) := by
  unfold poll
  split
  · exact .of_eq (by simp [Config.ret]) rfl rfl rfl
  · exact .of_eq (by simp [Config.raise]) rfl rfl rfl
  · exact .of_eq (by simp [Config.ret]) rfl rfl rfl

theorem works_take (taken : Option (Pid × Sequences Pid)) : Works c (take taken c) := by
  unfold take
  split
  · exact .of_eq (by simp [Config.ret]) rfl rfl rfl
  · exact .of_eq (by simp [Config.raise]) rfl rfl rfl

theorem works_wakeupPaused : Works c (wakeupPaused c) := by
  unfold wakeupPaused
  split
  · exact .of_eq (by simp [Config.ret]) rfl rfl rfl
  · exact .of_push [.wakeupEach _ _ _] rfl (by simp [Config.ret]) rfl rfl rfl

theorem works_wakeupEach (tmp curr : ℕ) (woken : Bool) :
    Works c (wakeupEach c tmp curr woken) := by
  unfold wakeupEach
  split
  · exact .of_push [.wakeupEach _ _ _] rfl (by simp [Config.ret]) rfl rfl rfl
  · split
    · exact .of_eq (by simp [Config.ret]) rfl rfl rfl
    · split
      · exact (works_wakeupWith _ _ _ _ _).on [.wakeupEach tmp curr true] rfl rfl rfl rfl
      · exact .of_push [.wakeupEach _ _ _] rfl (by simp [Config.ret]) rfl rfl rfl

theorem works_returnTo {v : Val U} {frame : Frame U} (hframe : frame.steady = true)
    (hret : returnTo c v frame = some c') : Works c c' := by
  cases frame with
  | user | guardFail | attach | hooked | runCallbacks | runCancelCallbacks
  | runRegularCallbacks | leaveResolutionLoop | drain | withValue =>
    simp [Frame.steady, Frame.passes, Frame.restores, Frame.callsBack, Frame.direct] at hframe
  | proxyInto target =>
    simp only [returnTo] at hret
    split at hret
    · split at hret
      · cases hret
        exact (works_makeIntoProxy _ _ _).on [] rfl rfl rfl rfl
      · simp at hret
    · simp at hret
  | resolveWith target =>
    cases hret
    exact works_resolveUnderlying c _ _
  | allocWith =>
    cases hret
    exact .of_eq (by simp [Config.retNew, Config.ret]) rfl rfl rfl
  | propagateCancel todo collected =>
    cases todo with
    | nil =>
      cases hret
      exact .of_push [.runRecords collected] rfl (by simp [Config.ret]) rfl rfl rfl
    | cons p todo =>
      cases hret
      exact works_cancelAndCollectCallbacks c _ _ _
  | runRecords records =>
    cases records with
    | nil =>
      cases hret
      exact .of_eq (by simp [Config.ret]) rfl rfl rfl
    | cons entry rest =>
      cases hret
      exact (works_runCallbacksOrDeferThem _ _ _ _ _).on [.runRecords rest] rfl rfl rfl rfl
  | iterCancel ps =>
    cases ps with
    | nil =>
      cases hret
      exact .of_eq (by simp [Config.ret]) rfl rfl rfl
    | cons p ps =>
      cases hret
      exact (works_cancel _ p).on [.iterCancel ps] rfl rfl rfl rfl
  | resolveUnderlying target r =>
    cases hret
    exact works_resolveUnderlying c _ _
  | resolveExact p r =>
    cases hret
    exact works_resolve c _ _ _
  | nthResolvedAndCancelPending ps n =>
    cases hret
    exact works_nthResolvedAndCancelPending c _ _
  | nthResolved ps n =>
    simp only [returnTo] at hret
    split at hret
    · cases hret
      exact .of_eq (by simp [Config.ret]) rfl rfl rfl
    · cases hret
      exact .of_eq (by simp [Config.raise]) rfl rfl rfl
  | returnPromise p =>
    cases hret
    exact .of_eq (by simp [Config.ret]) rfl rfl rfl
  | allocResult r =>
    cases hret
    exact .of_eq (by simp [Config.retNew, Config.ret]) rfl rfl rfl
  | wakeupEach tmp curr woken =>
    cases hret
    exact works_wakeupEach c _ _ _

theorem works_raiseTo (e : Exn U) {frame : Frame U} (hframe : frame.steady = true) :
    Works c (raiseTo c e frame) := by
  cases frame with
  | user | guardFail | attach | hooked | runCallbacks | runCancelCallbacks
  | runRegularCallbacks | leaveResolutionLoop | drain | withValue =>
    simp [Frame.steady, Frame.passes, Frame.restores, Frame.callsBack, Frame.direct] at hframe
  | resolveWith target =>
    simp only [raiseTo]
    split
    · exact works_resolveUnderlying c _ _
    · exact .of_eq (by simp [Config.raise]) rfl rfl rfl
  | allocWith =>
    simp only [raiseTo]
    split
    · exact .of_eq (by simp [Config.retNew, Config.ret]) rfl rfl rfl
    · exact .of_eq (by simp [Config.raise]) rfl rfl rfl
  | _ => exact .of_eq (by simp [raiseTo, Config.raise]) rfl rfl rfl

/-! ## Functions that attach callbacks or call user functions -/

theorem lays_runImmediate (given u : Pid) (r : Result U) (k : Immediate U) :
    Lays c (runImmediate c given u r k) := by
  cases k with
  | map f => exact .of_push [.allocWith] (layers_singleton rfl) rfl rfl
  | observe k =>
    cases k with
    | hooked f => exact .of_push [.hooked] (layers_singleton rfl) rfl rfl
    | hookedUnit f => exact .of_push [.hooked] (layers_singleton rfl) rfl rfl
    | _ => exact .of_push [] .nil rfl rfl
  | reraise =>
    cases r with
    | fulfilled v => exact .of_push [] .nil rfl rfl
    | rejected e => exact .of_push [] .nil rfl rfl
  | _ => exact .of_push [] .nil rfl rfl

theorem lays_attachTo (k : Combinator U) (p : Pid) : Lays c (attachTo c k p) := by
  unfold attachTo
  dsimp only
  split
  · obtain ⟨hstorage, hstack⟩ := lays_runImmediate (c.follow p) p _ _ k.onFulfilled
    exact ⟨hstorage, hstack⟩
  · obtain ⟨hstorage, hstack⟩ := lays_runImmediate (c.follow p) p _ _ k.onRejected
    exact ⟨hstorage, hstack⟩
  · split
    · exact .of_push [] .nil rfl rfl
    · exact .of_push [] .nil rfl rfl
  · exact .of_push [] .nil rfl rfl

theorem lays_onCancel (p : Pid) (f : U) : Lays c (onCancel c p f) := by
  unfold onCancel
  dsimp only
  split
  · exact .of_push [.hooked] (layers_singleton rfl) rfl rfl
  · exact .of_push [] .nil rfl rfl
  · exact .of_push [] .nil rfl rfl

theorem lays_protected (p : Pid) : Lays c (protected' c p) := by
  unfold protected'
  dsimp only
  split
  · obtain ⟨hstorage, hstack⟩ := (works_attachCell (c.follow p) .protection
      .cancelThisPromise [p]).lays
    exact ⟨hstorage, hstack⟩
  · exact .of_push [] .nil rfl rfl

theorem lays_attachCallbackOrResolveImmediately (j : ℕ) (ps : List Pid) :
    Lays c (attachCallbackOrResolveImmediately c j ps) := by
  induction ps generalizing c with
  | nil =>
    unfold attachCallbackOrResolveImmediately
    split
    · split
      · exact .of_push [] .nil rfl rfl
      · exact .of_push [] .nil rfl rfl
    · exact .of_push [] .nil rfl rfl
  | cons p ps ih =>
    have hone : (attachCallbackOrNoteResult c j p).storage = c.storage ∧
        (attachCallbackOrNoteResult c j p).stack = c.stack := by
      unfold attachCallbackOrNoteResult
      dsimp only
      split
      · exact ⟨rfl, rfl⟩
      · exact ⟨rfl, rfl⟩
      · exact ⟨rfl, rfl⟩
    obtain ⟨hstorage, frames, hstack, hlayers⟩ := ih (attachCallbackOrNoteResult c j p)
    rw [hone.1] at hstorage hlayers
    rw [hone.2] at hstack
    exact .of_push frames hlayers hstack hstorage

theorem lays_join (ps : List Pid) : Lays c (join c ps) := by
  obtain ⟨hstorage, hstack⟩ := lays_attachCallbackOrResolveImmediately
    { c.alloc (newPending (.propagateCancelToSeveral ps)) with
      joins := c.joins ++ [Join.mk c.heap.length 0 (.fulfilled .unit) true] } c.joins.length ps
  exact ⟨hstorage, hstack⟩

theorem lays_pause : Lays c (pause c) := by
  unfold pause
  dsimp only
  split
  · exact .of_push [] .nil rfl rfl
  · exact .of_push [.returnPromise _] (layers_singleton rfl) rfl rfl

variable {c}

/-- The functions that keep the storage of their caller, for a user function that they call
at once as well. -/
def Op.keepsStorage : Op U → Bool
  | .withValue _ _ _ | .abandonWakeups => false
  | _ => true

theorem lays_execute {o : Op U} (ho : o.keepsStorage = true) : Lays c (execute c o) := by
  cases o with
  | attach k p => exact lays_attachTo c k p
  | tryAttach f k => exact .of_push [.guardFail, .attach k] (layers_guardFail rfl) rfl rfl
  | onCancel p f => exact lays_onCancel c p f
  | protected' p => exact lays_protected c p
  | join ps => exact lays_join c ps
  | choose ps random => exact (works_choose c ps random).lays
  | pick ps random => exact (works_pick c ps random).lays
  | nchoose ps => exact (works_nchoose c ps).lays
  | npick ps => exact (works_npick c ps).lays
  | nchooseSplit ps => exact (works_nchooseSplit c ps).lays
  | cancel p => exact (works_cancel c p).lays
  | wakeupGeneral name p r => exact (works_wakeupWith c _ _ _ _).lays
  | wakeupLaterGeneral name p r => exact (works_wakeupWith c _ _ _ _).lays
  | poll p => exact (works_poll c p).lays
  | pause => exact lays_pause c
  | wakeupPaused => exact (works_wakeupPaused c).lays
  | withValue key value f => simp [Op.keepsStorage] at ho
  | abandonWakeups => simp [Op.keepsStorage] at ho
  | takeL seq => exact (works_take c _).lays
  | takeR seq => exact (works_take c _).lays
  | _ => exact .of_push [] .nil rfl rfl

/-! ## Callbacks -/

variable (c)

theorem layers_runCancelCallbacks (todo : List (CancelCallbackList U)) :
    (todo = [] ∧ (runCancelCallbacks c todo).stack = c.stack) ∨ ∃ frames todo',
      (runCancelCallbacks c todo).stack = frames ++ .runCancelCallbacks todo' :: c.stack ∧
        Layers (runCancelCallbacks c todo).storage frames := by
  unfold runCancelCallbacks
  split
  · exact .inl ⟨rfl, rfl⟩
  · exact .inr ⟨[], _, rfl, .nil⟩
  · exact .inr ⟨[], _, rfl, .nil⟩
  · exact .inr ⟨[.hooked], _, rfl, layers_singleton rfl⟩
  · exact .inr ⟨[], _, rfl, .nil⟩
  · exact .inr ⟨[], _, rfl, .nil⟩

theorem layers_runCompose (target : Pid) (storage : Storage U) (r : Result U) (k : Compose U) :
    ∃ frames, (runCompose c target storage r k).stack = frames ++ c.stack ∧
      Layers (runCompose c target storage r k).storage frames := by
  cases k with
  | pass =>
    have h := (works_resolveUnderlying c target r).lays
    obtain ⟨frames, hstack, hlayers⟩ := h.stack
    exact ⟨frames, hstack, h.storage ▸ hlayers⟩
  | proxy f => exact ⟨[.guardFail, .proxyInto target], rfl, layers_guardFail rfl⟩
  | map f => exact ⟨[.resolveWith target], rfl, layers_singleton rfl⟩

theorem layers_runObserve (storage : Storage U) (r : Result U) (k : Observe U) :
    ∃ frames, (runObserve c storage r k).stack = frames ++ c.stack ∧
      Layers (runObserve c storage r k).storage frames := by
  cases k with
  | hooked f => exact ⟨[.hooked], rfl, layers_singleton rfl⟩
  | hookedUnit f => exact ⟨[.hooked], rfl, layers_singleton rfl⟩
  | _ => exact ⟨[], rfl, .nil⟩

theorem layers_runCallback (r : Result U) (callback : Callback U) :
    ∃ frames, (runCallback c r callback).stack = frames ++ c.stack ∧
      Layers (runCallback c r callback).storage frames := by
  cases callback with
  | compose target storage onFulfilled onRejected =>
    cases r with
    | fulfilled v => exact layers_runCompose c _ _ _ _
    | rejected e => exact layers_runCompose c _ _ _ _
  | observe storage onFulfilled onRejected =>
    cases r with
    | fulfilled v => exact layers_runObserve c _ _ _
    | rejected e => exact layers_runObserve c _ _ _
  | join j =>
    have h := (works_runJoin c j r).lays
    obtain ⟨frames, hstack, hlayers⟩ := h.stack
    exact ⟨frames, hstack, h.storage ▸ hlayers⟩

theorem layers_runRegularCallbacks (r : Result U) (todo : List (RegularCallbackList U)) :
    (todo = [] ∧ (runRegularCallbacks c r todo).stack = c.stack) ∨ ∃ frames todo',
      (runRegularCallbacks c r todo).stack = frames ++ .runRegularCallbacks todo' r :: c.stack ∧
        Layers (runRegularCallbacks c r todo).storage frames := by
  unfold runRegularCallbacks
  split
  · exact .inl ⟨rfl, rfl⟩
  · exact .inr ⟨[], _, rfl, .nil⟩
  · exact .inr ⟨[], _, rfl, .nil⟩
  · rename_i node rest
    obtain ⟨frames, hstack, hlayers⟩ := layers_runCallback
      ((c.emit (.called node r)).push [.runRegularCallbacks rest r]) r node.callback
    exact .inr ⟨frames, rest, hstack, hlayers⟩
  · rename_i i rest
    refine .inr ?_
    dsimp only
    split
    · rename_i cell hcell
      split
      · have h := (works_runCellBody (((c.push [.runRegularCallbacks rest r]).emit
          (.cellCalled i r)).clearCell i cell.originallyAddedTo) cell r).lays
        obtain ⟨frames, hstack, hlayers⟩ := h.stack
        refine ⟨frames, rest, hstack, ?_⟩
        have hstorage := h.storage
        rw [← hstorage] at hlayers
        exact hlayers
      · exact ⟨[], rest, rfl, .nil⟩
    · exact ⟨[], rest, rfl, .nil⟩

end Functions

/-! ## Storages along the stack -/

/-- Going down a stack that begins with `storage`: `callers` are the storages that the user
code of the frames gets back, and at the stack `base` the storage satisfies `final`. -/
inductive Aligned (base : List (Frame U)) (final : Storage U → Prop) :
    List (Frame U) → List (Storage U) → Storage U → Prop
  | base {storage : Storage U} : final storage → Aligned base final base [] storage
  | user {u : U} {stack : List (Frame U)} {callers : List (Storage U)} {storage : Storage U} :
      Aligned base final stack callers storage →
      Aligned base final (.user u :: stack) (storage :: callers) storage
  | keep {frame : Frame U} {stack : List (Frame U)} {callers : List (Storage U)}
      {storage : Storage U} : frame.passes = true → frame.MayCover stack →
      Aligned base final stack callers storage →
      Aligned base final (frame :: stack) callers storage
  | restore {frame : Frame U} {stack : List (Frame U)} {callers : List (Storage U)}
      {saved storage : Storage U} : frame.restores = some saved → Bare stack →
      Aligned base final stack callers saved → Aligned base final (frame :: stack) callers storage
  | callBack {frame : Frame U} {stack : List (Frame U)} {callers : List (Storage U)}
      {storage : Storage U} : frame.callsBack = true → Bare stack →
      (∀ left, Aligned base final stack callers left) →
      Aligned base final (frame :: stack) callers storage

namespace Aligned

variable {base stack : List (Frame U)} {final : Storage U → Prop} {callers : List (Storage U)}
  {frame : Frame U}

theorem length_le (h : Aligned base final stack callers storage) :
    base.length ≤ stack.length := by
  induction h with
  | base _ => exact le_rfl
  | user _ ih => exact ih.trans (Nat.le_succ _)
  | keep _ _ _ ih => exact ih.trans (Nat.le_succ _)
  | restore _ _ _ ih => exact ih.trans (Nat.le_succ _)
  | callBack _ _ _ ih => exact (ih []).trans (Nat.le_succ _)

theorem eq_base (h : Aligned base final stack callers storage)
    (hlen : stack.length ≤ base.length) : stack = base ∧ final storage := by
  cases h with
  | base hfinal => exact ⟨rfl, hfinal⟩
  | user h => exact absurd (h.length_le.trans_lt (Nat.lt_succ_self _)) (Nat.not_lt.mpr hlen)
  | keep _ _ h => exact absurd (h.length_le.trans_lt (Nat.lt_succ_self _)) (Nat.not_lt.mpr hlen)
  | restore _ _ h => exact absurd (h.length_le.trans_lt (Nat.lt_succ_self _)) (Nat.not_lt.mpr hlen)
  | callBack _ _ h =>
    exact absurd ((h []).length_le.trans_lt (Nat.lt_succ_self _)) (Nat.not_lt.mpr hlen)

theorem push {frames : List (Frame U)} (h : Aligned base final stack callers storage)
    (hbare : Bare stack) (hlayers : Layers storage frames) :
    Aligned base final (frames ++ stack) callers storage := by
  induction hlayers with
  | nil => exact h
  | keep hpasses hcover _ ih => exact .keep hpasses (hcover.append hbare) ih
  | loop hframes _ ih =>
    exact .callBack rfl (bare_cons.mpr rfl) fun _ => .restore rfl (hframes.append hbare) ih

theorem lays (h : Aligned base final c.stack callers c.storage) (hbare : Bare c.stack)
    (hlays : Lays c c') : Aligned base final c'.stack callers c'.storage := by
  obtain ⟨hstorage, frames, hstack, hlayers⟩ := hlays
  rw [hstack, hstorage]
  exact h.push hbare hlayers

section Pop

variable (h : Aligned base final (frame :: stack) callers storage)
  (hlen : base.length ≤ stack.length)

include h hlen

theorem pop_user {u : U} (hframe : frame = .user u) :
    ∃ callers', callers = storage :: callers' ∧ Aligned base final stack callers' storage := by
  subst hframe
  cases h with
  | base => exact absurd hlen (Nat.not_succ_le_self _)
  | user h => exact ⟨_, rfl, h⟩
  | keep hpasses => simp [Frame.passes] at hpasses
  | restore hrestores => simp [Frame.restores] at hrestores
  | callBack hcalls => simp [Frame.callsBack] at hcalls

theorem pop_keep (hpasses : frame.passes = true) :
    frame.MayCover stack ∧ Aligned base final stack callers storage := by
  cases h with
  | base => exact absurd hlen (Nat.not_succ_le_self _)
  | user h => simp [Frame.passes] at hpasses
  | keep _ hcover h => exact ⟨hcover, h⟩
  | restore hrestores =>
    cases frame <;> simp_all [Frame.passes, Frame.restores]
  | callBack hcalls =>
    cases frame <;> simp_all [Frame.passes, Frame.callsBack]

theorem pop_restore {saved : Storage U} (hrestores : frame.restores = some saved) :
    Bare stack ∧ Aligned base final stack callers saved := by
  cases h with
  | base => exact absurd hlen (Nat.not_succ_le_self _)
  | user h => simp [Frame.restores] at hrestores
  | keep hpasses =>
    cases frame <;> simp_all [Frame.passes, Frame.restores]
  | restore hrestores' hbare h =>
    cases hrestores.symm.trans hrestores'
    exact ⟨hbare, h⟩
  | callBack hcalls =>
    cases frame <;> simp_all [Frame.restores, Frame.callsBack]

theorem pop_callBack (hcalls : frame.callsBack = true) :
    Bare stack ∧ ∀ left, Aligned base final stack callers left := by
  cases h with
  | base => exact absurd hlen (Nat.not_succ_le_self _)
  | user h => simp [Frame.callsBack] at hcalls
  | keep hpasses =>
    cases frame <;> simp_all [Frame.passes, Frame.callsBack]
  | restore hrestores =>
    cases frame <;> simp_all [Frame.restores, Frame.callsBack]
  | callBack _ hbare h => exact ⟨hbare, h⟩

end Pop

end Aligned

/-- What the user code of the frames gets back, after a step.  A call adds what is current for
the code that makes it; the outcome of the call takes it away. -/
def callersAfter {α : Type} (c : Config U) (a : Label U) (current : α) (callers : List α) :
    List α :=
  match c.control, a with
  | .user _, .move (.call _ _) => current :: callers
  | .user _, .move (.apply _ _ _) => current :: callers
  | .user _, _ => callers
  | _, _ =>
    match c.stack with
    | .user _ :: _ => callers.tail
    | _ => callers

/-- An exception that leaves the function of `with_value` is accepted by the filter. -/
def Config.valueRestored (c : Config U) : Bool :=
  match c.control, c.stack with
  | .exn e, .withValue _ :: _ => c.exceptionFilter e
  | _, _ => true

section Step

variable {base : List (Frame U)} {final : Storage U → Prop} {callers : List (Storage U)}

theorem Aligned.step_user {m : Move U} {s : UserState U} (hcontrol : c.control = .user s)
    (habandons : (Label.move m).abandons = false)
    (h : Aligned base final c.stack callers c.storage) (hstep : userStep c m = some c') :
    Aligned base final c'.stack (callersAfter c (.move m) c.storage callers) c'.storage := by
  cases m with
  | call o u =>
    simp only [callersAfter, hcontrol]
    have hpush : Aligned base final (c.push [.user u]).stack (c.storage :: callers)
        (c.push [.user u]).storage := .user h
    simp only [userStep] at hstep
    split at hstep
    · cases hstep
      by_cases ho : o.keepsStorage = true
      · exact hpush.lays (bare_cons.mpr rfl) (lays_execute ho)
      · cases o with
        | withValue key value f => exact .restore rfl (bare_cons.mpr rfl) hpush
        | abandonWakeups => simp [Label.abandons] at habandons
        | _ => simp [Op.keepsStorage] at ho
    · simp at hstep
  | apply f argument u =>
    simp only [callersAfter, hcontrol]
    cases hstep
    exact .user h
  | ret v =>
    simp only [callersAfter, hcontrol]
    simp only [userStep] at hstep
    split at hstep
    · simp at hstep
    · split at hstep
      · cases hstep
        exact h
      · simp at hstep
  | raise e =>
    simp only [callersAfter, hcontrol]
    simp only [userStep] at hstep
    split at hstep
    · simp at hstep
    · cases hstep
      exact h

theorem callersAfter_of_not_user {α : Type} {current : α} {callers : List α} {frame : Frame U}
    {stack : List (Frame U)} (hcontrol : ∀ s, c.control ≠ .user s)
    (hstack : c.stack = frame :: stack)
    (hframe : ∀ u, frame ≠ .user u) : callersAfter c a current callers = callers := by
  unfold callersAfter
  split
  · rename_i hs
    exact absurd hs (hcontrol _)
  · rename_i hs
    exact absurd hs (hcontrol _)
  · rename_i hs _ _
    exact absurd hs (hcontrol _)
  · rw [hstack]
    split
    · rename_i u _ heq
      exact absurd (List.cons.inj heq).1 (hframe u)
    · rfl

theorem Aligned.step_ret {v : Val U} {frame : Frame U} {stack : List (Frame U)}
    (hlen : base.length ≤ stack.length)
    (h : Aligned base final (frame :: stack) callers c.storage) (hframe : ∀ u, frame ≠ .user u)
    (hret : returnTo { c with stack := stack } v frame = some c') :
    Aligned base final c'.stack callers c'.storage := by
  by_cases hsteady : frame.steady = true
  -- a steady frame does not touch the storage
  · have hsteady' := hsteady
    simp only [Frame.steady, Bool.and_eq_true, Bool.not_eq_true'] at hsteady'
    obtain ⟨hcover, hbelow⟩ := h.pop_keep hlen hsteady'.1
    have hbare : Bare stack := by
      rcases hcover with rfl | hbare
      · simp [Frame.direct] at hsteady'
      · exact hbare
    exact Aligned.lays (c := { c with stack := stack }) hbelow hbare
      (works_returnTo _ hsteady hret).lays
  · cases frame with
    | user u => exact absurd rfl (hframe u)
    | guardFail =>
      cases hret
      exact (h.pop_keep hlen rfl).2
    | attach k =>
      obtain ⟨hcover, hbelow⟩ := h.pop_keep hlen rfl
      have hbare : Bare stack := hcover.resolve_left (by simp)
      simp only [returnTo] at hret
      split at hret
      · split at hret
        · cases hret
          exact Aligned.lays (c := { c with stack := stack }) hbelow hbare (lays_attachTo _ _ _)
        · simp at hret
      · simp at hret
    | hooked =>
      cases hret
      exact (h.pop_keep hlen rfl).2
    | runCallbacks p callbacks r =>
      obtain ⟨hbare, hbelow⟩ := h.pop_callBack hlen rfl
      cases hret
      have hregular : ∀ left, Aligned base final
          (.runRegularCallbacks [callbacks.regularCallbacks] r :: stack) callers left :=
        fun _ => .callBack rfl hbare hbelow
      unfold runCallbacks
      dsimp only
      split
      · exact .callBack rfl (bare_cons.mpr rfl) hregular
      · exact hregular _
    | runCancelCallbacks todo =>
      obtain ⟨hbare, hbelow⟩ := h.pop_callBack hlen rfl
      cases hret
      rcases layers_runCancelCallbacks { c with stack := stack } todo with
        ⟨rfl, hstack⟩ | ⟨frames, todo', hstack, hlayers⟩
      · rw [hstack]
        exact hbelow _
      · rw [hstack]
        exact Aligned.push (.callBack rfl hbare hbelow) (bare_cons.mpr rfl) hlayers
    | runRegularCallbacks todo r =>
      obtain ⟨hbare, hbelow⟩ := h.pop_callBack hlen rfl
      cases hret
      rcases layers_runRegularCallbacks { c with stack := stack } r todo with
        ⟨rfl, hstack⟩ | ⟨frames, todo', hstack, hlayers⟩
      · rw [hstack]
        exact hbelow _
      · rw [hstack]
        exact Aligned.push (.callBack rfl hbare hbelow) (bare_cons.mpr rfl) hlayers
    | leaveResolutionLoop snapshot =>
      -- the frame puts back the storage of its snapshot
      obtain ⟨hbare, hbelow⟩ := h.pop_restore hlen rfl
      simp only [returnTo] at hret
      split at hret
      · cases hret
        exact .restore rfl hbare hbelow
      · cases hret
        exact hbelow
    | drain snapshot =>
      obtain ⟨hbare, hbelow⟩ := h.pop_restore hlen rfl
      simp only [returnTo] at hret
      split at hret
      · cases hret
        exact hbelow
      · cases hret
        exact .callBack rfl (bare_cons.mpr rfl) fun _ => .restore rfl hbare hbelow
    | withValue saved =>
      obtain ⟨hbare, hbelow⟩ := h.pop_restore hlen rfl
      cases hret
      exact hbelow
    | _ => exact absurd rfl hsteady

theorem Aligned.step_exn {e : Exn U} {frame : Frame U} {stack : List (Frame U)}
    (hlen : base.length ≤ stack.length)
    (h : Aligned base final (frame :: stack) callers c.storage) (hframe : ∀ u, frame ≠ .user u)
    (hbreaks : frame.breaks c e = false)
    (hvalue : ∀ saved, frame = .withValue saved → c.exceptionFilter e = true) :
    Aligned base final (raiseTo { c with stack := stack } e frame).stack callers
      (raiseTo { c with stack := stack } e frame).storage := by
  by_cases hsteady : frame.steady = true
  · have hsteady' := hsteady
    simp only [Frame.steady, Bool.and_eq_true, Bool.not_eq_true'] at hsteady'
    obtain ⟨hcover, hbelow⟩ := h.pop_keep hlen hsteady'.1
    have hbare : Bare stack := by
      rcases hcover with rfl | hbare
      · simp [Frame.direct] at hsteady'
      · exact hbare
    exact Aligned.lays (c := { c with stack := stack }) hbelow hbare
      (works_raiseTo _ e hsteady).lays
  · cases frame with
    | user u => exact absurd rfl (hframe u)
    | guardFail =>
      obtain ⟨-, hbelow⟩ := h.pop_keep hlen rfl
      simp only [raiseTo]
      split
      · exact hbelow
      · exact hbelow
    | attach k => exact (h.pop_keep hlen rfl).2
    | hooked =>
      obtain ⟨-, hbelow⟩ := h.pop_keep hlen rfl
      simp only [raiseTo]
      split
      · exact hbelow
      · exact hbelow
    | withValue saved =>
      obtain ⟨-, hbelow⟩ := h.pop_restore hlen rfl
      simp only [raiseTo]
      rw [if_pos (hvalue saved rfl)]
      exact hbelow
    | runCallbacks | runCancelCallbacks | runRegularCallbacks | leaveResolutionLoop | drain =>
      simp [Frame.breaks] at hbreaks
    | _ => exact absurd rfl hsteady

/-- In a step in which no exception breaks a loop, `abandon_wakeups` is not called and
`with_value` is left properly, the storages stay as they are along the stack. -/
theorem Aligned.step (hquiet : c.quiet = true) (habandons : a.abandons = false)
    (hvalue : c.valueRestored = true)
    (hlen : base.length < c.stack.length ∨ ∃ s, c.control = .user s)
    (h : Aligned base final c.stack callers c.storage) (hstep : step c a = some c') :
    Aligned base final c'.stack (callersAfter c a c.storage callers) c'.storage := by
  have hlen' : ∀ {frame : Frame U} {stack : List (Frame U)}, (∀ s, c.control ≠ .user s) →
      c.stack = frame :: stack → base.length ≤ stack.length := by
    intro frame stack hcontrol hstack
    rcases hlen with hlen | ⟨s, hs⟩
    · rw [hstack] at hlen
      exact Nat.lt_succ_iff.mp hlen
    · exact absurd hs (hcontrol s)
  rcases step_cases hstep with ⟨s, m, hcontrol, rfl, huser⟩ |
    ⟨v, frame, stack, hcontrol, hstack, rfl, hret⟩ | ⟨e, frame, stack, hcontrol, hstack, rfl, rfl⟩
  · exact h.step_user hcontrol habandons huser
  · have hnot : ∀ s, c.control ≠ .user s := by simp [hcontrol]
    have hbase := hlen' hnot hstack
    rw [hstack] at h
    by_cases hframe : ∃ u, frame = .user u
    · obtain ⟨u, rfl⟩ := hframe
      obtain ⟨callers', rfl, hbelow⟩ := h.pop_user hbase rfl
      cases hret
      simp only [callersAfter, hcontrol, hstack, List.tail_cons]
      exact hbelow
    · simp only [not_exists] at hframe
      rw [callersAfter_of_not_user hnot hstack hframe]
      exact h.step_ret hbase hframe hret
  · have hnot : ∀ s, c.control ≠ .user s := by simp [hcontrol]
    have hbase := hlen' hnot hstack
    rw [hstack] at h
    by_cases hframe : ∃ u, frame = .user u
    · obtain ⟨u, rfl⟩ := hframe
      obtain ⟨callers', rfl, hbelow⟩ := h.pop_user hbase rfl
      simp only [callersAfter, hcontrol, hstack, List.tail_cons]
      exact hbelow
    · simp only [not_exists] at hframe
      rw [callersAfter_of_not_user hnot hstack hframe]
      refine h.step_exn hbase hframe ?_ ?_
      · simpa [Config.quiet, hcontrol, hstack] using hquiet
      · rintro saved rfl
        simpa [Config.valueRestored, hcontrol, hstack] using hvalue

end Step

end Lwt
