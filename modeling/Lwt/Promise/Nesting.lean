import Lwt.Promise.Loop
import Lwt.Promise.Script

/-!
# A call leaves the resolution loop as it found it

A call of a public function is under way while the frame of its caller, and something on
top of it, is on the stack.  During the call the storage of the caller is either current
or saved in the outermost loop that the call has entered (`Covered`); together with the
count of loops this gives `call_restores_loop`.
-/

namespace Lwt

open Transition

variable {U : Type} {c c' : Config U}

/-! ## The storage during a call -/

/-- The functions that enter the resolution loop. -/
def Op.resolves : Op U → Bool
  | .wakeupGeneral _ _ _ | .wakeupLaterGeneral _ _ _ | .cancel _ | .wakeupPaused
  | .pick _ _ | .npick _ => true
  | _ => false

/-- The frames of these functions outside of the loops they enter.  They do not touch the
storage. -/
def Frame.keepsStorage : Frame U → Bool
  | .propagateCancel _ _ | .runRecords _ | .iterCancel _ | .nthResolvedAndCancelPending _ _
  | .nthResolved _ _ | .returnPromise _ | .allocResult _ | .wakeupEach _ _ _ => true
  | _ => false

/-- The frame is going to leave a loop and to restore `storage`. -/
def Frame.Restores (storage : Storage U) (frame : Frame U) : Prop :=
  frame = .leaveResolutionLoop storage ∨ frame = .drain storage

/-- The storage is current, or saved in the lowest loop of `frames`. -/
def Covered (storage : Storage U) (frames : List (Frame U)) (current : Storage U) : Prop :=
  (frames.all Frame.keepsStorage = true ∧ current = storage) ∨
    ∃ above frame below, frames = above ++ frame :: below ∧ frame.Restores storage ∧
      below.all Frame.keepsStorage = true

theorem Covered.append {storage current : Storage U} {frames below : List (Frame U)}
    (h : Covered storage frames current) (hbelow : below.all Frame.keepsStorage = true) :
    Covered storage (frames ++ below) current := by
  rcases h with ⟨hframes, hcurrent⟩ | ⟨above, frame, below', rfl, hframe, hbelow'⟩
  · exact .inl ⟨by rw [List.all_append, hframes, hbelow, Bool.and_self], hcurrent⟩
  · refine .inr ⟨above, frame, below' ++ below, by simp, hframe, ?_⟩
    rw [List.all_append, hbelow', hbelow, Bool.and_self]

/-- Frames on top of a loop that is under way change nothing. -/
theorem Covered.under {storage current : Storage U} (above : List (Frame U))
    {below : List (Frame U)} {frame : Frame U} (hframe : frame.Restores storage)
    (hbelow : below.all Frame.keepsStorage = true) :
    Covered storage (above ++ frame :: below) current :=
  .inr ⟨above, frame, below, rfl, hframe, hbelow⟩

/-- A function that calls no user function outside of a loop and keeps the storage. -/
def Keeps (c c' : Config U) : Prop :=
  (∀ s, c'.control ≠ .user s) ∧
    ∃ frames, c'.stack = frames ++ c.stack ∧ Covered c.storage frames c'.storage

theorem Keeps.of_eq (hcontrol : ∀ s, c'.control ≠ .user s) (hstack : c'.stack = c.stack)
    (hstorage : c'.storage = c.storage) : Keeps c c' :=
  ⟨hcontrol, [], hstack, .inl ⟨rfl, hstorage⟩⟩

theorem Keeps.of_push (frames : List (Frame U)) (hframes : frames.all Frame.keepsStorage = true)
    (hcontrol : ∀ s, c'.control ≠ .user s) (hstack : c'.stack = frames ++ c.stack)
    (hstorage : c'.storage = c.storage) : Keeps c c' :=
  ⟨hcontrol, frames, hstack, .inl ⟨hframes, hstorage⟩⟩

theorem Keeps.on {c₁ : Config U} (h : Keeps c₁ c') (below : List (Frame U))
    (hbelow : below.all Frame.keepsStorage = true) (hstack : c₁.stack = below ++ c.stack)
    (hstorage : c₁.storage = c.storage) : Keeps c c' := by
  obtain ⟨hcontrol, frames, hstack', hcovered⟩ := h
  rw [hstorage] at hcovered
  exact ⟨hcontrol, frames ++ below, by rw [hstack', hstack, List.append_assoc],
    hcovered.append hbelow⟩

section Functions

variable (c)

theorem keeps_runCallbacksOrDeferThem (d : Deferral) (p : Pid) (callbacks : Callbacks U)
    (r : Result U) : Keeps c (runCallbacksOrDeferThem c d p callbacks r) := by
  unfold runCallbacksOrDeferThem
  split
  · exact .of_eq (by simp [Config.ret]) rfl rfl
  · exact ⟨by simp [Config.ret], [.runCallbacks p callbacks r, .leaveResolutionLoop c.storage], rfl,
      .under [_] (.inl rfl) rfl⟩

theorem keeps_resolve (d : Deferral) (p : Pid) (r : Result U) : Keeps c (resolve c d p r) := by
  unfold resolve
  split
  · exact (keeps_runCallbacksOrDeferThem _ d _ _ _).on [] rfl rfl rfl
  · exact .of_eq (by simp) rfl rfl

theorem keeps_wakeupWith (d : Deferral) (name : String) (p : Pid) (r : Result U) :
    Keeps c (wakeupWith d c name p r) := by
  unfold wakeupWith
  dsimp only
  split
  · exact .of_eq (by simp [Config.ret]) rfl rfl
  · exact .of_eq (by simp [Config.raise]) rfl rfl
  · exact (keeps_resolve _ d _ _).on [] rfl rfl rfl

theorem keeps_cancel (p : Pid) : Keeps c (cancel c p) :=
  .of_push [.propagateCancel [p] []] rfl (by simp [cancel, Config.ret]) rfl rfl

theorem keeps_cancelAndCollectCallbacks (p : Pid) (todo : List Pid)
    (collected : List (Pid × Callbacks U)) :
    Keeps c (cancelAndCollectCallbacks c p todo collected) := by
  unfold cancelAndCollectCallbacks
  dsimp only
  split
  · split
    · exact .of_push [.propagateCancel todo collected] rfl (by simp [Config.ret]) rfl rfl
    · exact .of_push [.propagateCancel todo _] rfl (by simp [Config.ret]) rfl rfl
    · exact .of_push [.propagateCancel (_ :: todo) collected] rfl (by simp [Config.ret]) rfl rfl
    · exact .of_push [.propagateCancel (_ ++ todo) collected] rfl (by simp [Config.ret]) rfl rfl
  · exact .of_push [.propagateCancel todo collected] rfl (by simp [Config.ret]) rfl rfl

theorem keeps_nthResolvedAndCancelPending (ps : List Pid) (n : ℕ) :
    Keeps c (nthResolvedAndCancelPending c ps n) := by
  induction ps generalizing c n with
  | nil => exact .of_eq (by simp [nthResolvedAndCancelPending, Config.raise]) rfl rfl
  | cons p ps ih =>
    rw [nthResolvedAndCancelPending.eq_def]
    dsimp only
    split
    · split
      · exact .of_push [.iterCancel ps, .returnPromise p] rfl (by simp [Config.ret]) rfl rfl
      · exact (ih _ _).on [] rfl rfl rfl
    · exact (keeps_cancel _ p).on [.nthResolvedAndCancelPending ps n] rfl rfl rfl

theorem keeps_attachCell (kind : CellKind) (how : HowToCancel) (ps : List Pid) :
    Keeps c (attachCell c kind how ps) := by
  unfold attachCell
  dsimp only
  split
  · exact .of_eq (by simp [Config.ret]) rfl rfl
  · exact .of_eq (by simp [Config.raise]) rfl rfl

theorem keeps_pick (ps : List Pid) (random : ℕ) : Keeps c (pick c ps random) := by
  unfold pick
  split
  · exact .of_eq (by simp [Config.raise]) rfl rfl
  · dsimp only
    split
    · exact (keeps_attachCell _ _ _ _).on [] rfl rfl rfl
    · exact (keeps_nthResolvedAndCancelPending _ _ _).on [] rfl rfl rfl
    · exact (keeps_nthResolvedAndCancelPending _ _ _).on [] rfl rfl rfl
    · exact .of_push [.iterCancel ps, .nthResolved _ _] rfl (by simp [Config.ret]) rfl rfl

theorem keeps_npick (ps : List Pid) : Keeps c (npick c ps) := by
  unfold npick
  split
  · exact .of_eq (by simp [Config.raise]) rfl rfl
  · dsimp only
    split
    · exact .of_push [.iterCancel ps, .allocResult _] rfl (by simp [Config.ret]) rfl rfl
    · exact (keeps_attachCell _ _ _ _).on [] rfl rfl rfl

theorem keeps_wakeupPaused : Keeps c (wakeupPaused c) := by
  unfold wakeupPaused
  split
  · exact .of_eq (by simp [Config.ret]) rfl rfl
  · exact .of_push [.wakeupEach _ _ _] rfl (by simp [Config.ret]) rfl rfl

theorem keeps_wakeupEach (tmp curr : ℕ) (woken : Bool) :
    Keeps c (wakeupEach c tmp curr woken) := by
  unfold wakeupEach
  split
  · exact .of_push [.wakeupEach _ _ _] rfl (by simp [Config.ret]) rfl rfl
  · split
    · exact .of_eq (by simp [Config.ret]) rfl rfl
    · split
      · exact (keeps_wakeupWith _ _ _ _ _).on [.wakeupEach tmp curr true] rfl rfl rfl
      · exact .of_push [.wakeupEach _ _ _] rfl (by simp [Config.ret]) rfl rfl

theorem keeps_execute {o : Op U} (ho : o.resolves = true) : Keeps c (execute c o) := by
  cases o with
  | wakeupGeneral name p r => exact keeps_wakeupWith c _ _ _ _
  | wakeupLaterGeneral name p r => exact keeps_wakeupWith c _ _ _ _
  | cancel p => exact keeps_cancel c p
  | wakeupPaused => exact keeps_wakeupPaused c
  | pick ps random => exact keeps_pick c ps random
  | npick ps => exact keeps_npick c ps
  | _ => simp [Op.resolves] at ho

theorem keeps_returnTo {v : Val U} {frame : Frame U} (hframe : frame.keepsStorage = true)
    (hret : returnTo c v frame = some c') : Keeps c c' := by
  cases frame with
  | propagateCancel todo collected =>
    cases todo with
    | nil =>
      cases hret
      exact .of_push [.runRecords collected] rfl (by simp [Config.ret]) rfl rfl
    | cons p todo =>
      cases hret
      exact keeps_cancelAndCollectCallbacks c _ _ _
  | runRecords records =>
    cases records with
    | nil =>
      cases hret
      exact .of_eq (by simp [Config.ret]) rfl rfl
    | cons entry rest =>
      cases hret
      exact (keeps_runCallbacksOrDeferThem _ _ _ _ _).on [.runRecords rest] rfl rfl rfl
  | iterCancel ps =>
    cases ps with
    | nil =>
      cases hret
      exact .of_eq (by simp [Config.ret]) rfl rfl
    | cons p ps =>
      cases hret
      exact (keeps_cancel _ p).on [.iterCancel ps] rfl rfl rfl
  | nthResolvedAndCancelPending ps n =>
    cases hret
    exact keeps_nthResolvedAndCancelPending c _ _
  | nthResolved ps n =>
    simp only [returnTo] at hret
    split at hret
    · cases hret
      exact .of_eq (by simp [Config.ret]) rfl rfl
    · cases hret
      exact .of_eq (by simp [Config.raise]) rfl rfl
  | returnPromise p =>
    cases hret
    exact .of_eq (by simp [Config.ret]) rfl rfl
  | allocResult r =>
    cases hret
    exact .of_eq (by simp [Config.retNew, Config.ret]) rfl rfl
  | wakeupEach tmp curr woken =>
    cases hret
    exact keeps_wakeupEach c _ _ _
  | _ => simp [Frame.keepsStorage] at hframe

theorem keeps_raiseTo (e : Exn U) {frame : Frame U} (hframe : frame.keepsStorage = true) :
    Keeps c (raiseTo c e frame) := by
  cases frame with
  | user | guardFail | attach | proxyInto | resolveWith | allocWith | hooked | runCallbacks
  | runCancelCallbacks | runRegularCallbacks | leaveResolutionLoop | drain | resolveUnderlying
  | resolveExact | withValue => simp [Frame.keepsStorage] at hframe
  | _ => exact .of_eq (by simp [raiseTo, Config.raise]) rfl rfl

end Functions

/-! ## Calls -/

theorem userStep_stack {m : Move U} (huser : userStep c m = some c') :
    ∃ frames, c'.stack = frames ++ c.stack := by
  by_cases hm : (Label.move m).abandons = true
  · obtain ⟨u, rfl⟩ := eq_abandonWakeups hm
    obtain ⟨-, -, frames, hstack, -⟩ := userStep_abandonWakeups huser
    exact ⟨frames, hstack⟩
  · obtain ⟨frames, hstack, -⟩ := grows_userStep (by simpa using hm) huser
    exact ⟨frames, hstack⟩

theorem step_stack {a : Label U} (hstep : step c a = some c') :
    (∃ frames, c'.stack = frames ++ c.stack) ∨
      ∃ frame stack frames, c.stack = frame :: stack ∧ c'.stack = frames ++ stack := by
  rcases step_cases hstep with ⟨s, m, hcontrol, rfl, huser⟩ |
    ⟨v, frame, stack, hcontrol, hstack, rfl, hret⟩ | ⟨e, frame, stack, hcontrol, hstack, rfl, rfl⟩
  · exact .inl (userStep_stack huser)
  · refine .inr ?_
    by_cases hframe : frame.leaves = true
    · obtain ⟨⟨frames, hstack'⟩, -⟩ := returnTo_leaves hstack hframe hret
      exact ⟨frame, stack, frames, hstack, hstack'⟩
    · obtain ⟨frames, hstack', -⟩ := grows_returnTo _ (by simpa using hframe) hret
      exact ⟨frame, stack, frames, hstack, hstack'⟩
  · obtain ⟨frames, hstack', -⟩ := grows_raiseTo { c with stack := stack } e frame
    exact .inr ⟨frame, stack, frames, hstack, hstack'⟩

/-- The call that user code made in `c₀`, to go on at `u`, is under way. -/
def UnderWay (c₀ : Config U) (u : U) (c : Config U) : Prop :=
  ∃ top, c.stack = top ++ .user u :: c₀.stack ∧ Covered c₀.storage top c.storage ∧
    (top.all Frame.keepsStorage = true → ∀ s, c.control ≠ .user s)

theorem Frame.Restores.keepsStorage {storage : Storage U} {frame : Frame U}
    (h : frame.Restores storage) : frame.keepsStorage = false := by
  rcases h with rfl | rfl
  · rfl
  · rfl

section UnderWay

variable {c₀ : Config U} {u : U} {a : Label U}

theorem UnderWay.of_loop (above : List (Frame U)) {below : List (Frame U)} {frame : Frame U}
    (hframe : frame.Restores c₀.storage) (hbelow : below.all Frame.keepsStorage = true)
    (hstack : c.stack = above ++ frame :: below ++ .user u :: c₀.stack) : UnderWay c₀ u c := by
  refine ⟨above ++ frame :: below, hstack, .under above hframe hbelow, fun hall => ?_⟩
  simp [hframe.keepsStorage] at hall

theorem UnderWay.of_keeps {top stack : List (Frame U)} (hkeeps : Keeps { c with stack := stack } c')
    (hstack : stack = top ++ .user u :: c₀.stack) (htop : top.all Frame.keepsStorage = true)
    (hstorage : c.storage = c₀.storage) : UnderWay c₀ u c' := by
  obtain ⟨hcontrol, frames, hstack', hcovered⟩ := hkeeps
  have hcovered' : Covered c₀.storage frames c'.storage := hstorage ▸ hcovered
  refine ⟨frames ++ top, ?_, hcovered'.append htop, fun _ => hcontrol⟩
  rw [hstack', List.append_assoc, ← hstack]

theorem UnderWay.step_loop {below : List (Frame U)} {frame : Frame U}
    (hframe : frame.Restores c₀.storage) (hbelow : below.all Frame.keepsStorage = true)
    (hstack : c.stack = frame :: (below ++ .user u :: c₀.stack)) {v : Val U}
    (hret : returnTo { c with stack := below ++ .user u :: c₀.stack } v frame = some c') :
    UnderWay c₀ u c' := by
  have hleft : c'.stack = below ++ .user u :: c₀.stack → c'.storage = c₀.storage →
      (∀ s, c'.control ≠ .user s) → UnderWay c₀ u c' := fun hstack' hstorage hcontrol =>
    ⟨below, hstack', .inl ⟨hbelow, hstorage⟩, fun _ => hcontrol⟩
  rcases hframe with rfl | rfl
  · simp only [returnTo] at hret
    split at hret
    · cases hret
      exact .of_loop [] (.inr rfl) hbelow rfl
    · cases hret
      exact hleft rfl rfl (by simp [Config.ret])
  · simp only [returnTo] at hret
    split at hret
    · cases hret
      exact hleft rfl rfl (by simp [Config.ret])
    · cases hret
      exact .of_loop [_] (.inr rfl) hbelow rfl

theorem UnderWay.step (h : UnderWay c₀ u c) (hquiet : c.quiet = true)
    (hstep : step c a = some c') :
    UnderWay c₀ u c' ∨ (c'.stack = c₀.stack ∧ c'.storage = c₀.storage) := by
  obtain ⟨top, hstack, ⟨hkeeps, hstorage⟩ | ⟨above, frame, below, rfl, hframe, hbelow⟩, huser⟩ := h
  · cases top with
    | nil =>
      rcases step_top hstack hstep with ⟨s, m, hcontrol, -⟩ | ⟨v, hcontrol, hret⟩ |
        ⟨e, hcontrol, rfl⟩
      · exact absurd hcontrol (huser hkeeps s)
      · cases hret
        exact .inr ⟨rfl, hstorage⟩
      · exact .inr ⟨rfl, hstorage⟩
    | cons frame top =>
      have hkeeps' := hkeeps
      simp only [List.all_cons, Bool.and_eq_true] at hkeeps'
      rcases step_top hstack hstep with ⟨s, m, hcontrol, -⟩ | ⟨v, hcontrol, hret⟩ |
        ⟨e, hcontrol, rfl⟩
      · exact absurd hcontrol (huser hkeeps s)
      · exact .inl (.of_keeps (keeps_returnTo _ hkeeps'.1 hret) rfl hkeeps'.2 hstorage)
      · exact .inl (.of_keeps (keeps_raiseTo _ e hkeeps'.1) rfl hkeeps'.2 hstorage)
  · refine .inl ?_
    cases above with
    | cons top above =>
      -- Whatever happens happens above the loop.
      rcases step_stack hstep with ⟨frames, hframes⟩ | ⟨top', stack, frames, hpop, hframes⟩
      · refine .of_loop (frames ++ top :: above) hframe hbelow ?_
        rw [hframes, hstack]
        simp
      · obtain ⟨-, rfl⟩ : top' = top ∧ stack = above ++ frame :: below ++ .user u ::
          c₀.stack := by
          simpa using hpop.symm.trans hstack
        refine .of_loop (frames ++ above) hframe hbelow ?_
        rw [hframes]
        simp
    | nil =>
      have hstack₁ : c.stack = frame :: (below ++ .user u :: c₀.stack) := by simpa using hstack
      rcases step_top hstack₁ hstep with ⟨s, m, hcontrol, rfl, hmove⟩ | ⟨v, hcontrol, hret⟩ |
        ⟨e, hcontrol, rfl⟩
      · obtain ⟨frames, hframes⟩ := userStep_stack hmove
        refine .of_loop frames hframe hbelow ?_
        rw [hframes, hstack]
        simp
      · exact .step_loop hframe hbelow hstack₁ hret
      · have hleaves := leaves_of_quiet hcontrol hstack₁ hquiet
        rcases hframe with rfl | rfl <;> simp [Frame.leaves] at hleaves

theorem UnderWay.of_call {o : Op U} {c₁ : Config U} (ho : o.resolves = true)
    (hcall : userStep c₀ (.call o u) = some c₁) : UnderWay c₀ u c₁ := by
  obtain ⟨-, rfl⟩ := userStep_call hcall
  obtain ⟨hcontrol, frames, hstack, hcovered⟩ := keeps_execute (c₀.push [.user u]) ho
  exact ⟨frames, hstack, hcovered, fun _ => hcontrol⟩

end UnderWay

/-- A call of a function that enters the resolution loop, from the move that makes it to
the step that returns from it.  If no exception breaks a loop on the way and
`abandon_wakeups` is not called, it leaves the depth as it was, and restores the storage;
if it was made outside of all loops, it leaves no deferred callbacks behind. -/
theorem call_restores_loop {main hook u : U} {o : Op U} {c₀ c₁ c : Config U}
    (hreach : Reach step (fun _ _ => True) (initial main hook) c₀) (ho : o.resolves = true)
    (hcall : step c₀ (.move (.call o u)) = some c₁)
    (hrun : Reach step (fun c a => c.quiet = true ∧ a.abandons = false ∧
      c₀.stack.length < c.stack.length) c₁ c)
    (hreturn : c.stack.length ≤ c₀.stack.length) :
    c.stack = c₀.stack ∧ c.depth = c₀.depth ∧ c.storage = c₀.storage ∧
      (c₀.depth = 0 → c.deferredCallbacks = []) := by
  have huser := (step_move hcall).2
  have hgrows : Grows c₀ c₁ := by
    refine grows_userStep ?_ huser
    cases o <;> first | rfl | simp [Op.resolves] at ho
  -- Along the call the balance is kept, and the call is under way until it has returned.
  have hinv : (UnderWay c₀ u c ∨ (c.stack = c₀.stack ∧ c.storage = c₀.storage)) ∧
      c.balance = c₀.balance ∧ c.DefersInLoop := by
    refine hrun.invariant (P := fun c => (UnderWay c₀ u c ∨
      (c.stack = c₀.stack ∧ c.storage = c₀.storage)) ∧ c.balance = c₀.balance ∧ c.DefersInLoop)
      ⟨.inl (.of_call ho huser), hgrows.balance, hgrows.defersInLoop (reach_defersInLoop hreach)⟩ ?_
    rintro c a c' ⟨hway | ⟨hstack, -⟩, hbalance, hdefers⟩ ⟨hquiet, habandons, hlen⟩ hstep
    · exact ⟨hway.step hquiet hstep, ((step_balance hquiet hstep).2 habandons).trans hbalance,
        step_defersInLoop hstep hdefers⟩
    · rw [hstack] at hlen
      omega
  obtain ⟨⟨top, hstack, -⟩ | ⟨hstack, hstorage⟩, hbalance, hdefers⟩ := hinv
  · rw [hstack] at hreturn
    simp only [List.length_append, List.length_cons] at hreturn
    omega
  · have hdepth : c.depth = c₀.depth := by
      rw [Config.balance, Config.balance, hstack] at hbalance
      omega
    refine ⟨hstack, hdepth, hstorage, fun hzero => ?_⟩
    by_contra hne
    have hle := hdefers hne
    omega

/-- A promise with a handler that `dont_wait` attached. -/
def dontWaitMoves : List (Move ℕ) :=
  [.call .task 0, .call (.tryAttach 0 (.dontWait 0)) 0, .ret (.promise 0)]

/-- The move that rejects it. -/
def rejectMove : Move ℕ := .call (.wakeupGeneral "wakeup_exn" 0 (.rejected (.raised 0))) 0

/-- A handler of `dont_wait` that raises leaves the depth at one. -/
theorem dontWait_handler_breaks_loop : ∃ c₀ c₁ c : Config ℕ,
    Reach step (fun _ _ => True) (initial 0 0) c₀ ∧ step c₀ (.move rejectMove) = some c₁ ∧
    Reach step (fun c a => a.abandons = false ∧ c₀.stack.length < c.stack.length) c₁ c ∧
    c.stack.length ≤ c₀.stack.length ∧ c₀.depth = 0 ∧ c.depth = 1 := by
  obtain ⟨c₀, hreach, hc₀⟩ := exists_reach (fun _ _ => true)
    (P := fun c₀ => (step c₀ (.move rejectMove)).any fun c₁ =>
      (script (fun c a => !a.abandons && c₀.stack.length < c.stack.length) 40 c₁
        [.raise (.raised 1)]).any fun c =>
          c.stack.length ≤ c₀.stack.length && c₀.depth = 0 && c.depth = 1)
    (show (script _ 40 (initial 0 0) dontWaitMoves).any _ = true by decide)
  obtain ⟨c₁, hcall, hc₁⟩ := (Option.any_eq_true _ _).mp hc₀
  obtain ⟨c, hrun, hc⟩ := exists_reach _ hc₁
  simp only [Bool.and_eq_true, decide_eq_true_eq] at hc
  exact ⟨c₀, c₁, c, hreach.mono fun _ _ _ => trivial, hcall,
    hrun.mono fun c a hok => by simpa using hok, hc.1.1, hc.1.2, hc.2⟩

/-- A promise with a callback whose function is going to raise, and one that is woken up
later, in the loop of the first. -/
def raisingMoves : List (Move ℕ) :=
  [.call .task 0, .call .task 0, .call (.attach (.onSuccess 0) 0) 0,
    .call (.attach (.map 0) 1) 0]

def fulfillMove : Move ℕ := .call (.wakeupGeneral "wakeup" 0 (.fulfilled .unit)) 0

theorem call_restores_loop_raising : ∃ c₀ c₁ c : Config ℕ,
    Reach step (fun c a => c.quiet = true ∧ a.abandons = false ∧
      c₀.stack.length < c.stack.length) c₁ c ∧
    step c₀ (.move fulfillMove) = some c₁ ∧ c₁.depth = 1 ∧
    c.stack = c₀.stack ∧ c.depth = c₀.depth ∧ c.storage = c₀.storage ∧
      (c₀.depth = 0 → c.deferredCallbacks = []) := by
  obtain ⟨c₀, hreach, hc₀⟩ := exists_reach (fun _ _ => true)
    (P := fun c₀ => (step c₀ (.move fulfillMove)).any fun c₁ => c₁.depth = 1 &&
      (script (fun c a => c.quiet && !a.abandons && c₀.stack.length < c.stack.length) 40 c₁
        [.call (.wakeupLaterGeneral "wakeup_later" 1 (.fulfilled .unit)) 0, .raise (.raised 1),
          .ret .unit, .ret .unit]).any fun c => c.stack.length ≤ c₀.stack.length)
    (show (script _ 40 (initial 0 0) raisingMoves).any _ = true by decide)
  obtain ⟨c₁, hcall, hc₁⟩ := (Option.any_eq_true _ _).mp hc₀
  simp only [Bool.and_eq_true, decide_eq_true_eq] at hc₁
  obtain ⟨c, hrun, hc⟩ := exists_reach _ hc₁.2
  have hrun' : Reach step (fun c a => c.quiet = true ∧ a.abandons = false ∧
      c₀.stack.length < c.stack.length) c₁ c :=
    hrun.mono fun c a hok => by simpa [and_assoc] using hok
  exact ⟨c₀, c₁, c, hrun', hcall, hc₁.1, call_restores_loop (hreach.mono fun _ _ _ => trivial) rfl
    hcall hrun' (of_decide_eq_true hc)⟩

end Lwt
