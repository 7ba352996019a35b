import Lwt.Library.Transition
import Lwt.Io.Positions

/-!
# Direct access and other threads

`direct_access` hands a record to the user's function `f`, who may keep it, set its fields and call
its `da_perform` at any time, also from other threads and without waiting for the result.  Here
`perform_io` is taken apart where it waits for the perform function (`performIo_eq`), and anything
may happen to the channel in between.

The flag `token` is cleared when `f` is fulfilled, but not when it is rejected or canceled; and what
waits for the perform function goes on when `direct_access` is over.
-/

namespace Lwt.Io.Data

open Dialogue Window Transition

/-- `perform_io` up to its call of the perform function, with the arguments of this call; `none`
when there is nothing to call. -/
def callIo : Prim (Option (ℤ × ℤ)) := do
  let w ← get
  match w.ch.state with
  | .closed => raise (closedChannel w.ch)
  | .invalid => raise (invalidChannel w.ch)
  | .idle | .waitingForBusy => raise .assertFailure
  | .busyPrimitive | .busyAtomic _ =>
    match w.ch.typ, w.ch.mode with
    | .normal, .input => do
      let size := w.ch.max - w.ch.ptr
      keepUnread w.ch.ptr size
      pure (some (size, w.ch.length - size))
    | .normal, .output => pure (some (0, w.ch.ptr))
    | .bytes, .input => pure none
    | .bytes, .output =>
      raise (.failure "cannot flush a channel created with Lwt_io.of_string")

/-- `perform_io` from the return of the perform function on. -/
def resumeIo (args : ℤ × ℤ) : Prim ℤ := do
  let n ← performOnSystem args.1 args.2
  updatePositions args.2 n

theorem performIo_eq (s : Moment) :
    performIo s = (callIo >>= fun args => args.elim (pure 0) resumeIo) s := by
  simp only [performIo, callIo, Dialogue.bind_assoc, get_bind]
  cases s.state.ch.state <;> try rfl
  all_goals
    cases s.state.ch.typ <;> cases s.state.ch.mode <;> simp only [Dialogue.bind_assoc] <;> rfl

/-! ## The calls of `da_perform` -/

/-- The promise of `direct_access`. -/
inductive AccessPromise
  | running
  /-- `f` has been fulfilled -/
  | ended (result : Except Exn Unit)
  /-- `f` has been rejected or canceled -/
  | failed (e : Exn)
  deriving DecidableEq

/-- A call of `direct_access`, with the calls of `da_perform` that wait for the perform function. -/
structure AccessState where
  world : World
  token : Bool
  da : Primitives.DirectAccess
  pending : List (ℤ × ℤ)
  promise : AccessPromise

inductive AccessEvent
  /-- the fields of the record are set -/
  | setDa (da : Primitives.DirectAccess)
  | daPerform
  /-- the perform function returns to the `i`th waiting call -/
  | returns (i : ℕ) (answer : Answer)
  | fulfilled
  | failed (e : Exn)
  /-- whatever other threads do to the channel, and `f` to its buffer -/
  | others (world : World)

namespace AccessState

/-- A promise of `da_perform`: `none` while the perform function is waited for. -/
abbrev Result : Type := Option (Except (Abnormal Exn Fault) ℤ)

def outside : Exn :=
  .failure ("Lwt_io.perform: this function can not be called outside " ++ "Lwt_io.direct_access")

/-- `perform token da ch` -/
def daPerform (s : AccessState) : Result × AccessState :=
  if s.token then
    if Primitives.misplaced s.da s.world.ch then
      (some (.error (.raised (.invalidArgument "Lwt_io.direct_access.da_perform"))), s)
    else
      match (Primitives.passTo s.da >>= fun _ => callIo) ⟨s.world, []⟩ with
      | (.ok (some args), s') =>
        (none, { s with world := s'.state, pending := s.pending ++ [args] })
      | (.ok none, s') =>
        (some (.ok 0), { s with
          world := s'.state
          da := ⟨s'.state.ch.ptr, s'.state.ch.max⟩ })
      | (.error x, s') => (some (.error x), { s with world := s'.state })
  else (some (.error (.raised outside)), s)

/-- The rest of `perform` for the call that has been waiting with `args`. -/
def returns (s : AccessState) (args : ℤ × ℤ) (answer : Answer) : Result × AccessState :=
  match resumeIo args ⟨s.world, [answer]⟩ with
  | (.ok n, s') => (some (.ok n), { s with
      world := s'.state
      da := ⟨s'.state.ch.ptr, s'.state.ch.max⟩ })
  | (.error x, s') => (some (.error x), { s with world := s'.state })

/-- The rest of `direct_access` after `f`. -/
def fulfilled (s : AccessState) : AccessState :=
  if Primitives.misplaced s.da s.world.ch then
    { s with
      token := false
      promise := .ended (.error (.failure "Lwt_io.direct_access: invalid result of [f]")) }
  else
    { s with
      token := false
      world := (Primitives.passTo s.da ⟨s.world, []⟩).2.state
      promise := .ended (.ok ()) }

def step (s : AccessState) : AccessEvent → Option AccessState
  | .setDa da => some { s with da := da }
  | .daPerform => some s.daPerform.2
  | .returns i answer =>
    s.pending[i]?.map fun args =>
      ({ s with pending := s.pending.eraseIdx i }.returns args answer).2
  | .fulfilled => if s.promise = .running then some s.fulfilled else none
  | .failed e => if s.promise = .running then some { s with promise := .failed e } else none
  | .others world => some { s with world := world }

/-- `direct_access ch f` when it calls `f`. -/
def start (w : World) : AccessState := ⟨w, true, ⟨w.ch.ptr, w.ch.max⟩, [], .running⟩

/-- `f` ends only when no call of `da_perform` is waiting, and `da_perform` is not called after `f`
has failed. -/
def Careful (s : AccessState) : AccessEvent → Prop
  | .daPerform => ∀ e, s.promise ≠ .failed e
  | .fulfilled | .failed _ => s.pending = []
  | .setDa _ | .returns _ _ | .others _ => True

end AccessState

open AccessState

variable {s t : AccessState} {w w' : World}

/-! ## A call and its return -/

/-! ## What `da_perform` may do -/

/-- `ptr` moves forward, not past `max`, and nothing else changes. -/
structure Moves (w w' : World) : Prop where
  ge : w.ch.ptr ≤ w'.ch.ptr
  le : w'.ch.ptr ≤ w.ch.max
  ch : w'.ch = { w.ch with ptr := w'.ch.ptr }
  source : w'.source = w.source
  sink : w'.sink = w.sink

theorem moves_passTo {da : Primitives.DirectAccess} {answers : List Answer}
    (hda : ¬ Primitives.misplaced da w.ch) :
    Moves w (Primitives.passTo da ⟨w, answers⟩).2.state := by
  simp only [Primitives.misplaced, not_or, not_not, Int.not_lt] at hda
  exact ⟨hda.2.1, hda.2.2, rfl, rfl, rfl⟩

/-- An access that is over. -/
structure Over (s : AccessState) : Prop where
  pending : s.promise ≠ .running → s.pending = []
  token : s.promise ≠ .running → s.token = true → ∃ e, s.promise = .failed e

theorem promise_daPerform (s : AccessState) : s.daPerform.2.promise = s.promise := by
  unfold daPerform
  split
  · split
    · rfl
    · split <;> rfl
  · rfl

theorem promise_returns (s : AccessState) (args : ℤ × ℤ) (answer : Answer) :
    (s.returns args answer).2.promise = s.promise := by
  unfold returns
  split <;> rfl

theorem daPerform_of_token (htoken : s.token = false) :
    s.daPerform = (some (.error (.raised outside)), s) := by
  simp [daPerform, htoken]

theorem Over.daPerform (h : Over s) (hover : s.promise ≠ .running)
    (hcareful : s.Careful .daPerform) :
    s.daPerform = (some (.error (.raised outside)), s) := by
  refine daPerform_of_token (Bool.eq_false_iff.mpr fun htoken => ?_)
  obtain ⟨e, he⟩ := h.token hover htoken
  exact hcareful e he

theorem Over.step {ev : AccessEvent} (h : Over s) (hcareful : s.Careful ev)
    (hstep : s.step ev = some t) : Over t := by
  cases ev with
  | setDa da =>
    cases hstep
    exact ⟨h.pending, h.token⟩
  | others world =>
    cases hstep
    exact ⟨h.pending, h.token⟩
  | daPerform =>
    cases hstep
    by_cases hover : s.promise = .running
    · have hrunning := (promise_daPerform s).trans hover
      exact ⟨fun hne => absurd hrunning hne, fun hne => absurd hrunning hne⟩
    · rwa [h.daPerform hover hcareful]
  | returns i answer =>
    obtain ⟨args, hargs, rfl⟩ := Option.map_eq_some_iff.mp hstep
    have hover : s.promise = .running := by
      by_contra hover
      rw [h.pending hover] at hargs
      cases hargs
    have hrunning := (promise_returns { s with pending := s.pending.eraseIdx i } args
      answer).trans hover
    exact ⟨fun hne => absurd hrunning hne, fun hne => absurd hrunning hne⟩
  | fulfilled =>
    obtain ⟨-, ht⟩ := Option.ite_none_right_eq_some.mp hstep
    cases ht
    unfold AccessState.fulfilled
    split
    · exact ⟨fun _ => hcareful, by simp⟩
    · exact ⟨fun _ => hcareful, by simp⟩
  | failed e =>
    obtain ⟨-, ht⟩ := Option.ite_none_right_eq_some.mp hstep
    cases ht
    exact ⟨fun _ => hcareful, fun _ _ => ⟨e, rfl⟩⟩

/-- A call with the arguments `args` is one that `perform_io` makes on the channel. -/
structure Called (args : ℤ × ℤ) (ch : RealChannel) : Prop where
  normal : ch.typ = .normal
  input : ch.mode = .input → ch.ptr = 0 ∧ args = (ch.max, ch.length - ch.max)
  output : ch.mode = .output → args = (0, ch.ptr)

/-- The part of `perform_io` before the call does not move the position. -/
theorem wp_callIo {m : Mode} {s : Moment} (h : Within m s.state.ch) :
    wp callIo (fun args s' => Touched m s s' ∧ ∀ a, args = some a → Called a s'.state.ch)
      (fun x s' => Ended True x s' ∧ s' = s) s := by
  have hmode := h.mode
  simp only [callIo, wp_bind, wp_get]
  cases s.state.ch.state with
  | closed | invalid | idle | waitingForBusy => exact ⟨.raised, rfl⟩
  | busyPrimitive | busyAtomic _ =>
    cases htyp : s.state.ch.typ with
    | bytes =>
      cases m <;> rw [hmode]
      · exact ⟨.refl h, by simp⟩
      · exact ⟨.raised, rfl⟩
    | normal =>
      cases m with
      | output =>
        rw [hmode]
        refine ⟨.refl h, ?_⟩
        rintro _ ⟨⟩
        exact ⟨htyp, by simp [hmode], fun _ => rfl⟩
      | input =>
        simp only [hmode, wp_bind]
        refine wp_mono (wp_keepUnread h.input) (fun _ s' hmoved => ?_) fun _ _ h => h
        refine ⟨⟨hmoved.consumed.passed' h, hmoved.consumed.passed⟩, ?_⟩
        rintro _ ⟨⟩
        refine ⟨hmoved.consumed.typ.trans htyp, fun _ => ⟨hmoved.ptr, ?_⟩, ?_⟩
        · rw [hmoved.max, hmoved.length]
        · simp [hmoved.consumed.input.mode]

/-- A call of `da_perform` that is not rejected: it passes `ptr` to where `f` has come to, and then
starts `perform_io`. -/
structure Performs (s t : AccessState) : Prop where
  moves : ∃ w, Moves s.world w ∧ w.ch.ptr = s.da.daPtr ∧ t.world = (callIo ⟨w, []⟩).2.state
  position : ∀ m, Within m s.world.ch → position t.world.ch =
    position s.world.ch + Int64.ofInt (s.da.daPtr - s.world.ch.ptr)

theorem world_daPerform (htoken : s.token = true) (hda : ¬ Primitives.misplaced s.da s.world.ch) :
    s.daPerform.2.world =
      (callIo ⟨(Primitives.passTo s.da ⟨s.world, []⟩).2.state, []⟩).2.state := by
  have hpass : (Primitives.passTo s.da >>= fun _ => callIo) ⟨s.world, []⟩ =
      callIo ⟨(Primitives.passTo s.da ⟨s.world, []⟩).2.state, []⟩ := rfl
  rw [AccessState.daPerform, if_pos htoken, if_neg hda, hpass]
  split <;> next hcall => rw [hcall]

theorem performs_daPerform (htoken : s.token = true)
    (hda : ¬ Primitives.misplaced s.da s.world.ch) : Performs s s.daPerform.2 := by
  refine ⟨⟨_, moves_passTo hda, rfl, world_daPerform htoken hda⟩, fun m hwithin => ?_⟩
  have hmoves : Moves s.world (Primitives.passTo s.da ⟨s.world, []⟩).2.state := moves_passTo hda
  have hin : Within m (Primitives.passTo s.da ⟨s.world, []⟩).2.state.ch := by
    have hnonneg := hwithin.nonneg
    have hge := hmoves.ge
    exact ⟨hwithin.mode, hwithin.size, by omega, hmoves.le, hwithin.max, hwithin.full,
      hwithin.bound, hwithin.offset, hwithin.noOffset⟩
  have hcall : Data.position
      (callIo ⟨(Primitives.passTo s.da ⟨s.world, []⟩).2.state, []⟩).2.state.ch =
      Data.position (Primitives.passTo s.da ⟨s.world, []⟩).2.state.ch := by
    have hwp := wp_callIo (s := ⟨(Primitives.passTo s.da ⟨s.world, []⟩).2.state, []⟩) hin
    unfold wp at hwp
    split at hwp
    · next hrun =>
        rw [hrun]
        exact hwp.1.passed.samePosition
    · next hrun => rw [hrun, hwp.2]
  rw [world_daPerform htoken hda, hcall]
  have hmode := hwithin.mode
  simp only [Data.position, Primitives.passTo, Dialogue.modify, hmode]
  cases m <;> simp only [Int64.ofInt_sub] <;> grind

theorem fulfilled_misplaced (hda : Primitives.misplaced s.da s.world.ch) :
    s.fulfilled.world = s.world ∧ s.fulfilled.promise =
      .ended (.error (.failure "Lwt_io.direct_access: invalid result of [f]")) := by
  simp [AccessState.fulfilled, hda]

theorem fulfilled_moves (hda : ¬ Primitives.misplaced s.da s.world.ch) :
    Moves s.world s.fulfilled.world ∧ s.fulfilled.world.ch.ptr = s.da.daPtr ∧
      s.fulfilled.promise = .ended (.ok ()) := by
  rw [AccessState.fulfilled, if_neg hda]
  exact ⟨moves_passTo hda, rfl, rfl⟩

/-- When `f` ends only while no call of `da_perform` is waiting, and `da_perform` is not called
after `f` has failed: once `direct_access` is over, `da_perform` fails and leaves everything as it
is.  Before, it moves `ptr` forward, as the end of `f` does, or it is rejected for a record that is
inconsistent. -/
theorem direct_access_revoked (w : World) {s t : AccessState} {ev : AccessEvent}
    (hrun : Reach AccessState.step Careful (AccessState.start w) s) (hcareful : s.Careful ev)
    (hstep : s.step ev = some t) :
    (s.promise ≠ .running →
      (ev = .daPerform → s.daPerform = (some (.error (.raised outside)), s) ∧ t = s) ∧
        ∀ i answer, ev ≠ .returns i answer) ∧
    (ev = .daPerform → s.token = true →
      (Primitives.misplaced s.da s.world.ch → s.daPerform =
        (some (.error (.raised (.invalidArgument "Lwt_io.direct_access.da_perform"))), s)) ∧
      (¬ Primitives.misplaced s.da s.world.ch → Performs s t)) ∧
    (ev = .fulfilled →
      (Primitives.misplaced s.da s.world.ch → t.world = s.world ∧ t.promise =
        .ended (.error (.failure "Lwt_io.direct_access: invalid result of [f]"))) ∧
      (¬ Primitives.misplaced s.da s.world.ch →
        Moves s.world t.world ∧ t.world.ch.ptr = s.da.daPtr ∧ t.promise = .ended (.ok ()))) := by
  have hover : Over s := hrun.invariant ⟨fun h => absurd rfl h, fun h => absurd rfl h⟩
    fun _ _ _ h hok hs => h.step hok hs
  refine ⟨fun hended => ⟨?_, ?_⟩, ?_, ?_⟩
  · rintro rfl
    cases hstep
    have hfails := hover.daPerform hended hcareful
    exact ⟨hfails, congrArg Prod.snd hfails⟩
  · rintro i answer rfl
    obtain ⟨args, hargs, -⟩ := Option.map_eq_some_iff.mp hstep
    rw [hover.pending hended] at hargs
    cases hargs
  · rintro rfl htoken
    cases hstep
    exact ⟨fun hda => by rw [AccessState.daPerform, if_pos htoken, if_pos hda],
      performs_daPerform htoken⟩
  · rintro rfl
    obtain ⟨-, ht⟩ := Option.ite_none_right_eq_some.mp hstep
    cases ht
    exact ⟨fulfilled_misplaced, fulfilled_moves⟩

/-- A channel that `direct_access` has locked, with two bytes in its buffer. -/
def lockedInput : RealChannel :=
  { makeWith .input [9, 1, 2, 0] with
    ptr := 1
    max := 3
    offset := 3
    state := .busyPrimitive }

/-- A refill by `da_perform`, a byte that is passed, and a call that comes too late. -/
theorem direct_access_revoked_after_refill :
    ∃ s : AccessState, Reach AccessState.step Careful
        (AccessState.start ⟨lockedInput, [3, 4], [], .unlimited, 0⟩) s ∧
      s.promise = .ended (.ok ()) ∧ s.world.ch.buffer = [1, 2, 3, 4] ∧ s.world.ch.ptr = 1 ∧
      s.daPerform = (some (.error (.raised outside)), s) := by
  let ready : AccessState := ⟨⟨{ lockedInput with
    buffer := [1, 2, 3, 4]
    ptr := 1
    max := 4
    offset := 5 }, [], [], .unlimited, 1⟩, false, ⟨1, 4⟩, [], .ended (.ok ())⟩
  have hrun : Reach AccessState.step Careful
      (AccessState.start ⟨lockedInput, [3, 4], [], .unlimited, 0⟩) ready :=
    .head .daPerform (by simp [Careful, AccessState.start]) rfl
      (.head (.returns 0 (.moves 7)) trivial rfl
        (.head (.setDa ⟨1, 4⟩) trivial rfl (.head .fulfilled rfl rfl .refl)))
  exact ⟨ready, hrun, rfl, rfl, rfl, ((direct_access_revoked _ hrun
    (show ready.Careful .daPerform by simp [Careful, ready]) rfl).1 (by simp [ready])).1 rfl |>.1⟩

/-- `f` is canceled, another primitive takes the channel, and a call of `da_perform` moves what this
primitive is reading. -/
theorem da_perform_after_cancel :
    ∃ s t : AccessState, Reach AccessState.step (fun _ _ => True)
        (AccessState.start ⟨lockedInput, [3, 4], [], .unlimited, 0⟩) s ∧
      s.promise = .failed (.other 0) ∧ s.step .daPerform = some t ∧
      (s.world.ch.ptr, s.world.ch.max) = (1, 3) ∧ (t.world.ch.ptr, t.world.ch.max) = (0, 2) ∧
      s.world.ch.buffer = [9, 1, 2, 0] ∧ t.world.ch.buffer = [1, 2, 2, 0] :=
  ⟨⟨⟨lockedInput, [3, 4], [], .unlimited, 0⟩, true, ⟨1, 3⟩, [], .failed (.other 0)⟩, _,
    reach_of_replay [.failed (.other 0), .others ⟨{ lockedInput with state := .idle }, [3, 4], [],
      .unlimited, 0⟩, .others ⟨lockedInput, [3, 4], [], .unlimited, 0⟩] rfl, rfl, rfl, rfl,
      rfl, rfl, rfl⟩

end Lwt.Io.Data
