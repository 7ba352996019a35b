import Lwt.Io.Access

/-!
# Sessions of a channel

The operations on a channel, one after the other.  `direct_access` is taken apart: its start, what
is done with the record that it hands out, its end, and the return of the perform function to a
`da_perform` that waits for it are operations of their own.  Who has the record may keep it when
`direct_access` is over, so that the same may happen to a record of the past.  What comes to a
record of the past while another operation waits for its own refill is not among the sessions here:
a session that meets the conditions below has nothing of the kind.

Of the channels of `of_bytes`, the position is to be set only while `max` is the length.  Of
`direct_access`, a call of `da_perform` must be over before the next one and before the end, and no
call may follow an end by a failure.
-/

namespace Lwt.Io.Data

open Dialogue Window

variable {α : Type} {m : Mode} {s s' s'' : Moment}

/-! ## Operations -/

/-- The operations of `lwt_io.ml` on a channel of a mode, `direct_access` apart.  `block` is here
with any function. -/
inductive ChannelOp : Mode → Type
  | input (op : InputOp) : ChannelOp .input
  | output (op : OutputOp) : ChannelOp .output
  | block {m : Mode} (size : ℤ) (f : List Primitives.Touch) : ChannelOp m
  | setPosition {m : Mode} (pos : Int64) : ChannelOp m
  | length {m : Mode} : ChannelOp m

namespace ChannelOp

variable (endian : Endian) (floats : Floats)

def run : ChannelOp m → Prim ChannelResult
  | input op => op.run endian floats >>= fun r => pure (.input r)
  | output op => op.run endian floats >>= fun r => pure (.output r)
  | block size f =>
    primitive (Primitives.block size fun _ => Primitives.touches f) >>= fun _ => pure .unit
  | setPosition pos => primitive (Primitives.setPosition pos) >>= fun _ => pure .unit
  | length => primitive Primitives.length >>= fun n => pure (.length n)

def NoOverflow : ChannelOp m → Prop
  | input op => op.NoOverflow
  | output op => op.NoOverflow
  | _ => True

/-- What the position is set to, `p'`, where it was `p`: it is moved by the number of bytes that
have been read or written, some of them when an operation fails; `set_position` sets it.  There
were `unread` bytes to read. -/
def Logical (op : ChannelOp m) (outcome : Except (Abnormal Exn Fault) ChannelResult)
    (unread : ℕ) (p p' : Int64) : Prop :=
  match op, outcome with
  | input op, .ok (.input r) => ∃ seg, op.Returns endian floats r seg ∧
      p' = p + Int64.ofInt seg.length
  | input _, .error _ => ∃ n : ℕ, n ≤ unread ∧ p' = p + Int64.ofInt n
  | output op, .ok (.output r) => ∃ data, op.Contributes endian floats (.ok r) data ∧
      p' = p + Int64.ofInt data.length
  | output op, .error x => ∃ data, op.Contributes endian floats (.error x) data ∧
      p' = p + Int64.ofInt data.length
  | block size _, .ok .unit => p' = p + Int64.ofInt size
  | block size _, .error _ => p' = p ∨ p' = p + Int64.ofInt size
  | setPosition pos, .ok .unit => p' = pos
  | setPosition _, .error _ | length, .error _ | length, .ok (.length _) => p' = p
  | _, _ => False

/-- On the bytes of `of_bytes`, the position is set only while `max` is the length. -/
def Careful (op : ChannelOp m) (ch : RealChannel) : Prop :=
  match op with
  | setPosition pos => ch.typ = .bytes → m = .input → 0 ≤ pos.toInt → pos.toInt ≤ ch.length →
      ch.max = ch.length
  | _ => True

instance Careful.decide : (op : ChannelOp m) → (ch : RealChannel) → Decidable (op.Careful ch)
  | setPosition pos, ch => inferInstanceAs (Decidable (ch.typ = .bytes → m = .input →
      0 ≤ pos.toInt → pos.toInt ≤ ch.length → ch.max = ch.length))
  | input _, _ | output _, _ | block _ _, _ | length, _ => instDecidableTrue

end ChannelOp

/-- An operation has left a channel in order, at the position it should have. -/
structure Settled (endian : Endian) (floats : Floats) (op : ChannelOp m)
    (outcome : Except (Abnormal Exn Fault) ChannelResult) (s s' : Moment) : Prop where
  within : Within m s'.state.ch
  logical : op.Logical endian floats outcome s.state.unread.length (position s.state.ch)
    (position s'.state.ch)

namespace ChannelOp

variable {endian : Endian} {floats : Floats} {op : ChannelOp m}

theorem wp_primitive {f : Prim α} {g : α → ChannelResult} (hidle : s.state.ch.state = .idle)
    (hf : wp f (fun a s' => s'.state.ch.state = .busyPrimitive ∧
        Settled endian floats op (.ok (g a)) s s')
      (fun x s' => Ended True x s' ∧ s'.state.ch.state = .busyPrimitive ∧
        Settled endian floats op (.error x) s s') (withState s .busyPrimitive)) :
    wp (primitive f >>= fun a => pure (g a))
      (fun r s' => Settled endian floats op (.ok r) s s' ∧ s'.state.ch.state = .idle)
      (fun x s' => Ended op.NoOverflow x s' ∧ Settled endian floats op (.error x) s s' ∧
        ∀ e, x = .raised e → s'.state.ch.state = .idle) s := by
  rw [wp_bind]
  refine Data.wp_primitive hidle (wp_mono hf ?_ ?_)
  · rintro a s' ⟨hbusy, hs⟩
    exact ⟨hbusy, ⟨hs.within.withState _, hs.logical⟩, rfl⟩
  · rintro x s' ⟨hended, hbusy, hs⟩
    refine ⟨?_, fun hno => ⟨hended.imp fun _ => trivial, hs, fun e he => absurd he (hno e)⟩⟩
    rintro e rfl
    exact ⟨hbusy, .raised, ⟨hs.within.withState _, hs.logical⟩, fun _ _ => rfl⟩

/-- Every operation leaves the channel in order. -/
theorem wp_run (endian : Endian) (floats : Floats) (op : ChannelOp m) (h : Within m s.state.ch)
    (hidle : s.state.ch.state = .idle) (hcareful : op.Careful s.state.ch) :
    wp (op.run endian floats)
      (fun r s' => Settled endian floats op (.ok r) s s' ∧ s'.state.ch.state = .idle)
      (fun x s' => Ended op.NoOverflow x s' ∧ Settled endian floats op (.error x) s s' ∧
        ∀ e, x = .raised e → s'.state.ch.state = .idle) s := by
  have hbusy : Within m (withState s .busyPrimitive).state.ch := h.withState _
  cases op with
  | input op =>
    rw [run, wp_bind]
    refine wp_mono (op.wp_run endian floats h.input hidle) ?_ ?_
    · rintro r s' ⟨seg, hreturns, hc⟩
      have hp := hc.passed' h
      exact ⟨⟨hp.within, seg, hreturns, hp.position⟩, hc.state.trans hidle⟩
    · rintro x s' ⟨⟨hended, seg, hc⟩, hidle'⟩
      have hp := hc.passed' h
      refine ⟨⟨hended.channel, hended.user, hended.waits⟩, ⟨hp.within.withState s'.state.ch.state,
        seg.length, ?_, hp.position⟩, hidle'⟩
      rw [hc.unread, List.length_append]
      exact Nat.le_add_right _ _
  | output op =>
    rw [run, wp_bind]
    refine wp_mono (op.wp_run endian floats h.output hidle) ?_ ?_
    · rintro r s' ⟨data, hdata, hw⟩
      have hp := hw.passed' h
      exact ⟨⟨hp.within, data, hdata, hp.position⟩, hw.state.trans hidle⟩
    · rintro x s' ⟨⟨hended, data, hinitial, hw⟩, hidle'⟩
      have hp := hw.passed' h
      exact ⟨⟨hended.channel, hended.user, hended.waits⟩, ⟨hp.within.withState s'.state.ch.state,
        data, hinitial, hp.position⟩, hidle'⟩
  | block size f =>
    refine wp_primitive hidle (wp_mono (wp_blockOf hbusy rfl size f) ?_ ?_)
    · exact fun _ s' hp => ⟨hp.state, hp.within, hp.position⟩
    · rintro x s' ⟨hended, hp | hp⟩
      · exact ⟨hended, hp.state, hp.within, Or.inl hp.samePosition⟩
      · exact ⟨hended, hp.state, hp.within, Or.inr hp.position⟩
  | setPosition pos =>
    refine wp_primitive hidle (wp_mono (wp_setPosition hbusy rfl pos hcareful) ?_ ?_)
    · exact fun _ s' hp => ⟨hp.state, hp.within, hp.position⟩
    · exact fun _ s' hx => ⟨hx.1, hx.2.state, hx.2.within, hx.2.samePosition⟩
  | length =>
    refine wp_primitive hidle (wp_mono (wp_length hbusy) ?_ ?_)
    · exact fun _ s' hp => ⟨hp.state, hp.within, hp.samePosition⟩
    · exact fun _ s' hx => ⟨hx.1, hx.2.state, hx.2.within, hx.2.samePosition⟩

theorem logical_same (op : ChannelOp m) (x : Abnormal Exn Fault) (unread : ℕ) (p : Int64) :
    op.Logical endian floats (.error x) unread p p := by
  cases op with
  | input op => exact ⟨0, Nat.zero_le _, by simp⟩
  | output op => exact ⟨[], List.nil_prefix, by simp⟩
  | block size f => exact Or.inl rfl
  | setPosition pos => rfl
  | length => rfl

end ChannelOp

/-! ## The parts of `direct_access` -/

/-- A call of `direct_access`: the record that it has handed out, and the calls of `da_perform` that
wait for the perform function. -/
structure AccessCall where
  token : Bool
  da : Primitives.DirectAccess
  pending : List (ℤ × ℤ)

/-- The call while its channel is in the state `w`. -/
def AccessCall.on (c : AccessCall) (w : World) : AccessState :=
  ⟨w, c.token, c.da, c.pending, .running⟩

def AccessState.call (s : AccessState) : AccessCall := ⟨s.token, s.da, s.pending⟩

/-- A channel with its calls of `direct_access`: the one that has locked it, and the earlier
ones. -/
structure Shared where
  world : World
  current : Option AccessCall
  past : List AccessCall

namespace Shared

/-- The call that has locked the channel, or the `k`th earlier one. -/
def call (s : Shared) : Option ℕ → Option AccessCall
  | none => s.current
  | some k => s.past[k]?

def setCall (s : Shared) (c : AccessCall) : Option ℕ → Shared
  | none => { s with current := some c }
  | some k => { s with past := s.past.set k c }

end Shared

abbrev Sharing (α : Type) : Type := Dialogue Shared Answer Exn Fault α

/-- `f`, which leaves the records alone. -/
def onWorld (f : Prim α) : Sharing α := fun s =>
  let r := f ⟨s.state.world, s.answers⟩
  (r.1, ⟨{ s.state with world := r.2.state }, r.2.answers⟩)

/-- A step `f` of the call `k`; who has no such call waits for ever. -/
def onCall (k : Option ℕ)
    (f : AccessState → Except (Abnormal Exn Fault) ChannelResult × AccessState) :
    Sharing ChannelResult := fun s =>
  match s.state.call k with
  | none => (.error .waiting, s)
  | some c =>
    let r := f (c.on s.state.world)
    (r.1, { s with state := { s.state with world := r.2.world }.setCall r.2.call k })

/-- What a call of `da_perform`, or the rest of it, has come to. -/
def AccessState.outcome : AccessState.Result → Except (Abnormal Exn Fault) ChannelResult
  | none | some (.ok _) => .ok .unit
  | some (.error x) => .error x

/-- What `direct_access` has come to. -/
def AccessPromise.outcome : AccessPromise → Except (Abnormal Exn Fault) ChannelResult
  | .running => .error .waiting
  | .ended (.ok ()) => .ok .unit
  | .ended (.error e) | .failed e => .error (.raised e)

/-- `direct_access` takes the lock and hands out a record. -/
def beginAccess : Sharing ChannelResult := do
  let s ← get
  match s.world.ch.state with
  | .idle => do
    modify fun s =>
      { s with
        world := { s.world with ch := { s.world.ch with state := .busyPrimitive } }
        current := some ⟨true, ⟨s.world.ch.ptr, s.world.ch.max⟩, []⟩ }
    pure .unit
  | .busyPrimitive | .busyAtomic _ | .waitingForBusy => wait
  | .closed => raise (closedChannel s.world.ch)
  | .invalid => raise (invalidChannel s.world.ch)

/-- `direct_access` comes to its end by `f`, and unlocks the channel. -/
def endAccess (f : AccessState → AccessState) : Sharing ChannelResult := fun s =>
  match s.state.current with
  | none => (.error .waiting, s)
  | some c =>
    let t := f (c.on s.state.world)
    (t.promise.outcome, ⟨⟨(unlock ⟨t.world, []⟩).2.state, none, s.state.past ++ [t.call]⟩,
      s.answers⟩)

/-- The operations on a channel.  The record `k` is that of the running `direct_access`, or one of
the past. -/
inductive SharedOp (m : Mode)
  | channel (op : ChannelOp m)
  | directAccess
  | store (ofs : ℤ) (data : List UInt8)
  | setDa (k : Option ℕ) (da : Primitives.DirectAccess)
  | daPerform (k : Option ℕ)
  /-- the perform function returns to the `i`th waiting call -/
  | returns (k : Option ℕ) (i : ℕ) (answer : Answer)
  /-- the function given to `direct_access` is fulfilled -/
  | fulfilled
  | failed (e : Exn)

namespace SharedOp

section Run

variable (endian : Endian) (floats : Floats)

def run : SharedOp m → Sharing ChannelResult
  | channel op => do
    let s ← get
    -- an operation on a channel that is in use waits for the lock
    if s.world.ch.state = .idle then onWorld (op.run endian floats) else wait
  | directAccess => beginAccess
  | store ofs data => do
    onWorld (Primitives.touch (.store ofs data))
    pure .unit
  | setDa k da => onCall k fun s => (.ok .unit, { s with da := da })
  | daPerform k => onCall k fun s => (AccessState.outcome s.daPerform.1, s.daPerform.2)
  | returns k i answer => onCall k fun s =>
    match s.pending[i]? with
    | none => (.error .waiting, s)
    | some args =>
      let r := { s with pending := s.pending.eraseIdx i }.returns args answer
      (AccessState.outcome r.1, r.2)
  | fulfilled => endAccess AccessState.fulfilled
  | failed e => endAccess fun s => { s with promise := .failed e }

def NoOverflow : SharedOp m → Prop
  | channel op => op.NoOverflow
  | _ => True

/-- What the position is set to, `p'`, where it was `p`: a call of `da_perform` and the end of
`direct_access` move it by the `passed` bytes that they make the channel pass. -/
def Logical (op : SharedOp m) (outcome : Except (Abnormal Exn Fault) ChannelResult)
    (unread : ℕ) (passed : ℤ) (p p' : Int64) : Prop :=
  match op with
  | channel op => op.Logical endian floats outcome unread p p'
  | daPerform _ | fulfilled => p' = p + Int64.ofInt passed
  | directAccess | store _ _ | setDa _ _ | returns _ _ _ | failed _ => p' = p

end Run

/-- The position of bytes is set with care; a call of `da_perform` is over before the next one and
before the end of `direct_access`, and none follows an end by a failure. -/
def Careful (op : SharedOp m) (s : Env Shared Answer) : Prop :=
  match op with
  | channel op => op.Careful s.state.world.ch
  | daPerform none | fulfilled | failed _ => ∀ c ∈ s.state.current, c.pending = []
  | daPerform (some k) => ∀ c ∈ s.state.past[k]?, c.token = false
  | directAccess | store _ _ | setDa _ _ | returns _ _ _ => True

instance Careful.decide : (op : SharedOp m) → (s : Env Shared Answer) → Decidable (op.Careful s)
  | channel op, s => inferInstanceAs (Decidable (op.Careful s.state.world.ch))
  | daPerform none, s | fulfilled, s | failed _, s =>
    inferInstanceAs (Decidable (∀ c ∈ s.state.current, c.pending = []))
  | daPerform (some k), s => inferInstanceAs (Decidable (∀ c ∈ s.state.past[k]?, c.token = false))
  | directAccess, _ | store _ _, _ | setDa _ _, _ | returns _ _ _, _ => instDecidableTrue

end SharedOp

/-! ## A call of the perform function that is waited for -/

/-- The perform function returns to the only call: `perform_io` goes on as if it had just been
called. -/
theorem performIo_called {args : ℤ × ℤ} (h : Within m s.state.ch)
    (hbusy : s.state.ch.state = .busyPrimitive) (hcalled : Called args s.state.ch) :
    performIo s = resumeIo args s := by
  have hcall : callIo s = (.ok (some args), s) := by
    refine eq_of_wp ?_
    have hmode := h.mode
    simp only [callIo, wp_bind, wp_get, hbusy, hcalled.normal, hmode]
    cases m with
    | output =>
      obtain rfl := hcalled.output hmode
      exact ⟨rfl, rfl⟩
    | input =>
      obtain ⟨hptr, rfl⟩ := hcalled.input hmode
      have hmax := h.max
      have hsize := h.size
      have hnonneg := h.le
      have hin : Inside s.state.ch.buffer 0 s.state.ch.max :=
        ⟨Int.le_refl 0, by omega, by omega⟩
      -- the unread data is at the front already
      have hsame : { s.state.ch with ptr := 0, max := s.state.ch.max } = s.state.ch := by
        rw [← hptr]
      simp only [hptr, Int.sub_zero, keepUnread, wp_bind, wp_ite, wp_update]
      refine ⟨fun _ => (wp_unsafeBlitWithin hin hin).mpr ?_, fun _ => ?_⟩
      · simp only [wp_update, withCh_ch, withCh_withCh, splice_slice]
        exact ⟨rfl, by rw [hsame]; rfl⟩
      · exact ⟨rfl, by rw [hsame]; rfl⟩
  rw [performIo_eq, Dialogue.bind_eq, hcall]
  rfl

theorem Touched.on (h : Touched m s s') (answers answers' : List Answer) :
    Touched m ⟨s.state, answers⟩ ⟨s'.state, answers'⟩ :=
  ⟨⟨h.passed.within, h.passed.position, h.passed.typ, h.passed.state⟩, h.same⟩

theorem Advanced.on (h : Advanced m s s') (answers answers' : List Answer) :
    Advanced m ⟨s.state, answers⟩ ⟨s'.state, answers'⟩ :=
  ⟨h.le, h.passed.within, h.passed.position, h.passed.typ, h.passed.state⟩

/-- What has come to an end has not left the buffer of the channel, nor that of the caller when
`inside` says that its arguments are right. -/
structure StaysInside (inside : Prop) (outcome : Except (Abnormal Exn Fault) α) : Prop where
  channel : outcome ≠ .error (.fault .channelBuffer)
  user : inside → outcome ≠ .error (.fault .userBuffer)

theorem StaysInside.ok {inside : Prop} (a : α) : StaysInside inside (.ok a) := ⟨by simp, by simp⟩

theorem StaysInside.raised {inside : Prop} (e : Exn) :
    StaysInside inside (.error (.raised e) : Except (Abnormal Exn Fault) α) := ⟨by simp, by simp⟩

theorem StaysInside.waiting {inside : Prop} :
    StaysInside inside (.error .waiting : Except (Abnormal Exn Fault) α) := ⟨by simp, by simp⟩

theorem Ended.stays {inside inside' : Prop} {x : Abnormal Exn Fault} (h : Ended inside x s)
    (himp : inside' → inside) : StaysInside inside' (.error x : Except (Abnormal Exn Fault) α) :=
  ⟨fun hx => h.channel (Except.error.inj hx), fun hin hx => h.user (himp hin) (Except.error.inj hx)⟩

/-- The calls that wait for the perform function: one at most, and nothing has happened since it was
made. -/
def Waits (pending : List (ℤ × ℤ)) (ch : RealChannel) : Prop :=
  pending = [] ∨ ∃ args, pending = [args] ∧ Called args ch

/-- A call of `da_perform`. -/
structure Starts (m : Mode) (s t : AccessState) (r : AccessState.Result) : Prop where
  advanced : Advanced m ⟨s.world, []⟩ ⟨t.world, []⟩
  token : t.token = s.token
  waits : Waits t.pending t.world.ch
  stays : ∀ inside, StaysInside inside (AccessState.outcome r)

theorem starts_daPerform {s : AccessState} (h : Within m s.world.ch) (htoken : s.token = true)
    (hpending : s.pending = []) : Starts m s s.daPerform.2 s.daPerform.1 := by
  unfold AccessState.daPerform
  rw [if_pos htoken]
  split
  · exact ⟨.refl (s := ⟨s.world, []⟩) h, rfl, .inl hpending, fun _ => .raised _⟩
  · next hda =>
      have hpass := wp_passTo (s := ⟨s.world, []⟩) (A := fun _ _ => False) h hda
      have hwp : wp (Primitives.passTo s.da >>= fun _ => callIo)
          (fun args s' => Advanced m ⟨s.world, []⟩ s' ∧ ∀ a, args = some a → Called a s'.state.ch)
          (fun x s' => Ended True x s' ∧ Advanced m ⟨s.world, []⟩ s') ⟨s.world, []⟩ := by
        rw [wp_bind]
        refine wp_mono hpass (fun _ s1 ha => ?_) fun _ _ hx => hx.elim
        exact wp_mono (wp_callIo ha.passed.within)
          (fun _ _ hc => ⟨ha.trans hc.1.advanced, hc.2⟩) fun _ _ hx => ⟨hx.1, hx.2 ▸ ha⟩
      unfold wp at hwp
      rcases hrun : (Primitives.passTo s.da >>= fun _ => callIo) ⟨s.world, []⟩ with
        ⟨x | (_ | args), s'⟩ <;> simp only [hrun] at hwp
      · exact ⟨hwp.2.on [] [], rfl, .inl hpending, fun _ => hwp.1.stays fun _ => trivial⟩
      · exact ⟨hwp.1.on [] [], rfl, .inl hpending, fun _ => .ok _⟩
      · refine ⟨hwp.1.on [] [], rfl, .inr ⟨args, ?_, hwp.2 args rfl⟩, fun _ => .ok _⟩
        simp [hpending]

/-- The rest of a call of `da_perform`. -/
structure Resumes (m : Mode) (s t : AccessState) (r : AccessState.Result) : Prop where
  touched : Touched m ⟨s.world, []⟩ ⟨t.world, []⟩
  token : t.token = s.token
  pending : t.pending = s.pending
  stays : ∀ inside, StaysInside inside (AccessState.outcome r)

theorem resumes_returns {s : AccessState} {args : ℤ × ℤ} (h : Within m s.world.ch)
    (hbusy : s.world.ch.state = .busyPrimitive) (hcalled : Called args s.world.ch)
    (answer : Answer) : Resumes m s (s.returns args answer).2 (s.returns args answer).1 := by
  have hwp := wp_performIo (s := ⟨s.world, [answer]⟩) h hbusy
  unfold wp at hwp
  rw [performIo_called (s := ⟨s.world, [answer]⟩) h hbusy hcalled] at hwp
  unfold AccessState.returns
  rcases hrun : resumeIo args ⟨s.world, [answer]⟩ with ⟨x | n, s'⟩ <;> simp only [hrun] at hwp ⊢
  · exact ⟨hwp.2.on [] [], rfl, rfl, fun _ => hwp.1.stays fun _ => trivial⟩
  · exact ⟨hwp.on [] [], rfl, rfl, fun _ => .ok _⟩

theorem advanced_fulfilled {s : AccessState} (h : Within m s.world.ch) :
    Advanced m ⟨s.world, []⟩ ⟨s.fulfilled.world, []⟩ := by
  unfold AccessState.fulfilled
  split
  · exact .refl (s := ⟨s.world, []⟩) h
  · next hda =>
      have hpass := wp_passTo (s := ⟨s.world, []⟩) (A := fun _ _ => False) h hda
      exact Advanced.on hpass [] []

/-! ## Every operation leaves the channel in order -/

/-- A channel with its calls of `direct_access`, between two operations. -/
structure Held (m : Mode) (s : Shared) : Prop where
  within : Within m s.world.ch
  idle : s.current = none → s.world.ch.state = .idle
  busy : ∀ c ∈ s.current, s.world.ch.state = .busyPrimitive ∧ c.token = true
  waits : ∀ c ∈ s.current, Waits c.pending s.world.ch
  past : ∀ c ∈ s.past, c.pending = []

/-- An operation has left a channel in order, at the position it should have; it is in order for the
next operation too when the session goes on. -/
structure Leaves (endian : Endian) (floats : Floats) (op : SharedOp m)
    (outcome : Except (Abnormal Exn Fault) ChannelResult) (s s' : Shared) : Prop where
  within : Within m s'.world.ch
  logical : op.Logical endian floats outcome s.world.unread.length
    (s'.world.passed - s.world.passed) (position s.world.ch) (position s'.world.ch)
  stays : StaysInside op.NoOverflow outcome
  held : (∀ x, outcome = .error x → ∃ e, x = .raised e) → Held m s'

theorem wp_onWorld {f : Prim α} {e : Env Shared Answer} {Q : α → Env Shared Answer → Prop}
    {A : Abnormal Exn Fault → Env Shared Answer → Prop} :
    wp (onWorld f) Q A e ↔
      wp f (fun a s => Q a ⟨{ e.state with world := s.state }, s.answers⟩)
        (fun x s => A x ⟨{ e.state with world := s.state }, s.answers⟩)
        ⟨e.state.world, e.answers⟩ := by
  unfold wp onWorld
  rcases f ⟨e.state.world, e.answers⟩ with ⟨x | a, s⟩ <;> exact Iff.rfl

namespace SharedOp

variable {endian : Endian} {floats : Floats} {e : Env Shared Answer}

/-- The operation leaves the channel in order. -/
def Orderly (endian : Endian) (floats : Floats) (op : SharedOp m) (e : Env Shared Answer) : Prop :=
  wp (op.run endian floats) (fun r e' => Leaves endian floats op (.ok r) e.state e'.state)
    (fun x e' => Leaves endian floats op (.error x) e.state e'.state) e

theorem orderly_channel (h : Held m e.state) (op : ChannelOp m)
    (hcareful : op.Careful e.state.world.ch) : Orderly endian floats (.channel op) e := by
  simp only [Orderly, run, wp_bind, wp_get, wp_ite, wp_wait]
  refine ⟨fun hidle => wp_onWorld.mpr ?_, fun _ =>
    ⟨h.within, op.logical_same _ _ _, .waiting, fun _ => h⟩⟩
  have hnone : e.state.current = none := by
    by_contra hne
    obtain ⟨c, hc⟩ := Option.ne_none_iff_exists'.mp hne
    have hbusy := (h.busy c hc).1
    rw [hidle] at hbusy
    cases hbusy
  have hheld : ∀ {s : Moment}, Within m s.state.ch → s.state.ch.state = .idle →
      Held m { e.state with world := s.state } := by
    intro s hwithin hidle
    exact ⟨hwithin, fun _ => hidle, by simp [hnone], by simp [hnone], h.past⟩
  refine wp_mono (op.wp_run endian floats (s := ⟨e.state.world, e.answers⟩) h.within hidle hcareful)
    ?_ ?_
  · rintro r s' ⟨hs, hidle'⟩
    exact ⟨hs.within, hs.logical, .ok _, fun _ => hheld hs.within hidle'⟩
  · rintro x s' ⟨hended, hs, hidle'⟩
    refine ⟨hs.within, hs.logical, hended.stays id, fun hraised => ?_⟩
    obtain ⟨exn, hx⟩ := hraised x rfl
    exact hheld hs.within (hidle' exn hx)

theorem orderly_directAccess (h : Held m e.state) :
    Orderly endian floats (.directAccess : SharedOp m) e := by
  have hw := h.within
  simp only [Orderly, run, beginAccess, wp_bind, wp_get]
  cases hcurrent : e.state.current with
  | none =>
    rw [h.idle hcurrent]
    simp only [wp_bind, wp_modify, wp_pure]
    have hwithin : Within m { e.state.world.ch with state := .busyPrimitive } :=
      Within.withState (s := ⟨e.state.world, []⟩) hw .busyPrimitive
    exact ⟨hwithin, rfl, .ok _, fun _ => ⟨hwithin, by simp, by simp, by simp [Waits], h.past⟩⟩
  | some c =>
    rw [(h.busy c hcurrent).1]
    exact ⟨hw, rfl, .waiting, fun _ => h⟩

theorem orderly_store (h : Held m e.state) (ofs : ℤ) (data : List UInt8) :
    Orderly endian floats (.store ofs data : SharedOp m) e := by
  have hw := h.within
  simp only [Orderly, run, wp_bind, wp_onWorld, Primitives.touch, wp_get, wp_ite, wp_update,
    wp_raise, wp_pure]
  refine ⟨fun hin => ?_, fun _ => ⟨hw, rfl, .raised _, fun _ => h⟩⟩
  have hwithin : Within m
      { e.state.world.ch with buffer := splice e.state.world.ch.buffer ofs data } :=
    ⟨hw.mode, hw.size.trans (congrArg _ (length_splice hin).symm), hw.nonneg, hw.le, hw.max,
      hw.full, hw.bound, hw.offset, hw.noOffset⟩
  refine ⟨hwithin, rfl, .ok _, fun _ => ⟨hwithin, h.idle, h.busy, fun c hc => ?_, h.past⟩⟩
  obtain hnone | ⟨args, hargs, hcalled⟩ := h.waits c hc
  · exact .inl hnone
  · exact .inr ⟨args, hargs, hcalled.normal, hcalled.input, hcalled.output⟩

/-! ### The records -/

/-- What a step of a record has to meet; who has no such record waits for ever. -/
theorem wp_onCall {k : Option ℕ} (op : SharedOp m) (h : Held m e.state)
    {f : AccessState → Except (Abnormal Exn Fault) ChannelResult × AccessState}
    (hnone : op.Logical endian floats (.error .waiting) e.state.world.unread.length
      (e.state.world.passed - e.state.world.passed) (position e.state.world.ch)
      (position e.state.world.ch))
    (hsome : ∀ c, e.state.call k = some c →
      Leaves endian floats op (f (c.on e.state.world)).1 e.state
        ({ e.state with world := (f (c.on e.state.world)).2.world }.setCall
          (f (c.on e.state.world)).2.call k)) :
    wp (onCall k f) (fun r e' => Leaves endian floats op (.ok r) e.state e'.state)
      (fun x e' => Leaves endian floats op (.error x) e.state e'.state) e := by
  unfold wp onCall
  cases hk : e.state.call k with
  | none => exact ⟨h.within, hnone, .waiting, fun _ => h⟩
  | some c =>
    have hc := hsome c hk
    rcases hf : f (c.on e.state.world) with ⟨x | r, t⟩ <;> simpa only [hf] using hc

theorem held_setCall_none {s : Shared} {t : AccessState} (h : Held m s)
    (hwithin : Within m t.world.ch) (hbusy : t.world.ch.state = .busyPrimitive)
    (htoken : t.token = true) (hwaits : Waits t.pending t.world.ch) :
    Held m ({ s with world := t.world }.setCall t.call none) := by
  refine ⟨hwithin, by simp [Shared.setCall], ?_, ?_, h.past⟩
  · rintro _ ⟨⟩
    exact ⟨hbusy, htoken⟩
  · rintro _ ⟨⟩
    exact hwaits

theorem held_setCall_some {s : Shared} {t : AccessState} {k : ℕ} (h : Held m s)
    (hworld : t.world = s.world) (hpending : t.pending = []) :
    Held m ({ s with world := t.world }.setCall t.call (some k)) := by
  rw [hworld]
  refine ⟨h.within, h.idle, h.busy, h.waits, fun c hc => ?_⟩
  obtain hc | rfl := List.mem_or_eq_of_mem_set hc
  · exact h.past c hc
  · exact hpending

theorem pending_past {s : Shared} {c : AccessCall} {k : ℕ} (h : Held m s)
    (hc : s.call (some k) = some c) : c.pending = [] :=
  h.past c (List.mem_of_getElem? hc)

/-- A step of a record that leaves the channel alone. -/
theorem leaves_setCall (op : SharedOp m) {s : Shared} {c : AccessCall} {t : AccessState}
    {k : Option ℕ} {outcome : Except (Abnormal Exn Fault) ChannelResult} (h : Held m s)
    (hc : s.call k = some c) (hworld : t.world = s.world) (htoken : t.token = c.token)
    (hpending : t.pending = c.pending)
    (hlogical : op.Logical endian floats outcome s.world.unread.length
      (s.world.passed - s.world.passed) (position s.world.ch) (position s.world.ch))
    (hstays : StaysInside op.NoOverflow outcome) :
    Leaves endian floats op outcome s ({ s with world := t.world }.setCall t.call k) := by
  have hheld : Held m ({ s with world := t.world }.setCall t.call k) := by
    cases k with
    | none =>
      obtain ⟨hbusy, htrue⟩ := h.busy c hc
      refine held_setCall_none h (hworld ▸ h.within) (hworld ▸ hbusy) (htoken.trans htrue) ?_
      rw [hpending, hworld]
      exact h.waits c hc
    | some k => exact held_setCall_some h hworld (hpending.trans (pending_past h hc))
  refine ⟨hheld.within, ?_, hstays, fun _ => hheld⟩
  cases k <;> simpa only [Shared.setCall, hworld] using hlogical

theorem orderly_setDa (h : Held m e.state) (k : Option ℕ) (da : Primitives.DirectAccess) :
    Orderly endian floats (.setDa k da : SharedOp m) e := by
  rw [Orderly, run]
  exact wp_onCall (.setDa k da) h rfl fun c hc =>
    leaves_setCall (.setDa k da) h hc rfl rfl rfl rfl (.ok _)

theorem orderly_daPerform (h : Held m e.state) (k : Option ℕ)
    (hcareful : (daPerform k : SharedOp m).Careful e) :
    Orderly endian floats (.daPerform k : SharedOp m) e := by
  rw [Orderly, run]
  refine wp_onCall (.daPerform k) h (by simp [Logical]) fun c hc => ?_
  cases k with
  | some k =>
    have hfails := daPerform_of_token (s := c.on e.state.world) (hcareful c hc)
    simp only [hfails]
    exact leaves_setCall (.daPerform (some k)) h hc rfl rfl rfl (by simp [Logical]) (.raised _)
  | none =>
    obtain ⟨hbusy, htrue⟩ := h.busy c hc
    obtain ⟨hadvanced, htoken, hwaits, hstays⟩ := starts_daPerform (s := c.on e.state.world)
      h.within htrue (hcareful c hc)
    have hpassed := hadvanced.passed
    exact ⟨hpassed.within, hpassed.position, hstays _, fun _ => held_setCall_none h hpassed.within
      (hpassed.state.trans hbusy) (htoken.trans htrue) hwaits⟩

theorem orderly_returns (h : Held m e.state) (k : Option ℕ) (i : ℕ) (answer : Answer) :
    Orderly endian floats (.returns k i answer : SharedOp m) e := by
  rw [Orderly, run]
  refine wp_onCall (.returns k i answer) h rfl fun c hc => ?_
  cases hargs : c.pending[i]? with
  | none =>
    simp only [show (c.on e.state.world).pending[i]? = none from hargs]
    exact leaves_setCall (.returns k i answer) h hc rfl rfl rfl rfl .waiting
  | some args =>
    simp only [show (c.on e.state.world).pending[i]? = some args from hargs]
    cases k with
    | some k =>
      rw [pending_past h hc] at hargs
      cases hargs
    | none =>
      obtain ⟨hbusy, htrue⟩ := h.busy c hc
      obtain hnil | ⟨args', hone, hcalled⟩ := h.waits c hc
      · rw [hnil] at hargs
        cases hargs
      · -- the call that returns is the only one
        obtain rfl : i = 0 := by
          by_contra hi
          rw [hone, List.getElem?_eq_none (by simp; omega)] at hargs
          cases hargs
        obtain rfl : args' = args := by simpa [hone] using hargs
        obtain ⟨htouched, htoken, hpending, hstays⟩ := resumes_returns
          (s := { c.on e.state.world with pending := (c.on e.state.world).pending.eraseIdx 0 })
          h.within hbusy hcalled answer
        have hpassed := htouched.passed
        refine ⟨hpassed.within, hpassed.samePosition, hstays _, fun _ => held_setCall_none h
          hpassed.within (hpassed.state.trans hbusy) (htoken.trans htrue) ?_⟩
        rw [hpending]
        exact .inl (by simp [AccessCall.on, hone])

/-! ### The end of `direct_access` -/

theorem unlock_busy {w : World} (hbusy : w.ch.state = .busyPrimitive) :
    (unlock ⟨w, []⟩).2.state = { w with ch := { w.ch with state := .idle } } := by
  simp only [unlock, get_bind, hbusy]
  rfl

theorem stays_promise (p : AccessPromise) (inside : Prop) : StaysInside inside p.outcome := by
  cases p with
  | running => exact .waiting
  | ended r =>
    cases r with
    | ok u => exact .ok _
    | error e => exact .raised e
  | failed e => exact .raised e

/-- What the end of the running `direct_access` has to meet; who has none waits for ever. -/
theorem wp_endAccess (op : SharedOp m) (h : Held m e.state) {f : AccessState → AccessState}
    (hcareful : ∀ c ∈ e.state.current, c.pending = [])
    (hnone : op.Logical endian floats (.error .waiting) e.state.world.unread.length
      (e.state.world.passed - e.state.world.passed) (position e.state.world.ch)
      (position e.state.world.ch))
    (hf : ∀ c ∈ e.state.current, (f (c.on e.state.world)).pending = c.pending ∧
      Advanced m ⟨e.state.world, []⟩ ⟨(f (c.on e.state.world)).world, []⟩ ∧
      op.Logical endian floats (f (c.on e.state.world)).promise.outcome e.state.world.unread.length
        ((f (c.on e.state.world)).world.passed - e.state.world.passed) (position e.state.world.ch)
        (position (f (c.on e.state.world)).world.ch)) :
    wp (endAccess f) (fun r e' => Leaves endian floats op (.ok r) e.state e'.state)
      (fun x e' => Leaves endian floats op (.error x) e.state e'.state) e := by
  unfold wp endAccess
  cases hc : e.state.current with
  | none => exact ⟨h.within, hnone, .waiting, fun _ => h⟩
  | some c =>
    obtain ⟨hpending, hadvanced, hlogical⟩ := hf c hc
    have hpassed := hadvanced.passed
    have hunlock := unlock_busy (hpassed.state.trans (h.busy c hc).1)
    have hwithin : Within m { (f (c.on e.state.world)).world.ch with state := .idle } :=
      hpassed.within.withState .idle
    have hleaves : Leaves endian floats op (f (c.on e.state.world)).promise.outcome e.state
        ⟨(unlock ⟨(f (c.on e.state.world)).world, []⟩).2.state, none,
          e.state.past ++ [(f (c.on e.state.world)).call]⟩ := by
      rw [hunlock]
      refine ⟨hwithin, hlogical, stays_promise _ _, fun _ =>
        ⟨hwithin, fun _ => rfl, by simp, by simp, fun c' hc' => ?_⟩⟩
      rcases List.mem_append.mp hc' with hc' | hc'
      · exact h.past c' hc'
      · obtain rfl := List.mem_singleton.mp hc'
        exact hpending.trans (hcareful c hc)
    revert hleaves
    simp only
    cases (f (c.on e.state.world)).promise.outcome <;> exact id

theorem orderly_fulfilled (h : Held m e.state)
    (hcareful : (fulfilled : SharedOp m).Careful e) :
    Orderly endian floats (.fulfilled : SharedOp m) e := by
  rw [Orderly, run]
  refine wp_endAccess .fulfilled h hcareful (by simp [Logical]) fun c _ => ?_
  have hadvanced := advanced_fulfilled (s := c.on e.state.world) h.within
  refine ⟨?_, hadvanced, hadvanced.passed.position⟩
  unfold AccessState.fulfilled
  split <;> rfl

theorem orderly_failed (h : Held m e.state) (exn : Exn)
    (hcareful : (failed exn : SharedOp m).Careful e) :
    Orderly endian floats (.failed exn : SharedOp m) e := by
  rw [Orderly, run]
  exact wp_endAccess (.failed exn) h hcareful rfl fun c _ =>
    ⟨rfl, .refl (s := ⟨e.state.world, []⟩) h.within, rfl⟩

theorem orderly (h : Held m e.state) (op : SharedOp m) (hcareful : op.Careful e) :
    Orderly endian floats op e := by
  cases op with
  | channel op => exact orderly_channel h op hcareful
  | directAccess => exact orderly_directAccess h
  | store ofs data => exact orderly_store h ofs data
  | setDa k da => exact orderly_setDa h k da
  | daPerform k => exact orderly_daPerform h k hcareful
  | returns k i answer => exact orderly_returns h k i answer
  | fulfilled => exact orderly_fulfilled h hcareful
  | failed exn => exact orderly_failed h exn hcareful

end SharedOp

/-! ## Sessions -/

variable {endian : Endian} {floats : Floats}

/-- What has happened to a channel. -/
abbrev ChannelHistory (m : Mode) : Type :=
  List (Entry Shared Answer Exn Fault (SharedOp m) ChannelResult)

/-- The logical position after a history that started in the state `first`. -/
inductive Tracked (endian : Endian) (floats : Floats) (first : Shared) :
    ChannelHistory m → Shared → Int64 → Prop
  | start : Tracked endian floats first [] first 0
  | step {past : ChannelHistory m} {s : Shared} {p p' : Int64}
      {e : Entry Shared Answer Exn Fault (SharedOp m) ChannelResult} :
      Tracked endian floats first past s p →
      e.op.Logical endian floats e.outcome s.world.unread.length
        (e.after.state.world.passed - s.world.passed) p p' →
      Tracked endian floats first (past ++ [e]) e.after.state p'

/-- A channel in order: it is at its logical position, and no access has been outside. -/
structure InOrder (endian : Endian) (floats : Floats) (first : Shared) (past : ChannelHistory m)
    (s : Shared) : Prop where
  within : Within m s.world.ch
  tracked : Tracked endian floats first past s (position s.world.ch)
  inside : ∀ e ∈ past, StaysInside e.op.NoOverflow e.outcome

theorem InOrder.append {first : Shared} {past : ChannelHistory m} {s : Shared} {op : SharedOp m}
    {outcome : Except (Abnormal Exn Fault) ChannelResult} {e : Env Shared Answer}
    (h : InOrder endian floats first past s)
    (hleaves : Leaves endian floats op outcome s e.state) :
    InOrder endian floats first (past ++ [⟨op, outcome, e⟩]) e.state := by
  refine ⟨hleaves.within, .step h.tracked hleaves.logical, fun e he => ?_⟩
  rcases List.mem_append.mp he with he | he
  · exact h.inside e he
  · obtain rfl := List.mem_singleton.mp he
    exact hleaves.stays

theorem InOrder.step {first : Shared} {past : ChannelHistory m} {e : Env Shared Answer}
    (h : InOrder endian floats first past e.state) (hheld : Held m e.state) (op : SharedOp m)
    (hcareful : op.Careful e) :
    wp (op.run endian floats)
      (fun r e' => InOrder endian floats first (past ++ [⟨op, .ok r, e'⟩]) e'.state ∧
        Held m e'.state)
      (fun x e' => InOrder endian floats first (past ++ [⟨op, .error x, e'⟩]) e'.state ∧
        ∀ exn, x = .raised exn →
          InOrder endian floats first (past ++ [⟨op, .error x, e'⟩]) e'.state ∧ Held m e'.state)
      e := by
  refine wp_mono (SharedOp.orderly hheld op hcareful) (fun r e' hleaves => ?_)
    fun x e' hleaves => ?_
  · exact ⟨h.append hleaves, hleaves.held (by simp)⟩
  · refine ⟨h.append hleaves, ?_⟩
    rintro exn rfl
    exact ⟨h.append hleaves, hleaves.held fun x hx => ⟨exn, (Except.error.inj hx).symm⟩⟩

/-- A channel before its first operation. -/
def share (ch : RealChannel) (source : List UInt8) (platform : Platform) (answers : List Answer) :
    Env Shared Answer :=
  ⟨⟨(start ch source platform answers).state, none, []⟩, answers⟩

/-- In every run in which the position of the bytes of `of_bytes` is set only while `max` is their
length, and in which a call of `da_perform` is over before the next one and before the end of
`direct_access` and follows no end by a failure, the integers of the channel are in order between
operations, the position is the logical one, and no access is outside the buffer. -/
theorem channel_stays_in_order (endian : Endian) (floats : Floats) (ch : RealChannel)
    (source : List UInt8) (hmade : Made m ch source) (platform : Platform) (answers : List Answer)
    (ops : List (SharedOp m))
    (hcareful : Along (SharedOp.run endian floats) (fun op e => op.Careful e) ops
      (share ch source platform answers)) :
    let r := session (SharedOp.run endian floats) ops (share ch source platform answers)
    let last := r.2.state.world.ch
    (0 ≤ last.ptr ∧ last.ptr ≤ last.max ∧ last.max ≤ last.length ∧
        last.length = last.buffer.length ∧ (m = .output → last.max = last.length)) ∧
      Tracked endian floats (share ch source platform answers).state r.1 r.2.state (position last) ∧
      ∀ e ∈ r.1, e.outcome ≠ .error (.fault .channelBuffer) ∧
        (e.op.NoOverflow → e.outcome ≠ .error (.fault .userBuffer)) := by
  obtain ⟨hwithin, hposition, hidle⟩ := hmade.within
  have hheld : Held m (share ch source platform answers).state :=
    ⟨hwithin, fun _ => hidle, by simp [share], by simp [share], by simp [share]⟩
  have hstart : InOrder endian floats (share ch source platform answers).state []
      (share ch source platform answers).state :=
    ⟨hwithin, by simpa only [share, start, hposition] using Tracked.start, by simp⟩
  have horder := session_rule_along
    (fun past e => InOrder endian floats (share ch source platform answers).state past e.state ∧
      Held m e.state)
    (fun past e => InOrder endian floats (share ch source platform answers).state past e.state)
    (fun _ _ h => h.1) (fun _ _ op h hC => h.1.step h.2 op hC) ops [] _ ⟨hstart, hheld⟩ hcareful
  have hw := horder.within
  exact ⟨⟨hw.nonneg, hw.le, hw.max, hw.size, hw.full⟩, horder.tracked, fun e he =>
    ⟨(horder.inside e he).channel, (horder.inside e he).user⟩⟩

/-- The bytes are read a second time, from the first one, which `direct_access` passes. -/
theorem channel_stays_in_order_when_rewound :
    let s := share (ofBytes .input [7, 8, 9]) [] .unlimited []
    let ops : List (SharedOp .input) := [.channel (.input (.read (some 2))),
      .channel (.setPosition 0), .directAccess, .daPerform none, .setDa none ⟨1, 3⟩, .fulfilled,
      .channel (.input .readChar)]
    let r := session (SharedOp.run littleEndian zeroFloats) ops s
    r.1.map (·.outcome) = [.ok (.input (.bytes [7, 8])), .ok .unit, .ok .unit, .ok .unit, .ok .unit,
        .ok .unit, .ok (.input (.char 8))] ∧
      (0 ≤ r.2.state.world.ch.ptr ∧ r.2.state.world.ch.ptr ≤ r.2.state.world.ch.max ∧
        r.2.state.world.ch.max ≤ r.2.state.world.ch.length ∧
        r.2.state.world.ch.length = r.2.state.world.ch.buffer.length ∧
        (Mode.input = .output → r.2.state.world.ch.max = r.2.state.world.ch.length)) :=
  ⟨by decide +kernel, (channel_stays_in_order littleEndian zeroFloats (ofBytes .input [7, 8, 9]) []
    (.ofBytes .input [7, 8, 9] (by decide)) .unlimited []
    [.channel (.input (.read (some 2))), .channel (.setPosition 0), .directAccess, .daPerform none,
      .setDa none ⟨1, 3⟩, .fulfilled, .channel (.input .readChar)] (by decide +kernel)).1⟩

/-- A `read` at the end of the bytes sets `max` to 0, `set_position` then sets `ptr` past it, and
`read_char` runs through the buffer to the end and past it. -/
theorem set_position_leaves_the_buffer :
    let run : List (ChannelOp .input) → _ := fun ops =>
      session (SharedOp.run littleEndian zeroFloats) (ops.map .channel)
        (share (ofBytes .input [7, 8, 9]) [] .unlimited [])
    let ends : List (ChannelOp .input) :=
      [.input (.read (some 3)), .input (.read (some 1)), .setPosition 2]
    ((run ends).2.state.world.ch.ptr = 2 ∧ (run ends).2.state.world.ch.max = 0 ∧
      position (run ends).2.state.world.ch = 5) ∧
    (run (ends ++ [.input .readChar, .input .readChar])).1.map (·.outcome) =
      [.ok (.input (.bytes [7, 8, 9])), .ok (.input (.bytes [])), .ok .unit, .ok (.input (.char 9)),
        .error (.fault .channelBuffer)] := by
  decide +kernel

/-- A refill that `direct_access` has not waited for comes after that of a `read_char`: both have
been given the whole buffer. -/
theorem late_refill_leaves_the_buffer :
    let s := share (makeWith .input (List.replicate 16 0))
      (List.replicate 32 7) .unlimited [.moves 16]
    let ops : List (SharedOp .input) := [.directAccess, .daPerform none, .fulfilled,
      .channel (.input .readChar), .returns (some 0) 0 (.moves 16)]
    let r := session (SharedOp.run littleEndian zeroFloats) ops s
    r.2.state.world.ch.max = 32 ∧ r.2.state.world.ch.length = 16 := by
  decide +kernel

end Lwt.Io.Data
