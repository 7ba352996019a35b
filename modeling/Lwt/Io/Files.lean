import Lwt.Library.Cursor
import Lwt.Io.Positions
import Lwt.Io.EndOfFile

/-!
# Channels on files

A channel whose perform and seek functions act on one file with an offset, as `of_fd` makes it.
While an operation runs that does not seek, what follows the offset is the source of an input
channel, and what goes to the sink of an output channel is written there (`onFile`).  `set_position`
and `length` are given again, here with the arguments of the seek function.

The buffer is invisible: a channel does what a plain cursor does (`Plain`), with the offset of the
file ahead of it by the unread bytes, or behind it by the bytes that are still to be written
(`Backed`).
-/

namespace Lwt.Io.Data

open Dialogue Window

structure FileWorld where
  ch : RealChannel
  file : Cursor UInt8
  platform : Platform

abbrev FilePrim (α : Type) : Type := Dialogue FileWorld Answer Exn Fault α

abbrev FileMoment : Type := Env FileWorld Answer

/-- The file as the source of a channel, with an empty sink. -/
def asSource (s : FileMoment) : Moment :=
  ⟨⟨s.state.ch, s.state.file.rest, [], s.state.platform, 0⟩, s.answers⟩

/-- The file after its reads or its writes, where the source and the sink have become those of
`s'`. -/
def after (s : FileMoment) (s' : Moment) : FileMoment :=
  ⟨⟨s'.state.ch,
    match s.state.ch.mode with
    | .input => s.state.file.moveTo
        (s.state.file.offset + s.state.file.rest.length - s'.state.source.length)
    | .output => s.state.file.write s'.state.sink,
    s.state.platform⟩, s'.answers⟩

/-- Code that does not seek. -/
def onFile {α : Type} (t : Prim α) : FilePrim α := fun s =>
  let (r, s') := t (asSource s)
  (r, after s s')

def updateOnFile (f : RealChannel → RealChannel) : FilePrim Unit :=
  modify fun w => { w with ch := f w.ch }

inductive SeekCommand
  | seekSet
  | seekEnd

/-- `Unix_error (EINVAL, _, _)` and `Unix_error (EOVERFLOW, _, _)` -/
def seekError : Exn := .other 22

/-- `LargeFile.lseek` -/
def lseek (pos : Int64) (cmd : SeekCommand) : FilePrim Int64 := do
  let w ← get
  let target := pos.toInt + match cmd with
    | .seekSet => (0 : ℤ)
    | .seekEnd => (w.file.content.length : ℤ)
  if target < 0 ∨ target ≥ 2 ^ 63 then raise seekError
  else do
    modify fun w => { w with file := w.file.moveTo target.toNat }
    pure (Int64.ofInt target)

namespace OnFile

def doSeek (funName : String) (pos : Int64) : FilePrim Unit := do
  let offset ← lseek pos .seekSet
  if offset ≠ pos then raise (.failure ("Lwt_io." ++ funName ++ ": seek failed")) else pure ()

def setPosition (pos : Int64) : FilePrim Unit := do
  let w ← get
  match w.ch.typ, w.ch.mode with
  | .normal, .output => do
    onFile flushTotal
    doSeek "set_position" pos
    updateOnFile fun ch => { ch with offset := pos }
  | .normal, .input =>
    if pos ≥ w.ch.offset - Int64.ofInt (w.ch.max - w.ch.ptr) ∧ pos ≤ w.ch.offset then
      updateOnFile fun ch => { ch with ptr := ch.max - (ch.offset - pos).toInt }
    else do
      doSeek "set_position" pos
      updateOnFile fun ch => { ch with offset := pos, ptr := 0, max := 0 }
  | .bytes, _ =>
    if pos < 0 ∨ pos > Int64.ofInt w.ch.length then
      raise (.failure "Lwt_io.set_position: out of bounds")
    else updateOnFile fun ch => { ch with ptr := pos.toInt }

def length : FilePrim Int64 := do
  let w ← get
  match w.ch.typ with
  | .normal => do
    let len ← lseek 0 .seekEnd
    doSeek "length" w.ch.offset
    pure len
  | .bytes => pure (Int64.ofInt w.ch.length)

/-- `primitive`, on a file. -/
def primitive {α : Type} (f : FilePrim α) : FilePrim α := do
  let w ← get
  match w.ch.state with
  | .idle => do
    updateOnFile fun ch => { ch with state := .busyPrimitive }
    finalize f (onFile unlock)
  | .busyPrimitive | .busyAtomic _ | .waitingForBusy => wait
  | .closed => raise (closedChannel w.ch)
  | .invalid => raise (invalidChannel w.ch)

end OnFile

/-- Reads, writes and random access. -/
inductive FileOp : Mode → Type
  | read (op : InputOp) : FileOp .input
  | write (op : OutputOp) : FileOp .output
  | setPosition {m : Mode} (pos : Int64) : FileOp m
  | length {m : Mode} : FileOp m

variable {α : Type} {m : Mode} {s s' : FileMoment} {c c' : Cursor UInt8}

namespace FileOp

variable (endian : Endian) (floats : Floats)

def run : FileOp m → FilePrim ChannelResult
  | read op => onFile (op.run endian floats) >>= fun r => pure (.input r)
  | write op => onFile (op.run endian floats) >>= fun r => pure (.output r)
  | setPosition pos => OnFile.primitive (OnFile.setPosition pos) >>= fun _ => pure .unit
  | length => OnFile.primitive OnFile.length >>= fun n => pure (.length n)

/-- What a plain cursor does: it gives the bytes that follow it, or writes where it is, and
moves. -/
def Plain (op : FileOp m) (outcome : Except (Abnormal Exn Fault) ChannelResult)
    (c c' : Cursor UInt8) : Prop :=
  match op, outcome with
  | read op, .ok (.input r) => ∃ seg, op.Returns endian floats r seg ∧ seg <+: c.rest ∧
      c' = c.pass seg.length ∧ op.Complete (.ok r) c.rest c'.rest
  | read op, .error x => ∃ seg, seg <+: c.rest ∧ c' = c.pass seg.length ∧
      op.Complete (.error x) c.rest c'.rest
  | write op, .ok (.output r) => ∃ data, op.Contributes endian floats (.ok r) data ∧
      c' = c.write data
  | write op, .error x => ∃ data, op.Contributes endian floats (.error x) data ∧
      c' = c.write data
  | setPosition pos, .ok .unit => 0 ≤ pos.toInt ∧ c' = c.moveTo pos.toInt.toNat
  | setPosition pos, .error _ => (m = .input → pos.toInt < 0) ∧ c' = c
  | length, .ok (.length n) => (m = .input → n = Int64.ofInt c.content.length) ∧ c' = c
  | length, .error _ => c' = c
  | _, _ => False

end FileOp

/-! ## Code on a file -/

def withFileCh (s : FileMoment) (ch : RealChannel) : FileMoment :=
  { s with state := { s.state with ch := ch } }

theorem wp_onFile {t : Prim α} {Q : α → FileMoment → Prop}
    {A : Abnormal Exn Fault → FileMoment → Prop} :
    wp (onFile t) Q A s ↔
      wp t (fun a s' => Q a (after s s')) (fun x s' => A x (after s s')) (asSource s) := by
  unfold wp onFile
  rcases t (asSource s) with ⟨_ | _, _⟩ <;> rfl

/-- Code that neither reads nor writes leaves the file as it is. -/
theorem after_withCh (s : FileMoment) (ch : RealChannel) :
    after s (withCh (asSource s) ch) = withFileCh s ch := by
  unfold after withFileCh
  split <;> simp [asSource]

@[simp] theorem wp_updateOnFile {Q : Unit → FileMoment → Prop}
    {A : Abnormal Exn Fault → FileMoment → Prop} (f : RealChannel → RealChannel) :
    wp (updateOnFile f) Q A s ↔ Q () (withFileCh s (f s.state.ch)) := Iff.rfl

theorem wp_lseek {Q : Int64 → FileMoment → Prop} {A : Abnormal Exn Fault → FileMoment → Prop}
    {pos : Int64} {cmd : SeekCommand} {target : ℤ}
    (htarget : target = pos.toInt + match cmd with
      | .seekSet => (0 : ℤ)
      | .seekEnd => (s.state.file.content.length : ℤ))
    (hfails : target < 0 ∨ target ≥ 2 ^ 63 → A (.raised seekError) s)
    (hok : 0 ≤ target → target < 2 ^ 63 → Q (Int64.ofInt target)
      { s with state := { s.state with file := s.state.file.moveTo target.toNat } }) :
    wp (lseek pos cmd) Q A s := by
  subst htarget
  simp only [lseek, wp_bind, wp_get, wp_ite, wp_raise, wp_modify, wp_pure]
  exact ⟨hfails, fun hin => hok (by omega) (by omega)⟩

theorem OnFile.wp_doSeek {Q : Unit → FileMoment → Prop}
    {A : Abnormal Exn Fault → FileMoment → Prop} {funName : String} {pos : Int64}
    (hfails : pos.toInt < 0 → A (.raised seekError) s)
    (hok : 0 ≤ pos.toInt → Q ()
      { s with state := { s.state with file := s.state.file.moveTo pos.toInt.toNat } }) :
    wp (OnFile.doSeek funName pos) Q A s := by
  have hlt := Int64.toInt_lt pos
  simp only [OnFile.doSeek, wp_bind]
  refine wp_lseek (by simp) (fun (h : pos.toInt < 0 ∨ _) => hfails (by omega)) fun hnonneg _ => ?_
  simp only [wp_ite, wp_raise, wp_pure, Int64.ofInt_toInt]
  exact ⟨fun hne => absurd rfl hne, fun _ => hok hnonneg⟩

theorem OnFile.wp_primitive {f : FilePrim α} {Q : α → FileMoment → Prop}
    {A : Abnormal Exn Fault → FileMoment → Prop} (hidle : s.state.ch.state = .idle)
    (hf : wp f
      (fun a s' => s'.state.ch.state = .busyPrimitive ∧
        Q a (withFileCh s' { s'.state.ch with state := .idle }))
      (fun x s' => (∀ e, x = .raised e → s'.state.ch.state = .busyPrimitive ∧
          A x (withFileCh s' { s'.state.ch with state := .idle })) ∧
        ((∀ e, x ≠ .raised e) → A x s'))
      (withFileCh s { s.state.ch with state := .busyPrimitive })) :
    wp (OnFile.primitive f) Q A s := by
  have hunlock : ∀ {Q : Unit → FileMoment → Prop} {s' : FileMoment},
      s'.state.ch.state = .busyPrimitive →
      Q () (withFileCh s' { s'.state.ch with state := .idle }) → wp (onFile unlock) Q A s' := by
    intro Q s' hbusy hQ
    rw [wp_onFile]
    simp only [unlock, wp_bind, wp_get, asSource, hbusy, wp_update]
    exact (after_withCh s' _).symm ▸ hQ
  simp only [OnFile.primitive, wp_bind, wp_get, hidle, wp_updateOnFile, finalize, wp_tryBind]
  refine wp_mono hf (fun a s' h => (wp_bind _ _).mpr (hunlock h.1 h.2)) fun x s' h => ⟨?_, h.2⟩
  rintro e rfl
  obtain ⟨hbusy, hA⟩ := h.1 e rfl
  exact hunlock hbusy hA

/-! ## The buffer is invisible -/

/-- The file is ahead of the cursor `c` by what is unread, or behind it by what has not been written
yet. -/
def AtCursor (m : Mode) (c : Cursor UInt8) (w : FileWorld) : Prop :=
  match m with
  | .input => w.file.content = c.content ∧
      (w.file.offset : ℤ) = c.offset + (w.ch.max - w.ch.ptr) ∧
      slice w.ch.buffer w.ch.ptr (w.ch.max - w.ch.ptr) ++ w.file.rest = c.rest
  | .output => c = w.file.write (slice w.ch.buffer 0 w.ch.ptr)

/-- A channel that is at the cursor `c`. -/
structure Backed (m : Mode) (c : Cursor UInt8) (s : FileMoment) : Prop where
  within : Within m s.state.ch
  typ : s.state.ch.typ = .normal
  recorded : s.state.ch.offset = Int64.ofInt s.state.file.offset
  logical : AtCursor m c s.state

theorem Backed.position (h : Backed m c s) :
    Data.position s.state.ch = Int64.ofInt c.offset := by
  have hrecorded := h.recorded
  cases m with
  | input =>
    obtain ⟨-, hoffset, -⟩ := h.logical
    rw [Data.position, h.within.mode, hrecorded, hoffset]
    simp only [Int64.ofInt_add]
    grind
  | output =>
    have hlength := length_slice h.within.output.inside
    rw [show c = _ from h.logical, Cursor.offset_write, Data.position, h.within.mode, hrecorded,
      Int.natCast_add, hlength, Int64.ofInt_add]

theorem Backed.withState (h : Backed m c s) (state : State) :
    Backed m c (withFileCh s { s.state.ch with state := state }) :=
  ⟨⟨h.within.mode, h.within.size, h.within.nonneg, h.within.le, h.within.max, h.within.full,
    h.within.bound, h.within.offset, h.within.noOffset⟩, h.typ, h.recorded, by
      have hlogical := h.logical
      cases m <;> exact hlogical⟩

theorem Backed.read {s' : Moment} {seg : List UInt8} (h : Backed .input c s)
    (hc : Consumed seg (asSource s) s') :
    seg <+: c.rest ∧ (c.pass seg.length).rest = s'.state.unread ∧
      Backed .input (c.pass seg.length) (after s s') := by
  obtain ⟨hcontent, hoffset, hunread⟩ := h.logical
  have hrest : c.rest = seg ++ s'.state.unread := hunread.symm.trans hc.unread
  have hpass := Cursor.rest_pass_of_append hrest
  have hslice := length_slice h.within.input.inside
  have hslice' := length_slice hc.input.inside
  have hlength := congrArg List.length hc.unread
  have hhorizon := hc.horizon
  have hle' := hc.input.le
  simp only [World.unread, asSource, List.length_append] at hlength
  have hfile : (after s s').state.file = s.state.file.moveTo
      (s.state.file.offset + s.state.file.rest.length - s'.state.source.length) := by
    simp only [after, h.within.mode]
  have hmoved : ((after s s').state.file.offset : ℤ) =
      (c.pass seg.length).offset + (s'.state.ch.max - s'.state.ch.ptr) := by
    rw [hfile, Cursor.offset_moveTo, Cursor.offset_pass]
    omega
  -- the source has become what follows the offset that the file now has
  have hsource : (after s s').state.file.rest = s'.state.source := by
    have hdrop : (after s s').state.file.offset = (c.pass seg.length).offset +
        (slice s'.state.ch.buffer s'.state.ch.ptr (s'.state.ch.max - s'.state.ch.ptr)).length := by
      omega
    rw [Cursor.rest, hfile, Cursor.content_moveTo, hcontent, ← hfile, hdrop, ← List.drop_drop]
    have hrest' : c.content.drop (c.pass seg.length).offset = s'.state.unread := hpass
    rw [hrest', World.unread, List.drop_left]
  refine ⟨⟨_, hrest.symm⟩, hpass, ⟨(hc.passed' h.within).within, hc.typ.trans h.typ, ?_, ?_⟩⟩
  · have hboth : s'.state.ch.offset + Int64.ofInt s'.state.source.length =
        Int64.ofInt s.state.file.offset + Int64.ofInt s.state.file.rest.length :=
      h.recorded ▸ hhorizon
    have hsum : ((after s s').state.file.offset : ℤ) =
        s.state.file.offset + s.state.file.rest.length - s'.state.source.length := by
      rw [hfile, Cursor.offset_moveTo]
      omega
    have hgoal : s'.state.ch.offset = Int64.ofInt ((after s s').state.file.offset) := by
      rw [hsum, Int64.ofInt_sub, Int64.ofInt_add, ← hboth]
      grind
    exact hgoal
  · refine ⟨?_, hmoved, ?_⟩
    · rw [hfile]
      exact hcontent
    · rw [hpass, World.unread]
      exact congrArg _ hsource

theorem Backed.wrote {s' : Moment} {data : List UInt8} (h : Backed .output c s)
    (hw : Wrote data (asSource s) s') : Backed .output (c.write data) (after s s') := by
  have hlogical : c = s.state.file.write (slice s.state.ch.buffer 0 s.state.ch.ptr) := h.logical
  have hcontent := hw.content
  have horigin := hw.origin
  simp only [World.content, World.origin, asSource, List.nil_append] at hcontent horigin
  have hfile : (after s s').state.file = s.state.file.write s'.state.sink := by
    simp only [after, h.within.mode]
  refine ⟨(hw.passed' h.within).within, hw.typ.trans h.typ, ?_, ?_⟩
  · have hgoal : s'.state.ch.offset = Int64.ofInt ((after s s').state.file.offset) := by
      rw [hfile, Cursor.offset_write, Int.natCast_add, Int64.ofInt_add, ← h.recorded]
      simp at horigin
      grind
    exact hgoal
  · have hgoal : c.write data = (after s s').state.file.write
        (slice s'.state.ch.buffer 0 s'.state.ch.ptr) := by
      rw [hfile, hlogical, Cursor.write_write, Cursor.write_write, hcontent]
    exact hgoal

/-! ## Random access on a file -/

theorem Backed.toInt_offset (h : Backed m c s) (hlimit : s.state.file.offset < 2 ^ 63) :
    s.state.ch.offset.toInt = s.state.file.offset := by
  rw [h.recorded, Int64.toInt_ofInt_of_le (by omega) (by omega)]

theorem eq_ofInt_toNat {pos : Int64} (hpos : 0 ≤ pos.toInt) :
    pos = Int64.ofInt (pos.toInt.toNat : ℤ) := by
  rw [Int.toNat_of_nonneg hpos, Int64.ofInt_toInt]

/-- Inside the unread part of the buffer, and only there, the file need not be moved. -/
theorem Backed.skip (h : Backed .input c s) (hlimit : s.state.file.offset < 2 ^ 63) {pos : Int64}
    (hge : pos ≥ s.state.ch.offset - Int64.ofInt (s.state.ch.max - s.state.ch.ptr))
    (hle : pos ≤ s.state.ch.offset) :
    0 ≤ pos.toInt ∧ ∃ seg, seg.length = pos.toInt.toNat - c.offset ∧ c.offset ≤ pos.toInt.toNat ∧
      Consumed seg (asSource s) (withCh (asSource s) { s.state.ch with
        ptr := s.state.ch.max - (s.state.ch.offset - pos).toInt }) := by
  obtain ⟨-, hoffset, -⟩ := h.logical
  have hinput := h.within.input
  have hsize := hinput.le
  have hfile := h.toInt_offset hlimit
  have hfront : (s.state.ch.offset - Int64.ofInt (s.state.ch.max - s.state.ch.ptr)).toInt =
      c.offset := by
    rw [h.recorded, ← Int64.ofInt_sub, hoffset, Int.add_sub_cancel,
      Int64.toInt_ofInt_of_le (by omega) (by omega)]
  have hge' := Int64.le_iff_toInt_le.mp hge
  have hle' := Int64.le_iff_toInt_le.mp hle
  rw [hfront] at hge'
  have hdistance : (s.state.ch.offset - pos).toInt = s.state.file.offset - pos.toInt := by
    rw [Int64.toInt_sub, hfile, Int.bmod_eq_of_le] <;> omega
  have hlen : 0 ≤ pos.toInt - c.offset := by omega
  have hfits : pos.toInt - c.offset ≤ (asSource s).state.ch.max - (asSource s).state.ch.ptr := by
    simp only [asSource]
    omega
  have hinside := length_slice (hinput.inside_of_le hlen hfits)
  refine ⟨by omega, _, ?_, by omega, Consumed.pass hinput hlen hfits ?_⟩
  · simp only [asSource] at hinside ⊢
    omega
  · simp only [asSource, hdistance]
    omega

theorem Backed.wp_setPosition_input (h : Backed .input c s) (hlimit : s.state.file.offset < 2 ^ 63)
    (pos : Int64) :
    wp (OnFile.setPosition pos)
      (fun _ s' => 0 ≤ pos.toInt ∧ Backed .input (c.moveTo pos.toInt.toNat) s' ∧
        s'.state.ch.state = s.state.ch.state ∧ (Giving (asSource s) → Giving (asSource s')))
      (fun _ s' => pos.toInt < 0 ∧ s' = s) s := by
  have hinput := h.within.input
  simp only [OnFile.setPosition, wp_bind, wp_get, h.typ, h.within.mode]
  simp only [wp_ite, wp_bind, wp_updateOnFile]
  refine ⟨fun hin => ?_, fun _ => OnFile.wp_doSeek (fun hneg => ⟨hneg, rfl⟩) fun hpos => ?_⟩
  · obtain ⟨hpos, seg, hseg, hle, hc⟩ := h.skip hlimit hin.1 hin.2
    obtain ⟨-, -, hb⟩ := h.read hc
    have hplace : c.pass seg.length = c.moveTo pos.toInt.toNat := by
      rw [Cursor.pass, hseg, Nat.add_sub_cancel' hle]
    rw [after_withCh, hplace] at hb
    exact ⟨hpos, hb, rfl, fun hgiving => hgiving.of_consumed hc rfl⟩
  · obtain ⟨hcontent, -, -⟩ := h.logical
    have hlength : 0 ≤ s.state.ch.length := by
      have := hinput.size
      omega
    refine ⟨hpos, ⟨⟨hinput.mode, hinput.size, Int.le_refl 0, Int.le_refl 0, hlength, by simp,
      h.within.bound, by simp [h.typ], by simp⟩, h.typ, eq_ofInt_toNat hpos, ?_⟩, rfl,
        fun hgiving => ⟨⟨hinput.mode, hinput.size, Int.le_refl 0, Int.le_refl 0, hlength⟩,
          hgiving.typ, hgiving.room, hgiving.chunks⟩⟩
    simp [AtCursor, hcontent, Cursor.rest]

theorem Backed.wp_setPosition_output (h : Backed .output c s)
    (hbusy : s.state.ch.state = .busyPrimitive) (pos : Int64) :
    wp (OnFile.setPosition pos)
      (fun _ s' => 0 ≤ pos.toInt ∧ Backed .output (c.moveTo pos.toInt.toNat) s' ∧
        s'.state.ch.state = .busyPrimitive)
      (fun _ s' => Backed .output c s' ∧ s'.state.ch.state = .busyPrimitive) s := by
  have hnothing : ∀ {s' : Moment}, Wrote [] (asSource s) s' →
      Backed .output c (after s s') ∧ (after s s').state.ch.state = .busyPrimitive := by
    intro s' hw
    have hb := h.wrote hw
    rw [Cursor.write_nil] at hb
    exact ⟨hb, hw.state.trans hbusy⟩
  simp only [OnFile.setPosition, wp_bind, wp_get, h.typ, h.within.mode, wp_onFile]
  refine wp_mono (wp_flushTotal (s := asSource s) h.within.output hbusy) ?_ ?_
  · rintro _ s1 ⟨hw, hptr⟩
    obtain ⟨hb, hbusy1⟩ := hnothing hw
    refine OnFile.wp_doSeek (fun _ => ⟨hb, hbusy1⟩) fun hpos => ?_
    have hptr1 : (after s s1).state.ch.ptr = 0 := hptr
    have hw1 := hb.within
    have hlogical : c = (after s s1).state.file.write _ := hb.logical
    rw [hptr1, slice_zero_length, Cursor.write_nil] at hlogical
    refine ⟨hpos, ⟨⟨hw1.mode, hw1.size, hw1.nonneg, hw1.le, hw1.max, hw1.full, hw1.bound, by simp,
      by simp [hb.typ]⟩, hb.typ, eq_ofInt_toNat hpos, ?_⟩, hbusy1⟩
    simp [AtCursor, hptr1, hlogical]
  · intro x s1 hx
    obtain ⟨data, hinitial, hw⟩ := hx.part
    obtain rfl := List.prefix_nil.mp hinitial
    exact hnothing hw

theorem Backed.wp_length (h : Backed m c s) (hlimit : s.state.file.offset < 2 ^ 63) :
    wp OnFile.length (fun n s' => n = Int64.ofInt s.state.file.content.length ∧ s' = s)
      (fun _ s' => s' = s) s := by
  have hfile := h.toInt_offset hlimit
  simp only [OnFile.length, wp_bind, wp_get, h.typ]
  refine wp_lseek (by simp) (fun (_ : (s.state.file.content.length : ℤ) < 0 ∨ _) => rfl) fun _ _ =>
    ?_
  rw [wp_bind]
  refine OnFile.wp_doSeek (fun hneg => ?_) fun _ => ⟨by simp, ?_⟩
  · rw [hfile] at hneg
    omega
  · rw [hfile]
    rfl

/-! ## Operations -/

/-- A channel between two operations. -/
structure AtRest (m : Mode) (c : Cursor UInt8) (s : FileMoment) : Prop where
  backed : Backed m c s
  idle : s.state.ch.state = .idle
  giving : m = .input → Giving (asSource s)

namespace FileOp

variable {endian : Endian} {floats : Floats}

theorem wp_read (endian : Endian) (floats : Floats) (op : InputOp) (h : AtRest .input c s) :
    wp ((read op).run endian floats)
      (fun r s' => ∃ c', (read op).Plain endian floats (.ok r) c c' ∧ AtRest .input c' s')
      (fun x s' => ∃ c', (read op).Plain endian floats (.error x) c c' ∧ Backed .input c' s' ∧
        ∀ e, x = .raised e → AtRest .input c' s') s := by
  have hunread : (asSource s).state.unread = c.rest := h.backed.logical.2.2
  rw [run, wp_bind, wp_onFile]
  refine wp_mono (wp_and
    (op.wp_run endian floats (s := asSource s) h.backed.within.input h.idle)
    (op.wp_complete endian floats (h.giving rfl) h.idle)) ?_ ?_
  · rintro r s' ⟨⟨seg, hreturns, hc⟩, hgiving, hcomplete⟩
    obtain ⟨hinitial, hpass, hb⟩ := h.backed.read hc
    rw [hunread, ← hpass] at hcomplete
    exact ⟨_, ⟨seg, hreturns, hinitial, rfl, hcomplete⟩, hb, hc.state.trans h.idle, fun _ =>
      ⟨hgiving.input, hgiving.typ, hgiving.room, hgiving.chunks⟩⟩
  · rintro x s' ⟨⟨⟨-, seg, hc⟩, hidle⟩, hgiving, hcomplete⟩
    obtain ⟨hinitial, hpass, hb⟩ := h.backed.read hc
    have hb' : Backed .input (c.pass seg.length) (after s s') := hb.withState s'.state.ch.state
    have hpass' : (c.pass seg.length).rest = s'.state.unread := hpass
    rw [hunread, ← hpass'] at hcomplete
    refine ⟨_, ⟨seg, hinitial, rfl, hcomplete⟩, hb', fun e he => ⟨hb', hidle e he, fun _ => ?_⟩⟩
    have hg := hgiving e he
    exact ⟨hg.input, hg.typ, hg.room, hg.chunks⟩

theorem wp_write (endian : Endian) (floats : Floats) (op : OutputOp) (h : AtRest .output c s) :
    wp ((write op).run endian floats)
      (fun r s' => ∃ c', (write op).Plain endian floats (.ok r) c c' ∧ AtRest .output c' s')
      (fun x s' => ∃ c', (write op).Plain endian floats (.error x) c c' ∧ Backed .output c' s' ∧
        ∀ e, x = .raised e → AtRest .output c' s') s := by
  rw [run, wp_bind, wp_onFile]
  refine wp_mono (op.wp_run endian floats (s := asSource s) h.backed.within.output h.idle) ?_ ?_
  · rintro r s' ⟨data, hdata, hw⟩
    exact ⟨_, ⟨data, hdata, rfl⟩, h.backed.wrote hw, hw.state.trans h.idle, by simp⟩
  · rintro x s' ⟨⟨-, data, hinitial, hw⟩, hidle⟩
    have hb : Backed .output (c.write data) (after s s') :=
      (h.backed.wrote hw).withState s'.state.ch.state
    exact ⟨_, ⟨data, hinitial, rfl⟩, hb, fun e he => ⟨hb, hidle e he, by simp⟩⟩

/-- Every operation does what it does to a plain cursor. -/
theorem wp_run (endian : Endian) (floats : Floats) (op : FileOp m) (h : AtRest m c s)
    (hlimit : s.state.file.offset < 2 ^ 63) :
    wp (op.run endian floats)
      (fun r s' => ∃ c', op.Plain endian floats (.ok r) c c' ∧ AtRest m c' s')
      (fun x s' => ∃ c', op.Plain endian floats (.error x) c c' ∧ Backed m c' s' ∧
        ∀ e, x = .raised e → AtRest m c' s') s := by
  have hbusy := h.backed.withState .busyPrimitive
  cases op with
  | read op => exact wp_read endian floats op h
  | write op => exact wp_write endian floats op h
  | setPosition pos =>
    rw [run, wp_bind]
    refine OnFile.wp_primitive h.idle ?_
    cases m with
    | input =>
      refine wp_mono (hbusy.wp_setPosition_input hlimit pos) ?_ ?_
      · rintro _ s' ⟨hpos, hb, hstate, hgiving⟩
        have hg := hgiving ((h.giving rfl).withState _)
        exact ⟨hstate, _, ⟨hpos, rfl⟩, hb.withState .idle, rfl, fun _ => hg.withState .idle⟩
      · rintro x _ ⟨hneg, rfl⟩
        exact ⟨fun e he => ⟨rfl, c, ⟨fun _ => hneg, rfl⟩, hbusy.withState .idle, fun _ _ =>
          ⟨hbusy.withState .idle, rfl, fun _ => (h.giving rfl).withState .idle⟩⟩,
          fun hno => ⟨c, ⟨fun _ => hneg, rfl⟩, hbusy, fun e he => absurd he (hno e)⟩⟩
    | output =>
      refine wp_mono (hbusy.wp_setPosition_output rfl pos) ?_ ?_
      · rintro _ s' ⟨hpos, hb, hstate⟩
        exact ⟨hstate, _, ⟨hpos, rfl⟩, hb.withState .idle, rfl, by simp⟩
      · rintro x s' ⟨hb, hstate⟩
        exact ⟨fun e he => ⟨hstate, c, ⟨by simp, rfl⟩, hb.withState .idle, fun _ _ =>
          ⟨hb.withState .idle, rfl, by simp⟩⟩,
          fun hno => ⟨c, ⟨by simp, rfl⟩, hb, fun e he => absurd he (hno e)⟩⟩
  | length =>
    rw [run, wp_bind]
    have hrest : AtRest m c (withFileCh (withFileCh s { s.state.ch with state := .busyPrimitive })
        { s.state.ch with state := .idle }) :=
      ⟨hbusy.withState .idle, rfl, fun hm => (h.giving hm).withState .idle⟩
    refine OnFile.wp_primitive h.idle (wp_mono (hbusy.wp_length hlimit) ?_ ?_)
    · rintro n _ ⟨hn, rfl⟩
      refine ⟨rfl, c, ⟨?_, rfl⟩, hrest⟩
      rintro rfl
      have hcontent : s.state.file.content = c.content := h.backed.logical.1
      exact hcontent ▸ hn
    · rintro x _ rfl
      exact ⟨fun e _ => ⟨rfl, c, rfl, hrest.backed, fun _ _ => hrest⟩,
        fun hno => ⟨c, rfl, hbusy, fun e he => absurd he (hno e)⟩⟩

def isFlush : FileOp m → Bool
  | write .flush => true
  | _ => false

theorem wp_run_flush (endian : Endian) (floats : Floats) {op : FileOp m} (h : AtRest m c s)
    (hflush : op.isFlush = true) :
    wp (op.run endian floats) (fun _ s' => s'.state.ch.ptr = 0) (fun _ _ => True) s := by
  unfold isFlush at hflush
  split at hflush
  · rw [run, wp_bind, wp_onFile]
    exact OutputOp.wp_run_flush endian floats (s := asSource s) h.backed.within.output h.idle
  · cases hflush

end FileOp

/-! ## Sessions -/

variable {endian : Endian} {floats : Floats}

/-- What has happened to a channel on a file. -/
abbrev FileHistory (m : Mode) : Type :=
  List (Entry FileWorld Answer Exn Fault (FileOp m) ChannelResult)

/-- The plain cursor after a history. -/
inductive Follows (endian : Endian) (floats : Floats) (first : Cursor UInt8) :
    FileHistory m → Cursor UInt8 → Prop
  | start : Follows endian floats first [] first
  | step {past : FileHistory m} {c c' : Cursor UInt8}
      {e : Entry FileWorld Answer Exn Fault (FileOp m) ChannelResult} :
      Follows endian floats first past c → e.op.Plain endian floats e.outcome c c' →
      Follows endian floats first (past ++ [e]) c'

theorem Follows.last {first : Cursor UInt8} {past : FileHistory m}
    {e : Entry FileWorld Answer Exn Fault (FileOp m) ChannelResult}
    (h : Follows endian floats first (past ++ [e]) c') :
    ∃ c, Follows endian floats first past c ∧ e.op.Plain endian floats e.outcome c c' := by
  generalize hall : past ++ [e] = all at h
  cases h with
  | start => simp at hall
  | step hpast hplain =>
    obtain ⟨rfl, hlast⟩ := List.append_inj' hall rfl
    obtain rfl := List.singleton_inj.mp hlast
    exact ⟨_, hpast, hplain⟩

/-- Reading changes nothing in the file. -/
theorem FileOp.Plain.content {op : FileOp .input}
    {outcome : Except (Abnormal Exn Fault) ChannelResult}
    (h : op.Plain endian floats outcome c c') : c'.content = c.content := by
  cases op with
  | read op =>
    rcases outcome with _ | (_ | _ | _ | _)
    · obtain ⟨_, _, rfl, _⟩ := h
      rfl
    · obtain ⟨_, _, _, rfl, _⟩ := h
      rfl
    all_goals exact h.elim
  | setPosition pos =>
    rcases outcome with _ | (_ | _ | _ | _)
    · rw [h.2]
    case ok.unit =>
      rw [h.2]
      rfl
    all_goals exact h.elim
  | length =>
    rcases outcome with _ | (_ | _ | _ | _)
    · rw [show c' = c from h]
    case ok.length => rw [h.2]
    all_goals exact h.elim

theorem Follows.content {first : Cursor UInt8} {past : FileHistory .input}
    (h : Follows endian floats first past c) : c.content = first.content := by
  induction h with
  | start => rfl
  | step _ hplain ih => exact hplain.content.trans ih

/-- A channel on a file, before its first operation. -/
def startOnFile (ch : RealChannel) (file : Cursor UInt8) (platform : Platform)
    (answers : List Answer) :
    FileMoment :=
  ⟨⟨ch, file, platform⟩, answers⟩

theorem atRest_start {defaultBufferSize :
    { n : ℤ // checkBufferSize "set_default_buffer_size" n = .ok () }}
    {buffer : Option (List UInt8)} {ch : RealChannel}
    (hmake : make defaultBufferSize m buffer = .ok ch) (content : List UInt8) (platform : Platform)
    {answers : List Answer}
    (hanswers : m = .input → ∀ a ∈ answers, ∃ n, a = .moves (n + 1)) :
    AtRest m ⟨content, 0⟩ (startOnFile ch ⟨content, 0⟩ platform answers) := by
  obtain ⟨hwithin, -, hidle⟩ := (Made.make defaultBufferSize m buffer ch [] hmake).within
  obtain ⟨bytes, rfl, hmin, -⟩ := makeWith_of_make hmake
  refine ⟨⟨hwithin, rfl, rfl, ?_⟩, hidle, fun hm => ⟨?_, rfl, hmin, hanswers hm⟩⟩
  · cases m with
    | input => simp [AtCursor, startOnFile, makeWith, Cursor.rest]
    | output => simp [AtCursor, startOnFile, makeWith]
  · subst hm
    exact hwithin.input

/-- What is known of a channel after a history. -/
structure OnCursor (endian : Endian) (floats : Floats) (first : Cursor UInt8)
    (past : FileHistory m) (c : Cursor UInt8) (s : FileMoment) : Prop where
  follows : Follows endian floats first past c
  backed : Backed m c s
  flushed : ∀ e, past.getLast? = some e → e.op.isFlush = true → (∃ r, e.outcome = .ok r) →
    s.state.ch.ptr = 0

theorem OnCursor.step {first : Cursor UInt8} {past : FileHistory m}
    (h : OnCursor endian floats first past c s) (hrest : AtRest m c s)
    (hlimit : s.state.file.offset < 2 ^ 63) (op : FileOp m) :
    wp (op.run endian floats)
      (fun r s' => ∃ c', OnCursor endian floats first (past ++ [⟨op, .ok r, s'⟩]) c' s' ∧
        AtRest m c' s')
      (fun x s' => ∃ c', OnCursor endian floats first (past ++ [⟨op, .error x, s'⟩]) c' s' ∧
        ∀ e, x = .raised e → AtRest m c' s') s := by
  have hflush : wp (op.run endian floats)
      (fun _ s' => op.isFlush = true → s'.state.ch.ptr = 0) (fun _ _ => True) s := by
    by_cases hop : op.isFlush = true
    · exact wp_mono (FileOp.wp_run_flush endian floats hrest hop) (fun _ _ h _ => h) fun _ _ h => h
    · exact wp_mono (wp_trivial _) (fun _ _ _ hyes => absurd hyes hop) fun _ _ h => h
  refine wp_mono (wp_and (FileOp.wp_run endian floats op hrest hlimit) hflush) ?_ ?_
  · rintro r s' ⟨⟨c', hplain, hrest'⟩, hptr⟩
    refine ⟨c', ⟨.step h.follows hplain, hrest'.backed, fun e he hop _ => ?_⟩, hrest'⟩
    cases (List.getLast?_concat ..).symm.trans he
    exact hptr hop
  · rintro x s' ⟨⟨c', hplain, hbacked, hrest'⟩, -⟩
    refine ⟨c', ⟨.step h.follows hplain, hbacked, fun e he _ hok => ?_⟩, hrest'⟩
    cases (List.getLast?_concat ..).symm.trans he
    obtain ⟨r, hr⟩ := hok
    cases hr

/-- A channel that has been made while the file was at its beginning does what a plain cursor does:
what it reads are the bytes at the cursor, and after a flush the file is as the plain writes leave
it.  The offset of the file stays an `int64`; reads give at least one byte before the end. -/
theorem file_follows_cursor (endian : Endian) (floats : Floats)
    (defaultBufferSize : { n : ℤ // checkBufferSize "set_default_buffer_size" n = .ok () })
    (buffer : Option (List UInt8)) (ch : RealChannel)
    (hmake : make defaultBufferSize m buffer = .ok ch) (content : List UInt8) (platform : Platform)
    (answers : List Answer) (hanswers : m = .input → ∀ a ∈ answers, ∃ n, a = .moves (n + 1))
    (ops : List (FileOp m))
    (hlimit : Along (FileOp.run endian floats) (fun _ s => s.state.file.offset < 2 ^ 63) ops
      (startOnFile ch ⟨content, 0⟩ platform answers)) :
    let r := session (FileOp.run endian floats) ops (startOnFile ch ⟨content, 0⟩ platform answers)
    ∃ c, Follows endian floats ⟨content, 0⟩ r.1 c ∧
      position r.2.state.ch = Int64.ofInt c.offset ∧
      (m = .input → r.2.state.file.content = content ∧ c.content = content) ∧
      ∀ e, r.1.getLast? = some e → e.op.isFlush = true → (∃ v, e.outcome = .ok v) →
        r.2.state.file = c := by
  intro r
  have hstart := atRest_start hmake content platform hanswers
  obtain ⟨c, hlast⟩ := session_rule_along
    (fun past s => ∃ c, OnCursor endian floats ⟨content, 0⟩ past c s ∧ AtRest m c s)
    (fun past s => ∃ c, OnCursor endian floats ⟨content, 0⟩ past c s)
    (fun _ _ h => by
      obtain ⟨c, hc, -⟩ := h
      exact ⟨c, hc⟩)
    (fun past s op h hC => by
      obtain ⟨c, hc, hrest⟩ := h
      refine wp_mono (hc.step hrest hC op) (fun _ _ h => h) ?_
      rintro x s' ⟨c', hc', hrest'⟩
      exact ⟨⟨c', hc'⟩, fun e he => ⟨c', hc', hrest' e he⟩⟩)
    ops [] _ ⟨⟨content, 0⟩, ⟨.start, hstart.backed, by simp⟩, hstart⟩ hlimit
  refine ⟨c, hlast.follows, hlast.backed.position, ?_, fun e he hflush hok => ?_⟩
  · rintro rfl
    have hcontent := hlast.follows.content
    exact ⟨hlast.backed.logical.1.trans hcontent, hcontent⟩
  · have hptr := hlast.flushed e he hflush hok
    have hlogical := hlast.backed.logical
    cases m with
    | input =>
      obtain ⟨op, _, _⟩ := e
      cases op <;> cases hflush
    | output =>
      have hc : c = _ := hlogical
      rw [hptr, slice_zero_length, Cursor.write_nil] at hc
      exact hc.symm

/-- Three bytes of a file are read twice, once without a seek and once with one. -/
theorem file_follows_cursor_twice :
    ∃ ops : List (FileOp .input), ∃ r, r = session (FileOp.run littleEndian zeroFloats) ops
        (startOnFile (makeWith .input (List.replicate 16 0)) ⟨[1, 2, 3, 4, 5], 0⟩ .unlimited
          (List.replicate 4 (.moves 4))) ∧
      r.1.map (·.outcome) = [.ok (.input (.bytes [1, 2, 3])), .ok .unit, .ok (.input (.char 2)),
        .ok (.length 5), .ok .unit, .ok (.input (.char 1))] ∧
      ∃ c, Follows littleEndian zeroFloats ⟨[1, 2, 3, 4, 5], 0⟩ r.1 c ∧
        position r.2.state.ch = Int64.ofInt c.offset := by
  have hfollows := file_follows_cursor littleEndian zeroFloats ⟨16, rfl⟩ none
    (makeWith .input (List.replicate 16 0)) rfl [1, 2, 3, 4, 5] .unlimited
    (List.replicate 4 (.moves 4)) (fun _ a ha => ⟨3, List.eq_of_mem_replicate ha⟩)
    [.read (.read (some 3)), .setPosition 1, .read .readChar, .length, .setPosition 0,
      .read .readChar] (by decide +kernel)
  obtain ⟨c, hc, hposition, -⟩ := hfollows
  exact ⟨_, _, rfl, by decide +kernel, c, hc, hposition⟩

/-- The channel takes the offset of the file for 0.  Here it is 1: the byte at 2, which is in the
buffer, is not the one that is read there. -/
theorem file_offset_is_not_known :
    let ops : List (FileOp .input) := [.read .readChar, .setPosition 2, .read .readChar]
    let r := session (FileOp.run littleEndian zeroFloats) ops
      (startOnFile (makeWith .input (List.replicate 16 0)) ⟨[1, 2, 3, 4], 1⟩ .unlimited [.moves 4])
    r.1.map (·.outcome) = [.ok (.input (.char 2)), .ok .unit, .ok (.input (.char 4))] ∧
      ¬ ∃ c, Follows littleEndian zeroFloats ⟨[1, 2, 3, 4], 1⟩ r.1 c := by
  intro ops r
  have houtcomes : r.1.map (·.outcome) =
      [.ok (.input (.char 2)), .ok .unit, .ok (.input (.char 4))] := by
    decide +kernel
  refine ⟨houtcomes, ?_⟩
  rintro ⟨c, hc⟩
  have hops : r.1.map (·.op) = ops := rfl
  obtain ⟨e₁, es, hentries, he₁, hrest⟩ := List.map_eq_cons_iff.mp houtcomes
  obtain ⟨e₂, es, rfl, he₂, hrest⟩ := List.map_eq_cons_iff.mp hrest
  obtain ⟨e₃, es, rfl, he₃, hrest⟩ := List.map_eq_cons_iff.mp hrest
  obtain rfl := List.map_eq_nil_iff.mp hrest
  rw [hentries] at hops hc
  have hthree : Follows _ _ _ ([e₁, e₂] ++ [e₃]) c := hc
  obtain ⟨c₂, hc₂, hread⟩ := hthree.last
  have htwo : Follows _ _ _ ([e₁] ++ [e₂]) c₂ := hc₂
  obtain ⟨c₁, hc₁, hseek⟩ := htwo.last
  simp only [List.map_cons, List.map_nil, ops, List.cons.injEq] at hops
  obtain ⟨-, hop₂, hop₃, -⟩ := hops
  rw [hop₂, he₂] at hseek
  rw [hop₃, he₃] at hread
  obtain ⟨-, rfl⟩ := hseek
  obtain ⟨seg, hseg, hinitial, -⟩ := hread
  obtain rfl : seg = [4] := hseg
  rw [Cursor.rest, Cursor.content_moveTo, hc₁.content, Cursor.offset_moveTo] at hinitial
  exact absurd hinitial (by decide)

end Lwt.Io.Data
