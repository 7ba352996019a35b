import Mathlib.Data.List.Forall2
import Lwt.Io.Output

/-!
# What the sink gets

The operations on an output channel, one after the other, against a sink that may do anything.
-/

namespace Lwt.Io.Data

open Dialogue Window

/-- The operations of `lwt_io.ml` on an output channel.  `write_value` is a `write`. -/
inductive OutputOp
  | writeChar (c : UInt8)
  | write (str : List UInt8)
  | writeLine (str : List UInt8)
  | writeFrom (buf : List UInt8) (ofs len : ℤ)
  | writeFromBigstring (buf : List UInt8) (ofs len : ℤ)
  | writeFromString (buf : List UInt8) (ofs len : ℤ)
  | writeFromExactly (buf : List UInt8) (ofs len : ℤ)
  | writeFromExactlyBigstring (buf : List UInt8) (ofs len : ℤ)
  | writeFromStringExactly (buf : List UInt8) (ofs len : ℤ)
  | writeInt (v : ℤ)
  | writeInt16 (v : ℤ)
  | writeInt32 (v : BitVec 32)
  | writeInt64 (v : BitVec 64)
  | writeFloat32 (v : BitVec 64)
  | writeFloat64 (v : BitVec 64)
  | flush
  | resizeBuffer (len : ℤ)
  | autoFlush
  deriving DecidableEq

namespace OutputOp

variable (endian : Endian) (floats : Floats)

/-- An operation without a result. -/
def unit (t : Prim Unit) : Prim (Option ℤ) := t >>= fun _ => pure none

/-- An operation that returns a number of bytes. -/
def count (t : Prim ℤ) : Prim (Option ℤ) := t >>= fun n => pure (some n)

def run : OutputOp → Prim (Option ℤ)
  | writeChar c => unit (Data.writeChar c)
  | write str => unit (primitive (Primitives.write str))
  | writeLine str => unit (primitive (Primitives.writeLine str))
  | writeFrom buf ofs len => count (primitive (Primitives.writeFrom buf ofs len))
  | writeFromBigstring buf ofs len =>
    count (primitive (Primitives.writeFromBigstring buf ofs len))
  | writeFromString buf ofs len => count (primitive (Primitives.writeFromString buf ofs len))
  | writeFromExactly buf ofs len => unit (primitive (Primitives.writeFromExactly buf ofs len))
  | writeFromExactlyBigstring buf ofs len =>
    unit (primitive (Primitives.writeFromExactlyBigstring buf ofs len))
  | writeFromStringExactly buf ofs len =>
    unit (primitive (Primitives.writeFromStringExactly buf ofs len))
  | writeInt v => unit (primitive (Primitives.writeInt endian v))
  | writeInt16 v => unit (primitive (Primitives.writeInt16 endian v))
  | writeInt32 v => unit (primitive (Primitives.writeInt32 endian v))
  | writeInt64 v => unit (primitive (Primitives.writeInt64 endian v))
  | writeFloat32 v => unit (primitive (Primitives.writeFloat32 endian floats v))
  | writeFloat64 v => unit (primitive (Primitives.writeFloat64 endian v))
  | flush => unit (primitive Primitives.flush)
  | resizeBuffer len => unit (Data.resizeBuffer len)
  | autoFlush => unit Data.autoFlush

/-- The bytes that are handed to the channel. -/
def bytes : OutputOp → List UInt8
  | writeChar c => [c]
  | write str => str
  | writeLine str => str ++ [10]
  | writeFrom buf ofs len | writeFromBigstring buf ofs len | writeFromString buf ofs len
  | writeFromExactly buf ofs len | writeFromExactlyBigstring buf ofs len
  | writeFromStringExactly buf ofs len => slice buf ofs len
  | writeInt v => endian.bytes32 (BitVec.ofInt 32 v)
  | writeInt16 v => endian.bytes16 (BitVec.ofInt 16 v)
  | writeInt32 v => endian.bytes32 v
  | writeInt64 v => endian.bytes64 v
  | writeFloat32 v => endian.bytes32 (floats.bitsOfFloat v)
  | writeFloat64 v => endian.bytes64 v
  | flush | resizeBuffer _ | autoFlush => []

/-- The sum that the checks of the arguments compute does not overflow. -/
def NoOverflow : OutputOp → Prop
  | writeFrom _ ofs len | writeFromBigstring _ ofs len | writeFromString _ ofs len
  | writeFromExactly _ ofs len | writeFromExactlyBigstring _ ofs len
  | writeFromStringExactly _ ofs len => ofs + len ≤ maxInt
  | _ => True

/-- What an operation contributes: all of its bytes when it succeeds, the number of bytes it
returns if it returns one, and a first part of its bytes when it fails or has not ended. -/
def Contributes (op : OutputOp) (outcome : Except (Abnormal Exn Fault) (Option ℤ))
    (data : List UInt8) : Prop :=
  match outcome with
  | .ok none => data = bytes endian floats op
  | .ok (some n) => data.length = n ∧ data <+: bytes endian floats op
  | .error _ => data <+: bytes endian floats op

end OutputOp

variable {α : Type} {s s' : Moment} {data bytes : List UInt8}

/-! ## Operations on an idle channel -/

theorem Wrote.unlock (hidle : s.state.ch.state = .idle)
    (h : Wrote data (withState s .busyPrimitive) s') : Wrote data s (withState s' .idle) :=
  ⟨h.toFrame.unlock hidle,
    ⟨h.output.mode, h.output.size, h.output.nonneg, h.output.le, h.output.max⟩, h.content, h.origin⟩

theorem Partly.unlock {inside : Prop} {x : Abnormal Exn Fault} (hidle : s.state.ch.state = .idle)
    (h : Partly inside bytes x (withState s .busyPrimitive) s') :
    Partly inside bytes x s (withState s' .idle) := by
  obtain ⟨part, hpart, hw⟩ := h.part
  exact ⟨⟨h.ended.channel, h.ended.user, h.ended.waits⟩, part, hpart, hw.unlock hidle⟩

theorem Output.withState (h : Output s.state.ch) (state : State) :
    Output (Data.withState s state).state.ch :=
  ⟨h.mode, h.size, h.nonneg, h.le, h.max⟩

/-- How an operation that fails leaves the channel. -/
def Failed (inside : Prop) (bytes : List UInt8) (x : Abnormal Exn Fault) (s s' : Moment) : Prop :=
  Partly inside bytes x s (withState s' .idle) ∧ ∀ e, x = .raised e → s'.state.ch.state = .idle

theorem wp_primitive_output {inside : Prop} {f : Prim α} {P : α → List UInt8 → Prop}
    (hidle : s.state.ch.state = .idle)
    (hf : wp f (fun a s' => ∃ data, P a data ∧ Wrote data (withState s .busyPrimitive) s')
      (fun x s' => Partly inside bytes x (withState s .busyPrimitive) s')
      (withState s .busyPrimitive)) :
    wp (primitive f) (fun a s' => ∃ data, P a data ∧ Wrote data s s')
      (Failed inside bytes · s ·) s := by
  refine wp_primitive hidle (wp_mono hf ?_ ?_)
  · rintro a s' ⟨data, ha, hw⟩
    exact ⟨hw.state, data, ha, hw.unlock hidle⟩
  · intro x s' hx
    obtain ⟨_, _, hw⟩ := hx.part
    have hunlocked := hx.unlock hidle
    exact ⟨fun _ _ => ⟨hw.state, hunlocked, fun _ _ => rfl⟩, fun hno =>
      ⟨hunlocked, fun e he => absurd he (hno e)⟩⟩

theorem wp_primitive_wrote {inside : Prop} {t : Prim Unit} (hidle : s.state.ch.state = .idle)
    (ht : wp t (fun _ s' => Wrote bytes (withState s .busyPrimitive) s')
      (Partly inside bytes · (withState s .busyPrimitive) ·) (withState s .busyPrimitive)) :
    wp (primitive t) (fun _ s' => Wrote bytes s s') (Failed inside bytes · s ·) s := by
  refine wp_mono (wp_primitive_output (P := fun _ data => data = bytes) hidle
    (wp_mono ht (fun _ _ hw => ⟨_, rfl, hw⟩) fun _ _ h => h)) ?_ fun _ _ h => h
  rintro _ s' ⟨_, rfl, hw⟩
  exact hw

theorem wp_writeChar_fast (h : Output s.state.ch) (hidle : s.state.ch.state = .idle) (c : UInt8) :
    wp (writeChar c) (fun _ s' => Wrote [c] s s') (Failed True [c] · s ·) s := by
  have hmax := h.max
  simp only [writeChar, wp_bind, wp_get, wp_ite, wp_setPtr]
  refine ⟨fun hlt => ?_, fun _ => ?_⟩
  · have hin : Inside s.state.ch.buffer s.state.ch.ptr [c].length :=
      h.inside_free (by have := hlt.2; rw [List.length_singleton]; omega)
    exact (wp_unsafeSet (by exact hin)).mpr (Wrote.append h hin rfl)
  · exact wp_primitive_wrote hidle (wp_writeChar (h.withState _) rfl c)

theorem wp_resizeBuffer_output (h : Output s.state.ch) (hidle : s.state.ch.state = .idle)
    (len : ℤ) :
    wp (resizeBuffer len) (fun _ s' => Wrote [] s s') (Failed True [] · s ·) s := by
  have hnothing : ∀ e, Failed True [] (.raised e) s s := fun e =>
    ⟨⟨.raised, [], List.nil_prefix, ⟨.withCh rfl hidle.symm rfl rfl, h.withState _,
      (List.append_nil _).symm, rfl⟩⟩, fun _ _ => hidle⟩
  simp only [resizeBuffer, wp_bind, wp_get, wp_ite, wp_raise]
  refine ⟨fun _ => hnothing _, fun _ => ?_⟩
  cases htyp : s.state.ch.typ with
  | bytes => exact hnothing _
  | normal =>
    exact wp_primitive_wrote hidle (wp_resizeChannel_output (h.withState .busyPrimitive)
      htyp rfl len)

theorem wp_autoFlush (h : Output s.state.ch) (hidle : s.state.ch.state = .idle) :
    wp autoFlush (fun _ s' => Wrote [] s s') (Failed True [] · s ·) s := by
  simp only [autoFlush, wp_bind, wp_get, hidle, wp_update]
  have hflush := wp_flushTotal (h.withState .busyPrimitive) rfl
  have hafter : ∀ {s'}, Wrote [] (withState s .busyPrimitive) s' → Wrote [] s (withCh s' {
      s'.state.ch with
      state := if s'.state.ch.state = .busyPrimitive then .idle else s'.state.ch.state }) := by
    intro s' hw
    rw [if_pos (show s'.state.ch.state = .busyPrimitive from hw.state)]
    exact hw.unlock hidle
  simp only [safeFlushTotal, catch', wp_tryBind, wp_pure]
  refine wp_mono hflush (fun _ s' hw => hafter hw.1) fun x s' hx => ⟨fun _ _ => ?_, fun hno =>
    ⟨hx.unlock hidle, fun e he => absurd he (hno e)⟩⟩
  obtain ⟨data, hinitial, hw⟩ := hx.part
  obtain rfl := List.prefix_nil.mp hinitial
  exact hafter hw

namespace OutputOp

variable {endian : Endian} {floats : Floats} {op : OutputOp}

theorem wp_unit {t : Prim Unit}
    (ht : wp t (fun _ s' => Wrote (op.bytes endian floats) s s')
      (Failed op.NoOverflow (op.bytes endian floats) · s ·) s) :
    wp (unit t) (fun r s' => ∃ data, op.Contributes endian floats (.ok r) data ∧ Wrote data s s')
      (Failed op.NoOverflow (op.bytes endian floats) · s ·) s := by
  rw [unit, wp_bind]
  exact wp_mono ht (fun _ _ hw => ⟨_, rfl, hw⟩) fun _ _ h => h

theorem wp_unit_primitive {t : Prim Unit} (hidle : s.state.ch.state = .idle)
    (ht : wp t (fun _ s' => Wrote (op.bytes endian floats) (withState s .busyPrimitive) s')
      (Partly op.NoOverflow (op.bytes endian floats) · (withState s .busyPrimitive) ·)
      (withState s .busyPrimitive)) :
    wp (unit (primitive t))
      (fun r s' => ∃ data, op.Contributes endian floats (.ok r) data ∧ Wrote data s s')
      (Failed op.NoOverflow (op.bytes endian floats) · s ·) s :=
  wp_unit (wp_primitive_wrote hidle ht)

theorem wp_count_primitive {t : Prim ℤ} (hidle : s.state.ch.state = .idle)
    (ht : wp t (fun n s' => ∃ data : List UInt8, data <+: op.bytes endian floats ∧
        data.length = n ∧ Wrote data (withState s .busyPrimitive) s')
      (Partly op.NoOverflow (op.bytes endian floats) · (withState s .busyPrimitive) ·)
      (withState s .busyPrimitive)) :
    wp (count (primitive t))
      (fun r s' => ∃ data, op.Contributes endian floats (.ok r) data ∧ Wrote data s s')
      (Failed op.NoOverflow (op.bytes endian floats) · s ·) s := by
  have hprimitive : wp (primitive t)
      (fun n s' => ∃ data : List UInt8, (data.length = n ∧ data <+: op.bytes endian floats) ∧
        Wrote data s s') (Failed op.NoOverflow (op.bytes endian floats) · s ·) s := by
    refine wp_primitive_output hidle (wp_mono ht ?_ fun _ _ h => h)
    rintro n s' ⟨data, hinitial, hlength, hw⟩
    exact ⟨data, ⟨hlength, hinitial⟩, hw⟩
  rw [count, wp_bind]
  refine wp_mono hprimitive ?_ fun _ _ h => h
  rintro n s' ⟨data, hdata, hw⟩
  exact ⟨data, hdata, hw⟩

/-- Every operation keeps the account: what it adds to the content is what it contributes. -/
theorem wp_run (endian : Endian) (floats : Floats) (op : OutputOp) (h : Output s.state.ch)
    (hidle : s.state.ch.state = .idle) :
    wp (op.run endian floats)
      (fun r s' => ∃ data, op.Contributes endian floats (.ok r) data ∧ Wrote data s s')
      (Failed op.NoOverflow (op.bytes endian floats) · s ·) s := by
  have hbusy : Output (withState s .busyPrimitive).state.ch := h.withState _
  cases op with
  | writeChar c => exact wp_unit (wp_writeChar_fast h hidle c)
  | write str => exact wp_unit_primitive hidle (wp_write hbusy rfl str)
  | writeLine str => exact wp_unit_primitive hidle (wp_writeLine hbusy rfl str)
  | writeFrom buf ofs len | writeFromString buf ofs len =>
    exact wp_count_primitive hidle
      (wp_writeFromChecked blits_unsafeBlitFromBytes hbusy rfl _ buf ofs len)
  | writeFromBigstring buf ofs len =>
    exact wp_count_primitive hidle (wp_writeFromChecked blits_blit hbusy rfl _ buf ofs len)
  | writeFromExactly buf ofs len | writeFromStringExactly buf ofs len =>
    exact wp_unit_primitive hidle
      (wp_writeFromExactlyChecked blits_unsafeBlitFromBytes hbusy rfl _ buf ofs len)
  | writeFromExactlyBigstring buf ofs len =>
    exact wp_unit_primitive hidle (wp_writeFromExactlyChecked blits_blit hbusy rfl _ buf ofs len)
  | writeInt v =>
    exact wp_unit_primitive hidle (wp_writeBytes hbusy rfl (by simp [endian.length32]))
  | writeInt16 v =>
    exact wp_unit_primitive hidle (wp_writeBytes hbusy rfl (by simp [endian.length16]))
  | writeInt32 v =>
    exact wp_unit_primitive hidle (wp_writeBytes hbusy rfl (by simp [endian.length32]))
  | writeInt64 v =>
    exact wp_unit_primitive hidle (wp_writeBytes hbusy rfl (by simp [endian.length64]))
  | writeFloat32 v =>
    exact wp_unit_primitive hidle (wp_writeBytes hbusy rfl (by simp [endian.length32]))
  | writeFloat64 v =>
    exact wp_unit_primitive hidle (wp_writeBytes hbusy rfl (by simp [endian.length64]))
  | flush =>
    exact wp_unit_primitive hidle
      (wp_mono (wp_flushTotal hbusy rfl) (fun _ _ h => h.1) fun _ _ h => h)
  | resizeBuffer len => exact wp_unit (wp_resizeBuffer_output h hidle len)
  | autoFlush => exact wp_unit (wp_autoFlush h hidle)

theorem wp_run_flush (endian : Endian) (floats : Floats) (h : Output s.state.ch)
    (hidle : s.state.ch.state = .idle) :
    wp (flush.run endian floats) (fun _ s' => s'.state.ch.ptr = 0) (fun _ _ => True) s := by
  rw [run, unit, wp_bind]
  exact wp_primitive hidle (wp_mono (wp_flushTotal (h.withState .busyPrimitive) rfl)
    (fun _ _ h => ⟨h.1.state, h.2⟩) fun x s' hx => ⟨fun _ _ => ⟨by
      obtain ⟨_, _, hw⟩ := hx.part
      exact hw.state, trivial⟩, fun _ => trivial⟩)

end OutputOp

/-! ## Sessions -/

variable {endian : Endian} {floats : Floats}

/-- What has happened to an output channel. -/
abbrev OutputHistory : Type := List (Entry World Answer Exn Fault OutputOp (Option ℤ))

/-- The account of a history: the content is what its operations have contributed, a flush has left
an empty buffer, and an operation waits only for an answer. -/
structure Accounted (endian : Endian) (floats : Floats) (past : OutputHistory) (s : Moment) :
    Prop where
  contributed : ∃ parts,
    List.Forall₂ (fun e data => e.op.Contributes endian floats e.outcome data) past parts ∧
      s.state.content = parts.flatten
  flushed : ∀ e ∈ past, e.op = .flush → e.outcome = .ok none → e.after.state.ch.ptr = 0
  waited : ∀ e ∈ past, e.outcome = .error .waiting → s.answers = []

/-- The history of a channel that can take the next operation. -/
structure Ready (endian : Endian) (floats : Floats) (past : OutputHistory) (s : Moment) : Prop where
  accounted : Accounted endian floats past s
  output : Output s.state.ch
  idle : s.state.ch.state = .idle
  ended : ∀ e ∈ past, e.outcome ≠ .error .waiting

theorem Accounted.snoc {past : OutputHistory} (h : Accounted endian floats past s)
    (hended : ∀ e ∈ past, e.outcome ≠ .error .waiting)
    {e : Entry World Answer Exn Fault OutputOp (Option ℤ)}
    (hdata : e.op.Contributes endian floats e.outcome data)
    (hcontent : s'.state.content = s.state.content ++ data)
    (hflush : e.op = .flush → e.outcome = .ok none → e.after.state.ch.ptr = 0)
    (hwait : e.outcome = .error .waiting → s'.answers = []) :
    Accounted endian floats (past ++ [e]) s' := by
  obtain ⟨parts, hparts, hflat⟩ := h.contributed
  have hflushed := h.flushed
  exact ⟨⟨parts ++ [data], List.rel_append hparts (.cons hdata .nil), by simp [hcontent, hflat]⟩,
    by grind, by grind⟩

theorem Ready.step {past : OutputHistory} (h : Ready endian floats past s) (op : OutputOp) :
    wp (op.run endian floats)
      (fun r s' => Ready endian floats (past ++ [⟨op, .ok r, s'⟩]) s')
      (fun x s' => Accounted endian floats (past ++ [⟨op, .error x, s'⟩]) s' ∧
        ∀ e, x = .raised e → Ready endian floats (past ++ [⟨op, .error x, s'⟩]) s') s := by
  have hptr : wp (op.run endian floats) (fun _ s' => op = .flush → s'.state.ch.ptr = 0)
      (fun _ _ => True) s := by
    by_cases hop : op = .flush
    · subst hop
      exact wp_mono (OutputOp.wp_run_flush endian floats h.output h.idle) (fun _ _ h _ => h)
        fun _ _ _ => trivial
    · exact wp_mono (wp_trivial _) (fun _ _ _ h => absurd h hop) fun _ _ h => h
  have hended := h.ended
  refine wp_mono (wp_and (op.wp_run endian floats h.output h.idle) hptr) ?_ ?_
  · rintro r s' ⟨⟨data, hdata, hw⟩, hempty⟩
    exact ⟨h.accounted.snoc hended hdata hw.content (fun hop _ => hempty hop) (by simp), hw.output,
      hw.state.trans h.idle, by grind⟩
  · rintro x s' ⟨⟨⟨hend, data, hinitial, hw⟩, hraised⟩, -⟩
    have haccounted : Accounted endian floats (past ++ [⟨op, .error x, s'⟩]) s' :=
      h.accounted.snoc hended hinitial hw.content (by simp) fun hx =>
        hend.waits (by simpa using hx)
    refine ⟨haccounted, ?_⟩
    rintro e rfl
    have ho := hw.output
    exact ⟨haccounted, ⟨ho.mode, ho.size, ho.nonneg, ho.le, ho.max⟩, hraised e rfl, by grind⟩

theorem accounted_session (endian : Endian) (floats : Floats)
    {defaultBufferSize : { n : ℤ // checkBufferSize "set_default_buffer_size" n = .ok () }}
    {buffer : Option (List UInt8)} {ch : RealChannel}
    (hmake : make defaultBufferSize .output buffer = .ok ch) (platform : Platform)
    (answers : List Answer) (ops : List OutputOp) :
    Accounted endian floats
      (session (OutputOp.run endian floats) ops (start ch [] platform answers)).1
      (session (OutputOp.run endian floats) ops (start ch [] platform answers)).2 := by
  obtain ⟨bytes, rfl, -⟩ := makeWith_of_make hmake
  have hready : Ready endian floats [] (start (makeWith .output bytes) [] platform answers) :=
    ⟨⟨⟨[], .nil, rfl⟩, by simp, by simp⟩,
      ⟨rfl, rfl, Int.le_refl 0, Int.natCast_nonneg _, rfl⟩, rfl, by simp⟩
  exact session_rule (Ready endian floats) (Accounted endian floats)
    (fun _ _ h => h.accounted) (fun _ _ op h => h.step op) ops [] _ hready

end Lwt.Io.Data
