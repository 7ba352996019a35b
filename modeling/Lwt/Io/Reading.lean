import Mathlib.Data.List.Forall2
import Lwt.Io.Input

/-!
# What the readers get

The operations on an input channel, one after the other, against a source that gives its data in
any chunks or fails.
-/

namespace Lwt.Io.Data

open Dialogue Window

/-- The operations of `lwt_io.ml` on an input channel.  The function given to `block` returns the
bytes of the block. -/
inductive InputOp
  | readChar
  | readCharOpt
  | readLine
  | readLineOpt
  | read (count : Option ℤ)
  | readInto (buf : List UInt8) (ofs len : ℤ)
  | readIntoBigstring (buf : List UInt8) (ofs len : ℤ)
  | readIntoExactly (buf : List UInt8) (ofs len : ℤ)
  | readIntoExactlyBigstring (buf : List UInt8) (ofs len : ℤ)
  | readValue (marshal : Marshal)
  | block (size : ℤ)
  | readInt
  | readInt16
  | readInt32
  | readInt64
  | readFloat32
  | readFloat64
  | resizeBuffer (len : ℤ)

inductive InputResult
  | char (c : UInt8)
  | bytes (data : List UInt8)
  /-- `None` -/
  | none
  /-- the number of bytes read, and the bytes of the caller -/
  | filled (n : ℤ) (buf : List UInt8)
  | int (v : ℤ)
  | int32 (v : BitVec 32)
  | int64 (v : BitVec 64)
  | float (v : BitVec 64)
  | unit
  deriving DecidableEq

namespace InputOp

variable (endian : Endian) (floats : Floats)

def result {α : Type} (t : Prim α) (f : α → InputResult) : Prim InputResult :=
  t >>= fun a => pure (f a)

def option {α : Type} (f : α → InputResult) (a : Option α) : InputResult := a.elim .none f

def run : InputOp → Prim InputResult
  | readChar => result Data.readChar .char
  | readCharOpt => result Data.readCharOpt (option .char)
  | readLine => result (primitive Primitives.readLine) .bytes
  | readLineOpt => result (primitive Primitives.readLineOpt) (option .bytes)
  | read count => result (primitive (Primitives.read count)) .bytes
  | readInto buf ofs len =>
    result (primitive (Primitives.readInto buf ofs len)) fun r => .filled r.1 r.2
  | readIntoBigstring buf ofs len =>
    result (primitive (Primitives.readIntoBigstring buf ofs len)) fun r => .filled r.1 r.2
  | readIntoExactly buf ofs len =>
    result (primitive (Primitives.readIntoExactly buf ofs len)) (.filled len)
  | readIntoExactlyBigstring buf ofs len =>
    result (primitive (Primitives.readIntoExactlyBigstring buf ofs len)) (.filled len)
  | readValue marshal => result (primitive (Primitives.readValue marshal)) .bytes
  | block size => result (primitive (Primitives.block size fun ptr => getBytes ptr size)) .bytes
  | readInt => result (primitive (Primitives.readInt endian)) .int
  | readInt16 => result (primitive (Primitives.readInt16 endian)) .int
  | readInt32 => result (primitive (Primitives.readInt32 endian)) .int32
  | readInt64 => result (primitive (Primitives.readInt64 endian)) .int64
  | readFloat32 => result (primitive (Primitives.readFloat32 endian floats)) .float
  | readFloat64 => result (primitive (Primitives.readFloat64 endian)) .float
  | resizeBuffer len => result (Data.resizeBuffer len) fun _ => .unit

/-- The sum that the checks of the arguments compute does not overflow. -/
def NoOverflow : InputOp → Prop
  | readInto _ ofs len | readIntoBigstring _ ofs len | readIntoExactly _ ofs len
  | readIntoExactlyBigstring _ ofs len => ofs + len ≤ maxInt
  | _ => True

/-- `seg` is a number of `size` bytes. -/
def Number {α : Type} (seg : List UInt8) (size : ℕ) (value : List UInt8 → α) (v : α) : Prop :=
  seg.length = size ∧ v = value seg

/-- The result of an operation that has consumed `seg`: these bytes, in the form the operation
gives them. -/
def Returns (op : InputOp) (r : InputResult) (seg : List UInt8) : Prop :=
  match op, r with
  | readChar, .char c | readCharOpt, .char c => seg = [c]
  | readCharOpt, .none | readLineOpt, .none => seg = []
  | readLine, .bytes line | readLineOpt, .bytes line => Line seg line
  | read count, .bytes data => seg = data ∧ ∀ len, count = some len → data.length ≤ len
  | readInto buf ofs len, .filled n buf' | readIntoBigstring buf ofs len, .filled n buf' =>
    seg.length = n ∧ n ≤ len ∧ buf' = splice buf ofs seg
  | readIntoExactly buf ofs len, .filled n buf'
  | readIntoExactlyBigstring buf ofs len, .filled n buf' =>
    seg.length = n ∧ n = len ∧ buf' = splice buf ofs seg
  | readValue _, .bytes data => seg = data
  | block size, .bytes data => seg = data ∧ data.length = size
  | readInt, .int v => Number seg 4 (fun b => (endian.value32 b).toInt) v
  | readInt16, .int v => Number seg 2 (fun b => (endian.value16 b).toInt) v
  | readInt32, .int32 v => Number seg 4 endian.value32 v
  | readInt64, .int64 v => Number seg 8 endian.value64 v
  | readFloat32, .float v => Number seg 4 (fun b => floats.floatOfBits (endian.value32 b)) v
  | readFloat64, .float v => Number seg 8 endian.value64 v
  | resizeBuffer _, .unit => seg = []
  | _, _ => False

/-- An operation without a result may have consumed something too. -/
def Consumes (op : InputOp) (outcome : Except (Abnormal Exn Fault) InputResult)
    (seg : List UInt8) : Prop :=
  ∀ r, outcome = .ok r → Returns endian floats op r seg

end InputOp

variable {α : Type} {s s' : Moment} {seg : List UInt8}

/-! ## Operations on an idle channel -/

theorem Consumed.unlock (hidle : s.state.ch.state = .idle)
    (h : Consumed seg (withState s .busyPrimitive) s') : Consumed seg s (withState s' .idle) :=
  ⟨h.toFrame.unlock hidle,
    ⟨h.input.mode, h.input.size, h.input.nonneg, h.input.le, h.input.max⟩, h.unread, h.horizon⟩

theorem Input.withState (h : Input s.state.ch) (state : State) :
    Input (Data.withState s state).state.ch :=
  ⟨h.mode, h.size, h.nonneg, h.le, h.max⟩

/-- How an operation that fails leaves the channel. -/
structure Broken (inside : Prop) (x : Abnormal Exn Fault) (s s' : Moment) : Prop where
  stopped : Stopped inside x s (withState s' .idle)
  idle : ∀ e, x = .raised e → s'.state.ch.state = .idle

theorem wp_primitive_input {inside : Prop} {f : Prim α} {P : α → List UInt8 → Prop}
    (hidle : s.state.ch.state = .idle)
    (hf : wp f (fun a s' => ∃ seg, P a seg ∧ Consumed seg (withState s .busyPrimitive) s')
      (fun x s' => Stopped inside x (withState s .busyPrimitive) s')
      (withState s .busyPrimitive)) :
    wp (primitive f) (fun a s' => ∃ seg, P a seg ∧ Consumed seg s s')
      (fun x s' => Broken inside x s s') s := by
  refine wp_primitive hidle (wp_mono hf ?_ ?_)
  · rintro a s' ⟨seg, ha, hc⟩
    exact ⟨hc.state, seg, ha, hc.unlock hidle⟩
  · intro x s' hx
    obtain ⟨seg, hc⟩ := hx.part
    have hended : Ended inside x (withState s' .idle) :=
      ⟨hx.ended.channel, hx.ended.user, hx.ended.waits⟩
    have hstopped : Stopped inside x s (withState s' .idle) := ⟨hended, seg, hc.unlock hidle⟩
    exact ⟨fun _ _ => ⟨hc.state, hstopped, fun _ _ => rfl⟩, fun hno =>
      ⟨hstopped, fun e he => absurd he (hno e)⟩⟩

theorem wp_resizeBuffer_input (h : Input s.state.ch) (hidle : s.state.ch.state = .idle)
    (len : ℤ) :
    wp (resizeBuffer len) (fun _ s' => ∃ seg, seg = [] ∧ Consumed seg s s')
      (fun x s' => Broken True x s s') s := by
  have hnothing : ∀ e, Broken True (.raised e) s s := fun e =>
    ⟨⟨.raised, [], .withCh rfl hidle.symm rfl rfl, h.withState _, rfl, rfl⟩, fun _ _ => hidle⟩
  simp only [resizeBuffer, wp_bind, wp_get, wp_ite, wp_raise]
  refine ⟨fun _ => hnothing _, fun _ => ?_⟩
  cases htyp : s.state.ch.typ with
  | bytes => exact hnothing _
  | normal =>
    exact wp_primitive_input (P := fun _ seg => seg = []) hidle
      (wp_mono (wp_resizeChannel_input (h.withState .busyPrimitive) htyp len) (fun _ _ hc =>
      ⟨_, rfl, hc⟩)
        fun _ _ hx => hx)

/-! ## The fast paths -/

theorem wp_readChar_buffered (h : Input s.state.ch) (hlt : s.state.ch.ptr < s.state.ch.max) :
    wp Primitives.readChar (fun c s' => c = s.state.ch.buffer.getD s.state.ch.ptr.toNat 0 ∧
      s' = withCh s { s.state.ch with ptr := s.state.ch.ptr + 1 }) (fun _ _ => False) s := by
  refine wp_loopAsking (fun _ s' => s' = s) ?_ rfl
  rintro _ _ rfl
  have hin := h.inside_of_le (show (0 : ℤ) ≤ 1 by omega) (by omega)
  simp only [wp_bind, wp_get, wp_ite, wp_setPtr]
  refine ⟨fun hempty => by omega, fun _ => (wp_unsafeGet (by exact hin)).mpr ?_⟩
  simp

theorem wp_readCharOpt_buffered (h : Input s.state.ch) (hlt : s.state.ch.ptr < s.state.ch.max) :
    wp Primitives.readCharOpt
      (fun c s' => c = some (s.state.ch.buffer.getD s.state.ch.ptr.toNat 0) ∧
        s' = withCh s { s.state.ch with ptr := s.state.ch.ptr + 1 }) (fun _ _ => False) s :=
  wp_orEndOfFile (wp_mono (wp_readChar_buffered h hlt) (fun _ _ h => ⟨by rw [h.1], h.2⟩)
    fun _ _ h => h.elim)

/-- A primitive that only passes a character leaves an idle channel as the fast path does. -/
theorem primitive_eq {f : Prim α} {a : α} (hidle : s.state.ch.state = .idle)
    (hf : wp f (fun b s' => b = a ∧ s' = withCh (withState s .busyPrimitive)
      { (withState s .busyPrimitive).state.ch with ptr := s.state.ch.ptr + 1 }) (fun _ _ => False)
      (withState s .busyPrimitive)) :
    primitive f s = (.ok a, withCh s { s.state.ch with ptr := s.state.ch.ptr + 1 }) := by
  refine eq_of_wp (wp_primitive hidle (wp_mono hf ?_ fun _ _ h => h.elim))
  rintro b s' ⟨rfl, rfl⟩
  refine ⟨rfl, rfl, ?_⟩
  simp only [withState, withCh_ch, withCh_withCh, hidle.symm]

theorem readChar_eq (h : Input s.state.ch) : readChar s = primitive Primitives.readChar s := by
  by_cases hfast : s.state.ch.state = .idle ∧ s.state.ch.ptr < s.state.ch.max
  · obtain ⟨hidle, hlt⟩ := hfast
    rw [primitive_eq hidle (wp_readChar_buffered (h.withState _) hlt)]
    refine eq_of_wp ?_
    have hin := h.inside_of_le (show (0 : ℤ) ≤ 1 by omega) (by omega)
    simp only [readChar, wp_bind, wp_get, wp_ite, wp_setPtr]
    refine ⟨fun _ => (wp_unsafeGet (by exact hin)).mpr ⟨rfl, rfl⟩, fun hno =>
      absurd ⟨hidle, hlt⟩ hno⟩
  · rw [readChar, get_bind, if_neg hfast]

theorem readCharOpt_eq (h : Input s.state.ch) :
    readCharOpt s = primitive Primitives.readCharOpt s := by
  by_cases hfast : s.state.ch.state = .idle ∧ s.state.ch.ptr < s.state.ch.max
  · obtain ⟨hidle, hlt⟩ := hfast
    rw [primitive_eq hidle (wp_readCharOpt_buffered (h.withState _) hlt)]
    refine eq_of_wp ?_
    have hin := h.inside_of_le (show (0 : ℤ) ≤ 1 by omega) (by omega)
    simp only [readCharOpt, wp_bind, wp_get, wp_ite, wp_setPtr]
    refine ⟨fun _ => (wp_unsafeGet (by exact hin)).mpr ⟨rfl, rfl⟩, fun hno =>
      absurd ⟨hidle, hlt⟩ hno⟩
  · rw [readCharOpt, get_bind, if_neg hfast]

/-! ## Sessions -/

namespace InputOp

variable {endian : Endian} {floats : Floats} {op : InputOp}

theorem wp_result {t : Prim α} {f : α → InputResult} {P : α → List UInt8 → Prop}
    (hP : ∀ a seg, P a seg → op.Returns endian floats (f a) seg)
    (ht : wp t (fun a s' => ∃ seg, P a seg ∧ Consumed seg s s')
      (fun x s' => Broken op.NoOverflow x s s') s) :
    wp (result t f) (fun r s' => ∃ seg, op.Returns endian floats r seg ∧ Consumed seg s s')
      (fun x s' => Broken op.NoOverflow x s s') s := by
  rw [result, wp_bind]
  refine wp_mono ht ?_ fun _ _ h => h
  rintro a s' ⟨seg, ha, hc⟩
  exact ⟨seg, hP a seg ha, hc⟩

theorem wp_result_primitive {t : Prim α} {f : α → InputResult} {P : α → List UInt8 → Prop}
    (hidle : s.state.ch.state = .idle) (hP : ∀ a seg, P a seg → op.Returns endian floats (f a) seg)
    (ht : wp t (fun a s' => ∃ seg, P a seg ∧ Consumed seg (withState s .busyPrimitive) s')
      (fun x s' => Stopped op.NoOverflow x (withState s .busyPrimitive) s')
      (withState s .busyPrimitive)) :
    wp (result (primitive t) f)
      (fun r s' => ∃ seg, op.Returns endian floats r seg ∧ Consumed seg s s')
      (fun x s' => Broken op.NoOverflow x s s') s :=
  wp_result hP (wp_primitive_input hidle ht)

theorem wp_number (h : Input s.state.ch) (hbusy : s.state.ch.state = .busyPrimitive) {size : ℕ}
    (value : List UInt8 → α) :
    wp (Primitives.readBlockUnsafe size fun ptr => getBytes ptr size >>= fun b => pure (value b))
      (fun v s' => ∃ seg, Number seg size value v ∧ Consumed seg s s')
      (fun x s' => Stopped True x s s') s := by
  refine wp_readBlockUnsafe h hbusy (fun s' hc hfits => ?_) fun x s' hx hc => ⟨hx, _, hc⟩
  have hin := hc.input.inside_of_le (Int.natCast_nonneg size) hfits
  rw [wp_bind]
  have hlength := length_slice hin
  refine (wp_getBytes (by exact hin)).mpr ⟨_, ⟨Int.ofNat_inj.mp hlength, rfl⟩, ?_⟩
  exact hc.trans (Consumed.pass hc.input (Int.natCast_nonneg size) hfits rfl)

theorem wp_run (endian : Endian) (floats : Floats) (op : InputOp) (h : Input s.state.ch)
    (hidle : s.state.ch.state = .idle) :
    wp (op.run endian floats)
      (fun r s' => ∃ seg, op.Returns endian floats r seg ∧ Consumed seg s s')
      (fun x s' => Broken op.NoOverflow x s s') s := by
  have hbusy : Input (withState s .busyPrimitive).state.ch := h.withState _
  cases op with
  | readChar =>
    refine wp_result (P := fun c seg => seg = [c]) (fun _ _ h => h)
      ((wp_congr (readChar_eq h)).mpr (wp_primitive_input hidle
        (wp_mono (wp_readChar hbusy rfl) ?_ fun _ _ hx => ⟨hx.1, _, hx.2⟩)))
    rintro c s' ⟨hc, -⟩
    exact ⟨_, rfl, hc⟩
  | readCharOpt =>
    -- `End_of_file` becomes `None`, and nothing has been read
    refine wp_result (P := fun c seg => readCharOpt.Returns endian floats (option .char c) seg)
      (fun _ _ h => h) ((wp_congr (readCharOpt_eq h)).mpr (wp_primitive_input hidle
        (wp_orEndOfFile (wp_mono (wp_readChar hbusy rfl) ?_ ?_))))
    · rintro c s' ⟨hc, -⟩
      exact ⟨_, rfl, hc⟩
    · exact fun x s' hx => ⟨fun _ => ⟨[], rfl, hx.2⟩, fun _ => ⟨hx.1, _, hx.2⟩⟩
  | readLine =>
    refine wp_result_primitive (P := fun line seg => Line seg line) hidle (fun _ _ h => h)
      (wp_mono (wp_readLine hbusy rfl) ?_ fun _ _ hx => hx.1)
    rintro line s' ⟨seg, hline, hc⟩
    exact ⟨seg, hline, hc⟩
  | readLineOpt =>
    refine wp_result_primitive
      (P := fun line seg => readLineOpt.Returns endian floats (option .bytes line) seg) hidle
      (fun _ _ h => h) (wp_orEndOfFile (wp_mono (wp_readLine hbusy rfl) ?_ ?_))
    · rintro line s' ⟨seg, hline, hc⟩
      exact ⟨seg, hline, hc⟩
    · exact fun x s' hx => ⟨fun he => ⟨[], rfl, hx.2 he⟩, fun _ => hx.1⟩
  | read count =>
    refine wp_result_primitive
      (P := fun data seg => seg = data ∧ ∀ len, count = some len → data.length ≤ len) hidle
      (fun _ _ h => h) (wp_mono (wp_read hbusy rfl count) ?_ fun _ _ hx => hx)
    rintro data s' ⟨hlen, hc⟩
    exact ⟨data, ⟨rfl, hlen⟩, hc⟩
  | readInto buf ofs len | readIntoBigstring buf ofs len =>
    refine wp_result_primitive
      (P := fun r seg => seg.length = r.1 ∧ r.1 ≤ len ∧ r.2 = splice buf ofs seg) hidle
      (fun _ _ h => h) (wp_mono (wp_readIntoChecked hbusy rfl _ buf ofs len) ?_ fun _ _ hx => hx)
    rintro r s' ⟨seg, hn, hle, hbuf, hc⟩
    exact ⟨seg, ⟨hn.symm, hle, hbuf⟩, hc⟩
  | readIntoExactly buf ofs len | readIntoExactlyBigstring buf ofs len =>
    refine wp_result_primitive
      (P := fun b seg => seg.length = len ∧ len = len ∧ b = splice buf ofs seg) hidle
      (fun _ _ h => h)
      (wp_mono (wp_readIntoExactlyChecked hbusy rfl _ buf ofs len) ?_ fun _ _ hx => hx)
    rintro b s' ⟨seg, hlen, hbuf, hc⟩
    exact ⟨seg, ⟨hlen, rfl, hbuf⟩, hc⟩
  | readValue marshal =>
    exact wp_result_primitive (P := fun data seg => seg = data) hidle (fun _ _ h => h)
      (wp_mono (wp_readValue hbusy rfl marshal) (fun data _ hc => ⟨data, rfl, hc⟩)
        fun _ _ hx => hx)
  | block size =>
    refine wp_result_primitive (P := fun data seg => seg = data ∧ data.length = size) hidle
      (fun _ _ h => h) (wp_mono (wp_block hbusy rfl size) ?_ fun _ _ hx => hx)
    rintro data s' ⟨hlen, hc⟩
    exact ⟨data, ⟨rfl, hlen⟩, hc⟩
  | readInt =>
    exact wp_result_primitive hidle (fun _ _ h => h) (wp_number hbusy rfl _)
  | readInt16 => exact wp_result_primitive hidle (fun _ _ h => h) (wp_number hbusy rfl _)
  | readInt32 => exact wp_result_primitive hidle (fun _ _ h => h) (wp_number hbusy rfl _)
  | readInt64 => exact wp_result_primitive hidle (fun _ _ h => h) (wp_number hbusy rfl _)
  | readFloat32 =>
    refine wp_result_primitive
      (P := fun v seg => Number seg 4 (fun b => floats.floatOfBits (endian.value32 b)) v) hidle
      (fun _ _ h => h) ?_
    rw [Primitives.readFloat32, wp_bind]
    refine wp_mono (wp_number hbusy rfl endian.value32) ?_ fun _ _ hx => hx
    rintro v s' ⟨seg, ⟨hlen, rfl⟩, hc⟩
    exact ⟨seg, ⟨hlen, rfl⟩, hc⟩
  | readFloat64 => exact wp_result_primitive hidle (fun _ _ h => h) (wp_number hbusy rfl _)
  | resizeBuffer len =>
    exact wp_result (P := fun _ seg => seg = []) (fun _ _ h => h)
      (wp_resizeBuffer_input h hidle len)

end InputOp

variable {endian : Endian} {floats : Floats} {data : List UInt8}

/-- What has happened to an input channel. -/
abbrev InputHistory : Type := List (Entry World Answer Exn Fault InputOp InputResult)

/-- The account of a history: the data is what its operations have consumed and what is unread, and
an operation waits only for an answer. -/
structure Delivered (endian : Endian) (floats : Floats) (data : List UInt8) (past : InputHistory)
    (s : Moment) : Prop where
  consumed : ∃ segs,
    List.Forall₂ (fun e seg => e.op.Consumes endian floats e.outcome seg) past segs ∧
      data = segs.flatten ++ s.state.unread
  input : Input s.state.ch
  waited : ∀ e ∈ past, e.outcome = .error .waiting → s.answers = []

/-- The history of a channel that can take the next operation. -/
structure Reads (endian : Endian) (floats : Floats) (data : List UInt8) (past : InputHistory)
    (s : Moment) : Prop where
  delivered : Delivered endian floats data past s
  idle : s.state.ch.state = .idle
  ended : ∀ e ∈ past, e.outcome ≠ .error .waiting

theorem Reads.snoc {past : InputHistory} (h : Reads endian floats data past s)
    {e : Entry World Answer Exn Fault InputOp InputResult}
    (he : e.op.Consumes endian floats e.outcome seg) (hinput : Input s'.state.ch)
    (hunread : s.state.unread = seg ++ s'.state.unread)
    (hwait : e.outcome = .error .waiting → s'.answers = []) :
    Delivered endian floats data (past ++ [e]) s' := by
  obtain ⟨segs, hsegs, hdata⟩ := h.delivered.consumed
  have hended := h.ended
  exact ⟨⟨segs ++ [seg], List.rel_append hsegs (.cons he .nil), by simp [hdata, hunread]⟩, hinput,
    by grind⟩

theorem Reads.step {past : InputHistory} (h : Reads endian floats data past s) (op : InputOp) :
    wp (op.run endian floats)
      (fun r s' => Reads endian floats data (past ++ [⟨op, .ok r, s'⟩]) s')
      (fun x s' => Delivered endian floats data (past ++ [⟨op, .error x, s'⟩]) s' ∧
        ∀ e, x = .raised e → Reads endian floats data (past ++ [⟨op, .error x, s'⟩]) s') s := by
  have hended := h.ended
  refine wp_mono (op.wp_run endian floats h.delivered.input h.idle) ?_ ?_
  · rintro r s' ⟨seg, hreturns, hc⟩
    refine ⟨h.snoc (fun r' hr' => ?_) hc.input hc.unread (by simp), hc.state.trans h.idle,
      by grind⟩
    cases hr'
    exact hreturns
  · rintro x s' ⟨⟨hend, seg, hc⟩, hidle⟩
    have hi := hc.input
    have hdelivered : Delivered endian floats data (past ++ [⟨op, .error x, s'⟩]) s' :=
      h.snoc (by simp [InputOp.Consumes]) ⟨hi.mode, hi.size, hi.nonneg, hi.le, hi.max⟩ hc.unread
        fun hx => hend.waits (by simpa using hx)
    refine ⟨hdelivered, ?_⟩
    rintro e rfl
    exact ⟨hdelivered, hidle e rfl, by grind⟩

/-- An input channel of `make` or `of_bytes` with the bytes its refill function will give and the
data that can be read. -/
inductive Opened : RealChannel → List UInt8 → List UInt8 → Prop
  | make (defaultBufferSize : { n : ℤ // checkBufferSize "set_default_buffer_size" n = .ok () })
      (buffer : Option (List UInt8)) (ch : RealChannel) (source : List UInt8)
      (h : make defaultBufferSize .input buffer = .ok ch) : Opened ch source source
  | ofBytes (bytes : List UInt8) : Opened (ofBytes .input bytes) [] bytes

theorem Opened.delivered {ch : RealChannel} {source : List UInt8} (h : Opened ch source data)
    (platform : Platform) (answers : List Answer) :
    Reads endian floats data [] (start ch source platform answers) := by
  suffices Input ch ∧ data = (start ch source platform answers).state.unread ∧ ch.state = .idle from
    ⟨⟨⟨[], .nil, by simpa using this.2.1⟩, this.1, by simp⟩, this.2.2, by simp⟩
  cases h with
  | make _ _ _ _ hmake =>
    obtain ⟨bytes, rfl, -⟩ := makeWith_of_make hmake
    exact ⟨⟨rfl, rfl, Int.le_refl 0, Int.le_refl 0, Int.natCast_nonneg _⟩, by simp [World.unread,
      start, makeWith], rfl⟩
  | ofBytes bytes =>
    refine ⟨⟨rfl, rfl, Int.le_refl 0, Int.natCast_nonneg _, Int.le_refl _⟩, ?_, rfl⟩
    simp [World.unread, start, Data.ofBytes]

/-- After any operations, and whenever the refill function is waited for, the data of the source is
what the operations have consumed, one segment after the other, followed by what is in the buffer
and what the source still has; an operation that succeeds returns its segment, and the fast paths
do what the primitives do. -/
theorem readers_get_the_source (endian : Endian) (floats : Floats) (ch : RealChannel)
    (source data : List UInt8) (h : Opened ch source data) (platform : Platform)
    (answers : List Answer)
    (ops : List InputOp) :
    let r := session (InputOp.run endian floats) ops (start ch source platform answers)
    (∃ segs, List.Forall₂ (fun e seg => e.op.Consumes endian floats e.outcome seg) r.1 segs ∧
        data = segs.flatten ++ (slice r.2.state.ch.buffer r.2.state.ch.ptr
          (r.2.state.ch.max - r.2.state.ch.ptr) ++ r.2.state.source)) ∧
      readChar r.2 = primitive Primitives.readChar r.2 ∧
      readCharOpt r.2 = primitive Primitives.readCharOpt r.2 ∧
      ∀ e ∈ r.1, e.outcome = .error .waiting → r.2.answers = [] := by
  have hdelivered := session_rule (Reads endian floats data) (Delivered endian floats data)
    (fun _ _ h => h.delivered) (fun _ _ op h => h.step op) ops [] _ (h.delivered platform answers)
  exact ⟨hdelivered.consumed, readChar_eq hdelivered.input, readCharOpt_eq hdelivered.input,
    hdelivered.waited⟩

/-- A line that straddles two chunks, and the end of a channel of `of_bytes`. -/
theorem readers_get_the_source_in_chunks :
    let r := session (InputOp.run littleEndian zeroFloats) [.readChar, .readLine, .read (some 5)]
      (start (makeWith .input (List.replicate 16 0)) [97, 98, 99, 13, 10, 100] .unlimited
        [.moves 2, .moves 3, .moves 9])
    r.1.map (·.outcome) = [.ok (.char 97), .ok (.bytes [98, 99]), .ok (.bytes [100])] ∧
      ∃ segs, List.Forall₂
        (fun e seg => e.op.Consumes littleEndian zeroFloats e.outcome seg) r.1 segs ∧
        [97, 98, 99, 13, 10, 100] = segs.flatten ++ (slice r.2.state.ch.buffer r.2.state.ch.ptr
          (r.2.state.ch.max - r.2.state.ch.ptr) ++ r.2.state.source) :=
  ⟨by decide +kernel, (readers_get_the_source littleEndian zeroFloats
    (makeWith .input (List.replicate 16 0)) _ _
    (.make ⟨16, rfl⟩ none _ _ rfl) .unlimited _ _).1⟩

/-- The end of a line is consumed and not returned. -/
theorem line_is_not_its_segment :
    ∃ (s s' : Moment) (seg line : List UInt8), Input s.state.ch ∧ s.state.ch.state = .idle ∧
      InputOp.readLine.run littleEndian zeroFloats s = (.ok (.bytes line), s') ∧
      s.state.unread = seg ++ s'.state.unread ∧ line ≠ seg := by
  let s := start (makeWith .input (List.replicate 16 0)) [97, 10] .unlimited [.moves 2]
  exact ⟨s, (InputOp.readLine.run littleEndian zeroFloats s).2, [97, 10], [97],
    ⟨rfl, rfl, Int.le_refl 0, Int.le_refl 0, Int.natCast_nonneg _⟩, rfl,
    Prod.ext (by decide +kernel) rfl, by decide +kernel, by decide⟩

end Lwt.Io.Data
