import Lwt.Io.Written
import Lwt.Io.Reading

/-!
# Numbers through a channel

What has been written with the functions of `MakeNumberIO` is read back with the matching functions
from the bytes that the sink got.  A number may lie across the end of the buffer on both sides: the
writer makes room for all of it before it writes (`write_block_unsafe`), the reader refills until
all of it is there (`read_block_unsafe`).  No number is longer than the smallest buffer, so the
refill function always has room for a byte (`Supplied`).
-/

namespace Lwt.Io.Data

open Dialogue Window

/-- What `write_int`, `write_int16` and so on are called with. -/
inductive Value
  | int (v : ℤ)
  | int16 (v : ℤ)
  | int32 (v : BitVec 32)
  | int64 (v : BitVec 64)
  | float32 (v : BitVec 64)
  | float64 (v : BitVec 64)

namespace Value

variable (endian : Endian) (floats : Floats)

def write : Value → OutputOp
  | int v => .writeInt v
  | int16 v => .writeInt16 v
  | int32 v => .writeInt32 v
  | int64 v => .writeInt64 v
  | float32 v => .writeFloat32 v
  | float64 v => .writeFloat64 v

def read : Value → InputOp
  | int _ => .readInt
  | int16 _ => .readInt16
  | int32 _ => .readInt32
  | int64 _ => .readInt64
  | float32 _ => .readFloat32
  | float64 _ => .readFloat64

/-- What the matching function reads. -/
def result : Value → InputResult
  | int v => .int (v.bmod (2 ^ 32))
  | int16 v => .int (v.bmod (2 ^ 16))
  | int32 v => .int32 v
  | int64 v => .int64 v
  | float32 v => .float (floats.floatOfBits (floats.bitsOfFloat v))
  | float64 v => .float v

def size : Value → ℕ
  | int16 _ => 2
  | int _ | int32 _ | float32 _ => 4
  | int64 _ | float64 _ => 8

def bytes (v : Value) : List UInt8 := v.write.bytes endian floats

variable {endian : Endian} {floats : Floats} {seg : List UInt8} {r : InputResult}

theorem size_le (v : Value) : (v.size : ℤ) ≤ minBufferSize := by
  cases v <;> simp [size, minBufferSize]

theorem length_bytes (v : Value) : (v.bytes endian floats).length = v.size := by
  cases v
  case int16 => exact endian.length16 _
  case int | int32 | float32 => exact endian.length32 _
  case int64 | float64 => exact endian.length64 _

theorem length_of_returns {v : Value} (h : v.read.Returns endian floats r seg) :
    seg.length = v.size := by
  cases v <;> cases r <;> first | exact h.1 | exact h.elim

/-- The bytes of a number are read as this number. -/
theorem result_of_returns {v : Value}
    (h : v.read.Returns endian floats r (v.bytes endian floats)) : r = v.result floats := by
  cases v <;> cases r <;> first | exact h.elim | skip
  case int v n =>
    obtain rfl : n = (endian.value32 (endian.bytes32 (BitVec.ofInt 32 v))).toInt := h.2
    rw [endian.inverse32, BitVec.toInt_ofInt]
    rfl
  case int16 v n =>
    obtain rfl : n = (endian.value16 (endian.bytes16 (BitVec.ofInt 16 v))).toInt := h.2
    rw [endian.inverse16, BitVec.toInt_ofInt]
    rfl
  case int32 v n =>
    obtain rfl : n = endian.value32 (endian.bytes32 v) := h.2
    rw [endian.inverse32]
    rfl
  case int64 v n =>
    obtain rfl : n = endian.value64 (endian.bytes64 v) := h.2
    rw [endian.inverse64]
    rfl
  case float32 v n =>
    obtain rfl : n = floats.floatOfBits (endian.value32
      (endian.bytes32 (floats.bitsOfFloat v))) :=
      h.2
    rw [endian.inverse32]
    rfl
  case float64 v n =>
    obtain rfl : n = endian.value64 (endian.bytes64 v) := h.2
    rw [endian.inverse64]
    rfl

end Value

variable {α : Type} {s s' : Moment}

/-! ## A source that gives all of its data -/

/-- The refill function gives at least one byte at each of its calls, until it has given them
all. -/
structure Supplied (s : Moment) : Prop where
  input : Input s.state.ch
  chunks : ∀ a ∈ s.answers, ∃ n, a = .moves (n + 1)
  enough : s.state.source.length ≤ s.answers.length
  room : s.state.source ≠ [] →
    s.state.ch.typ = .normal ∧ minBufferSize ≤ s.state.ch.length

theorem wp_perform_moves {ptr len : ℤ} {n : ℕ} {answers : List Answer}
    (h : Inside s.state.ch.buffer ptr len) (hmode : s.state.ch.mode = .input)
    (hanswers : s.answers = .moves (n + 1) :: answers) (hlen : s.state.source ≠ [] → 0 < len) :
    wp (perform ptr len)
      (fun k s' => 0 ≤ k ∧ k ≤ len ∧ (k = 0 ↔ s.state.source = []) ∧ s'.answers = answers ∧
        s'.state.ch.mode = .input)
      (fun _ _ => False) s := by
  have hnonneg := h.2.1
  simp only [perform, wp_bind, wp_ask, hanswers]
  refine ⟨fun hnone => absurd hnone (List.cons_ne_nil _ _), fun r rest hr => ?_⟩
  cases hr
  simp only [transfer, wp_bind, wp_get, wp_ite, h, not_true_eq_false, false_implies, true_and,
    not_false_eq_true, hmode, wp_modify, wp_pure, forall_const, List.length_take]
  refine ⟨by omega, by omega, ⟨fun hzero => ?_, fun hsource => by simp [hsource]⟩, trivial⟩
  by_contra hsource
  have hpos := List.length_pos_iff.mpr hsource
  have hroom := hlen hsource
  omega

theorem wp_performOnSystem_moves {ptr len : ℤ} {n : ℕ} {answers : List Answer}
    (h : Inside s.state.ch.buffer ptr len) (hmode : s.state.ch.mode = .input)
    (hanswers : s.answers = .moves (n + 1) :: answers) (hlen : s.state.source ≠ [] → 0 < len) :
    wp (performOnSystem ptr len)
      (fun k s' => 0 ≤ k ∧ k ≤ len ∧ (k = 0 ↔ s.state.source = []) ∧ s'.answers = answers ∧
        s'.state.ch.mode = .input)
      (fun _ _ => False) s := by
  have hperform := wp_perform_moves h hmode hanswers hlen
  simp only [performOnSystem, wp_bind, wp_get, wp_ite, catch', wp_tryBind]
  exact ⟨fun _ => wp_mono hperform (fun _ _ h => h) fun _ _ h => h.elim, fun _ => hperform⟩

/-- A call of the refill function that has room for what is left gives nothing only at the end. -/
theorem wp_performIo_moves {n : ℕ} {answers : List Answer} (h : Input s.state.ch)
    (hbusy : s.state.ch.state = .busyPrimitive) (htyp : s.state.ch.typ = .normal)
    (hanswers : s.answers = .moves (n + 1) :: answers)
    (hroom : s.state.source ≠ [] → s.state.ch.max - s.state.ch.ptr < s.state.ch.length) :
    wp performIo (fun k s' => (k = 0 ↔ s.state.source = []) ∧ s'.answers = answers)
      (fun _ _ => False) s := by
  have hlength := h.size
  have hle := h.le
  have hmaxLength := h.max
  have hnonneg := h.nonneg
  have hkeep : wp (keepUnread s.state.ch.ptr (s.state.ch.max - s.state.ch.ptr))
      (fun _ s' => Moved s s' ∧ s'.state.source = s.state.source) (fun _ _ => False) s := by
    have hin := h.inside
    have hdst : Inside s.state.ch.buffer 0 (s.state.ch.max - s.state.ch.ptr) :=
      ⟨Int.le_refl 0, by omega, by have := hin.2.2; omega⟩
    have hsource : wp (keepUnread s.state.ch.ptr (s.state.ch.max - s.state.ch.ptr))
        (fun _ s' => s'.state.source = s.state.source) (fun _ _ => False) s := by
      simp only [keepUnread, wp_bind, wp_ite, wp_update]
      exact ⟨fun _ => (wp_unsafeBlitWithin hin hdst).mpr rfl, fun _ => rfl⟩
    exact wp_mono (wp_and (wp_keepUnread (A := fun _ _ => False) h) hsource) (fun _ _ h => h)
      fun _ _ h => h.1
  simp only [performIo, wp_bind, wp_get, hbusy, h.mode, htyp]
  refine wp_mono hkeep ?_ fun _ _ h => h
  rintro _ s1 ⟨hmoved, hsame⟩
  have h1 := hmoved.consumed.input
  have hsize1 := h1.size
  have hmax := hmoved.max
  have hlength1 := hmoved.length
  have hin : Inside s1.state.ch.buffer (s.state.ch.max - s.state.ch.ptr)
      (s.state.ch.length - (s.state.ch.max - s.state.ch.ptr)) := ⟨by omega, by omega, by omega⟩
  rw [wp_bind]
  refine wp_mono (wp_performOnSystem_moves hin h1.mode (hmoved.answers.trans hanswers) ?_) ?_
    fun _ _ h => h
  · intro hsource
    have := hroom (hsame ▸ hsource)
    omega
  · rintro k s2 ⟨hpos, hfits, hzero, hanswers2, hmode2⟩
    simp only [updatePositions, wp_bind, wp_get, wp_ite, wp_raise, wp_update, hmode2, wp_pure]
    exact ⟨fun hwrong => by omega, fun _ => ⟨hsame ▸ hzero, hanswers2⟩⟩

/-- A refill brings the end of the data nearer. -/
theorem Supplied.wp_refill (h : Supplied s) (hbusy : s.state.ch.state = .busyPrimitive)
    (hshort : s.state.ch.max - s.state.ch.ptr < minBufferSize) (hsource : s.state.source ≠ []) :
    wp refill (fun n s' => n ≠ 0 ∧ Supplied s' ∧ Consumed [] s s' ∧
      s'.answers.length + 1 = s.answers.length ∧
      s'.state.source.length < s.state.source.length) (fun _ _ => False) s := by
  obtain ⟨htyp, hmin⟩ := h.room hsource
  have hpos := List.length_pos_iff.mpr hsource
  have henough := h.enough
  cases hanswers : s.answers with
  | nil =>
    rw [hanswers, List.length_nil] at henough
    omega
  | cons a answers =>
    obtain ⟨n, rfl⟩ := h.chunks a (by simp [hanswers])
    refine wp_mono (wp_and (wp_performIo_input h.input hbusy) (wp_performIo_moves h.input hbusy
      htyp hanswers fun _ => by omega)) ?_ fun _ _ h => h.2.elim
    rintro k s' ⟨hr, hzero, hrest⟩
    have hk : k ≠ 0 := fun hk => hsource (hzero.mp hk)
    have hnonneg := hr.nonneg
    have hunread := congrArg List.length hr.consumed.unread
    have hinside := length_slice h.input.inside
    have hinside' := length_slice hr.consumed.input.inside
    have havail := hr.avail
    simp only [World.unread, List.length_append, List.nil_append] at hunread
    rw [hanswers, List.length_cons] at henough
    refine ⟨hk, ⟨hr.consumed.input, fun a ha => h.chunks a ?_, ?_, fun _ => ?_⟩,
      hr.consumed, by rw [hrest, List.length_cons], by omega⟩
    · rw [hanswers]
      exact List.mem_cons_of_mem _ (hrest ▸ ha)
    · rw [hrest]
      omega
    · exact ⟨hr.consumed.typ.trans htyp, hr.length ▸ hmin⟩

/-! ## Reading a number -/

/-- A number that is still to be read is read. -/
theorem Supplied.wp_number (h : Supplied s) (hbusy : s.state.ch.state = .busyPrimitive) {size : ℕ}
    (hsize : (size : ℤ) ≤ minBufferSize) (hunread : size ≤ s.state.unread.length)
    (value : List UInt8 → α) :
    wp (Primitives.readBlockUnsafe size fun ptr => getBytes ptr size >>= fun b => pure (value b))
      (fun _ s' => s'.state.ch.state = .busyPrimitive ∧ Supplied s') (fun _ _ => False) s := by
  simp only [Primitives.readBlockUnsafe, wp_bind]
  refine wp_loopAsking (fun _ s' => Supplied s' ∧ Consumed [] s s') ?_ ⟨h, .refl h.input⟩
  rintro _ s1 ⟨h1, hc⟩
  have hbusy1 := hc.state.trans hbusy
  simp only [wp_bind, wp_get, wp_ite, wp_pure, wp_setPtr]
  refine ⟨fun hshort => ?_, fun hfits => ⟨by simp, fun ptr hptr => ?_⟩⟩
  · have hlength := congrArg List.length hc.unread
    have hinside := length_slice h1.input.inside
    simp only [World.unread, List.length_append, List.nil_append] at hlength hunread
    have hsource : s1.state.source ≠ [] := List.length_pos_iff.mp (by omega)
    refine wp_mono (h1.wp_refill hbusy1 (by omega) hsource) ?_ fun _ _ h => h
    rintro n s2 ⟨hn, h2, hc2, hanswers, -⟩
    simp only [wp_ite, wp_raise, wp_pure]
    exact ⟨fun hzero => absurd hzero hn, fun _ =>
      ⟨fun _ _ => ⟨⟨h2, hc.trans hc2⟩, by omega⟩, by simp⟩⟩
  · cases hptr
    have hle := Int.not_lt.mp hfits
    have hin := h1.input.inside_of_le (Int.natCast_nonneg size) hle
    refine (wp_getBytes (by exact hin)).mpr ⟨hbusy1, ?_, h1.chunks, h1.enough, h1.room⟩
    exact (Consumed.pass h1.input (Int.natCast_nonneg size) hle rfl).input

theorem Supplied.wp_result {t : Prim α} {f : α → InputResult} (hidle : s.state.ch.state = .idle)
    (ht : wp t (fun _ s' => s'.state.ch.state = .busyPrimitive ∧ Supplied s') (fun _ _ => False)
      (withState s .busyPrimitive)) :
    wp (InputOp.result (primitive t) f) (fun _ s' => Supplied s') (fun _ _ => False) s := by
  rw [InputOp.result, wp_bind]
  refine Data.wp_primitive hidle (wp_mono ht ?_ fun _ _ h => h.elim)
  rintro a s' ⟨hbusy, h⟩
  exact ⟨hbusy, h.input.withState _, h.chunks, h.enough, h.room⟩

theorem Supplied.wp_read (endian : Endian) (floats : Floats) (v : Value) (h : Supplied s)
    (hidle : s.state.ch.state = .idle) (hunread : v.size ≤ s.state.unread.length) :
    wp (v.read.run endian floats) (fun _ s' => Supplied s') (fun _ _ => False) s := by
  have hbusy : Supplied (withState s .busyPrimitive) :=
    ⟨h.input.withState _, h.chunks, h.enough, h.room⟩
  have hsize := v.size_le
  cases v with
  | int _ | int16 _ | int32 _ | int64 _ | float64 _ =>
    exact Supplied.wp_result hidle (hbusy.wp_number rfl hsize hunread _)
  | float32 _ =>
    refine Supplied.wp_result hidle ?_
    rw [Primitives.readFloat32, wp_bind]
    exact hbusy.wp_number rfl hsize hunread endian.value32

/-! ## What the sink gets -/

/-- What may happen to the channel that the numbers are written to.  Flushes that `write_int` and
so on need are part of these operations. -/
inductive WriterOp
  | value (v : Value)
  | flush
  | autoFlush
  | resizeBuffer (len : ℤ)

namespace WriterOp

def op : WriterOp → OutputOp
  | value v => v.write
  | flush => .flush
  | autoFlush => .autoFlush
  | resizeBuffer len => .resizeBuffer len

/-- The numbers that are written. -/
def written : List WriterOp → List Value
  | [] => []
  | value v :: ops => v :: written ops
  | flush :: ops | autoFlush :: ops | resizeBuffer _ :: ops => written ops

end WriterOp

def OutputOp.isNumber : OutputOp → Bool
  | .writeInt _ | .writeInt16 _ | .writeInt32 _ | .writeInt64 _ | .writeFloat32 _
  | .writeFloat64 _ => true
  | _ => false

/-- All numbers have been written, and a last flush has succeeded.  Other flushes may have
failed. -/
structure WrittenOut (ops : List WriterOp) (past : OutputHistory) : Prop where
  all : past.map (·.op) = ops.map WriterOp.op ++ [.flush]
  numbers : ∀ e ∈ past, e.op.isNumber = true → e.outcome = .ok none
  flushed : (past.getLast?.map (·.outcome)) = some (.ok none)

variable {endian : Endian} {floats : Floats}

theorem flatten_writer (ops : List WriterOp) :
    ((ops.map WriterOp.op).map (OutputOp.bytes endian floats)).flatten =
      ((WriterOp.written ops).map (Value.bytes endian floats)).flatten := by
  induction ops with
  | nil => rfl
  | cons op ops ih =>
    cases op with
    | value v => exact congrArg (v.bytes endian floats ++ ·) ih
    | flush | autoFlush | resizeBuffer _ => exact ih

/-- An operation that succeeds, or has nothing to contribute, contributes exactly its bytes. -/
theorem OutputOp.Contributes.eq_bytes {op : OutputOp}
    {outcome : Except (Abnormal Exn Fault) (Option ℤ)} {data : List UInt8}
    (hdata : op.Contributes endian floats outcome data)
    (hexact : outcome = .ok none ∨ op.bytes endian floats = []) :
    data = op.bytes endian floats := by
  rcases hexact with rfl | hbytes
  · exact hdata
  · unfold OutputOp.Contributes at hdata
    rw [hbytes] at hdata ⊢
    split at hdata
    · exact hdata
    · exact List.prefix_nil.mp hdata.2
    · exact List.prefix_nil.mp hdata

theorem parts_eq_bytes {past : OutputHistory} {parts : List (List UInt8)}
    (hparts : List.Forall₂ (fun e data => e.op.Contributes endian floats e.outcome data) past parts)
    (hexact : ∀ e ∈ past, e.outcome = .ok none ∨ e.op.bytes endian floats = []) :
    parts = (past.map (·.op)).map (OutputOp.bytes endian floats) := by
  induction hparts with
  | nil => rfl
  | @cons e data past parts hdata _ ih =>
    rw [List.map_cons, List.map_cons, hdata.eq_bytes (hexact e (List.mem_cons_self ..)),
      ih fun e he => hexact e (List.mem_cons_of_mem _ he)]

theorem sink_of_flushed {past : OutputHistory} {ops : List OutputOp}
    (hpast : Accounted endian floats past s) (hall : past.map (·.op) = ops ++ [.flush])
    (hexact : ∀ e ∈ past, e.outcome = .ok none ∨ e.op.bytes endian floats = [])
    (hflushed : past.getLast?.map (·.outcome) = some (.ok none))
    (hlast : ∀ e, past.getLast? = some e → s = e.after) :
    s.state.sink = (ops.map (OutputOp.bytes endian floats)).flatten := by
  obtain ⟨parts, hparts, hcontent⟩ := hpast.contributed
  obtain ⟨e, he, hok⟩ := Option.map_eq_some_iff.mp hflushed
  have hflush : e.op = .flush := by
    have hops := congrArg List.getLast? hall
    rw [List.getLast?_map, he, List.getLast?_concat] at hops
    exact Option.some.inj hops
  have hptr := hpast.flushed e (List.mem_of_getLast? he) hflush hok
  have hbuffer : s.state.content = s.state.sink := by
    rw [hlast e he, World.content, hptr]
    simp [slice]
  rw [← hbuffer, hcontent, parts_eq_bytes hparts hexact, hall, List.map_append,
    List.flatten_append]
  simp [OutputOp.bytes]

theorem WriterOp.exact {op : WriterOp} {outcome : Except (Abnormal Exn Fault) (Option ℤ)}
    (hnumber : op.op.isNumber = true → outcome = .ok none) :
    outcome = .ok none ∨ op.op.bytes endian floats = [] := by
  cases op with
  | value v => exact Or.inl (hnumber (by cases v <;> rfl))
  | flush | autoFlush | resizeBuffer _ => exact Or.inr rfl

theorem sink_of_writtenOut {past : OutputHistory} {ops : List WriterOp}
    (hpast : Accounted endian floats past s) (hwritten : WrittenOut ops past)
    (hlast : ∀ e, past.getLast? = some e → s = e.after) :
    s.state.sink = ((WriterOp.written ops).map (Value.bytes endian floats)).flatten := by
  rw [sink_of_flushed hpast hwritten.all (fun e he => ?_) hwritten.flushed hlast, flatten_writer]
  have hmem : e.op ∈ ops.map WriterOp.op ++ [.flush] :=
    hwritten.all ▸ List.mem_map_of_mem he
  obtain ⟨op, hop⟩ : ∃ op : WriterOp, op.op = e.op := by
    rcases List.mem_append.mp hmem with hmem | hmem
    · obtain ⟨op, -, hop⟩ := List.mem_map.mp hmem
      exact ⟨op, hop⟩
    · exact ⟨.flush, (List.mem_singleton.mp hmem).symm⟩
  have hnumber := hwritten.numbers e he
  rw [← hop] at hnumber ⊢
  exact WriterOp.exact hnumber

/-! ## Reading everything back -/

/-- The numbers that are still to be read. -/
structure ToRead (endian : Endian) (floats : Floats) (values : List Value) (s : Moment) : Prop where
  supplied : Supplied s
  idle : s.state.ch.state = .idle
  unread : s.state.unread = (values.map (Value.bytes endian floats)).flatten

theorem ToRead.step {v : Value} {values : List Value}
    (h : ToRead endian floats (v :: values) s) :
    wp (v.read.run endian floats)
      (fun r s' => r = v.result floats ∧ ToRead endian floats values s') (fun _ _ => False) s := by
  have hunread := h.unread
  rw [List.map_cons, List.flatten_cons] at hunread
  have hlength : (v.bytes endian floats).length = v.size := v.length_bytes
  have hsize : v.size ≤ s.state.unread.length := by
    rw [hunread, List.length_append]
    omega
  refine wp_mono (wp_and (v.read.wp_run endian floats h.supplied.input h.idle)
    (h.supplied.wp_read endian floats v h.idle hsize)) ?_ fun _ _ h => h.2
  rintro r s' ⟨⟨seg, hreturns, hc⟩, hsupplied⟩
  obtain ⟨rfl, hrest⟩ : v.bytes endian floats = seg ∧
      (values.map (Value.bytes endian floats)).flatten = s'.state.unread :=
    List.append_inj (hunread.symm.trans hc.unread)
      (hlength.trans (Value.length_of_returns hreturns).symm)
  exact ⟨Value.result_of_returns hreturns, hsupplied, hc.state.trans h.idle, hrest.symm⟩

theorem Opened.unread {ch : RealChannel} {source data : List UInt8} (h : Opened ch source data)
    (platform : Platform) (answers : List Answer) :
    (start ch source platform answers).state.unread = data := by
  cases h with
  | make _ _ _ _ hmake =>
    obtain ⟨buffer, rfl, -⟩ := makeWith_of_make hmake
    simp [World.unread, start, makeWith]
  | ofBytes bytes => simp [World.unread, start, Data.ofBytes]

theorem Opened.supplied {ch : RealChannel} {source data : List UInt8} (h : Opened ch source data)
    (platform : Platform) {chunks : List ℕ} (hchunks : ∀ n ∈ chunks, 1 ≤ n)
    (henough : source.length ≤ chunks.length) :
    Supplied (start ch source platform (chunks.map .moves)) ∧
      (start ch source platform (chunks.map .moves)).state.ch.state = .idle := by
  have hreads : Reads bigEndian zeroFloats data [] (start ch source platform (chunks.map .moves)) :=
    h.delivered platform _
  refine ⟨⟨hreads.delivered.input, ?_, ?_, fun hsource => ?_⟩, hreads.idle⟩
  · intro a ha
    obtain ⟨n, hn, rfl⟩ := List.mem_map.mp ha
    exact ⟨n - 1, by rw [Nat.sub_add_cancel (hchunks n hn)]⟩
  · rwa [start, List.length_map]
  · cases h with
    | make _ _ _ _ hmake =>
      obtain ⟨buffer, rfl, hmin, -⟩ := makeWith_of_make hmake
      exact ⟨rfl, hmin⟩
    | ofBytes _ => exact absurd rfl hsource

theorem Opened.toRead {ch : RealChannel} {source : List UInt8} {values : List Value}
    (h : Opened ch source ((values.map (Value.bytes endian floats)).flatten)) (platform : Platform)
    {chunks : List ℕ} (hchunks : ∀ n ∈ chunks, 1 ≤ n) (henough : source.length ≤ chunks.length) :
    ToRead endian floats values (start ch source platform (chunks.map .moves)) :=
  ⟨(h.supplied platform hchunks henough).1, (h.supplied platform hchunks henough).2,
  h.unread platform _⟩

/-- What has been written, with flushes that take any part of the buffer, is read back number by
number from chunks of any size, and nothing is left. -/
theorem numbers_come_back (endian : Endian) (floats : Floats)
    (outSize : { n : ℤ // checkBufferSize "set_default_buffer_size" n = .ok () })
    (outBuffer : Option (List UInt8)) (out : RealChannel)
    (hout : make outSize .output outBuffer = .ok out) (platform : Platform) (flushes : List Answer)
    (ops : List WriterOp)
    (hwritten : WrittenOut ops (session (OutputOp.run endian floats)
      (ops.map WriterOp.op ++ [.flush]) (start out [] platform flushes)).1)
    (data : List UInt8) (hdata : (session (OutputOp.run endian floats)
      (ops.map WriterOp.op ++ [.flush]) (start out [] platform flushes)).2.state.sink = data)
    (inp : RealChannel) (source : List UInt8) (hin : Opened inp source data)
    (platform' : Platform) (chunks : List ℕ) (hchunks : ∀ n ∈ chunks, 1 ≤ n)
    (henough : source.length ≤ chunks.length) :
    let values := WriterOp.written ops
    let r := session (InputOp.run endian floats) (values.map Value.read)
      (start inp source platform' (chunks.map .moves))
    r.1.map (·.outcome) = values.map (fun v => .ok (v.result floats)) ∧
      r.2.state.unread = [] := by
  have haccounted := accounted_session endian floats hout platform flushes
    (ops.map WriterOp.op ++ [.flush])
  rw [sink_of_writtenOut haccounted hwritten fun e he => eq_after_of_getLast? _ _ _ e he] at hdata
  subst hdata
  obtain ⟨houtcomes, hlast⟩ := session_known (InputOp.run endian floats) Value.read
    (Value.result floats) (ToRead endian floats) (fun _ _ _ h => h.step) (WriterOp.written ops) _
    (hin.toRead platform' hchunks henough)
  exact ⟨houtcomes, hlast.unread⟩

/-- Numbers across the ends of both buffers, after a flush that has failed. -/
theorem numbers_come_back_in_chunks :
    ∃ (ops : List WriterOp) (data : List UInt8),
      (WriterOp.written ops).map (Value.result zeroFloats) =
        [.int (-2), .int64 258, .int32 7, .float 9, .int 5] ∧
      data = [255, 254, 0, 0, 0, 0, 0, 0, 1, 2, 0, 0, 0, 7, 0, 0, 0, 0, 0, 0, 0, 9, 0, 0, 0, 5] ∧
      let r := session (InputOp.run bigEndian zeroFloats) ((WriterOp.written ops).map Value.read)
        (start (makeWith .input (List.replicate 16 0)) data .unlimited
        ((List.replicate 26 3).map .moves))
      r.1.map (·.outcome) = (WriterOp.written ops).map (fun v => .ok (v.result zeroFloats)) ∧
        r.2.state.unread = [] :=
  ⟨[.value (.int16 (-2)), .value (.int64 258), .autoFlush, .value (.int32 7), .value (.float64 9),
      .value (.int (2 ^ 32 + 5))],
    [255, 254, 0, 0, 0, 0, 0, 0, 1, 2, 0, 0, 0, 7, 0, 0, 0, 0, 0, 0, 0, 9, 0, 0, 0, 5],
    by decide +kernel, rfl,
    numbers_come_back bigEndian zeroFloats ⟨16, rfl⟩ none
      (makeWith .output (List.replicate 16 0)) rfl .unlimited
      [.moves 3, .raises .epipe, .moves 4, .moves 1, .moves 9, .moves 20] _
      ⟨by decide +kernel, by decide +kernel, by decide +kernel⟩ _ (by decide +kernel)
      (makeWith .input (List.replicate 16 0)) _ (.make ⟨16, rfl⟩ none _ _ rfl) .unlimited
      (List.replicate 26 3) (by decide) (by decide)⟩

end Lwt.Io.Data
