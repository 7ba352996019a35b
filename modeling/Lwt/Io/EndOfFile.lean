import Lwt.Io.Numbers

/-!
# The end of the data

The refill function of a file gives nothing only at the end of the file (`Giving`).  So a reading
operation raises `End_of_file`, or gives nothing, only when less data is left than it needs
(`InputOp.Complete`).
-/

namespace Lwt.Io.Data

open Dialogue Window

/-- What is marshaled has a header and data, and the functions of `Marshal` do not raise
`End_of_file` themselves. -/
structure Marshal.Regular (marshal : Marshal) : Prop where
  header : 0 < marshal.headerSize
  data : ∀ bytes n, marshal.dataSize bytes = .ok n → 0 < n
  dataSize : ∀ bytes, marshal.dataSize bytes ≠ .error .endOfFile
  fromBytes : ∀ bytes, marshal.fromBytes bytes ≠ .error .endOfFile

namespace InputOp

/-- The number of bytes without which an operation cannot do what it is asked to. -/
def need (op : InputOp) (rest : List UInt8) : ℕ :=
  match op with
  | readInt16 => 2
  | readInt | readInt32 | readFloat32 => 4
  | readInt64 | readFloat64 => 8
  | readIntoExactly _ _ len | readIntoExactlyBigstring _ _ len => len.toNat
  | block size => size.toNat
  | readValue marshal =>
    marshal.headerSize +
      match marshal.dataSize (rest.take marshal.headerSize) with
      | .ok n => n
      | .error _ => 0
  | _ => 1

/-- The outcome says that there is not enough data. -/
def Stops (op : InputOp) (outcome : Except (Abnormal Exn Fault) InputResult) : Prop :=
  match op, outcome with
  | readValue marshal, .error (.raised .endOfFile) => marshal.Regular
  | _, .error (.raised .endOfFile) => True
  | readCharOpt, .ok .none | readLineOpt, .ok .none => True
  | read (some len), .ok (.bytes data) => 0 < len ∧ data = []
  | readInto _ _ len, .ok (.filled n _) | readIntoBigstring _ _ len, .ok (.filled n _) =>
    0 < len ∧ n = 0
  | _, _ => False

/-- Of the data `rest`, `rest'` is left: nothing is missing in what has been read. -/
structure Complete (op : InputOp) (outcome : Except (Abnormal Exn Fault) InputResult)
    (rest rest' : List UInt8) : Prop where
  short : op.Stops outcome → rest.length < op.need rest
  all : op = .read none → ∀ r, outcome = .ok r → rest' = []

end InputOp

variable {α : Type} {s s' : Moment} {need : ℕ}

/-- The refill function gives at least one byte at each of its calls, until it has given them
all. -/
structure Giving (s : Moment) : Prop where
  input : Input s.state.ch
  typ : s.state.ch.typ = .normal
  room : minBufferSize ≤ s.state.ch.length
  chunks : ∀ a ∈ s.answers, ∃ n, a = .moves (n + 1)

/-- Code that fails has met the end of the data only when less than `need` bytes are left. -/
structure Falls (need : ℕ) (s : Moment) (x : Abnormal Exn Fault) (s' : Moment) : Prop where
  giving : ∀ e, x = .raised e → Giving s'
  short : x = .raised .endOfFile → s.state.unread.length < need

theorem Falls.other {e : Exn} (h : Giving s') (he : e ≠ .endOfFile) :
    Falls need s (.raised e) s' :=
  ⟨fun _ _ => h, fun heof => absurd (Abnormal.raised.inj heof) he⟩

theorem Falls.eof (h : Giving s') (hshort : s.state.unread.length < need) :
    Falls need s (.raised .endOfFile) s' :=
  ⟨fun _ _ => h, fun _ => hshort⟩

theorem Giving.withState (h : Giving s) (state : State) : Giving (Data.withState s state) :=
  ⟨h.input.withState _, h.typ, h.room, h.chunks⟩

theorem Giving.of_consumed {seg : List UInt8} (h : Giving s) (hc : Consumed seg s s')
    (hlength : s'.state.ch.length = s.state.ch.length) : Giving s' :=
  ⟨hc.input, hc.typ.trans h.typ, hlength ▸ h.room, fun a ha => h.chunks a (hc.suffix.subset ha)⟩

theorem wp_performIo_waits (h : Input s.state.ch) (hbusy : s.state.ch.state = .busyPrimitive)
    (htyp : s.state.ch.typ = .normal) (hanswers : s.answers = []) :
    wp performIo (fun _ _ => False) (fun x _ => x = .waiting) s := by
  simp only [performIo, wp_bind, wp_get, hbusy, h.mode, htyp]
  refine wp_mono (wp_keepUnread (A := fun x _ => x = .waiting) h) ?_ fun _ _ hx => hx
  intro _ s1 hmoved
  have hnone := hmoved.answers.trans hanswers
  simp only [performOnSystem, perform, catch', wp_bind, wp_get, wp_ite, wp_tryBind, wp_ask, hnone]
  simp

theorem Giving.wp_refill (h : Giving s) (hbusy : s.state.ch.state = .busyPrimitive)
    (hshort : s.state.ch.max - s.state.ch.ptr < minBufferSize) :
    wp refill (fun n s' => Giving s' ∧ Refilled n s s' ∧ (n = 0 ↔ s.state.source = []))
      (fun x _ => x = .waiting) s := by
  cases hanswers : s.answers with
  | nil =>
    exact wp_mono (wp_performIo_waits h.input hbusy h.typ hanswers) (fun _ _ h => h.elim)
      fun _ _ h => h
  | cons a answers =>
    obtain ⟨n, rfl⟩ := h.chunks a (by simp [hanswers])
    have hroom := h.room
    refine wp_mono (wp_and (wp_performIo_input h.input hbusy) (wp_performIo_moves h.input hbusy
      h.typ hanswers fun _ => by omega)) ?_ fun _ _ h => h.2.elim
    rintro k s' ⟨hr, hzero, -⟩
    exact ⟨h.of_consumed hr.consumed hr.length, hr, hzero⟩

theorem Giving.length_unread (h : Giving s) (hsource : s.state.source = []) :
    (s.state.unread.length : ℤ) = s.state.ch.max - s.state.ch.ptr := by
  rw [World.unread, hsource, List.append_nil]
  exact length_slice h.input.inside

theorem Falls.waiting : Falls need s .waiting s' := ⟨by simp, by simp⟩

/-! ## Characters and lines -/

theorem Giving.wp_readChar (h : Giving s) (hbusy : s.state.ch.state = .busyPrimitive) :
    wp Primitives.readChar (fun _ s' => Giving s') (Falls 1 s) s := by
  refine wp_loopAsking (fun _ s' => Consumed [] s s' ∧ Giving s') ?_ ⟨.refl h.input, h⟩
  rintro _ s1 ⟨hc, h1⟩
  have hbusy1 := hc.state.trans hbusy
  have hmin : (0 : ℤ) < minBufferSize := by simp [minBufferSize]
  have hle := h1.input.le
  simp only [wp_bind, wp_get, wp_ite, wp_setPtr]
  refine ⟨fun hempty => wp_mono (h1.wp_refill hbusy1 (by omega)) ?_ ?_, fun hne => ?_⟩
  · rintro n s2 ⟨h2, hr, hzero⟩
    simp only [wp_ite, wp_raise, wp_pure]
    refine ⟨fun hn => .eof h2 ?_, fun hn => ⟨fun _ _ => ⟨⟨hc.trans hr.consumed, h2⟩, hr.fewer hn⟩,
      by simp⟩⟩
    have hlength := h1.length_unread (hzero.mp hn)
    rw [hc.unread, List.nil_append]
    omega
  · rintro _ s2 rfl
    exact .waiting
  · have hlt : s1.state.ch.ptr < s1.state.ch.max := by omega
    refine (wp_unsafeGet (by exact h1.input.inside_of_le (by omega) (by omega))).mpr ?_
    simp only [wp_pure]
    exact ⟨by simp, fun c _ => h1.of_consumed (Consumed.passChar h1.input hlt) rfl⟩

theorem Giving.wp_orEndOfFile {f : Prim α} (hf : wp f (fun _ s' => Giving s') (Falls 1 s) s) :
    wp (Primitives.orEndOfFile f)
      (fun a s' => Giving s' ∧ (a = none → s.state.unread.length < 1)) (Falls 1 s) s := by
  refine Data.wp_orEndOfFile (wp_mono hf (fun _ _ h => ⟨h, by simp⟩) fun x s' hx =>
    ⟨?_, fun _ => hx⟩)
  exact fun heof => ⟨hx.giving _ heof, fun _ => hx.short heof⟩

theorem Giving.wp_readLineLoop (h : Giving s) (hbusy : s.state.ch.state = .busyPrimitive)
    (crRead : Bool) (buf : List UInt8) :
    wp (Primitives.readLineLoop crRead buf) (fun _ s' => Giving s')
      (fun x s' => (∀ e, x = .raised e → Giving s') ∧ x ≠ .raised .endOfFile) s := by
  refine wp_loop (fun _ s' => Giving s' ∧ s'.state.ch.state = .busyPrimitive) ?_ ⟨h, hbusy⟩
  rintro ⟨cr, b⟩ s1 ⟨h1, hbusy1⟩
  simp only [Primitives.readLineTurn, wp_tryBind]
  refine wp_mono (wp_and (Data.wp_readChar h1.input hbusy1) (h1.wp_readChar hbusy1)) ?_ ?_
  · rintro c s2 ⟨⟨hchar, hprogress⟩, h2⟩
    have hless := hprogress.measure h1.input h2.input
    have hnext := And.intro (And.intro h2 (hchar.state.trans hbusy1)) hless
    simp only [wp_ite, wp_pure]
    refine ⟨fun _ => ⟨by simp, fun _ _ => h2⟩, fun _ => ⟨fun _ => ⟨?_, by simp⟩,
      fun _ => ⟨?_, by simp⟩⟩⟩
    · rintro _ hr
      cases hr
      exact hnext
    · rintro _ hr
      cases hr
      exact hnext
  · rintro x s2 ⟨-, hfalls⟩
    refine ⟨?_, fun hno => ⟨fun e he => absurd he (hno e), hno _⟩⟩
    rintro e rfl
    have h2 := hfalls.giving e rfl
    cases e
    case endOfFile => exact ⟨by simp, fun _ _ => h2⟩
    all_goals exact ⟨fun _ _ => h2, by simp⟩

theorem Giving.wp_readLine (h : Giving s) (hbusy : s.state.ch.state = .busyPrimitive) :
    wp Primitives.readLine (fun _ s' => Giving s') (Falls 1 s) s := by
  simp only [Primitives.readLine, wp_bind]
  refine wp_mono (wp_and (Data.wp_readChar h.input hbusy) (h.wp_readChar hbusy)) ?_
    fun _ _ hx => hx.2
  rintro c s1 ⟨⟨hchar, -⟩, h1⟩
  have hloop : ∀ cr b, wp (Primitives.readLineLoop cr b) (fun _ s' => Giving s') (Falls 1 s) s1 :=
    fun cr b => wp_mono (h1.wp_readLineLoop (hchar.state.trans hbusy) cr b) (fun _ _ h => h)
      fun x s' hx => ⟨hx.1, fun heof => absurd heof hx.2⟩
  simp only [wp_ite, wp_pure]
  exact ⟨fun _ => hloop _ _, fun _ => ⟨fun _ => h1, fun _ => hloop _ _⟩⟩

/-! ## Ranges -/

/-- What does not raise `End_of_file`. -/
structure Stays (x : Abnormal Exn Fault) (s' : Moment) : Prop where
  giving : ∀ e, x = .raised e → Giving s'
  notEof : x ≠ .raised .endOfFile

theorem Stays.falls {x : Abnormal Exn Fault} (h : Stays x s') : Falls need s x s' :=
  ⟨h.giving, fun heof => absurd heof h.notEof⟩

theorem Stays.fault {f : Fault} : Stays (.fault f) s' := ⟨by simp, by simp⟩

theorem Stays.waiting : Stays .waiting s' := ⟨by simp, by simp⟩

theorem wp_unsafeBlitTo_faults (src : ℤ) (buf : List UInt8) (ofs len : ℤ) :
    wp (unsafeBlitTo src buf ofs len) (fun _ s' => s' = s) (fun x _ => ∃ f, x = .fault f) s := by
  simp only [unsafeBlitTo, wp_bind, wp_get, wp_ite, wp_fault, wp_pure]
  exact ⟨fun _ => ⟨_, rfl⟩, fun _ => ⟨fun _ => ⟨_, rfl⟩, fun _ => trivial⟩⟩

theorem Giving.wp_unsafeReadInto' (h : Giving s) (hbusy : s.state.ch.state = .busyPrimitive)
    {buf : List UInt8} {ofs len : ℤ} (hlen : 0 ≤ len) :
    wp (Primitives.unsafeReadInto' buf ofs len)
      (fun r s' => Giving s' ∧ (0 < len → r.1 = 0 → s.state.unread = [])) (fun x s' => Stays x s')
      s := by
  have hle := h.input.le
  have hmin : (0 : ℤ) < minBufferSize := by simp [minBufferSize]
  simp only [Primitives.unsafeReadInto', wp_bind, wp_get, wp_ite]
  refine ⟨fun havail => ?_, fun havail => ?_⟩
  · have hrange : 0 ≤ min len (s.state.ch.max - s.state.ch.ptr) := by omega
    refine wp_mono (wp_unsafeBlitTo_faults _ _ _ _) ?_ ?_
    · rintro b _ rfl
      refine ⟨h.of_consumed (Consumed.pass h.input hrange (by omega) rfl) rfl, fun hpos hzero => ?_⟩
      simp only at hzero
      omega
    · rintro _ _ ⟨f, rfl⟩
      exact .fault
  · refine wp_mono (h.wp_refill hbusy (by omega)) ?_ ?_
    · rintro n s1 ⟨h1, hr, hzero⟩
      have hnonneg := hr.nonneg
      obtain ⟨-, hpass⟩ := hr.pass (by omega) (show 0 ≤ min len n by omega) (by omega)
      rw [wp_bind]
      refine wp_mono (wp_unsafeBlitTo_faults _ _ _ _) ?_ ?_
      · rintro b _ rfl
        refine ⟨h1.of_consumed hpass rfl, fun hpos hnone => ?_⟩
        simp only at hnone
        have hlength := h.length_unread (hzero.mp (by omega))
        exact List.length_eq_zero_iff.mp (by omega)
      · rintro _ _ ⟨f, rfl⟩
        exact .fault
    · rintro _ _ rfl
      exact .waiting

theorem Giving.wp_readIntoChecked (h : Giving s) (hbusy : s.state.ch.state = .busyPrimitive)
    (name : String) (buf : List UInt8) (ofs len : ℤ) :
    wp (Primitives.readIntoChecked name buf ofs len)
      (fun r s' => Giving s' ∧ (0 < len → r.1 = 0 → s.state.unread = [])) (fun x s' => Stays x s')
      s := by
  simp only [Primitives.readIntoChecked, wp_ite, wp_raise, wp_pure]
  refine ⟨fun _ => ⟨fun _ _ => h, by simp⟩, fun hrange => ⟨fun hzero => ⟨h, by omega⟩, fun _ => ?_⟩⟩
  exact h.wp_unsafeReadInto' hbusy (not_wrongRange hrange).2

theorem Giving.wp_unsafeReadIntoExactly' (h : Giving s) (hbusy : s.state.ch.state = .busyPrimitive)
    {buf : List UInt8} {ofs len : ℤ} (hofs : 0 ≤ ofs) (hlen : 0 ≤ len) :
    wp (Primitives.unsafeReadIntoExactly' buf ofs len) (fun _ s' => Giving s')
      (fun x s' => (∀ e, x = .raised e → Giving s') ∧
        (x = .raised .endOfFile → 0 < len → s.state.unread.length < len.toNat)) s := by
  refine wp_loop (fun r s' => 0 ≤ r.2.1 ∧ 0 ≤ r.2.2 ∧ (0 < len → 0 < r.2.2) ∧
    ∃ seg : List UInt8, seg.length + r.2.2 = len ∧ Consumed seg s s' ∧ Giving s') ?_
      ⟨hofs, hlen, id, [], by simp, .refl h.input, h⟩
  rintro ⟨b, o, l⟩ s1 ⟨ho, hl, hpos, seg, hsum, hc, h1⟩
  simp only at ho hl hpos hsum
  have hbusy1 := hc.state.trans hbusy
  simp only [wp_bind]
  refine wp_mono (wp_and (Data.wp_unsafeReadInto' h1.input hbusy1 ho hl)
    (h1.wp_unsafeReadInto' hbusy1 hl)) ?_ fun _ _ hx => ⟨hx.2.giving, fun heof =>
      absurd heof hx.2.notEof⟩
  rintro ⟨n, b'⟩ s2 ⟨⟨more, hn, hle, -, -, hmore⟩, h2, hnone⟩
  simp only at hn hle hnone
  simp only [wp_ite, wp_raise, wp_pure]
  refine ⟨fun hzero => ⟨fun _ _ => h2, fun _ hlen' => ?_⟩, fun hne => ⟨fun _ => ⟨by simp,
    fun _ _ => h2⟩, fun hrest => ⟨fun r hr => ?_, by simp⟩⟩⟩
  · rw [hc.unread, hnone (hpos hlen') hzero, List.append_nil]
    have := hpos hlen'
    omega
  · cases hr
    refine ⟨⟨by simp only; omega, by simp only; omega, fun _ => by simp only; omega,
      seg ++ more, ?_, hc.trans hmore, h2⟩, ?_⟩
    · simp only [List.length_append]
      omega
    · simp only
      omega

theorem Giving.wp_readIntoExactlyChecked (h : Giving s)
    (hbusy : s.state.ch.state = .busyPrimitive) (name : String) (buf : List UInt8) (ofs len : ℤ) :
    wp (Primitives.readIntoExactlyChecked name buf ofs len) (fun _ s' => Giving s')
      (Falls len.toNat s) s := by
  simp only [Primitives.readIntoExactlyChecked, wp_ite, wp_raise, wp_pure]
  refine ⟨fun _ => .other h (by simp), fun hrange => ⟨fun _ => h, fun hzero => ?_⟩⟩
  obtain ⟨hofs, hlen⟩ := not_wrongRange hrange
  exact wp_mono (h.wp_unsafeReadIntoExactly' hbusy hofs hlen) (fun _ _ h => h)
    fun _ _ hx => ⟨hx.1, fun heof => hx.2 heof (by omega)⟩

/-! ## Everything -/

theorem wp_revBlit_faults (l : List (List UInt8)) : ∀ (ofs : ℤ) (buf : List UInt8),
    wp (Primitives.revBlit ofs buf l) (fun _ s' => s' = s) (fun x _ => ∃ f, x = .fault f) s := by
  induction l with
  | nil => exact fun _ _ => rfl
  | cons str l ih =>
    intro ofs buf
    simp only [Primitives.revBlit, wp_ite, wp_fault]
    exact ⟨fun _ => ih _ _, fun _ => ⟨_, rfl⟩⟩

theorem Giving.wp_revConcat (h : Giving s) (len : ℤ) (l : List (List UInt8)) :
    wp (Primitives.revConcat len l) (fun _ s' => s' = s) (fun x s' => Stays x s') s := by
  simp only [Primitives.revConcat, bytesCreate, wp_bind, wp_ite, wp_raise, wp_pure]
  refine ⟨fun _ => ⟨fun _ _ => h, by simp⟩, fun _ => ?_⟩
  refine wp_mono (wp_revBlit_faults l _ _) (fun _ _ h => h) ?_
  rintro _ _ ⟨f, rfl⟩
  exact .fault

theorem Giving.wp_readAll (h : Giving s) (hbusy : s.state.ch.state = .busyPrimitive) :
    wp (Primitives.readAll 0 []) (fun _ s' => Giving s' ∧ s'.state.unread = [])
      (fun x s' => Stays x s') s := by
  refine wp_loopAsking (fun _ s' => Giving s' ∧ s'.state.ch.state = .busyPrimitive) ?_ ⟨h, hbusy⟩
  rintro ⟨total, acc⟩ s1 ⟨h1, hbusy1⟩
  have hmin : (0 : ℤ) < minBufferSize := by simp [minBufferSize]
  have hle := h1.input.le
  simp only [bytesCreate, wp_bind, wp_get, wp_ite, wp_raise, wp_pure]
  refine ⟨fun _ => ⟨fun _ _ => h1, by simp⟩, fun _ => ?_⟩
  refine wp_mono (wp_unsafeBlitTo_faults _ _ _ _) ?_ ?_
  · rintro str s1 rfl
    have hpass := Consumed.pass h1.input h1.input.inside.2.1 (Int.le_refl _)
      (show s1.state.ch.max = _ by omega)
    have h2 := h1.of_consumed hpass rfl
    rw [wp_bind, wp_setPtr, wp_bind]
    refine wp_mono (h2.wp_refill hbusy1 (by simp only [withCh_ch]; omega)) ?_ ?_
    · rintro n s2 ⟨h3, hr, hzero⟩
      simp only [wp_ite, wp_bind, wp_pure]
      refine ⟨fun hn => ?_, fun hn => ⟨fun _ _ => ⟨⟨h3, hr.consumed.state.trans hbusy1⟩,
        hr.fewer hn⟩, by simp⟩⟩
      have hlength := h2.length_unread (hzero.mp hn)
      rw [hr.consumed.unread, List.nil_append, withCh_ch] at hlength
      refine wp_mono (h3.wp_revConcat _ _) ?_ fun _ _ hx => hx
      rintro data _ rfl
      exact ⟨by simp, fun _ _ => ⟨h3, List.length_eq_zero_iff.mp (by simp only at hlength; omega)⟩⟩
    · rintro _ _ rfl
      exact .waiting
  · rintro _ _ ⟨f, rfl⟩
    exact .fault

theorem Giving.wp_read (h : Giving s) (hbusy : s.state.ch.state = .busyPrimitive)
    (count : Option ℤ) :
    wp (Primitives.read count)
      (fun data s' => Giving s' ∧ (∀ len, count = some len → 0 < len → data = [] →
        s.state.unread = []) ∧ (count = none → s'.state.unread = []))
      (fun x s' => Stays x s') s := by
  cases count with
  | none =>
    exact wp_mono (h.wp_readAll hbusy) (fun _ _ hr => ⟨hr.1, by simp, fun _ => hr.2⟩)
      fun _ _ hx => hx
  | some len =>
    simp only [Primitives.read, bytesCreate, wp_bind, wp_ite, wp_raise, wp_pure]
    refine ⟨fun _ => ⟨fun _ _ => h, by simp⟩, fun hsize => ?_⟩
    refine wp_mono (wp_and (Data.wp_unsafeReadInto' h.input hbusy (Int.le_refl 0) (by omega))
      (h.wp_unsafeReadInto' hbusy (by omega))) ?_ fun _ _ hx => hx.2
    rintro ⟨n, b⟩ s' ⟨⟨seg, hn, hle, hb, hin, -⟩, h', hnone⟩
    simp only at hn hle hb hnone
    have hdata : ∀ data : List UInt8, data.length = seg.length → ∀ k, some len = some k →
        0 < k → data = [] → s.state.unread = [] := by
      rintro data hlength k hk hpos rfl
      cases hk
      exact hnone hpos (by rw [hn, ← hlength]; rfl)
    simp only [wp_ite, wp_pure]
    refine ⟨fun _ => ⟨h', hdata _ ?_, by simp⟩, fun hfull => ⟨h', hdata _ ?_, by simp⟩⟩
    · rw [hb, slice_splice hin hn]
    · rw [hb, splice_all (by rw [List.length_replicate]; omega)]

/-! ## Blocks -/

theorem Giving.wp_readBlockUnsafe (h : Giving s) (hbusy : s.state.ch.state = .busyPrimitive)
    {size : ℤ} (hsize : size ≤ minBufferSize) {f : ℤ → Prim α}
    (hf : ∀ s' : Moment, Giving s' → size ≤ s'.state.ch.max - s'.state.ch.ptr →
      wp (f s'.state.ch.ptr) (fun _ s' => Giving s') (fun x s' => Stays x s')
        (withCh s' { s'.state.ch with ptr := s'.state.ch.ptr + size })) :
    wp (Primitives.readBlockUnsafe size f) (fun _ s' => Giving s') (Falls size.toNat s) s := by
  simp only [Primitives.readBlockUnsafe, wp_bind]
  refine wp_loopAsking (fun _ s' => Consumed [] s s' ∧ Giving s') ?_ ⟨.refl h.input, h⟩
  rintro _ s1 ⟨hc, h1⟩
  simp only [wp_bind, wp_get, wp_ite, wp_pure, wp_setPtr]
  refine ⟨fun hshort => wp_mono (h1.wp_refill (hc.state.trans hbusy) (by omega)) ?_ ?_,
    fun hfits => ⟨by simp, fun ptr hptr => ?_⟩⟩
  · rintro n s2 ⟨h2, hr, hzero⟩
    simp only [wp_ite, wp_raise, wp_pure]
    refine ⟨fun hn => .eof h2 ?_, fun hn => ⟨fun _ _ => ⟨⟨hc.trans hr.consumed, h2⟩, hr.fewer hn⟩,
      by simp⟩⟩
    have hlength := h1.length_unread (hzero.mp hn)
    rw [hc.unread, List.nil_append]
    omega
  · rintro _ _ rfl
    exact .waiting
  · cases hptr
    exact wp_mono (hf s1 h1 (by omega)) (fun _ _ h => h) fun _ _ hx => hx.falls

theorem Giving.wp_getBytes (h : Giving s) {size : ℤ} (hnonneg : 0 ≤ size)
    (hfits : size ≤ s.state.ch.max - s.state.ch.ptr) :
    wp (getBytes s.state.ch.ptr size) (fun _ s' => Giving s') (fun x s' => Stays x s')
      (withCh s { s.state.ch with ptr := s.state.ch.ptr + size }) := by
  refine (Data.wp_getBytes (by exact h.input.inside_of_le hnonneg hfits)).mpr ?_
  exact h.of_consumed (Consumed.pass h.input hnonneg hfits rfl) rfl

theorem Giving.wp_number (h : Giving s) (hbusy : s.state.ch.state = .busyPrimitive) {size : ℕ}
    (hsize : (size : ℤ) ≤ minBufferSize) (value : List UInt8 → α) :
    wp (Primitives.readBlockUnsafe size fun ptr => getBytes ptr size >>= fun b => pure (value b))
      (fun _ s' => Giving s') (Falls size s) s := by
  refine h.wp_readBlockUnsafe hbusy hsize fun s' h' hfits => ?_
  rw [wp_bind]
  exact h'.wp_getBytes (Int.natCast_nonneg _) hfits

theorem Giving.wp_block (h : Giving s) (hbusy : s.state.ch.state = .busyPrimitive) (size : ℤ) :
    wp (Primitives.block size fun ptr => getBytes ptr size) (fun _ s' => Giving s')
      (Falls size.toNat s) s := by
  simp only [Primitives.block, wp_bind, wp_get, wp_ite, wp_raise, wp_setPtr]
  refine ⟨fun _ => .other h (by simp), fun hsize => ⟨fun hfits => ?_, fun _ => ?_⟩⟩
  · exact wp_mono (h.wp_getBytes (by omega) hfits) (fun _ _ h => h) fun _ _ hx => hx.falls
  · rw [h.input.mode]
    exact h.wp_readBlockUnsafe hbusy (by omega) fun s' h' hfits => h'.wp_getBytes (by omega) hfits

theorem Giving.wp_readValue (h : Giving s) (hbusy : s.state.ch.state = .busyPrimitive)
    (marshal : Marshal) :
    wp (Primitives.readValue marshal) (fun _ s' => Giving s')
      (fun x s' => (∀ e, x = .raised e → Giving s') ∧ (x = .raised .endOfFile → marshal.Regular →
        s.state.unread.length < (InputOp.readValue marshal).need s.state.unread)) s := by
  have hheader : (0 : ℤ) ≤ marshal.headerSize := Int.natCast_nonneg _
  simp only [Primitives.readValue, bytesCreate, wp_bind, wp_ite, wp_raise, wp_pure]
  refine ⟨fun _ => ⟨fun _ _ => h, by simp⟩, fun _ => ?_⟩
  refine wp_mono (wp_and (Data.wp_unsafeReadIntoExactly' h.input hbusy (Int.le_refl 0) hheader)
    (h.wp_unsafeReadIntoExactly' hbusy (Int.le_refl 0) hheader)) ?_ ?_
  · rintro _ s1 ⟨⟨seg, hseg, rfl, hc⟩, h1⟩
    have hsegLength : seg.length = marshal.headerSize := by omega
    rw [splice_all (by rw [List.length_replicate]; omega)]
    have htake : s.state.unread.take marshal.headerSize = seg := by
      rw [hc.unread, ← hsegLength, List.take_left]
    cases hsize : marshal.dataSize seg with
    | error e =>
      refine ⟨fun _ _ => h1, fun heof hregular => absurd hsize ?_⟩
      rw [Abnormal.raised.inj heof]
      exact hregular.dataSize seg
    | ok bsize =>
      have hbsize : (0 : ℤ) ≤ bsize := Int.natCast_nonneg _
      simp only [wp_bind, wp_ite, wp_raise, wp_pure]
      refine ⟨fun _ => ⟨fun _ _ => h1, by simp⟩, fun _ => ?_⟩
      refine wp_mono (h1.wp_unsafeReadIntoExactly' (hc.state.trans hbusy) hheader hbsize) ?_ ?_
      · intro bytes s2 h2
        cases hfrom : marshal.fromBytes bytes with
        | error e =>
          refine ⟨fun _ _ => h2, fun heof hregular => absurd hfrom ?_⟩
          rw [Abnormal.raised.inj heof]
          exact hregular.fromBytes bytes
        | ok _ => exact h2
      · refine fun x s2 hx => ⟨hx.1, fun heof hregular => ?_⟩
        have hshort := hx.2 heof (by have := hregular.data seg bsize hsize; omega)
        rw [InputOp.need, htake, hsize, hc.unread, List.length_append]
        simp only
        omega
  · refine fun x s1 hx => ⟨hx.2.1, fun heof hregular => ?_⟩
    have hpos := hregular.header
    have hshort := hx.2.2 heof (by omega)
    rw [InputOp.need]
    omega

theorem wp_resizeChannel_length (hmode : s.state.ch.mode = .input) (len : ℤ) :
    wp (resizeChannel len) (fun _ s' => s'.state.ch.length = len)
      (fun x s' => s' = s ∧ x ≠ .raised .endOfFile) s := by
  simp only [resizeChannel, lwtBytesCreate, wp_bind, wp_get, hmode, wp_ite, wp_raise, wp_pure,
    wp_fault, wp_update]
  exact ⟨fun _ => ⟨trivial, by simp⟩, fun _ => ⟨fun _ => ⟨trivial, by simp⟩, fun _ =>
    ⟨fun _ => ⟨trivial, by simp⟩, fun _ => rfl⟩⟩⟩

theorem Giving.wp_resizeBuffer (h : Giving s) (hidle : s.state.ch.state = .idle) (len : ℤ) :
    wp (resizeBuffer len) (fun _ s' => Giving s') (fun x s' => Stays x s') s := by
  have hbusy := h.withState .busyPrimitive
  simp only [resizeBuffer, wp_bind, wp_get, wp_ite, wp_raise, h.typ]
  refine ⟨fun _ => ⟨fun _ _ => h, by simp⟩, fun hsize => wp_primitive hidle ?_⟩
  refine wp_mono (wp_and (wp_resizeChannel_input hbusy.input hbusy.typ len)
    (wp_resizeChannel_length hbusy.input.mode len)) ?_ ?_
  · rintro _ s' ⟨hc, hlength⟩
    refine ⟨hc.state, Giving.withState ⟨hc.input, hc.typ.trans h.typ, ?_, fun a ha =>
      h.chunks a (hc.suffix.subset ha)⟩ _⟩
    omega
  · rintro x _ ⟨-, rfl, hx⟩
    have hstays : Stays x (Data.withState (Data.withState s .busyPrimitive) .idle) :=
      ⟨fun _ _ => hbusy.withState _, hx⟩
    exact ⟨fun e _ => ⟨rfl, hstays⟩, fun hno => ⟨fun e he => absurd he (hno e), hno _⟩⟩

/-! ## Operations -/

/-- The lock changes nothing but the state of the channel. -/
theorem Giving.wp_primitive {t : Prim α} {P : α → List UInt8 → Prop}
    {B : Abnormal Exn Fault → Prop} (hidle : s.state.ch.state = .idle)
    (hassert : B (.raised .assertFailure))
    (ht : wp t (fun a s' => Giving s' ∧ P a s'.state.unread)
      (fun x s' => (∀ e, x = .raised e → Giving s') ∧ B x)
      (Data.withState s .busyPrimitive)) :
    wp (primitive t) (fun a s' => Giving s' ∧ P a s'.state.unread)
      (fun x s' => (∀ e, x = .raised e → Giving s') ∧ B x) s := by
  have hunlock : ∀ {Q : Unit → Moment → Prop} {s' : Moment}, Giving s' →
      (∀ state, Q () (Data.withState s' state)) →
      wp unlock Q (fun x s' => (∀ e, x = .raised e → Giving s') ∧ B x) s' := by
    intro Q s' h' hQ
    simp only [unlock, wp_bind, wp_get]
    cases hstate : s'.state.ch.state with
    | busyPrimitive | busyAtomic _ => exact hQ .idle
    | closed | invalid => exact hQ s'.state.ch.state
    | idle | waitingForBusy => exact ⟨fun _ _ => h', hassert⟩
  simp only [primitive, wp_bind, wp_get, hidle, wp_update, finalize, wp_tryBind]
  refine wp_mono ht ?_ ?_
  · rintro a s' ⟨h', hP⟩
    exact (wp_bind _ _).mpr (hunlock h' fun state => ⟨h'.withState state, hP⟩)
  · rintro x s' ⟨h', hB⟩
    refine ⟨?_, fun hno => ⟨fun e he => absurd he (hno e), hB⟩⟩
    rintro e rfl
    exact (wp_bind _ _).mpr
      (hunlock (h' e rfl) fun state => ⟨fun _ _ => (h' e rfl).withState state, hB⟩)

namespace InputOp

variable {endian : Endian} {floats : Floats} {op : InputOp} {rest rest' : List UInt8}

theorem Complete.of_error {x : Abnormal Exn Fault}
    (h : op.Stops (.error x) → rest.length < op.need rest) : op.Complete (.error x) rest rest' :=
  ⟨h, fun _ _ hr => by cases hr⟩

theorem Stops.eof {x : Abnormal Exn Fault} (h : op.Stops (.error x)) : x = .raised .endOfFile := by
  unfold Stops at h
  split at h <;> simp_all

theorem wp_result_complete {t : Prim α} {f : α → InputResult} {P : α → List UInt8 → Prop}
    {B : Abnormal Exn Fault → Prop} (hidle : s.state.ch.state = .idle)
    (hassert : B (.raised .assertFailure))
    (hok : ∀ a rest, P a rest → op.Complete (.ok (f a)) s.state.unread rest)
    (hfails : ∀ x, B x → op.Stops (.error x) → s.state.unread.length < op.need s.state.unread)
    (ht : wp t (fun a s' => Giving s' ∧ P a s'.state.unread)
      (fun x s' => (∀ e, x = .raised e → Giving s') ∧ B x) (Data.withState s .busyPrimitive)) :
    wp (result (primitive t) f)
      (fun r s' => Giving s' ∧ op.Complete (.ok r) s.state.unread s'.state.unread)
      (fun x s' => (∀ e, x = .raised e → Giving s') ∧
        op.Complete (.error x) s.state.unread s'.state.unread) s := by
  rw [result, wp_bind]
  exact wp_mono (Giving.wp_primitive hidle hassert ht) (fun a s' h => ⟨h.1, hok _ _ h.2⟩)
    fun x s' h => ⟨h.1, .of_error (hfails x h.2)⟩

/-- An operation that can only fail at the end of the data. -/
theorem wp_result_falls {t : Prim α} {f : α → InputResult} (hidle : s.state.ch.state = .idle)
    (hok : ∀ a, ¬ op.Stops (.ok (f a))) (hread : op ≠ .read none)
    (ht : wp t (fun _ s' => Giving s')
      (Falls (op.need s.state.unread) (Data.withState s .busyPrimitive))
      (Data.withState s .busyPrimitive)) :
    wp (result (primitive t) f)
      (fun r s' => Giving s' ∧ op.Complete (.ok r) s.state.unread s'.state.unread)
      (fun x s' => (∀ e, x = .raised e → Giving s') ∧
        op.Complete (.error x) s.state.unread s'.state.unread) s :=
  wp_result_complete (P := fun _ _ => True)
    (B := fun x => x = .raised .endOfFile → s.state.unread.length < op.need s.state.unread) hidle
    (by simp) (fun a _ _ => ⟨fun h => absurd h (hok a), fun h => absurd h hread⟩)
    (fun _ hB hstops => hB hstops.eof)
    (wp_mono ht (fun _ _ h => ⟨h, trivial⟩) fun _ _ hx => ⟨hx.giving, hx.short⟩)

/-- An operation that gives `None` at the end of the data. -/
theorem wp_result_none {t : Prim α} {f : α → InputResult} (hidle : s.state.ch.state = .idle)
    (hneed : op.need s.state.unread = 1) (hok : ∀ a, ¬ op.Stops (.ok (f a)))
    (hread : op ≠ .read none)
    (ht : wp t (fun _ s' => Giving s') (Falls 1 (Data.withState s .busyPrimitive))
      (Data.withState s .busyPrimitive)) :
    wp (result (primitive (Primitives.orEndOfFile t)) (option f))
      (fun r s' => Giving s' ∧ op.Complete (.ok r) s.state.unread s'.state.unread)
      (fun x s' => (∀ e, x = .raised e → Giving s') ∧
        op.Complete (.error x) s.state.unread s'.state.unread) s := by
  refine wp_result_complete (P := fun a _ => a = none → s.state.unread.length < 1)
    (B := fun x => x = .raised .endOfFile → s.state.unread.length < 1) hidle (by simp) ?_
    (fun _ hB hstops => hneed.symm ▸ hB hstops.eof)
    (wp_mono (Giving.wp_orEndOfFile ht) (fun _ _ h => h) fun _ _ hx => ⟨hx.giving, hx.short⟩)
  rintro a rest hnone
  refine ⟨fun hstops => ?_, fun h => absurd h hread⟩
  cases a with
  | none => exact hneed.symm ▸ hnone rfl
  | some a => exact absurd hstops (hok a)

/-- Every operation takes all that it needs, as long as there is enough. -/
theorem wp_complete (endian : Endian) (floats : Floats) (op : InputOp) (h : Giving s)
    (hidle : s.state.ch.state = .idle) :
    wp (op.run endian floats)
      (fun r s' => Giving s' ∧ op.Complete (.ok r) s.state.unread s'.state.unread)
      (fun x s' => (∀ e, x = .raised e → Giving s') ∧
        op.Complete (.error x) s.state.unread s'.state.unread) s := by
  have hbusy : Giving (Data.withState s .busyPrimitive) := h.withState _
  cases op with
  | readChar =>
    rw [run, result, wp_bind]
    refine (wp_congr (readChar_eq h.input)).mpr ?_
    have hread := wp_result_falls hidle
      (fun a => show ¬ readChar.Stops (.ok (.char a)) by simp [Stops]) (by simp)
      (hbusy.wp_readChar rfl)
    rwa [result, wp_bind] at hread
  | readCharOpt =>
    rw [run, result, wp_bind]
    refine (wp_congr (readCharOpt_eq h.input)).mpr ?_
    have hread := wp_result_none hidle rfl
      (fun a => show ¬ readCharOpt.Stops (.ok (.char a)) by simp [Stops]) (by simp)
      (hbusy.wp_readChar rfl)
    rwa [result, wp_bind] at hread
  | readLine =>
    exact wp_result_falls hidle (by simp [Stops]) (by simp) (hbusy.wp_readLine rfl)
  | readLineOpt =>
    exact wp_result_none hidle rfl (by simp [Stops]) (by simp) (hbusy.wp_readLine rfl)
  | read count =>
    refine wp_result_complete (P := fun data rest => (∀ len, count = some len → 0 < len →
      data = [] → s.state.unread = []) ∧ (count = none → rest = []))
      (B := fun x => x ≠ .raised .endOfFile) hidle (by simp) ?_
      (fun _ hB hstops => absurd hstops.eof hB)
      (wp_mono (hbusy.wp_read rfl count) (fun _ _ h => h) fun _ _ hx => ⟨hx.giving, hx.notEof⟩)
    rintro data rest ⟨hshort, hall⟩
    refine ⟨fun hstops => ?_, fun hcount _ _ => hall (by simpa using hcount)⟩
    -- a read that stops has come to the end, if it was to take anything
    cases count with
    | none => exact hstops.elim
    | some len =>
      obtain ⟨hlen, hdata⟩ := hstops
      rw [hshort len rfl hlen hdata]
      exact Nat.one_pos
  | readInto buf ofs len | readIntoBigstring buf ofs len =>
    refine wp_result_complete (P := fun r _ => 0 < len → r.1 = 0 → s.state.unread = [])
      (B := fun x => x ≠ .raised .endOfFile) hidle (by simp) ?_
      (fun _ hB hstops => absurd hstops.eof hB)
      (wp_mono (hbusy.wp_readIntoChecked rfl _ buf ofs len) (fun _ _ h => h)
        fun _ _ hx => ⟨hx.giving, hx.notEof⟩)
    rintro r rest hnone
    refine ⟨fun hstops => ?_, by simp⟩
    obtain ⟨hlen, hzero⟩ := hstops
    rw [hnone hlen hzero]
    exact Nat.one_pos
  | readIntoExactly buf ofs len | readIntoExactlyBigstring buf ofs len =>
    exact wp_result_falls hidle (by simp [Stops]) (by simp)
      (hbusy.wp_readIntoExactlyChecked rfl _ buf ofs len)
  | readValue marshal =>
    exact wp_result_complete (P := fun _ _ => True)
      (B := fun x => x = .raised .endOfFile → marshal.Regular →
        s.state.unread.length < (readValue marshal).need s.state.unread) hidle (by simp)
      (fun _ _ _ => ⟨fun hstops => hstops.elim, by simp⟩)
      (fun _ hB hstops => by
        obtain rfl := hstops.eof
        exact hB rfl hstops)
      (wp_mono (hbusy.wp_readValue rfl marshal) (fun _ _ h => ⟨h, trivial⟩) fun _ _ hx => hx)
  | block size =>
    exact wp_result_falls hidle (by simp [Stops]) (by simp) (hbusy.wp_block rfl size)
  | readInt | readInt16 | readInt32 | readInt64 | readFloat64 =>
    exact wp_result_falls hidle (by simp [Stops]) (by simp)
      (hbusy.wp_number rfl (by simp [minBufferSize]) _)
  | readFloat32 =>
    refine wp_result_falls hidle (by simp [Stops]) (by simp) ?_
    rw [Primitives.readFloat32, wp_bind]
    exact hbusy.wp_number rfl (by simp [minBufferSize]) endian.value32
  | resizeBuffer len =>
    rw [run, result, wp_bind]
    refine wp_mono (h.wp_resizeBuffer hidle len) (fun _ _ h' => ⟨h', ?_⟩) fun x _ hx =>
      ⟨hx.giving, .of_error fun hstops => absurd hstops.eof hx.notEof⟩
    exact ⟨fun hstops => hstops.elim, by simp⟩

end InputOp

end Lwt.Io.Data
