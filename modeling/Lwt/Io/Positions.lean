import Lwt.Io.Written
import Lwt.Io.Reading

/-!
# The four integers of a channel

`ptr`, `max`, `length` and `offset` under every operation, for the channels of `make` and of
`of_bytes`.  What the reading and writing primitives do to them follows from what they do to the
data (`Consumed.position`, `Wrote.position`).  `set_position` and the parts of `direct_access` set
`ptr` themselves.

On an input channel of `of_bytes`, `set_position` relies on `max` being the length of the bytes,
and a `read` or a `read_into` at the end of the data sets `max` to 0.
-/

namespace Lwt.Io.Data

open Dialogue Window

variable {α : Type} {m : Mode} {s s' s'' : Moment} {seg data : List UInt8}

/-- A channel between two operations. -/
structure Within (m : Mode) (ch : RealChannel) : Prop where
  mode : ch.mode = m
  size : ch.length = ch.buffer.length
  nonneg : 0 ≤ ch.ptr
  le : ch.ptr ≤ ch.max
  max : ch.max ≤ ch.length
  full : m = .output → ch.max = ch.length
  bound : ch.length ≤ maxInt
  offset : ch.typ = .bytes → m = .input → ch.offset = Int64.ofInt ch.length
  noOffset : ch.typ = .bytes → m = .output → ch.offset = 0

theorem Within.input {ch : RealChannel} (h : Within .input ch) : Input ch :=
  ⟨h.mode, h.size, h.nonneg, h.le, h.max⟩

theorem Within.output {ch : RealChannel} (h : Within .output ch) : Output ch :=
  ⟨h.mode, h.size, h.nonneg, h.full rfl ▸ h.le, h.full rfl⟩

theorem Within.withState (h : Within m s.state.ch) (state : State) :
    Within m (Data.withState s state).state.ch :=
  ⟨h.mode, h.size, h.nonneg, h.le, h.max, h.full, h.bound, h.offset, h.noOffset⟩

/-! ## Reading and writing -/

theorem Input.position (h : Input s.state.ch) :
    position s.state.ch = s.state.horizon - Int64.ofInt s.state.unread.length := by
  have hlength := length_slice h.inside
  simp only [Data.position, h.mode, World.horizon, World.unread, List.length_append,
    Int.natCast_add, hlength]
  grind [Int64.ofInt_add]

theorem Output.position (h : Output s.state.ch) :
    position s.state.ch = s.state.origin + Int64.ofInt s.state.content.length := by
  have hlength := length_slice h.inside
  simp only [Data.position, h.mode, World.origin, World.content, List.length_append,
    Int.natCast_add, hlength]
  grind [Int64.ofInt_add]

/-- From `s` to `s'`, `n` bytes have been read or written. -/
structure Passed (m : Mode) (n : ℤ) (s s' : Moment) : Prop where
  within : Within m s'.state.ch
  position : position s'.state.ch = position s.state.ch + Int64.ofInt n
  typ : s'.state.ch.typ = s.state.ch.typ
  state : s'.state.ch.state = s.state.ch.state

theorem Consumed.passed' (h : Within .input s.state.ch) (hc : Consumed seg s s') :
    Passed .input seg.length s s' := by
  have hi := hc.input
  refine ⟨⟨hi.mode, hi.size, hi.nonneg, hi.le, hi.max, by simp, hc.bound h.bound,
    fun hbytes _ => ?_, by simp⟩, ?_, hc.typ, hc.state⟩
  · have hbytes' := hc.typ.symm.trans hbytes
    obtain ⟨-, -, hlength, hoffset⟩ := hc.bytes hbytes'
    rw [hoffset, hlength]
    exact h.offset hbytes' rfl
  · rw [hi.position, h.input.position, hc.horizon, hc.unread, List.length_append, Int.natCast_add]
    grind [Int64.ofInt_add]

theorem Wrote.passed' (h : Within .output s.state.ch) (hw : Wrote data s s') :
    Passed .output data.length s s' := by
  have ho := hw.output
  refine ⟨⟨ho.mode, ho.size, ho.nonneg, ho.max ▸ ho.le, Int.le_of_eq ho.max, fun _ => ho.max,
    hw.bound h.bound, by simp, fun hbytes _ => ?_⟩, ?_, hw.typ, hw.state⟩
  · have hbytes' := hw.typ.symm.trans hbytes
    obtain ⟨-, -, -, hoffset⟩ := hw.bytes hbytes'
    rw [hoffset]
    exact h.noOffset hbytes' rfl
  · rw [ho.position, h.output.position, hw.origin, hw.content, List.length_append, Int.natCast_add]
    grind [Int64.ofInt_add]

theorem Passed.refl (h : Within m s.state.ch) : Passed m 0 s s := ⟨h, by simp, rfl, rfl⟩

theorem Passed.samePosition (h : Passed m 0 s s') :
    Data.position s'.state.ch = Data.position s.state.ch := by
  simpa using h.position

theorem Passed.trans {a b : ℤ} (h : Passed m a s s') (h' : Passed m b s' s'') :
    Passed m (a + b) s s'' :=
  ⟨h'.within, by rw [h'.position, h.position]; grind [Int64.ofInt_add], h'.typ.trans h.typ,
    h'.state.trans h.state⟩

/-! ## Functions of the caller -/

/-- From `s` to `s'`, `direct_access` has passed the bytes that have been read or written. -/
structure Advanced (m : Mode) (s s' : Moment) : Prop where
  le : s.state.passed ≤ s'.state.passed
  passed : Passed m (s'.state.passed - s.state.passed) s s'

theorem Advanced.trans (h : Advanced m s s') (h' : Advanced m s' s'') : Advanced m s s'' := by
  refine ⟨Nat.le_trans h.le h'.le, ?_⟩
  have htrans := h.passed.trans h'.passed
  rwa [show ((s'.state.passed : ℤ) - s.state.passed) + (s''.state.passed - s'.state.passed) =
    s''.state.passed - s.state.passed by omega] at htrans

theorem Advanced.of_passed (h : Passed m 0 s s') (hp : s'.state.passed = s.state.passed) :
    Advanced m s s' :=
  ⟨Nat.le_of_eq hp.symm, by rwa [hp, Int.sub_self]⟩

theorem Advanced.refl (h : Within m s.state.ch) : Advanced m s s := .of_passed (.refl h) rfl

/-- From `s` to `s'`, the position has not been moved. -/
structure Touched (m : Mode) (s s' : Moment) : Prop where
  passed : Passed m 0 s s'
  same : s'.state.passed = s.state.passed

theorem Touched.refl (h : Within m s.state.ch) : Touched m s s := ⟨.refl h, rfl⟩

theorem Touched.advanced (h : Touched m s s') : Advanced m s s' := .of_passed h.passed h.same

theorem wp_performIo (h : Within m s.state.ch) (hbusy : s.state.ch.state = .busyPrimitive) :
    wp performIo (fun _ s' => Touched m s s') (fun x s' => Ended True x s' ∧ Touched m s s') s := by
  cases m with
  | input =>
    exact wp_mono (wp_performIo_input h.input hbusy)
      (fun _ _ hr => ⟨hr.consumed.passed' h, hr.consumed.passed⟩)
      fun _ _ hx => ⟨hx.1, hx.2.passed' h, hx.2.passed⟩
  | output =>
    refine wp_mono (wp_performIo_output h.output hbusy)
      (fun _ _ hw => ⟨hw.1.passed' h, hw.1.passed⟩) fun x s' hx => ⟨hx.ended, ?_⟩
    obtain ⟨data, hinitial, hw⟩ := hx.part
    obtain rfl := List.prefix_nil.mp hinitial
    exact ⟨hw.passed' h, hw.passed⟩

theorem wp_touch (h : Within m s.state.ch) (t : Primitives.Touch) :
    wp (Primitives.touch t) (fun _ s' => Touched m s s')
      (fun x s' => Ended True x s' ∧ Touched m s s') s := by
  cases t with
  | store ofs data =>
    simp only [Primitives.touch, wp_bind, wp_get, wp_ite, wp_update, wp_raise]
    refine ⟨fun hin => ⟨⟨⟨h.mode, ?_, h.nonneg, h.le, h.max, h.full, h.bound, h.offset,
      h.noOffset⟩, ?_, rfl, rfl⟩, rfl⟩, fun _ => ⟨.raised, .refl h, rfl⟩⟩
    · exact h.size.trans (congrArg _ (length_splice hin).symm)
    · simp [position]
  | raise e => exact ⟨.raised, .refl h⟩

theorem wp_touches (f : List Primitives.Touch) : ∀ s : Moment, Within m s.state.ch →
    wp (Primitives.touches f) (fun _ s' => Touched m s s')
      (fun x s' => Ended True x s' ∧ Touched m s s') s := by
  induction f with
  | nil => exact fun s h => ⟨.refl h, rfl⟩
  | cons t f ih =>
    intro s h
    rw [Primitives.touches, wp_bind]
    refine wp_mono (wp_touch h t) (fun _ s' ht => ?_) fun _ _ hx => hx
    exact wp_mono (ih s' ht.passed.within)
      (fun _ _ ht' => ⟨ht.passed.trans ht'.passed, ht'.same.trans ht.same⟩)
      fun _ _ hx => ⟨hx.1, ht.passed.trans hx.2.passed, hx.2.same.trans ht.same⟩

theorem wp_passTo (h : Within m s.state.ch) {da : Primitives.DirectAccess}
    (hda : ¬ Primitives.misplaced da s.state.ch) {A : Abnormal Exn Fault → Moment → Prop} :
    wp (Primitives.passTo da) (fun _ s' => Advanced m s s') A s := by
  simp only [Primitives.misplaced, not_or, not_not, Int.not_lt] at hda
  obtain ⟨hmax, hle, hge⟩ := hda
  have hnonneg := h.nonneg
  have hdelta : ((s.state.passed + (da.daPtr - s.state.ch.ptr).toNat : ℕ) : ℤ) - s.state.passed =
      da.daPtr - s.state.ch.ptr := by omega
  rw [Primitives.passTo, wp_modify]
  refine ⟨Nat.le_add_right _ _, ⟨h.mode, h.size, by simp only; omega, by simp only; omega, h.max,
    h.full, h.bound, h.offset, h.noOffset⟩, ?_, rfl, rfl⟩
  simp only [hdelta, position, h.mode]
  cases m <;> simp only [Int64.ofInt_sub] <;> grind

/-! ## Blocks -/

/-- A block of `size` bytes has been passed, or nothing. -/
def PassedBlock (m : Mode) (size : ℤ) (s s' : Moment) : Prop := Passed m 0 s s' ∨ Passed m size s s'

theorem wp_touchBlock (h : Within m s.state.ch) {size : ℤ} (hsize : 0 ≤ size)
    (hfits : size ≤ s.state.ch.max - s.state.ch.ptr) (f : List Primitives.Touch) :
    wp (Primitives.touches f) (fun _ s' => Passed m size s s')
      (fun x s' => Ended True x s' ∧ PassedBlock m size s s')
      (withCh s { s.state.ch with ptr := s.state.ch.ptr + size }) := by
  have hnonneg := h.nonneg
  have hpassed : Passed m size s (withCh s { s.state.ch with ptr := s.state.ch.ptr + size }) := by
    refine ⟨⟨h.mode, h.size, by simp only [withCh_ch]; omega, by simp only [withCh_ch]; omega,
      h.max, h.full, h.bound, h.offset, h.noOffset⟩, ?_, rfl, rfl⟩
    simp only [position, withCh_ch, h.mode]
    cases m <;> simp only [Int64.ofInt_sub, Int64.ofInt_add] <;> grind
  have hafter : ∀ {s'}, Touched m (withCh s { s.state.ch with ptr := s.state.ch.ptr + size }) s' →
      Passed m size s s' := by
    intro s' ht
    have hboth := hpassed.trans ht.passed
    rwa [Int.add_zero] at hboth
  exact wp_mono (wp_touches f _ hpassed.within) (fun _ _ ht => hafter ht)
    fun _ _ hx => ⟨hx.1, Or.inr (hafter hx.2)⟩

theorem PassedBlock.after {size : ℤ} (h : Passed m 0 s s') (h' : PassedBlock m size s' s'') :
    PassedBlock m size s s'' := by
  rcases h' with h' | h'
  · exact Or.inl (h.trans h')
  · have hboth := h.trans h'
    rw [Int.zero_add] at hboth
    exact Or.inr hboth

theorem wp_blockOf (h : Within m s.state.ch) (hbusy : s.state.ch.state = .busyPrimitive)
    (size : ℤ) (f : List Primitives.Touch) :
    wp (Primitives.block size fun _ => Primitives.touches f) (fun _ s' => Passed m size s s')
      (fun x s' => Ended True x s' ∧ PassedBlock m size s s') s := by
  simp only [Primitives.block, wp_bind, wp_get, wp_ite, wp_raise, wp_setPtr]
  refine ⟨fun _ => ⟨.raised, Or.inl (.refl h)⟩, fun hsize => ⟨fun hfits =>
    wp_touchBlock h (by omega) hfits f, fun _ => ?_⟩⟩
  have hsize' : 0 ≤ size := by omega
  have hblock : ∀ {s'}, Passed m 0 s s' → size ≤ s'.state.ch.max - s'.state.ch.ptr →
      wp (Primitives.touches f) (fun _ s'' => Passed m size s s'')
        (fun x s'' => Ended True x s'' ∧ PassedBlock m size s s'')
        (withCh s' { s'.state.ch with ptr := s'.state.ch.ptr + size }) := by
    intro s' hp hfits
    refine wp_mono (wp_touchBlock hp.within hsize' hfits f) (fun _ _ hp' => ?_) fun _ _ hx =>
      ⟨hx.1, .after hp hx.2⟩
    have hboth := hp.trans hp'
    rwa [Int.zero_add] at hboth
  rw [h.mode]
  cases m with
  | input =>
    exact wp_readBlockUnsafe h.input hbusy (fun s' hc hfits => hblock (hc.passed' h) hfits)
      fun x s' hx hc => ⟨hx, Or.inl (hc.passed' h)⟩
  | output =>
    refine wp_writeBlockUnsafe h.output hbusy (fun s' hw hfits => ?_) fun x s' hx => ?_
    · have hmax := hw.output.max
      exact hblock (hw.passed' h) (by omega)
    · obtain ⟨data, hinitial, hw⟩ := hx.part
      obtain rfl := List.prefix_nil.mp hinitial
      exact ⟨hx.ended, Or.inl (hw.passed' h)⟩

/-! ## Random access -/

/-- The channel is as it was. -/
def SameChannel (s s' : Moment) : Prop := s'.state.ch = s.state.ch

theorem wp_seek : wp Primitives.seek (fun _ s' => SameChannel s s')
    (fun x s' => Ended True x s' ∧ SameChannel s s') s := by
  simp only [Primitives.seek, wp_bind, wp_ask]
  refine ⟨fun hnone => ⟨⟨by simp, by simp, fun _ => hnone⟩, rfl⟩, fun r answers hr => ?_⟩
  cases r with
  | moves n => rfl
  | returns n => rfl
  | seeks n data => rfl
  | raises e => exact ⟨.raised, rfl⟩

theorem wp_doSeek (funName : String) (pos : Int64) :
    wp (Primitives.doSeek funName pos) (fun _ s' => SameChannel s s')
      (fun x s' => Ended True x s' ∧ SameChannel s s') s := by
  simp only [Primitives.doSeek, wp_bind]
  refine wp_mono wp_seek (fun n s' h => ?_) fun _ _ hx => hx
  simp only [wp_ite, wp_raise, wp_pure]
  exact ⟨fun _ => ⟨.raised, h⟩, fun _ => h⟩

theorem Passed.of_same (h : Within m s.state.ch) (hs : SameChannel s s') : Passed m 0 s s' := by
  unfold SameChannel at hs
  exact ⟨hs ▸ h, by simp [hs], by rw [hs], by rw [hs]⟩

theorem wp_length (h : Within m s.state.ch) :
    wp Primitives.length (fun _ s' => Passed m 0 s s')
      (fun x s' => Ended True x s' ∧ Passed m 0 s s') s := by
  simp only [Primitives.length, wp_bind, wp_get]
  cases s.state.ch.typ with
  | bytes => exact .refl h
  | normal =>
    rw [wp_bind]
    refine wp_mono wp_seek (fun _ s' hs => ?_) fun _ _ hx => ⟨hx.1, .of_same h hx.2⟩
    rw [wp_bind]
    exact wp_mono (wp_doSeek _ _) (fun _ _ hs' => .of_same h (Eq.trans hs' hs))
      fun _ _ hx => ⟨hx.1, .of_same h (Eq.trans hx.2 hs)⟩

/-- A position between the first unread byte and the end of the buffer, which `int64` comparisons
find, is in the buffer. -/
theorem distance_le {offset pos : Int64} {size : ℤ} (hnonneg : 0 ≤ size) (hsize : size ≤ maxInt)
    (hge : pos ≥ offset - Int64.ofInt size) (hle : pos ≤ offset) :
    0 ≤ (offset - pos).toInt ∧ (offset - pos).toInt ≤ size := by
  have hsize' : size < 2 ^ 62 := by
    simp only [maxInt] at hsize
    omega
  replace hge := Int64.le_iff_toInt_le.mp hge
  replace hle := Int64.le_iff_toInt_le.mp hle
  rw [Int64.toInt_sub, Int64.toInt_ofInt_of_le (by omega) (by omega)] at hge
  rw [Int64.toInt_sub]
  have hoffset := Int64.toInt_lt offset
  have hoffset' := Int64.le_toInt offset
  have hpos := Int64.toInt_lt pos
  have hpos' := Int64.le_toInt pos
  simp only [Int.bmod_def, Nat.reducePow, Int.cast_ofNat_Int] at *
  omega

/-- From `s` to `s'`, the position has been set. -/
structure Placed (m : Mode) (pos : Int64) (s s' : Moment) : Prop where
  within : Within m s'.state.ch
  position : position s'.state.ch = pos
  state : s'.state.ch.state = s.state.ch.state

/-- On the bytes of `of_bytes`, `ptr` is the position. -/
theorem wp_setPosition_bytes (h : Within m s.state.ch) (htyp : s.state.ch.typ = .bytes)
    (pos : Int64) (hcareful : m = .input → 0 ≤ pos.toInt → pos.toInt ≤ s.state.ch.length →
      s.state.ch.max = s.state.ch.length) :
    wp (Primitives.setPosition pos) (fun _ s' => Placed m pos s s')
      (fun x s' => Ended True x s' ∧ Passed m 0 s s') s := by
  have hbound := h.bound
  have hnonneg : 0 ≤ s.state.ch.length := by have := h.size; omega
  simp only [Primitives.setPosition, wp_bind, wp_get, htyp, wp_ite, wp_raise, wp_setPtr]
  refine ⟨fun _ => ⟨.raised, .refl h⟩, fun hin => ?_⟩
  simp only [not_or, Int64.not_lt, gt_iff_lt] at hin
  have hpos : 0 ≤ pos.toInt := Int64.le_iff_toInt_le.mp hin.1
  have hle : pos.toInt ≤ s.state.ch.length := by
    have hle := Int64.le_iff_toInt_le.mp hin.2
    simp only [maxInt] at hbound
    rwa [Int64.toInt_ofInt_of_le (by omega) (by omega)] at hle
  have hmax : s.state.ch.max = s.state.ch.length := by
    cases m with
    | input => exact hcareful rfl hpos hle
    | output => exact h.full rfl
  refine ⟨⟨h.mode, h.size, hpos, by simp only [withCh_ch]; omega, h.max, h.full, h.bound,
    fun _ => h.offset htyp, fun _ => h.noOffset htyp⟩, ?_, rfl⟩
  simp only [position, withCh_ch, h.mode]
  cases m with
  | input =>
    simp only [h.offset htyp rfl, hmax, Int64.ofInt_sub, Int64.ofInt_toInt]
    grind
  | output => simp only [h.noOffset htyp rfl, Int64.ofInt_toInt, Int64.zero_add]

theorem wp_setPosition (h : Within m s.state.ch) (hbusy : s.state.ch.state = .busyPrimitive)
    (pos : Int64) (hcareful : s.state.ch.typ = .bytes → m = .input → 0 ≤ pos.toInt →
      pos.toInt ≤ s.state.ch.length → s.state.ch.max = s.state.ch.length) :
    wp (Primitives.setPosition pos) (fun _ s' => Placed m pos s s')
      (fun x s' => Ended True x s' ∧ Passed m 0 s s') s := by
  cases htyp : s.state.ch.typ with
  | bytes => exact wp_setPosition_bytes h htyp pos (hcareful htyp)
  | normal =>
    have hnonneg := h.nonneg
    have hle := h.le
    have hmax := h.max
    have hbound := h.bound
    rw [Primitives.setPosition, wp_bind, wp_get]
    simp only [htyp, h.mode]
    cases m with
    | output =>
      -- an output channel is flushed before it seeks
      rw [wp_bind]
      refine wp_mono (wp_flushTotal h.output hbusy) (fun _ s1 hw => ?_) fun x s1 hx => ?_
      · have hp := hw.1.passed' h
        rw [wp_bind]
        refine wp_mono (wp_doSeek _ _) (fun _ s2 hs => ?_) fun x s2 hx =>
          ⟨hx.1, hp.trans (.of_same hp.within hx.2)⟩
        have h2 : Within .output s2.state.ch := hs ▸ hp.within
        have hptr : s2.state.ch.ptr = 0 := (congrArg RealChannel.ptr hs).trans hw.2
        have hstate : s2.state.ch.state = s.state.ch.state :=
          (congrArg RealChannel.state hs).trans hp.state
        have htyp2 : s2.state.ch.typ = .normal :=
          (congrArg RealChannel.typ hs).trans (hp.typ.trans htyp)
        refine ⟨⟨h2.mode, h2.size, h2.nonneg, h2.le, h2.max, h2.full, h2.bound, by simp [htyp2],
          by simp [htyp2]⟩, ?_, hstate⟩
        simp [position, h2.mode, hptr]
      · obtain ⟨data, hinitial, hw⟩ := hx.part
        obtain rfl := List.prefix_nil.mp hinitial
        exact ⟨hx.ended, hw.passed' h⟩
    | input =>
      -- within the buffer only `ptr` moves; else the buffer is emptied and the file seeks
      simp only [wp_ite, wp_setPtr]
      refine ⟨fun hin => ?_, fun _ => ?_⟩
      · obtain ⟨hfrom, hto⟩ := distance_le (show 0 ≤ s.state.ch.max - s.state.ch.ptr by omega)
          (by omega) hin.1 hin.2
        refine ⟨⟨h.mode, h.size, by simp only [withCh_ch]; omega,
          by simp only [withCh_ch]; omega, h.max, by simp, h.bound, by simp [htyp],
          by simp⟩, ?_, rfl⟩
        simp only [position, withCh_ch, h.mode]
        rw [show s.state.ch.max - (s.state.ch.max - (s.state.ch.offset - pos).toInt) =
          (s.state.ch.offset - pos).toInt by omega, Int64.ofInt_toInt]
        grind
      · rw [wp_bind]
        refine wp_mono (wp_doSeek _ _) (fun _ s2 hs => ?_) fun x s2 hx =>
          ⟨hx.1, .of_same h hx.2⟩
        have h2 : Within .input s2.state.ch := hs ▸ h
        have hstate : s2.state.ch.state = s.state.ch.state := congrArg RealChannel.state hs
        have htyp2 : s2.state.ch.typ = .normal := (congrArg RealChannel.typ hs).trans htyp
        have hlength : 0 ≤ s2.state.ch.length := by have := h2.size; omega
        refine ⟨⟨h2.mode, h2.size, Int.le_refl 0, Int.le_refl 0, hlength, by simp, h2.bound,
          by simp [htyp2], by simp⟩, ?_, hstate⟩
        simp [position, h2.mode]

/-! ## Channels before the first operation -/

inductive ChannelResult
  | input (r : InputResult)
  | output (r : Option ℤ)
  | length (n : Int64)
  | unit
  deriving DecidableEq

/-- A channel of `make` with the bytes its refill function will give, or a channel of
`of_bytes`. -/
inductive Made : Mode → RealChannel → List UInt8 → Prop
  | make (defaultBufferSize : { n : ℤ // checkBufferSize "set_default_buffer_size" n = .ok () })
      (m : Mode) (buffer : Option (List UInt8)) (ch : RealChannel) (source : List UInt8)
      (h : make defaultBufferSize m buffer = .ok ch) : Made m ch source
  | ofBytes (m : Mode) (bytes : List UInt8) (h : bytes.length ≤ maxInt) :
      Made m (ofBytes m bytes) []

theorem Made.within {ch : RealChannel} {source : List UInt8} (h : Made m ch source) :
    Within m ch ∧ position ch = 0 ∧ ch.state = .idle := by
  cases h with
  | make _ _ _ _ _ hmake =>
    obtain ⟨bytes, rfl, -, hmax⟩ := makeWith_of_make hmake
    have hbound : (bytes.length : ℤ) ≤ maxInt := by
      simp only [maxStringLength, maxInt] at hmax ⊢
      omega
    cases m with
    | input =>
      exact ⟨⟨rfl, rfl, Int.le_refl 0, Int.le_refl 0, Int.natCast_nonneg _, by simp, hbound,
        by simp [makeWith], by simp⟩, by simp [position, makeWith], rfl⟩
    | output =>
      exact ⟨⟨rfl, rfl, Int.le_refl 0, Int.natCast_nonneg _, Int.le_refl _,
        fun _ => rfl, hbound,
        by simp, by simp [makeWith]⟩, rfl, rfl⟩
  | ofBytes _ bytes hbound =>
    refine ⟨⟨rfl, rfl, Int.le_refl 0, Int.natCast_nonneg _, Int.le_refl _, fun _ => rfl, hbound,
      ?_, ?_⟩, ?_, rfl⟩
    · rintro - rfl
      rfl
    · rintro - rfl
      rfl
    · cases m with
      | input => simp [position, Data.ofBytes]
      | output => rfl

end Lwt.Io.Data
