import Lwt.Io.Rules

/-!
# Nothing is lost on an input channel

The unread data of an input channel is what is in the buffer, followed by what the refill function
has not given yet.  Each primitive takes a segment from its front (`Consumed`), also when it fails
or waits (`Stopped`).  A refill takes nothing: it moves the data in the buffer to the front and
appends what it gets.
-/

namespace Lwt.Io.Data

open Dialogue Window

variable {α β : Type} {s s' s'' : Moment} {seg more : List UInt8}

/-- An input channel between two accesses. -/
structure Input (ch : RealChannel) : Prop where
  mode : ch.mode = .input
  size : ch.length = ch.buffer.length
  nonneg : 0 ≤ ch.ptr
  le : ch.ptr ≤ ch.max
  max : ch.max ≤ ch.length

/-- What is still to be read. -/
def World.unread (w : World) :
    List UInt8 := slice w.ch.buffer w.ch.ptr (w.ch.max - w.ch.ptr) ++ w.source

/-- The position of the end of the data. -/
def World.horizon (w : World) : Int64 := w.ch.offset + Int64.ofInt w.source.length

/-- From `s` to `s'`, `seg` has been read. -/
structure Consumed (seg : List UInt8) (s s' : Moment) : Prop extends Frame s s' where
  input : Input s'.state.ch
  unread : s.state.unread = seg ++ s'.state.unread
  horizon : s'.state.horizon = s.state.horizon

/-- From `s` to `s'`, something has been read by an operation without a result. -/
structure Stopped (inside : Prop) (x : Abnormal Exn Fault) (s s' : Moment) : Prop where
  ended : Ended inside x s'
  part : ∃ seg, Consumed seg s s'

namespace Input

variable {ch : RealChannel}

theorem inside (h : Input ch) : Inside ch.buffer ch.ptr (ch.max - ch.ptr) := by
  have hsize := h.size
  have hmax := h.max
  have hle := h.le
  exact ⟨h.nonneg, by omega, by omega⟩

theorem inside_of_le (h : Input ch) {len : ℤ} (hlen : 0 ≤ len) (hle : len ≤ ch.max - ch.ptr) :
    Inside ch.buffer ch.ptr len := by
  have hsize := h.size
  have hmax := h.max
  exact ⟨h.nonneg, hlen, by omega⟩

end Input

theorem Consumed.refl (h : Input s.state.ch) : Consumed [] s s :=
  ⟨.refl s, h, rfl, rfl⟩

theorem Consumed.trans (h : Consumed seg s s') (h' : Consumed more s' s'') :
    Consumed (seg ++ more) s s'' where
  input := h'.input
  unread := by rw [h.unread, h'.unread, List.append_assoc]
  horizon := h'.horizon.trans h.horizon
  toFrame := h.toFrame.trans h'.toFrame

theorem Consumed.of_state (h : Consumed seg s s') (hstate : s''.state = s'.state)
    (hsuffix : s''.answers <:+ s'.answers) : Consumed seg s s'' :=
  ⟨h.toFrame.of_state hstate hsuffix, hstate ▸ h.input,
  hstate ▸ h.unread, by rw [hstate, h.horizon]⟩

theorem Stopped.after {inside : Prop} {x : Abnormal Exn Fault} (h : Consumed seg s s')
    (h' : Stopped inside x s' s'') : Stopped inside x s s'' := by
  obtain ⟨part, hpart⟩ := h'.part
  exact ⟨h'.ended, _, h.trans hpart⟩

theorem Stopped.imp {inside inside' : Prop} {x : Abnormal Exn Fault} (h : Stopped inside x s s')
    (himp : inside' → inside) : Stopped inside' x s s' :=
  ⟨h.ended.imp himp, h.part⟩

theorem Stopped.raised {inside : Prop} {e : Exn} (h : Consumed seg s s') :
    Stopped inside (.raised e) s s' :=
  ⟨.raised, _, h⟩

/-- The next bytes of the buffer are passed. -/
theorem Consumed.pass (h : Input s.state.ch) {len ptr : ℤ} (hlen : 0 ≤ len)
    (hle : len ≤ s.state.ch.max - s.state.ch.ptr) (hptr : ptr = s.state.ch.ptr + len) :
    Consumed (slice s.state.ch.buffer s.state.ch.ptr len) s
      (withCh s { s.state.ch with ptr := ptr }) := by
  have hnonneg := h.nonneg
  refine ⟨.withCh rfl rfl rfl rfl, ⟨h.mode, h.size, ?_, ?_, h.max⟩, ?_, rfl⟩
  · simp only [withCh_ch]
    omega
  · simp only [withCh_ch]
    omega
  · have happend := slice_append (l := s.state.ch.buffer) hnonneg hlen
      (show 0 ≤ s.state.ch.max - (s.state.ch.ptr + len) by omega)
    rw [show len + (s.state.ch.max - (s.state.ch.ptr + len)) =
      s.state.ch.max - s.state.ch.ptr by omega] at happend
    simp only [World.unread, withCh_ch, withCh_source, hptr, happend, List.append_assoc]

/-! ## Refilling -/

/-- The call of the refill function has given `n` bytes. -/
structure Refilled (n : ℤ) (s s' : Moment) : Prop where
  consumed : Consumed [] s s'
  nonneg : 0 ≤ n
  avail : s'.state.ch.max - s'.state.ch.ptr = s.state.ch.max - s.state.ch.ptr + n
  front : n ≠ 0 → s'.state.ch.ptr = 0
  fewer : n ≠ 0 → s'.answers.length < s.answers.length
  length : s'.state.ch.length = s.state.ch.length

/-- The unread data of the buffer has been moved to its front. -/
structure Moved (s s' : Moment) : Prop where
  consumed : Consumed [] s s'
  ptr : s'.state.ch.ptr = 0
  max : s'.state.ch.max = s.state.ch.max - s.state.ch.ptr
  length : s'.state.ch.length = s.state.ch.length
  answers : s'.answers = s.answers

theorem wp_keepUnread (h : Input s.state.ch) {A : Abnormal Exn Fault → Moment → Prop} :
    wp (keepUnread s.state.ch.ptr (s.state.ch.max - s.state.ch.ptr)) (fun _ s' => Moved s s') A
      s := by
  have hin := h.inside
  have hle := h.le
  have hmax := h.max
  have hnonneg := h.nonneg
  simp only [keepUnread, wp_bind, wp_ite, wp_update]
  refine ⟨fun hpos => ?_, fun hzero => ?_⟩
  · have hdst : Inside s.state.ch.buffer 0 (s.state.ch.max - s.state.ch.ptr) :=
      ⟨Int.le_refl 0, by omega, by have := hin.2.2; omega⟩
    have hlength := length_slice hin
    have hdst' : Inside s.state.ch.buffer 0
        (slice s.state.ch.buffer s.state.ch.ptr (s.state.ch.max - s.state.ch.ptr)).length := by
      rwa [hlength]
    refine (wp_unsafeBlitWithin hin hdst).mpr ?_
    simp only [wp_update, withCh_ch, withCh_withCh]
    refine ⟨⟨.withCh rfl rfl rfl rfl, ⟨h.mode, ?_, Int.le_refl 0, by simp only [withCh_ch]; omega,
      by simp only [withCh_ch]; omega⟩, ?_, rfl⟩, rfl, rfl, rfl, rfl⟩
    · exact h.size.trans (congrArg _ (length_splice hdst').symm)
    · simp only [World.unread, withCh_ch, withCh_source, Int.sub_zero, List.nil_append]
      rw [slice_splice hdst' hlength.symm]
  · have hempty : s.state.ch.max - s.state.ch.ptr = 0 := by omega
    refine ⟨⟨.withCh rfl rfl rfl rfl, ⟨h.mode, h.size, Int.le_refl 0,
      by simp only [withCh_ch]; omega, by simp only [withCh_ch]; omega⟩, ?_, rfl⟩, rfl, rfl, rfl,
      rfl⟩
    simp [World.unread, hempty]

/-- The bytes that have been transferred become unread data of the buffer. -/
theorem wp_extend {data : List UInt8} {answers : List Answer} (h : Input s.state.ch)
    (htyp : s.state.ch.typ = .normal) (hptr : s.state.ch.ptr = 0)
    (hle : data.length ≤ s.state.ch.length - s.state.ch.max)
    (hdata : data <+: s.state.source) (hanswered : answers <:+ s.answers) {Q : ℤ → Moment → Prop}
    {A : Abnormal Exn Fault → Moment → Prop}
    (hQ : ∀ s' : Moment, Consumed [] s s' → s'.state.ch.ptr = 0 →
      s'.state.ch.max = s.state.ch.max + data.length → s'.state.ch.length = s.state.ch.length →
      s'.answers = answers → Q data.length s') :
    wp (updatePositions (s.state.ch.length - s.state.ch.max) data.length) Q A
      ⟨{ s.state with
        ch := { s.state.ch with buffer := splice s.state.ch.buffer s.state.ch.max data }
        source := s.state.source.drop data.length }, answers⟩ := by
  have hmode := h.mode
  have hmax := h.max
  have hsize := h.size
  have hnonneg := h.le
  rw [hptr] at hnonneg
  have hin : Inside s.state.ch.buffer s.state.ch.max data.length := ⟨hnonneg, by omega, by omega⟩
  have hright : ¬ ((data.length : ℤ) < 0 ∨
      (data.length : ℤ) > s.state.ch.length - s.state.ch.max) := by omega
  simp only [updatePositions, wp_bind, wp_get, wp_ite, hright, not_false_eq_true,
    false_implies, true_implies, true_and, wp_update, hmode, wp_pure]
  obtain ⟨rest, hrest⟩ := hdata
  have hdrop : s.state.source.drop data.length = rest := by
    rw [← hrest, List.drop_left]
  refine hQ _ ⟨⟨rfl, rfl, rfl, id, by simp [htyp], hanswered⟩, ⟨rfl, ?_, ?_, ?_, ?_⟩,
    ?_, ?_⟩ hptr rfl
    rfl rfl
  · exact hsize.trans (congrArg _ (length_splice hin).symm)
  · simp only [withCh_ch]
    omega
  · simp only [withCh_ch]
    omega
  · simp only [withCh_ch]
    omega
  · have happend := slice_splice_append hin (Int.le_refl 0) hnonneg
    simp only [World.unread, withCh_ch, withCh_source, hptr, Int.sub_zero, List.nil_append, hdrop]
      at happend ⊢
    rw [happend, List.append_assoc, hrest]
  · simp only [World.horizon, withCh_ch, withCh_source, hdrop]
    rw [← hrest, List.length_append, Int.natCast_add]
    grind [Int64.ofInt_add]

theorem wp_performIo_input (h : Input s.state.ch) (hbusy : s.state.ch.state = .busyPrimitive) :
    wp performIo (fun n s' => Refilled n s s') (fun x s' => Ended True x s' ∧ Consumed [] s s')
      s := by
  simp only [performIo, wp_bind, wp_get, hbusy, h.mode]
  cases htyp : s.state.ch.typ with
  | bytes => exact ⟨.refl h, Int.le_refl 0, by simp, by simp, by simp, rfl⟩
  | normal =>
    simp only [wp_bind]
    refine wp_mono (wp_keepUnread h) (fun _ s1 hmoved => ?_) fun _ _ hx => hx
    have h1 := hmoved.consumed.input
    have hptr := hmoved.ptr
    have hmax := hmoved.max
    have hin : Inside s1.state.ch.buffer s1.state.ch.max
        (s1.state.ch.length - s1.state.ch.max) := by
      have hnonneg := h1.le
      have hle := h1.max
      have hsize := h1.size
      exact ⟨by omega, by omega, by omega⟩
    rw [← hmax, ← hmoved.length, wp_bind]
    refine wp_mono (wp_performOnSystem hin) (fun n s2 hn => ?_) fun x s2 hx =>
      ⟨hx.ended, hmoved.consumed.of_state hx.state hx.suffix⟩
    obtain ⟨hwrong, hstate⟩ | ⟨data, rfl, hle, hoffers, hstate⟩ := hn.result
    · simp only [updatePositions, wp_bind, wp_get, wp_ite, hwrong, wp_raise, forall_const,
        not_true_eq_false, false_implies, and_true]
      exact ⟨.raised, hmoved.consumed.of_state hstate hn.answered.suffix⟩
    · have hdata : data <+: s1.state.source := by
        simpa only [Offers, h1.mode] using hoffers
      rw [World.transfer_input h1.mode] at hstate
      obtain ⟨w, answers⟩ := s2
      obtain rfl : w = _ := hstate
      refine wp_extend h1 (hmoved.consumed.typ.trans htyp) hptr hle hdata hn.answered.suffix ?_
      intro s3 hconsumed hptr3 hmax3 hlength hanswers
      refine ⟨hmoved.consumed.trans hconsumed, by omega, by omega, fun _ => hptr3, fun _ => ?_,
        hlength.trans hmoved.length⟩
      rw [hanswers, ← hmoved.answers]
      exact hn.answered.fewer

theorem wp_refill (hc : Consumed seg s s') (hbusy : s.state.ch.state = .busyPrimitive) :
    wp refill (fun n s'' => Refilled n s' s'' ∧ Consumed seg s s'')
      (fun x s'' => Ended True x s'' ∧ Consumed seg s s'') s' := by
  refine wp_mono (wp_performIo_input hc.input (hc.state.trans hbusy)) (fun n s'' h => ⟨h, ?_⟩)
    fun x s'' h => ⟨h.1, ?_⟩
  · have hc' := hc.trans h.consumed
    rwa [List.append_nil] at hc'
  · have hc' := hc.trans h.2
    rwa [List.append_nil] at hc'

/-! ## Characters and lines -/

/-- A character has been taken from the buffer, or an answer has been used. -/
def Progress (s s' : Moment) : Prop :=
  s'.state.ch.length = s.state.ch.length ∧ (s'.answers.length < s.answers.length ∨
    s'.answers = s.answers ∧ s'.state.ch.ptr = s.state.ch.ptr + 1)

theorem Consumed.passChar (h : Input s.state.ch) (hlt : s.state.ch.ptr < s.state.ch.max) :
    Consumed [s.state.ch.buffer.getD s.state.ch.ptr.toNat 0] s
      (withCh s { s.state.ch with ptr := s.state.ch.ptr + 1 }) := by
  rw [← slice_one (h.inside_of_le (by omega) (by omega)) 0]
  exact Consumed.pass h (by omega) (by omega) rfl

theorem wp_readChar (h : Input s.state.ch) (hbusy : s.state.ch.state = .busyPrimitive) :
    wp Primitives.readChar (fun c s' => Consumed [c] s s' ∧ Progress s s')
      (fun x s' => Ended True x s' ∧ Consumed [] s s') s := by
  refine wp_loopAsking (fun _ s' => Consumed [] s s' ∧ s'.state.ch.length = s.state.ch.length ∧
    (s' = s ∨ s'.answers.length < s.answers.length)) ?_ ⟨.refl h, rfl, Or.inl rfl⟩
  rintro _ s' ⟨hc, hlength, hsame⟩
  have hle := hc.input.le
  simp only [wp_bind, wp_get, wp_ite, wp_setPtr]
  refine ⟨fun hempty => wp_mono (wp_refill hc hbusy) ?_ fun _ _ hx => hx, fun hne => ?_⟩
  · rintro n s'' ⟨hr, hc'⟩
    simp only [wp_ite, wp_raise, wp_pure]
    refine ⟨fun _ => ⟨.raised, hc'⟩, fun hn => ⟨fun _ _ => ⟨⟨hc', hr.length.trans hlength, ?_⟩,
      hr.fewer hn⟩, by simp⟩⟩
    have hfewer := hr.fewer hn
    have hsuffix := hc.suffix.length_le
    exact Or.inr (by omega)
  · have hlt : s'.state.ch.ptr < s'.state.ch.max := by omega
    refine (wp_unsafeGet (by exact hc.input.inside_of_le (by omega) (by omega))).mpr ?_
    simp only [wp_pure]
    refine ⟨by simp, fun c hchar => ?_⟩
    cases hchar
    refine ⟨hc.trans (Consumed.passChar hc.input hlt), hlength, ?_⟩
    rcases hsame with rfl | hfewer
    · exact Or.inr ⟨rfl, rfl⟩
    · exact Or.inl hfewer

/-- A bound on the number of turns of the loop of `read_line`. -/
theorem Progress.measure (h : Input s.state.ch) (h' : Input s'.state.ch) (hp : Progress s s') :
    s'.answers.length * (s'.state.ch.buffer.length + 1) +
        (s'.state.ch.buffer.length - s'.state.ch.ptr).toNat <
      s.answers.length * (s.state.ch.buffer.length + 1) +
        (s.state.ch.buffer.length - s.state.ch.ptr).toNat := by
  obtain ⟨hlength, hprogress⟩ := hp
  have hsize := h.size
  have hsize' := h'.size
  have hle := h'.le
  have hmax := h'.max
  have hnonneg := h'.nonneg
  have hsame : s'.state.ch.buffer.length = s.state.ch.buffer.length := by omega
  rw [hsame]
  rcases hprogress with hfewer | ⟨hanswers, hptr⟩
  · have hmul : (s'.answers.length + 1) * (s.state.ch.buffer.length + 1) ≤
        s.answers.length * (s.state.ch.buffer.length + 1) := Nat.mul_le_mul_right _ hfewer
    rw [Nat.add_mul] at hmul
    omega
  · rw [hanswers]
    omega

/-- The line that is read with a segment: without the end of line, when there is one. -/
def Line (seg line : List UInt8) : Prop :=
  10 ∉ line ∧ (seg = line ∨ seg = line ++ [13, 10] ∨ seg = line ++ [10] ∧ line.getLast? ≠ some 13)

/-- What has been read of a line that goes on. -/
structure PartOfLine (crRead : Bool) (buf seg : List UInt8) : Prop where
  seg : seg = Primitives.addCr crRead buf
  noEnd : 10 ∉ buf
  last : crRead = false → buf.getLast? ≠ some 13

theorem PartOfLine.noEnd_addCr {crRead : Bool} {buf : List UInt8} (h : PartOfLine crRead buf seg) :
    10 ∉ Primitives.addCr crRead buf := by
  have hno := h.noEnd
  cases crRead <;> simp [Primitives.addCr, hno]

theorem PartOfLine.atEnd {crRead : Bool} {buf : List UInt8} (h : PartOfLine crRead buf seg) :
    Line (seg ++ [10]) buf := by
  refine ⟨h.noEnd, Or.inr ?_⟩
  rw [h.seg]
  cases hcr : crRead with
  | true => exact Or.inl (by simp [Primitives.addCr])
  | false => exact Or.inr ⟨by simp [Primitives.addCr], h.last hcr⟩

theorem PartOfLine.cr {crRead : Bool} {buf : List UInt8} (h : PartOfLine crRead buf seg) :
    PartOfLine true (Primitives.addCr crRead buf) (seg ++ [13]) :=
  ⟨by simp [h.seg, Primitives.addCr], h.noEnd_addCr, by simp⟩

theorem PartOfLine.char {crRead : Bool} {buf : List UInt8} {c : UInt8}
    (h : PartOfLine crRead buf seg) (hend : c ≠ 10) (hcr : c ≠ 13) :
    PartOfLine false (Primitives.addCr crRead buf ++ [c]) (seg ++ [c]) := by
  refine ⟨by simp [h.seg, Primitives.addCr], ?_, by simp [hcr]⟩
  have hno := h.noEnd_addCr
  simp only [List.mem_append, List.mem_singleton, not_or]
  exact ⟨hno, Ne.symm hend⟩

/-- An exception in the middle of a line is not `End_of_file`. -/
theorem wp_readLineLoop (hbusy : s.state.ch.state = .busyPrimitive) {crRead : Bool}
    {buf : List UInt8} (hc : Consumed seg s s') (hpart : PartOfLine crRead buf seg) :
    wp (Primitives.readLineLoop crRead buf)
      (fun line s'' => ∃ seg, Line seg line ∧ Consumed seg s s'')
      (fun x s'' => Stopped True x s s'' ∧ x ≠ .raised .endOfFile) s' := by
  refine wp_loop (fun r s'' => ∃ seg, Consumed seg s s'' ∧ PartOfLine r.1 r.2 seg) ?_
    ⟨seg, hc, hpart⟩
  rintro ⟨cr, b⟩ s1 ⟨seg, hc, hpart⟩
  simp only [Primitives.readLineTurn, wp_tryBind]
  refine wp_mono (wp_readChar hc.input (hc.state.trans hbusy)) ?_ ?_
  · rintro c s2 ⟨hchar, hprogress⟩
    have hc2 := hc.trans hchar
    have hless := hprogress.measure hc.input hchar.input
    simp only [wp_ite, wp_pure]
    refine ⟨fun hend => ⟨by simp, fun line hline => ?_⟩, fun hend => ⟨fun hcr => ?_, fun hcr => ?_⟩⟩
    · cases hline
      exact ⟨_, hend ▸ hpart.atEnd, hc2⟩
    · refine ⟨fun r hr => ?_, by simp⟩
      cases hr
      exact ⟨⟨_, hc2, hcr ▸ hpart.cr⟩, hless⟩
    · refine ⟨fun r hr => ?_, by simp⟩
      cases hr
      exact ⟨⟨_, hc2, hpart.char hend hcr⟩, hless⟩
  · rintro x s2 ⟨hended, hnothing⟩
    have hc2 := hc.trans hnothing
    rw [List.append_nil] at hc2
    refine ⟨?_, fun hno => ⟨⟨hended, _, hc2⟩, fun hx => hno _ hx⟩⟩
    rintro e rfl
    cases e
    case endOfFile =>
      refine ⟨by simp, fun line hline => ?_⟩
      cases hline
      exact ⟨_, ⟨hpart.noEnd_addCr, Or.inl hpart.seg⟩, hc2⟩
    all_goals exact ⟨⟨hended, _, hc2⟩, by simp⟩

theorem wp_readLine (h : Input s.state.ch) (hbusy : s.state.ch.state = .busyPrimitive) :
    wp Primitives.readLine (fun line s' => ∃ seg, Line seg line ∧ Consumed seg s s')
      (fun x s' => Stopped True x s s' ∧ (x = .raised .endOfFile → Consumed [] s s')) s := by
  simp only [Primitives.readLine, wp_bind]
  refine wp_mono (wp_readChar h hbusy) ?_ fun x s' hx => ⟨⟨hx.1, _, hx.2⟩, fun _ => hx.2⟩
  rintro c s' ⟨hc, -⟩
  have hempty : PartOfLine false [] [] := ⟨rfl, by simp, by simp⟩
  have hloop : ∀ {crRead : Bool} {buf : List UInt8}, PartOfLine crRead buf [c] →
      wp (Primitives.readLineLoop crRead buf)
        (fun line s' => ∃ seg, Line seg line ∧ Consumed seg s s')
        (fun x s' => Stopped True x s s' ∧ (x = .raised .endOfFile → Consumed [] s s')) s' :=
    fun hpart => wp_mono (wp_readLineLoop hbusy hc hpart) (fun _ _ h => h) fun _ _ hx =>
      ⟨hx.1, fun he => absurd he hx.2⟩
  simp only [wp_ite, wp_pure]
  refine ⟨fun hcr => hloop ?_, fun hcr => ⟨fun hend => ⟨[c], ?_, hc⟩, fun hend => hloop ?_⟩⟩
  · exact hcr ▸ hempty.cr
  · exact hend ▸ hempty.atEnd
  · exact hempty.char hend hcr

theorem wp_orEndOfFile {f : Prim α} {Q : Option α → Moment → Prop}
    {A : Abnormal Exn Fault → Moment → Prop}
    (hf : wp f (fun a s' => Q (some a) s') (fun x s' => (x = .raised .endOfFile → Q none s') ∧
      (x ≠ .raised .endOfFile → A x s')) s) : wp (Primitives.orEndOfFile f) Q A s := by
  simp only [Primitives.orEndOfFile, catch', wp_tryBind, wp_bind]
  refine wp_mono hf (fun _ _ h => h) fun x s' hx => ⟨?_, fun hno => hx.2 (hno _)⟩
  rintro e rfl
  cases e
  case endOfFile => exact hx.1 rfl
  all_goals exact hx.2 (by simp)

/-! ## Ranges -/

theorem Refilled.pass {n len : ℤ} (h : Refilled n s s')
    (hempty : s.state.ch.max - s.state.ch.ptr = 0) (hlen : 0 ≤ len) (hle : len ≤ n) :
    Inside s'.state.ch.buffer 0 len ∧ Consumed (slice s'.state.ch.buffer 0 len) s'
      (withCh s' { s'.state.ch with
        ptr := len
        max := n }) := by
  have havail := h.avail
  have hin := h.consumed.input
  by_cases hn : n = 0
  · obtain rfl : len = 0 := by omega
    have hunread : slice s'.state.ch.buffer s'.state.ch.ptr
        (s'.state.ch.max - s'.state.ch.ptr) = [] := by
      rw [show s'.state.ch.max - s'.state.ch.ptr = 0 by omega, slice_zero_length]
    have hmax := hin.max
    have hnonneg := hin.nonneg
    have hle' := hin.le
    refine ⟨⟨Int.le_refl 0, Int.le_refl 0, by omega⟩, .withCh rfl rfl rfl rfl,
      ⟨hin.mode, hin.size, Int.le_refl 0, hle, ?_⟩, ?_, rfl⟩
    · simp only [withCh_ch]
      omega
    · simp [World.unread, hunread, hn]
  · have hfront := h.front hn
    have hmax : s'.state.ch.max = n := by omega
    have hpass := Consumed.pass hin hlen (by omega) (show len = s'.state.ch.ptr + len by omega)
    have hrange := hin.inside_of_le hlen (by omega)
    rw [hfront] at hpass hrange
    rw [← hmax]
    exact ⟨hrange, hpass⟩

theorem wp_unsafeReadInto' (h : Input s.state.ch) (hbusy : s.state.ch.state = .busyPrimitive)
    {buf : List UInt8} {ofs len : ℤ} (hofs : 0 ≤ ofs) (hlen : 0 ≤ len) :
    wp (Primitives.unsafeReadInto' buf ofs len)
      (fun r s' => ∃ seg : List UInt8, r.1 = seg.length ∧ r.1 ≤ len ∧ r.2 = splice buf ofs seg ∧
        Inside buf ofs seg.length ∧ Consumed seg s s')
      (fun x s' => Stopped (Inside buf ofs len) x s s') s := by
  have hle := h.le
  simp only [Primitives.unsafeReadInto', wp_bind, wp_get, wp_ite]
  refine ⟨fun havail => ?_, fun havail => ?_⟩
  · have hmin : 0 ≤ min len (s.state.ch.max - s.state.ch.ptr) := by omega
    have hrange := h.inside_of_le hmin (by omega)
    refine wp_mono (wp_unsafeBlitTo hrange) ?_ ?_
    · rintro b _ ⟨hin, rfl, rfl⟩
      have hlength := length_slice hrange
      exact ⟨_, hlength.symm, by simp only; omega, rfl, hlength.symm ▸ hin,
        Consumed.pass h hmin (by omega) rfl⟩
    · rintro x _ ⟨rfl, hended⟩
      exact ⟨hended.imp fun hin => ⟨hofs, hmin, by have := hin.2.2; omega⟩, _, .refl h⟩
  · refine wp_mono (wp_performIo_input h hbusy) ?_ fun x s' hx =>
      ⟨hx.1.imp fun _ => trivial, _, hx.2⟩
    intro n s' hr
    have hnonneg := hr.nonneg
    obtain ⟨hrange, hpass⟩ := hr.pass (by omega) (show 0 ≤ min len n by omega) (by omega)
    rw [wp_bind]
    refine wp_mono (wp_unsafeBlitTo hrange) ?_ ?_
    · rintro b _ ⟨hin, rfl, rfl⟩
      have hlength := length_slice hrange
      exact ⟨_, hlength.symm, by simp only; omega, rfl, hlength.symm ▸ hin, hr.consumed.trans hpass⟩
    · rintro x _ ⟨rfl, hended⟩
      exact ⟨hended.imp fun hin => ⟨hofs, by omega, by have := hin.2.2; omega⟩, _, hr.consumed⟩

theorem wp_readIntoChecked (h : Input s.state.ch) (hbusy : s.state.ch.state = .busyPrimitive)
    (name : String) (buf : List UInt8) (ofs len : ℤ) :
    wp (Primitives.readIntoChecked name buf ofs len)
      (fun r s' => ∃ seg : List UInt8, r.1 = seg.length ∧ r.1 ≤ len ∧ r.2 = splice buf ofs seg ∧
        Consumed seg s s')
      (fun x s' => Stopped (ofs + len ≤ maxInt) x s s') s := by
  simp only [Primitives.readIntoChecked, wp_ite, wp_raise, wp_pure]
  refine ⟨fun _ => .raised (.refl h), fun hrange => ⟨fun hzero => ?_, fun _ => ?_⟩⟩
  · exact ⟨[], rfl, by omega, by rw [splice_nil], .refl h⟩
  · obtain ⟨hofs, hlen⟩ := not_wrongRange hrange
    refine wp_mono (wp_unsafeReadInto' h hbusy hofs hlen) ?_ fun _ _ hx =>
      hx.imp (inside_of_not_wrongRange hrange)
    rintro r s' ⟨seg, hn, hle, hbuf, -, hc⟩
    exact ⟨seg, hn, hle, hbuf, hc⟩

theorem wp_unsafeReadIntoExactly' (h : Input s.state.ch)
    (hbusy : s.state.ch.state = .busyPrimitive) {buf : List UInt8} {ofs len : ℤ} (hofs : 0 ≤ ofs)
    (hlen : 0 ≤ len) :
    wp (Primitives.unsafeReadIntoExactly' buf ofs len)
      (fun b s' => ∃ seg : List UInt8, seg.length = len ∧ b = splice buf ofs seg ∧
        Consumed seg s s')
      (fun x s' => Stopped (Inside buf ofs len) x s s') s := by
  refine wp_loop (fun r s' => 0 ≤ r.2.2 ∧ ∃ seg : List UInt8, r.2.1 = ofs + seg.length ∧
    r.2.1 + r.2.2 = ofs + len ∧ r.1 = splice buf ofs seg ∧ r.1.length = buf.length ∧
    Consumed seg s s') ?_
    ⟨hlen, [], by simp, by simp, by simp, rfl, .refl h⟩
  rintro ⟨b, o, l⟩ s1 ⟨hl, seg, ho, hsum, hb, hlength, hc⟩
  simp only at hl ho hsum hb hlength
  simp only [wp_bind]
  refine wp_mono (wp_unsafeReadInto' hc.input (hc.state.trans hbusy) (by omega) hl) ?_ ?_
  · rintro ⟨n, b'⟩ s2 ⟨more, hn, hle, hb', hin, hmore⟩
    simp only at hn hle hb'
    have hc2 := hc.trans hmore
    have hin' := hin.2.2
    have hboth : b' = splice buf ofs (seg ++ more) := by
      rw [hb', hb, splice_splice hofs (by omega) ho]
    simp only [wp_ite, wp_raise, wp_pure]
    refine ⟨fun _ => .raised hc2, fun hne => ⟨fun hdone => ⟨by simp, fun r hr => ?_⟩,
      fun hrest => ⟨fun r hr => ?_, by simp⟩⟩⟩
    · cases hr
      exact ⟨_, by rw [List.length_append]; omega, hboth, hc2⟩
    · cases hr
      refine ⟨⟨by simp only; omega, seg ++ more, ?_, by simp only; omega, hboth, ?_, hc2⟩, ?_⟩
      · simp only [List.length_append]
        omega
      · simp only [hb', length_splice hin, hlength]
      · simp only
        omega
  · intro x s2 hx
    refine (Stopped.after hc hx).imp fun hin => ?_
    have := hin.2.2
    exact ⟨by omega, hl, by omega⟩

theorem wp_readIntoExactlyChecked (h : Input s.state.ch)
    (hbusy : s.state.ch.state = .busyPrimitive) (name : String) (buf : List UInt8)
    (ofs len : ℤ) :
    wp (Primitives.readIntoExactlyChecked name buf ofs len)
      (fun b s' => ∃ seg : List UInt8, seg.length = len ∧ b = splice buf ofs seg ∧
        Consumed seg s s')
      (fun x s' => Stopped (ofs + len ≤ maxInt) x s s') s := by
  simp only [Primitives.readIntoExactlyChecked, wp_ite, wp_raise, wp_pure]
  refine ⟨fun _ => .raised (.refl h), fun hrange => ⟨fun hzero => ?_, fun _ => ?_⟩⟩
  · exact ⟨[], hzero.symm, by rw [splice_nil], .refl h⟩
  · obtain ⟨hofs, hlen⟩ := not_wrongRange hrange
    exact wp_mono (wp_unsafeReadIntoExactly' h hbusy hofs hlen) (fun _ _ h => h)
      fun _ _ hx => hx.imp (inside_of_not_wrongRange hrange)

/-! ## Everything -/

theorem wp_revBlit (l : List (List UInt8)) : ∀ (ofs : ℤ) (buf : List UInt8),
    ofs = l.flatten.length → ofs ≤ buf.length →
    wp (Primitives.revBlit ofs buf l)
      (fun r s' => s' = s ∧ r = l.reverse.flatten ++ buf.drop ofs.toNat) (fun _ _ => False) s := by
  induction l with
  | nil =>
    rintro ofs buf rfl -
    simp [Primitives.revBlit]
  | cons str l ih =>
    intro ofs buf hofs hle
    have hlength : (str :: l).flatten.length = str.length + l.flatten.length := by simp
    have hrest : ofs - str.length = l.flatten.length := by omega
    have hin : Inside buf (ofs - str.length) str.length := ⟨by omega, by omega, by omega⟩
    simp only [Primitives.revBlit, wp_ite, wp_fault]
    refine ⟨fun _ => wp_mono (ih _ _ hrest ?_) ?_ fun _ _ h => h, fun hout => hout hin⟩
    · rw [length_splice hin]
      omega
    · rintro r s' ⟨rfl, rfl⟩
      refine ⟨rfl, ?_⟩
      rw [drop_splice hin, show (ofs - str.length).toNat + str.length = ofs.toNat by omega,
        List.reverse_cons, List.flatten_append, List.flatten_singleton, List.append_assoc]

theorem wp_revConcat {len : ℤ} {l : List (List UInt8)} (hlen : len = l.flatten.length) :
    wp (Primitives.revConcat len l) (fun r s' => s' = s ∧ r = l.reverse.flatten)
      (fun x s' => s' = s ∧ ∃ e, x = .raised e) s := by
  simp only [Primitives.revConcat, bytesCreate, wp_bind, wp_ite, wp_raise, wp_pure]
  refine ⟨fun _ => ⟨trivial, _, rfl⟩, fun hsize => ?_⟩
  refine wp_mono (wp_revBlit l len _ hlen ?_) ?_ fun _ _ h => h.elim
  · rw [List.length_replicate]
    omega
  · rintro r s' ⟨rfl, rfl⟩
    simp

theorem wp_readAll (h : Input s.state.ch) (hbusy : s.state.ch.state = .busyPrimitive) :
    wp (Primitives.readAll 0 []) (fun r s' => Consumed r s s') (fun x s' => Stopped True x s s')
      s := by
  refine wp_loopAsking (fun r s' => r.1 = r.2.flatten.length ∧ Consumed r.2.reverse.flatten s s')
    ?_ ⟨rfl, .refl h⟩
  rintro ⟨total, acc⟩ s1 ⟨htotal, hc⟩
  simp only at htotal hc
  have hle := hc.input.le
  simp only [bytesCreate, wp_bind, wp_get, wp_ite, wp_raise, wp_pure]
  refine ⟨fun _ => .raised hc, fun _ => ?_⟩
  have hrange := hc.input.inside
  refine wp_mono (wp_unsafeBlitTo hrange) ?_ ?_
  · rintro str s1 ⟨hin, rfl, rfl⟩
    have hlength := length_slice hrange
    have hstr := splice_all (l := List.replicate (s1.state.ch.max - s1.state.ch.ptr).toNat 0)
      (show (slice s1.state.ch.buffer s1.state.ch.ptr
        (s1.state.ch.max - s1.state.ch.ptr)).length = _ by rw [List.length_replicate]; omega)
    have hpass := hc.trans (Consumed.pass hc.input hrange.2.1 (Int.le_refl _)
      (show s1.state.ch.max = _ by omega))
    rw [hstr, wp_bind, wp_setPtr, wp_bind]
    refine wp_mono (wp_refill hpass hbusy) ?_ fun x s2 hx => ⟨hx.1, _, hx.2⟩
    rintro n s2 ⟨hr, hc2⟩
    simp only [wp_ite, wp_bind, wp_pure]
    refine ⟨fun hn => ?_, fun hn => ⟨fun r hnext => ?_, by simp⟩⟩
    · refine wp_mono (wp_revConcat ?_) ?_ ?_
      · rw [List.flatten_cons, List.length_append]
        omega
      · rintro r s3 ⟨rfl, rfl⟩
        refine ⟨by simp, fun a ha => ?_⟩
        cases ha
        rwa [List.reverse_cons, List.flatten_append, List.flatten_singleton]
      · rintro x s3 ⟨rfl, e, rfl⟩
        exact .raised hc2
    · cases hnext
      refine ⟨⟨?_, ?_⟩, hr.fewer hn⟩
      · simp only [List.flatten_cons, List.length_append]
        omega
      · rwa [List.reverse_cons, List.flatten_append, List.flatten_singleton]
  · rintro x _ ⟨rfl, hended⟩
    refine ⟨hended.imp fun _ => ?_, _, hc⟩
    exact ⟨Int.le_refl 0, by omega, by rw [List.length_replicate]; omega⟩

theorem wp_read (h : Input s.state.ch) (hbusy : s.state.ch.state = .busyPrimitive)
    (count : Option ℤ) :
    wp (Primitives.read count)
      (fun r s' => (∀ len, count = some len → r.length ≤ len) ∧ Consumed r s s')
      (fun x s' => Stopped True x s s') s := by
  cases count with
  | none =>
    exact wp_mono (wp_readAll h hbusy) (fun _ _ hc => ⟨by simp, hc⟩) fun _ _ hx => hx
  | some len =>
    simp only [Primitives.read, bytesCreate, wp_bind, wp_ite, wp_raise, wp_pure]
    refine ⟨fun _ => .raised (.refl h), fun hsize => ?_⟩
    have hlength : ((List.replicate len.toNat (0 : UInt8)).length : ℤ) = len := by
      rw [List.length_replicate]
      omega
    refine wp_mono (wp_unsafeReadInto' h hbusy (Int.le_refl 0) (by omega)) ?_ fun _ _ hx =>
      hx.imp fun _ => ⟨Int.le_refl 0, by omega, by omega⟩
    rintro ⟨n, b⟩ s' ⟨seg, hn, hle, hb, hin, hc⟩
    simp only at hn hle hb
    have hbound : ∀ k, some len = some k → (seg.length : ℤ) ≤ k := by
      rintro k hk
      cases hk
      omega
    simp only [wp_ite, wp_pure]
    refine ⟨fun _ => ?_, fun hfull => ?_⟩
    · rw [hb, slice_splice hin hn]
      exact ⟨hbound, hc⟩
    · rw [hb, splice_all (by omega)]
      exact ⟨hbound, hc⟩

/-! ## Blocks -/

theorem wp_readBlockUnsafe {Q : α → Moment → Prop} {A : Abnormal Exn Fault → Moment → Prop}
    (h : Input s.state.ch) (hbusy : s.state.ch.state = .busyPrimitive) {size : ℤ} {f : ℤ → Prim α}
    (hf : ∀ s' : Moment, Consumed [] s s' → size ≤ s'.state.ch.max - s'.state.ch.ptr →
      wp (f s'.state.ch.ptr) Q A
        (withCh s' { s'.state.ch with ptr := s'.state.ch.ptr + size }))
    (hfail : ∀ x s', Ended True x s' → Consumed [] s s' → A x s') :
    wp (Primitives.readBlockUnsafe size f) Q A s := by
  simp only [Primitives.readBlockUnsafe, wp_bind]
  refine wp_loopAsking (fun _ s' => Consumed [] s s') (fun _ s' hc => ?_) (.refl h)
  simp only [wp_bind, wp_get, wp_ite, wp_pure, wp_setPtr]
  refine ⟨fun _ => wp_mono (wp_refill hc hbusy) ?_ fun x s'' hx => hfail x s'' hx.1 hx.2,
    fun hfits => ?_⟩
  · rintro n s'' ⟨hr, hc'⟩
    simp only [wp_ite, wp_raise, wp_pure]
    exact ⟨fun _ => hfail _ _ .raised hc', fun hn => ⟨fun _ _ => ⟨hc', hr.fewer hn⟩, by simp⟩⟩
  · refine ⟨by simp, fun ptr hptr => ?_⟩
    cases hptr
    exact hf s' hc (by omega)

theorem wp_readBytes (h : Input s.state.ch) (hbusy : s.state.ch.state = .busyPrimitive) {size : ℤ}
    (hsize : 0 ≤ size) :
    wp (Primitives.readBlockUnsafe size fun ptr => getBytes ptr size)
      (fun r s' => r.length = size ∧ Consumed r s s')
      (fun x s' => Stopped True x s s') s := by
  refine wp_readBlockUnsafe h hbusy (fun s' hc hfits => ?_) fun x s' hx hc => ⟨hx, _, hc⟩
  have hin := hc.input.inside_of_le hsize hfits
  refine (wp_getBytes (by exact hin)).mpr ⟨length_slice hin, ?_⟩
  exact hc.trans (Consumed.pass hc.input hsize hfits rfl)

theorem wp_block (h : Input s.state.ch) (hbusy : s.state.ch.state = .busyPrimitive) (size : ℤ) :
    wp (Primitives.block size fun ptr => getBytes ptr size)
      (fun r s' => r.length = size ∧ Consumed r s s')
      (fun x s' => Stopped True x s s') s := by
  simp only [Primitives.block, wp_bind, wp_get, wp_ite, wp_raise, wp_setPtr]
  refine ⟨fun _ => .raised (.refl h), fun hsize => ⟨fun hfits => ?_, fun _ => ?_⟩⟩
  · have hin := h.inside_of_le (show 0 ≤ size by omega) hfits
    refine (wp_getBytes (by exact hin)).mpr ⟨length_slice hin, ?_⟩
    exact Consumed.pass h (by omega) hfits rfl
  · rw [h.mode]
    exact wp_readBytes h hbusy (by omega)

theorem wp_resizeChannel_input (h : Input s.state.ch) (htyp : s.state.ch.typ = .normal) (len : ℤ) :
    wp (resizeChannel len) (fun _ s' => Consumed [] s s') (fun x s' => Stopped True x s s') s := by
  have hrange := h.inside
  have hmemory := s.state.platform.memory_le
  simp only [resizeChannel, lwtBytesCreate, wp_bind, wp_get, h.mode, wp_ite, wp_raise, wp_pure,
    wp_fault, wp_update]
  refine ⟨fun _ => .raised (.refl h), fun hfits => ⟨fun _ => .raised (.refl h), fun hbound => ?_⟩⟩
  have hnew : Inside (List.replicate len.toNat (0 : UInt8)) 0
      (s.state.ch.max - s.state.ch.ptr) :=
    ⟨Int.le_refl 0, hrange.2.1, by rw [List.length_replicate]; omega⟩
  refine ⟨fun hout => absurd ⟨hrange, hnew⟩ hout, fun _ => ?_⟩
  have hlength := length_slice hrange
  have hnew' : Inside (List.replicate len.toNat (0 : UInt8)) 0
      (slice s.state.ch.buffer s.state.ch.ptr (s.state.ch.max - s.state.ch.ptr)).length :=
    hlength.symm ▸ hnew
  refine ⟨⟨rfl, rfl, rfl, fun _ => by simp only [withCh_ch]; omega, by simp [htyp],
    List.suffix_refl _⟩, ⟨rfl, ?_, Int.le_refl 0, hrange.2.1, ?_⟩, ?_, rfl⟩
  · simp only [withCh_ch]
    rw [length_splice hnew', List.length_replicate]
    omega
  · simp only [withCh_ch]
    omega
  · simp only [World.unread, withCh_ch, withCh_source, Int.sub_zero, List.nil_append]
    rw [slice_splice hnew' hlength.symm]

theorem wp_readValue (h : Input s.state.ch) (hbusy : s.state.ch.state = .busyPrimitive)
    (marshal : Marshal) :
    wp (Primitives.readValue marshal) (fun r s' => Consumed r s s')
      (fun x s' => Stopped True x s s') s := by
  have hlength : ∀ len : ℤ, 0 ≤ len → ((List.replicate len.toNat (0 : UInt8)).length : ℤ) = len :=
    fun len hlen => by
      rw [List.length_replicate]
      omega
  have hheader := hlength marshal.headerSize (Int.natCast_nonneg _)
  simp only [Primitives.readValue, bytesCreate, wp_bind, wp_ite, wp_raise, wp_pure]
  refine ⟨fun _ => .raised (.refl h), fun _ => ?_⟩
  refine wp_mono (wp_unsafeReadIntoExactly' h hbusy (Int.le_refl 0) (Int.natCast_nonneg _)) ?_
    fun _ _ hx => hx.imp fun _ => ⟨Int.le_refl 0, Int.natCast_nonneg _, by omega⟩
  rintro _ s1 ⟨seg, hseg, rfl, hc⟩
  rw [splice_all (by omega)]
  cases hsize : marshal.dataSize seg with
  | error e => exact .raised hc
  | ok bsize =>
    simp only [wp_bind, wp_ite, wp_raise, wp_pure]
    refine ⟨fun _ => .raised hc, fun _ => ?_⟩
    have hbuffer := hlength (marshal.headerSize + bsize) (by omega)
    have hin : Inside (List.replicate (marshal.headerSize + bsize : ℤ).toNat (0 : UInt8)) 0
        seg.length := ⟨Int.le_refl 0, by omega, by omega⟩
    have hspliced := length_splice hin
    refine wp_mono (wp_unsafeReadIntoExactly' hc.input (hc.state.trans hbusy)
      (Int.natCast_nonneg _) (Int.natCast_nonneg _)) ?_ fun _ _ hx => (Stopped.after hc hx).imp
      fun _ => ⟨Int.natCast_nonneg _, Int.natCast_nonneg _, by omega⟩
    rintro _ s2 ⟨more, hmore, rfl, hc'⟩
    rw [splice_splice (Int.le_refl 0) (by omega) (by omega),
      splice_all (by rw [List.length_append]; omega)]
    cases marshal.fromBytes (seg ++ more) with
    | error e => exact .raised (hc.trans hc')
    | ok _ => exact hc.trans hc'

end Lwt.Io.Data
