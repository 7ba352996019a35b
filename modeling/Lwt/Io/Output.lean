import Lwt.Io.Rules

/-!
# Nothing is lost on an output channel

The content of an output channel is what the flush function has accepted, followed by what is in
the buffer.  Each primitive appends to it: all of its bytes when it succeeds, a first part of them
when it fails or waits (`Wrote`, `Partly`).  The loops are proved with the content as invariant:
what is left to write is what the content still lacks.
-/

namespace Lwt.Io.Data

open Dialogue Window

variable {α β : Type} {s s' s'' : Moment} {data bytes : List UInt8}

/-- An output channel between two accesses. -/
structure Output (ch : RealChannel) : Prop where
  mode : ch.mode = .output
  size : ch.length = ch.buffer.length
  nonneg : 0 ≤ ch.ptr
  le : ch.ptr ≤ ch.length
  max : ch.max = ch.length

/-- What has been written, be it flushed or not. -/
def World.content (w : World) : List UInt8 := w.sink ++ slice w.ch.buffer 0 w.ch.ptr

/-- The position of the first byte of the content. -/
def World.origin (w : World) : Int64 := w.ch.offset - Int64.ofInt w.sink.length

/-- From `s` to `s'`, `data` has been written. -/
structure Wrote (data : List UInt8) (s s' : Moment) : Prop extends Frame s s' where
  output : Output s'.state.ch
  content : s'.state.content = s.state.content ++ data
  origin : s'.state.origin = s.state.origin

/-- From `s` to `s'`, a first part of `bytes` has been written. -/
structure Partly (inside : Prop) (bytes : List UInt8) (x : Abnormal Exn Fault) (s s' : Moment) :
    Prop where
  ended : Ended inside x s'
  part : ∃ data, data <+: bytes ∧ Wrote data s s'

namespace Output

variable {ch : RealChannel}

theorem inside (h : Output ch) : Inside ch.buffer 0 ch.ptr :=
  ⟨by omega, h.nonneg, by have := h.le; have := h.size; omega⟩

theorem inside_free (h : Output ch) (hfits : ch.ptr + data.length ≤ ch.length) :
    Inside ch.buffer ch.ptr data.length :=
  ⟨h.nonneg, by omega, by have := h.size; omega⟩

end Output

theorem Wrote.refl (h : Output s.state.ch) : Wrote [] s s :=
  ⟨.refl s, h, by simp, rfl⟩

theorem Wrote.of_state (h : Wrote data s s) (hstate : s'.state = s.state)
    (hsuffix : s'.answers <:+ s.answers) : Wrote data s s' :=
  ⟨h.toFrame.of_state hstate hsuffix, hstate ▸ h.output, hstate ▸ h.content, by rw [hstate]⟩

theorem Wrote.trans {more : List UInt8} (h : Wrote data s s') (h' : Wrote more s' s'') :
    Wrote (data ++ more) s s'' where
  output := h'.output
  content := by rw [h'.content, h.content, List.append_assoc]
  origin := h'.origin.trans h.origin
  toFrame := h.toFrame.trans h'.toFrame

theorem Partly.after {inside : Prop} {x : Abnormal Exn Fault} {more : List UInt8}
    (h : Wrote data s s') (h' : Partly inside more x s' s'') :
    Partly inside (data ++ more) x s s'' := by
  obtain ⟨part, hpart, hw⟩ := h'.part
  exact ⟨h'.ended, data ++ part, List.prefix_append_right_inj _ |>.mpr hpart,
    h.trans hw⟩

theorem Partly.mono {inside : Prop} {x : Abnormal Exn Fault} (h : Partly inside data x s s')
    (hinitial : data <+: bytes) : Partly inside bytes x s s' := by
  obtain ⟨part, hpart, hw⟩ := h.part
  exact ⟨h.ended, part, hpart.trans hinitial, hw⟩

theorem Partly.imp {inside inside' : Prop} {x : Abnormal Exn Fault}
    (h : Partly inside data x s s') (himp : inside' → inside) : Partly inside' data x s s' :=
  ⟨h.ended.imp himp, h.part⟩

theorem Wrote.append (h : Output s.state.ch) {ptr : ℤ}
    (hin : Inside s.state.ch.buffer s.state.ch.ptr data.length)
    (hptr : ptr = s.state.ch.ptr + data.length) :
    Wrote data s (withCh s { s.state.ch with
      buffer := splice s.state.ch.buffer s.state.ch.ptr data
      ptr := ptr }) := by
  have hnonneg := h.nonneg
  refine ⟨.withCh rfl rfl rfl rfl, ⟨h.mode, ?_, ?_, ?_, h.max⟩, ?_, rfl⟩
  · exact h.size.trans (congrArg _ (length_splice hin).symm)
  · simp only [withCh_ch]
    omega
  · have hle := hin.2.2
    have hsize := h.size
    simp only [withCh_ch]
    omega
  · have happend := slice_splice_append hin (Int.le_refl 0) hnonneg
    rw [Int.sub_zero] at happend
    simp only [World.content, withCh_ch, withCh_sink, hptr, happend, List.append_assoc]

/-! ## Flushing -/

theorem wp_shift {answers : List Answer} (h : Output s.state.ch)
    (htyp : s.state.ch.typ = .normal)
    (hdata : data = slice s.state.ch.buffer 0 data.length) (hle : data.length ≤ s.state.ch.ptr)
    (hanswered : Answered s ⟨{ s.state with sink := s.state.sink ++ data }, answers⟩) :
    wp (updatePositions s.state.ch.ptr data.length)
      (fun _ s' => Wrote [] s s' ∧ s'.answers.length < s.answers.length ∧
        s'.state.ch.length = s.state.ch.length)
      (fun x s' => Partly True [] x s s') ⟨{ s.state with sink := s.state.sink ++ data },
      answers⟩ := by
  have hsrc : Inside s.state.ch.buffer data.length (s.state.ch.ptr - data.length) :=
    ⟨by omega, by omega, by have := h.inside.2.2; omega⟩
  have hdst : Inside s.state.ch.buffer 0 (s.state.ch.ptr - data.length) :=
    ⟨by omega, by omega, by have := h.inside.2.2; omega⟩
  have hrest := length_slice hsrc
  have hsplit : slice s.state.ch.buffer 0 s.state.ch.ptr =
      data ++ slice s.state.ch.buffer data.length (s.state.ch.ptr - data.length) := by
    have happend := slice_append (l := s.state.ch.buffer) (Int.le_refl 0)
      (Int.natCast_nonneg data.length) hsrc.2.1
    rwa [← hdata, Int.zero_add, Int.add_comm, Int.sub_add_cancel] at happend
  have hright : ¬ ((data.length : ℤ) < 0 ∨ (data.length : ℤ) > s.state.ch.ptr) := by omega
  simp only [updatePositions, wp_bind, wp_get, wp_ite, hright, not_false_eq_true,
    false_implies, true_implies, true_and, wp_update, h.mode]
  refine (wp_unsafeBlitWithin (by exact hsrc) (by exact hdst)).mpr ?_
  simp only [wp_bind, wp_setPtr, wp_pure, withCh_ch, withCh_withCh]
  have hdst' : Inside s.state.ch.buffer 0
      (slice s.state.ch.buffer data.length (s.state.ch.ptr - data.length)).length := by
    rw [hrest]
    exact hdst
  refine ⟨⟨⟨rfl, rfl, rfl, id, by simp [htyp], hanswered.suffix⟩, ⟨rfl, ?_, ?_, ?_, h.max⟩, ?_, ?_⟩,
    hanswered.fewer, trivial⟩
  · exact h.size.trans (congrArg _ (length_splice hdst').symm)
  · exact hsrc.2.1
  · have := h.le
    simp only [withCh_ch]
    omega
  · simp only [World.content, withCh_ch, withCh_sink]
    rw [slice_splice hdst' hrest.symm, hsplit, List.append_nil, List.append_assoc]
  · simp only [World.origin, withCh_ch, withCh_sink, List.length_append, Int.natCast_add]
    grind [Int64.ofInt_add]

theorem wp_performIo_output (h : Output s.state.ch) (hbusy : s.state.ch.state = .busyPrimitive) :
    wp performIo
      (fun _ s' => Wrote [] s s' ∧ s'.answers.length < s.answers.length ∧
        s'.state.ch.length = s.state.ch.length)
      (fun x s' => Partly True [] x s s') s := by
  have hself : Wrote [] s s := .refl h
  have hin := h.inside
  simp only [performIo, wp_bind, wp_get, hbusy, h.mode]
  cases htyp : s.state.ch.typ with
  | bytes => exact ⟨.raised, [], List.nil_prefix, hself⟩
  | normal =>
    simp only [wp_bind]
    refine wp_mono (wp_performOnSystem hin) (fun n s' hn => ?_) fun x s' hx =>
      ⟨hx.ended, [], List.nil_prefix, hself.of_state hx.state hx.suffix⟩
    obtain ⟨hwrong, hstate⟩ | ⟨data, rfl, hle, hoffers, hstate⟩ := hn.result
    · simp only [updatePositions, wp_bind, wp_get, wp_ite, hwrong, wp_raise, forall_const,
        not_true_eq_false, false_implies, and_true]
      exact ⟨.raised, [], List.nil_prefix, hself.of_state hstate hn.answered.suffix⟩
    · have hdata : data = slice s.state.ch.buffer 0 data.length := by
        simpa only [Offers, h.mode] using hoffers
      rw [World.transfer_output h.mode] at hstate
      obtain ⟨w, answers⟩ := s'
      obtain rfl : w = _ := hstate
      exact wp_shift h htyp hdata hle hn.answered

theorem wp_flushPartial (hw : Wrote data s s') (hbusy : s.state.ch.state = .busyPrimitive) :
    wp flushPartial
      (fun _ s'' => Wrote data s s'' ∧ s''.answers.length < s'.answers.length ∧
        s''.state.ch.length = s'.state.ch.length)
      (fun x s'' => Partly True data x s s'') s' := by
  refine wp_mono (wp_performIo_output hw.output (hw.state.trans hbusy)) (fun _ s'' h => ?_)
    fun x s'' h => ?_
  · have hw' := hw.trans h.1
    rw [List.append_nil] at hw'
    exact ⟨hw', h.2⟩
  · have hpart := Partly.after hw h
    rwa [List.append_nil] at hpart

theorem wp_flushTotal (h : Output s.state.ch) (hbusy : s.state.ch.state = .busyPrimitive) :
    wp flushTotal (fun _ s' => Wrote [] s s' ∧ s'.state.ch.ptr = 0)
      (fun x s' => Partly True [] x s s') s := by
  refine wp_loopAsking (fun _ s' => Wrote [] s s') (fun _ s' hw => ?_) (.refl h)
  simp only [wp_bind, wp_get, wp_ite, wp_pure]
  refine ⟨fun _ => wp_mono (wp_flushPartial hw hbusy) (fun _ s'' h => ?_) fun _ _ h => h,
    fun hptr => ?_⟩
  · exact ⟨fun _ _ => ⟨h.1, h.2.1⟩, by simp⟩
  · have hnonneg := hw.output.nonneg
    exact ⟨by simp, fun _ _ => ⟨hw, by omega⟩⟩

/-! ## Writing -/

theorem wp_writeChar (h : Output s.state.ch) (hbusy : s.state.ch.state = .busyPrimitive)
    (c : UInt8) :
    wp (Primitives.writeChar c) (fun _ s' => Wrote [c] s s') (fun x s' => Partly True [c] x s s')
      s := by
  refine wp_loopAsking (fun _ s' => Wrote [] s s') (fun _ s' hw => ?_) (.refl h)
  simp only [wp_bind, wp_get, wp_ite, wp_setPtr]
  refine ⟨fun hlt => ?_, fun _ =>
    wp_mono (wp_flushPartial hw hbusy) (fun _ s'' h => ?_) fun x s'' h => ?_⟩
  · have hin : Inside s'.state.ch.buffer s'.state.ch.ptr [c].length := hw.output.inside_free hlt
    refine (wp_unsafeSet (by exact hin)).mpr ?_
    exact ⟨by simp, fun _ _ => hw.trans (Wrote.append hw.output hin rfl)⟩
  · exact ⟨fun _ _ => ⟨h.1, h.2.1⟩, by simp⟩
  · exact h.mono List.nil_prefix

/-- Copies a range of the bytes of the caller, or refuses it. -/
def Blits (blit : List UInt8 → ℤ → ℤ → ℤ → Prim Unit) : Prop :=
  ∀ (s : Moment) buf ofs dst len, Inside s.state.ch.buffer dst len →
    wp (blit buf ofs dst len)
      (fun _ s' => Inside buf ofs len ∧ s' = withCh s { s.state.ch with
        buffer := splice s.state.ch.buffer dst (slice buf ofs len) })
      (fun x s' => ¬ Inside buf ofs len ∧ s' = s ∧ Ended (Inside buf ofs len) x s) s

theorem blits_unsafeBlitFromBytes : Blits unsafeBlitFromBytes := by
  intro s buf ofs dst len hin
  simp only [unsafeBlitFromBytes, wp_bind, wp_get, wp_ite, wp_fault, wp_update]
  exact ⟨fun h => absurd hin h, fun _ =>
    ⟨fun h => ⟨h, trivial, by simp, fun hin => absurd hin h, by simp⟩,
      fun h => ⟨not_not.mp h, trivial⟩⟩⟩

theorem blits_blit : Blits blit := by
  intro s buf ofs dst len hin
  simp only [blit, wp_bind, wp_get, wp_ite, wp_raise, wp_update]
  exact ⟨fun h => ⟨h.1, trivial⟩, fun h => ⟨fun hrange => h ⟨hrange, hin⟩, trivial, .raised⟩⟩

/-- A range that is copied to the free part of the buffer; what the buffer cannot hold is not
copied. -/
theorem wp_blit_append {blit : List UInt8 → ℤ → ℤ → ℤ → Prim Unit} (hblit : Blits blit)
    {buf : List UInt8} {ofs len ptr : ℤ} (hw : Wrote data s s') (hlen : 0 ≤ len)
    (hfits : s'.state.ch.ptr + len ≤ s'.state.ch.length) (hptr : ptr = s'.state.ch.ptr + len) :
    wp (blit buf ofs s'.state.ch.ptr len)
      (fun _ s'' => Inside buf ofs len ∧ s''.answers = s'.answers ∧
        Wrote (data ++ slice buf ofs len) s (withCh s'' { s''.state.ch with ptr := ptr }))
      (fun x s'' => ¬ Inside buf ofs len ∧ s'' = s' ∧ Ended (Inside buf ofs len) x s') s' := by
  have hin : Inside s'.state.ch.buffer s'.state.ch.ptr len :=
    ⟨hw.output.nonneg, hlen, by have := hw.output.size; omega⟩
  refine wp_mono (hblit s' buf ofs _ len hin) ?_ fun _ _ h => h
  rintro _ _ ⟨hrange, rfl⟩
  have hlength := length_slice hrange
  refine ⟨hrange, rfl, hw.trans (Wrote.append hw.output ?_ ?_)⟩
  · rwa [hlength]
  · rw [hptr, hlength]

theorem wp_unsafeWriteFrom' {blit : List UInt8 → ℤ → ℤ → ℤ → Prim Unit} (hblit : Blits blit)
    (h : Output s.state.ch) (hbusy : s.state.ch.state = .busyPrimitive) {buf : List UInt8}
    {ofs len : ℤ} (hofs : 0 ≤ ofs) (hlen : 0 ≤ len) :
    wp (Primitives.unsafeWriteFrom' blit buf ofs len)
      (fun n s' => 0 ≤ n ∧ Inside buf ofs (len - n) ∧ Wrote (slice buf ofs (len - n)) s s' ∧
        (n ≠ 0 → s'.answers.length < s.answers.length))
      (fun x s' => Partly (Inside buf ofs len) (slice buf ofs len) x s s') s := by
  refine wp_loopAsking (fun r s' => ofs ≤ r.1 ∧ 0 ≤ r.2 ∧ r.1 + r.2 = ofs + len ∧
    Wrote (slice buf ofs (r.1 - ofs)) s s') ?_ ⟨Int.le_refl _, hlen, rfl, by simpa using .refl h⟩
  rintro ⟨o, l⟩ s' ⟨ho, hl, hsum, hw⟩
  simp only at ho hl hsum hw
  have hjoin : ∀ k, 0 ≤ k → slice buf ofs (o - ofs) ++ slice buf o k =
      slice buf ofs (o + k - ofs) := fun k hk => slice_extend hofs ho hk
  have hfail : ∀ k, 0 ≤ k → k ≤ l → ∀ x s'', ¬ Inside buf o k ∧ s'' = s' ∧
      Ended (Inside buf o k) x s' → Partly (Inside buf ofs len) (slice buf ofs len) x s s'' := by
    rintro k hk hle x _ ⟨hrange, rfl, hx⟩
    refine ⟨hx.imp fun hin => ?_, _, slice_initial hofs (by omega) (by omega), hw⟩
    exact ⟨by omega, hk, by have := hin.2.2; omega⟩
  simp only [wp_bind, wp_get, wp_ite]
  refine ⟨fun havail => ?_, fun havail => ?_⟩
  · refine wp_mono (wp_blit_append hblit hw hl (by omega) rfl) ?_ (hfail l hl (Int.le_refl l))
    rintro _ s'' ⟨hrange, hans, hw'⟩
    rw [hjoin l hl, hsum, show ofs + len - ofs = len by omega] at hw'
    have hin : Inside buf ofs len := ⟨hofs, hlen, by have := hrange.2.2; omega⟩
    refine ⟨by simp, fun n hn => ?_⟩
    obtain rfl : 0 = n := Sum.inr.inj hn
    rw [Int.sub_zero]
    exact ⟨Int.le_refl 0, hin, hw', fun hn => absurd rfl hn⟩
  · have hle := hw.output.le
    have hend : s'.state.ch.length =
        s'.state.ch.ptr + (s'.state.ch.length - s'.state.ch.ptr) := by omega
    refine wp_mono (wp_blit_append hblit hw (by omega) (by omega) hend) ?_
      (hfail _ (by omega) (by omega))
    rintro _ s'' ⟨hrange, hans, hw'⟩
    have hin := hrange.2.2
    rw [hjoin _ (by omega)] at hw'
    rw [wp_bind, wp_setPtr, wp_bind]
    refine wp_mono (wp_flushPartial hw' hbusy) ?_ fun x s3 hx =>
      (hx.mono (slice_initial hofs (by omega) (by omega))).imp fun _ => trivial
    rintro _ s3 ⟨hw3, hless, -⟩
    have hanswers := hw.suffix.length_le
    rw [withCh_answers, hans] at hless
    simp only [wp_bind, wp_get, wp_ite, wp_pure]
    have hdone : ∀ n, n = l - (s'.state.ch.length - s'.state.ch.ptr) → 0 ≤ n ∧
        Inside buf ofs (len - n) ∧ Wrote (slice buf ofs (len - n)) s s3 ∧
          (n ≠ 0 → s3.answers.length < s.answers.length) := by
      rintro n rfl
      refine ⟨by omega, ⟨hofs, by omega, by omega⟩, ?_, fun _ => by omega⟩
      rwa [show o + (s'.state.ch.length - s'.state.ch.ptr) - ofs =
        len - (l - (s'.state.ch.length - s'.state.ch.ptr)) by omega] at hw3
    refine ⟨fun hptr => ⟨fun hzero => ⟨by simp, fun n hn => ?_⟩, fun _ => ⟨?_, by simp⟩⟩,
      fun hptr => ⟨by simp, fun n hn => ?_⟩⟩
    · exact hdone n (by rw [← Sum.inr.inj hn, hzero])
    · rintro r hr
      cases hr
      exact ⟨⟨by simp only; omega, by simp only; omega, by simp only; omega, hw3⟩, hless⟩
    · exact hdone n (Sum.inr.inj hn).symm

theorem wp_writeFromChecked {blit : List UInt8 → ℤ → ℤ → ℤ → Prim Unit} (hblit : Blits blit)
    (h : Output s.state.ch) (hbusy : s.state.ch.state = .busyPrimitive) (name : String)
    (buf : List UInt8) (ofs len : ℤ) :
    wp (Primitives.writeFromChecked name (Primitives.unsafeWriteFrom' blit) buf ofs len)
      (fun n s' => ∃ data : List UInt8, data <+: slice buf ofs len ∧ data.length = n ∧
        Wrote data s s')
      (fun x s' => Partly (ofs + len ≤ maxInt) (slice buf ofs len) x s s') s := by
  simp only [Primitives.writeFromChecked, wp_ite, wp_raise, wp_pure, wp_bind]
  refine ⟨fun _ => ⟨.raised, [], List.nil_prefix, .refl h⟩, fun hrange =>
    ⟨fun hzero => ⟨[], List.nil_prefix, rfl, .refl h⟩, fun _ => ?_⟩⟩
  obtain ⟨hofs, hlen⟩ := not_wrongRange hrange
  refine wp_mono (wp_unsafeWriteFrom' hblit h hbusy hofs hlen) ?_ fun _ _ hx =>
    hx.imp (inside_of_not_wrongRange hrange)
  rintro n s' ⟨hn, hin, hw, -⟩
  exact ⟨_, slice_initial hofs hin.2.1 (by omega), length_slice hin, hw⟩

theorem wp_unsafeWriteFromExactly' {blit : List UInt8 → ℤ → ℤ → ℤ → Prim Unit}
    (hblit : Blits blit) (h : Output s.state.ch) (hbusy : s.state.ch.state = .busyPrimitive)
    {buf : List UInt8} {ofs len : ℤ} (hofs : 0 ≤ ofs) (hlen : 0 ≤ len) :
    wp (Primitives.unsafeWriteFromExactly' (Primitives.unsafeWriteFrom' blit) buf ofs len)
      (fun _ s' => Wrote (slice buf ofs len) s s')
      (fun x s' => Partly (Inside buf ofs len) (slice buf ofs len) x s s') s := by
  refine wp_loopAsking (fun r s' => ofs ≤ r.1 ∧ 0 ≤ r.2 ∧ r.1 + r.2 = ofs + len ∧
    Wrote (slice buf ofs (r.1 - ofs)) s s') ?_ ⟨Int.le_refl _, hlen, rfl, by simpa using .refl h⟩
  rintro ⟨o, l⟩ s' ⟨ho, hl, hsum, hw⟩
  simp only at ho hl hsum hw
  have hjoin : ∀ k, 0 ≤ k → slice buf ofs (o - ofs) ++ slice buf o k =
      slice buf ofs (o + k - ofs) := fun k hk => slice_extend hofs ho hk
  simp only [wp_bind]
  refine wp_mono (wp_unsafeWriteFrom' hblit hw.output (hw.state.trans hbusy) (by omega) hl) ?_ ?_
  · rintro n s'' ⟨hn, hin, hw', hless⟩
    have hle := hin.2.1
    replace hw' := hw.trans hw'
    rw [hjoin _ (by omega)] at hw'
    simp only [wp_ite, wp_pure]
    refine ⟨fun hzero => ⟨by simp, fun _ _ => ?_⟩, fun hzero => ⟨?_, by simp⟩⟩
    · rwa [show o + (l - n) - ofs = len by omega] at hw'
    · rintro r hr
      cases hr
      refine ⟨⟨by simp only; omega, hn, by simp only; omega, ?_⟩, hless hzero⟩
      rwa [show o + (l - n) - ofs = o + l - n - ofs by omega] at hw'
  · intro x s'' hx
    have hpart := Partly.after hw hx
    rw [hjoin l hl, show o + l - ofs = len by omega] at hpart
    exact hpart.imp fun hin => ⟨by omega, hl, by have := hin.2.2; omega⟩

theorem wp_writeFromExactlyChecked {blit : List UInt8 → ℤ → ℤ → ℤ → Prim Unit}
    (hblit : Blits blit) (h : Output s.state.ch) (hbusy : s.state.ch.state = .busyPrimitive)
    (name : String) (buf : List UInt8) (ofs len : ℤ) :
    wp (Primitives.writeFromExactlyChecked name
        (Primitives.unsafeWriteFromExactly' (Primitives.unsafeWriteFrom' blit)) buf ofs len)
      (fun _ s' => Wrote (slice buf ofs len) s s')
      (fun x s' => Partly (ofs + len ≤ maxInt) (slice buf ofs len) x s s') s := by
  simp only [Primitives.writeFromExactlyChecked, wp_ite, wp_raise, wp_pure]
  refine ⟨fun _ => ⟨.raised, [], List.nil_prefix, .refl h⟩, fun hrange =>
    ⟨fun hzero => ?_, fun _ => ?_⟩⟩
  · rw [hzero, slice_zero_length]
    exact .refl h
  · obtain ⟨hofs, hlen⟩ := not_wrongRange hrange
    exact wp_mono (wp_unsafeWriteFromExactly' hblit h hbusy hofs hlen) (fun _ _ h => h)
      fun _ _ hx => hx.imp (inside_of_not_wrongRange hrange)

theorem wp_write (h : Output s.state.ch) (hbusy : s.state.ch.state = .busyPrimitive)
    (str : List UInt8) :
    wp (Primitives.write str) (fun _ s' => Wrote str s s') (fun x s' => Partly True str x s s')
      s := by
  have hexactly : wp (Primitives.write str) (fun _ s' => Wrote (slice str 0 str.length) s s')
      (fun x s' => Partly (Inside str 0 str.length) (slice str 0 str.length) x s s') s :=
    wp_unsafeWriteFromExactly' blits_unsafeBlitFromBytes h hbusy (Int.le_refl 0)
      (Int.natCast_nonneg str.length)
  rw [slice_zero] at hexactly
  exact wp_mono hexactly (fun _ _ h => h) fun _ _ h =>
    h.imp fun _ => ⟨Int.le_refl 0, by omega, by omega⟩

theorem wp_writeLine (h : Output s.state.ch) (hbusy : s.state.ch.state = .busyPrimitive)
    (str : List UInt8) :
    wp (Primitives.writeLine str) (fun _ s' => Wrote (str ++ [10]) s s')
      (fun x s' => Partly True (str ++ [10]) x s s') s := by
  simp only [Primitives.writeLine, wp_bind]
  refine wp_mono (wp_write h hbusy str) (fun _ s' hw => ?_) fun _ _ hx =>
    hx.mono (List.prefix_append _ _)
  exact wp_mono (wp_writeChar hw.output (hw.state.trans hbusy) 10) (fun _ _ hw' => hw.trans hw')
    fun _ _ hx => Partly.after hw hx

theorem wp_writeBlockUnsafe {Q : α → Moment → Prop} {A : Abnormal Exn Fault → Moment → Prop}
    (h : Output s.state.ch) (hbusy : s.state.ch.state = .busyPrimitive) {size : ℤ} {f : ℤ → Prim α}
    (hf : ∀ s' : Moment, Wrote [] s s' → s'.state.ch.ptr + size ≤ s'.state.ch.length →
      wp (f s'.state.ch.ptr) Q A
        (withCh s' { s'.state.ch with ptr := s'.state.ch.ptr + size }))
    (hfail : ∀ x s', Partly True [] x s s' → A x s') :
    wp (Primitives.writeBlockUnsafe size f) Q A s := by
  simp only [Primitives.writeBlockUnsafe, wp_bind]
  refine wp_loopAsking (fun _ s' => Wrote [] s s') (fun _ s' hw => ?_) (.refl h)
  have hmax := hw.output.max
  simp only [wp_bind, wp_get, wp_ite, wp_pure, wp_setPtr]
  refine ⟨fun _ => wp_mono (wp_flushPartial hw hbusy) (fun _ s'' h => ?_) hfail, fun hfits => ?_⟩
  · exact ⟨fun _ _ => ⟨h.1, h.2.1⟩, by simp⟩
  · refine ⟨by simp, fun ptr hptr => ?_⟩
    cases hptr
    exact hf s' hw (by omega)

theorem wp_writeBytes (h : Output s.state.ch) (hbusy : s.state.ch.state = .busyPrimitive)
    {size : ℤ} (hsize : data.length = size) :
    wp (Primitives.writeBlockUnsafe size fun ptr => setBytes ptr data)
      (fun _ s' => Wrote data s s') (fun x s' => Partly True data x s s') s := by
  refine wp_writeBlockUnsafe h hbusy (fun s' hw hfits => ?_) fun x s' hx => hx.mono List.nil_prefix
  have hin := hw.output.inside_free (hsize ▸ hfits)
  refine (wp_setBytes (by exact hin)).mpr ?_
  exact hw.trans (Wrote.append hw.output hin (by rw [hsize, withCh_ch]))

theorem wp_resizeChannel_output (h : Output s.state.ch) (htyp : s.state.ch.typ = .normal)
    (hbusy : s.state.ch.state = .busyPrimitive) (len : ℤ) :
    wp (resizeChannel len) (fun _ s' => Wrote [] s s') (fun x s' => Partly True [] x s s') s := by
  simp only [resizeChannel, wp_bind, wp_get, h.mode]
  refine wp_mono (Q := fun _ s' => Wrote [] s s' ∧ s'.state.ch.ptr ≤ len) ?_ ?_ fun _ _ h => h
  · refine wp_loopAsking (fun _ s' => Wrote [] s s') (fun _ s' hw => ?_) (.refl h)
    simp only [wp_bind, wp_get, wp_ite, wp_pure]
    refine ⟨fun _ => wp_mono (wp_flushPartial hw hbusy) (fun _ s'' h => ?_) fun _ _ h => h,
      fun hptr => ⟨by simp, fun _ _ => ⟨hw, by omega⟩⟩⟩
    exact ⟨fun _ _ => ⟨h.1, h.2.1⟩, by simp⟩
  · rintro _ s' ⟨hw, hle⟩
    have hnonneg := hw.output.nonneg
    have hmemory := s'.state.platform.memory_le
    simp only [lwtBytesCreate, wp_bind, wp_get, wp_ite, wp_pure, wp_raise, wp_fault, wp_update]
    refine ⟨fun _ => ⟨.raised, [], List.nil_prefix, hw⟩, fun _ => ?_⟩
    have hnew : Inside (List.replicate len.toNat (0 : UInt8)) 0 s'.state.ch.ptr :=
      ⟨Int.le_refl 0, hnonneg, by rw [List.length_replicate]; omega⟩
    refine ⟨fun hout => absurd ⟨hw.output.inside, hnew⟩ hout, fun _ => ?_⟩
    have hlength := length_slice hw.output.inside
    have hnew' : Inside (List.replicate len.toNat (0 : UInt8)) 0
        (slice s'.state.ch.buffer 0 s'.state.ch.ptr).length := hlength.symm ▸ hnew
    have hresized : Wrote [] s' (withCh s' { s'.state.ch with
        buffer := splice (List.replicate len.toNat 0) 0 (slice s'.state.ch.buffer 0 s'.state.ch.ptr)
        length := len
        max := len }) := by
      refine ⟨⟨rfl, rfl, rfl, fun _ => by simp only [withCh_ch]; omega, by simp [hw.typ, htyp],
        List.suffix_refl _⟩, ⟨hw.output.mode, ?_, hnonneg, hle, rfl⟩, ?_, rfl⟩
      · simp only [withCh_ch]
        rw [length_splice hnew', List.length_replicate]
        omega
      · simp only [World.content, withCh_ch, withCh_sink, List.append_nil]
        rw [slice_splice hnew' hlength.symm]
    exact hw.trans hresized

end Lwt.Io.Data
