import Lwt.Io.Primitives

/-!
# Rules for the primitives of `Lwt_io`

The weakest preconditions of the accesses to the buffer, and of a call of the function that fills
or empties it.
-/

namespace Lwt.Io.Data

open Dialogue Window

/-- The state of a channel and its surroundings, with the answers to come. -/
abbrev Moment : Type := Env World Answer

variable {α β : Type} {Q : α → Moment → Prop} {A : Abnormal Exn Fault → Moment → Prop} {s : Moment}

/-- The channel is replaced. -/
def withCh (s : Moment) (ch : RealChannel) : Moment := { s with state := { s.state with ch := ch } }

@[simp] theorem withCh_ch (ch : RealChannel) : (withCh s ch).state.ch = ch := rfl

@[simp] theorem withCh_source (ch : RealChannel) :
    (withCh s ch).state.source = s.state.source := rfl

@[simp] theorem withCh_sink (ch : RealChannel) : (withCh s ch).state.sink = s.state.sink := rfl

@[simp] theorem withCh_passed (ch : RealChannel) :
    (withCh s ch).state.passed = s.state.passed := rfl

@[simp] theorem withCh_answers (ch : RealChannel) : (withCh s ch).answers = s.answers := rfl

@[simp] theorem withCh_withCh (ch ch' : RealChannel) :
    withCh (withCh s ch) ch' = withCh s ch' := rfl

@[simp] theorem wp_update {Q : Unit → Moment → Prop} (f : RealChannel → RealChannel) :
    wp (update f) Q A s ↔ Q () (withCh s (f s.state.ch)) := Iff.rfl

@[simp] theorem wp_setPtr {Q : Unit → Moment → Prop} (ptr : ℤ) :
    wp (setPtr ptr) Q A s ↔ Q () (withCh s { s.state.ch with ptr := ptr }) := Iff.rfl

theorem wp_loopAsking {body : β → Prim (β ⊕ α)} (I : β → Moment → Prop)
    (hbody : ∀ b s, I b s → wp (body b)
      (fun r s' => (∀ b', r = .inl b' → I b' s' ∧ s'.answers.length < s.answers.length) ∧
        ∀ a, r = .inr a → Q a s') A s)
    {b : β} (hb : I b s) : wp (loopAsking body b) Q A s :=
  wp_loop I hbody hb

/-! ## Accesses inside the buffer -/

theorem wp_unsafeGet {Q : UInt8 → Moment → Prop} {i : ℤ} (h : Inside s.state.ch.buffer i 1) :
    wp (unsafeGet i) Q A s ↔ Q (s.state.ch.buffer.getD i.toNat 0) s := by
  simp [unsafeGet, h]

theorem wp_unsafeSet {Q : Unit → Moment → Prop} {i : ℤ} {c : UInt8}
    (h : Inside s.state.ch.buffer i 1) :
    wp (unsafeSet i c) Q A s ↔
      Q () (withCh s { s.state.ch with buffer := splice s.state.ch.buffer i [c] }) := by
  simp [unsafeSet, h]

theorem wp_unsafeBlitWithin {Q : Unit → Moment → Prop} {src dst len : ℤ}
    (hsrc : Inside s.state.ch.buffer src len) (hdst : Inside s.state.ch.buffer dst len) :
    wp (unsafeBlitWithin src dst len) Q A s ↔ Q () (withCh s { s.state.ch with
      buffer := splice s.state.ch.buffer dst (slice s.state.ch.buffer src len) }) := by
  simp [unsafeBlitWithin, hsrc, hdst]

theorem wp_getBytes {Q : List UInt8 → Moment → Prop} {ptr size : ℤ}
    (h : Inside s.state.ch.buffer ptr size) :
    wp (getBytes ptr size) Q A s ↔ Q (slice s.state.ch.buffer ptr size) s := by
  simp [getBytes, h]

theorem wp_setBytes {Q : Unit → Moment → Prop} {ptr : ℤ} {data : List UInt8}
    (h : Inside s.state.ch.buffer ptr data.length) :
    wp (setBytes ptr data) Q A s ↔
      Q () (withCh s { s.state.ch with buffer := splice s.state.ch.buffer ptr data }) := by
  simp [setBytes, h]

/-- The end of code that has no value: the buffer of the channel has not been left, nor that of the
caller when `inside` says that its arguments are right; and only a call without an answer waits. -/
structure Ended (inside : Prop) (x : Abnormal Exn Fault) (s : Moment) : Prop where
  channel : x ≠ .fault .channelBuffer
  user : inside → x ≠ .fault .userBuffer
  waits : x = .waiting → s.answers = []

theorem Ended.raised {inside : Prop} {e : Exn} : Ended inside (.raised e) s :=
  ⟨by simp, by simp, by simp⟩

theorem Ended.imp {inside inside' : Prop} {x : Abnormal Exn Fault} (h : Ended inside x s)
    (himp : inside' → inside) : Ended inside' x s :=
  ⟨h.channel, fun hin => h.user (himp hin), h.waits⟩

theorem wp_unsafeBlitTo {src ofs len : ℤ} {buf : List UInt8}
    (h : Inside s.state.ch.buffer src len) :
    wp (unsafeBlitTo src buf ofs len)
      (fun b s' => Inside buf ofs len ∧ s' = s ∧
      b = splice buf ofs (slice s.state.ch.buffer src len))
      (fun x s' => s' = s ∧ Ended (Inside buf ofs len) x s) s := by
  simp only [unsafeBlitTo, wp_bind, wp_get, wp_ite, wp_fault, wp_pure]
  exact ⟨fun hout => absurd h hout, fun _ =>
    ⟨fun hout => ⟨trivial, by simp, fun hin => absurd hin hout, by simp⟩,
      fun hin => ⟨not_not.mp hin, trivial, trivial⟩⟩⟩

/-- The arguments have gone through the checks, with a sum that may have overflowed. -/
theorem not_wrongRange {buf : List UInt8} {ofs len : ℤ} (h : ¬ Primitives.wrongRange buf ofs len) :
    0 ≤ ofs ∧ 0 ≤ len := by
  simp only [Primitives.wrongRange, not_or] at h
  omega

theorem inside_of_not_wrongRange {buf : List UInt8} {ofs len : ℤ}
    (h : ¬ Primitives.wrongRange buf ofs len) (hsum : ofs + len ≤ maxInt) : Inside buf ofs len := by
  obtain ⟨hofs, hlen⟩ := not_wrongRange h
  have hadd : addInt ofs len = ofs + len := by
    rw [addInt, Int.bmod_eq_of_le] <;> simp only [maxInt] at hsum <;> omega
  simp only [Primitives.wrongRange, not_or, hadd] at h
  exact ⟨hofs, hlen, by omega⟩

/-- What no operation changes, set_position and direct_access apart. -/
structure Frame (s s' : Moment) : Prop where
  typ : s'.state.ch.typ = s.state.ch.typ
  state : s'.state.ch.state = s.state.ch.state
  passed : s'.state.passed = s.state.passed
  bound : s.state.ch.length ≤ maxInt → s'.state.ch.length ≤ maxInt
  bytes : s.state.ch.typ = .bytes → s'.state.sink = s.state.sink ∧
    s'.state.source = s.state.source ∧ s'.state.ch.length = s.state.ch.length ∧
    s'.state.ch.offset = s.state.ch.offset
  suffix : s'.answers <:+ s.answers

namespace Frame

theorem refl (s : Moment) : Frame s s :=
  ⟨rfl, rfl, rfl, id, fun _ => ⟨rfl, rfl, rfl, rfl⟩, List.suffix_refl _⟩

theorem trans {s' s'' : Moment} (h : Frame s s') (h' : Frame s' s'') : Frame s s'' where
  typ := h'.typ.trans h.typ
  state := h'.state.trans h.state
  passed := h'.passed.trans h.passed
  bound := h'.bound ∘ h.bound
  bytes hbytes := by
    obtain ⟨hsink, hsource, hlength, hoffset⟩ := h.bytes hbytes
    obtain ⟨hsink', hsource', hlength', hoffset'⟩ := h'.bytes (h.typ.trans hbytes)
    exact ⟨hsink'.trans hsink, hsource'.trans hsource, hlength'.trans hlength,
      hoffset'.trans hoffset⟩
  suffix := h'.suffix.trans h.suffix

theorem withCh {ch : RealChannel} (htyp : ch.typ = s.state.ch.typ)
    (hstate : ch.state = s.state.ch.state) (hlength : ch.length = s.state.ch.length)
    (hoffset : ch.offset = s.state.ch.offset) : Frame s (Data.withCh s ch) :=
  ⟨htyp, hstate, rfl, fun h => le_of_eq_of_le hlength h, fun _ => ⟨rfl, rfl, hlength, hoffset⟩,
    List.suffix_refl _⟩

theorem of_state {s' s'' : Moment} (h : Frame s s') (hstate : s''.state = s'.state)
    (hsuffix : s''.answers <:+ s'.answers) : Frame s s'' :=
  ⟨hstate ▸ h.typ, hstate ▸ h.state, hstate ▸ h.passed, hstate ▸ h.bound, hstate ▸ h.bytes,
    hsuffix.trans h.suffix⟩

end Frame

/-! ## A call of the function that fills or empties the buffer -/

/-- An answer has been taken. -/
structure Answered (s s' : Moment) : Prop where
  suffix : s'.answers <:+ s.answers
  fewer : s'.answers.length < s.answers.length

/-- `data` can be transferred from or to the place `ptr` of the buffer. -/
def Offers (w : World) (ptr : ℤ) (data : List UInt8) : Prop :=
  match w.ch.mode with
  | .input => data <+: w.source
  | .output => data = slice w.ch.buffer ptr data.length

/-- The transfer of `data`. -/
def World.transfer (w : World) (ptr : ℤ) (data : List UInt8) : World :=
  match w.ch.mode with
  | .input => { w with
      ch := { w.ch with buffer := splice w.ch.buffer ptr data }
      source := w.source.drop data.length }
  | .output => { w with sink := w.sink ++ data }

/-- The call returns `n`: a wrong number without a transfer, or the number of the bytes that have
been transferred. -/
structure Performed (ptr len n : ℤ) (s s' : Moment) : Prop where
  answered : Answered s s'
  result : (n < 0 ∨ n > len) ∧ s'.state = s.state ∨
    ∃ data : List UInt8, n = data.length ∧ n ≤ len ∧ Offers s.state ptr data ∧
      s'.state = s.state.transfer ptr data

/-- Nothing has been transferred. -/
structure Refused (x : Abnormal Exn Fault) (s s' : Moment) : Prop where
  suffix : s'.answers <:+ s.answers
  state : s'.state = s.state
  ended : Ended True x s'
  fewer : ∀ e, x = .raised e → s'.answers.length < s.answers.length

theorem offers_nil (w : World) (ptr : ℤ) : Offers w ptr [] := by
  unfold Offers
  split
  · exact List.nil_prefix
  · simp

theorem World.transfer_nil (w : World) (ptr : ℤ) : w.transfer ptr [] = w := by
  unfold World.transfer
  split <;> simp

theorem World.transfer_input {w : World} (h : w.ch.mode = .input) (ptr : ℤ) (data : List UInt8) :
    w.transfer ptr data = { w with
      ch := { w.ch with buffer := splice w.ch.buffer ptr data }
      source := w.source.drop data.length } := by
  unfold World.transfer
  rw [h]

theorem World.transfer_output {w : World} (h : w.ch.mode = .output) (ptr : ℤ)
    (data : List UInt8) : w.transfer ptr data = { w with sink := w.sink ++ data } := by
  unfold World.transfer
  rw [h]

theorem wp_transfer {ptr len : ℤ} {n : ℕ} (h : Inside s.state.ch.buffer ptr len) :
    wp (transfer ptr len n) (fun k s' => ∃ data : List UInt8, k = data.length ∧ k ≤ len ∧
      Offers s.state ptr data ∧ s' = { s with state := s.state.transfer ptr data }) A s := by
  have hlen := h.2.1
  cases hmode : s.state.ch.mode with
  | input =>
    simp only [transfer, wp_bind, wp_get, wp_ite, h, not_true_eq_false, false_implies, true_and,
      not_false_eq_true, hmode, wp_modify, wp_pure, forall_const]
    refine ⟨s.state.source.take (min n len.toNat), rfl, ?_, ?_, ?_⟩
    · have htake := List.length_take_le (min n len.toNat) s.state.source
      omega
    · simp only [Offers, hmode]
      exact List.take_prefix _ _
    · rw [World.transfer_input hmode, ← hmode]
  | output =>
    simp only [transfer, wp_bind, wp_get, wp_ite, h, not_true_eq_false, false_implies, true_and,
      not_false_eq_true, hmode, wp_modify, wp_pure, forall_const]
    have hin : Inside s.state.ch.buffer ptr (min (n : ℤ) len) :=
      ⟨h.1, by omega, by have := h.2.2; omega⟩
    have hslice := length_slice hin
    refine ⟨_, rfl, ?_, ?_, ?_⟩
    · rw [hslice]
      omega
    · simp only [Offers, hmode, hslice]
    · rw [World.transfer_output hmode]

theorem wp_transferExactly {ptr len n : ℤ} (h : Inside s.state.ch.buffer ptr len) :
    wp (transferExactly ptr len n) (fun k s' => s'.answers = s.answers ∧
      ((k < 0 ∨ k > len) ∧ s'.state = s.state ∨
        ∃ data : List UInt8, k = data.length ∧ k ≤ len ∧ Offers s.state ptr data ∧
          s'.state = s.state.transfer ptr data)) A s := by
  simp only [transferExactly, wp_ite, wp_pure]
  refine ⟨fun _ => wp_mono (wp_transfer h) ?_ fun _ _ h => h, fun hn => ?_⟩
  · rintro k _ ⟨data, hk, hle, hoffers, rfl⟩
    exact ⟨rfl, Or.inr ⟨data, hk, hle, hoffers, rfl⟩⟩
  · exact ⟨trivial, Or.inl ⟨by omega, trivial⟩⟩

theorem wp_perform {ptr len : ℤ} (h : Inside s.state.ch.buffer ptr len) :
    wp (perform ptr len) (fun n s' => Performed ptr len n s s') (fun x s' => Refused x s s') s := by
  simp only [perform, wp_bind, wp_ask]
  refine ⟨fun hnone => ⟨List.suffix_refl _, rfl, ⟨by simp, by simp, fun _ => hnone⟩, by simp⟩,
    fun r answers hr => ?_⟩
  have hanswered : ∀ s' : Moment, s'.answers = answers → Answered s s' := fun s' hs' =>
    ⟨by rw [hs', hr]; exact List.suffix_cons _ _, by rw [hs', hr]; exact Nat.lt_succ_self _⟩
  have hexactly : ∀ n, wp (transferExactly ptr len n) (fun n s' => Performed ptr len n s s')
      (fun x s' => Refused x s s') { s with answers := answers } := fun n =>
    wp_mono (wp_transferExactly h) (fun k s' hk => ⟨hanswered s' hk.1, hk.2⟩) fun _ _ h => h
  cases r with
  | moves n =>
    refine wp_mono (wp_transfer h) ?_ fun _ _ h => h
    rintro k s' ⟨data, hk, hle, hoffers, rfl⟩
    exact ⟨hanswered _ rfl, Or.inr ⟨data, hk, hle, hoffers, rfl⟩⟩
  | returns n => exact hexactly n
  | seeks n data => exact hexactly n.toInt
  | raises e =>
    have ha := hanswered { s with answers := answers } rfl
    exact ⟨ha.suffix, rfl, .raised, fun _ _ => ha.fewer⟩

theorem wp_performOnSystem {ptr len : ℤ} (h : Inside s.state.ch.buffer ptr len) :
    wp (performOnSystem ptr len) (fun n s' => Performed ptr len n s s')
      (fun x s' => Refused x s s') s := by
  simp only [performOnSystem, wp_bind, wp_get, wp_ite]
  refine ⟨fun _ => ?_, fun _ => wp_perform h⟩
  simp only [catch', wp_tryBind]
  refine wp_mono (wp_perform h) (fun _ _ h => h) fun x s' hx => ⟨?_, fun _ => hx⟩
  rintro e rfl
  have ha : Answered s s' := ⟨hx.suffix, hx.fewer e rfl⟩
  have hstate : s'.state = s.state.transfer ptr [] := by
    rw [World.transfer_nil]
    exact hx.state
  cases e
  case epipe => exact ⟨ha, Or.inr ⟨[], rfl, h.2.1, offers_nil _ _, hstate⟩⟩
  all_goals exact hx

/-! ## Locking -/

def withState (s : Moment) (state : State) : Moment :=
  withCh s { s.state.ch with state := state }

theorem Frame.unlock {s' : Moment} (hidle : s.state.ch.state = .idle)
    (h : Frame (withState s .busyPrimitive) s') : Frame s (withState s' .idle) :=
  ⟨h.typ, hidle.symm, h.passed, h.bound, h.bytes, h.suffix⟩

/-- An operation on an idle channel: what it does is done on a busy one. -/
theorem wp_primitive {f : Prim α} (hidle : s.state.ch.state = .idle)
    (hf : wp f (fun a s' => s'.state.ch.state = .busyPrimitive ∧ Q a (withState s' .idle))
      (fun x s' => (∀ e, x = .raised e →
          s'.state.ch.state = .busyPrimitive ∧ A x (withState s' .idle)) ∧
        ((∀ e, x ≠ .raised e) → A x s')) (withState s .busyPrimitive)) :
    wp (primitive f) Q A s := by
  have hunlock : ∀ {Q : Unit → Moment → Prop} {s' : Moment},
      s'.state.ch.state = .busyPrimitive → Q () (withState s' .idle) → wp unlock Q A s' := by
    intro Q s' hbusy hQ
    simp only [unlock, wp_bind, wp_get, hbusy, wp_update]
    exact hQ
  simp only [primitive, wp_bind, wp_get, hidle, wp_update, finalize, wp_tryBind]
  refine wp_mono hf (fun a s' h => (wp_bind _ _).mpr (hunlock h.1 h.2)) fun x s' h => ⟨?_, h.2⟩
  rintro e rfl
  obtain ⟨hbusy, hA⟩ := h.1 e rfl
  exact (wp_bind _ _).mpr (hunlock hbusy hA)

/-! ## The first operation -/

/-- A channel before its first operation. -/
def start (ch : RealChannel) (source : List UInt8) (platform : Platform) (answers : List Answer) :
    Moment :=
  ⟨⟨ch, source, [], platform, 0⟩, answers⟩

theorem size_of_check {funName : String} {n : ℤ} (h : checkBufferSize funName n = .ok ()) :
    minBufferSize ≤ n ∧ n ≤ maxStringLength := by
  unfold checkBufferSize at h
  split at h
  · cases h
  · split at h
    · cases h
    · omega

theorem makeWith_of_make {defaultBufferSize : { n : ℤ // checkBufferSize
      "set_default_buffer_size" n = .ok () }} {mode : Mode} {buffer : Option (List UInt8)}
    {ch : RealChannel} (h : make defaultBufferSize mode buffer = .ok ch) :
    ∃ buffer : List UInt8, ch = makeWith mode buffer ∧ minBufferSize ≤ buffer.length ∧
      buffer.length ≤ maxStringLength := by
  cases buffer with
  | none =>
    obtain ⟨hmin, hmax⟩ := size_of_check defaultBufferSize.2
    have hlength : ((List.replicate defaultBufferSize.1.toNat (0 : UInt8)).length : ℤ) =
        defaultBufferSize.1 := by
      rw [List.length_replicate]
      simp only [minBufferSize] at hmin
      omega
    exact ⟨_, (Except.ok.inj h).symm, by omega, by omega⟩
  | some buffer =>
    simp only [make] at h
    cases hcheck : checkBuffer "Lwt_io.make" buffer with
    | error e => simp [hcheck, bind, Except.bind] at h
    | ok _ =>
      simp only [hcheck, bind, Except.bind, pure, Except.pure, Except.ok.injEq] at h
      exact ⟨buffer, h.symm, size_of_check hcheck⟩

end Lwt.Io.Data
