import Lwt.Io.Closing

/-!
# The auto-flusher

`unlock` and the fast path of `write_char` launch the auto-flusher, and it takes the flag
`auto_flushing` back when its pause is over.  Without atomic blocks the main wrapper is the only
one, and then the flag says exactly that one auto-flusher is paused.  So what is in the buffer of
a channel that nothing uses will be flushed.

An auto-flusher gives the channel back with an empty buffer, for `flush_total` returns only then,
and it fails only when the perform function does or the channel has been closed.  But a
`da_perform` that its `direct_access` has not waited for may come back after the flush, and put
`ptr` where the bytes that have been flushed end.
-/

namespace Lwt.Io

open Transition

variable {m u : Channel} {i j v w : ℕ} {s t : Status} {x : State} {kind : Kind} {o : Outcome}

namespace Channel

def kinds (m : Channel) : List Kind := m.tasks.map (·.kind)

theorem kinds_modify (tasks : List Task) (i : ℕ) {f : Task → Task} (hf : ∀ t, (f t).kind = t.kind) :
    (tasks.modify i f).map (·.kind) = tasks.map (·.kind) := by
  refine List.ext_getElem (by simp) fun j hj hj' => ?_
  simp only [List.getElem_map, List.getElem_modify]
  split <;> simp [hf]

@[simp] theorem kinds_setStatus (m : Channel) (i : ℕ) (t : Status) :
    (m.setStatus i t).kinds = m.kinds :=
  kinds_modify m.tasks i fun _ => rfl

@[simp] theorem kinds_setState (m : Channel) (w : ℕ) (x : State) :
    (m.setState w x).kinds = m.kinds := rfl

@[simp] theorem kinds_setTask (m : Channel) (i w : ℕ) (t : Status) :
    (m.setTask i w t).kinds = m.kinds :=
  kinds_modify m.tasks i fun _ => rfl

@[simp] theorem kinds_wakeFirst (m : Channel) (w : ℕ) : (m.wakeFirst w).kinds = m.kinds := by
  unfold wakeFirst
  split
  · rfl
  · exact kinds_modify m.tasks _ fun t => by split <;> rfl

/-- What holds of the main wrapper, if it is the only one, whether or not the buffer is empty. -/
structure Single (m : Channel) : Prop where
  output : m.mode = .output
  single : m.wrappers.length = 1
  flat : ∀ tmp, m.state 0 ≠ .busyAtomic tmp
  valid : m.state 0 ≠ .invalid
  main : ∀ i w s, m.At i w s → w = 0
  noAtomic : Kind.atomic ∉ m.kinds
  noBlock : ∀ i w tmp, ¬ m.At i w (.block tmp)
  unique : ∀ i j w v s t, m.state 0 ≠ .closed → m.At i w s → m.At j v t → s.active = true →
    t.active = true → i = j
  flag : ∀ i w, m.At i w .paused → m.autoFlushing = true
  once : ∀ i j w v, m.At i w .paused → m.At j v .paused → i = j
  paused : m.autoFlushing = true → m.state 0 ≠ .closed → ∃ i, m.At i 0 .paused

/-- Nothing is active on the channel, unless it is closed. -/
def Unused (m : Channel) : Prop := m.state 0 ≠ .closed → ∀ i w s, m.At i w s → s.active = false

/-- A channel that can be used has nothing active on it, and an auto-flusher if there is something
to be flushed. -/
structure Watched (m : Channel) : Prop extends Single m where
  unused : m.state 0 ≠ .busyPrimitive → Unused m
  scheduled : m.state 0 = .idle → m.buffer ≠ [] → m.autoFlushing = true

theorem Single.congr (h : Single m) (hmode : u.mode = m.mode) (hw : u.wrappers = m.wrappers)
    (ht : u.tasks = m.tasks) (hf : u.autoFlushing = m.autoFlushing) : Single u := by
  cases m
  cases u
  cases hmode
  cases hw
  cases ht
  cases hf
  exact ⟨h.output, h.single, h.flat, h.valid, h.main, h.noAtomic, h.noBlock,
    h.unique, h.flag, h.once, h.paused⟩

theorem Single.setStatus (h : Single m) (hi : m.At i w s) (hs : s ≠ .paused) (ht : t ≠ .paused)
    (hblock : ∀ tmp, t ≠ .block tmp) (hactive : t.active = true → s.active = true) :
    Single (m.setStatus i t) where
  output := h.output
  single := h.single
  flat := h.flat
  valid := h.valid
  main := by have hold := h.main; grind
  noAtomic := by simpa using h.noAtomic
  noBlock := by have hold := h.noBlock; grind
  unique := by have hold := h.unique; grind
  flag := by have hold := h.flag; grind [Channel.setStatus]
  once := by have hold := h.once; grind
  paused := by
    intro hflag hopen
    obtain ⟨j, hj⟩ := h.paused hflag hopen
    exact ⟨j, by grind⟩

theorem Single.setState (h : Single m) (hflat : ∀ tmp, x ≠ .busyAtomic tmp) (hvalid : x ≠ .invalid)
    (hclosed : m.state 0 = .closed → x = .closed) : Single (m.setState 0 x) where
  output := h.output
  single := by simpa using h.single
  flat := by have hold := h.flat; grind
  valid := by have hold := h.valid; grind
  main := by have hold := h.main; grind
  noAtomic := h.noAtomic
  noBlock := by have hold := h.noBlock; grind
  unique := by
    have hold := h.unique
    have hlt := h.single
    grind
  flag := h.flag
  once := h.once
  paused := by
    intro hflag hopen
    have hlt := h.single
    obtain ⟨j, hj⟩ := h.paused hflag (by grind)
    exact ⟨j, hj⟩

theorem Single.addTask (h : Single m) (hkind : kind ≠ .atomic) (ht : t ≠ .paused)
    (hblock : ∀ tmp, t ≠ .block tmp) (hactive : t.active = false) :
    Single (m.addTask kind 0 t) where
  output := h.output
  single := h.single
  flat := h.flat
  valid := h.valid
  main := by have hold := h.main; grind
  noAtomic := by
    have hold := h.noAtomic
    simpa [kinds, Channel.addTask] using ⟨by simpa [kinds] using hold, hkind.symm⟩
  noBlock := by have hold := h.noBlock; grind
  unique := by have hold := h.unique; grind
  flag := by have hold := h.flag; grind [Channel.addTask]
  once := by have hold := h.once; grind
  paused := by
    intro hflag hopen
    obtain ⟨j, hj⟩ := h.paused hflag hopen
    exact ⟨j, by grind⟩

theorem Single.setQueued (h : Single m) (q : List ℕ) : Single (m.setQueued w q) where
  output := h.output
  single := by simpa using h.single
  flat := by simpa using h.flat
  valid := by simpa using h.valid
  main := h.main
  noAtomic := h.noAtomic
  noBlock := h.noBlock
  unique := by simpa using h.unique
  flag := h.flag
  once := h.once
  paused := by
    intro hflag hopen
    rw [state_setQueued] at hopen
    exact h.paused hflag hopen

@[simp] theorem mode_wakeFirst (m : Channel) (w : ℕ) : (m.wakeFirst w).mode = m.mode := by
  unfold wakeFirst
  split <;> rfl

@[simp] theorem buffer_wakeFirst (m : Channel) (w : ℕ) : (m.wakeFirst w).buffer = m.buffer := by
  unfold wakeFirst
  split <;> rfl

@[simp] theorem autoFlushing_wakeFirst (m : Channel) (w : ℕ) :
    (m.wakeFirst w).autoFlushing = m.autoFlushing := by
  unfold wakeFirst
  split <;> rfl

theorem Single.wakeFirst (h : Single m) (w : ℕ) : Single (m.wakeFirst w) where
  output := by simpa using h.output
  single := by simpa using h.single
  flat := by simpa using h.flat
  valid := by simpa using h.valid
  main := by have hold := h.main; grind
  noAtomic := by simpa using h.noAtomic
  noBlock := by have hold := h.noBlock; grind
  unique := by have hold := h.unique; grind [Status.active]
  flag := by
    have hold := h.flag
    rw [autoFlushing_wakeFirst]
    grind
  once := by have hold := h.once; grind
  paused := by
    intro hflag hopen
    rw [autoFlushing_wakeFirst] at hflag
    rw [state_wakeFirst] at hopen
    obtain ⟨j, hj⟩ := h.paused hflag hopen
    exact ⟨j, by grind⟩

theorem Single.launchFlusher (h : Single m) (hflag : m.autoFlushing = false) :
    Single m.launchFlusher := by
  have hnone : ∀ j v, ¬ m.At j v .paused := by
    intro j v hj
    rw [h.flag j v hj] at hflag
    cases hflag
  have hat : ∀ j v t, m.launchFlusher.At j v t ↔
      (j = m.tasks.length ∧ v = 0 ∧ t = .paused) ∨ m.At j v t := 
    fun j v t => at_addTask m .autoFlush 0 v j .paused t
  refine ⟨h.output, h.single, h.flat, h.valid, ?_, ?_, ?_, ?_, fun _ _ _ => rfl, ?_, ?_⟩
  · have hold := h.main
    grind
  · have hold := h.noAtomic
    simpa [kinds, Channel.launchFlusher, Channel.addTask] using hold
  · have hold := h.noBlock
    grind
  · have hold := h.unique
    have hstate : m.launchFlusher.state 0 = m.state 0 := rfl
    grind [Status.active]
  · grind
  · intro _ _
    exact ⟨m.tasks.length, (hat _ _ _).mpr (Or.inl ⟨rfl, rfl, rfl⟩)⟩

/-! ## Taking the channel and giving it back -/

theorem Single.watched_of_closed (h : Single m) (hm : m.state 0 = .closed) : Watched m :=
  ⟨h, fun _ hopen => absurd hm hopen, by simp [hm]⟩

theorem Single.watched_of_busy (h : Single m) (hm : m.state 0 = .busyPrimitive) : Watched m :=
  ⟨h, fun hfree => absurd hm hfree, by simp [hm]⟩

theorem Watched.busy (h : Watched m) (hi : m.At i w s) (hs : s.active = true) :
    m.state 0 = .busyPrimitive ∨ m.state 0 = .closed := by
  by_contra hfree
  rw [not_or] at hfree
  have hidle := h.unused hfree.1 hfree.2 i w s hi
  rw [hs] at hidle
  cases hidle

theorem Watched.ended (h : Watched m) (hi : m.At i w s) (hs : s.active = true)
    (ht : t.gone = true) :
    Single (m.setStatus i t) ∧ Unused (m.setStatus i t) := by
  refine ⟨h.toSingle.setStatus hi (by rintro rfl; cases hs) (by rintro rfl; cases ht)
    (by rintro tmp rfl; cases ht) (by intro hactive; cases t <;> cases ht <;> cases hactive), ?_⟩
  intro hopen j v r hj
  rw [at_setStatus] at hj
  rcases hj with ⟨-, rfl, -⟩ | ⟨hne, hj⟩
  · cases r <;> first | rfl | cases ht
  · by_contra hr
    exact hne (h.unique j i v w r s hopen hj hi (by simpa using hr) hs)

theorem Single.take (h : Single m) (hu : Unused m) (hopen : m.state 0 ≠ .closed)
    (hi : m.At i w s) (hs : s ≠ .paused) :
    Watched ((m.setState 0 .busyPrimitive).setStatus i .running) := by
  have hlt := h.single
  refine Single.watched_of_busy ?_ (by grind)
  refine ⟨h.output, by simpa using h.single, ?_, ?_, ?_, ?_, ?_, ?_, ?_, ?_, ?_⟩
  · grind
  · grind
  · have hold := h.main
    grind
  · simpa using h.noAtomic
  · have hold := h.noBlock
    grind
  · have hold := hu hopen
    grind
  · have hold := h.flag
    grind [Channel.setStatus, Channel.setState]
  · have hold := h.once
    grind
  · intro hflag _
    obtain ⟨j, hj⟩ := h.paused hflag hopen
    exact ⟨j, by grind⟩

theorem Single.unlock (h : Single m) (hu : Unused m)
    (hbusy : m.state 0 = .busyPrimitive ∨ m.state 0 = .closed) : Watched (m.unlock 0) := by
  have hlt := h.single
  rcases hbusy with hm | hm
  · have hset : ∀ y : State, (m.setState 0 y).state 0 = y := by grind
    have hopen : m.state 0 ≠ .closed := by simp [hm]
    by_cases hq : m.queued 0 = []
    · have hidle : Single (m.setState 0 .idle) := h.setState (by simp) (by simp) (by simp [hm])
      by_cases hflag : m.autoFlushing = false
      · have hunlock : m.unlock 0 = (m.setState 0 .idle).launchFlusher := by
          have hfields : (m.setState 0 .idle).mode = .output ∧
              (m.setState 0 .idle).autoFlushing = false := ⟨h.output, hflag⟩
          simp [Channel.unlock, hm, hq, hfields]
        rw [hunlock]
        refine ⟨hidle.launchFlusher hflag, fun _ _ j v r hj => ?_, fun _ _ => rfl⟩
        rcases (at_addTask _ .autoFlush 0 v j .paused r).mp hj with ⟨-, -, rfl⟩ | hj
        · rfl
        · exact hu hopen j v r hj
      · have hflag' : (m.setState 0 .idle).autoFlushing = true := eq_true_of_ne_false hflag
        have hunlock : m.unlock 0 = m.setState 0 .idle := by
          simp [Channel.unlock, hm, hq, hflag']
        rw [hunlock]
        exact ⟨hidle, fun _ _ => hu hopen, fun _ _ => hflag'⟩
    · have hunlock : m.unlock 0 = (m.setState 0 .waitingForBusy).wakeFirst 0 := by
        simp [Channel.unlock, hm, hq]
      rw [hunlock]
      refine ⟨(h.setState (by simp) (by simp) (by simp [hm])).wakeFirst 0, ?_, by simp [hset]⟩
      intro _ _ j v r hj
      have hold := hu hopen
      grind [Status.active]
  · have hunlock : m.unlock 0 = m.wakeFirst 0 := by simp [Channel.unlock, hm]
    rw [hunlock]
    exact (h.wakeFirst 0).watched_of_closed (by simpa using hm)

theorem Single.deepestWrapper (h : Single m) : m.deepestWrapper 0 = 0 := by
  have hdeep : m.deepestFrom 1 0 = 0 := by
    unfold deepestFrom
    split
    case h_1 tmp hm => exact absurd hm (h.flat tmp)
    case h_2 => rfl
  rw [Channel.deepestWrapper, h.single, hdeep]

theorem Watched.abort (h : Watched m) : Watched (m.abort 0).1 := by
  have hlt := h.single
  have hclosed : Single (m.setState 0 .closed) := h.setState (by simp) (by simp) (by simp)
  have hstate : (m.setState 0 .closed).state 0 = .closed := by grind
  have hdeep := h.deepestWrapper
  rcases abort_cases m 0 with ⟨-, hu⟩ | ⟨-, hu⟩ | ⟨-, -, ⟨-, hu⟩ | ⟨-, hu⟩⟩ <;> rw [hu]
  · exact h
  · exact h
  · rw [hdeep]
    exact Single.watched_of_closed (hclosed.congr rfl rfl rfl rfl) hstate
  · rw [hdeep]
    exact Single.watched_of_closed (hclosed.congr rfl rfl rfl rfl) hstate

theorem Watched.setStatus (h : Watched m) (hi : m.At i w s) (hs : s ≠ .paused) (ht : t ≠ .paused)
    (hblock : ∀ tmp, t ≠ .block tmp) (hactive : t.active = true → s.active = true) :
    Watched (m.setStatus i t) where
  toSingle := h.toSingle.setStatus hi hs ht hblock hactive
  unused := by
    intro hbusy hopen j v r hj
    have hold := h.unused hbusy hopen
    grind
  scheduled := h.scheduled

theorem Watched.addTask (h : Watched m) (hkind : kind ≠ .atomic) (ht : t ≠ .paused)
    (hblock : ∀ tmp, t ≠ .block tmp) (hactive : t.active = false) :
    Watched (m.addTask kind 0 t) where
  toSingle := h.toSingle.addTask hkind ht hblock hactive
  unused := by
    intro hbusy hopen j v r hj
    have hold := h.unused hbusy hopen
    grind
  scheduled := h.scheduled

theorem Watched.setQueued (h : Watched m) (q : List ℕ) : Watched (m.setQueued w q) where
  toSingle := h.toSingle.setQueued q
  unused := by
    intro hbusy hopen
    rw [state_setQueued] at hbusy hopen
    exact h.unused hbusy hopen
  scheduled := by
    intro hidle hbuffer
    rw [state_setQueued] at hidle
    exact h.scheduled hidle hbuffer

theorem Watched.fail (h : Watched m) (hi : m.At i w s) (hs : s ≠ .paused) (kind : Kind)
    (o : Outcome) : Watched (m.fail i kind o) := by
  unfold Channel.fail
  split
  · exact h.abort.setStatus ((at_abort m 0 i w s).mpr hi) hs (by simp) (by simp)
      (by simp [Status.active])
  · exact h.setStatus hi hs (by simp) (by simp) (by simp [Status.active])

theorem Watched.enter (h : Watched m) (hfree : m.state 0 ≠ .busyPrimitive)
    (hopen : m.state 0 ≠ .closed) (hi : m.At i w s) (hs : s ≠ .paused) (hkind : kind ≠ .atomic) :
    Watched (m.enter i kind 0) := by
  have htake := h.toSingle.take (h.unused hfree) hopen hi hs
  cases kind <;> first | exact htake | exact absurd rfl hkind

/-! ## Whole operations -/

theorem Watched.call (h : Watched m) (hkind : kind ≠ .atomic) : Watched (m.call kind 0) := by
  have hnew : (m.addTask kind 0 .called).At m.tasks.length 0 .called := by
    rw [at_addTask]
    exact Or.inl ⟨rfl, rfl, rfl⟩
  have hcalled : Watched (m.addTask kind 0 .called) := h.addTask hkind (by simp) (by simp) rfl
  have hqueued : Watched (m.addTask kind 0 .queued) := h.addTask hkind (by simp) (by simp) rfl
  unfold Channel.call
  split
  case h_1 hm =>
    exact hcalled.enter (by simp [hm]) (by simp [hm]) hnew (by simp) hkind
  case h_2 | h_3 | h_4 => exact hqueued.setQueued _
  case h_5 | h_6 => exact hcalled.fail hnew (by simp) kind _

theorem Watched.resume (h : Watched m) (hi : m.At i 0 .woken) (hkind : kind ≠ .atomic) :
    Watched (m.resume i kind 0) := by
  unfold Channel.resume
  split
  case h_1 hm =>
    have hcalled := h.setStatus hi (t := .called) (by simp) (by simp) (by simp)
      (by simp [Status.active])
    have hi' : (m.setStatus i .called).At i 0 .called := by
      rw [at_setStatus]
      exact Or.inl ⟨rfl, rfl, _, hi⟩
    have hclosed : Unused (m.setStatus i .called) := fun hopen => absurd hm hopen
    exact (hcalled.toSingle.unlock hclosed (Or.inr hm)).fail (hi'.unlock (by simp) 0) (by simp)
      kind _
  case h_2 hm | h_3 hm => exact h.enter (by simp [hm]) (by simp [hm]) hi (by simp) hkind
  case h_4 => exact h.fail hi (by simp) kind _
  case h_5 | h_6 =>
    have hasserted : Watched { m with asserted := true } :=
      ⟨h.toSingle.congr rfl rfl rfl rfl, h.unused, h.scheduled⟩
    exact hasserted.fail hi (by simp) kind _

theorem Watched.writeChar (h : Watched m) (hm : m.state 0 = .idle) (b : UInt8) :
    Watched (m.writeChar b) := by
  have hbuffer : Single (m.put [b]) := h.toSingle.congr rfl rfl rfl rfl
  have hunused := h.unused (by simp [hm])
  unfold Channel.writeChar
  simp only
  split
  case isTrue hflag => exact ⟨hbuffer, fun _ => hunused, fun _ _ => hflag⟩
  case isFalse hflag =>
    refine ⟨hbuffer.launchFlusher (eq_false_of_ne_true hflag), ?_, fun _ _ => rfl⟩
    intro _ hopen j v r hj
    rcases (at_addTask _ .autoFlush 0 v j .paused r).mp hj with ⟨-, -, rfl⟩ | hj
    · rfl
    · exact hunused hopen j v r hj

/-- The only auto-flusher that was paused goes on; the flag is taken back, unless the channel is
closed. -/
theorem Single.unpause (h : Single m) (hi : m.At i 0 .paused) (ht : t ≠ .paused)
    (hblock : ∀ tmp, t ≠ .block tmp) (hactive : t.active = true → Unused m) {b : Bool}
    (hb : b = true → m.state 0 = .closed) :
    Single { m.setTask i 0 t with autoFlushing := b } := by
  have hnone : ∀ j v, j ≠ i → ¬ m.At j v .paused := fun j v hne hj => hne (h.once j i v 0 hj hi)
  have hat : ∀ j v r, Channel.At { m.setTask i 0 t with autoFlushing := b } j v r ↔
      (m.setTask i 0 t).At j v r := fun _ _ _ => Iff.rfl
  have hkinds : Channel.kinds { m.setTask i 0 t with autoFlushing := b } = m.kinds :=
    kinds_setTask m i 0 t
  refine ⟨h.output, h.single, h.flat, h.valid, ?_, fun hmem => h.noAtomic (hkinds ▸ hmem),
    ?_, ?_, ?_, ?_, ?_⟩
  · have hold := h.main
    grind
  · have hold := h.noBlock
    grind
  · intro j k v v' r r' hopen hj hk hr hr'
    have hopen' : m.state 0 ≠ .closed := hopen
    have hold := h.unique j k v v' r r' hopen'
    have hactive' := fun ha => hactive ha hopen'
    grind
  · grind
  · grind
  · intro hflag hopen
    exact absurd (hb hflag) hopen

theorem Watched.autoFlush (h : Watched m) (hi : m.At i 0 .paused) : Watched (m.autoFlush i) := by
  have hdeep := h.deepestWrapper
  have hlt := h.single
  have hended : ∀ o b, (b = true → m.state 0 = .closed) →
      Single { m.setStatus i (.ended o) with autoFlushing := b } := by
    intro o b hb
    rw [setStatus_eq_setTask hi]
    exact h.toSingle.unpause hi (by simp) (by simp) (by simp [Status.active]) hb
  have hunused : ∀ o b, m.state 0 ≠ .busyPrimitive →
      Unused { m.setStatus i (.ended o) with autoFlushing := b } := by
    intro o b hfree hopen j v r hj
    have hold := h.unused hfree hopen
    have hj' : (m.setStatus i (.ended o)).At j v r := hj
    grind [Status.active]
  unfold Channel.autoFlush
  simp only [hdeep]
  split
  case h_1 hm => exact (hended .returned false (by simp)).watched_of_busy hm
  case h_2 hm =>
    refine ⟨hended .returned false (by simp), fun _ => hunused _ _ (by simp [hm]), ?_⟩
    intro hidle
    cases hm.symm.trans hidle
  case h_3 tmp hm => exact absurd hm (h.flat tmp)
  case h_4 hm =>
    have hrunning : Single { m.setTask i 0 .running with autoFlushing := false } :=
      h.toSingle.unpause hi (by simp) (by simp) (fun _ => h.unused (by simp [hm])) (by simp)
    have hbusy : Single ({ m.setTask i 0 .running with autoFlushing := false }.setState 0
        .busyPrimitive) :=
      hrunning.setState (by simp) (by simp) fun hclosed => by cases hm.symm.trans hclosed
    exact hbusy.watched_of_busy (by grind)
  case h_5 hm =>
    exact (hended .returned m.autoFlushing fun _ => hm).watched_of_closed hm
  case h_6 hm => exact absurd hm h.valid

theorem Watched.endFlush (h : Watched m) (hi : m.At i 0 s) (hs : s.active = true)
    (hbuffer : m.state 0 = .closed ∨ m.buffer = []) : Watched (m.endFlush i 0) := by
  have hlt := h.single
  obtain ⟨hsingle, hunused⟩ := h.ended hi hs (t := .ended .returned) rfl
  rcases h.busy hi hs with hm | hm
  · have hend : m.endFlush i 0 =
        ((m.setStatus i (.ended .returned)).setState 0 .idle).wakeFirst 0 := by
      simp [Channel.endFlush, hm]
    have hempty : m.buffer = [] := by
      rcases hbuffer with hc | hempty
      · rw [hm] at hc
        cases hc
      · exact hempty
    have hidle : Single ((m.setStatus i (.ended .returned)).setState 0 .idle) :=
      hsingle.setState (by simp) (by simp) (by simp [hm])
    rw [hend]
    refine ⟨hidle.wakeFirst 0, ?_, ?_⟩
    · intro _ _ j v r hj
      have hold := hunused (by simp [hm])
      grind [Status.active]
    · intro _ hne
      rw [buffer_wakeFirst] at hne
      exact absurd hempty hne
  · have hend : m.endFlush i 0 = (m.setStatus i (.ended .returned)).wakeFirst 0 := by
      simp [Channel.endFlush, hm]
    rw [hend]
    exact (hsingle.wakeFirst 0).watched_of_closed (by simpa using hm)

theorem Watched.change (h : Watched m) (hi : m.At i w s) (hs : s.active = true)
    (hmode : u.mode = m.mode) (hw : u.wrappers = m.wrappers) (ht : u.tasks = m.tasks)
    (hf : u.autoFlushing = m.autoFlushing) : Watched u := by
  have hsingle := h.toSingle.congr hmode hw ht hf
  have hstate : u.state 0 = m.state 0 := by simp [state, hw]
  rcases h.busy hi hs with hm | hm
  · exact hsingle.watched_of_busy (by rw [hstate, hm])
  · exact hsingle.watched_of_closed (by rw [hstate, hm])

theorem Watched.performFailed (h : Watched m) (hi : m.At i w s) (hs : s.active = true)
    (kind : Kind) : Watched (m.performFailed i kind) := by
  refine h.setStatus hi ?_ ?_ ?_ fun _ => hs
  · rintro rfl
    cases hs
  · split <;> simp
  · split <;> simp

theorem Watched.performIo (h : Watched m) (hi : m.At i w .running) (kind : Kind) :
    Watched (m.performIo i kind) := by
  have hchange : ∀ b n, Watched { m with asserted := b, performs := n } := fun b n =>
    h.change hi rfl rfl rfl rfl rfl
  rcases performIoThen_cases m (·.performFailed i kind)
      (fun m => m.setStatus i (.performing m.buffer.length)) with
    ⟨b, n, hu, -⟩ | ⟨-, -, -, hu⟩ <;> rw [Channel.performIo, hu]
  · exact (hchange b n).performFailed (s := .running) hi rfl kind
  · exact (hchange m.asserted (m.performs + 1)).setStatus (s := .running) hi (by simp) (by simp)
      (by simp) fun _ => rfl

theorem Watched.daPerform (h : Watched m) (hi : m.At i w s) (hs : s.active = true) (k : ℕ)
    (data : List UInt8) : Watched (m.daPerform k data) := by
  rcases performIoThen_cases (m.put data) id
      (fun m => { m with calls := m.calls ++ [(k, m.buffer.length)] }) with
    ⟨b, n, hu, -⟩ | ⟨-, -, -, hu⟩ <;> rw [Channel.daPerform, hu] <;>
    exact h.change hi hs rfl rfl rfl rfl

theorem Watched.shift (h : Watched m) (hi : m.At i w s) (hs : s.active = true) (len n : ℕ) :
    Watched (m.shift len n) := by
  obtain ⟨flushed, buffer, beyond, hu⟩ := shift_cases m len n
  rw [hu]
  exact h.change hi hs rfl rfl rfl rfl

theorem Watched.performed (h : Watched m) {len : ℕ} (hi : m.At i w (.performing len)) (n : ℕ) :
    Watched (m.performed i len n) := by
  have hrunning := h.setStatus hi (t := .running) (by simp) (by simp) (by simp) fun _ => rfl
  have hi' : (m.setStatus i .running).At i w .running := by
    rw [at_setStatus]
    exact Or.inl ⟨rfl, rfl, _, hi⟩
  exact hrunning.shift hi' rfl len n

theorem Watched.give_back (h : Watched m) (hi : m.At i 0 s) (hs : s.active = true)
    (ht : t.gone = true) : Watched ((m.setStatus i t).unlock 0) := by
  obtain ⟨hsingle, hunused⟩ := h.ended hi hs ht
  exact hsingle.unlock hunused (h.busy hi hs)

theorem Watched.handler (h : Watched m) (hi : m.At i 0 s) (hs : s.active = true) (kind : Kind)
    (o : Outcome) : Watched (((m.setStatus i .called).unlock 0).fail i kind o) := by
  have hi' : (m.setStatus i .called).At i 0 .called := by
    rw [at_setStatus]
    exact Or.inl ⟨rfl, rfl, _, hi⟩
  exact (h.give_back hi hs rfl).fail (hi'.unlock (by simp) 0) (by simp) kind o

theorem Watched.closes (h : Watched m) (hi : m.At i 0 s) (hs : s.active = true) :
    Watched (m.closes i 0) := by
  have hi' := (at_abort m 0 i 0 s).mpr hi
  unfold Channel.closes
  simp only
  split
  · refine h.abort.setStatus hi' ?_ (by simp) (by simp) fun _ => hs
    rintro rfl
    cases hs
  · exact h.abort.handler hi' hs _ _

/-! ## Failures and calls of `da_perform` -/

/-- The task `i` executes an operation. -/
def Operates (m : Channel) (i : ℕ) : Prop :=
  ∃ w s, m.tasks[i]? = some ⟨.primitive, w, s⟩ ∧ s.operates = true

/-- The flush of an auto-flusher fails only on a closed channel, and who has called `da_perform` is
still executing its operation. -/
structure Flushing (m : Channel) : Prop where
  normal : m.typ = .normal
  failed : ∀ x ∈ m.tasks, x.status = .flushFailed → x.kind = .close ∨ m.state 0 = .closed
  calls : ∀ c ∈ m.calls, m.Operates c.1

theorem Operates.at (h : m.Operates i) : ∃ w s, m.At i w s ∧ s.active = true := by
  obtain ⟨w, s, hi, hs⟩ := h
  exact ⟨w, s, ⟨_, hi⟩, by cases s <;> first | rfl | cases hs⟩

end Channel

open Channel

/-- No atomic block is started, and no flush of an auto-flusher fails. -/
def unfailing (m : Channel) : Step → Bool
  | .atomic _ => false
  | .performFails i => decide (m.tasks[i]?.map (·.kind) ≠ some .autoFlush)
  | _ => true

/-- No `direct_access` ends while a `da_perform` of it waits, and none is called after its end. -/
def awaited (m : Channel) : Step → Bool
  | .finish i => m.calls.all fun c => decide (c.1 ≠ i)
  | .daPerform i _ => (m.tasks[i]?).any (·.status.operates)
  | _ => true

theorem watched_make (length : ℕ) : (make .normal .output length).Watched := by
  have hnone : ∀ i w s, ¬ (make .normal .output length).At i w s := by simp [make, At]
  refine ⟨⟨rfl, rfl, by simp [make, state], by simp [make, state], ?_, by simp [make,
    kinds], ?_, ?_, ?_, ?_,
    by simp [make]⟩, ?_, by simp [make]⟩
  · exact fun i w s h => absurd h (hnone i w s)
  · exact fun i w tmp => hnone i w _
  · exact fun i _ w _ s _ _ h => absurd h (hnone i w s)
  · exact fun i w h => absurd h (hnone i w _)
  · exact fun i _ w _ h => absurd h (hnone i w _)
  · exact fun _ _ i w s h => absurd h (hnone i w s)

theorem watched_step {a : Step} (h : m.Watched) (hf : m.Flushing) (ha : unfailing m a = true)
    (hawaited : awaited m a = true) (hu : Stepped m a u) : u.Watched := by
  have hlt := h.single
  cases hu with
  | call kind w a hw hcall =>
    -- the main wrapper is the only one
    obtain rfl : w = 0 := by omega
    refine h.call ?_
    rintro rfl
    rcases hcall with ⟨-, hkind⟩ | ⟨rfl, -⟩ | ⟨-, hkind, -⟩
    · cases hkind
    · cases ha
    · cases hkind
  | abort kind w a hw habort =>
    obtain rfl : w = 0 := by omega
    refine h.abort.addTask ?_ (by simp) (by simp) rfl
    rcases habort with ⟨-, rfl⟩ | ⟨-, rfl, -⟩ <;> simp
  | writeChar w b _ hw =>
    have hw' := lt_of_state (m := m) (w := w) (by simp [hw])
    obtain rfl : w = 0 := by omega
    exact h.writeChar hw b
  | resume i w kind hi =>
    obtain rfl := h.main i w _ ⟨kind, hi⟩
    refine h.resume ⟨kind, hi⟩ ?_
    rintro rfl
    exact h.noAtomic (List.mem_map.mpr ⟨_, List.mem_of_getElem? hi, rfl⟩)
  | cancel i w hi => exact h.setStatus hi (by simp) (by simp) (by simp) (by simp [Status.active])
  | runCanceled i w kind hi => exact (h.setQueued _).fail (w := w) ⟨kind, hi⟩ (by simp) kind _
  | write i w b hi => exact h.change hi rfl rfl rfl rfl rfl
  | resize i w length hi => exact h.change hi rfl rfl rfl rfl rfl
  | performIo i w kind hi => exact h.performIo ⟨kind, hi⟩ kind
  | performed i w len n hi => exact h.performed hi n
  | performFails i w len kind hi => exact h.performFailed ⟨kind, hi⟩ rfl kind
  | daPerform i w data s hi =>
    -- the call is awaited, so that the operation is still under way
    have hs : s.operates = true := by simpa [awaited, hi] using hawaited
    obtain ⟨w, s, hi, hs⟩ := Operates.at ⟨w, s, hi, hs⟩
    exact h.daPerform hi hs i data
  | daPerformed k i len n hk =>
    obtain ⟨w, s, hi, hs⟩ := (hf.calls _ (List.mem_of_getElem? hk)).at
    have hdrop : (m.dropCall k).Watched := h.change hi hs rfl rfl rfl rfl
    exact hdrop.shift (s := s) hi hs len n
  | daFails k hk =>
    obtain ⟨w, s, hi, hs⟩ := (hf.calls _ (List.getElem_mem hk)).at
    exact h.change hi hs rfl rfl rfl rfl
  | flush i w hi =>
    obtain rfl := h.main i w _ hi
    exact h.autoFlush hi
  | closes i w s hi hs =>
    obtain rfl := h.main i w _ ⟨_, hi⟩
    exact h.closes ⟨_, hi⟩ (active_of_flushOver hs)
  | closeFails i w hi =>
    obtain rfl := h.main i w _ hi
    exact h.handler hi rfl _ _
  | endFlush i w s hi hs =>
    obtain rfl := h.main i w _ ⟨_, hi⟩
    refine h.endFlush ⟨_, hi⟩ (active_of_flushOver hs) ?_
    cases s with
    | running => exact Or.inr (List.isEmpty_iff.mp hs)
    | flushFailed =>
      rcases hf.failed _ (List.mem_of_getElem? hi) rfl with hkind | hclosed
      · cases hkind
      · exact Or.inl hclosed
    | _ => cases hs
  | ends i w kind s o hi hs =>
    obtain rfl := h.main i w _ ⟨_, hi⟩
    exact h.give_back ⟨_, hi⟩ (by rcases hs with ⟨rfl, -⟩ | ⟨rfl, -⟩ <;> rfl) rfl
  | endBlock i w tmp hi => exact absurd hi (h.noBlock i w tmp)

theorem flushing_make (length : ℕ) : (make .normal .output length).Flushing :=
  ⟨rfl, by simp [make], by simp [make]⟩

/-- An auto-flusher calls `perform_io` on a channel that is not closed: it waits. -/
theorem Channel.Watched.waits (h : m.Watched) (hsealed : m.Sealed) (hi : m.At i w s)
    (hs : s.active = true) (hopen : m.state 0 ≠ .closed) :
    (m.state 0).busy = true ∧ m.aborted = false := by
  rcases h.busy hi hs with hm | hm
  · exact ⟨by simp [hm, State.busy], Bool.eq_false_iff.mpr fun ha => hopen (hsealed.aborted.mp ha)⟩
  · exact absurd hm hopen

theorem flushing_plain {a : Step} (h : m.Flushing) (hstays : Stays m u) (ha : a.plain = true)
    (hawaited : awaited m a = true) (hu : Stepped m a u) : u.Flushing := by
  obtain ⟨j, hframe, hj⟩ := frame_step hu ha
  refine ⟨hframe.typ.trans h.normal, fun x hx hs => ?_, fun c hc => ?_⟩
  · rcases h.failed x (hframe.fresh x hx hs) hs with hkind | hclosed
    · exact Or.inl hkind
    · exact Or.inr (hstays hclosed).1
  · rw [hframe.calls] at hc
    obtain ⟨w, s, hi, hs⟩ := h.calls c hc
    by_cases hne : c.1 = j
    · subst hne
      rcases hj w s hi hs with rfl | ⟨n, rfl⟩
      · -- the end of an operation that has a call under way is what is excluded
        have hnone := List.all_eq_true.mp hawaited c hc
        simp at hnone
      · cases hu with
        | call _ _ _ _ hcall => simp at hcall
        | abort _ _ _ _ habort => simp at habort
        | performed i v len n hi' =>
          refine ⟨w, .running, ?_, rfl⟩
          obtain ⟨flushed, buffer, beyond, hshift⟩ := shift_cases (m.setStatus c.1 .running) len n
          rw [Channel.performed, hshift]
          exact task_setStatus hi .running
    · exact ⟨w, s, hframe.kept c.1 _ hne hi hs, hs⟩

theorem flushing_step {a : Step} (h : m.Flushing) (hw : m.Watched) (hsealed : m.Sealed)
    (hstays : Stays m u) (ha : unfailing m a = true) (hawaited : awaited m a = true)
    (hu : Stepped m a u) : u.Flushing := by
  by_cases hplain : a.plain = true
  · exact flushing_plain h hstays hplain hawaited hu
  -- an operation goes on with another status
  have hgoes : ∀ {i v : ℕ} {r t : Status} {kind : Kind}, m.tasks[i]? = some ⟨kind, v, r⟩ →
      (kind = .primitive → t.operates = true) → ∀ c ∈ m.calls, (m.setStatus i t).Operates c.1 := by
    intro i v r t kind hi ht c hc
    obtain ⟨w, s, hj, hs⟩ := h.calls c hc
    by_cases hne : c.1 = i
    · rw [hne, hi] at hj
      obtain ⟨rfl, -, -⟩ : kind = .primitive ∧ v = w ∧ r = s := by simpa using hj
      exact ⟨v, t, hne ▸ task_setStatus hi t, ht rfl⟩
    · exact ⟨w, s, by simpa [Channel.setStatus, List.getElem?_modify, Ne.symm hne] using hj, hs⟩
  have hmain : m.state 0 = .closed → u.state 0 = .closed := fun hm => (hstays hm).1
  -- the flush of a task fails
  have hfails : ∀ {i v : ℕ} {r : Status} {kind : Kind}, m.tasks[i]? = some ⟨kind, v, r⟩ →
      (kind = .autoFlush → m.state 0 = .closed) → ∀ x ∈ (m.performFailed i kind).tasks,
      x.status = .flushFailed → x.kind = .close ∨ m.state 0 = .closed := by
    intro i v r kind hi hflush x hx hs
    rcases mem_setStatus hx with hx | ⟨y, hy, rfl⟩
    · exact h.failed x hx hs
    · rw [hi] at hy
      cases hy
      cases kind with
      | close => exact Or.inl rfl
      | autoFlush => exact Or.inr (hflush rfl)
      | primitive | atomic | abort => cases hs
  have hoperates : ∀ kind : Kind, kind = .primitive →
      (if kind.flushes then Status.flushFailed else .running).operates = true := by
    rintro _ rfl
    rfl
  cases hu with
  | performIo i w kind hi =>
    rcases performIoThen_cases m (·.performFailed i kind)
        (fun m => m.setStatus i (.performing m.buffer.length)) with
      ⟨b, n, hu, -, -, hwhy⟩ | ⟨-, -, -, hu⟩ <;> rw [Channel.performIo, hu]
    · refine ⟨h.normal, ?_, hgoes hi (hoperates kind)⟩
      refine hfails hi fun hkind => ?_
      by_contra hopen
      obtain ⟨hbusy, haborted⟩ := hw.waits hsealed ⟨kind, hi⟩ rfl hopen
      rw [hwhy hbusy h.normal] at haborted
      cases haborted
    · refine ⟨h.normal, fun x hx hs => ?_, hgoes hi fun _ => rfl⟩
      rcases mem_setStatus (m := { m with performs := m.performs + 1 }) hx with hx | ⟨y, -, rfl⟩
      · exact h.failed x hx hs
      · cases hs
  | performFails i w len kind hi =>
    refine ⟨h.normal, ?_, hgoes hi (hoperates kind)⟩
    refine hfails hi fun hkind => ?_
    subst hkind
    simp [unfailing, hi] at ha
  | daPerform i w data s hi =>
    have hs : s.operates = true := by simpa [awaited, hi] using hawaited
    rcases performIoThen_cases (m.put data) id
        (fun m => { m with calls := m.calls ++ [(i, m.buffer.length)] }) with
      ⟨b, n, hu, -⟩ | ⟨-, -, -, hu⟩ <;> rw [Channel.daPerform, hu]
    · exact ⟨h.normal, h.failed, h.calls⟩
    · refine ⟨h.normal, h.failed, fun c hc => ?_⟩
      rcases List.mem_append.mp hc with hc | hc
      · exact h.calls c hc
      · obtain rfl := List.mem_singleton.mp hc
        exact ⟨w, s, hi, hs⟩
  | daPerformed k i len n =>
    obtain ⟨flushed, buffer, beyond, hu⟩ := shift_cases (m.dropCall k) len n
    rw [hu]
    exact ⟨h.normal, h.failed, fun c hc => h.calls c (List.mem_of_mem_eraseIdx hc)⟩
  | daFails k => exact ⟨h.normal, h.failed, fun c hc => h.calls c (List.mem_of_mem_eraseIdx hc)⟩
  | call _ _ _ _ hcall =>
    rcases hcall with ⟨rfl, -⟩ | ⟨rfl, -⟩ | ⟨rfl, -⟩ <;> exact absurd rfl hplain
  | abort _ _ _ _ habort => rcases habort with ⟨rfl, -⟩ | ⟨rfl, -⟩ <;> exact absurd rfl hplain
  | _ => exact absurd rfl hplain

theorem flat_step {a : Step} (h : m.Watched) (hu : Stepped m a u) : Flat m a := by
  have hatomic : (m.state 0).isAtomic = false := by
    cases hstate : m.state 0 with
    | busyAtomic tmp => exact absurd hstate (h.flat tmp)
    | _ => rfl
  intro w hw
  have hmain : w = 0 := by
    have hlt := h.single
    cases hu with
    | call kind v a hv hcall =>
      rcases hcall with ⟨rfl, -⟩ | ⟨rfl, -⟩ | ⟨rfl, -, hmode, -⟩
      · cases hw
      · cases hw
      · simp [aborts, hmode] at hw
    | abort kind v a hv habort =>
      rcases habort with ⟨rfl, -⟩ | ⟨rfl, -, hmode, -⟩
      · obtain rfl : v = w := by simpa [aborts] using hw
        omega
      · simpa [aborts, hmode, eq_comm] using hw
    | resume i v kind hi | runCanceled i v kind hi =>
      simp only [aborts, hi, Option.bind_some, Option.mem_def] at hw
      split at hw <;> simp_all
    | closes => simpa [aborts, eq_comm] using hw
    | _ => simp [aborts] at hw
  exact ⟨fun _ => hatomic, fun hne => absurd hmain hne⟩

/-- In every run without atomic blocks and without failing flushes in which no `direct_access` ends
while a `da_perform` of it waits, and none is called after its end: when the channel is idle and its
buffer is not empty, the flag is set and an auto-flusher is paused; and there is never more than
one. -/
theorem buffered_is_scheduled (length : ℕ)
    (hreach : Reach step (fun m a => unfailing m a = true ∧ awaited m a = true)
      (make .normal .output length) m) :
    (m.state 0 = .idle → 0 < m.buffer.length →
      m.autoFlushing = true ∧ ∃ i, m.At i 0 .paused) ∧
    ∀ i j w v, m.At i w .paused → m.At j v .paused → i = j := by
  have h : m.Watched ∧ m.Sealed ∧ m.Flushing := by
    refine hreach.invariant (P := fun m => m.Watched ∧ m.Sealed ∧ m.Flushing)
      ⟨watched_make length, sealed_make .normal .output length, flushing_make length⟩ ?_
    rintro m a u ⟨hw, hsealed, hf⟩ ⟨ha, hawaited⟩ hu
    have hu' := step_cases (by simp [hw.single]) hu
    obtain ⟨hsealed', hstays⟩ := sealed_step hsealed (flat_step hw hu') hu'
    exact ⟨watched_step hw hf ha hawaited hu', hsealed',
      flushing_step hf hw hsealed hstays ha hawaited hu'⟩
  refine ⟨fun hidle hbuffer => ?_, h.1.once⟩
  have hflag := h.1.scheduled hidle (List.ne_nil_of_length_pos hbuffer)
  exact ⟨hflag, h.1.paused hflag (by simp [hidle])⟩

/-- A character is written by the fast path, the auto-flusher flushes it while an operation waits
in the queue, and that operation leaves a byte in the buffer. -/
theorem buffered_is_scheduled_after_queue :
    ∃ m, Reach step (fun m a => unfailing m a = true ∧ awaited m a = true)
        (make .normal .output 16) m ∧
      m.state 0 = .idle ∧ m.buffer = [98] ∧ m.autoFlushing = true ∧ ∃ i, m.At i 0 .paused := by
  obtain ⟨m, hm⟩ : ∃ m, replay (checked step fun m a => unfailing m a && awaited m a)
      (make .normal .output 16)
      [.writeChar 0 97, .flush 0, .primitive 0, .performIo 0, .performed 0 1, .finish 0,
        .resume 1, .write 1 98, .finish 1] = some m := ⟨_, rfl⟩
  have hreach := (reach_of_checked _ hm).mono
    (k := fun m a => unfailing m a = true ∧ awaited m a = true) fun m a h => by simpa using h
  obtain ⟨hidle, hbuffer⟩ : m.state 0 = .idle ∧ m.buffer = [98] := by
    cases hm.symm.trans rfl
    exact ⟨rfl, rfl⟩
  exact ⟨m, hreach, hidle, hbuffer,
    (buffered_is_scheduled 16 hreach).1 hidle (by rw [hbuffer]; decide)⟩

/-- A `direct_access` writes three bytes and ends without waiting for its `da_perform`; the
auto-flusher flushes them, and the late result of the perform function, which has taken nothing,
puts them in the buffer again. -/
theorem late_da_perform_is_not_scheduled :
    ¬ ∀ m, Reach step (fun m a => unfailing m a = true) (make .normal .output 16) m →
      m.state 0 = .idle → 0 < m.buffer.length → m.autoFlushing = true := by
  intro hall
  obtain ⟨m, hm⟩ : ∃ m, replay (checked step unfailing) (make .normal .output 16)
      [.primitive 0, .daPerform 0 [1, 2, 3], .finish 0, .flush 1, .performIo 1, .performed 1 3,
        .finish 1, .daPerformed 0 0] = some m := ⟨_, rfl⟩
  have hflag := hall m (reach_of_checked _ hm)
  cases hm.symm.trans rfl
  revert hflag
  decide

end Lwt.Io
