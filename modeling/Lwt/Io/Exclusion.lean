import Mathlib.Logic.Relation
import Lwt.Io.Frame
import Lwt.Io.Locks

/-!
# One operation at a time

When no atomic block ends while something still holds its temporary wrapper, the wrappers that are
not `Invalid` form one chain from the main one to the deepest, and only the deepest can be held by
an operation.  So one operation at a time works on the buffer, and every byte that is written is
either still in the buffer or has been given to the perform function.  A `da_perform` that waits
belongs to the operation that executes, as long as the function of its `direct_access` waits for it.
-/

namespace Lwt.Io

open Transition

variable {m u : Channel} {i j v w tmp : ℕ} {s t : Status} {x : State} {o : Outcome}

namespace Channel

/-- A wrapper that is valid is the main one or belongs to an atomic block on a valid one. -/
structure Nested (m : Channel) : Prop where
  main : m.state 0 ≠ .invalid
  nested : ∀ w, w ≠ 0 → m.state w ≠ .invalid → ∃ p, m.state p = .busyAtomic w
  valid : ∀ i w s, m.At i w s → s.holds = true → m.state w ≠ .invalid

/-- `q` is the temporary wrapper of an atomic block on `p`. -/
def Above (m : Channel) (p q : ℕ) : Prop := m.state p = .busyAtomic q

theorem Locked.chain (h : Locked m) (hm : Nested m) (w : ℕ) (hw : m.state w ≠ .invalid) :
    Relation.ReflTransGen m.Above 0 w := by
  induction w using Nat.strongRecOn with
  | ind w ih =>
    by_cases hmain : w = 0
    · exact hmain ▸ .refl
    · obtain ⟨p, hp⟩ := hm.nested w hmain hw
      exact .tail (ih p (h.atomic p w hp).1 (by simp [hp])) hp

/-- Only one valid wrapper is not that of an atomic block. -/
theorem Locked.open_unique (h : Locked m) (hm : Nested m) (hv : m.state v ≠ .invalid)
    (hw : m.state w ≠ .invalid) (hv' : ∀ tmp, m.state v ≠ .busyAtomic tmp)
    (hw' : ∀ tmp, m.state w ≠ .busyAtomic tmp) : v = w := by
  have hunique : Relator.RightUnique m.Above := by
    intro p q r hq hr
    have hqr : State.busyAtomic q = .busyAtomic r := hq.symm.trans hr
    cases hqr
    rfl
  rcases Relation.ReflTransGen.total_of_right_unique hunique (h.chain hm v hv) (h.chain hm w hw)
    with hvw | hwv
  · rcases hvw.cases_head with rfl | ⟨tmp, hstep, -⟩
    · rfl
    · exact absurd hstep (hv' tmp)
  · rcases hwv.cases_head with rfl | ⟨tmp, hstep, -⟩
    · rfl
    · exact absurd hstep (hw' tmp)

theorem Locked.active_open (h : Locked m) (hm : Nested m) (hi : m.At i w s) (hs : s.active = true) :
    m.state w ≠ .invalid ∧ m.state w ≠ .idle ∧ ∀ tmp, m.state w ≠ .busyAtomic tmp := by
  have hallows := h.allows i w s hi (Status.uses_of_active hs)
  refine ⟨hm.valid i w s hi (Status.holds_of_active hs), ?_, ?_⟩
  · intro hw
    rw [hw] at hallows
    obtain rfl : s = .woken := hallows
    cases hs
  · intro tmp hw
    rw [hw] at hallows
    obtain rfl : s = .block tmp := hallows
    cases hs

theorem Locked.active_unique (h : Locked m) (hm : Nested m) (hi : m.At i v s) (hj : m.At j w t)
    (hs : s.active = true) (ht : t.active = true) : i = j := by
  obtain ⟨hv, -, hv'⟩ := h.active_open hm hi hs
  obtain ⟨hw, -, hw'⟩ := h.active_open hm hj ht
  obtain rfl := h.open_unique hm hv hw hv' hw'
  exact h.unique i j v s t hi hj (Status.uses_of_active hs) (Status.uses_of_active ht)

theorem Locked.not_active (h : Locked m) (hm : Nested m) (hv : m.state v = .idle)
    (hi : m.At i w s) : s.active = false := by
  by_contra hs
  have hs' : s.active = true := by simpa using hs
  obtain ⟨hw, hidle, hw'⟩ := h.active_open hm hi hs'
  obtain rfl := h.open_unique hm (v := v) (w := w) (by simp [hv]) hw (by simp [hv]) hw'
  exact hidle hv

/-! ## Steps that keep the chain -/

/-- What most functions keep: the bytes, the calls of the perform function that are waited for, and
the chain of wrappers. -/
structure Keeps (m u : Channel) : Prop where
  buffer : u.buffer = m.buffer
  flushed : u.flushed = m.flushed
  written : u.written = m.written
  asserted : u.asserted = m.asserted
  performing : ∀ i w len, u.At i w (.performing len) → m.At i w (.performing len)
  nested : m.Nested → u.Nested

theorem Keeps.refl (m : Channel) : Keeps m m := ⟨rfl, rfl, rfl, rfl, fun _ _ _ h => h, id⟩

theorem Keeps.trans {r : Channel} (h : Keeps m u) (h' : Keeps u r) : Keeps m r where
  buffer := h'.buffer.trans h.buffer
  flushed := h'.flushed.trans h.flushed
  written := h'.written.trans h.written
  asserted := h'.asserted.trans h.asserted
  performing := fun i w len hi => h.performing i w len (h'.performing i w len hi)
  nested := fun hm => h'.nested (h.nested hm)

theorem Nested.congr (h : Nested m) (hw : u.wrappers = m.wrappers) (ht : u.tasks = m.tasks) :
    Nested u := by
  cases m
  cases u
  cases hw
  cases ht
  exact ⟨h.main, h.nested, h.valid⟩

/-- A wrapper that is valid and has no atomic block stays so, and nothing gets hold of an invalid
one. -/
theorem Nested.of_states (hm : Nested m)
    (hstates : ∀ w, u.state w = m.state w ∨ ((m.state w ≠ .invalid ∧ u.state w ≠ .invalid) ∧
      ∀ tmp, m.state w ≠ .busyAtomic tmp))
    (hholders : ∀ i w s, u.At i w s → s.holds = true →
      (∃ t, m.At i w t ∧ t.holds = true) ∨ m.state w ≠ .invalid) : Nested u := by
  have hvalid : ∀ w, u.state w ≠ .invalid ↔ m.state w ≠ .invalid := by
    intro w
    rcases hstates w with hw | ⟨⟨hw, hw'⟩, -⟩
    · rw [hw]
    · exact iff_of_true hw' hw
  refine ⟨(hvalid 0).mpr hm.main, ?_, ?_⟩
  · intro w hmain hw
    obtain ⟨p, hp⟩ := hm.nested w hmain ((hvalid w).mp hw)
    rcases hstates p with hp' | ⟨-, hp'⟩
    · exact ⟨p, hp'.trans hp⟩
    · exact absurd hp (hp' w)
  · intro i w s hi hs
    rw [hvalid]
    rcases hholders i w s hi hs with ⟨t, ht, hholds⟩ | hw
    · exact hm.valid i w t ht hholds
    · exact hw

theorem Keeps.addTask (m : Channel) (kind : Kind) (w : ℕ) (ht : t.holds = false) :
    Keeps m (m.addTask kind w t) := by
  have hat : ∀ i v r, (m.addTask kind w t).At i v r → r.holds = true → m.At i v r := by
    intro i v r hi hr
    rcases (at_addTask m kind w v i t r).mp hi with ⟨-, -, rfl⟩ | hi
    · simp [ht] at hr
    · exact hi
  exact ⟨rfl, rfl, rfl, rfl, fun i w len hi => hat i w _ hi rfl,
    fun hm => hm.of_states (fun w => Or.inl rfl) fun i w s hi hs => Or.inl ⟨s, hat i w s hi hs, hs⟩⟩

theorem Keeps.launchFlusher (m : Channel) : Keeps m m.launchFlusher := by
  have h := Keeps.addTask m (t := .paused) .autoFlush 0 rfl
  exact ⟨rfl, rfl, rfl, rfl, h.performing, fun hm =>
    (h.nested hm).congr rfl rfl⟩

theorem Keeps.setStatus (hi : m.At i w s) (ht : t.holds = true → s.holds = true)
    (hperforming : ∀ len, t ≠ .performing len) : Keeps m (m.setStatus i t) := by
  refine ⟨rfl, rfl, rfl, rfl, ?_, ?_⟩
  · intro j v len hj
    grind
  · intro hm
    refine hm.of_states (fun w => Or.inl rfl) ?_
    intro j v r hj hr
    rcases (at_setStatus m i j v t r).mp hj with ⟨rfl, rfl, r', hi'⟩ | ⟨-, hj⟩
    · obtain ⟨rfl, rfl⟩ := hi.unique hi'
      exact Or.inl ⟨s, hi, ht hr⟩
    · exact Or.inl ⟨r, hj, hr⟩

theorem Keeps.setState (m : Channel) (w : ℕ) (hw : m.state w ≠ .invalid) (hx : x ≠ .invalid)
    (hatomic : ∀ tmp, m.state w ≠ .busyAtomic tmp) : Keeps m (m.setState w x) := by
  refine ⟨rfl, rfl, rfl, rfl, fun i w len hi => hi, ?_⟩
  intro hm
  refine hm.of_states ?_ fun i w s hi hs => Or.inl ⟨s, hi, hs⟩
  intro v
  by_cases hv : v = w
  · subst hv
    right
    grind
  · left
    grind

theorem Keeps.setQueued (m : Channel) (w : ℕ) (q : List ℕ) : Keeps m (m.setQueued w q) :=
  ⟨rfl, rfl, rfl, rfl, fun _ _ _ hi => hi,
    fun hm => hm.of_states (fun v => Or.inl (state_setQueued m w v q))
      fun _ _ s hi hs => Or.inl ⟨s, hi, hs⟩⟩

theorem At.of_wakeFirst (h : (m.wakeFirst w).At i v s) (hs : s.holds = true) : m.At i v s := by
  rcases (at_wakeFirst m w i v s).mp h with ⟨-, rfl, -⟩ | ⟨hi, -⟩
  · cases hs
  · exact hi

theorem Keeps.wakeFirst (m : Channel) (w : ℕ) : Keeps m (m.wakeFirst w) := by
  have hdata : (m.wakeFirst w).buffer = m.buffer ∧ (m.wakeFirst w).flushed = m.flushed ∧
      (m.wakeFirst w).written = m.written ∧ (m.wakeFirst w).asserted = m.asserted := by
    unfold Channel.wakeFirst
    split <;> exact ⟨rfl, rfl, rfl, rfl⟩
  exact ⟨hdata.1, hdata.2.1, hdata.2.2.1, hdata.2.2.2, fun i v len hi => hi.of_wakeFirst rfl,
    fun hm => hm.of_states (fun v => Or.inl (state_wakeFirst m w v))
      fun i v s hi hs => Or.inl ⟨s, hi.of_wakeFirst hs, hs⟩⟩

theorem Keeps.unlock (hw : m.state w = .busyPrimitive ∨ m.state w = .closed ∨
    m.state w = .invalid) :
    Keeps m (m.unlock w) := by
  have hset : (m.state w).busy = true → ∀ x, x ≠ .invalid → Keeps m (m.setState w x) := by
    intro hbusy x hx
    refine Keeps.setState m w ?_ hx ?_
    · intro h
      simp [h, State.busy] at hbusy
    · intro tmp h
      simp [h] at hw
  rcases unlock_cases m w with ⟨hbusy, -, hu | hu⟩ | ⟨hbusy, -, hu⟩ | ⟨-, hu⟩ | ⟨hidle, -⟩
  · rw [hu]
    exact hset hbusy .idle (by simp)
  · rw [hu]
    exact (hset hbusy .idle (by simp)).trans (Keeps.launchFlusher _)
  · rw [hu]
    exact (hset hbusy .waitingForBusy (by simp)).trans (Keeps.wakeFirst _ w)
  · rw [hu]
    exact Keeps.wakeFirst m w
  · rcases hidle with h | h <;> simp [h] at hw

theorem Locked.keeps_abort (h : Locked m) (w : ℕ) : Keeps m (m.abort w).1 := by
  have hdeep := state_deepestWrapper (fun w tmp hw => (h.atomic w tmp hw).1) w
  have hset : m.state (m.deepestWrapper w) ≠ .invalid →
      Keeps m (m.setState (m.deepestWrapper w) .closed) := fun hw =>
    Keeps.setState m _ hw (by simp) hdeep
  rcases abort_cases m w with ⟨-, hu⟩ | ⟨-, hu⟩ | ⟨-, hw, ⟨-, hu⟩ | ⟨-, hu⟩⟩ <;> rw [hu]
  · exact Keeps.refl m
  · exact Keeps.refl m
  · exact ⟨rfl, rfl, rfl, rfl, fun _ _ _ hi => hi, fun hm =>
      ((hset hw).nested hm).congr rfl rfl⟩
  · exact ⟨rfl, rfl, rfl, rfl, fun _ _ _ hi => hi, fun hm =>
      ((hset hw).nested hm).congr rfl rfl⟩

theorem Locked.keeps_fail (h : Locked m) (hi : m.At i w s) (kind : Kind) (o : Outcome) :
    Keeps m (m.fail i kind o) := by
  unfold Channel.fail
  split
  · have hi' : (m.abort 0).1.At i w s := by simpa using hi
    exact (h.keeps_abort 0).trans (Keeps.setStatus hi' (by rintro ⟨⟩) (by simp))
  · exact Keeps.setStatus hi (by rintro ⟨⟩) (by simp)

theorem Locked.keeps_enter (h : Locked m) (hi : m.At i w s)
    (hw : m.state w = .idle ∨ m.state w = .waitingForBusy) (kind : Kind) :
    Keeps m (m.enter i kind w) := by
  have hvalid : m.state w ≠ .invalid := by rcases hw with hw | hw <;> simp [hw]
  have hlt := lt_of_state hvalid
  cases kind with
  | atomic =>
    rw [enter_atomic hlt]
    refine ⟨rfl, rfl, rfl, rfl, ?_, ?_⟩
    · intro j v len hj
      grind
    · intro hm
      refine ⟨?_, ?_, ?_⟩
      · have hmain := hm.main
        grind
      · intro v hv hstate
        by_cases hnew : v = m.wrappers.length
        · exact ⟨w, by grind⟩
        · have hold : m.state v ≠ .invalid := by grind
          obtain ⟨p, hp⟩ := hm.nested v hv hold
          have hlt' := lt_of_state (m := m) (w := p) (by simp [hp])
          exact ⟨p, by grind⟩
      · intro j v r hj hr
        have hold := hm.valid j v
        have hinside := h.inside j v
        grind
  | _ =>
    have hset : Keeps m (m.setState w .busyPrimitive) := by
      refine Keeps.setState m w hvalid (by simp) ?_
      intro tmp htmp
      simp [htmp] at hw
    refine ⟨rfl, rfl, rfl, rfl, ?_, ?_⟩
    · intro j v len hj
      change ((m.setState w .busyPrimitive).setStatus i .running).At j v (.performing len) at hj
      grind
    · intro hm
      refine (hset.nested hm).of_states (fun v => Or.inl rfl) ?_
      intro j v r hj hr
      rcases (at_setStatus (m.setState w .busyPrimitive) i j v .running r).mp hj with
        ⟨rfl, rfl, r', hi'⟩ | ⟨-, hj⟩
      · obtain ⟨rfl, -⟩ := hi.unique hi'
        right
        rw [state_setState]
        simp [hlt]
      · exact Or.inl ⟨r, hj, hr⟩

theorem Locked.keeps_call (h : Locked m) (kind : Kind) (hw : w < m.wrappers.length) :
    Keeps m (m.call kind w) := by
  have hcalled := h.addTask (t := .called) kind hw rfl (by simp)
  have hnew : (m.addTask kind w .called).At m.tasks.length w .called := by grind
  have hadd := Keeps.addTask m (t := .called) kind w rfl
  have hfail := fun o => hadd.trans (hcalled.keeps_fail hnew kind o)
  unfold Channel.call
  cases hstate : m.state w with
  | idle => exact hadd.trans (hcalled.keeps_enter hnew (Or.inl hstate) kind)
  | busyPrimitive | busyAtomic | waitingForBusy =>
    exact (Keeps.addTask m (t := .queued) kind w rfl).trans (Keeps.setQueued _ w _)
  | closed | invalid => exact hfail _

theorem Locked.keeps_unlock_fail (h : Locked m) (hi : m.At i w s) (hs : s.uses = true)
    (hw : m.state w = .busyPrimitive ∨ m.state w = .closed ∨ m.state w = .invalid) (kind : Kind)
    (o : Outcome) : Keeps m (((m.setStatus i .called).unlock w).fail i kind o) := by
  have hi' : (m.setStatus i .called).At i w .called := by grind
  have hcalled : Keeps m (m.setStatus i .called) := Keeps.setStatus hi (by rintro ⟨⟩) (by simp)
  have hunlock : Keeps _ ((m.setStatus i .called).unlock w) := Keeps.unlock (by simpa using hw)
  exact (hcalled.trans hunlock).trans
    ((h.vacate hi hs rfl).unlock.keeps_fail (hi'.unlock (by simp) w) kind o)

theorem Locked.keeps_resume (h : Locked m) (hi : m.At i w .woken) (kind : Kind) :
    Keeps m (m.resume i kind w) := by
  have hallows := h.allows i w .woken hi rfl
  unfold Channel.resume
  cases hstate : m.state w with
  | closed => exact h.keeps_unlock_fail hi rfl (by simp [hstate]) kind _
  | idle => exact h.keeps_enter hi (Or.inl hstate) kind
  | waitingForBusy => exact h.keeps_enter hi (Or.inr hstate) kind
  | invalid => exact h.keeps_fail hi kind _
  | busyPrimitive | busyAtomic => simp [hstate, State.Allows, Status.active] at hallows

theorem Locked.state_of_active (h : Locked m) (hi : m.At i w s) (hs : s.active = true) :
    m.state w = .busyPrimitive ∨ m.state w = .closed ∨ m.state w = .invalid := by
  have hallows := h.allows i w s hi (Status.uses_of_active hs)
  cases hstate : m.state w with
  | busyPrimitive | closed | invalid => simp
  | busyAtomic | idle | waitingForBusy =>
    rw [hstate] at hallows
    obtain rfl := hallows
    cases hs

theorem Locked.keeps_autoFlush (h : Locked m) (hi : m.At i w .paused) :
    Keeps m (m.autoFlush i) := by
  rcases autoFlush_cases (fun w tmp hw => (h.atomic w tmp hw).1) i with
    ⟨hstate, hu⟩ | ⟨-, b, hu⟩ <;> rw [hu]
  · have hlt : m.deepestWrapper 0 < m.wrappers.length := lt_of_state (by simp [hstate])
    have hset : Keeps m (m.setState (m.deepestWrapper 0) .busyPrimitive) :=
      Keeps.setState m _ (by simp [hstate]) (by simp) (by simp [hstate])
    have hat := at_setTask (m.setState (m.deepestWrapper 0) .busyPrimitive) i (m.deepestWrapper 0)
    refine ⟨rfl, rfl, rfl, rfl, ?_, ?_⟩
    · intro j v len hj
      rcases (hat j v .running _).mp hj with ⟨-, -, hrunning, -⟩ | ⟨-, hj⟩
      · cases hrunning
      · exact hj
    · intro hm
      refine (hset.nested hm).of_states (fun v => Or.inl rfl) ?_
      intro j v r hj hr
      rcases (hat j v .running r).mp hj with ⟨-, rfl, -, -⟩ | ⟨-, hj⟩
      · right
        rw [state_setState]
        simp [hlt]
      · exact Or.inl ⟨r, hj, hr⟩
  · have hended : Keeps m (m.setStatus i (.ended .returned)) :=
      Keeps.setStatus hi (by rintro ⟨⟩) (by simp)
    exact ⟨rfl, rfl, rfl, rfl, hended.performing, fun hm =>
      (hended.nested hm).congr rfl rfl⟩

theorem Keeps.endFlush (hi : m.At i w s) : Keeps m (m.endFlush i w) := by
  have hended : Keeps m (m.setStatus i (.ended .returned)) :=
    Keeps.setStatus hi (by rintro ⟨⟩) (by simp)
  rcases endFlush_cases m i w with ⟨hw, hu⟩ | ⟨-, hu⟩ <;> rw [hu]
  · have hset : Keeps _ ((m.setStatus i (.ended .returned)).setState w .idle) :=
      Keeps.setState _ w (by simp [hw]) (by simp) (by simp [hw])
    exact (hended.trans hset).trans (Keeps.wakeFirst _ w)
  · exact hended.trans (Keeps.wakeFirst _ w)

theorem Locked.keeps_closes (h : Locked m) (hi : m.At i w s) (hs : s.active = true) :
    Keeps m (m.closes i w) := by
  have habort := h.keeps_abort 0
  have hi' : (m.abort 0).1.At i w s := by simpa using hi
  unfold Channel.closes
  simp only
  split
  · exact habort.trans (Keeps.setStatus hi' (fun _ => Status.holds_of_active hs) (by simp))
  · exact habort.trans ((h.abort 0).keeps_unlock_fail hi' (Status.uses_of_active hs)
      ((h.abort 0).state_of_active hi' hs) .close _)

/-! ## The end of an atomic block -/

theorem state_unlock_ne (hv : v ≠ w) : (m.unlock w).state v = m.state v := by
  rcases unlock_cases m w with ⟨-, -, hu | hu⟩ | ⟨-, -, hu⟩ | ⟨-, hu⟩ | ⟨-, hu⟩ <;> rw [hu]
  · grind
  · change (m.setState w .idle).state v = m.state v
    grind
  · grind
  · grind
  · rfl

theorem state_unlock_self (hw : (m.state w).busy = true) : (m.unlock w).state w ≠ .invalid ∧
    ∀ tmp, (m.unlock w).state w ≠ .busyAtomic tmp := by
  have hlt : w < m.wrappers.length := lt_of_state (by
    intro h
    simp [h, State.busy] at hw)
  have hset : ∀ x : State, (m.setState w x).state w = x := by
    intro x
    rw [state_setState]
    simp [hlt]
  rcases unlock_cases m w with ⟨-, -, hu | hu⟩ | ⟨-, -, hu⟩ | ⟨hstate, -⟩ | ⟨hstate, -⟩
  · rw [hu, hset]
    simp
  · have hidle : ((m.setState w .idle).launchFlusher).state w = .idle := hset .idle
    rw [hu, hidle]
    simp
  · rw [hu, state_wakeFirst, hset]
    simp
  · rcases hstate with h | h <;> simp [h, State.busy] at hw
  · rcases hstate with h | h <;> simp [h, State.busy] at hw

theorem At.of_unlock (h : (m.unlock w).At i v s) (hs : s.holds = true) : m.At i v s := by
  rcases unlock_cases m w with ⟨-, -, hu | hu⟩ | ⟨-, -, hu⟩ | ⟨-, hu⟩ | ⟨-, hu⟩ <;> rw [hu] at h
  · exact h
  · rcases (at_addTask (m.setState w .idle) .autoFlush 0 v i .paused s).mp h with ⟨-, -, rfl⟩ | h
    · cases hs
    · exact h
  · exact h.of_wakeFirst hs
  · exact h.of_wakeFirst hs
  · exact h

theorem unlock_data (hw : m.state w ≠ .idle) (hw' : m.state w ≠ .waitingForBusy) :
    (m.unlock w).buffer = m.buffer ∧ (m.unlock w).flushed = m.flushed ∧
      (m.unlock w).written = m.written ∧ (m.unlock w).asserted = m.asserted := by
  rcases unlock_cases m w with ⟨-, -, hu | hu⟩ | ⟨-, -, hu⟩ | ⟨-, hu⟩ | ⟨hstate, -⟩
  · rw [hu]
    exact ⟨rfl, rfl, rfl, rfl⟩
  · rw [hu]
    exact ⟨rfl, rfl, rfl, rfl⟩
  · have h := Keeps.wakeFirst (m.setState w .waitingForBusy) w
    rw [hu]
    exact ⟨h.buffer, h.flushed, h.written, h.asserted⟩
  · have h := Keeps.wakeFirst m w
    rw [hu]
    exact ⟨h.buffer, h.flushed, h.written, h.asserted⟩
  · rcases hstate with h | h
    · exact absurd h hw
    · exact absurd h hw'

theorem Locked.state_of_block (h : Locked m) (hi : m.At i w (.block tmp)) :
    m.state w = .busyAtomic tmp ∨ m.state w = .invalid := by
  have hallows := h.allows i w _ hi rfl
  cases hstate : m.state w with
  | busyAtomic tmp' =>
    rw [hstate] at hallows
    cases hallows
    exact Or.inl rfl
  | invalid => exact Or.inr rfl
  | _ => simp [hstate, State.Allows, Status.active] at hallows

theorem Locked.keeps_endBlock (h : Locked m) (hi : m.At i w (.block tmp))
    (hfree : ∀ j r, m.At j tmp r → r.holds = false) : Keeps m (m.endBlock i w tmp) := by
  have htmp := h.block i w tmp hi
  have hne : w ≠ tmp := Nat.ne_of_lt htmp.1
  have hstate := h.state_of_block hi
  have hw : ((m.setStatus i (.ended .returned)).setState tmp .invalid).state w = m.state w := by
    grind
  have hdata := unlock_data (m := (m.setStatus i (.ended .returned)).setState tmp .invalid) (w := w)
    (by rcases hstate with h | h <;> simp [hw, h]) (by rcases hstate with h | h <;> simp [hw, h])
  have hholders : ∀ j v r, (m.endBlock i w tmp).At j v r → r.holds = true → m.At j v r := by
    intro j v r hj hr
    have hj' := At.of_unlock hj hr
    simp only [at_setState, at_setStatus] at hj'
    rcases hj' with ⟨-, rfl, -⟩ | ⟨-, hj'⟩
    · cases hr
    · exact hj'
  refine ⟨hdata.1, hdata.2.1, hdata.2.2.1, hdata.2.2.2, fun j v len hj => hholders j v _ hj rfl, ?_⟩
  intro hm
  obtain hatomic : m.state w = .busyAtomic tmp := by
    rcases hstate with h | h
    · exact h
    · exact absurd h (hm.valid i w _ hi rfl)
  -- the temporary wrapper has no block of its own, since nothing holds it
  have hopen : ∀ q, m.state tmp ≠ .busyAtomic q := by
    intro q hq
    obtain ⟨j, r, hj, hr⟩ := h.busy tmp (by simp [hq, State.busy])
    have hallows := h.allows j tmp r hj hr
    rw [hq] at hallows
    obtain rfl : r = .block q := hallows
    cases hfree j _ hj
  have hself := state_unlock_self (m := (m.setStatus i (.ended .returned)).setState tmp .invalid)
    (w := w) (by simp [hw, hatomic, State.busy])
  have hother : ∀ v, v ≠ w → (m.endBlock i w tmp).state v =
      if v = tmp then .invalid else m.state v := by
    intro v hv
    refine (state_unlock_ne hv).trans ?_
    grind
  refine ⟨?_, ?_, ?_⟩
  · by_cases hmain : 0 = w
    · exact hmain ▸ hself.1
    · rw [hother 0 hmain]
      have hne' : ¬ 0 = tmp := by omega
      simpa [hne'] using hm.main
  · intro v hv hvalid
    by_cases hvw : v = w
    · subst hvw
      obtain ⟨p, hp⟩ := hm.nested v hv (by simp [hatomic])
      have hpv : p ≠ v := Nat.ne_of_lt (h.atomic p v hp).1
      refine ⟨p, ?_⟩
      rw [hother p hpv]
      grind
    · rw [hother v hvw] at hvalid
      obtain ⟨p, hp⟩ := hm.nested v hv (by grind)
      refine ⟨p, ?_⟩
      rw [hother p (by grind)]
      grind
  · intro j v r hj hr
    have hj' := hholders j v r hj hr
    by_cases hvw : v = w
    · exact hvw ▸ hself.1
    · rw [hother v hvw]
      have hvalid := hm.valid j v r hj' hr
      have hfree' := hfree j r
      grind

/-! ## The buffer -/

/-- Every byte is in the buffer or has been taken, and a flush has been given the whole buffer. -/
structure Whole (m : Channel) : Prop where
  bytes : m.flushed ++ m.buffer = m.written
  performing : ∀ i w len, m.At i w (.performing len) → len = m.buffer.length

theorem Whole.of_keeps (h : Whole m) (hu : Keeps m u) : Whole u where
  bytes := by rw [hu.flushed, hu.buffer, hu.written, h.bytes]
  performing := by
    intro i w len hi
    rw [hu.buffer]
    exact h.performing i w len (hu.performing i w len hi)

/-- While an operation executes the main wrapper is neither idle nor waiting. -/
theorem Locked.main_of_active (h : Locked m) (hm : Nested m) (hi : m.At i w s)
    (hs : s.active = true) : m.state 0 ≠ .idle ∧ m.state 0 ≠ .waitingForBusy := by
  rcases (h.chain hm w (h.active_open hm hi hs).1).cases_head with rfl | ⟨tmp, hmain, -⟩
  · rcases h.state_of_active hi hs with h | h | h <;> simp [h]
  · have hatomic : m.state 0 = .busyAtomic tmp := hmain
    simp [hatomic]

/-- At most one call of `da_perform` waits.  It has been given the whole buffer, and the function of
its `direct_access` runs. -/
def Served (m : Channel) : Prop :=
  m.calls = [] ∨ ∃ i w, m.calls = [(i, m.buffer.length)] ∧
    m.tasks[i]? = some ⟨.primitive, w, .running⟩

/-- One operation executes, with the whole buffer, and no assertion has failed. -/
structure Guarded (m : Channel) : Prop where
  locked : m.Locked
  nested : m.Nested
  whole : m.Whole
  served : m.Served
  asserted : m.asserted = false

namespace Guarded

theorem of_keeps (h : Guarded m) (hlocked : u.Locked) (hserved : u.Served) (hu : Keeps m u) :
    Guarded u :=
  ⟨hlocked, hu.nested h.nested, h.whole.of_keeps hu, hserved, hu.asserted.trans h.asserted⟩

/-- While a task executes, the call of `da_perform` that waits is one of its own. -/
theorem calls_of_active (h : Guarded m) (hi : m.At i w s) (hs : s.active = true) :
    m.calls = [] ∨ m.calls = [(i, m.buffer.length)] ∧ s = .running := by
  rcases h.served with hcalls | ⟨j, v, hcalls, hj⟩
  · exact Or.inl hcalls
  · have hj' : m.At j v .running := ⟨_, hj⟩
    obtain rfl := h.locked.active_unique h.nested hi hj' hs rfl
    exact Or.inr ⟨hcalls, (hi.unique hj').2⟩

theorem calls_of_free (h : Guarded m) (hi : m.At i w s) (hs : s.active = true)
    (hfree : ∀ c ∈ m.calls, c.1 ≠ i) : m.calls = [] := by
  rcases h.calls_of_active hi hs with hcalls | ⟨hcalls, -⟩
  · exact hcalls
  · exact absurd rfl (hfree (i, m.buffer.length) (by simp [hcalls]))

theorem calls_of_idle (h : Guarded m) (hw : m.state w = .idle) : m.calls = [] := by
  rcases h.served with hcalls | ⟨i, v, -, hi⟩
  · exact hcalls
  · cases h.locked.not_active h.nested hw ⟨_, hi⟩

theorem not_performing (h : Guarded m) (hi : m.At i w .running) (j v len : ℕ) :
    ¬ m.At j v (.performing len) := by
  intro hj
  obtain rfl := h.locked.active_unique h.nested hi hj rfl rfl
  cases (hi.unique hj).2

theorem put (h : Guarded m) (hfree : ∀ i w len, ¬ m.At i w (.performing len))
    (hcalls : m.calls = []) (data : List UInt8) : Guarded (m.put data) where
  locked := h.locked.congr rfl rfl
  nested := h.nested.congr rfl rfl
  whole := by
    refine ⟨?_, fun i w len hi => absurd hi (hfree i w len)⟩
    change m.flushed ++ (m.buffer ++ data) = m.written ++ data
    rw [← h.whole.bytes, List.append_assoc]
  served := Or.inl hcalls
  asserted := h.asserted

theorem writeChar (h : Guarded m) (hw : m.state w = .idle) (b : UInt8) :
    Guarded (m.writeChar b) := by
  have hcalls := h.calls_of_idle hw
  have hput : Guarded (m.put [b]) := by
    refine h.put ?_ hcalls [b]
    intro i v len hi
    cases h.locked.not_active h.nested hw hi
  unfold Channel.writeChar
  simp only
  split
  · exact hput
  · exact hput.of_keeps hput.locked.launchFlusher (Or.inl hcalls) (Keeps.launchFlusher _)

theorem setStatus (h : Guarded m) (hi : m.At i w s) (hs : s.active = true) (ht : t.active = true)
    (hlen : ∀ len, t = .performing len → len = m.buffer.length) (hcalls : m.calls = []) :
    Guarded (m.setStatus i t) where
  locked := h.locked.active hi hs ht
  nested := by
    refine h.nested.of_states (fun v => Or.inl rfl) ?_
    intro j v r hj hr
    rcases (at_setStatus m i j v t r).mp hj with ⟨rfl, -, r', hi'⟩ | ⟨-, hj⟩
    · obtain ⟨rfl, -⟩ := hi.unique hi'
      exact Or.inl ⟨s, hi, Status.holds_of_active hs⟩
    · exact Or.inl ⟨r, hj, hr⟩
  whole := by
    refine ⟨h.whole.bytes, ?_⟩
    intro j v len hj
    rcases (at_setStatus m i j v t _).mp hj with ⟨-, hstatus, -⟩ | ⟨-, hj⟩
    · exact hlen len hstatus.symm
    · exact h.whole.performing j v len hj
  served := Or.inl hcalls
  asserted := h.asserted

theorem performFailed (h : Guarded m) (hi : m.At i w s) (hs : s.active = true)
    (hcalls : m.calls = []) (kind : Kind) : Guarded (m.performFailed i kind) := by
  refine h.setStatus hi hs ?_ ?_ hcalls
  · split <;> rfl
  · intro len hlen
    split at hlen <;> cases hlen

theorem setPerforms (h : Guarded m) (n : ℕ) : Guarded { m with performs := n } :=
  ⟨h.locked.congr rfl rfl, h.nested.congr rfl rfl, ⟨h.whole.bytes, h.whole.performing⟩, h.served,
    h.asserted⟩

theorem performIoThen (h : Guarded m) (hi : m.At i w s) (hs : s.active = true)
    (fails waits : Channel → Channel) :
    ∃ n, m.performIoThen fails waits = fails { m with performs := n } ∨
      m.performIoThen fails waits = waits { m with performs := n } := by
  have hmain := h.locked.main_of_active h.nested hi hs
  rcases performIoThen_cases m fails waits with ⟨b, n, hu, hb, -⟩ | ⟨-, -, -, hu⟩
  · obtain rfl := hb hmain.1 hmain.2
    exact ⟨n, Or.inl hu⟩
  · exact ⟨_, Or.inr hu⟩

theorem performIo (h : Guarded m) (hi : m.At i w .running) (hcalls : m.calls = []) (kind : Kind) :
    Guarded (m.performIo i kind) := by
  obtain ⟨n, hu | hu⟩ := h.performIoThen hi rfl (·.performFailed i kind) fun m =>
      m.setStatus i (.performing m.buffer.length) <;> rw [Channel.performIo, hu]
  · exact (h.setPerforms n).performFailed hi rfl hcalls kind
  · refine (h.setPerforms n).setStatus hi rfl rfl ?_ hcalls
    rintro len ⟨⟩
    rfl

theorem daPerform (h : Guarded m) (hi : m.tasks[i]? = some ⟨.primitive, w, .running⟩)
    (hcalls : m.calls = []) (data : List UInt8) : Guarded (m.daPerform i data) := by
  have hi' : m.At i w .running := ⟨_, hi⟩
  have hput := h.put (h.not_performing hi') hcalls data
  obtain ⟨n, hu | hu⟩ := hput.performIoThen (i := i) (w := w) hi' rfl id fun m =>
      { m with calls := m.calls ++ [(i, m.buffer.length)] } <;> rw [Channel.daPerform, hu]
  · exact hput.setPerforms n
  · have hn := hput.setPerforms n
    refine ⟨hn.locked.congr rfl rfl, hn.nested.congr rfl rfl, ⟨hn.whole.bytes, hn.whole.performing⟩,
      Or.inr ⟨i, w, ?_, hi⟩, hn.asserted⟩
    change m.calls ++ _ = _
    rw [hcalls]
    rfl

theorem shift (h : Guarded m) {n : ℕ} (hi : m.At i w .running) (hcalls : m.calls = [])
    (hn : m.mode = .output → n ≤ m.buffer.length) : Guarded (m.shift m.buffer.length n) := by
  unfold Channel.shift
  split
  · exact h
  · next hmode =>
      refine ⟨h.locked.congr rfl rfl, h.nested.congr rfl rfl, ⟨?_, ?_⟩, Or.inl hcalls, h.asserted⟩
      · change (m.flushed ++ (m.buffer ++ m.beyond).take n) ++
          ((m.buffer ++ m.beyond).take m.buffer.length).drop n = m.written
        rw [List.take_append_of_le_length (hn hmode), List.take_left, List.append_assoc,
          List.take_append_drop, h.whole.bytes]
      · -- the operation is the only one that executes
        exact fun j v len hj => absurd hj (h.not_performing hi j v len)

theorem performed (h : Guarded m) {len n : ℕ} (hi : m.At i w (.performing len))
    (hn : m.mode = .output → n ≤ len) : Guarded (m.performed i len n) := by
  obtain rfl := h.whole.performing i w len hi
  have hcalls : m.calls = [] := by
    rcases h.calls_of_active hi rfl with hcalls | ⟨-, hs⟩
    · exact hcalls
    · cases hs
  have hrunning := h.setStatus (t := .running) hi rfl rfl (by simp) hcalls
  exact hrunning.shift (i := i) (w := w) (by grind) hcalls hn

theorem dropCall (h : Guarded m) {k len : ℕ} (hk : m.calls[k]? = some (i, len)) :
    Guarded (m.dropCall k) ∧ (m.dropCall k).calls = [] ∧ len = m.buffer.length ∧
      ∃ w, m.At i w .running := by
  rcases h.served with hcalls | ⟨j, w, hcalls, hj⟩
  · simp [hcalls] at hk
  · rw [hcalls] at hk
    obtain ⟨rfl, hc⟩ : k = 0 ∧ (j, m.buffer.length) = (i, len) := by
      cases k with
      | zero => exact ⟨rfl, Option.some.inj hk⟩
      | succ k => cases hk
    cases hc
    have hdrop : (m.dropCall 0).calls = [] := by simp [Channel.dropCall, hcalls]
    exact ⟨⟨h.locked.congr rfl rfl, h.nested.congr rfl rfl,
      ⟨h.whole.bytes, h.whole.performing⟩, Or.inl hdrop, h.asserted⟩, hdrop, rfl, w, _, hj⟩

end Guarded

end Channel

/-- The temporary wrapper whose block is ended by a step. -/
def dropped (m : Channel) : Step → Option ℕ
  | .finish i => (m.tasks[i]?).bind fun t =>
    match t.status with
    | .block tmp => some tmp
    | _ => none
  | _ => none

/-- No atomic block ends while a task holds its temporary wrapper. -/
def Drained (m : Channel) (a : Step) : Prop :=
  ∀ tmp ∈ dropped m a, ∀ t ∈ m.tasks, t.wrapper = tmp → t.status.holds = false

instance (m : Channel) (a : Step) : Decidable (Drained m a) :=
  inferInstanceAs (Decidable (∀ tmp ∈ dropped m a, ∀ t ∈ m.tasks, t.wrapper = tmp →
    t.status.holds = false))

/-- While a `da_perform` waits, the function of its `direct_access` neither writes nor ends; and
after its end none is called. -/
def inTurn (m : Channel) : Step → Bool
  | .daPerform i _ => (m.tasks[i]?).any (fun t => decide (t.status = .running)) &&
      m.calls.all fun c => decide (c.1 ≠ i)
  | .write i _ | .performIo i | .finish i => m.calls.all fun c => decide (c.1 ≠ i)
  | _ => true

open Channel

theorem guarded_make (typ : Typ) (mode : Mode) (length : ℕ) : (make typ mode length).Guarded := by
  have hat : ∀ i w s, ¬ (make typ mode length).At i w s := by
    rintro i w s ⟨kind, h⟩
    simp [make] at h
  refine ⟨locked_make typ mode length, ⟨by simp [make, state], ?_, ?_⟩, ⟨rfl, ?_⟩, Or.inl rfl, rfl⟩
  · intro w hw hvalid
    have hlt := lt_of_state hvalid
    simp [make] at hlt
    exact absurd hlt hw
  · intro i w s hi
    exact absurd hi (hat i w s)
  · intro i w len hi
    exact absurd hi (hat i w _)

/-- A step that leaves the bytes and the calls of the perform function alone. -/
def Step.quiet : Step → Bool
  | writeChar _ _ | write _ _ | performIo _ | performed _ _ | performFails _ => false
  | daPerform _ _ | daPerformed _ _ | daFails _ => false
  | _ => true

theorem Step.plain_of_quiet {a : Step} (ha : a.quiet = true) : a.plain = true := by
  cases a <;> first | rfl | cases ha

theorem keeps_step {a : Step} (h : m.Locked) (hd : Drained m a) (ha : a.quiet = true)
    (hu : Stepped m a u) : Keeps m u := by
  cases hu with
  | call kind w a hw => exact h.keeps_call kind hw
  | abort kind w a hw => exact (h.keeps_abort w).trans (Keeps.addTask _ kind w rfl)
  | resume i w kind hi => exact h.keeps_resume ⟨kind, hi⟩ kind
  | cancel i w hi => exact Keeps.setStatus hi (by rintro ⟨⟩) (by simp)
  | runCanceled i w kind hi =>
    have hi' : m.At i w .canceled := ⟨kind, hi⟩
    exact (Keeps.setQueued m w _).trans
      ((h.dequeue hi').keeps_fail (w := w) (s := .canceled) hi' kind _)
  | resize i w length hi =>
    exact ⟨rfl, rfl, rfl, rfl, fun _ _ _ hi => hi, fun hm => hm.congr rfl rfl⟩
  | flush i w hi => exact h.keeps_autoFlush hi
  | closes i w s hi hs => exact h.keeps_closes ⟨_, hi⟩ (active_of_flushOver hs)
  | closeFails i w hi => exact h.keeps_unlock_fail hi rfl (h.state_of_active hi rfl) .close _
  | endFlush i w s hi => exact Keeps.endFlush ⟨_, hi⟩
  | ends i w kind s o hi hs =>
    have hi' : m.At i w s := ⟨kind, hi⟩
    have hactive : s.active = true := by rcases hs with ⟨rfl, -⟩ | ⟨rfl, -⟩ <;> rfl
    exact (Keeps.setStatus hi' (by rintro ⟨⟩) (by simp)).trans
      (Keeps.unlock (h.state_of_active hi' hactive))
  | endBlock i w tmp hi =>
    refine h.keeps_endBlock hi ?_
    rintro j r ⟨kind, hj⟩
    obtain ⟨kind', hi'⟩ := hi
    exact hd tmp (by simp [dropped, hi']) _ (List.mem_of_getElem? hj) rfl
  | writeChar | write | performIo | performed | performFails | daPerform | daPerformed | daFails =>
    cases ha

theorem served_step {a : Step} (h : m.Served) (ha : a.quiet = true) (hturn : inTurn m a = true)
    (hkeeps : Keeps m u) (hu : Stepped m a u) : u.Served := by
  obtain ⟨j, hframe, hj⟩ := frame_step hu (Step.plain_of_quiet ha)
  rcases h with hnone | ⟨i, w, hcalls, hi⟩
  · exact Or.inl (hframe.calls.trans hnone)
  · refine Or.inr ⟨i, w, by rw [hframe.calls, hkeeps.buffer, hcalls], ?_⟩
    by_cases hne : i = j
    · subst hne
      rcases hj w .running hi rfl with rfl | ⟨n, rfl⟩
      · simp [inTurn, hcalls] at hturn
      · cases ha
    · exact hframe.kept i _ hne hi rfl

theorem guarded_step {a : Step} (h : m.Guarded) (ha : Orderly m a) (hd : Drained m a)
    (hturn : inTurn m a = true) (hu : Stepped m a u) : u.Guarded := by
  have hlocked := locked_step h.locked ha hu
  by_cases hquiet : a.quiet = true
  · have hkeeps := keeps_step h.locked hd hquiet hu
    exact h.of_keeps hlocked (served_step h.served hquiet hturn hkeeps hu) hkeeps
  -- no `da_perform` waits when another step touches the buffer
  cases hu with
  | writeChar w b hmode hw => exact h.writeChar hw b
  | write i w b hi =>
    exact h.put (h.not_performing hi) (h.calls_of_free hi rfl (by simpa [inTurn] using hturn)) [b]
  | performIo i w kind hi =>
    exact h.performIo ⟨kind, hi⟩
      (h.calls_of_free ⟨kind, hi⟩ rfl (by simpa [inTurn] using hturn)) kind
  | performed i w len n hi hn => exact h.performed hi hn
  | performFails i w len kind hi =>
    rcases h.calls_of_active ⟨kind, hi⟩ rfl with hcalls | ⟨-, hs⟩
    · exact h.performFailed ⟨kind, hi⟩ rfl hcalls kind
    · cases hs
  | daPerform i w data s hi =>
    obtain ⟨rfl, hfree⟩ : s = .running ∧ ∀ c ∈ m.calls, c.1 ≠ i := by
      simpa [inTurn, hi] using hturn
    exact h.daPerform hi (h.calls_of_free ⟨_, hi⟩ rfl hfree) data
  | daPerformed k i len n hk hn =>
    obtain ⟨hdrop, hcalls, rfl, w, hi⟩ := h.dropCall hk
    exact hdrop.shift (i := i) (w := w) hi hcalls hn
  | daFails k hk => exact (h.dropCall (List.getElem?_eq_getElem hk)).1
  | call kind w a hw hcall =>
    rcases hcall with ⟨rfl, -⟩ | ⟨rfl, -⟩ | ⟨rfl, -⟩ <;> exact absurd rfl hquiet
  | abort kind w a hw habort =>
    rcases habort with ⟨rfl, -⟩ | ⟨rfl, -⟩ <;> exact absurd rfl hquiet
  | _ => exact absurd rfl hquiet

/-- In every run in which no woken task is overtaken, no atomic block ends while its temporary
wrapper is held and every `direct_access` waits for its `da_perform`, at most one task executes an
operation on the channel, none does while a wrapper is idle, at most one `da_perform` waits, for the
task that executes, every byte written is in the buffer or has been taken by the perform function,
in the order of the writes, and no `assert false` is reached. -/
theorem one_operation_at_a_time (typ : Typ) (mode : Mode) (length : ℕ)
    (hreach : Reach step (fun m a => Orderly m a ∧ Drained m a ∧ inTurn m a = true)
      (make typ mode length) m) :
    (∀ i j v w s t, m.At i v s → m.At j w t → s.active = true → t.active = true → i = j) ∧
    (∀ v, m.state v = .idle → ∀ i w s, m.At i w s → s.active = false) ∧
    (m.calls.length ≤ 1 ∧ ∀ c ∈ m.calls, ∃ w, m.At c.1 w .running) ∧
    m.flushed ++ m.buffer = m.written ∧ m.asserted = false := by
  have h : m.Guarded := hreach.invariant (guarded_make typ mode length) fun m a u hm ha hu =>
    guarded_step hm ha.1 ha.2.1 ha.2.2 (step_cases hm.locked.main hu)
  refine ⟨?_, ?_, ?_, h.whole.bytes, h.asserted⟩
  · intro i j v w s t hi hj hs ht
    exact h.locked.active_unique h.nested hi hj hs ht
  · intro v hv i w s hi
    exact h.locked.not_active h.nested hv hi
  · rcases h.served with hcalls | ⟨i, w, hcalls, hi⟩
    · simp [hcalls]
    · rw [hcalls]
      refine ⟨Nat.le_refl 1, fun c hc => ?_⟩
      obtain rfl := List.mem_singleton.mp hc
      exact ⟨w, _, hi⟩

/-- The auto-flusher writes one byte out while another operation waits for it, which then writes
one out by `da_perform`. -/
theorem one_operation_at_a_time_flush :
    ∃ m, Reach step (fun m a => Orderly m a ∧ Drained m a ∧ inTurn m a = true)
        (make .normal .output 16) m ∧
      m.flushed = [1, 2] ∧ m.buffer = [3] ∧ m.flushed ++ m.buffer = m.written := by
  obtain ⟨m, hm⟩ : ∃ m, replay (checked step fun m a =>
        decide (Orderly m a ∧ Drained m a ∧ inTurn m a = true))
      (make .normal .output 16) [.writeChar 0 1, .flush 0, .performIo 0, .primitive 0,
        .performed 0 1, .finish 0, .resume 1, .daPerform 1 [2, 3], .daPerformed 0 1,
        .finish 1] = some m := ⟨_, rfl⟩
  have hreach := (reach_of_checked _ hm).mono
    (k := fun m a => Orderly m a ∧ Drained m a ∧ inTurn m a = true)
    fun m a h => of_decide_eq_true h
  have hall := one_operation_at_a_time .normal .output 16 hreach
  refine ⟨m, hreach, ?_, ?_, hall.2.2.2.1⟩
  · cases hm.symm.trans rfl
    rfl
  · cases hm.symm.trans rfl
    rfl

/-- An auto-flush on the temporary wrapper of an atomic block outlives the block: a byte written
meanwhile is dropped, and an operation starts while the flush executes. -/
theorem byte_dropped_after_block :
    ¬ ∀ m, Reach step (fun _ _ => True) (make .normal .output 16) m →
      (∀ i j v w s t, m.At i v s → m.At j w t → s.active = true → t.active = true → i = j) ∧
      (∀ v, m.state v = .idle → ∀ i w s, m.At i w s → s.active = false) ∧
      (m.calls.length ≤ 1 ∧ ∀ c ∈ m.calls, ∃ w, m.At c.1 w .running) ∧
      m.flushed ++ m.buffer = m.written ∧ m.asserted = false := by
  intro hall
  obtain ⟨m, hm⟩ : ∃ m, replay step (make .normal .output 16) [.atomic 0, .writeChar 1 1, .flush 1,
      .performIo 1, .finish 0, .writeChar 0 2, .performed 1 1] = some m := ⟨_, rfl⟩
  have hbytes := (hall m (reach_of_replay _ hm)).2.2.2.1
  cases hm.symm.trans rfl
  revert hbytes
  decide

/-- A `direct_access` ends before the `da_perform` that it has called: the byte that another
operation writes meanwhile is dropped. -/
theorem byte_dropped_after_direct_access :
    ∃ m, Reach step (fun m a => Orderly m a ∧ Drained m a) (make .normal .output 16) m ∧
      m.flushed ++ m.buffer = [1] ∧ m.written = [1, 2] := by
  obtain ⟨m, hm⟩ : ∃ m, replay (checked step fun m a => decide (Orderly m a ∧ Drained m a))
      (make .normal .output 16) [.primitive 0, .daPerform 0 [1], .finish 0, .writeChar 0 2,
        .daPerformed 0 1] = some m := ⟨_, rfl⟩
  have hreach := (reach_of_checked _ hm).mono (k := fun m a => Orderly m a ∧ Drained m a)
    fun m a h => of_decide_eq_true h
  cases hm.symm.trans rfl
  exact ⟨_, hreach, rfl, rfl⟩

end Lwt.Io
