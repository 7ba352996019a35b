import Mathlib.Data.List.Nodup
import Lwt.Library.Tickets
import Lwt.Library.Transition

/-!
# The events of `Lwt_engine`

What the class `abstract` does with the events of all engines, and what `set` does.  An event
handle is a reference to a registration: `stop_event` stops the registration that the handle refers
to when it is called.  `transfer` registers the callback again in the other engine, which makes a
second handle, and lets the handle of the old registration refer to the new one.  The next transfer
does this for the second handle only.

An engine may call the callback of a registration until it is stopped, and that of a timer that
does not repeat once.  Code of callbacks takes steps like any other.
-/

namespace Lwt.Unix

open Transition

/-- What `on_readable`, `on_writable` and `on_timer` wait for; `δ` is the type of delays. -/
inductive Kind (δ : Type)
  | readable (fd : ℕ)
  | writable (fd : ℕ)
  | timer (delay : δ) (repeats : Bool)

namespace Kind

variable {δ : Type}

def isReadable : Kind δ → Bool
  | readable _ => true
  | _ => false

def isWritable : Kind δ → Bool
  | writable _ => true
  | _ => false

def isTimer : Kind δ → Bool
  | timer _ _ => true
  | _ => false

/-- A timer that does not repeat. -/
def isOneShot : Kind δ → Bool
  | timer _ repeats => !repeats
  | _ => false

end Kind

/-- A call of a method `on_readable`, `on_writable` or `on_timer` of an engine. -/
structure Registration (δ φ : Type) where
  engine : ℕ
  kind : Kind δ
  callback : φ
  /-- the reference that is given to the callback -/
  event : ℕ
  /-- the node is in the sequence of the engine -/
  listed : Bool
  /-- the engine has not been told to stop -/
  registered : Bool
  fired : Bool

/-- A reference to a registration.  Not part of the program: the reference that the user got from
`on_readable`, `on_writable` or `on_timer` for the same callback, and the number of transfers since
then. -/
structure Handle where
  target : ℕ
  origin : ℕ
  generation : ℕ

/-- What the user sees, by the handle that it got. -/
inductive EngineEvent (δ φ : Type)
  | registered (u : ℕ) (kind : Kind δ) (callback : φ)
  | stopped (u : ℕ)
  | called (u : ℕ)

structure Engines (δ φ : Type) where
  registrations : List (Registration δ φ)
  events : List Handle
  current : ℕ
  /-- Not part of the program. -/
  log : List (EngineEvent δ φ)

namespace Engines

variable {δ φ : Type}

def init : Engines δ φ := ⟨[], [], 0, []⟩

/-- `stop_event` -/
def stopEvent (s : Engines δ φ) (ev : ℕ) : Engines δ φ :=
  match s.events[ev]? with
  | none => s
  | some event =>
    match s.registrations[event.target]? with
    | none => s
    | some x => { s with registrations :=
        s.registrations.set event.target { x with listed := false, registered := false } }

/-- A method `on_readable`, `on_writable` or `on_timer`.  The new node is the last one of its
sequence, so that a sequence is in the order of the registrations. -/
def register (s : Engines δ φ) (engine : ℕ) (kind : Kind δ) (f : φ) (origin generation : ℕ) :
    Engines δ φ :=
  { s with
    registrations := s.registrations ++ [⟨engine, kind, f, s.events.length, true, true, false⟩]
    events := s.events ++ [⟨s.registrations.length, origin, generation⟩] }

/-- A sequence `readables`, `writables` or `timers` of an engine. -/
def sequence (s : Engines δ φ) (engine : ℕ) (kind : Kind δ → Bool) : List ℕ :=
  (List.range s.registrations.length).filter fun i =>
    match s.registrations[i]? with
    | none => false
    | some x => x.listed && x.engine == engine && kind x.kind

/-- `stop_event ev; ev := !(engine#on_readable fd f)` and so on, where `ev` is the reference in the
node of the registration `i`. -/
def transferEvent (engine : ℕ) (s : Engines δ φ) (i : ℕ) : Engines δ φ :=
  match s.registrations[i]? with
  | none => s
  | some x =>
    match s.events[x.event]? with
    | none => s
    | some ev =>
      if x.listed then
        let s := s.stopEvent x.event
        let s := s.register engine x.kind x.callback ev.origin (ev.generation + 1)
        { s with
          events := s.events.set x.event { ev with target := s.registrations.length - 1 } }
      else s

def transferSequence (s : Engines δ φ) (engine : ℕ) (kind : Kind δ → Bool) : Engines δ φ :=
  (s.sequence s.current kind).foldl (transferEvent engine) s

/-- `!current#transfer engine` -/
def transfer (s : Engines δ φ) (engine : ℕ) : Engines δ φ :=
  ((s.transferSequence engine Kind.isReadable).transferSequence engine
  Kind.isWritable).transferSequence
    engine Kind.isTimer

def stopSequence (s : Engines δ φ) (kind : Kind δ → Bool) : Engines δ φ :=
  (s.sequence s.current kind).foldl (fun s i =>
    match s.registrations[i]? with
    | none => s
    | some x => if x.listed then s.stopEvent x.event else s) s

/-- `!current#destroy` -/
def destroy (s : Engines δ φ) : Engines δ φ :=
  ((s.stopSequence Kind.isReadable).stopSequence Kind.isWritable).stopSequence Kind.isTimer

def readableCount (s : Engines δ φ) : ℕ := (s.sequence s.current Kind.isReadable).length

def writableCount (s : Engines δ φ) : ℕ := (s.sequence s.current Kind.isWritable).length

def timerCount (s : Engines δ φ) : ℕ := (s.sequence s.current Kind.isTimer).length

end Engines

inductive EngineStep (δ φ : Type)
  | on (kind : Kind δ) (f : φ)
  | stopEvent (ev : ℕ)
  /-- an engine calls the callback of the registration `i` -/
  | call (i : ℕ)
  /-- `set ~transfer:true ~destroy engine` -/
  | set (destroy : Bool) (engine : ℕ)

/-- The transfer of events from an engine to itself does not end. -/
def engineStep {δ φ : Type} (s : Engines δ φ) : EngineStep δ φ → Option (Engines δ φ)
  | .on kind f => some { s.register s.current kind f s.events.length 0 with
      log := s.log ++ [.registered s.events.length kind f] }
  | .stopEvent ev =>
    s.events[ev]?.map fun event => { s.stopEvent ev with log := s.log ++ [.stopped event.origin] }
  | .call i =>
    s.registrations[i]?.bind fun x =>
      s.events[x.event]?.bind fun ev =>
        if x.registered && !(x.kind.isOneShot && x.fired) then some { s with
          registrations := s.registrations.set i { x with fired := true }
          log := s.log ++ [.called ev.origin] }
        else none
  | .set destroy engine =>
    if engine = s.current ∧ s.sequence s.current (fun _ => true) ≠ [] then none
    else
      let s := s.transfer engine
      let s := if destroy then s.destroy else s
      some { s with current := engine }

namespace Engines

variable {δ φ : Type} {s t : Engines δ φ} {i j c engine : ℕ} {x y : Registration δ φ}
  {ev e : Handle}

/-- The registration `i` has not been stopped; its callback is given a reference to `ev`. -/
structure Live (s : Engines δ φ) (i : ℕ) (x : Registration δ φ) (ev : Handle) : Prop where
  registration : s.registrations[i]? = some x
  listed : x.listed = true
  event : s.events[x.event]? = some ev

/-- The handles of a callback are numbered by the transfers, and the last two refer to its
registration. -/
structure Linked (s : Engines δ φ) : Prop where
  both : ∀ (i : ℕ) (x : Registration δ φ), s.registrations[i]? = some x → x.registered = x.listed
  own : ∀ (i : ℕ) (x : Registration δ φ), s.registrations[i]? = some x → x.listed = true →
    ∃ ev : Handle, s.events[x.event]? = some ev ∧ ev.target = i
  bounds : ∀ (c : ℕ) (e : Handle), s.events[c]? = some e →
    e.target < s.registrations.length ∧ e.origin < s.events.length
  same : ∀ (i : ℕ) (x : Registration δ φ) (ev : Handle) (c : ℕ) (e : Handle), s.Live i x ev →
    s.events[c]? = some e → e.target = i → e.origin = ev.origin
  newest : ∀ (i : ℕ) (x : Registration δ φ) (ev : Handle) (c : ℕ) (e : Handle), s.Live i x ev →
    s.events[c]? = some e → e.origin = ev.origin → e.generation ≤ ev.generation
  linked : ∀ (i : ℕ) (x : Registration δ φ) (ev : Handle) (c : ℕ) (e : Handle), s.Live i x ev →
    s.events[c]? = some e → e.origin = ev.origin → ev.generation ≤ e.generation + 1 → e.target = i
  unique : ∀ (c c' : ℕ) (e e' : Handle), s.events[c]? = some e → s.events[c']? = some e' →
    e.origin = e'.origin → e.generation = e'.generation → c = c'

theorem Live.target (h : s.Linked) (hl : s.Live i x ev) : ev.target = i := by
  obtain ⟨e, he, htarget⟩ := h.own i x hl.registration hl.listed
  cases hl.event.symm.trans he
  exact htarget

theorem Linked.single {ev' : Handle} (h : s.Linked) (hi : s.Live i x ev) (hj : s.Live j y ev')
    (horigin : ev.origin = ev'.origin) : i = j := by
  have hle := h.newest i x ev _ ev' hi hj.event horigin.symm
  have hge := h.newest j y ev' _ ev hj hi.event horigin
  have hcell := h.unique _ _ ev ev' hi.event hj.event horigin (by omega)
  have hsame := hj.event
  rw [← hcell, hi.event] at hsame
  cases hsame
  exact (hi.target h).symm.trans (hj.target h)

/-! ## Stopping -/

@[simp] theorem stopEvent_events (s : Engines δ φ) (c : ℕ) : (s.stopEvent c).events = s.events := by
  unfold stopEvent
  split
  · rfl
  · split <;> rfl

@[simp] theorem stopEvent_current (s : Engines δ φ) (c : ℕ) :
    (s.stopEvent c).current = s.current := by
  unfold stopEvent
  split
  · rfl
  · split <;> rfl

@[simp] theorem stopEvent_log (s : Engines δ φ) (c : ℕ) : (s.stopEvent c).log = s.log := by
  unfold stopEvent
  split
  · rfl
  · split <;> rfl

@[simp] theorem length_stopEvent (s : Engines δ φ) (c : ℕ) :
    (s.stopEvent c).registrations.length = s.registrations.length := by
  unfold stopEvent
  split
  · rfl
  · split
    · rfl
    · exact List.length_set

theorem registration_stopEvent (hc : s.events[c]? = some e)
    (hj : (s.stopEvent c).registrations[j]? = some y) :
    s.registrations[j]? = some y ∧ j ≠ e.target ∨ y.listed = false ∧ y.registered = false := by
  unfold stopEvent at hj
  simp only [hc] at hj
  split at hj
  case h_1 hnone =>
    refine .inl ⟨hj, ?_⟩
    rintro rfl
    rw [hnone] at hj
    cases hj
  case h_2 x hx =>
    rcases Tickets.getElem?_set_cases hj with ⟨-, rfl⟩ | ⟨hne, hold⟩
    · exact .inr ⟨rfl, rfl⟩
    · exact .inl ⟨hold, hne⟩

theorem Live.of_stopEvent (hc : s.events[c]? = some e) (hl : (s.stopEvent c).Live j y ev) :
    s.Live j y ev ∧ j ≠ e.target := by
  rcases registration_stopEvent hc hl.registration with ⟨hj, hne⟩ | ⟨hstopped, -⟩
  · exact ⟨⟨hj, hl.listed, by simpa using hl.event⟩, hne⟩
  · rw [hl.listed] at hstopped
    cases hstopped

theorem Live.stopEvent (hc : s.events[c]? = some e) (hl : s.Live j y ev) (hne : j ≠ e.target) :
    (s.stopEvent c).Live j y ev := by
  refine ⟨?_, hl.listed, by simpa using hl.event⟩
  unfold Engines.stopEvent
  simp only [hc]
  split
  · exact hl.registration
  · rw [List.getElem?_set_ne hne.symm]
    exact hl.registration

theorem Linked.stopEvent (h : s.Linked) (hc : s.events[c]? = some e) : (s.stopEvent c).Linked where
  both i x hi := by
    rcases registration_stopEvent hc hi with ⟨hold, -⟩ | ⟨hlisted, hregistered⟩
    · exact h.both i x hold
    · rw [hlisted, hregistered]
  own i x hi hlisted := by
    rcases registration_stopEvent hc hi with ⟨hold, -⟩ | ⟨hstopped, -⟩
    · simpa using h.own i x hold hlisted
    · rw [hlisted] at hstopped
      cases hstopped
  bounds c e he := by simpa using h.bounds c e (by simpa using he)
  same i x ev c e hl he := h.same i x ev c e (hl.of_stopEvent hc).1 (by simpa using he)
  newest i x ev c e hl he := h.newest i x ev c e (hl.of_stopEvent hc).1 (by simpa using he)
  linked i x ev c e hl he := h.linked i x ev c e (hl.of_stopEvent hc).1 (by simpa using he)
  unique c c' e e' he he' := h.unique c c' e e' (by simpa using he) (by simpa using he')

/-! ## Registering -/

theorem Live.of_register {kind : Kind δ} {f : φ} {origin generation : ℕ} (h : s.Linked)
    (hl : (s.register engine kind f origin generation).Live j y ev) :
    s.Live j y ev ∨ j = s.registrations.length ∧
      y = ⟨engine, kind, f, s.events.length, true, true, false⟩ ∧
      ev = ⟨s.registrations.length, origin, generation⟩ := by
  obtain ⟨hj, hlisted, hevent⟩ := hl
  rcases Tickets.getElem?_append_cases hj with hold | ⟨rfl, rfl⟩
  · obtain ⟨ev', hev', -⟩ := h.own j y hold hlisted
    have hlt := (List.getElem?_eq_some_iff.mp hev').1
    simp only [register, List.getElem?_append_left hlt] at hevent
    exact .inl ⟨hold, hlisted, hevent⟩
  · simp only [register, List.getElem?_concat_length, Option.some.injEq] at hevent
    exact .inr ⟨rfl, rfl, hevent.symm⟩

theorem Live.register (hl : s.Live j y ev) (kind : Kind δ) (f : φ) (origin generation : ℕ) :
    (s.register engine kind f origin generation).Live j y ev := by
  obtain ⟨hj, hlisted, hevent⟩ := hl
  refine ⟨?_, hlisted, ?_⟩
  · exact (List.getElem?_append_left (List.getElem?_eq_some_iff.mp hj).1).trans hj
  · exact (List.getElem?_append_left (List.getElem?_eq_some_iff.mp hevent).1).trans hevent

theorem live_register (s : Engines δ φ) (kind : Kind δ) (f : φ) (origin generation : ℕ) :
    (s.register engine kind f origin generation).Live s.registrations.length
      ⟨engine, kind, f, s.events.length, true, true, false⟩
      ⟨s.registrations.length, origin, generation⟩ :=
  ⟨List.getElem?_concat_length, rfl, List.getElem?_concat_length⟩

theorem Linked.register (h : s.Linked) (kind : Kind δ) (f : φ) :
    (s.register engine kind f s.events.length 0).Linked := by
  -- the new event is the first generation of a handle of its own
  have hevents : ∀ {c : ℕ} {e : Handle},
      (s.register engine kind f s.events.length 0).events[c]? = some e → s.events[c]? = some e ∨
        c = s.events.length ∧ e = ⟨s.registrations.length, s.events.length, 0⟩ :=
    fun hc => Tickets.getElem?_append_cases hc
  have hnew : ∀ {c : ℕ} {e : Handle}, s.events[c]? = some e → e.origin ≠ s.events.length :=
    fun hc => Nat.ne_of_lt (h.bounds _ _ hc).2
  refine ⟨?_, ?_, ?_, ?_, ?_, ?_, ?_⟩
  · intro i x hi
    rcases Tickets.getElem?_append_cases hi with hold | ⟨-, rfl⟩
    · exact h.both i x hold
    · rfl
  · intro i x hi hlisted
    rcases Tickets.getElem?_append_cases hi with hold | ⟨rfl, rfl⟩
    · obtain ⟨ev, hev, htarget⟩ := h.own i x hold hlisted
      exact ⟨ev, (List.getElem?_append_left (List.getElem?_eq_some_iff.mp hev).1).trans hev,
        htarget⟩
    · exact ⟨_, List.getElem?_concat_length, rfl⟩
  · intro c e hc
    simp only [Engines.register, List.length_append, List.length_singleton]
    rcases hevents hc with hold | ⟨-, rfl⟩
    · have hbounds := h.bounds c e hold
      omega
    · exact ⟨Nat.lt_succ_self _, Nat.lt_succ_self _⟩
  · intro i x ev c e hl hc htarget
    rcases hl.of_register h with hold | ⟨rfl, -, rfl⟩
    · rcases hevents hc with hc | ⟨-, rfl⟩
      · exact h.same i x ev c e hold hc htarget
      · have hlt := (List.getElem?_eq_some_iff.mp hold.registration).1
        simp only at htarget
        omega
    · rcases hevents hc with hc | ⟨-, rfl⟩
      · have hbounds := h.bounds c e hc
        omega
      · rfl
  · intro i x ev c e hl hc horigin
    rcases hl.of_register h with hold | ⟨rfl, -, rfl⟩
    · rcases hevents hc with hc | ⟨-, rfl⟩
      · exact h.newest i x ev c e hold hc horigin
      · exact absurd horigin.symm (hnew hold.event)
    · rcases hevents hc with hc | ⟨-, rfl⟩
      · exact absurd horigin (hnew hc)
      · exact Nat.le_refl 0
  · intro i x ev c e hl hc horigin hle
    rcases hl.of_register h with hold | ⟨rfl, -, rfl⟩
    · rcases hevents hc with hc | ⟨-, rfl⟩
      · exact h.linked i x ev c e hold hc horigin hle
      · exact absurd horigin.symm (hnew hold.event)
    · rcases hevents hc with hc | ⟨-, rfl⟩
      · exact absurd horigin (hnew hc)
      · rfl
  · intro c c' e e' hc hc' horigin hgeneration
    rcases hevents hc with hc | ⟨rfl, rfl⟩ <;> rcases hevents hc' with hc' | ⟨rfl, rfl⟩
    · exact h.unique c c' e e' hc hc' horigin hgeneration
    · exact absurd horigin (hnew hc)
    · exact absurd horigin.symm (hnew hc')
    · rfl

/-! ## Transferring -/

theorem transferEvent_eq (h : s.Linked) (hl : s.Live i x ev) (engine : ℕ) :
    transferEvent engine s i = { s with
      registrations := s.registrations.set i { x with listed := false, registered := false } ++
        [⟨engine, x.kind, x.callback, s.events.length, true, true, false⟩]
      events := (s.events ++ [(⟨s.registrations.length, ev.origin, ev.generation + 1⟩ :
        Handle)]).set
        x.event { ev with target := s.registrations.length } } := by
  have htarget := hl.target h
  unfold transferEvent
  simp only [hl.registration, hl.event, hl.listed, if_true, Engines.register,
    stopEvent_events, length_stopEvent]
  unfold stopEvent
  simp only [hl.event, htarget, hl.registration]
  simp

theorem transferEvent_stopped (hi : ∀ x ev, ¬ s.Live i x ev) (engine : ℕ) :
    transferEvent engine s i = s := by
  unfold transferEvent
  split
  · rfl
  case h_2 x hx =>
    split
    · rfl
    case h_2 ev hev =>
      split
      case isTrue hlisted => exact absurd ⟨hx, hlisted, hev⟩ (hi x ev)
      case isFalse => rfl

theorem events_transferEvent (h : s.Linked) (hl : s.Live i x ev)
    (hc : (transferEvent engine s i).events[c]? = some e) :
    c = x.event ∧ e = { ev with target := s.registrations.length } ∨
      c = s.events.length ∧ e = ⟨s.registrations.length, ev.origin, ev.generation + 1⟩ ∨
      c ≠ x.event ∧ s.events[c]? = some e := by
  rw [transferEvent_eq h hl] at hc
  rcases Tickets.getElem?_set_cases hc with hset | ⟨hne, hc⟩
  · exact .inl hset
  · rcases Tickets.getElem?_append_cases hc with hold | hnew
    · exact .inr (.inr ⟨hne, hold⟩)
    · exact .inr (.inl hnew)

theorem Live.of_transferEvent (h : s.Linked) (hl : s.Live i x ev)
    (hj : (transferEvent engine s i).Live j y e) :
    s.Live j y e ∧ j ≠ i ∨ j = s.registrations.length ∧
      y = ⟨engine, x.kind, x.callback, s.events.length, true, true, false⟩ ∧
      e = ⟨s.registrations.length, ev.origin, ev.generation + 1⟩ := by
  have hlt := (List.getElem?_eq_some_iff.mp hl.event).1
  have hregistration := hj.registration
  rw [transferEvent_eq h hl] at hregistration
  rcases Tickets.getElem?_append_cases hregistration with hset | ⟨hj', rfl⟩
  · rcases Tickets.getElem?_set_cases hset with ⟨-, rfl⟩ | ⟨hne, hold⟩
    · exact absurd hj.listed (by simp)
    · obtain ⟨ev', hev', htarget⟩ := h.own j y hold hj.listed
      have hold' : s.Live j y ev' := ⟨hold, hj.listed, hev'⟩
      rcases events_transferEvent h hl hj.event with ⟨hevent, -⟩ | ⟨hevent, -⟩ | ⟨-, hevent⟩
      · rw [hevent, hl.event] at hev'
        cases hev'
        exact absurd (htarget.symm.trans (hl.target h)) hne
      · have hlt' := (List.getElem?_eq_some_iff.mp hev').1
        omega
      · exact .inl ⟨⟨hold, hj.listed, hevent⟩, hne⟩
  · rw [List.length_set] at hj'
    refine .inr ⟨hj', rfl, ?_⟩
    rcases events_transferEvent h hl hj.event with ⟨hevent, -⟩ | ⟨-, hevent⟩ | ⟨-, hevent⟩
    · simp only at hevent
      omega
    · exact hevent
    · have hlt' := (List.getElem?_eq_some_iff.mp hevent).1
      exact absurd hlt' (Nat.lt_irrefl _)

theorem Live.transferEvent_other (h : s.Linked) (hl : s.Live i x ev) (hj : s.Live j y e)
    (hne : j ≠ i) : (transferEvent engine s i).Live j y e := by
  have hevent : y.event ≠ x.event := by
    intro heq
    have hsame := hj.event
    rw [heq, hl.event] at hsame
    cases hsame
    exact hne ((hj.target h).symm.trans (hl.target h))
  rw [transferEvent_eq h hl]
  refine ⟨?_, hj.listed, ?_⟩
  · have hlt := (List.getElem?_eq_some_iff.mp hj.registration).1
    rw [List.getElem?_append_left (by rwa [List.length_set]), List.getElem?_set_ne hne.symm]
    exact hj.registration
  · have hlt := (List.getElem?_eq_some_iff.mp hj.event).1
    rw [List.getElem?_set_ne hevent.symm, List.getElem?_append_left hlt]
    exact hj.event

theorem Live.transferEvent_self (h : s.Linked) (hl : s.Live i x ev) :
    (transferEvent engine s i).Live s.registrations.length
      ⟨engine, x.kind, x.callback, s.events.length, true, true, false⟩
      ⟨s.registrations.length, ev.origin, ev.generation + 1⟩ := by
  have hlt := (List.getElem?_eq_some_iff.mp hl.event).1
  rw [transferEvent_eq h hl]
  refine ⟨?_, rfl, ?_⟩
  · rw [List.getElem?_append_right (by rw [List.length_set]), List.length_set, Nat.sub_self]
    rfl
  · rw [List.getElem?_set_ne (by simp only; omega)]
    exact List.getElem?_concat_length

theorem Linked.transferEvent_live (h : s.Linked) (hl : s.Live i x ev) :
    (transferEvent engine s i).Linked := by
  have hbounds := h.bounds _ _ hl.event
  have hlt := (List.getElem?_eq_some_iff.mp hl.event).1
  have hlengths : (transferEvent engine s i).registrations.length = s.registrations.length + 1 ∧
      (transferEvent engine s i).events.length = s.events.length + 1 := by
    rw [transferEvent_eq h hl]
    simp
  -- the handles of another callback are as they were
  have hother : ∀ {j y} {e' : Handle} {c : ℕ} {e : Handle}, s.Live j y e' → j ≠ i →
      (transferEvent engine s i).events[c]? = some e → e.origin = e'.origin →
      s.events[c]? = some e := by
    intro j y e' c e hj hne hc horigin
    have hdifferent : ev.origin ≠ e'.origin := fun heq => hne (h.single hj hl heq.symm)
    rcases events_transferEvent h hl hc with ⟨-, rfl⟩ | ⟨-, rfl⟩ | ⟨-, hold⟩
    · exact absurd horigin hdifferent
    · exact absurd horigin hdifferent
    · exact hold
  refine ⟨?_, ?_, ?_, ?_, ?_, ?_, ?_⟩
  · intro j y hj
    rw [transferEvent_eq h hl] at hj
    rcases Tickets.getElem?_append_cases hj with hset | ⟨-, rfl⟩
    · rcases Tickets.getElem?_set_cases hset with ⟨-, rfl⟩ | ⟨-, hold⟩
      · rfl
      · exact h.both j y hold
    · rfl
  · intro j y hj hlisted
    rw [transferEvent_eq h hl] at hj
    rcases Tickets.getElem?_append_cases hj with hset | ⟨hlength, rfl⟩
    · rcases Tickets.getElem?_set_cases hset with ⟨-, rfl⟩ | ⟨hne, hold⟩
      · cases hlisted
      · obtain ⟨e, he, htarget⟩ := h.own j y hold hlisted
        exact ⟨e, (Live.transferEvent_other h hl ⟨hold, hlisted, he⟩ hne).event, htarget⟩
    · rw [List.length_set] at hlength
      exact ⟨_, (hl.transferEvent_self h).event, hlength.symm⟩
  · intro c e hc
    rw [hlengths.1, hlengths.2]
    rcases events_transferEvent h hl hc with ⟨-, rfl⟩ | ⟨-, rfl⟩ | ⟨-, hold⟩
    · simp only
      omega
    · simp only
      omega
    · have hbounds' := h.bounds c e hold
      omega
  · intro j y e' c e hj hc htarget
    rcases Live.of_transferEvent h hl hj with ⟨hold, hne⟩ | ⟨rfl, -, rfl⟩
    · have hlt' := (List.getElem?_eq_some_iff.mp hold.registration).1
      rcases events_transferEvent h hl hc with ⟨-, rfl⟩ | ⟨-, rfl⟩ | ⟨-, hc⟩
      · simp only at htarget
        omega
      · simp only at htarget
        omega
      · exact h.same j y e' c e hold hc htarget
    · rcases events_transferEvent h hl hc with ⟨-, rfl⟩ | ⟨-, rfl⟩ | ⟨-, hc⟩
      · rfl
      · rfl
      · have hbounds' := h.bounds c e hc
        omega
  · intro j y e' c e hj hc horigin
    rcases Live.of_transferEvent h hl hj with ⟨hold, hne⟩ | ⟨rfl, -, rfl⟩
    · exact h.newest j y e' c e hold (hother hold hne hc horigin) horigin
    · rcases events_transferEvent h hl hc with ⟨-, rfl⟩ | ⟨-, rfl⟩ | ⟨-, hc⟩
      · exact Nat.le_succ _
      · exact Nat.le_refl _
      · have hle := h.newest i x ev c e hl hc horigin
        simp only
        omega
  · intro j y e' c e hj hc horigin hle
    rcases Live.of_transferEvent h hl hj with ⟨hold, hne⟩ | ⟨rfl, -, rfl⟩
    · exact h.linked j y e' c e hold (hother hold hne hc horigin) horigin hle
    · rcases events_transferEvent h hl hc with ⟨-, rfl⟩ | ⟨-, rfl⟩ | ⟨hne, hc⟩
      · rfl
      · rfl
      · -- a third handle is two transfers old
        have hle' := h.newest i x ev c e hl hc horigin
        simp only at hle
        exact absurd (h.unique c x.event e ev hc hl.event horigin (by omega)) hne
  · have hold : ∀ {c : ℕ} {e : Handle}, (transferEvent engine s i).events[c]? = some e →
        c = s.events.length ∧ e = ⟨s.registrations.length, ev.origin, ev.generation + 1⟩ ∨
        ∃ e' : Handle, s.events[c]? = some e' ∧ e'.origin = e.origin ∧
        e'.generation = e.generation := by
      intro c e hc
      rcases events_transferEvent h hl hc with ⟨rfl, rfl⟩ | hnew | ⟨-, hc⟩
      · exact .inr ⟨ev, hl.event, rfl, rfl⟩
      · exact .inl hnew
      · exact .inr ⟨e, hc, rfl, rfl⟩
    have hfresh : ∀ {c : ℕ} {e : Handle}, s.events[c]? = some e → e.origin = ev.origin →
        e.generation ≠ ev.generation + 1 := by
      intro c e hc horigin
      have hle := h.newest i x ev c e hl hc horigin
      omega
    intro c c' e e' hc hc' horigin hgeneration
    rcases hold hc with ⟨rfl, rfl⟩ | ⟨e1, hc, horigin1, hgeneration1⟩ <;>
      rcases hold hc' with ⟨rfl, rfl⟩ | ⟨e2, hc', horigin2, hgeneration2⟩
    · rfl
    · exact absurd (hgeneration2.trans hgeneration.symm) (hfresh hc' (horigin2.trans horigin.symm))
    · exact absurd (hgeneration1.trans hgeneration) (hfresh hc (horigin1.trans horigin))
    · exact h.unique c c' e1 e2 hc hc' (by rw [horigin1, horigin2, horigin])
        (by rw [hgeneration1, hgeneration2, hgeneration])

/-- The callback `f` that the user registered as `u` is registered. -/
def Served (s : Engines δ φ) (u : ℕ) (kind : Kind δ) (f : φ) : Prop :=
  ∃ i x ev, s.Live i x ev ∧ ev.origin = u ∧ x.kind = kind ∧ x.callback = f

/-- From `s` to `t`, callbacks have been registered elsewhere. -/
structure Moved (s t : Engines δ φ) : Prop where
  linked : t.Linked
  served : ∀ u k f, t.Served u k f ↔ s.Served u k f
  current : t.current = s.current
  log : t.log = s.log
  events : s.events.length ≤ t.events.length

theorem Moved.refl (h : s.Linked) : Moved s s :=
  ⟨h, fun _ _ _ => Iff.rfl, rfl, rfl, Nat.le_refl _⟩

theorem Moved.trans {u : Engines δ φ} (h : Moved s t) (h' : Moved t u) : Moved s u :=
  ⟨h'.linked, fun v k f => (h'.served v k f).trans (h.served v k f), h'.current.trans h.current,
    h'.log.trans h.log, h.events.trans h'.events⟩

theorem Linked.transferEvent (h : s.Linked) (engine i : ℕ) :
    Moved s (transferEvent engine s i) := by
  by_cases hlive : ∃ x ev, s.Live i x ev
  · obtain ⟨x, ev, hl⟩ := hlive
    refine ⟨h.transferEvent_live hl, fun u k f => ⟨?_, ?_⟩, ?_, ?_, ?_⟩
    · rintro ⟨j, y, e, hj, rfl, rfl, rfl⟩
      rcases Live.of_transferEvent h hl hj with ⟨hold, -⟩ | ⟨-, rfl, rfl⟩
      · exact ⟨j, y, e, hold, rfl, rfl, rfl⟩
      · exact ⟨i, x, ev, hl, rfl, rfl, rfl⟩
    · rintro ⟨j, y, e, hj, rfl, rfl, rfl⟩
      by_cases hne : j = i
      · subst hne
        have hx := hj.registration
        rw [hl.registration] at hx
        cases hx
        have he := hj.event
        rw [hl.event] at he
        cases he
        exact ⟨_, _, _, hl.transferEvent_self h, rfl, rfl, rfl⟩
      · exact ⟨j, y, e, Live.transferEvent_other h hl hj hne, rfl, rfl, rfl⟩
    · rw [transferEvent_eq h hl]
    · rw [transferEvent_eq h hl]
    · rw [transferEvent_eq h hl]
      simp
  · rw [transferEvent_stopped fun x ev hl => hlive ⟨x, ev, hl⟩]
    exact .refl h

/-- Callbacks are registered with `engine`, or with the current engine as `p` allows. -/
def Within (engine : ℕ) (p : ℕ → Kind δ → Prop) (s : Engines δ φ) : Prop :=
  ∀ j y e, s.Live j y e → y.engine = engine ∨ y.engine = s.current ∧ p j y.kind

theorem transferList_moved (engine : ℕ) (l : List ℕ) : ∀ s : Engines δ φ, s.Linked →
    Moved s (l.foldl (transferEvent engine) s) := by
  induction l with
  | nil => exact fun s h => .refl h
  | cons i l ih =>
    intro s h
    have hfirst := h.transferEvent engine i
    exact hfirst.trans (ih _ hfirst.linked)

/-- The registrations of the list are left behind. -/
theorem transferList_within {p : Kind δ → Prop} {kind : Kind δ → Bool} (engine : ℕ) (l : List ℕ) :
    ∀ s : Engines δ φ, s.Linked →
    s.Within engine (fun j k => p k ∧ (kind k = true → j ∈ l)) →
    (l.foldl (transferEvent engine) s).Within engine fun _ k => p k ∧ kind k = false := by
  induction l with
  | nil =>
    intro s _ hw j y e hl
    refine (hw j y e hl).imp_right fun ⟨hcurrent, hp, hmem⟩ => ⟨hcurrent, hp, ?_⟩
    by_contra hkind
    exact absurd (hmem (eq_true_of_ne_false hkind)) List.not_mem_nil
  | cons i l ih =>
    intro s h hw
    have hfirst := h.transferEvent engine i
    refine ih _ hfirst.linked fun j y e hj => ?_
    rw [hfirst.current]
    have hrest : ∀ {y e}, s.Live j y e → j ≠ i →
        y.engine = engine ∨ y.engine = s.current ∧ p y.kind ∧ (kind y.kind = true → j ∈ l) := by
      intro y e hold hne
      refine (hw j y e hold).imp_right fun ⟨hcurrent, hp, hmem⟩ => ⟨hcurrent, hp, fun hkind => ?_⟩
      exact (List.mem_cons.mp (hmem hkind)).resolve_left hne
    by_cases hlive : ∃ x ev, s.Live i x ev
    · obtain ⟨x, ev, hl⟩ := hlive
      rcases Live.of_transferEvent h hl hj with ⟨hold, hne⟩ | ⟨-, rfl, -⟩
      · exact hrest hold hne
      · exact .inl rfl
    · rw [transferEvent_stopped fun x ev hl => hlive ⟨x, ev, hl⟩] at hj
      refine hrest hj ?_
      rintro rfl
      exact hlive ⟨y, e, hj⟩

theorem mem_sequence {kind : Kind δ → Bool} :
    i ∈ s.sequence engine kind ↔ ∃ x, s.registrations[i]? = some x ∧ x.listed = true ∧
      x.engine = engine ∧ kind x.kind = true := by
  unfold sequence
  rw [List.mem_filter, List.mem_range]
  constructor
  · rintro ⟨-, hi⟩
    cases hx : s.registrations[i]? with
    | none => simp [hx] at hi
    | some x =>
      simp only [hx, Bool.and_eq_true, beq_iff_eq] at hi
      exact ⟨x, rfl, hi.1.1, hi.1.2, hi.2⟩
  · rintro ⟨x, hx, hlisted, hengine, hkind⟩
    refine ⟨(List.getElem?_eq_some_iff.mp hx).1, ?_⟩
    simp [hx, hlisted, hengine, hkind]

theorem Linked.transferSequence (h : s.Linked) {p : Kind δ → Prop}
    (hw : s.Within engine fun _ k => p k) (kind : Kind δ → Bool) :
    Moved s (s.transferSequence engine kind) ∧
      (s.transferSequence engine kind).Within engine fun _ k => p k ∧ kind k = false := by
  refine ⟨transferList_moved engine _ s h, transferList_within engine _ s h ?_⟩
  intro j y e hl
  refine (hw j y e hl).imp_right fun ⟨hcurrent, hp⟩ => ⟨hcurrent, hp, fun hkind => ?_⟩
  exact mem_sequence.mpr ⟨y, hl.registration, hl.listed, hcurrent, hkind⟩

theorem Linked.transfer (h : s.Linked) (hhere : ∀ i x ev, s.Live i x ev → x.engine = s.current)
    (engine : ℕ) :
    Moved s (s.transfer engine) ∧
      ∀ i x ev, (s.transfer engine).Live i x ev → x.engine = engine := by
  have hstart : s.Within engine fun _ _ => True := fun i x ev hl => .inr ⟨hhere i x ev hl, trivial⟩
  obtain ⟨h1, hw1⟩ := h.transferSequence hstart Kind.isReadable
  obtain ⟨h2, hw2⟩ := h1.linked.transferSequence hw1 Kind.isWritable
  obtain ⟨h3, hw3⟩ := h2.linked.transferSequence hw2 Kind.isTimer
  refine ⟨(h1.trans h2).trans h3, fun i x ev hl => ?_⟩
  rcases hw3 i x ev hl with hengine | ⟨-, ⟨⟨-, hr⟩, hw⟩, ht⟩
  · exact hengine
  · cases hkind : x.kind <;> simp [hkind, Kind.isReadable, Kind.isWritable,
      Kind.isTimer] at hr hw ht

theorem destroy_eq (h : s.Linked) (hnone : ∀ i x ev, s.Live i x ev → x.engine ≠ s.current) :
    s.destroy = s := by
  have hsequence : ∀ kind : Kind δ → Bool, s.stopSequence kind = s := by
    intro kind
    have hempty : s.sequence s.current kind = [] := by
      refine List.eq_nil_iff_forall_not_mem.mpr fun i hi => ?_
      obtain ⟨x, hx, hlisted, hengine, -⟩ := mem_sequence.mp hi
      obtain ⟨ev, hev, -⟩ := h.own i x hx hlisted
      exact hnone i x ev ⟨hx, hlisted, hev⟩ hengine
    rw [stopSequence, hempty, List.foldl_nil]
  rw [destroy, hsequence, hsequence, hsequence]

/-! ## Steps -/

/-- No callback is called after it has been stopped. -/
def Silent (log : List (EngineEvent δ φ)) : Prop :=
  log.Pairwise fun a b => ∀ u, a = .stopped u → b ≠ .called u

structure Sound (s : Engines δ φ) : Prop where
  linked : s.Linked
  here : ∀ i x ev, s.Live i x ev → x.engine = s.current
  handles : ∀ a ∈ s.log, ∀ u k f, a = .registered u k f ∨ a = .stopped u → u < s.events.length
  named : ∀ u k f k' f', .registered u k f ∈ s.log → .registered u k' f' ∈ s.log → k = k' ∧ f = f'
  served : ∀ u k f, .registered u k f ∈ s.log → .stopped u ∉ s.log → s.Served u k f
  known : ∀ u k f, s.Served u k f → .registered u k f ∈ s.log ∧ .stopped u ∉ s.log
  silent : Silent s.log

theorem sound_init : (init : Engines δ φ).Sound where
  linked := ⟨by simp [init], by simp [init], by simp [init],
    fun _ _ _ _ _ hl => absurd hl.registration (by simp [init]),
    fun _ _ _ _ _ hl => absurd hl.registration (by simp [init]),
    fun _ _ _ _ _ hl => absurd hl.registration (by simp [init]), by simp [init]⟩
  here _ _ _ hl := by simpa [init] using hl.registration
  handles := by simp [init]
  named := by simp [init]
  served := by simp [init]
  known := by
    rintro u k f ⟨i, x, ev, hl, -⟩
    simpa [init] using hl.registration
  silent := List.Pairwise.nil

theorem Live.congr (hr : t.registrations = s.registrations) (he : t.events = s.events) :
    t.Live i x ev ↔ s.Live i x ev :=
  ⟨fun h => ⟨hr ▸ h.registration, h.listed, he ▸ h.event⟩,
    fun h => ⟨hr ▸ h.registration, h.listed, he ▸ h.event⟩⟩

theorem Linked.congr (h : s.Linked) (hr : t.registrations = s.registrations)
    (he : t.events = s.events) : t.Linked where
  both := hr ▸ h.both
  own := hr ▸ he ▸ h.own
  bounds := hr ▸ he ▸ h.bounds
  same i x ev c e hl hc := h.same i x ev c e ((Live.congr hr he).mp hl) (he ▸ hc)
  newest i x ev c e hl hc := h.newest i x ev c e ((Live.congr hr he).mp hl) (he ▸ hc)
  linked i x ev c e hl hc := h.linked i x ev c e ((Live.congr hr he).mp hl) (he ▸ hc)
  unique := he ▸ h.unique

theorem Silent.append {log : List (EngineEvent δ φ)} {b : EngineEvent δ φ} (h : Silent log)
    (hb : ∀ u, b = .called u → .stopped u ∉ log) : Silent (log ++ [b]) := by
  refine List.pairwise_append.mpr ⟨h, List.pairwise_singleton _ _, ?_⟩
  rintro a ha b' hb' u rfl rfl
  exact hb u (List.mem_singleton.mp hb').symm ha

theorem Sound.on (h : s.Sound) (kind : Kind δ) (f : φ) :
    Sound { s.register s.current kind f s.events.length 0 with
      log := s.log ++ [.registered s.events.length kind f] } := by
  have hnew : ∀ k f, .registered s.events.length k f ∉ s.log ∧
      EngineEvent.stopped s.events.length ∉ s.log := fun k f =>
    ⟨fun hmem => Nat.lt_irrefl _ (h.handles _ hmem _ k f (.inl rfl)),
      fun hmem => Nat.lt_irrefl _ (h.handles _ hmem _ kind f (.inr rfl))⟩
  have hlive : ∀ {i x ev}, Live { s.register s.current kind f s.events.length 0 with
      log := s.log ++ [.registered s.events.length kind f] } i x ev ↔
      (s.register s.current kind f s.events.length 0).Live i x ev := Live.congr rfl rfl
  refine ⟨(h.linked.register kind f).congr rfl rfl, ?_, ?_, ?_, ?_, ?_, ?_⟩
  · intro i x ev hl
    rcases (hlive.mp hl).of_register h.linked with hold | ⟨-, rfl, -⟩
    · exact h.here i x ev hold
    · rfl
  · intro a ha u k g hu
    simp only [register, List.length_append, List.length_singleton]
    rcases List.mem_append.mp ha with ha | ha
    · exact Nat.lt_succ_of_lt (h.handles a ha u k g hu)
    · obtain rfl := List.mem_singleton.mp ha
      rcases hu with hu | hu
      · obtain ⟨rfl, -, -⟩ := EngineEvent.registered.inj hu
        exact Nat.lt_succ_self _
      · cases hu
  · intro u k g k' g' hu hu'
    rcases List.mem_append.mp hu with hu | hu <;> rcases List.mem_append.mp hu' with hu' | hu'
    · exact h.named u k g k' g' hu hu'
    · obtain ⟨rfl, -, -⟩ := EngineEvent.registered.inj (List.mem_singleton.mp hu')
      exact absurd hu (hnew k g).1
    · obtain ⟨rfl, -, -⟩ := EngineEvent.registered.inj (List.mem_singleton.mp hu)
      exact absurd hu' (hnew k' g').1
    · obtain ⟨rfl, rfl, rfl⟩ := EngineEvent.registered.inj (List.mem_singleton.mp hu)
      obtain ⟨-, rfl, rfl⟩ := EngineEvent.registered.inj (List.mem_singleton.mp hu')
      exact ⟨rfl, rfl⟩
  · intro u k g hu hstopped
    rcases List.mem_append.mp hu with hu | hu
    · obtain ⟨i, x, ev, hl, hserved⟩ := h.served u k g hu fun hmem =>
        hstopped (List.mem_append_left _ hmem)
      exact ⟨i, x, ev, hlive.mpr (hl.register kind f s.events.length 0), hserved⟩
    · obtain ⟨rfl, rfl, rfl⟩ := EngineEvent.registered.inj (List.mem_singleton.mp hu)
      exact ⟨_, _, _, hlive.mpr (live_register s k g s.events.length 0), rfl, rfl, rfl⟩
  · rintro u k g ⟨i, x, ev, hl, rfl, rfl, rfl⟩
    have hnot : ∀ u, EngineEvent.stopped u ∉ s.log →
        EngineEvent.stopped u ∉ s.log ++ [.registered s.events.length kind f] := fun u hu hmem =>
      (List.mem_append.mp hmem).elim hu fun hmem => by cases List.mem_singleton.mp hmem
    rcases (hlive.mp hl).of_register h.linked with hold | ⟨-, rfl, rfl⟩
    · obtain ⟨hregistered, hstopped⟩ := h.known _ _ _ ⟨i, x, ev, hold, rfl, rfl, rfl⟩
      exact ⟨List.mem_append_left _ hregistered, hnot _ hstopped⟩
    · exact ⟨List.mem_append_right _ (List.mem_singleton_self _), hnot _ (hnew kind f).2⟩
  · exact h.silent.append (by simp)

/-- The handle has lived through two transfers of its callback. -/
def outlived (s : Engines δ φ) (c : ℕ) : Bool :=
  match s.events[c]? with
  | none => false
  | some e => s.registrations.any fun x =>
    match s.events[x.event]? with
    | none => false
    | some ev => x.listed && ev.origin == e.origin && decide (e.generation + 1 < ev.generation)

theorem target_of_not_outlived (h : s.Linked) (hc : s.events[c]? = some e)
    (hnot : s.outlived c = false) (hl : s.Live i x ev) (horigin : ev.origin = e.origin) :
    e.target = i := by
  refine h.linked i x ev c e hl hc horigin.symm ?_
  by_contra hlt
  have hany : s.outlived c = true := by
    simp only [outlived, hc, List.any_eq_true]
    refine ⟨x, List.mem_of_getElem? hl.registration, ?_⟩
    simp [hl.event, hl.listed, horigin]
    omega
  rw [hnot] at hany
  cases hany

theorem Sound.stopEvent (h : s.Sound) (hc : s.events[c]? = some e) (hnot : s.outlived c = false) :
    Sound { s.stopEvent c with log := s.log ++ [.stopped e.origin] } := by
  have hlive : ∀ {i x ev}, Live { s.stopEvent c with log := s.log ++ [.stopped e.origin] } i x ev ↔
      (s.stopEvent c).Live i x ev := Live.congr rfl rfl
  have hmem : ∀ {u k f}, .registered u k f ∈ s.log ++ [.stopped e.origin] ↔
      EngineEvent.registered u k f ∈ s.log := by simp
  refine ⟨(h.linked.stopEvent hc).congr rfl rfl, ?_, ?_, ?_, ?_, ?_, ?_⟩
  · intro i x ev hl
    simpa using h.here i x ev ((hlive.mp hl).of_stopEvent hc).1
  · intro a ha u k f hu
    simp only [stopEvent_events]
    rcases List.mem_append.mp ha with ha | ha
    · exact h.handles a ha u k f hu
    · obtain rfl := List.mem_singleton.mp ha
      rcases hu with hu | hu
      · cases hu
      · cases hu
        exact (h.linked.bounds c e hc).2
  · exact fun u k f k' f' hu hu' => h.named u k f k' f' (hmem.mp hu) (hmem.mp hu')
  · intro u k f hu hstopped
    rw [List.mem_append, List.mem_singleton, not_or] at hstopped
    obtain ⟨i, x, ev, hl, rfl, hserved⟩ := h.served u k f (hmem.mp hu) hstopped.1
    refine ⟨i, x, ev, hlive.mpr (hl.stopEvent hc ?_), rfl, hserved⟩
    rintro rfl
    exact hstopped.2 (congrArg _ (h.linked.same _ x ev c e hl hc rfl).symm)
  · rintro u k f ⟨i, x, ev, hl, rfl, rfl, rfl⟩
    obtain ⟨hold, hne⟩ := (hlive.mp hl).of_stopEvent hc
    obtain ⟨hregistered, hstopped⟩ := h.known _ _ _ ⟨i, x, ev, hold, rfl, rfl, rfl⟩
    refine ⟨hmem.mpr hregistered, fun hmem => ?_⟩
    rcases List.mem_append.mp hmem with hmem | hmem
    · exact hstopped hmem
    · exact hne (target_of_not_outlived h.linked hc hnot hold
        (EngineEvent.stopped.inj (List.mem_singleton.mp hmem))).symm
  · exact h.silent.append (by simp)

theorem Sound.call (h : s.Sound) (hx : s.registrations[i]? = some x)
    (hev : s.events[x.event]? = some ev) (hregistered : x.registered = true) :
    Sound { s with
      registrations := s.registrations.set i { x with fired := true }
      log := s.log ++ [.called ev.origin] } := by
  have hlisted : x.listed = true := (h.linked.both i x hx).symm.trans hregistered
  -- of the registration only `fired` changes
  have hold : ∀ {j : ℕ} {y : Registration δ φ},
      (s.registrations.set i { x with fired := true })[j]? = some y →
      ∃ y', s.registrations[j]? = some y' ∧ y = { y' with fired := y.fired } := by
    intro j y hj
    rcases Tickets.getElem?_set_cases hj with ⟨rfl, rfl⟩ | ⟨-, hold⟩
    · exact ⟨x, hx, rfl⟩
    · exact ⟨y, hold, rfl⟩
  have hlive : ∀ {j y e}, Live { s with
      registrations := s.registrations.set i { x with fired := true }
      log := s.log ++ [.called ev.origin] } j y e →
      ∃ y', s.Live j y' e ∧ y = { y' with fired := y.fired } := by
    intro j y e hl
    obtain ⟨y', hy', heq⟩ := hold hl.registration
    have hlisted := hl.listed
    have hevent := hl.event
    rw [heq] at hlisted hevent
    exact ⟨y', ⟨hy', hlisted, hevent⟩, heq⟩
  have hmem : ∀ {u k f}, .registered u k f ∈ s.log ++ [.called ev.origin] ↔
      EngineEvent.registered u k f ∈ s.log := by simp
  have hmem' : ∀ {u}, .stopped u ∈ s.log ++ [.called ev.origin] ↔
      EngineEvent.stopped u ∈ s.log := by simp
  refine ⟨⟨?_, ?_, ?_, ?_, ?_, ?_, h.linked.unique⟩, ?_, ?_, ?_, ?_, ?_, ?_⟩
  · intro j y hj
    obtain ⟨y', hy', heq⟩ := hold hj
    rw [heq]
    exact h.linked.both j y' hy'
  · intro j y hj hlisted
    obtain ⟨y', hy', heq⟩ := hold hj
    rw [heq] at hlisted ⊢
    exact h.linked.own j y' hy' hlisted
  · simpa using h.linked.bounds
  · intro j y e c e' hl
    obtain ⟨y', hl', -⟩ := hlive hl
    exact h.linked.same j y' e c e' hl'
  · intro j y e c e' hl
    obtain ⟨y', hl', -⟩ := hlive hl
    exact h.linked.newest j y' e c e' hl'
  · intro j y e c e' hl
    obtain ⟨y', hl', -⟩ := hlive hl
    exact h.linked.linked j y' e c e' hl'
  · intro j y e hl
    obtain ⟨y', hl', heq⟩ := hlive hl
    rw [heq]
    exact h.here j y' e hl'
  · intro a ha u k f hu
    rcases List.mem_append.mp ha with ha | ha
    · exact h.handles a ha u k f hu
    · obtain rfl := List.mem_singleton.mp ha
      rcases hu with hu | hu <;> cases hu
  · exact fun u k f k' f' hu hu' => h.named u k f k' f' (hmem.mp hu) (hmem.mp hu')
  · intro u k f hu hstopped
    obtain ⟨j, y, e, hl, rfl, rfl, rfl⟩ := h.served u k f (hmem.mp hu) fun hu =>
      hstopped (hmem'.mpr hu)
    by_cases hji : j = i
    · subst hji
      have hy := hl.registration
      rw [hx] at hy
      cases hy
      refine ⟨j, { x with fired := true }, e, ⟨?_, hl.listed, hl.event⟩, rfl, rfl, rfl⟩
      exact List.getElem?_set_self (List.getElem?_eq_some_iff.mp hx).1
    · refine ⟨j, y, e, ⟨?_, hl.listed, hl.event⟩, rfl, rfl, rfl⟩
      exact (List.getElem?_set_ne (Ne.symm hji)).trans hl.registration
  · rintro u k f ⟨j, y, e, hl, rfl, rfl, rfl⟩
    obtain ⟨y', hl', heq⟩ := hlive hl
    obtain ⟨hknown, hstopped⟩ := h.known _ _ _ ⟨j, y', e, hl', rfl, rfl, rfl⟩
    rw [heq]
    exact ⟨hmem.mpr hknown, fun hu => hstopped (hmem'.mp hu)⟩
  · refine h.silent.append ?_
    intro u hu
    cases hu
    exact (h.known _ _ _ ⟨i, x, ev, ⟨hx, hlisted, hev⟩, rfl, rfl, rfl⟩).2

theorem Sound.set (h : s.Sound) (destroy : Bool)
    (hself : ¬ (engine = s.current ∧ s.sequence s.current (fun _ => true) ≠ [])) :
    Sound { (if destroy then (s.transfer engine).destroy else s.transfer engine) with
      current := engine } := by
  obtain ⟨hmoved, hengine⟩ := h.linked.transfer h.here engine
  have hnone : ∀ i x ev, (s.transfer engine).Live i x ev →
    x.engine ≠ (s.transfer engine).current := by
    intro i x ev hl hcurrent
    have hsame : engine = s.current := by rw [← hengine i x ev hl, hcurrent, hmoved.current]
    obtain ⟨j, y, e, hl', -⟩ := (hmoved.served _ _ _).mp ⟨i, x, ev, hl, rfl, rfl, rfl⟩
    refine hself ⟨hsame, List.ne_nil_of_mem (a := j) (mem_sequence.mpr ⟨y, hl'.registration,
      hl'.listed, h.here j y e hl', rfl⟩)⟩
  have hdestroy : (if destroy then (s.transfer engine).destroy else s.transfer engine) =
      s.transfer engine := by
    rw [destroy_eq hmoved.linked hnone, ite_self]
  rw [hdestroy]
  have hlive : ∀ {i x ev}, Live { s.transfer engine with current := engine } i x ev ↔
      (s.transfer engine).Live i x ev := Live.congr rfl rfl
  have hserved : ∀ u k f, Served { s.transfer engine with current := engine } u k f ↔
      s.Served u k f := by
    intro u k f
    rw [← hmoved.served u k f]
    simp only [Served, hlive]
  refine ⟨hmoved.linked.congr rfl rfl, fun i x ev hl => hengine i x ev (hlive.mp hl), ?_,
    ?_, ?_, ?_, ?_⟩
  · intro a ha u k f hu
    exact Nat.lt_of_lt_of_le (h.handles a (hmoved.log ▸ ha) u k f hu) hmoved.events
  · exact fun u k f k' f' hu hu' => h.named u k f k' f' (hmoved.log ▸ hu) (hmoved.log ▸ hu')
  · exact fun u k f hu hstopped => (hserved u k f).mpr (h.served u k f (hmoved.log ▸ hu)
      fun hmem => hstopped (hmoved.log.symm ▸ hmem))
  · intro u k f hu
    obtain ⟨hknown, hstopped⟩ := h.known u k f ((hserved u k f).mp hu)
    exact ⟨hmoved.log.symm ▸ hknown, fun hmem => hstopped (hmoved.log ▸ hmem)⟩
  · exact hmoved.log.symm ▸ h.silent

end Engines

open Engines

/-- `stop_event` is not called with a handle that has lived through two transfers. -/
def upToDate {δ φ : Type} (s : Engines δ φ) : EngineStep δ φ → Bool
  | .stopEvent c => !s.outlived c
  | _ => true

namespace Engines

variable {δ φ : Type} {s t : Engines δ φ}

theorem sound_step {a : EngineStep δ φ} (h : s.Sound) (ha : upToDate s a = true)
    (hstep : engineStep s a = some t) : t.Sound := by
  cases a with
  | on kind f =>
    cases hstep
    exact h.on kind f
  | stopEvent c =>
    obtain ⟨e, hc, rfl⟩ := Option.map_eq_some_iff.mp hstep
    exact h.stopEvent hc (by simpa [upToDate] using ha)
  | call i =>
    obtain ⟨x, hx, hstep⟩ := Option.bind_eq_some_iff.mp hstep
    obtain ⟨ev, hev, hstep⟩ := Option.bind_eq_some_iff.mp hstep
    split at hstep
    case isTrue hcall =>
      cases hstep
      exact h.call hx hev (by simp only [Bool.and_eq_true] at hcall; exact hcall.1)
    case isFalse => cases hstep
  | set destroy engine =>
    unfold engineStep at hstep
    simp only at hstep
    split at hstep
    case isTrue => cases hstep
    case isFalse hself =>
      cases hstep
      exact h.set destroy hself

end Engines

/-- In every run in which `stop_event` is not called with a handle that has lived through two
transfers of its callback: a callback that has not been stopped is registered once, with the current
engine; one that has been stopped is registered with no engine, is in no sequence and has not been
called any more. -/
theorem handles_are_registered_once {δ φ : Type} {s : Engines δ φ}
    (hreach : Reach engineStep (fun s a => upToDate s a = true) init s) :
    (∀ u kind f, .registered u kind f ∈ s.log → .stopped u ∉ s.log →
      ∃ i x ev, s.Live i x ev ∧ x.registered = true ∧ ev.origin = u ∧ x.kind = kind ∧
        x.callback = f ∧ i ∈ s.sequence s.current (fun _ => true) ∧
        ∀ j y e, s.Live j y e → e.origin = u → j = i) ∧
      (∀ u, .stopped u ∈ s.log → ∀ i (x : Registration δ φ) (ev : Handle),
        s.registrations[i]? = some x → s.events[x.event]? = some ev → ev.origin = u →
        x.registered = false ∧ ∀ engine kind, i ∉ s.sequence engine kind) ∧
      Engines.Silent s.log := by
  have h : s.Sound := hreach.invariant sound_init fun s a t hs ha hstep => sound_step hs ha hstep
  refine ⟨fun u kind f hu hstopped => ?_, fun u hstopped i x ev hx hev horigin => ?_, h.silent⟩
  · obtain ⟨i, x, ev, hl, rfl, rfl, rfl⟩ := h.served u kind f hu hstopped
    exact ⟨i, x, ev, hl, (h.linked.both i x hl.registration).trans hl.listed, rfl, rfl, rfl,
      mem_sequence.mpr ⟨x, hl.registration, hl.listed, h.here i x ev hl, rfl⟩,
      fun j y e hj he => h.linked.single hj hl he⟩
  · have hlisted : x.listed = false := by
      by_contra hlisted
      exact (h.known _ _ _ ⟨i, x, ev, ⟨hx, eq_true_of_ne_false hlisted, hev⟩, horigin, rfl, rfl⟩).2
        hstopped
    refine ⟨(h.linked.both i x hx).trans hlisted, fun engine kind hi => ?_⟩
    obtain ⟨x', hx', hlisted', -⟩ := mem_sequence.mp hi
    cases hx.symm.trans hx'
    rw [hlisted] at hlisted'
    cases hlisted'

/-- A callback that is moved to another engine, called there, and stopped by its first handle. -/
theorem handles_are_registered_once_and_stopped :
    ∃ s : Engines ℕ ℕ, Reach engineStep (fun s a => upToDate s a = true) init s ∧
      s.log = [.registered 0 (.readable 3) 7, .registered 1 (.timer 2 false) 8, .called 0,
        .stopped 0] ∧
      s.readableCount = 0 ∧ s.timerCount = 1 ∧ Engines.Silent s.log := by
  obtain ⟨s, hs, hlog, hr, ht⟩ : ∃ s : Engines ℕ ℕ,
      replay (checked engineStep upToDate) init [.on (.readable 3) 7, .on (.timer 2 false) 8,
        .set true 1, .call 2, .stopEvent 0] = some s ∧
      s.log = [.registered 0 (.readable 3) 7, .registered 1 (.timer 2 false) 8, .called 0,
        .stopped 0] ∧ s.readableCount = 0 ∧ s.timerCount = 1 := ⟨_, rfl, rfl, rfl, rfl⟩
  have hreach := reach_of_checked _ hs
  exact ⟨s, hreach, hlog, hr, ht, (handles_are_registered_once hreach).2.2⟩

/-- After two transfers, `stop_event` does nothing with the handle of the user: the callback stays
registered, is counted and called. -/
theorem stopped_callback_is_called :
    ∃ s : Engines ℕ ℕ, Reach engineStep (fun _ _ => True) init s ∧
      s.log = [.registered 0 (.readable 3) 7, .stopped 0, .called 0] ∧ s.readableCount = 1 ∧
      ¬ Engines.Silent s.log := by
  obtain ⟨s, hs, hlog, hr⟩ : ∃ s : Engines ℕ ℕ,
      replay engineStep init [.on (.readable 3) 7, .set true 1, .set true 2, .stopEvent 0,
        .call 2] = some s ∧
      s.log = [.registered 0 (.readable 3) 7, .stopped 0, .called 0] ∧ s.readableCount = 1 :=
    ⟨_, rfl, rfl, rfl⟩
  refine ⟨s, reach_of_replay _ hs, hlog, hr, fun hsilent => ?_⟩
  rw [hlog] at hsilent
  simp [Engines.Silent] at hsilent

end Lwt.Unix
