import Lwt.Library.Bindings
import Lwt.Library.Tickets
import Lwt.Library.Transition
import Lwt.Sequence.Prepending

/-!
# File descriptors of the `select` and `poll` engines

`select_or_poll_based` has a sequence of actions for each file descriptor that something waits for,
and an entry of `wait_readable` or `wait_writable` only as long as the sequence is not empty.  An
iteration asks the system about the file descriptors with an entry, and calls the actions of those
that are ready.

An action may register others and stop some, its own one too, while the engine is iterating over
the sequence.  When the last action of a file descriptor is stopped its sequence is given up, and
the next action gets a new one, also while the engine is still in the old one.  Between the answer
of the system and the actions of file descriptors are those of timers, which may do the same.

An exception of an action ends the iteration.  An action does not call `iter`.
-/

namespace Lwt.Unix

open Bindings Tickets Transition Function

/-- `wait_readable` or `wait_writable` -/
inductive Awaited
  | readable
  | writable
  deriving DecidableEq

/-- What `register_readable` or `register_writable` returns: the sequence, the node in it, and
whether the lazy value has been forced. -/
structure FdEvent where
  awaited : Awaited
  fd : ℕ
  actions : ℕ
  node : ℕ
  stopped : Bool

namespace FdEvent

def key (e : FdEvent) : Awaited × ℕ := (e.awaited, e.fd)

def live (key : Awaited × ℕ) (e : FdEvent) : Bool := !e.stopped && e.key == key

end FdEvent

/-- A call of `invoke_actions` that is in `iter_l`. -/
structure Invocation where
  awaited : Awaited
  fd : ℕ
  actions : ℕ
  curr : ℕ

def Invocation.key (inv : Invocation) : Awaited × ℕ := (inv.awaited, inv.fd)

/-- Where `iter` is. -/
inductive SelectPhase
  | idle
  /-- in `restart_actions`, with the file descriptors that are ready -/
  | restarting (ready : List (Awaited × ℕ))
  /-- `user` tells that an action runs. -/
  | invoking (ready : List (Awaited × ℕ)) (invocation : Option Invocation) (user : Bool)

/-- What an iteration has done: `mark` is the number of events when the first action was about to be
called.  Not part of the program. -/
structure Round where
  ready : List (Awaited × ℕ)
  mark : ℕ
  called : List ℕ

/-- The data of a node is the number of its event. -/
structure SelectBased where
  sequences : Sequences ℕ
  wait : Awaited → List (ℕ × ℕ)
  events : List FdEvent
  phase : SelectPhase
  round : Round

namespace SelectBased

def init : SelectBased := ⟨[], fun _ => [], [], .idle, ⟨[], 0, []⟩⟩

/-- The new event, whose action is added to the sequence `actions`. -/
def addAction (s : SelectBased) (awaited : Awaited) (fd actions : ℕ) : SelectBased :=
  { s with
    sequences := s.sequences.addL s.events.length actions
    events := s.events ++ [⟨awaited, fd, actions, s.sequences.length, false⟩] }

/-- A new sequence for a file descriptor that has none. -/
def addEntry (s : SelectBased) (awaited : Awaited) (fd : ℕ) : SelectBased :=
  { s with
    sequences := s.sequences.create
    wait := update s.wait awaited ((fd, s.sequences.length) :: s.wait awaited) }

/-- `register_readable fd f` and `register_writable fd f` -/
def register (s : SelectBased) (awaited : Awaited) (fd : ℕ) : SelectBased :=
  match find (s.wait awaited) fd with
  | some actions => s.addAction awaited fd actions
  | none => (s.addEntry awaited fd).addAction awaited fd s.sequences.length

/-- `Lazy.force` of what `register_readable` or `register_writable` has returned. -/
def stop (s : SelectBased) (i : ℕ) (e : FdEvent) : SelectBased :=
  if e.stopped then s
  else
    let sequences := s.sequences.remove e.node
    let wait := remove e.fd (s.wait e.awaited)
    { s with
      sequences := sequences
      wait := if sequences.isEmpty e.actions then update s.wait e.awaited wait else s.wait
      events := s.events.set i { e with stopped := true } }

/-- `invoke_actions` is called. -/
def invokeActions (s : SelectBased) (awaited : Awaited) (fd : ℕ) (ready : List (Awaited × ℕ)) :
    SelectBased :=
  let invocation := (find (s.wait awaited) fd).map fun actions => ⟨awaited, fd, actions, actions⟩
  { s with phase := .invoking ready invocation false }

/-- The loop of `iter_l`, up to the call of an action. -/
def iterate (s : SelectBased) (ready : List (Awaited × ℕ)) (inv : Invocation) :
    Option SelectBased :=
  let next := s.sequences.next inv.curr
  if next = inv.actions then some { s with phase := .invoking ready none false }
  else if s.sequences.active next then
    (s.sequences.data next).map fun i => { s with
      phase := .invoking ready (some { inv with curr := next }) true
      round := { s.round with called := s.round.called ++ [i] } }
  else some { s with phase := .invoking ready (some { inv with curr := next }) false }

/-- Code of the user runs. -/
def userCode (s : SelectBased) : Bool :=
  match s.phase with
  | .idle | .restarting _ => true
  | .invoking _ _ user => user

end SelectBased

inductive SelectStep
  | register (awaited : Awaited) (fd : ℕ)
  | stop (i : ℕ)
  /-- `iter`, up to the answer of the system: which of the file descriptors are ready, or bad -/
  | select (ready : List (Awaited × ℕ))
  /-- `restart_actions` has returned. -/
  | invoke
  | turn
  /-- an action returns -/
  | returns
  /-- an action raises an exception, which leaves `iter` -/
  | raises

/-- The system answers with some of the file descriptors that it has been asked about. -/
def selectStep (s : SelectBased) : SelectStep → Option SelectBased
  | .register awaited fd => if s.userCode then some (s.register awaited fd) else none
  | .stop i => s.events[i]?.bind fun e => if s.userCode then some (s.stop i e) else none
  | .select ready =>
    match s.phase with
    | .idle =>
      if ready.Nodup ∧ ∀ key ∈ ready, (find (s.wait key.1) key.2).isSome then
        some { s with phase := .restarting ready }
      else none
    | _ => none
  | .invoke =>
    match s.phase with
    | .restarting ready => some { s with
        phase := .invoking ready none false
        round := ⟨ready, s.events.length, []⟩ }
    | _ => none
  | .turn =>
    match s.phase with
    | .invoking [] none false => some { s with phase := .idle }
    | .invoking (key :: ready) none false => some (s.invokeActions key.1 key.2 ready)
    | .invoking ready (some inv) false => s.iterate ready inv
    | _ => none
  | .returns =>
    match s.phase with
    | .invoking ready inv true => some { s with phase := .invoking ready inv false }
    | _ => none
  | .raises =>
    match s.phase with
    | .restarting _ | .invoking _ _ true => some { s with phase := .idle }
    | _ => none

namespace SelectBased

variable {s t : SelectBased} {d : Deques ℕ} {key key' : Awaited × ℕ} {h i x : ℕ} {e : FdEvent}
  {l left rest : List ℕ} {inv : Invocation} {ready : List (Awaited × ℕ)}

/-- The sequence of a file descriptor. -/
def entry (s : SelectBased) (key : Awaited × ℕ) : Option ℕ := find (s.wait key.1) key.2

/-- The nodes of the events that have not been stopped, the last one first. -/
def nodes (s : SelectBased) (key : Awaited × ℕ) : List ℕ :=
  (s.events.filter (FdEvent.live key)).reverse.map FdEvent.node

/-! ## The events of a file descriptor -/

theorem live_iff : e.live key = true ↔ e.stopped = false ∧ e.key = key := by
  simp [FdEvent.live]

theorem mem_nodes : x ∈ s.nodes key ↔
    ∃ (i : ℕ) (e : FdEvent), s.events[i]? = some e ∧ e.stopped = false ∧ e.key = key ∧
      e.node = x := by
  unfold nodes
  rw [List.mem_map]
  constructor
  · rintro ⟨e, he, rfl⟩
    obtain ⟨hmem, hlive⟩ := List.mem_filter.mp (List.mem_reverse.mp he)
    obtain ⟨i, hi⟩ := List.mem_iff_getElem?.mp hmem
    obtain ⟨hstopped, hkey⟩ := live_iff.mp hlive
    exact ⟨i, e, hi, hstopped, hkey, rfl⟩
  · rintro ⟨i, e, hi, hstopped, hkey, rfl⟩
    exact ⟨e, List.mem_reverse.mpr
      (List.mem_filter.mpr ⟨List.mem_of_getElem? hi, live_iff.mpr ⟨hstopped, hkey⟩⟩), rfl⟩

theorem nodes_append (hevents : t.events = s.events ++ [e]) (hstopped : e.stopped = false) :
    t.nodes key = if e.key = key then e.node :: s.nodes key else s.nodes key := by
  unfold nodes
  rw [hevents, List.filter_append]
  split
  case isTrue hkey =>
    have hlive : e.live key = true := live_iff.mpr ⟨hstopped, hkey⟩
    simp [hlive]
  case isFalse hkey =>
    have hlive : ¬ e.live key = true := fun hlive => hkey (live_iff.mp hlive).2
    simp [hlive]

theorem nodes_set (hi : s.events[i]? = some e) (hstopped : e.stopped = false)
    (hevents : t.events = s.events.set i { e with stopped := true })
    (hnodup : (s.nodes e.key).Nodup) :
    t.nodes key = if e.key = key then (s.nodes key).erase e.node else s.nodes key := by
  obtain ⟨hlt, rfl⟩ := List.getElem?_eq_some_iff.mp hi
  have hsplit := List.take_append_drop i s.events
  rw [List.drop_eq_getElem_cons hlt] at hsplit
  have hset : t.events = s.events.take i ++
      { s.events[i] with stopped := true } :: s.events.drop (i + 1) := by
    rw [hevents, List.set_eq_take_append_cons_drop, if_pos hlt]
  -- the stopped event is live no more, whatever it was before
  have hgone : ¬ FdEvent.live key { s.events[i] with stopped := true } = true := fun hlive => by
    cases (live_iff.mp hlive).1
  have ht : t.nodes key = ((s.events.drop (i + 1)).filter (FdEvent.live key)).reverse.map
      FdEvent.node ++ ((s.events.take i).filter (FdEvent.live key)).reverse.map FdEvent.node := by
    unfold nodes
    rw [hset, List.filter_append, List.filter_cons_of_neg hgone, List.reverse_append,
      List.map_append]
  have hs : ∀ key', s.nodes key' =
      ((s.events.drop (i + 1)).filter (FdEvent.live key')).reverse.map FdEvent.node ++
        ((if s.events[i].key = key' then [s.events[i].node] else []) ++
          ((s.events.take i).filter (FdEvent.live key')).reverse.map FdEvent.node) := by
    intro key'
    unfold nodes
    conv_lhs => rw [← hsplit]
    rw [List.filter_append]
    split
    case isTrue hkey =>
      have hlive : s.events[i].live key' = true := live_iff.mpr ⟨hstopped, hkey⟩
      rw [List.filter_cons_of_pos hlive]
      simp
    case isFalse hkey =>
      have hlive : ¬ s.events[i].live key' = true := fun hlive => hkey (live_iff.mp hlive).2
      rw [List.filter_cons_of_neg hlive]
      simp
  split
  case isTrue hkey =>
    subst hkey
    have hself := hs s.events[i].key
    rw [if_pos rfl] at hself
    rw [hself] at hnodup
    -- the node stands once among those of its key
    have hnot : s.events[i].node ∉
        ((s.events.drop (i + 1)).filter (FdEvent.live s.events[i].key)).reverse.map
          FdEvent.node := fun hmem =>
      List.disjoint_of_nodup_append hnodup hmem (by simp)
    rw [ht, hself, List.erase_append_right _ hnot, List.singleton_append, List.erase_cons_head]
  case isFalse hkey =>
    rw [ht, hs key, if_neg hkey, List.nil_append]

/-! ## The sequences -/

/-- The sequence of a file descriptor has the nodes of its events, and the other sequences are
empty. -/
structure Registered (s : SelectBased) (d : Deques ℕ) : Prop where
  represents : Represents s.sequences d
  list : ∀ key h, s.entry key = some h → d.lists h = some (s.nodes key)
  missing : ∀ key, s.entry key = none → s.nodes key = []
  single : ∀ key key' h, s.entry key = some h → s.entry key' = some h → key = key'
  spare : ∀ h l, d.lists h = some l → l ≠ [] → ∃ key, s.entry key = some h
  value : ∀ (i : ℕ) (e : FdEvent), s.events[i]? = some e → d.value e.node = some i
  event : ∀ (i : ℕ) (e : FdEvent), s.events[i]? = some e → e.stopped = false →
    s.entry e.key = some e.actions

/-- No sequence with an entry is empty. -/
def Tight (s : SelectBased) : Prop := ∀ key h, s.entry key = some h → s.nodes key ≠ []

theorem registered_init : init.Registered Deques.initial where
  represents := represents_initial
  list := nofun
  missing _ _ := rfl
  single := nofun
  spare := nofun
  value := nofun
  event := nofun

theorem entry_addEntry (s : SelectBased) (key key' : Awaited × ℕ) :
    (s.addEntry key.1 key.2).entry key' =
      if key = key' then some s.sequences.length else s.entry key' := by
  obtain ⟨awaited, fd⟩ := key
  obtain ⟨awaited', fd'⟩ := key'
  unfold entry addEntry
  simp only [Prod.mk.injEq]
  by_cases hawaited : awaited = awaited'
  · subst hawaited
    rw [update_self, find_cons]
    simp
  · rw [update_of_ne (Ne.symm hawaited), if_neg fun hboth => hawaited hboth.1]

theorem register_cases (s : SelectBased) (key : Awaited × ℕ) :
    (∃ h, s.entry key = some h ∧ s.register key.1 key.2 = s.addAction key.1 key.2 h) ∨
      s.entry key = none ∧ s.register key.1 key.2 =
        (s.addEntry key.1 key.2).addAction key.1 key.2 s.sequences.length := by
  cases hentry : s.entry key with
  | some h =>
    refine .inl ⟨h, rfl, ?_⟩
    unfold entry at hentry
    rw [register, hentry]
  | none =>
    refine .inr ⟨rfl, ?_⟩
    unfold entry at hentry
    rw [register, hentry]

theorem nodes_addAction (s : SelectBased) (key key' : Awaited × ℕ) (h : ℕ) :
    (s.addAction key.1 key.2 h).nodes key' =
      if key = key' then s.sequences.length :: s.nodes key' else s.nodes key' :=
  nodes_append (s := s) (e := ⟨key.1, key.2, h, s.sequences.length, false⟩) rfl rfl

/-- The event `i` is stopped. -/
structure Stops (s t : SelectBased) (i : ℕ) (e : FdEvent) : Prop where
  sequences : t.sequences = s.sequences.remove e.node
  events : t.events = s.events.set i { e with stopped := true }
  nodes : ∀ key, t.nodes key = if e.key = key then (s.nodes key).erase e.node else s.nodes key
  own : t.entry e.key = if (s.nodes e.key).erase e.node = [] then none else some e.actions
  other : ∀ key, e.key ≠ key → t.entry key = s.entry key

namespace Registered

theorem congr (hr : s.Registered d) (hsequences : t.sequences = s.sequences)
    (hwait : t.wait = s.wait) (hevents : t.events = s.events) : t.Registered d := by
  obtain ⟨sequences, wait, events, phase, round⟩ := t
  obtain rfl : sequences = s.sequences := hsequences
  obtain rfl : wait = s.wait := hwait
  obtain rfl : events = s.events := hevents
  exact ⟨hr.represents, hr.list, hr.missing, hr.single, hr.spare, hr.value, hr.event⟩

theorem mem (hr : s.Registered d) (hi : s.events[i]? = some e) (hstopped : e.stopped = false) :
    d.lists e.actions = some (s.nodes e.key) ∧ e.node ∈ s.nodes e.key :=
  ⟨hr.list _ _ (hr.event i e hi hstopped), mem_nodes.mpr ⟨i, e, hi, hstopped, rfl, rfl⟩⟩

theorem node_inj {j : ℕ} {e' : FdEvent} (hr : s.Registered d) (hi : s.events[i]? = some e)
    (hj : s.events[j]? = some e') (hnode : e.node = e'.node) : i = j := by
  have hvalue := hr.value i e hi
  rw [hnode, hr.value j e' hj] at hvalue
  exact (Option.some.inj hvalue).symm

theorem addEntry (hr : s.Registered d) (hnone : s.entry key = none) :
    (s.addEntry key.1 key.2).Registered
      { d with size := d.size + 1, lists := update d.lists d.size (some []) } := by
  have hsize := hr.represents.size
  have hnodes : ∀ key', (s.addEntry key.1 key.2).nodes key' = s.nodes key' := fun _ => rfl
  have hentry : ∀ key', (s.addEntry key.1 key.2).entry key' =
      if key = key' then some d.size else s.entry key' := by
    rw [hsize]
    exact entry_addEntry s key
  -- the new header is none of those in the map
  have hold : ∀ {key' h}, s.entry key' = some h → h ≠ d.size := by
    intro key' h hfind heq
    have hlt := ((hr.represents.header h).mp ⟨_, hr.list key' h hfind⟩).1
    omega
  have hne : ∀ {key' h}, s.entry key' = some h → key ≠ key' := by
    rintro key' h hfind rfl
    rw [hnone] at hfind
    cases hfind
  refine ⟨hr.represents.create, ?_, ?_, ?_, ?_, hr.value, ?_⟩
  · intro key' h hfind
    rw [hentry] at hfind
    rw [hnodes]
    split at hfind
    case isTrue hkey =>
      cases hfind
      rw [← hkey, hr.missing key hnone]
      exact update_self ..
    case isFalse => exact (update_of_ne (hold hfind) ..).trans (hr.list key' h hfind)
  · intro key' hfind
    rw [hentry] at hfind
    rw [hnodes]
    split at hfind
    case isTrue => cases hfind
    case isFalse => exact hr.missing key' hfind
  · intro key₁ key₂ h h₁ h₂
    rw [hentry] at h₁ h₂
    split at h₁ <;> split at h₂
    case isTrue.isTrue hkey₁ hkey₂ => exact hkey₁.symm.trans hkey₂
    case isTrue.isFalse => exact absurd (Option.some.inj h₁).symm (hold h₂)
    case isFalse.isTrue => exact absurd (Option.some.inj h₂).symm (hold h₁)
    case isFalse.isFalse => exact hr.single key₁ key₂ h h₁ h₂
  · intro h l hl hne'
    -- the new sequence is empty, and the others have their keys
    by_cases hheader : h = d.size
    · subst hheader
      have hnil := hl.symm.trans (update_self ..)
      exact absurd (Option.some.inj hnil) hne'
    · have hl' := (update_of_ne hheader ..).symm.trans hl
      obtain ⟨key', hfind⟩ := hr.spare h l hl' hne'
      exact ⟨key', by rw [hentry, if_neg (hne hfind), hfind]⟩
  · intro i e hi hstopped
    have hfind := hr.event i e hi hstopped
    rw [hentry, if_neg (hne hfind), hfind]

theorem addAction (hr : s.Registered d) (hfind : s.entry key = some h) :
    (s.addAction key.1 key.2 h).Registered
      ⟨d.size + 1, update d.lists h (some (d.size :: s.nodes key)),
        update d.value d.size (some s.events.length)⟩ := by
  have hsize := hr.represents.size
  have hlist := hr.list key h hfind
  have hnodes : ∀ key', (s.addAction key.1 key.2 h).nodes key' =
      if key = key' then s.sequences.length :: s.nodes key' else s.nodes key' := fun key' =>
    nodes_addAction s key key' h
  have hentry : ∀ key', (s.addAction key.1 key.2 h).entry key' = s.entry key' := fun _ => rfl
  refine ⟨hr.represents.addL hlist, ?_, ?_, hr.single, ?_, ?_, ?_⟩
  · intro key' h' hfind'
    rw [hentry] at hfind'
    rw [hnodes]
    split
    case isTrue hkey =>
      subst hkey
      cases hfind.symm.trans hfind'
      rw [← hsize]
      exact update_self ..
    case isFalse hkey =>
      have hne : h' ≠ h := fun heq => hkey (hr.single key key' h hfind (heq ▸ hfind'))
      exact (update_of_ne hne ..).trans (hr.list key' h' hfind')
  · intro key' hfind'
    rw [hentry] at hfind'
    rw [hnodes, if_neg, hr.missing key' hfind']
    rintro rfl
    rw [hfind] at hfind'
    cases hfind'
  · intro h' l hl hne
    by_cases hheader : h' = h
    · subst hheader
      exact ⟨key, hfind⟩
    · exact hr.spare h' l ((update_of_ne hheader ..).symm.trans hl) hne
  · intro i e hi
    rcases getElem?_append_cases hi with hold | ⟨rfl, rfl⟩
    · have hvalue := hr.value i e hold
      have hne : e.node ≠ d.size := fun heq => by
        have hdata := hr.represents.value e.node
        rw [hvalue, heq, hsize] at hdata
        simp [Sequences.data] at hdata
      exact (update_of_ne hne ..).trans hvalue
    · rw [← hsize]
      exact update_self ..
  · intro i e hi hstopped
    rcases getElem?_append_cases hi with hold | ⟨rfl, rfl⟩
    · exact hr.event i e hold hstopped
    · exact hfind

theorem stops (hr : s.Registered d) (hi : s.events[i]? = some e) (hstopped : e.stopped = false) :
    Stops s (s.stop i e) i e := by
  have hfind := hr.event i e hi hstopped
  obtain ⟨hlist, -⟩ := hr.mem hi hstopped
  have hnodup := (List.nodup_cons.mp (hr.represents.ring hlist).nodup).2
  have hring : (s.sequences.remove e.node).Ring e.actions ((s.nodes e.key).erase e.node) :=
    (hr.represents.remove e.node).ring (by simp [Deques.remove, hlist])
  have hevents : (s.stop i e).events = s.events.set i { e with stopped := true } := by
    unfold SelectBased.stop
    rw [if_neg (by simp [hstopped])]
  refine ⟨?_, hevents, fun key => nodes_set hi hstopped hevents hnodup, ?_, fun key hne => ?_⟩
  · unfold SelectBased.stop
    rw [if_neg (by simp [hstopped])]
  · unfold entry SelectBased.stop
    rw [if_neg (by simp [hstopped])]
    simp only [hring.isEmpty_iff]
    split
    case isTrue =>
      change find (update s.wait e.awaited _ e.awaited) e.fd = none
      rw [update_self, find_remove, if_pos rfl]
    case isFalse => exact hfind
  · unfold entry SelectBased.stop
    rw [if_neg (by simp [hstopped])]
    simp only
    split
    case isTrue =>
      by_cases hawaited : key.1 = e.awaited
      · rw [hawaited, update_self, find_remove, if_neg]
        exact fun hfd => hne (Prod.ext hawaited.symm hfd)
      · rw [update_of_ne hawaited]
    case isFalse => rfl

theorem stop (hr : s.Registered d) (hi : s.events[i]? = some e) (hstopped : e.stopped = false)
    (hs : Stops s t i e) : t.Registered (d.remove e.node) := by
  have hfind := hr.event i e hi hstopped
  obtain ⟨hlist, hmem⟩ := hr.mem hi hstopped
  refine ⟨hs.sequences ▸ hr.represents.remove e.node, ?_, ?_, ?_, ?_, ?_, ?_⟩
  · intro key h hentry
    -- only the sequence of the event changes, and goes when it is empty
    by_cases hkey : e.key = key
    · subst hkey
      rw [hs.own] at hentry
      split at hentry
      case isTrue => cases hentry
      case isFalse =>
        cases hentry
        rw [hs.nodes, if_pos rfl]
        simp [Deques.remove, hlist]
    · rw [hs.other key hkey] at hentry
      have hlist' := hr.list key h hentry
      have hne : h ≠ e.actions := fun heq =>
        hkey (hr.single e.key key h (heq ▸ hfind) hentry)
      rw [hs.nodes, if_neg hkey]
      simp [Deques.remove, hlist', hr.represents.erase_of_ne hlist hmem hne hlist']
  · intro key hentry
    by_cases hkey : e.key = key
    · subst hkey
      rw [hs.own] at hentry
      split at hentry
      case isTrue hnil => rw [hs.nodes, if_pos rfl, hnil]
      case isFalse => cases hentry
    · rw [hs.other key hkey] at hentry
      rw [hs.nodes, if_neg hkey, hr.missing key hentry]
  · have hold : ∀ {key h}, t.entry key = some h → s.entry key = some h := by
      intro key h hentry
      by_cases hkey : e.key = key
      · subst hkey
        rw [hs.own] at hentry
        split at hentry
        case isTrue => cases hentry
        case isFalse => exact hfind.trans hentry
      · rwa [hs.other key hkey] at hentry
    exact fun key key' h hentry hentry' => hr.single key key' h (hold hentry) (hold hentry')
  · intro h l hl hne
    obtain ⟨l', hl', rfl⟩ := Option.map_eq_some_iff.mp hl
    have hne' : l' ≠ [] := by
      rintro rfl
      exact hne rfl
    obtain ⟨key, hentry⟩ := hr.spare h l' hl' hne'
    by_cases hkey : e.key = key
    · subst hkey
      cases hfind.symm.trans hentry
      cases hlist.symm.trans hl'
      exact ⟨e.key, by rw [hs.own, if_neg hne]⟩
    · exact ⟨key, by rw [hs.other key hkey, hentry]⟩
  · intro j e' hj
    -- only the event itself is written
    rw [hs.events] at hj
    rcases getElem?_set_cases hj with ⟨rfl, rfl⟩ | ⟨-, hold⟩
    · exact hr.value j e hi
    · exact hr.value j e' hold
  · intro j e' hj hstopped'
    rw [hs.events] at hj
    rcases getElem?_set_cases hj with ⟨rfl, rfl⟩ | ⟨hne, hold⟩
    · cases hstopped'
    · have hentry := hr.event j e' hold hstopped'
      by_cases hkey : e.key = e'.key
      · have hmem' : e'.node ∈ (s.nodes e.key).erase e.node := by
          refine (List.mem_erase_of_ne fun heq => hne (hr.node_inj hold hi heq)).mpr ?_
          exact hkey ▸ (hr.mem hold hstopped').2
        rw [← hkey, hs.own, if_neg (List.ne_nil_of_mem hmem'), ← hfind, hkey, hentry]
      · rw [hs.other e'.key hkey, hentry]

end Registered

theorem Tight.addAction (ht : s.Tight) (key : Awaited × ℕ) (h : ℕ) :
    (s.addAction key.1 key.2 h).Tight := by
  intro key' h' hentry
  rw [nodes_addAction]
  split
  · exact List.cons_ne_nil _ _
  · exact ht key' h' hentry

theorem Tight.stop (ht : s.Tight) (hs : Stops s t i e) : t.Tight := by
  intro key h hentry
  rw [hs.nodes]
  split
  case isTrue hkey =>
    subst hkey
    rw [hs.own] at hentry
    split at hentry
    case isTrue => cases hentry
    case isFalse hne => exact hne
  case isFalse hkey =>
    rw [hs.other key hkey] at hentry
    exact ht key h hentry

theorem Tight.register (ht : s.Tight) (key : Awaited × ℕ) : (s.register key.1 key.2).Tight := by
  rcases register_cases s key with ⟨h, -, heq⟩ | ⟨-, heq⟩
  · rw [heq]
    exact ht.addAction key h
  · rw [heq]
    intro key' h' hentry
    rw [nodes_addAction]
    split
    case isTrue => exact List.cons_ne_nil _ _
    case isFalse hne =>
      have hsame := entry_addEntry s key key'
      rw [if_neg hne] at hsame
      exact ht key' h' (hsame.symm.trans hentry)

/-! ## The loop over a sequence -/

/-- The actions of the file descriptor that were there when the first action of the iteration was
about to be called, and that have not been stopped, have been called. -/
def Complete (s : SelectBased) (key : Awaited × ℕ) : Prop :=
  ∀ (i : ℕ) (e : FdEvent), s.events[i]? = some e → i < s.round.mark → e.stopped = false →
    e.key = key → i ∈ s.round.called

/-- The loop has still to come to the nodes `rest`; none of their actions has been called, and all
others that have to be have been.  A sequence that is not empty has not been given up. -/
structure Visiting (s : SelectBased) (d : Deques ℕ) (inv : Invocation) (user : Bool)
    (left rest : List ℕ) : Prop where
  list : d.lists inv.actions = some (left ++ rest)
  leads : s.sequences.Leads inv.actions rest inv.curr
  curr : inv.curr < s.sequences.length
  inside : user = true → s.sequences.data inv.curr ≠ none ∧
    (s.sequences.active inv.curr = true → inv.curr ∈ left)
  fresh : ∀ x ∈ rest, ∀ i, d.value x = some i → i ∉ s.round.called
  due : ∀ (i : ℕ) (e : FdEvent), s.events[i]? = some e → i < s.round.mark → e.stopped = false →
    e.key = inv.key → i ∈ s.round.called ∨ e.node ∈ rest
  current : left ++ rest ≠ [] → s.entry inv.key = some inv.actions

namespace Visiting

variable {user : Bool}

theorem header (hr : s.Registered d) (hv : s.Visiting d inv user left rest) :
    s.sequences.data inv.actions = none :=
  ((hr.represents.header inv.actions).mp ⟨_, hv.list⟩).2

theorem curr_ne (hr : s.Registered d) (hv : s.Visiting d inv true left rest) :
    inv.curr ≠ inv.actions := by
  intro heq
  exact (hv.inside rfl).1 (heq ▸ hv.header hr)

theorem notMem (hr : s.Registered d) (hv : s.Visiting d inv true left rest)
    (hne : h ≠ inv.actions) (hlist : d.lists h = some l) : inv.curr ∉ h :: l := by
  intro hmem
  rcases List.mem_cons.mp hmem with heq | hmem
  · exact (hv.inside rfl).1 (heq ▸ ((hr.represents.header h).mp ⟨l, hlist⟩).2)
  · have hactive := (hr.represents.active inv.curr).mpr ⟨h, l, hlist, hmem⟩
    have hleft := (hv.inside rfl).2 hactive
    exact hne (hr.represents.disjoint hlist hv.list hmem (List.mem_append_left _ hleft))

theorem addEntry (hr : s.Registered d) (hv : s.Visiting d inv true left rest)
    (hnone : s.entry key = none) :
    (s.addEntry key.1 key.2).Visiting
      { d with size := d.size + 1, lists := update d.lists d.size (some []) } inv true left
      rest := by
  have hsize := hr.represents.size
  have hne : inv.actions ≠ d.size := by
    have hlt := ((hr.represents.header inv.actions).mp ⟨_, hv.list⟩).1
    omega
  refine ⟨(update_of_ne hne ..).trans hv.list, hv.leads.create hv.curr, ?_, fun _ => ?_, hv.fresh,
    hv.due, fun hnot => ?_⟩
  · exact hv.curr.trans_le (by simp [SelectBased.addEntry])
  · obtain ⟨hdata, hactive⟩ := hv.inside rfl
    refine ⟨by simpa [SelectBased.addEntry, Sequences.data_create_eq] using hdata, fun hcurr => ?_⟩
    exact hactive ((Sequences.active_create hv.curr).symm.trans hcurr)
  · have hcurrent := hv.current hnot
    rw [entry_addEntry, if_neg, hcurrent]
    rintro rfl
    rw [hnone] at hcurrent
    cases hcurrent

theorem addAction (hr : s.Registered d) (hv : s.Visiting d inv true left rest)
    (hmark : s.round.mark ≤ s.events.length) (hfind : s.entry key = some h)
    (hown : h = inv.actions → s.nodes key ≠ []) :
    ∃ left', (s.addAction key.1 key.2 h).Visiting
      ⟨d.size + 1, update d.lists h (some (d.size :: s.nodes key)),
        update d.value d.size (some s.events.length)⟩ inv true left' rest := by
  have hsize := hr.represents.size
  have hlist := hr.list key h hfind
  have hdata : (s.sequences.addL s.events.length h).data inv.curr ≠ none := by
    rw [Sequences.data_addL_lt hv.curr]
    exact (hv.inside rfl).1
  have hactive : (s.sequences.addL s.events.length h).active inv.curr = true →
      inv.curr ∈ left := fun hcurr =>
    (hv.inside rfl).2 ((Sequences.active_addL hv.curr).symm.trans hcurr)
  have hfresh : ∀ x ∈ rest, ∀ i, update d.value d.size (some s.events.length) x = some i →
      i ∉ s.round.called := by
    intro x hx i hvalue
    have hlt : x < s.sequences.length :=
      (hr.represents.ring hv.list).within x (by simp [hx])
    exact hv.fresh x hx i ((update_of_ne (by omega) ..).symm.trans hvalue)
  have hdue : ∀ (i : ℕ) (e : FdEvent), (s.addAction key.1 key.2 h).events[i]? = some e →
      i < s.round.mark → e.stopped = false → e.key = inv.key →
      i ∈ s.round.called ∨ e.node ∈ rest := by
    intro i e hi hlt
    rcases getElem?_append_cases hi with hold | ⟨rfl, -⟩
    · exact hv.due i e hold hlt
    · omega
  have hcurr : inv.curr < (s.sequences.addL s.events.length h).length :=
    hv.curr.trans_le (by simp)
  by_cases heq : h = inv.actions
  · have hsame := Option.some.inj ((heq ▸ hlist).symm.trans hv.list)
    have hnil := hown heq
    subst heq
    refine ⟨d.size :: left, ⟨?_, hv.leads.addL hv.curr (hv.curr_ne hr), hcurr,
      fun _ => ⟨hdata, fun hactive' => List.mem_cons_of_mem _ (hactive hactive')⟩, hfresh, hdue,
      fun _ => ?_⟩⟩
    · change update d.lists inv.actions _ inv.actions = _
      rw [update_self, hsame]
      rfl
    · exact hv.current (hsame ▸ hnil)
  · have hne : inv.actions ≠ h := fun heq' => heq heq'.symm
    refine ⟨left, ⟨(update_of_ne hne ..).trans hv.list,
      hv.leads.addL_other hr.represents hlist hv.curr ?_, hcurr, fun _ => ⟨hdata, hactive⟩, hfresh,
      hdue, hv.current⟩⟩
    intro heq'
    exact hv.notMem hr heq hlist (heq' ▸ List.mem_cons_self)

theorem stop (hr : s.Registered d) (hv : s.Visiting d inv true left rest)
    (hi : s.events[i]? = some e) (hstopped : e.stopped = false) (hs : Stops s t i e)
    (hround : t.round = s.round) :
    t.Visiting (d.remove e.node) inv true (left.erase e.node) (rest.erase e.node) := by
  obtain ⟨hlist, hmem⟩ := hr.mem hi hstopped
  have hactive := (hr.represents.active e.node).mpr ⟨_, _, hlist, hmem⟩
  have hnodup := (List.nodup_cons.mp (hr.represents.ring hv.list).nodup).2
  have herase : (left ++ rest).erase e.node = left.erase e.node ++ rest.erase e.node := by
    -- the node is in one of the two parts, since the list has no repetitions
    by_cases hleft : e.node ∈ left
    · have hrest : e.node ∉ rest := List.disjoint_of_nodup_append hnodup hleft
      rw [List.erase_append_left _ hleft, List.erase_of_not_mem hrest]
    · rw [List.erase_append_right _ hleft, List.erase_of_not_mem hleft]
  have hlists : (d.remove e.node).lists inv.actions =
      some (left.erase e.node ++ rest.erase e.node) := by
    rw [← herase]
    simp [Deques.remove, hv.list]
  have hleads : (s.sequences.remove e.node).Leads inv.actions (rest.erase e.node) inv.curr := by
    -- the event is of the sequence that is walked, or of another one
    by_cases hown : e.actions = inv.actions
    · have hsame := Option.some.inj ((hown ▸ hlist).symm.trans hv.list)
      exact hv.leads.remove (hr.represents.ring hv.list) (hsame ▸ hmem) hactive
        (hr.represents.node hlist hmem) hv.curr (hv.curr_ne hr)
    · have hrest : e.node ∉ rest := fun hin => hown
        (hr.represents.disjoint hlist hv.list hmem (List.mem_append_right _ hin))
      rw [List.erase_of_not_mem hrest]
      exact hv.leads.remove_other hr.represents hlist hmem hv.curr (hv.notMem hr hown hlist)
  refine ⟨hlists, hs.sequences ▸ hleads, ?_, fun _ => ?_, ?_, ?_, fun hne => ?_⟩
  · rw [hs.sequences, Sequences.length_remove]
    exact hv.curr
  · obtain ⟨hdata, hin⟩ := hv.inside rfl
    rw [hs.sequences, Sequences.data_remove, Sequences.active_remove]
    refine ⟨hdata, fun hcurr => ?_⟩
    obtain ⟨hcurr, hother⟩ := (Bool.and_eq_true _ _).mp hcurr
    exact (List.mem_erase_of_ne (by simpa using hother)).mpr (hin hcurr)
  · rw [hround]
    exact fun x hx j hj => hv.fresh x (List.mem_of_mem_erase hx) j hj
  · intro j e' hj hlt hstopped' hkey
    rw [hs.events] at hj
    rw [hround] at hlt ⊢
    rcases getElem?_set_cases hj with ⟨-, rfl⟩ | ⟨hne, hold⟩
    · cases hstopped'
    -- an event that is due and is not this one keeps its node
    · refine (hv.due j e' hold hlt hstopped' hkey).imp_right fun hrest => ?_
      exact (List.mem_erase_of_ne fun heq => hne (hr.node_inj hold hi heq)).mpr hrest
  · have hnot : left ++ rest ≠ [] := fun hnil => hne (by rw [← herase, hnil]; rfl)
    have hcurrent := hv.current hnot
    by_cases hkey : e.key = inv.key
    · have hsame := hr.event i e hi hstopped
      rw [hkey, hcurrent] at hsame
      have hactions := Option.some.inj hsame
      have hlist' := (hactions ▸ hlist).symm.trans hv.list
      rw [← hkey, hs.own, if_neg, hactions]
      rwa [Option.some.inj hlist', herase]
    · rw [hs.other inv.key hkey, hcurrent]

end Visiting

/-! ## An iteration -/

/-- The actions of the file descriptors `done` have been called, the loop is at those of
`invocation`, and `ready` are still to come. -/
structure Invoking (s : SelectBased) (d : Deques ℕ) (done ready : List (Awaited × ℕ))
    (invocation : Option Invocation) (user : Bool) : Prop where
  split : s.round.ready = done ++ (invocation.map Invocation.key).toList ++ ready
  complete : ∀ key ∈ done, s.Complete key
  nodup : s.round.ready.Nodup
  mark : s.round.mark ≤ s.events.length
  once : s.round.called.Nodup
  called : ∀ i ∈ s.round.called, ∃ e : FdEvent, s.events[i]? = some e ∧
    e.key ∈ done ++ (invocation.map Invocation.key).toList
  visiting : ∀ inv, invocation = some inv → ∃ left rest, s.Visiting d inv user left rest
  idle : invocation = none → user = false

def InPhase (s : SelectBased) (d : Deques ℕ) : SelectPhase → Prop
  | .idle => True
  | .restarting ready => ready.Nodup
  | .invoking ready invocation user => ∃ done, s.Invoking d done ready invocation user

/-- What an iteration keeps, wherever it is. -/
def Sound (s : SelectBased) : Prop := s.Tight ∧ ∃ d, s.Registered d ∧ s.InPhase d s.phase

/-- Events are registered and stopped by code of the user. -/
theorem InPhase.user {d' : Deques ℕ} (hp : s.InPhase d s.phase) (hcode : s.userCode = true)
    (hround : t.round = s.round) (hlength : s.events.length ≤ t.events.length)
    (hlive : ∀ (i : ℕ) (e : FdEvent), t.events[i]? = some e → i < s.events.length →
      e.stopped = false → s.events[i]? = some e)
    (hkeys : ∀ (i : ℕ) (e : FdEvent), s.events[i]? = some e →
      ∃ e' : FdEvent, t.events[i]? = some e' ∧ e'.key = e.key)
    (hvisit : ∀ inv left rest, s.round.mark ≤ s.events.length →
      s.Visiting d inv true left rest → ∃ left' rest', t.Visiting d' inv true left' rest') :
    t.InPhase d' s.phase := by
  unfold userCode at hcode
  cases hphase : s.phase with
  | idle => trivial
  | restarting ready =>
    rw [hphase] at hp
    exact hp
  | invoking ready invocation user =>
    rw [hphase] at hp hcode
    obtain rfl : user = true := hcode
    obtain ⟨done, hp⟩ := hp
    refine ⟨done, ?_, ?_, ?_, ?_, ?_, ?_, ?_, hp.idle⟩
    · rw [hround]
      exact hp.split
    · intro key hkey i e hi hlt hstopped hekey
      rw [hround] at hlt ⊢
      exact hp.complete key hkey i e (hlive i e hi (hlt.trans_le hp.mark) hstopped) hlt hstopped
        hekey
    · rw [hround]
      exact hp.nodup
    · rw [hround]
      exact hp.mark.trans hlength
    · rw [hround]
      exact hp.once
    · rw [hround]
      intro i hi
      obtain ⟨e, he, hmem⟩ := hp.called i hi
      obtain ⟨e', he', hkey⟩ := hkeys i e he
      exact ⟨e', he', hkey ▸ hmem⟩
    · intro inv hinv
      obtain ⟨left, rest, hv⟩ := hp.visiting inv hinv
      exact hvisit inv left rest hp.mark hv

theorem Sound.register (h : s.Sound) (hcode : s.userCode = true) (key : Awaited × ℕ) :
    (s.register key.1 key.2).Sound := by
  obtain ⟨ht, d, hr, hp⟩ := h
  refine ⟨ht.register key, ?_⟩
  have hevents : ∀ h, (s.addAction key.1 key.2 h).events =
      s.events ++ [⟨key.1, key.2, h, s.sequences.length, false⟩] := fun _ => rfl
  have hlive : ∀ {e₀ : FdEvent} (i : ℕ) (e : FdEvent), (s.events ++ [e₀])[i]? = some e →
      i < s.events.length → e.stopped = false → s.events[i]? = some e := by
    intro e₀ i e hi hlt _
    rwa [List.getElem?_append_left hlt] at hi
  have hkeys : ∀ {e₀ : FdEvent} (i : ℕ) (e : FdEvent), s.events[i]? = some e →
      ∃ e' : FdEvent, (s.events ++ [e₀])[i]? = some e' ∧ e'.key = e.key := by
    intro e₀ i e hi
    exact ⟨e, (List.getElem?_append_left (List.getElem?_eq_some_iff.mp hi).1).trans hi, rfl⟩
  rcases register_cases s key with ⟨h, hfind, heq⟩ | ⟨hnone, heq⟩
  · rw [heq]
    refine ⟨_, hr.addAction hfind, hp.user hcode rfl ?_ hlive hkeys
      fun inv left rest hmark hv => ?_⟩
    · simp [addAction]
    · obtain ⟨left', hv'⟩ := hv.addAction hr hmark hfind fun _ => ht key h hfind
      exact ⟨left', rest, hv'⟩
  · have hfind : (s.addEntry key.1 key.2).entry key = some s.sequences.length := by
      rw [entry_addEntry, if_pos rfl]
    have hr' := hr.addEntry hnone
    rw [heq]
    refine ⟨_, hr'.addAction hfind, hp.user hcode rfl ?_ hlive hkeys
      fun inv left rest hmark hv => ?_⟩
    · simp [addAction, addEntry]
    · have hlt := ((hr.represents.header inv.actions).mp ⟨_, hv.list⟩).1
      obtain ⟨left', hv'⟩ := (hv.addEntry hr hnone).addAction hr' hmark hfind fun heq' => by omega
      exact ⟨left', rest, hv'⟩

theorem Sound.stop (h : s.Sound) (hcode : s.userCode = true) (hi : s.events[i]? = some e) :
    (s.stop i e).Sound := by
  cases hstopped : e.stopped with
  | true =>
    rw [SelectBased.stop, if_pos hstopped]
    exact h
  | false =>
    obtain ⟨ht, d, hr, hp⟩ := h
    have hs := hr.stops hi hstopped
    have hparts : (s.stop i e).round = s.round ∧ (s.stop i e).phase = s.phase := by
      unfold SelectBased.stop
      rw [if_neg (by simp [hstopped])]
      exact ⟨rfl, rfl⟩
    refine ⟨ht.stop hs, _, hr.stop hi hstopped hs, ?_⟩
    rw [hparts.2]
    refine hp.user hcode hparts.1 ?_ ?_ ?_ fun inv left rest _ hv =>
      ⟨_, _, hv.stop hr hi hstopped hs hparts.1⟩
    · rw [hs.events, List.length_set]
    · intro j e' hj _ hstopped'
      rw [hs.events] at hj
      rcases getElem?_set_cases hj with ⟨-, rfl⟩ | ⟨-, hold⟩
      · cases hstopped'
      · exact hold
    · intro j e' hj
      rw [hs.events]
      by_cases hne : j = i
      · subst hne
        cases hi.symm.trans hj
        exact ⟨_, List.getElem?_set_self (List.getElem?_eq_some_iff.mp hi).1, rfl⟩
      · exact ⟨e', (List.getElem?_set_ne (Ne.symm hne)).trans hj, rfl⟩

/-! ## A turn -/

namespace Invoking

variable {done : List (Awaited × ℕ)}

theorem invokeActions (hr : s.Registered d) (hi : s.Invoking d done (key :: ready) none false) :
    (s.invokeActions key.1 key.2 ready).InPhase d (s.invokeActions key.1 key.2 ready).phase := by
  have hsplit : s.round.ready = done ++ [key] ++ ready := by
    rw [hi.split]
    simp
  have hcalled : ∀ i ∈ s.round.called, ∃ e : FdEvent, s.events[i]? = some e ∧
      e.key ∈ done := by
    intro i hmem
    obtain ⟨e, he, hkey⟩ := hi.called i hmem
    exact ⟨e, he, by simpa using hkey⟩
  cases hentry : s.entry key with
  | none =>
    have hphase : (s.invokeActions key.1 key.2 ready).phase = .invoking ready none false := by
      unfold entry at hentry
      rw [SelectBased.invokeActions, hentry]
      rfl
    rw [hphase]
    refine ⟨done ++ [key], ?_, fun key' hkey => ?_, hi.nodup, hi.mark, hi.once, fun i hmem => ?_,
      nofun, fun _ => rfl⟩
    · exact hsplit.trans (by simp)
    · rcases List.mem_append.mp hkey with hkey | hkey
      · exact hi.complete key' hkey
      · obtain rfl := List.mem_singleton.mp hkey
        intro i e he _ hstopped hekey
        have hmem : e.node ∈ s.nodes key' := mem_nodes.mpr ⟨i, e, he, hstopped, hekey, rfl⟩
        rw [hr.missing key' hentry] at hmem
        cases hmem
    · obtain ⟨e, he, hkey⟩ := hcalled i hmem
      exact ⟨e, he, by simp [hkey]⟩
  | some h =>
    have hphase : (s.invokeActions key.1 key.2 ready).phase =
        .invoking ready (some ⟨key.1, key.2, h, h⟩) false := by
      unfold entry at hentry
      rw [SelectBased.invokeActions, hentry]
      rfl
    rw [hphase]
    have hlist := hr.list key h hentry
    have hring := hr.represents.ring hlist
    refine ⟨done, hsplit, hi.complete, hi.nodup, hi.mark, hi.once, fun i hmem => ?_, ?_, nofun⟩
    · obtain ⟨e, he, hkey⟩ := hcalled i hmem
      exact ⟨e, he, List.mem_append_left _ hkey⟩
    · rintro inv ⟨⟩
      refine ⟨[], s.nodes key, hlist, .start hring, hring.within h List.mem_cons_self, nofun, ?_,
        fun i e he _ hstopped hkey => .inr (mem_nodes.mpr ⟨i, e, he, hstopped, hkey, rfl⟩),
        fun _ => hentry⟩
      intro x hx i hvalue hmem
      obtain ⟨j, e, he, -, hkey, rfl⟩ := mem_nodes.mp hx
      obtain rfl := Option.some.inj ((hr.value j e he).symm.trans hvalue)
      obtain ⟨e', he', hdone⟩ := hcalled j hmem
      obtain rfl := Option.some.inj (he.symm.trans he')
      -- the file descriptor comes only once
      have hnodup := hi.nodup
      rw [hsplit, List.append_assoc] at hnodup
      exact List.disjoint_of_nodup_append hnodup hdone (by simp [hkey])

theorem finished (hr : s.Registered d) (hi : s.Invoking d done ready (some inv) false)
    (hend : s.sequences.next inv.curr = inv.actions) :
    s.Invoking d (done ++ [inv.key]) ready none false := by
  obtain ⟨left, rest, hv⟩ := hi.visiting inv rfl
  obtain rfl := hv.leads.nil_of_end (hr.represents.ring hv.list) hend
  refine ⟨?_, fun key hkey => ?_, hi.nodup, hi.mark, hi.once, fun i hmem => ?_, nofun, fun _ => rfl⟩
  · rw [hi.split]
    simp
  · rcases List.mem_append.mp hkey with hkey | hkey
    · exact hi.complete key hkey
    · obtain rfl := List.mem_singleton.mp hkey
      intro i e he hlt hstopped hekey
      exact (hv.due i e he hlt hstopped hekey).resolve_right (List.not_mem_nil)
  · obtain ⟨e, he, hkey⟩ := hi.called i hmem
    exact ⟨e, he, by simpa using hkey⟩

theorem pass (hi : s.Invoking d done ready (some inv) false)
    (hne : s.sequences.next inv.curr ≠ inv.actions)
    (hactive : s.sequences.active (s.sequences.next inv.curr) = false)
    (hr : s.Registered d) :
    s.Invoking d done ready (some { inv with curr := s.sequences.next inv.curr }) false := by
  refine ⟨hi.split, hi.complete, hi.nodup, hi.mark, hi.once, hi.called, ?_, nofun⟩
  rintro inv' ⟨⟩
  obtain ⟨left, rest, hv⟩ := hi.visiting inv rfl
  rcases hv.leads.next hne with ⟨-, hlt, -, hleads⟩ | ⟨rest', hrest⟩
  · exact ⟨left, rest, hv.list, hleads, hlt, nofun, hv.fresh, hv.due, hv.current⟩
  · have hin : s.sequences.next inv.curr ∈ left ++ rest := by simp [hrest]
    rw [(hr.represents.active _).mpr ⟨_, _, hv.list, hin⟩] at hactive
    cases hactive

theorem call (hr : s.Registered d) (hi : s.Invoking d done ready (some inv) false)
    (hne : s.sequences.next inv.curr ≠ inv.actions)
    (hactive : s.sequences.active (s.sequences.next inv.curr) = true)
    (hround : t.round = { s.round with called := s.round.called ++ [i] })
    (hsequences : t.sequences = s.sequences) (hevents : t.events = s.events)
    (hwait : t.wait = s.wait) (hdata : s.sequences.data (s.sequences.next inv.curr) = some i) :
    t.Invoking d done ready (some { inv with curr := s.sequences.next inv.curr }) true ∧
      i ∉ s.round.called ∧ ∃ e : FdEvent, s.events[i]? = some e ∧ e.stopped = false ∧
        e.key = inv.key := by
  obtain ⟨left, rest, hv⟩ := hi.visiting inv rfl
  obtain ⟨rest', rfl⟩ : ∃ rest', rest = s.sequences.next inv.curr :: rest' := by
    rcases hv.leads.next hne with ⟨hinactive, -⟩ | hrest
    · rw [hactive] at hinactive
      cases hinactive
    · exact hrest
  have hring := hr.represents.ring hv.list
  have hcurrent := hv.current (by simp)
  have hsame := Option.some.inj ((hr.list _ _ hcurrent).symm.trans hv.list)
  -- the node is that of an event that has not been stopped
  obtain ⟨j, e, he, hstopped, hkey, hnode⟩ :=
    mem_nodes.mp (hsame ▸ (by simp) : s.sequences.next inv.curr ∈ s.nodes inv.key)
  have hvalue : d.value (s.sequences.next inv.curr) = some i :=
    (hr.represents.value _).trans hdata
  obtain rfl : j = i := by
    rw [← hnode, hr.value j e he] at hvalue
    exact Option.some.inj hvalue
  have hnot : j ∉ s.round.called := hv.fresh _ List.mem_cons_self j hvalue
  refine ⟨⟨?_, ?_, ?_, ?_, ?_, ?_, ?_, nofun⟩, hnot, e, he, hstopped, hkey⟩
  · rw [hround]
    exact hi.split
  · intro key hdone k e' hk hlt hstopped' hkey'
    rw [hevents] at hk
    rw [hround] at hlt ⊢
    exact List.mem_append_left _ (hi.complete key hdone k e' hk hlt hstopped' hkey')
  · rw [hround]
    exact hi.nodup
  · rw [hround, hevents]
    exact hi.mark
  · rw [hround]
    exact List.nodup_append'.mpr ⟨hi.once, List.nodup_singleton j, by simpa using hnot⟩
  · rw [hround, hevents]
    intro k hk
    rcases List.mem_append.mp hk with hk | hk
    · exact hi.called k hk
    · obtain rfl := List.mem_singleton.mp hk
      exact ⟨e, he, List.mem_append_right _ (by rw [hkey]; exact List.mem_singleton_self _)⟩
  · rintro inv' ⟨⟩
    have hnodup := (List.nodup_cons.mp hring.nodup).2
    have hnotin : s.sequences.next inv.curr ∉ rest' :=
      (List.nodup_cons.mp (List.nodup_append.mp hnodup).2.1).1
    refine ⟨left ++ [s.sequences.next inv.curr], rest', ?_, ?_, ?_, fun _ => ⟨?_, fun _ => ?_⟩, ?_,
      ?_, fun _ => ?_⟩
    · rw [hv.list, List.append_assoc]
      rfl
    · rw [hsequences]
      exact .step hring
    · rw [hsequences]
      exact hring.within _ (by simp)
    · rw [hsequences, hdata]
      exact Option.some_ne_none j
    · simp
    · intro x hx k hk hmem
      rw [hround] at hmem
      rcases List.mem_append.mp hmem with hmem | hmem
      · exact hv.fresh x (List.mem_cons_of_mem _ hx) k hk hmem
      -- a node still to come is not the one that is called now
      · obtain rfl := List.mem_singleton.mp hmem
        have hx' : x ∈ s.nodes inv.key := by
          rw [hsame]
          simp [hx]
        obtain ⟨k', e', he', -, -, rfl⟩ := mem_nodes.mp hx'
        cases (hr.value k' e' he').symm.trans hk
        cases he.symm.trans he'
        exact hnotin (hnode ▸ hx)
    · intro k e' hk hlt hstopped' hkey'
      rw [hevents] at hk
      rw [hround] at hlt ⊢
      rcases hv.due k e' hk hlt hstopped' hkey' with hmem | hmem
      · exact .inl (List.mem_append_left _ hmem)
      · rcases List.mem_cons.mp hmem with heq | hmem
        · obtain rfl : k = j := hr.node_inj hk he (heq.trans hnode.symm)
          exact .inl (List.mem_append_right _ (List.mem_singleton_self k))
        · exact .inr hmem
    · unfold entry
      rw [hwait]
      exact hcurrent

end Invoking

theorem Invoking.of_phase {done : List (Awaited × ℕ)} {invocation : Option Invocation} {user : Bool}
    (hi : s.Invoking d done ready invocation user) (phase : SelectPhase) :
    ({ s with phase := phase } : SelectBased).Invoking d done ready invocation user ∧
      ({ s with phase := phase } : SelectBased).Invoking d done ready invocation false := by
  have hvisiting : ∀ {user' : Bool}, (user' = true → user = true) → ∀ inv, invocation = some inv →
      ∃ left rest, ({ s with phase := phase } : SelectBased).Visiting d inv user' left rest := by
    intro user' huser inv hinv
    obtain ⟨left, rest, hv⟩ := hi.visiting inv hinv
    exact ⟨left, rest, hv.list, hv.leads, hv.curr, fun htrue => hv.inside (huser htrue), hv.fresh,
      hv.due, hv.current⟩
  exact ⟨⟨hi.split, hi.complete, hi.nodup, hi.mark, hi.once, hi.called, hvisiting id, hi.idle⟩,
    hi.split, hi.complete, hi.nodup, hi.mark, hi.once, hi.called, hvisiting nofun, fun _ => rfl⟩

/-- What a turn of the loop does: it calls no action, or that of an event that has not been stopped,
whose file descriptor is ready, and that has not been called. -/
theorem Sound.turn (h : s.Sound) (hstep : selectStep s .turn = some t) :
    t.Sound ∧ (t.round = s.round ∨ ∃ (i : ℕ) (e : FdEvent),
      t.round.called = s.round.called ++ [i] ∧ s.events[i]? = some e ∧ e.stopped = false ∧
        e.key ∈ s.round.ready ∧ i ∉ s.round.called) ∧
      (t.phase = .idle → ∀ key ∈ s.round.ready, s.Complete key) := by
  obtain ⟨ht, d, hr, hp⟩ := h
  simp only [selectStep] at hstep
  split at hstep
  -- no action is left, so that every ready descriptor has been served
  case h_1 hphase =>
    cases hstep
    rw [hphase] at hp
    obtain ⟨done, hi⟩ := hp
    refine ⟨⟨ht, d, hr.congr rfl rfl rfl, trivial⟩, .inl rfl, fun _ key hkey => ?_⟩
    rw [hi.split] at hkey
    exact hi.complete key (by simpa using hkey)
  case h_2 key ready hphase =>
    cases hstep
    rw [hphase] at hp
    obtain ⟨done, hi⟩ := hp
    exact ⟨⟨ht, d, hr.congr rfl rfl rfl, hi.invokeActions hr⟩, .inl rfl, nofun⟩
  case h_3 ready inv hphase =>
    rw [hphase] at hp
    obtain ⟨done, hi⟩ := hp
    unfold iterate at hstep
    simp only at hstep
    split at hstep
    -- the walk is back at the header
    case isTrue hend =>
      cases hstep
      exact ⟨⟨ht, d, hr.congr rfl rfl rfl, _, ((hi.finished hr hend).of_phase _).1⟩, .inl rfl,
        nofun⟩
    case isFalse hne =>
      split at hstep
      -- the node is active: its action is called; else it is passed
      case isTrue hactive =>
        obtain ⟨i, hdata, rfl⟩ := Option.map_eq_some_iff.mp hstep
        obtain ⟨hi', hnot, e, he, hstopped, hkey⟩ := hi.call (t := { s with
          phase := .invoking ready (some { inv with curr := s.sequences.next inv.curr }) true
          round := { s.round with called := s.round.called ++ [i] } })
          hr hne hactive rfl rfl rfl rfl hdata
        refine ⟨⟨ht, d, hr.congr rfl rfl rfl, done, hi'⟩, .inr ⟨i, e, rfl, he, hstopped, ?_, hnot⟩,
          nofun⟩
        rw [hi.split, hkey]
        simp
      case isFalse hinactive =>
        cases hstep
        have hpass := hi.pass hne (by simpa using hinactive) hr
        exact ⟨⟨ht, d, hr.congr rfl rfl rfl, done, (hpass.of_phase _).1⟩, .inl rfl, nofun⟩
  case h_4 => cases hstep

theorem Registered.turn_isSome {invocation : Option Invocation} (hr : s.Registered d)
    (hphase : s.phase = .invoking ready invocation false) : (selectStep s .turn).isSome = true := by
  cases invocation with
  | none => cases ready <;> simp [selectStep, hphase]
  | some inv =>
    have hstep : selectStep s .turn = s.iterate ready inv := by
      cases ready <;> simp only [selectStep, hphase]
    rw [hstep]
    unfold iterate
    simp only
    split
    · rfl
    · split
      case isTrue hactive =>
        obtain ⟨seq, l, hlist, hmem⟩ := (hr.represents.active _).mp hactive
        obtain ⟨i, hdata⟩ := Option.ne_none_iff_exists'.mp (hr.represents.node hlist hmem)
        rw [hdata]
        rfl
      case isFalse => rfl

theorem sound_init : init.Sound := ⟨nofun, Deques.initial, registered_init, trivial⟩

theorem sound_step {a : SelectStep} (h : s.Sound) (hstep : selectStep s a = some t) : t.Sound := by
  cases a with
  | register awaited fd =>
    obtain ⟨hcode, rfl⟩ : s.userCode = true ∧ s.register awaited fd = t := by
      simpa [selectStep] using hstep
    exact h.register hcode (awaited, fd)
  | stop i =>
    obtain ⟨e, hi, hcode, rfl⟩ : ∃ e, s.events[i]? = some e ∧ s.userCode = true ∧
        s.stop i e = t := by
      simpa [selectStep, Option.bind_eq_some_iff] using hstep
    exact h.stop hcode hi
  | select ready =>
    simp only [selectStep] at hstep
    split at hstep
    case h_1 =>
      split at hstep
      case isTrue hready =>
        cases hstep
        -- the set of ready descriptors is only recorded
        obtain ⟨ht, d, hr, -⟩ := h
        exact ⟨ht, d, hr.congr rfl rfl rfl, hready.1⟩
      case isFalse => cases hstep
    case h_2 => cases hstep
  | invoke =>
    simp only [selectStep] at hstep
    split at hstep
    case h_1 ready hphase =>
      cases hstep
      obtain ⟨ht, d, hr, hp⟩ := h
      rw [hphase] at hp
      exact ⟨ht, d, hr.congr rfl rfl rfl, [], rfl, List.forall_mem_nil _, hp, Nat.le_refl _,
        List.nodup_nil, List.forall_mem_nil _,
        fun inv hinv => absurd hinv (Option.some_ne_none inv).symm, fun _ => rfl⟩
    case h_2 => cases hstep
  | turn => exact (h.turn hstep).1
  | returns =>
    simp only [selectStep] at hstep
    split at hstep
    case h_1 ready inv hphase =>
      cases hstep
      obtain ⟨ht, d, hr, hp⟩ := h
      rw [hphase] at hp
      obtain ⟨done, hi⟩ := hp
      exact ⟨ht, d, hr.congr rfl rfl rfl, done, (hi.of_phase _).2⟩
    case h_2 => cases hstep
  | raises =>
    obtain ⟨ht, d, hr, -⟩ := h
    simp only [selectStep] at hstep
    split at hstep
    · cases hstep
      exact ⟨ht, d, hr.congr rfl rfl rfl, trivial⟩
    · cases hstep
      exact ⟨ht, d, hr.congr rfl rfl rfl, trivial⟩
    · cases hstep

end SelectBased

open SelectBased

/-- In every run: the engine has an entry for a file descriptor if and only if an action waits for
it, with the nodes of the actions that wait, so these are the file descriptors that it asks the
system about; each turn of an iteration calls at most one action, that has not been stopped, that
has not been called before in the iteration, and for a file descriptor that is ready; there is a
next turn whenever no action runs; and when the iteration has come to its end, each action of these
file descriptors that was there when the first action was about to be called, and that has not been
stopped, has been called. -/
theorem ready_actions_are_called {s : SelectBased}
    (hreach : Reach selectStep (fun _ _ => True) init s) :
    (∀ key h, s.entry key = some h → s.sequences.Ring h (s.nodes key) ∧ s.nodes key ≠ []) ∧
    (∀ key, s.entry key = none → s.nodes key = []) ∧
    (∀ ready invocation, s.phase = .invoking ready invocation false →
      (selectStep s .turn).isSome = true) ∧
    ∀ t, selectStep s .turn = some t →
      (t.round = s.round ∨ ∃ (i : ℕ) (e : FdEvent), t.round.called = s.round.called ++ [i] ∧
        s.events[i]? = some e ∧ e.stopped = false ∧ e.key ∈ s.round.ready ∧
        i ∉ s.round.called) ∧
      (t.phase = .idle → ∀ (i : ℕ) (e : FdEvent), s.events[i]? = some e → i < s.round.mark →
        e.stopped = false → e.key ∈ s.round.ready → i ∈ s.round.called) := by
  have h : s.Sound :=
    hreach.invariant (P := SelectBased.Sound) sound_init fun _ _ _ h _ => sound_step h
  obtain ⟨ht, d, hr, -⟩ := id h
  refine ⟨fun key h hentry => ⟨hr.represents.ring (hr.list key h hentry), ht key h hentry⟩,
    hr.missing, fun ready invocation hphase => hr.turn_isSome hphase, fun t hstep => ?_⟩
  obtain ⟨-, hcalled, hend⟩ := h.turn hstep
  exact ⟨hcalled, fun hidle i e hi hlt hstopped hkey =>
    hend hidle e.key hkey i e hi hlt hstopped rfl⟩

/-- An action stops another one and itself and registers a third one, and a timer has replaced the
action of the other file descriptor. -/
theorem ready_actions_are_called_around :
    ∃ s t, Reach selectStep (fun _ _ => True) init s ∧ s.round.mark = 4 ∧ s.events.length = 5 ∧
      selectStep s .turn = some t ∧ s.round.called = [1, 3] ∧
      ∀ (i : ℕ) (e : FdEvent), s.events[i]? = some e → i < 4 → e.stopped = false →
        e.key ∈ s.round.ready → i ∈ s.round.called := by
  obtain ⟨s, hs⟩ : ∃ s, replay selectStep init
      [.register .readable 3, .register .readable 3, .register .writable 5,
        .select [(.readable, 3), (.writable, 5)], .stop 2, .register .writable 5, .invoke, .turn,
        .turn, .stop 0, .register .readable 3, .stop 1, .returns, .turn, .turn, .turn, .returns,
        .turn] = some s := ⟨_, rfl⟩
  have hreach := reach_of_replay _ hs
  obtain ⟨t, hmark, hlength, hcalled, ht, hidle⟩ : ∃ t, s.round.mark = 4 ∧ s.events.length = 5 ∧
      s.round.called = [1, 3] ∧ selectStep s .turn = some t ∧ t.phase = .idle := by
    cases hs.symm.trans rfl
    exact ⟨_, rfl, rfl, rfl, rfl, rfl⟩
  refine ⟨s, t, hreach, hmark, hlength, ht, hcalled, fun i e hi hlt => ?_⟩
  exact ((ready_actions_are_called hreach).2.2.2 t ht).2 hidle i e hi (hmark ▸ hlt)

end Lwt.Unix
