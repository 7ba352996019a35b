import Lwt.Library.Bindings
import Lwt.Library.Transition
import Lwt.Sequence.Growing

/-!
# Signal handlers

All handlers of a signal are in one sequence.  The first one to be registered makes it, and with it
the notification whose handler iterates over the sequence; removing the last one removes both.  The
handlers register and remove handlers themselves, in the middle of an iteration.

The numbers of the signals are those of OCaml: a signal of the system may have two of them, a
number of its own and one for all systems (`convert`).  The tables have one entry for each number,
the system has one handler for each signal.  A second number of a signal takes the handler from the
first one, and removes it.

The handler of the notification passes an identifier to the functions that it calls.  It is the one
of the registration that has made the notification, so a function of `on_signal_full` that is
registered while there are others gets the identifier of another (`delivery_other_id`).  If
`on_signal_full` is only called for signals without handlers, and no two numbers of one signal have
handlers at the same time, then everything is as it should be (`deliveries`).
-/

namespace Lwt.Unix

open Bindings Transition

/-- A function in a sequence; those of `on_signal` do not use the identifier.  The last field is not
part of the program: the identifier that its registration has returned. -/
structure Handler where
  usesId : Bool
  id : ℕ

/-- The variables that the handler of a notification has captured. -/
structure SignalNotifier where
  id : ℕ
  signum : ℤ
  actions : ℕ

/-- A call of the handler of a notification that is under way: `curr` is the node of `iter_l`, and
`calling` tells that its function is running.  The last two fields are not part of the program: the
nodes of the handlers that were registered at the start, and those whose functions have been called,
each with the identifier that was passed. -/
structure Delivery where
  notifier : SignalNotifier
  curr : ℕ
  calling : Bool
  start : List ℕ
  called : List (ℕ × ℕ)

/-- `ids` are the references of type `signal_handler_id`, with `sh_num` and `sh_node`; `osHandlers`
the handlers that `lwt_unix_set_signal` has installed for the signals of the system, with the
notification that they send. -/
structure Signals where
  links : Sequences Handler
  ids : List (Option (ℤ × ℕ))
  signals : List (ℤ × (ℕ × ℕ))
  notifications : List (ℕ × SignalNotifier)
  osHandlers : List (ℕ × ℕ)
  nextNotification : ℕ
  delivery : Option Delivery

namespace Signals

def init : Signals := ⟨[], [], [], [], [], 0, none⟩

/-- `add_r handler actions`, and the assignment to the reference. -/
def addHandler (s : Signals) (signum : ℤ) (usesId : Bool) (actions : ℕ) : Signals :=
  { s with
    links := s.links.addR ⟨usesId, s.ids.length⟩ actions
    ids := s.ids ++ [some (signum, s.links.length)] }

section Numbers

-- `caml_convert_signal_number`
variable (convert : ℤ → ℕ)

/-- `lwt_unix_set_signal`: the system has one handler for each signal, which is lost when another
one cannot be installed. -/
def setSignal (osHandlers : List (ℕ × ℕ)) (signum : ℤ) (notification : ℕ) (ok : Bool) :
    List (ℕ × ℕ) :=
  let others := Bindings.remove (convert signum) osHandlers
  if ok then others ++ [(convert signum, notification)] else others

/-- `on_signal_full signum handler`; `ok` tells whether `set_signal` succeeds, if it is called. -/
def onSignalFull (s : Signals) (signum : ℤ) (usesId ok : Bool) : Signals :=
  match find s.signals signum with
  | some (_, actions) => s.addHandler signum usesId actions
  | none =>
    let actions := s.links.length
    let notification := s.nextNotification
    let s := { s with
      links := s.links.create
      nextNotification := notification + 1
      osHandlers := setSignal convert s.osHandlers signum notification ok }
    if ok then
      let notifier : SignalNotifier := ⟨s.ids.length, signum, actions⟩
      { s with
        notifications := s.notifications ++ [(notification, notifier)]
        signals := s.signals ++ [(signum, (notification, actions))] }.addHandler signum usesId
          actions
    else { s with ids := s.ids ++ [none] }

/-- `on_signal signum f`: the identifier is ignored. -/
def onSignal (s : Signals) (signum : ℤ) (ok : Bool) : Signals :=
  s.onSignalFull convert signum false ok

/-- `disable_signal_handler id` -/
def disableSignalHandler (s : Signals) (id : ℕ) : Signals :=
  match s.ids[id]?.join with
  | none => s
  | some (signum, node) =>
    let s := { s with ids := s.ids.set id none, links := s.links.remove node }
    match find s.signals signum with
    | none => s
    | some (notification, actions) =>
      if s.links.isEmpty actions then
        { s with
          osHandlers := Bindings.remove (convert signum) s.osHandlers
          signals := Bindings.remove signum s.signals
          notifications := Bindings.remove notification s.notifications }
      else s

end Numbers

/-- The nodes of the handlers that are registered for a signal, in the order of registration. -/
def handlersOf (signum : ℤ) (ids : List (Option (ℤ × ℕ))) : List ℕ :=
  ids.filterMap fun id => id.bind fun handler =>
    if handler.1 = signum then some handler.2 else none

def registered (s : Signals) (signum : ℤ) : List ℕ := handlersOf signum s.ids

/-- The handler of the notification is called, if it is still there. -/
def deliver (s : Signals) (notification : ℕ) : Signals :=
  match find s.notifications notification with
  | none => s
  | some n =>
    { s with
      delivery := some ⟨n, s.links.next n.actions, false, s.registered n.signum, []⟩ }

/-- One turn of `iter_l`, up to the call of the function. -/
def turn (s : Signals) (d : Delivery) : Signals :=
  if d.curr = d.notifier.actions then { s with delivery := none }
  else if s.links.active d.curr then
    { s with
      delivery := some { d with
        calling := true
        called := d.called ++ [(d.curr, d.notifier.id)] } }
  else { s with delivery := some { d with curr := s.links.next d.curr } }

/-- The code of the user is running. -/
def userCode (s : Signals) : Bool :=
  match s.delivery with
  | none => true
  | some d => d.calling

end Signals

inductive SignalStep
  | onSignal (signum : ℤ) (ok : Bool)
  | onSignalFull (signum : ℤ) (ok : Bool)
  | disable (id : ℕ)
  /-- the main loop takes a notification -/
  | deliver (notification : ℕ)
  /-- the iteration goes on -/
  | turn
  /-- the function that was called returns -/
  | returns

def signalStep (convert : ℤ → ℕ) (s : Signals) : SignalStep → Option Signals
  | .onSignal signum ok => if s.userCode then some (s.onSignal convert signum ok) else none
  | .onSignalFull signum ok =>
    if s.userCode then some (s.onSignalFull convert signum true ok) else none
  | .disable id => if s.userCode then some (s.disableSignalHandler convert id) else none
  | .deliver notification =>
    match s.delivery with
    | none => some (s.deliver notification)
    | some _ => none
  | .turn =>
    match s.delivery with
    | none => none
    | some d => if d.calling then none else some (s.turn d)
  | .returns =>
    match s.delivery with
    | none => none
    | some d =>
      if d.calling then
        some { s with
          delivery := some { d with calling := false, curr := s.links.next d.curr } }
      else none

/-! ## What is registered -/

namespace Signals

variable {convert : ℤ → ℕ} {s t : Signals} {d : Deques Handler} {signum n : ℤ} {x i : ℕ}

theorem mem_handlersOf {ids : List (Option (ℤ × ℕ))} :
    x ∈ handlersOf n ids ↔ ∃ i : ℕ, ids[i]? = some (some (n, x)) := by
  unfold handlersOf
  rw [List.mem_filterMap]
  constructor
  · rintro ⟨id, hmem, hid⟩
    obtain ⟨⟨m, y⟩, rfl, hy⟩ := Option.bind_eq_some_iff.mp hid
    obtain ⟨hm, hy⟩ := Option.ite_none_right_eq_some.mp hy
    obtain ⟨i, hi⟩ := List.mem_iff_getElem?.mp hmem
    simp only at hm
    cases hy
    exact ⟨i, hm ▸ hi⟩
  · rintro ⟨i, hi⟩
    exact ⟨_, List.mem_iff_getElem?.mpr ⟨i, hi⟩, by simp⟩

theorem handlersOf_append (ids ids' : List (Option (ℤ × ℕ))) :
    handlersOf n (ids ++ ids') = handlersOf n ids ++ handlersOf n ids' := List.filterMap_append

theorem handlersOf_some (m : ℤ) (y : ℕ) :
    handlersOf n [some (m, y)] = if m = n then [y] else [] := by
  unfold handlersOf
  split <;> rename_i h <;> simp [h]

theorem handlersOf_set {ids : List (Option (ℤ × ℕ))} {m : ℤ} {y : ℕ}
    (hi : ids[i]? = some (some (m, y))) (hnodup : (handlersOf m ids).Nodup) :
    handlersOf n (ids.set i none) =
      if m = n then (handlersOf n ids).erase y else handlersOf n ids := by
  obtain ⟨hlt, hget⟩ := List.getElem?_eq_some_iff.mp hi
  obtain ⟨l, l', rfl, rfl⟩ : ∃ l l', ids = l ++ some (m, y) :: l' ∧ i = l.length := by
    refine ⟨ids.take i, ids.drop (i + 1), ?_, by simp [Nat.le_of_lt hlt]⟩
    rw [← hget, List.cons_getElem_drop_succ, List.take_append_drop]
  have hset : (l ++ some (m, y) :: l').set l.length none = l ++ [none] ++ l' := by simp
  have hnone : handlersOf n [none] = [] := rfl
  have happend : ∀ n, handlersOf n (l ++ some (m, y) :: l') =
      handlersOf n l ++ (if m = n then [y] else []) ++ handlersOf n l' := by
    intro n
    rw [List.append_cons, handlersOf_append, handlersOf_append, handlersOf_some]
  rw [hset, handlersOf_append, handlersOf_append, hnone, List.append_nil, happend]
  split
  · rename_i heq
    subst heq
    rw [happend, if_pos rfl] at hnodup
    have hnot : y ∉ handlersOf m l := fun hmem =>
      (List.nodup_append.mp (List.nodup_append.mp hnodup).1).2.2 y hmem y (by simp) rfl
    rw [List.append_assoc, List.erase_append_right _ hnot]
    simp
  · simp

/-! ## The tables and the sequences -/

/-- A function that uses the identifier gets that of its own registration. -/
def UsesOwn (links : Sequences Handler) (id x : ℕ) : Prop :=
  ∀ handler, links.data x = some handler → handler.usesId = true → handler.id = id

/-- The sequence of each signal has the handlers that are registered for it. -/
structure Inv (convert : ℤ → ℕ) (s : Signals) (d : Deques Handler) : Prop where
  represents : Represents s.links d
  entry : ∀ n k q, find s.signals n = some (k, q) → d.lists q = some (s.registered n) ∧
    find s.osHandlers (convert n) = some k ∧ ∃ id, find s.notifications k = some ⟨id, n, q⟩
  apart : ∀ n n' k k' q, find s.signals n = some (k, q) → find s.signals n' = some (k', q) → n = n'
  distinct : ∀ n n' e e', find s.signals n = some e → find s.signals n' = some e' →
    convert n = convert n' → n = n'
  absent : ∀ n, find s.signals n = none → s.registered n = []
  osHandler : ∀ m k, find s.osHandlers m = some k →
    ∃ n q, convert n = m ∧ find s.signals n = some (k, q)
  notification : ∀ k c, find s.notifications k = some c →
    find s.signals c.signum = some (k, c.actions)
  fresh : ∀ k, s.nextNotification ≤ k → find s.notifications k = none
  idOf : ∀ (i : ℕ) n x, s.ids[i]? = some (some (n, x)) →
    ∃ handler, s.links.data x = some handler ∧ handler.id = i
  ofData : ∀ x handler, s.links.data x = some handler → handler.id < s.ids.length ∧
    ∀ n y, s.ids[handler.id]? = some (some (n, y)) → y = x
  own : ∀ k c, find s.notifications k = some c → ∀ x ∈ s.registered c.signum,
    UsesOwn s.links c.id x

/-- A signal has a sequence only if there are handlers. -/
def Full (s : Signals) : Prop := ∀ n k q, find s.signals n = some (k, q) → s.registered n ≠ []

namespace Inv

theorem init : Inv convert init Deques.initial :=
  ⟨represents_initial, nofun, nofun, nofun, fun _ _ => rfl, nofun, nofun, fun _ _ => rfl, nofun,
    nofun, nofun⟩

theorem eq_of_mem (h : Inv convert s d) {m : ℤ} (hn : x ∈ s.registered n)
    (hm : x ∈ s.registered m) : n = m := by
  obtain ⟨i, hi⟩ := mem_handlersOf.mp hn
  obtain ⟨j, hj⟩ := mem_handlersOf.mp hm
  obtain ⟨a, ha, rfl⟩ := h.idOf i n x hi
  obtain ⟨b, hb, rfl⟩ := h.idOf j m x hj
  cases ha.symm.trans hb
  exact (Prod.mk.inj (Option.some.inj (Option.some.inj (hi.symm.trans hj)))).1

theorem registered_nodup (h : Inv convert s d) (n : ℤ) : (s.registered n).Nodup := by
  cases hn : find s.signals n with
  | none =>
    rw [h.absent n hn]
    exact List.nodup_nil
  | some e =>
    obtain ⟨hlist, -⟩ := h.entry n e.1 e.2 hn
    exact (List.nodup_cons.mp (h.represents.ring hlist).nodup).2

theorem exists_entry (h : Inv convert s d) (hx : x ∈ s.registered n) :
    ∃ k q, find s.signals n = some (k, q) := by
  cases hn : find s.signals n with
  | none =>
    rw [h.absent n hn] at hx
    cases hx
  | some e => exact ⟨e.1, e.2, rfl⟩

theorem active_of_mem (h : Inv convert s d) (hx : x ∈ s.registered n) :
    s.links.active x = true := by
  obtain ⟨k, q, hn⟩ := h.exists_entry hx
  exact (h.represents.active x).mpr ⟨q, _, (h.entry n k q hn).1, hx⟩

end Inv

theorem lt_of_data {handler : Handler} (hx : s.links.data x = some handler) :
    x < s.links.length := by
  by_contra hlt
  unfold Sequences.data at hx
  rw [List.getElem?_eq_none (Nat.not_lt.mp hlt)] at hx
  cases hx

/-! ## Registering a handler -/

theorem find_setSignal (osHandlers : List (ℕ × ℕ)) (signum : ℤ) (notification m : ℕ) :
    find (setSignal convert osHandlers signum notification true) m =
      if convert signum = m then some notification else find osHandlers m := by
  have hnew : convert signum ∉ keys (Bindings.remove (convert signum) osHandlers) :=
    find_eq_none.mp (find_remove.trans (if_pos rfl))
  rw [setSignal, if_pos rfl, find_append_new hnew, find_remove]
  split <;> rfl

/-- No other number of the signal has a sequence. -/
def Sole (convert : ℤ → ℕ) (s : Signals) (signum : ℤ) : Prop :=
  ∀ n e, find s.signals n = some e → convert n = convert signum → n = signum

/-- The new sequence, its notification and its OS handler, for a signal without handlers. -/
def newEntry (convert : ℤ → ℕ) (s : Signals) (signum : ℤ) : Signals :=
  { s with
    links := s.links.create
    nextNotification := s.nextNotification + 1
    notifications :=
      s.notifications ++ [(s.nextNotification, ⟨s.ids.length, signum, s.links.length⟩)]
    osHandlers := setSignal convert s.osHandlers signum s.nextNotification true
    signals := s.signals ++ [(signum, (s.nextNotification, s.links.length))] }

def created (d : Deques Handler) : Deques Handler :=
  { d with size := d.size + 1, lists := Function.update d.lists d.size (some []) }

theorem created_lists (h : Inv convert s d) {q : ℕ} {l : List ℕ} (hq : d.lists q = some l) :
    (created d).lists q = some l := by
  have hlt := (h.represents.ring hq).within q (by simp)
  rw [← h.represents.size] at hlt
  exact (Function.update_of_ne hlt.ne _ _).trans hq

theorem Inv.newEntry (h : Inv convert s d) (hnone : find s.signals signum = none)
    (hsole : Sole convert s signum) : Inv convert (s.newEntry convert signum) (created d) := by
  have hsignals : ∀ n, find (s.newEntry convert signum).signals n =
      if signum = n then some (s.nextNotification, s.links.length) else find s.signals n := fun n =>
    find_append_new (find_eq_none.mp hnone)
  have hos : ∀ m, find (s.newEntry convert signum).osHandlers m =
      if convert signum = m then some s.nextNotification else find s.osHandlers m := fun m =>
    find_setSignal ..
  -- no other number of the same OS signal has an entry
  have hother : ∀ {n e}, find s.signals n = some e → convert signum ≠ convert n := by
    intro n e hn heq
    rw [hsole n e hn heq.symm, hnone] at hn
    cases hn
  have hnotification : ∀ k, find (s.newEntry convert signum).notifications k =
      if s.nextNotification = k then some ⟨s.ids.length, signum, s.links.length⟩
      else find s.notifications k := fun k =>
    find_append_new (find_eq_none.mp (h.fresh _ (Nat.le_refl _)))
  have hold : ∀ {n k q}, find s.signals n = some (k, q) → q ≠ s.links.length ∧
      k ≠ s.nextNotification := by
    intro n k q hn
    obtain ⟨hq, -, id, hk⟩ := h.entry n k q hn
    refine ⟨((h.represents.ring hq).within q (by simp)).ne, ?_⟩
    rintro rfl
    rw [h.fresh _ (Nat.le_refl _)] at hk
    cases hk
  -- each field: for the new entry, then for the old ones
  refine ⟨h.represents.create, ?_, ?_, ?_, ?_, ?_, ?_, ?_, ?_, ?_, ?_⟩
  · intro n k q hn
    rw [hsignals] at hn
    split at hn
    · rename_i heq
      subst heq
      cases hn
      refine ⟨?_, by rw [hos, if_pos rfl], s.ids.length, by rw [hnotification, if_pos rfl]⟩
      change (created d).lists s.links.length = some (s.registered signum)
      rw [h.absent signum hnone, ← h.represents.size]
      exact Function.update_self ..
    · rename_i hne
      obtain ⟨hq, hk, id, hid⟩ := h.entry n k q hn
      refine ⟨created_lists h hq, by rw [hos, if_neg (hother hn), hk], id, ?_⟩
      rw [hnotification, if_neg (hold hn).2.symm, hid]
  · intro n n' k k' q hn hn'
    rw [hsignals] at hn hn'
    split at hn <;> split at hn'
    · rename_i heq heq'
      exact heq.symm.trans heq'
    · obtain ⟨-, rfl⟩ := Prod.mk.inj (Option.some.inj hn)
      exact absurd rfl (hold hn').1
    · obtain ⟨-, rfl⟩ := Prod.mk.inj (Option.some.inj hn')
      exact absurd rfl (hold hn).1
    · exact h.apart n n' k k' q hn hn'
  · intro n n' e e' hn hn' heq
    rw [hsignals] at hn hn'
    split at hn <;> split at hn'
    · rename_i hsignum hsignum'
      exact hsignum.symm.trans hsignum'
    · rename_i hsignum _
      exact absurd (hsignum ▸ heq) (hother hn')
    · rename_i hsignum
      exact absurd (hsignum ▸ heq.symm) (hother hn)
    · exact h.distinct n n' e e' hn hn' heq
  · intro n hn
    rw [hsignals] at hn
    split at hn
    · cases hn
    · exact h.absent n hn
  · intro m k hk
    rw [hos] at hk
    split at hk
    · rename_i heq
      cases hk
      exact ⟨signum, _, heq, by rw [hsignals, if_pos rfl]⟩
    · obtain ⟨n, q, hm, hn⟩ := h.osHandler m k hk
      refine ⟨n, q, hm, ?_⟩
      rw [hsignals, if_neg fun heq => hother hn (congrArg convert heq), hn]
  · intro k c hk
    rw [hnotification] at hk
    split at hk
    · rename_i heq
      cases hk
      rw [hsignals, if_pos rfl, heq]
    · have hc := h.notification k c hk
      have hne : signum ≠ c.signum := by
        rintro heq
        rw [← heq, hnone] at hc
        cases hc
      rw [hsignals, if_neg hne, hc]
  · intro k hk
    have hk' : s.nextNotification + 1 ≤ k := hk
    rw [hnotification, if_neg (by omega)]
    exact h.fresh k (by omega)
  · intro i n x hi
    obtain ⟨handler, hx, hid⟩ := h.idOf i n x hi
    exact ⟨handler, (Sequences.data_create_eq s.links x).trans hx, hid⟩
  · intro x handler hx
    exact h.ofData x handler ((Sequences.data_create_eq s.links x).symm.trans hx)
  · intro k c hk x hx handler hdata
    have hdata' := (Sequences.data_create_eq s.links x).symm.trans hdata
    rw [hnotification] at hk
    split at hk
    · cases hk
      have hx' : x ∈ s.registered signum := hx
      rw [h.absent signum hnone] at hx'
      cases hx'
    · exact h.own k c hk x hx handler hdata'

theorem Inv.failed (h : Inv convert s d) (hnone : find s.signals signum = none)
    (hsole : Sole convert s signum) :
    Inv convert { s with
      links := s.links.create
      nextNotification := s.nextNotification + 1
      osHandlers := setSignal convert s.osHandlers signum s.nextNotification false
      ids := s.ids ++ [none] } (created d) := by
  have hos : ∀ m, find (setSignal convert s.osHandlers signum s.nextNotification false) m =
      if convert signum = m then none else find s.osHandlers m := fun m => find_remove
  have hother : ∀ {n e}, find s.signals n = some e → convert signum ≠ convert n := by
    intro n e hn heq
    rw [hsole n e hn heq.symm, hnone] at hn
    cases hn
  -- an id without a handler counts for no number
  have hregistered : ∀ n, handlersOf n (s.ids ++ [none]) = handlersOf n s.ids := by
    intro n
    rw [handlersOf_append]
    exact List.append_nil _
  have hids : ∀ {i : ℕ} {n : ℤ} {y : ℕ}, (s.ids ++ [none])[i]? = some (some (n, y)) →
      s.ids[i]? = some (some (n, y)) := by
    intro i n y hi
    rcases Nat.lt_or_ge i s.ids.length with hlt | hge
    · rwa [List.getElem?_append_left hlt] at hi
    · rw [List.getElem?_append_right hge] at hi
      cases hsub : i - s.ids.length with
      | zero =>
        rw [hsub] at hi
        cases hi
      | succ j =>
        rw [hsub] at hi
        cases hi
  refine ⟨h.represents.create, ?_, h.apart, h.distinct, ?_, ?_, h.notification, ?_, ?_, ?_, ?_⟩
  · intro n k q hn
    obtain ⟨hq, hk, hid⟩ := h.entry n k q hn
    refine ⟨?_, (hos (convert n)).trans ((if_neg (hother hn)).trans hk), hid⟩
    change _ = some (handlersOf n (s.ids ++ [none]))
    rw [hregistered]
    exact created_lists h hq
  · exact fun n hn => (hregistered n).trans (h.absent n hn)
  · intro m k hk
    have hk' := (hos m).symm.trans hk
    exact h.osHandler m k (Option.ite_none_left_eq_some.mp hk').2
  · exact fun k hk => h.fresh k (Nat.le_of_succ_le hk)
  · intro i n x hi
    obtain ⟨handler, hx, hid⟩ := h.idOf i n x (hids hi)
    exact ⟨handler, (Sequences.data_create_eq s.links x).trans hx, hid⟩
  · intro x handler hx
    obtain ⟨hlt, honly⟩ := h.ofData x handler ((Sequences.data_create_eq s.links x).symm.trans hx)
    refine ⟨?_, fun n y hi => honly n y (hids hi)⟩
    rw [List.length_append]
    exact Nat.lt_add_right 1 hlt
  · intro k c hk x hx handler hdata
    have hx' : x ∈ handlersOf c.signum (s.ids ++ [none]) := hx
    rw [hregistered] at hx'
    exact h.own k c hk x hx' handler ((Sequences.data_create_eq s.links x).symm.trans hdata)

def added (d : Deques Handler) (q : ℕ) (l : List ℕ) (handler : Handler) : Deques Handler :=
  ⟨d.size + 1, Function.update d.lists q (some (l ++ [d.size])),
    Function.update d.value d.size (some handler)⟩

theorem registered_addHandler (usesId : Bool) (q : ℕ) (m : ℤ) :
    (s.addHandler signum usesId q).registered m =
      s.registered m ++ if signum = m then [s.links.length] else [] := by
  change handlersOf m (s.ids ++ [some (signum, s.links.length)]) = _
  rw [handlersOf_append, handlersOf_some]
  rfl

theorem Inv.addHandler (h : Inv convert s d) {k q : ℕ}
    (hentry : find s.signals signum = some (k, q)) {usesId : Bool} (hown : usesId = true →
      ∀ c, find s.notifications k = some c → c.id = s.ids.length) :
    Inv convert (s.addHandler signum usesId q)
      (added d q (s.registered signum) ⟨usesId, s.ids.length⟩) := by
  obtain ⟨hq, hos, id, hid⟩ := h.entry signum k q hentry
  have hold : ∀ {x handler}, s.links.data x = some handler →
      (s.links.addR ⟨usesId, s.ids.length⟩ q).data x = some handler := by
    intro x handler hx
    rw [Sequences.data_addR_lt (lt_of_data hx), hx]
  have hdata : ∀ {x handler}, (s.links.addR ⟨usesId, s.ids.length⟩ q).data x = some handler →
      s.links.data x = some handler ∨
        x = s.links.length ∧ handler = ⟨usesId, s.ids.length⟩ := by
    intro x handler hx
    rcases Nat.lt_or_ge x s.links.length with hlt | hge
    · rw [Sequences.data_addR_lt hlt] at hx
      exact .inl hx
    · have hlt' : x < s.links.length + 1 := by
        by_contra hlt'
        unfold Sequences.data at hx
        rw [List.getElem?_eq_none (by simpa using Nat.not_lt.mp hlt')] at hx
        cases hx
      obtain rfl : x = s.links.length := Nat.le_antisymm (Nat.le_of_lt_succ hlt') hge
      rw [Sequences.data_addR_self] at hx
      exact .inr ⟨rfl, (Option.some.inj hx).symm⟩
  have hids : ∀ {i : ℕ} {n : ℤ} {y : ℕ},
      (s.ids ++ [some (signum, s.links.length)])[i]? = some (some (n, y)) →
      s.ids[i]? = some (some (n, y)) ∨ i = s.ids.length ∧ n = signum ∧ y = s.links.length := by
    intro i n y hi
    rcases Nat.lt_or_ge i s.ids.length with hlt | hge
    · rw [List.getElem?_append_left hlt] at hi
      exact .inl hi
    · rw [List.getElem?_append_right hge] at hi
      cases hsub : i - s.ids.length with
      | zero =>
        rw [hsub] at hi
        obtain ⟨rfl, rfl⟩ := Prod.mk.inj (Option.some.inj (Option.some.inj hi))
        exact .inr ⟨by omega, rfl, rfl⟩
      | succ j =>
        rw [hsub] at hi
        cases hi
  refine ⟨h.represents.addR hq, ?_, h.apart, h.distinct, ?_, h.osHandler, h.notification, h.fresh,
    ?_, ?_, ?_⟩
  -- the new handler is the last one of its number
  · intro n k' q' hn
    obtain ⟨hq', hos', hid'⟩ := h.entry n k' q' hn
    refine ⟨?_, hos', hid'⟩
    rw [registered_addHandler]
    by_cases hne : signum = n
    · subst hne
      obtain ⟨rfl, rfl⟩ := Prod.mk.inj (Option.some.inj (hentry.symm.trans hn))
      rw [if_pos rfl, ← h.represents.size]
      exact Function.update_self ..
    · rw [if_neg hne, List.append_nil]
      have hqne : q' ≠ q := fun heq => hne (h.apart signum n k k' q hentry (heq ▸ hn))
      exact (Function.update_of_ne hqne ..).trans hq'
  · intro n hn
    have hne : signum ≠ n := by
      rintro rfl
      cases hentry.symm.trans hn
    rw [registered_addHandler, if_neg hne, List.append_nil, h.absent n hn]
  · intro i n x hi
    rcases hids hi with hi | ⟨rfl, rfl, rfl⟩
    · obtain ⟨handler, hx, hid⟩ := h.idOf i n x hi
      exact ⟨handler, hold hx, hid⟩
    · exact ⟨_, Sequences.data_addR_self .., rfl⟩
  · intro x handler hx
    rcases hdata hx with hx | ⟨rfl, rfl⟩
    · obtain ⟨hlt, honly⟩ := h.ofData x handler hx
      refine ⟨?_, fun n y hi => ?_⟩
      · change _ < (s.ids ++ [_]).length
        rw [List.length_append]
        exact Nat.lt_add_right 1 hlt
      · rcases hids hi with hi | ⟨heq, -⟩
        · exact honly n y hi
        · exact absurd heq hlt.ne
    · refine ⟨?_, fun n y hi => ?_⟩
      · change _ < (s.ids ++ [_]).length
        simp
      · rcases hids hi with hi | ⟨-, -, rfl⟩
        · exact absurd (List.getElem?_eq_some_iff.mp hi).1 (Nat.lt_irrefl _)
        · rfl
  · intro k' c hk x hx handler hx' huses
    rw [registered_addHandler] at hx
    rcases List.mem_append.mp hx with hx | hx
    · obtain ⟨i, hi⟩ := mem_handlersOf.mp hx
      obtain ⟨old, hold', -⟩ := h.idOf i _ x hi
      obtain rfl := Option.some.inj ((hold hold').symm.trans hx')
      exact h.own k' c hk x hx old hold' huses
    -- the id of the new handler is the one that the notification carries
    · by_cases hsignum : signum = c.signum
      · rw [if_pos hsignum] at hx
        obtain rfl := List.mem_singleton.mp hx
        obtain rfl := Option.some.inj ((Sequences.data_addR_self ..).symm.trans hx')
        have hc := h.notification k' c hk
        rw [← hsignum, hentry] at hc
        obtain ⟨rfl, -⟩ := Prod.mk.inj (Option.some.inj hc)
        exact (hown huses c hk).symm
      · rw [if_neg hsignum] at hx
        cases hx

theorem Full.addHandler (h : Full s) (usesId : Bool) (q : ℕ) :
    Full (s.addHandler signum usesId q) := by
  intro n k q' hn hnil
  rw [registered_addHandler] at hnil
  exact h n k q' hn (List.append_eq_nil_iff.mp hnil).1

theorem Full.newEntry (h : Full s) (hnone : find s.signals signum = none) (usesId : Bool) (q : ℕ) :
    Full ((s.newEntry convert signum).addHandler signum usesId q) := by
  intro n k q' hn hnil
  rw [registered_addHandler] at hnil
  obtain ⟨hnil, hnew⟩ := List.append_eq_nil_iff.mp hnil
  by_cases heq : signum = n
  · rw [if_pos heq] at hnew
    cases hnew
  · have hn' : find (s.newEntry convert signum).signals n = some (k, q') := hn
    unfold Signals.newEntry at hn'
    rw [find_append_new (find_eq_none.mp hnone), if_neg heq] at hn'
    exact h n k q' hn' hnil

/-! ## Removing a handler -/

/-- `id := None` and `remove sh.sh_node`. -/
def unregister (s : Signals) (id node : ℕ) : Signals :=
  { s with ids := s.ids.set id none, links := s.links.remove node }

/-- What is removed with the last handler. -/
def dropEntry (convert : ℤ → ℕ) (s : Signals) (signum : ℤ) (notification : ℕ) : Signals :=
  { s with
    osHandlers := Bindings.remove (convert signum) s.osHandlers
    signals := Bindings.remove signum s.signals
    notifications := Bindings.remove notification s.notifications }

theorem disable_eq {id node k q : ℕ} (hid : s.ids[id]? = some (some (signum, node)))
    (hentry : find s.signals signum = some (k, q)) :
    s.disableSignalHandler convert id =
      if (s.links.remove node).isEmpty q then (s.unregister id node).dropEntry convert signum k
      else s.unregister id node := by
  unfold disableSignalHandler
  rw [hid, Option.join_some]
  simp only [hentry]
  rfl

theorem Inv.registered_unregister (h : Inv convert s d) {id node : ℕ}
    (hid : s.ids[id]? = some (some (signum, node))) (n : ℤ) :
    (s.unregister id node).registered n =
      if signum = n then (s.registered n).erase node else s.registered n :=
  handlersOf_set hid (h.registered_nodup signum)

theorem Inv.unregister (h : Inv convert s d) {id node : ℕ}
    (hid : s.ids[id]? = some (some (signum, node))) :
    Inv convert (s.unregister id node) (d.remove node) := by
  have hnode : node ∈ s.registered signum := mem_handlersOf.mpr ⟨id, hid⟩
  have hids : ∀ {i : ℕ} {n : ℤ} {y : ℕ}, (s.ids.set id none)[i]? = some (some (n, y)) →
      s.ids[i]? = some (some (n, y)) := by
    intro i n y hi
    rw [List.getElem?_set] at hi
    split at hi
    · split at hi <;> cases hi
    · exact hi
  have hsub : ∀ n x, x ∈ (s.unregister id node).registered n → x ∈ s.registered n := by
    intro n x hx
    obtain ⟨i, hi⟩ := mem_handlersOf.mp hx
    exact mem_handlersOf.mpr ⟨i, hids hi⟩
  refine ⟨h.represents.remove node, ?_, h.apart, h.distinct, ?_, h.osHandler, h.notification,
    h.fresh, ?_, ?_, ?_⟩
  · intro n k q hn
    obtain ⟨hq, hk⟩ := h.entry n k q hn
    refine ⟨?_, hk⟩
    change (d.lists q).map _ = _
    rw [hq, h.registered_unregister hid, Option.map_some]
    split
    · rfl
    · rename_i hne
      rw [List.erase_of_not_mem fun hmem => hne (h.eq_of_mem hnode hmem)]
  · intro n hn
    refine List.eq_nil_iff_forall_not_mem.mpr fun x hx => ?_
    have hx' := hsub n x hx
    rw [h.absent n hn] at hx'
    cases hx'
  · intro i n x hi
    obtain ⟨handler, hx, hid'⟩ := h.idOf i n x (hids hi)
    exact ⟨handler, (Sequences.data_remove ..).trans hx, hid'⟩
  · intro x handler hx
    obtain ⟨hlt, honly⟩ := h.ofData x handler ((Sequences.data_remove ..).symm.trans hx)
    refine ⟨?_, fun n y hi => honly n y (hids hi)⟩
    change _ < (s.ids.set id none).length
    rwa [List.length_set]
  · intro k c hk x hx handler hdata
    exact h.own k c hk x (hsub _ x hx) handler ((Sequences.data_remove ..).symm.trans hdata)

theorem Inv.dropEntry (h : Inv convert s d) {k q : ℕ} (hentry : find s.signals signum = some (k, q))
    (hnil : s.registered signum = []) : Inv convert (s.dropEntry convert signum k) d := by
  have hsignals : ∀ n, find (s.dropEntry convert signum k).signals n =
      if signum = n then none else find s.signals n := fun n => find_remove
  have hos : ∀ m, find (s.dropEntry convert signum k).osHandlers m =
      if convert signum = m then none else find s.osHandlers m := fun m => find_remove
  have hnotification : ∀ k', find (s.dropEntry convert signum k).notifications k' =
      if k = k' then none else find s.notifications k' := fun k' => find_remove
  obtain ⟨-, -, id, hid⟩ := h.entry signum k q hentry
  refine ⟨h.represents, ?_, ?_, ?_, ?_, ?_, ?_, ?_, h.idOf, h.ofData, ?_⟩
  · intro n k' q' hn
    rw [hsignals] at hn
    obtain ⟨hne, hn⟩ := Option.ite_none_left_eq_some.mp hn
    obtain ⟨hq', hk', id', hid'⟩ := h.entry n k' q' hn
    have hother : convert signum ≠ convert n := fun heq => hne (h.distinct _ _ _ _ hentry hn heq)
    refine ⟨hq', by rw [hos, if_neg hother, hk'], id', ?_⟩
    -- the remaining entries have other slots, since a slot has one signal number
    have hk : k ≠ k' := by
      rintro rfl
      rw [hid] at hid'
      exact hne (congrArg SignalNotifier.signum (Option.some.inj hid'))
    rw [hnotification, if_neg hk, hid']
  · intro n n' k₁ k₂ q' hn hn'
    rw [hsignals] at hn hn'
    exact h.apart n n' k₁ k₂ q' (Option.ite_none_left_eq_some.mp hn).2
      (Option.ite_none_left_eq_some.mp hn').2
  · intro n n' e e' hn hn'
    rw [hsignals] at hn hn'
    exact h.distinct n n' e e' (Option.ite_none_left_eq_some.mp hn).2
      (Option.ite_none_left_eq_some.mp hn').2
  · intro n hn
    by_cases heq : signum = n
    · subst heq
      exact hnil
    · rw [hsignals, if_neg heq] at hn
      exact h.absent n hn
  · intro m k' hk'
    rw [hos] at hk'
    obtain ⟨hne, hk'⟩ := Option.ite_none_left_eq_some.mp hk'
    obtain ⟨n, q', hm, hn⟩ := h.osHandler m k' hk'
    refine ⟨n, q', hm, ?_⟩
    rw [hsignals, if_neg, hn]
    rintro rfl
    exact hne hm
  · intro k' c hk'
    rw [hnotification] at hk'
    obtain ⟨hne, hk'⟩ := Option.ite_none_left_eq_some.mp hk'
    have hc := h.notification k' c hk'
    -- a slot with this signal number would be the one that is dropped
    have hsignum : signum ≠ c.signum := by
      intro heq
      rw [← heq, hentry] at hc
      exact hne (Prod.mk.inj (Option.some.inj hc)).1
    rw [hsignals, if_neg hsignum, hc]
  · intro k' hk'
    rw [hnotification]
    split
    · rfl
    · exact h.fresh k' hk'
  · intro k' c hk'
    rw [hnotification] at hk'
    exact h.own k' c (Option.ite_none_left_eq_some.mp hk').2

theorem disable_cases (h : Inv convert s d) (hfull : Full s) {id node : ℕ}
    (hid : s.ids[id]? = some (some (signum, node))) :
    Inv convert (s.disableSignalHandler convert id) (d.remove node) ∧
      Full (s.disableSignalHandler convert id) ∧
      (s.disableSignalHandler convert id).links = s.links.remove node ∧
      (s.disableSignalHandler convert id).ids = s.ids.set id none ∧
      (s.disableSignalHandler convert id).delivery = s.delivery := by
  have hnode : node ∈ s.registered signum := mem_handlersOf.mpr ⟨id, hid⟩
  obtain ⟨k, q, hentry⟩ := h.exists_entry hnode
  have hinv := h.unregister hid
  have hring := hinv.represents.ring (hinv.entry signum k q hentry).1
  have hother : ∀ n, signum ≠ n → (s.unregister id node).registered n = s.registered n := by
    intro n hne
    rw [h.registered_unregister hid, if_neg hne]
  rw [disable_eq hid hentry]
  split
  · rename_i hempty
    have hnil := hring.isEmpty_iff.mp hempty
    refine ⟨hinv.dropEntry hentry hnil, ?_, rfl, rfl, rfl⟩
    intro n k' q' hn
    have hn' : find (Bindings.remove signum s.signals) n = some (k', q') := hn
    rw [find_remove] at hn'
    obtain ⟨hne, hn'⟩ := Option.ite_none_left_eq_some.mp hn'
    change (s.unregister id node).registered n ≠ []
    rw [hother n hne]
    exact hfull n k' q' hn'
  · rename_i hempty
    refine ⟨hinv, ?_, rfl, rfl, rfl⟩
    intro n k' q' hn hnil
    by_cases heq : signum = n
    · subst heq
      exact hempty (hring.isEmpty_iff.mpr hnil)
    · rw [hother n heq] at hnil
      exact hfull n k' q' hn hnil

/-! ## The iteration -/

/-- The nodes `done` have had their turn. -/
def Visited (links : Sequences Handler) (dl : Delivery) (done : List ℕ) : Prop :=
  (dl.called.map Prod.fst).Sublist done ∧
    ∀ x ∈ done, x ∈ dl.start → x ∈ dl.called.map Prod.fst ∨ links.active x = false

/-- The function of a node is running, or the loop is at a node or at the header. -/
def Cursor (links : Sequences Handler) (dl : Delivery) (all : List ℕ) : Prop :=
  ∃ done rest, if dl.calling
    then all = done ++ dl.curr :: rest ∧ Visited links dl (done ++ [dl.curr])
    else all ++ [dl.notifier.actions] = done ++ dl.curr :: rest ∧ Visited links dl done

/-- `all` are the nodes that were there at the start, and those added since. -/
structure Iterates (links : Sequences Handler) (d : Deques Handler) (dl : Delivery)
    (all : List ℕ) : Prop where
  walked : links.Walked d dl.notifier.actions dl.start all
  own : ∀ x ∈ all, UsesOwn links dl.notifier.id x
  called : ∀ p ∈ dl.called, p.2 = dl.notifier.id
  cursor : Cursor links dl all

def Delivering (links : Sequences Handler) (d : Deques Handler) (dl : Delivery) : Prop :=
  ∃ all, Iterates links d dl all

section Iteration

variable {links links' : Sequences Handler} {dl : Delivery} {all : List ℕ}

theorem Visited.mono {done : List ℕ} (h : Visited links dl done)
    (hactive : ∀ x ∈ done, links.active x = false → links'.active x = false) :
    Visited links' dl done :=
  ⟨h.1, fun x hx hstart => (h.2 x hx hstart).imp_right (hactive x hx)⟩

theorem Cursor.mono (h : Cursor links dl all) (hcalling : dl.calling = true) (extra : List ℕ)
    (hactive : ∀ x ∈ all, links.active x = false → links'.active x = false) :
    Cursor links' dl (all ++ extra) := by
  obtain ⟨done, rest, h⟩ := h
  rw [if_pos hcalling] at h
  obtain ⟨rfl, hvisited⟩ := h
  refine ⟨done, rest ++ extra, ?_⟩
  rw [if_pos hcalling]
  refine ⟨by simp, hvisited.mono fun x hx => hactive x ?_⟩
  rcases List.mem_append.mp hx with hx | hx
  · exact List.mem_append_left _ hx
  · simp [List.mem_singleton.mp hx]

theorem UsesOwn.addR {id x : ℕ} (h : UsesOwn links id x) (hx : x < links.length)
    (handler : Handler) (q : ℕ) : UsesOwn (links.addR handler q) id x := by
  intro a ha
  rw [Sequences.data_addR_lt hx] at ha
  exact h a ha

theorem Iterates.create (h : Iterates links d dl all) (hrep : Represents links d)
    (hcalling : dl.calling = true) : Iterates links.create (created d) dl all where
  walked := h.walked.create hrep
  own := by
    intro x hx handler hdata
    rw [Sequences.data_create_eq] at hdata
    exact h.own x hx handler hdata
  called := h.called
  cursor := by
    have hcursor : Cursor links.create dl (all ++ []) :=
      h.cursor.mono hcalling [] fun x hx hfalse => by
        rwa [Sequences.active_create (h.walked.lt x hx)]
    rwa [List.append_nil] at hcursor

theorem Iterates.addR (h : Iterates links d dl all) (hrep : Represents links d)
    (hcalling : dl.calling = true) {handler : Handler} (huses : handler.usesId = false) :
    Iterates (links.addR handler dl.notifier.actions)
      (added d dl.notifier.actions (all.filter links.active) handler) dl
      (all ++ [links.length]) where
  walked := h.walked.addR hrep handler
  own := by
    intro x hx
    rcases List.mem_append.mp hx with hx | hx
    · exact (h.own x hx).addR (h.walked.lt x hx) handler _
    · intro a ha hauses
      rw [List.mem_singleton.mp hx, Sequences.data_addR_self] at ha
      cases ha
      cases huses.symm.trans hauses
  called := h.called
  cursor := h.cursor.mono hcalling [links.length] fun x hx hfalse => by
    rwa [Sequences.active_addR (h.walked.lt x hx)]

theorem Iterates.addR_other (h : Iterates links d dl all) (hrep : Represents links d)
    (hcalling : dl.calling = true) {q : ℕ} {l : List ℕ} (hne : q ≠ dl.notifier.actions)
    (hq : d.lists q = some l) (handler : Handler) :
    Iterates (links.addR handler q) (added d q l handler) dl all where
  walked := h.walked.addR_other hrep hne hq handler
  own := fun x hx => (h.own x hx).addR (h.walked.lt x hx) handler q
  called := h.called
  cursor := by
    have hcursor : Cursor (links.addR handler q) dl (all ++ []) :=
      h.cursor.mono hcalling [] fun x hx hfalse => by
        rwa [Sequences.active_addR (h.walked.lt x hx)]
    rwa [List.append_nil] at hcursor

theorem Iterates.remove (h : Iterates links d dl all) (hrep : Represents links d)
    (hcalling : dl.calling = true) {q node : ℕ} {l : List ℕ} (hq : d.lists q = some l)
    (hnode : node ∈ l) : Iterates (links.remove node) (d.remove node) dl all where
  walked := h.walked.remove hrep hq hnode
  own := by
    intro x hx handler hdata
    rw [Sequences.data_remove] at hdata
    exact h.own x hx handler hdata
  called := h.called
  cursor := by
    have hcursor : Cursor (links.remove node) dl (all ++ []) :=
      h.cursor.mono hcalling [] fun x hx hfalse => by
        rw [Sequences.active_remove, hfalse, Bool.false_and]
    rwa [List.append_nil] at hcursor

theorem Iterates.follow (h : Iterates links d dl all) {done rest : List ℕ}
    (hall : all = done ++ dl.curr :: rest) (hvisited : Visited links dl (done ++ [dl.curr])) :
    Iterates links d { dl with calling := false, curr := links.next dl.curr } all where
  walked := h.walked
  own := h.own
  called := h.called
  cursor := by
    obtain ⟨skipped, rest', hrest, hskipped⟩ := h.walked.walk.next hall
    refine ⟨done ++ [dl.curr] ++ skipped, rest', ?_⟩
    rw [if_neg (by simp)]
    refine ⟨?_, ?_, fun x hx hstart => ?_⟩
    · rw [hall, List.append_assoc, List.cons_append, hrest]
      simp
    · exact hvisited.1.trans (List.sublist_append_left _ _)
    · rcases List.mem_append.mp hx with hx | hx
      · exact hvisited.2 x hx hstart
      · exact .inr (hskipped x hx hstart)

theorem Iterates.at_node (h : Iterates links d dl all) (hcalling : dl.calling = false)
    (hcurr : dl.curr ≠ dl.notifier.actions) :
    ∃ done rest, all = done ++ dl.curr :: rest ∧ Visited links dl done := by
  obtain ⟨done, rest, hcursor⟩ := h.cursor
  rw [if_neg (by simp [hcalling])] at hcursor
  obtain ⟨hall, hvisited⟩ := hcursor
  obtain ⟨rest', -, hall⟩ := Sequences.exists_of_append_eq hall hcurr
  exact ⟨done, rest', hall, hvisited⟩

end Iteration

/-! ## Runs -/

/-- What the steps preserve. -/
def Good (convert : ℤ → ℕ) (s : Signals) : Prop :=
  ∃ d, Inv convert s d ∧ Full s ∧ ∀ dl, s.delivery = some dl → Delivering s.links d dl

theorem good_init : Good convert init := ⟨Deques.initial, Inv.init, nofun, nofun⟩

theorem calling_of_userCode {dl : Delivery} (huser : s.userCode = true)
    (hdl : s.delivery = some dl) : dl.calling = true := by
  unfold userCode at huser
  rw [hdl] at huser
  exact huser

theorem onSignalFull_entry {k q : ℕ} (hentry : find s.signals signum = some (k, q))
    (usesId ok : Bool) :
    s.onSignalFull convert signum usesId ok = s.addHandler signum usesId q := by
  unfold onSignalFull
  rw [hentry]

theorem onSignalFull_new (hnone : find s.signals signum = none) (usesId : Bool) :
    s.onSignalFull convert signum usesId true =
      (s.newEntry convert signum).addHandler signum usesId s.links.length := by
  unfold onSignalFull
  rw [hnone]
  rfl

theorem onSignalFull_failed (hnone : find s.signals signum = none) (usesId : Bool) :
    s.onSignalFull convert signum usesId false =
      { s with
        links := s.links.create
        nextNotification := s.nextNotification + 1
        osHandlers := setSignal convert s.osHandlers signum s.nextNotification false
        ids := s.ids ++ [none] } := by
  unfold onSignalFull
  rw [hnone]
  rfl

/-- A function that uses the identifier is registered first. -/
theorem Good.onSignalFull (h : Good convert s) (huser : s.userCode = true) {usesId : Bool}
    (hfirst : usesId = true → s.registered signum = []) (hsole : Sole convert s signum)
    (ok : Bool) :
    Good convert (s.onSignalFull convert signum usesId ok) := by
  obtain ⟨d, hinv, hfull, hdelivering⟩ := h
  cases hentry : find s.signals signum with
  | some e =>
    obtain ⟨k, q⟩ := e
    -- the entry has handlers, so that the new one does not use the identifier
    have huses : usesId = false := by
      cases usesId with
      | false => rfl
      | true => exact absurd (hfirst rfl) (hfull signum k q hentry)
    rw [onSignalFull_entry hentry]
    refine ⟨_, hinv.addHandler hentry fun htrue => ?_, hfull.addHandler usesId q,
      fun dl hdl => ?_⟩
    · cases huses.symm.trans htrue
    · obtain ⟨all, hall⟩ := hdelivering dl hdl
      have hcalling := calling_of_userCode huser hdl
      have hq := (hinv.entry signum k q hentry).1
      by_cases heq : q = dl.notifier.actions
      · subst heq
        rw [← Option.some.inj (hall.walked.list.symm.trans hq)]
        exact ⟨_, hall.addR hinv.represents hcalling huses⟩
      · exact ⟨_, hall.addR_other hinv.represents hcalling heq hq _⟩
  | none =>
    cases ok with
    | false =>
      -- the C call raises: nothing is registered, but a sequence was made
      rw [onSignalFull_failed hentry]
      refine ⟨_, hinv.failed hentry hsole, fun n k q hn hnil => ?_, fun dl hdl => ?_⟩
      · have happend := handlersOf_append (n := n) s.ids [none]
        have hnil' : handlersOf n (s.ids ++ [none]) = [] := hnil
        rw [happend] at hnil'
        exact hfull n k q hn (List.append_eq_nil_iff.mp hnil').1
      · obtain ⟨all, hall⟩ := hdelivering dl hdl
        exact ⟨all, hall.create hinv.represents (calling_of_userCode huser hdl)⟩
    | true =>
      rw [onSignalFull_new hentry]
      have hnew := hinv.newEntry hentry hsole
      have hfind : find (s.newEntry convert signum).signals signum =
          some (s.nextNotification, s.links.length) := by
        unfold Signals.newEntry
        rw [find_append_new (find_eq_none.mp hentry), if_pos rfl]
      refine ⟨_, hnew.addHandler hfind fun _ c hc => ?_, hfull.newEntry hentry usesId _,
        fun dl hdl => ?_⟩
      · unfold Signals.newEntry at hc
        rw [find_append_new (find_eq_none.mp (hinv.fresh _ (Nat.le_refl _))), if_pos rfl] at hc
        rw [← Option.some.inj hc]
        rfl
      · obtain ⟨all, hall⟩ := hdelivering dl hdl
        have hcalling := calling_of_userCode huser hdl
        have hne : s.links.length ≠ dl.notifier.actions :=
          (hall.walked.walk.within _ (by simp)).ne'
        exact ⟨all, (hall.create hinv.represents hcalling).addR_other hnew.represents hcalling
          hne (hnew.entry signum _ _ hfind).1 _⟩

theorem Good.disable (h : Good convert s) (huser : s.userCode = true) (id : ℕ) :
    Good convert (s.disableSignalHandler convert id) := by
  obtain ⟨d, hinv, hfull, hdelivering⟩ := h
  cases hid : s.ids[id]?.join with
  | none =>
    have heq : s.disableSignalHandler convert id = s := by
      unfold disableSignalHandler
      rw [hid]
    rw [heq]
    exact ⟨d, hinv, hfull, hdelivering⟩
  | some handler =>
    obtain ⟨signum, node⟩ := handler
    have hid' : s.ids[id]? = some (some (signum, node)) := Option.join_eq_some_iff.mp hid
    obtain ⟨hinv', hfull', hlinks, -, hdelivery⟩ := disable_cases hinv hfull hid'
    refine ⟨_, hinv', hfull', fun dl hdl => ?_⟩
    rw [hdelivery] at hdl
    obtain ⟨all, hall⟩ := hdelivering dl hdl
    have hnode : node ∈ s.registered signum := mem_handlersOf.mpr ⟨id, hid'⟩
    obtain ⟨k, q, hentry⟩ := hinv.exists_entry hnode
    rw [hlinks]
    exact ⟨all, hall.remove hinv.represents (calling_of_userCode huser hdl)
      (hinv.entry signum k q hentry).1 hnode⟩

theorem Good.deliver (h : Good convert s) (notification : ℕ) :
    Good convert (s.deliver notification) := by
  obtain ⟨d, hinv, hfull, hdelivering⟩ := h
  cases hn : find s.notifications notification with
  | none =>
    have heq : s.deliver notification = s := by
      unfold Signals.deliver
      rw [hn]
    rw [heq]
    exact ⟨d, hinv, hfull, hdelivering⟩
  | some n =>
    have heq : s.deliver notification =
        { s with
          delivery := some ⟨n, s.links.next n.actions, false, s.registered n.signum, []⟩ } := by
      unfold Signals.deliver
      rw [hn]
    rw [heq]
    have hentry := hinv.notification notification n hn
    have hlist := (hinv.entry _ _ _ hentry).1
    have hactive : ∀ x ∈ s.registered n.signum, s.links.active x = true := fun x hx =>
      hinv.active_of_mem hx
    refine ⟨d, ⟨hinv.represents, hinv.entry, hinv.apart, hinv.distinct, hinv.absent,
      hinv.osHandler, hinv.notification, hinv.fresh, hinv.idOf, hinv.ofData, hinv.own⟩, hfull,
      fun dl hdl => ?_⟩
    cases hdl
    have hwalk := (hinv.represents.ring hlist).walk hactive
    refine ⟨s.registered n.signum, ⟨hwalk, ?_, fun x hx => hinv.represents.node hlist hx⟩,
      hinv.own notification n hn, nofun, ?_⟩
    · rw [List.filter_eq_self.mpr hactive]
      exact hlist
    · obtain ⟨skipped, rest, hrest, hskipped⟩ := hwalk.first
      refine ⟨skipped, rest, ?_⟩
      rw [if_neg (by simp)]
      exact ⟨hrest, List.nil_sublist _, fun x hx hstart => .inr (hskipped x hx hstart)⟩

theorem Good.iterate {dl : Delivery} (h : Good convert s) (hdl : s.delivery = some dl)
    {delivery : Option Delivery}
    (hnext : ∀ d all dl', delivery = some dl' → Iterates s.links d dl all →
      Iterates s.links d dl' all) : Good convert { s with delivery := delivery } := by
  obtain ⟨d, hinv, hfull, hdelivering⟩ := h
  obtain ⟨all, hall⟩ := hdelivering dl hdl
  exact ⟨d, ⟨hinv.represents, hinv.entry, hinv.apart, hinv.distinct, hinv.absent, hinv.osHandler,
    hinv.notification, hinv.fresh, hinv.idOf, hinv.ofData, hinv.own⟩, hfull,
    fun dl' hdl' => ⟨all, hnext d all dl' hdl' hall⟩⟩

theorem Good.turn {dl : Delivery} (h : Good convert s) (hdl : s.delivery = some dl)
    (hcalling : dl.calling = false) : Good convert (s.turn dl) := by
  unfold Signals.turn
  split
  · exact h.iterate hdl nofun
  · rename_i hcurr
    split
    · -- the function of the node is called
      refine h.iterate hdl fun d all dl' hdl' hall => ?_
      cases hdl'
      obtain ⟨done, rest, hsplit, hvisited⟩ := hall.at_node hcalling hcurr
      refine ⟨hall.walked, hall.own, fun p hp => ?_, done, rest, ?_⟩
      · rcases List.mem_append.mp hp with hp | hp
        · exact hall.called p hp
        · rw [List.mem_singleton.mp hp]
      · rw [if_pos rfl]
        refine ⟨hsplit, ?_, fun x hx hstart => ?_⟩
        · rw [List.map_append]
          exact hvisited.1.append (List.Sublist.refl _)
        · rw [List.map_append]
          rcases List.mem_append.mp hx with hx | hx
          · exact (hvisited.2 x hx hstart).imp_left (List.mem_append_left _)
          · exact .inl (List.mem_append_right _ hx)
    · -- the node has been removed
      rename_i hactive
      refine h.iterate hdl fun d all dl' hdl' hall => ?_
      cases hdl'
      obtain ⟨done, rest, hsplit, hvisited⟩ := hall.at_node hcalling hcurr
      have hvisited' : Visited s.links dl (done ++ [dl.curr]) := by
        refine ⟨hvisited.1.trans (List.sublist_append_left _ _), fun x hx hstart => ?_⟩
        rcases List.mem_append.mp hx with hx | hx
        · exact hvisited.2 x hx hstart
        · rw [List.mem_singleton.mp hx]
          exact .inr (Bool.not_eq_true _ ▸ hactive)
      have hfollow := hall.follow hsplit hvisited'
      rwa [← hcalling] at hfollow

theorem Good.returns {dl : Delivery} (h : Good convert s) (hdl : s.delivery = some dl)
    (hcalling : dl.calling = true) :
    Good convert { s with
      delivery := some { dl with calling := false, curr := s.links.next dl.curr } } := by
  refine h.iterate hdl fun d all dl' hdl' hall => ?_
  cases hdl'
  obtain ⟨done, rest, hcursor⟩ := hall.cursor
  rw [if_pos hcalling] at hcursor
  exact hall.follow hcursor.1 hcursor.2

end Signals

/-- No handler is registered for another number of the signal. -/
def unaliased (convert : ℤ → ℕ) (s : Signals) (signum : ℤ) : Bool :=
  s.ids.all fun id => id.all fun handler =>
    convert handler.1 ≠ convert signum || handler.1 = signum

/-- `on_signal_full` is called for signals without handlers only, and no handler is registered while
there are handlers for another number of its signal. -/
def alone (convert : ℤ → ℕ) (s : Signals) : SignalStep → Bool
  | .onSignal signum _ => unaliased convert s signum
  | .onSignalFull signum _ => s.registered signum = [] && unaliased convert s signum
  | _ => true

namespace Signals

theorem Good.sole (h : Good convert s) (hunaliased : unaliased convert s signum = true) :
    Sole convert s signum := by
  obtain ⟨d, -, hfull, -⟩ := h
  intro n e hn heq
  -- a number with a sequence has a handler
  obtain ⟨x, hx⟩ := List.exists_mem_of_ne_nil _ (hfull n e.1 e.2 hn)
  obtain ⟨i, hi⟩ := mem_handlersOf.mp hx
  have hid := List.all_eq_true.mp hunaliased _ (List.mem_of_getElem? hi)
  simpa [heq] using hid

theorem good_step {a : SignalStep} (h : Good convert s) (halone : alone convert s a = true)
    (hstep : signalStep convert s a = some t) : Good convert t := by
  cases a with
  | onSignal signum ok =>
    obtain ⟨huser, hstep⟩ := Option.ite_none_right_eq_some.mp hstep
    cases hstep
    have hfirst : false = true → s.registered signum = [] := nofun
    exact h.onSignalFull huser hfirst (h.sole halone) ok
  | onSignalFull signum ok =>
    obtain ⟨huser, hstep⟩ := Option.ite_none_right_eq_some.mp hstep
    cases hstep
    obtain ⟨hnone, hunaliased⟩ := Bool.and_eq_true_iff.mp halone
    exact h.onSignalFull huser (fun _ => of_decide_eq_true hnone) (h.sole hunaliased) ok
  | disable id =>
    obtain ⟨huser, hstep⟩ := Option.ite_none_right_eq_some.mp hstep
    cases hstep
    exact h.disable huser id
  | deliver notification =>
    simp only [signalStep] at hstep
    split at hstep
    · cases hstep
      exact h.deliver notification
    · cases hstep
  | turn =>
    simp only [signalStep] at hstep
    split at hstep
    · cases hstep
    · rename_i dl hdl
      obtain ⟨hcalling, hstep⟩ := Option.ite_none_left_eq_some.mp hstep
      cases hstep
      exact h.turn hdl (Bool.not_eq_true _ ▸ hcalling)
  | returns =>
    simp only [signalStep] at hstep
    split at hstep
    · cases hstep
    · rename_i dl hdl
      obtain ⟨hcalling, hstep⟩ := Option.ite_none_right_eq_some.mp hstep
      cases hstep
      exact h.returns hdl hcalling

/-! ## What a delivery is for -/

/-- Each handler that was registered at the start has its turn, in the order of registration: it is
called, once, or it is not registered any more.  A function that uses the identifier gets its own,
and removes itself with it, and nothing else. -/
structure Fair (convert : ℤ → ℕ) (s : Signals) (dl : Delivery) : Prop where
  nodup : (dl.called.map Prod.fst).Nodup
  turns : ∃ passed rest, dl.start = passed ++ rest ∧
    ((dl.called.map Prod.fst).filter (· ∈ dl.start)).Sublist passed ∧
    (∀ x ∈ passed, x ∈ dl.called.map Prod.fst ∨ x ∉ s.registered dl.notifier.signum) ∧
    (dl.calling = false → dl.curr = dl.notifier.actions → rest = [])
  own : ∀ p ∈ dl.called, ∀ handler, s.links.data p.1 = some handler → handler.usesId = true →
    handler.id = p.2 ∧
    ∀ n, (s.disableSignalHandler convert p.2).registered n = (s.registered n).erase p.1

/-- The notification of a number is there while it has handlers, the OS handler of a signal while a
number of it has handlers, and it sends the notification of this number. -/
structure Installed (convert : ℤ → ℕ) (s : Signals) (signum : ℤ) : Prop where
  osHandler : (find s.osHandlers (convert signum)).isSome ↔
    ∃ n, convert n = convert signum ∧ s.registered n ≠ []
  notification : (∃ k c, find s.notifications k = some c ∧ c.signum = signum) ↔
    s.registered signum ≠ []
  sends : s.registered signum ≠ [] → ∃ k c, find s.osHandlers (convert signum) = some k ∧
    find s.notifications k = some c ∧ c.signum = signum

theorem installed (hinv : Inv convert s d) (hfull : Full s) (signum : ℤ) :
    Installed convert s signum := by
  have hentry : ∀ n, s.registered n ≠ [] → ∃ k q, find s.signals n = some (k, q) := by
    intro n hne
    obtain ⟨x, hx⟩ := List.exists_mem_of_ne_nil _ hne
    exact hinv.exists_entry hx
  refine ⟨⟨fun hsome => ?_, ?_⟩, ⟨?_, fun hne => ?_⟩, fun hne => ?_⟩
  · obtain ⟨k, hk⟩ := Option.isSome_iff_exists.mp hsome
    obtain ⟨n, q, hn, hfind⟩ := hinv.osHandler _ k hk
    exact ⟨n, hn, hfull n k q hfind⟩
  · rintro ⟨n, hn, hne⟩
    obtain ⟨k, q, hfind⟩ := hentry n hne
    rw [← hn, (hinv.entry n k q hfind).2.1]
    rfl
  · rintro ⟨k, c, hk, rfl⟩
    exact hfull c.signum k c.actions (hinv.notification k c hk)
  · obtain ⟨k, q, hfind⟩ := hentry signum hne
    obtain ⟨-, -, id, hid⟩ := hinv.entry signum k q hfind
    exact ⟨k, _, hid, rfl⟩
  · obtain ⟨k, q, hfind⟩ := hentry signum hne
    obtain ⟨-, hos, id, hid⟩ := hinv.entry signum k q hfind
    exact ⟨k, _, hos, hid, rfl⟩

/-- A handler is removed with its identifier, and no other. -/
theorem Inv.disable_own (h : Inv convert s d) (hfull : Full s) {handler : Handler}
    (hx : s.links.data x = some handler) (n : ℤ) :
    (s.disableSignalHandler convert handler.id).registered n = (s.registered n).erase x := by
  cases hid : s.ids[handler.id]?.join with
  | none =>
    have heq : s.disableSignalHandler convert handler.id = s := by
      unfold disableSignalHandler
      rw [hid]
    rw [heq, List.erase_of_not_mem]
    intro hmem
    obtain ⟨i, hi⟩ := mem_handlersOf.mp hmem
    obtain ⟨handler', hx', rfl⟩ := h.idOf i n x hi
    cases hx.symm.trans hx'
    rw [hi] at hid
    cases hid
  | some registration =>
    obtain ⟨m, y⟩ := registration
    have hid' := Option.join_eq_some_iff.mp hid
    obtain rfl := (h.ofData x handler hx).2 m y hid'
    obtain ⟨-, -, -, hids, -⟩ := disable_cases h hfull hid'
    have hy : y ∈ s.registered m := mem_handlersOf.mpr ⟨_, hid'⟩
    change handlersOf n (s.disableSignalHandler convert handler.id).ids = _
    rw [hids, handlersOf_set hid' (h.registered_nodup m)]
    split
    · rfl
    · rename_i hne
      rw [List.erase_of_not_mem fun hmem => hne (h.eq_of_mem hy hmem)]
      rfl

theorem fair (hinv : Inv convert s d) (hfull : Full s) {dl : Delivery}
    (h : Delivering s.links d dl) : Fair convert s dl := by
  obtain ⟨all, hall⟩ := h
  obtain ⟨hactions, hnodup⟩ := List.nodup_cons.mp hall.walked.walk.nodup
  obtain ⟨added, hadded⟩ := hall.walked.walk.start_prefix
  -- the nodes of the start, in `all`
  have hstart : all.filter (· ∈ dl.start) = dl.start := by
    rw [← hadded, List.filter_append, List.filter_eq_self.mpr (by simp),
      List.filter_eq_nil_iff.mpr, List.append_nil]
    intro x hx hmem
    rw [← hadded] at hnodup
    exact (List.nodup_append.mp hnodup).2.2 x (of_decide_eq_true hmem) x hx rfl
  have hinactive : ∀ x, s.links.active x = false → x ∉ s.registered dl.notifier.signum := by
    intro x hx hmem
    cases hx.symm.trans (hinv.active_of_mem hmem)
  obtain ⟨done, rest, hsplit, hvisited, hend⟩ : ∃ done rest, all = done ++ rest ∧
      Visited s.links dl done ∧
      (dl.calling = false → dl.curr = dl.notifier.actions → rest = []) := by
    obtain ⟨done, rest, hcursor⟩ := hall.cursor
    cases hcalling : dl.calling with
    | true =>
      rw [if_pos hcalling] at hcursor
      exact ⟨done ++ [dl.curr], rest, by simp [hcursor.1], hcursor.2, nofun⟩
    | false =>
      rw [if_neg (by simp [hcalling])] at hcursor
      obtain ⟨hsplit, hvisited⟩ := hcursor
      by_cases hcurr : dl.curr = dl.notifier.actions
      · rw [hcurr] at hsplit
        obtain rfl := Sequences.eq_of_append_header hactions hsplit
        exact ⟨done, [], (List.append_nil _).symm, hvisited, fun _ _ => rfl⟩
      · obtain ⟨rest', -, hsplit⟩ := Sequences.exists_of_append_eq hsplit hcurr
        exact ⟨done, dl.curr :: rest', hsplit, hvisited, fun _ heq => absurd heq hcurr⟩
  refine ⟨?_, ⟨done.filter (· ∈ dl.start), rest.filter (· ∈ dl.start), ?_, hvisited.1.filter _, ?_,
    fun hcalling hcurr => ?_⟩, fun p hp handler hdata huses => ?_⟩
  · rw [hsplit] at hnodup
    exact (List.nodup_append.mp hnodup).1.sublist hvisited.1
  · rw [← List.filter_append, ← hsplit, hstart]
  · intro x hx
    obtain ⟨hx, hmem⟩ := List.mem_filter.mp hx
    exact (hvisited.2 x hx (of_decide_eq_true hmem)).imp_right (hinactive x)
  · rw [hend hcalling hcurr]
    rfl
  · have hmem : p.1 ∈ all := by
      rw [hsplit]
      exact List.mem_append_left _ (hvisited.1.subset (List.mem_map_of_mem hp))
    have hid : handler.id = p.2 :=
      (hall.own p.1 hmem handler hdata huses).trans (hall.called p hp).symm
    refine ⟨hid, fun n => ?_⟩
    rw [← hid]
    exact hinv.disable_own hfull hdata n

/-- In a run in which `on_signal_full` is called for signals without handlers only, and no two
numbers of one signal have handlers at the same time, every delivery is fair, and the OS handler and
the notification of each signal are there while it has handlers. -/
theorem deliveries (h : Reach (signalStep convert) (fun s a => alone convert s a = true) init s) :
    (∀ dl, s.delivery = some dl → Fair convert s dl) ∧ ∀ signum, Installed convert s signum := by
  obtain ⟨d, hinv, hfull, hdelivering⟩ : Good convert s :=
    h.invariant good_init fun _ _ _ hgood halone hstep => good_step hgood halone hstep
  exact ⟨fun dl hdl => fair hinv hfull (hdelivering dl hdl), installed hinv hfull⟩

/-- The numbers of a system on which `SIGINT` is 2; `Sys.sigint` is -6. -/
def linuxSigint (signum : ℤ) : ℕ := if signum = -6 then 2 else signum.toNat

/-- The first of two handlers removes itself with the identifier that it gets, and the second one is
called. -/
theorem deliveries_two :
    ∃ s dl, replay (checked (signalStep linuxSigint) (alone linuxSigint)) init
        [.onSignalFull (-6) true, .onSignal (-6) true, .deliver 0, .turn, .disable 0, .returns,
          .turn] = some s ∧ s.delivery = some dl ∧
      dl.start = [1, 2] ∧ dl.called = [(1, 0), (2, 0)] ∧ s.registered (-6) = [2] ∧
      Fair linuxSigint s dl ∧ ∀ signum, Installed linuxSigint s signum := by
  have hrun : replay (checked (signalStep linuxSigint) (alone linuxSigint)) init
    [.onSignalFull (-6) true, .onSignal (-6) true, .deliver 0, .turn, .disable 0, .returns,
      .turn] = some _ := rfl
  obtain ⟨hfair, hinstalled⟩ := deliveries (reach_of_checked _ hrun)
  exact ⟨_, _, hrun, rfl, rfl, rfl, rfl, hfair _ rfl, hinstalled⟩

/-- The second of two handlers of `on_signal_full` gets the identifier of the first one. -/
theorem delivery_other_id :
    ∃ s dl, Reach (signalStep linuxSigint) (fun _ _ => True) init s ∧ s.delivery = some dl ∧
      ¬ Fair linuxSigint s dl := by
  have hrun : replay (signalStep linuxSigint) init [.onSignalFull (-6) true,
    .onSignalFull (-6) true, .deliver 0, .turn, .returns, .turn] = some _ := rfl
  refine ⟨_, _, reach_of_replay _ hrun, rfl, fun h => ?_⟩
  have hown := (h.own (2, 0) (by decide) ⟨true, 1⟩ rfl rfl).1
  exact absurd hown (by decide)

end Signals

end Lwt.Unix
