import Lwt.Unix.DescriptorHooks

/-!
# The events of a file descriptor

A sequence of hooks that is not empty has an event that the engine calls.  `stop_events` stops an
event one pause later, if the sequence is still empty then; `clear_events` stops both events without
a check, so it must have come to all hooks.  An action that a callback registers in the meantime may
be lost, and so is an action that `abort` tries again with an exception that requeues it.
-/

namespace Lwt.Descriptor

open Transition FileDescr

variable {filter : ExceptionFilter} {ch ch' : FileDescr} {d : Deques Hook} {event event' : IoEvent}
  {l : List ℕ} {i x : ℕ} {a : Action} {w : Waiter}

/-- The hooks in `hooks_readable` or `hooks_writable`. -/
def FileDescr.hooksOf (ch : FileDescr) (event : IoEvent) : List Hook :=
  (ch.hooks.foldL (header event) (fun hook l => l ++ [hook]) []).getD []

/-- Each sequence of hooks that is in use has an event; its hooks are those of pending actions, and
of canceled ones to whose callback of `on_cancel` the call of `Lwt.cancel` has not come yet; and
each pending action has one hook, in the sequence of the event that it has last asked for. -/
structure Attended (ch : FileDescr) : Prop where
  event : ∀ event, ch.hooksOf event ≠ [] → ∃ ev, ch.event event = some ev ∧
    (ev, event) ∈ ch.registered
  hook : ∀ event hook, hook ∈ ch.hooksOf event → ∃ a, ch.actions[hook.action]? = some a ∧
    a.live = true
  pending : ∀ (i : ℕ) a, ch.actions[i]? = some a → a.waiter = .pending → ∀ event,
    (ch.hooksOf event).filter (fun hook => hook.action = i) =
      if event = a.event then [⟨i, event⟩] else []

/-- `abort` is called with an exception that makes the actions fail; when `clear_events` stops the
events, no action that has been registered since it was called has a hook. -/
def keepsEvents (filter : ExceptionFilter) (ch : FileDescr) : Op → Bool
  | .abort e => ch.state = .closed || plain filter e
  | .turn _ =>
    match ch.stack with
    | .clear since .write curr false :: _ =>
      curr ≠ header .write || (ch.actions.drop since).all fun a => !ch.hooks.active a.node
    | _ => true
  | _ => true

/-! ## The events -/

/-- The links are those of two sequences. -/
structure Sequenced (links : Sequences Hook) (d : Deques Hook) : Prop where
  represents : Represents links d
  lists : ∀ event, ∃ l, d.lists (header event) = some l

namespace Sequenced

variable {links : Sequences Hook} (h : Sequenced links d)

include h

theorem remove (node : ℕ) : Sequenced (links.remove node) (d.remove node) := by
  refine ⟨h.represents.remove node, fun event => ?_⟩
  obtain ⟨l, hl⟩ := h.lists event
  exact ⟨_, congrArg (Option.map _) hl⟩

theorem isEmpty_remove (node : ℕ) (hempty : links.isEmpty (header event) = true) :
    (links.remove node).isEmpty (header event) = true := by
  obtain ⟨l, hl⟩ := h.lists event
  obtain rfl := (h.represents.ring hl).isEmpty_iff.mp hempty
  have hl' : (d.remove node).lists (header event) = some [] := congrArg (Option.map _) hl
  exact ((h.remove node).represents.ring hl').isEmpty_iff.mpr rfl

theorem isEmpty_addR (hook : Hook) (hne : event' ≠ event)
    (hempty : links.isEmpty (header event') = true) :
    (links.addR hook (header event)).isEmpty (header event') = true := by
  obtain ⟨l, hl⟩ := h.lists event
  obtain ⟨l', hl'⟩ := h.lists event'
  obtain rfl := (h.represents.ring hl').isEmpty_iff.mp hempty
  have hother : Function.update d.lists (header event) (some (l ++ [d.size])) (header event') =
      some [] := by
    rw [Function.update_of_ne fun heq => hne (header_injective heq), hl']
  exact ((h.represents.addR hl).ring hother).isEmpty_iff.mpr rfl

end Sequenced

theorem Inv.sequenced (h : Inv filter ch d) : Sequenced ch.hooks d :=
  ⟨h.linked.represents, h.linked.lists⟩

theorem finish_fields (ha : ch.actions[i]? = some a) :
    (ch.finish i w).hooks = ch.hooks.remove a.node ∧ (ch.finish i w).event = ch.event ∧
      (ch.finish i w).registered = ch.registered := by
  unfold FileDescr.finish removeHook
  cases hw : a.waiter <;> simp [FileDescr.push, stopEvents, setWaiter, ha, hw]

/-- A sequence that is in use has an event, and the engine has it. -/
structure Wired (ch : FileDescr) : Prop where
  used : ∀ event, ch.event event = none → ch.hooks.isEmpty (header event) = true
  registered : ∀ event ev, ch.event event = some ev → (ev, event) ∈ ch.registered

namespace Wired

theorem congr (h : Wired ch) (hhooks : ch'.hooks = ch.hooks) (hevent : ch'.event = ch.event)
    (hregistered : ch'.registered = ch.registered) : Wired ch' := by
  refine ⟨?_, ?_⟩
  · rw [hhooks, hevent]
    exact h.used
  · rw [hevent, hregistered]
    exact h.registered

theorem removed {node : ℕ} (h : Wired ch) (hseq : Sequenced ch.hooks d)
    (hhooks : ch'.hooks = ch.hooks.remove node) (hevent : ch'.event = ch.event)
    (hregistered : ch'.registered = ch.registered) : Wired ch' := by
  refine ⟨fun event hnone => ?_, ?_⟩
  · rw [hevent] at hnone
    rw [hhooks]
    exact hseq.isEmpty_remove node (h.used event hnone)
  · rw [hevent, hregistered]
    exact h.registered

theorem finish (h : Wired ch) (hseq : Sequenced ch.hooks d) (ha : ch.actions[i]? = some a) :
    Wired (ch.finish i w) := by
  obtain ⟨hhooks, hevent, hregistered⟩ := finish_fields (w := w) ha
  exact h.removed hseq hhooks hevent hregistered

theorem addHook (h : Wired ch) (hseq : Sequenced ch.hooks d) (i : ℕ) (event : IoEvent) :
    Wired ((ch.addHook i event).register event) := by
  unfold FileDescr.register
  split
  · refine ⟨fun event' hnone => ?_, fun event' ev hev => ?_⟩
    · change Function.update ch.event event _ event' = none at hnone
      by_cases heq : event' = event
      · rw [heq, Function.update_self] at hnone
        cases hnone
      · rw [Function.update_of_ne heq] at hnone
        exact hseq.isEmpty_addR _ heq (h.used event' hnone)
    · change Function.update ch.event event _ event' = _ at hev
      by_cases heq : event' = event
      · rw [heq, Function.update_self] at hev
        rw [heq, ← Option.some.inj hev]
        exact List.mem_append_right _ (List.mem_singleton.mpr rfl)
      · rw [Function.update_of_ne heq] at hev
        exact List.mem_append_left _ (h.registered event' ev hev)
  · rename_i ev hev
    refine ⟨fun event' hnone => ?_, h.registered⟩
    have heq : event' ≠ event := by
      rintro rfl
      exact nomatch hnone.symm.trans hev
    exact hseq.isEmpty_addR _ heq (h.used event' hnone)

theorem registerAction (h : Wired ch) (hseq : Sequenced ch.hooks d) (event : IoEvent) :
    Wired (ch.registerAction event) := by
  have hnew : Wired { ch with actions := ch.actions ++ [⟨0, .pending, event, false⟩] } :=
    h.congr rfl rfl rfl
  exact hnew.addHook hseq _ event

theorem requeue (h : Wired ch) (hseq : Sequenced ch.hooks d) (ha : ch.actions[i]? = some a)
    (event : IoEvent) :
    Wired ((((ch.removeHook i).stopEvents).addHook i event).register event) := by
  have hhooks : (ch.removeHook i).stopEvents = { ch with
      hooks := ch.hooks.remove a.node, pauses := ch.pauses + 1 } := by
    unfold removeHook
    rw [ha]
    rfl
  have hremoved : Wired (ch.removeHook i).stopEvents := by
    rw [hhooks]
    exact h.removed hseq rfl rfl rfl
  refine hremoved.addHook (d := d.remove a.node) ?_ i event
  rw [hhooks]
  exact hseq.remove a.node

theorem retry (h : Wired ch) (hseq : Sequenced ch.hooks d) {hook : Hook}
    (ha : ch.actions[hook.action]? = some a) (o : Outcome) : Wired (ch.retry hook o) := by
  unfold FileDescr.retry
  cases o with
  | success => exact h.finish hseq ha
  | exn e => exact h.finish hseq ha
  | requeued event =>
    simp only
    split
    · exact h.requeue hseq ha event
    · exact h
  | escapes => exact h.congr rfl rfl rfl

theorem retrySyscall (h : Wired ch) (hseq : Sequenced ch.hooks d) (hook : Hook)
    (ha : ch.actions[hook.action]? = some a) (result : Except Exn Unit) :
    Wired (ch.retrySyscall filter hook result) := by
  unfold FileDescr.retrySyscall
  split
  · have hexecute : Wired ch.execute := h.congr rfl rfl rfl
    exact hexecute.retry hseq ha _
  · exact h.retry hseq ha _

theorem syscall (h : Wired ch) (hseq : Sequenced ch.hooks d) (event : IoEvent)
    (attempt : Option (Except Exn Unit)) : Wired (ch.syscall filter event attempt) := by
  have hexecute : Wired ch.execute := h.congr rfl rfl rfl
  unfold FileDescr.syscall
  split
  · exact h.registerAction hseq event
  · split
    · exact hexecute
    · exact hexecute
    · exact hexecute.registerAction hseq _
    · exact hexecute.congr rfl rfl rfl

theorem stopEvent (h : Wired ch) (hempty : ch.hooks.isEmpty (header event) = true) :
    Wired (ch.stopEvent event) := by
  unfold FileDescr.stopEvent
  split
  · rename_i ev hev
    refine ⟨fun event' hnone => ?_, fun event' ev' hev' => ?_⟩
    · change Function.update ch.event event none event' = none at hnone
      by_cases heq : event' = event
      · rw [heq]
        exact hempty
      · rw [Function.update_of_ne heq] at hnone
        exact h.used event' hnone
    · change Function.update ch.event event none event' = _ at hev'
      by_cases heq : event' = event
      · rw [heq, Function.update_self] at hev'
        cases hev'
      · rw [Function.update_of_ne heq] at hev'
        refine (List.mem_erase_of_ne fun h => heq (Prod.mk.inj h).2).mpr ?_
        exact h.registered event' ev' hev'
  · exact h

theorem stopUnused (h : Wired ch) (event : IoEvent) : Wired (ch.stopUnused event) := by
  unfold FileDescr.stopUnused
  split
  · rename_i hempty
    exact h.stopEvent hempty
  · exact h

theorem reject (h : Wired ch) (i : ℕ) : Wired (ch.reject i) := by
  unfold FileDescr.reject
  split
  · exact h.congr rfl rfl rfl
  · exact h

theorem cancel (h : Wired ch) (is : List ℕ) : Wired (ch.cancel is) := by
  have hrejected : ∀ ch : FileDescr, Wired ch → Wired (is.foldl FileDescr.reject ch) := by
    induction is with
    | nil => exact fun _ => id
    | cons i is ih => exact fun ch h => ih _ (h.reject i)
  exact (hrejected ch h).congr rfl rfl rfl

theorem cancelCallback (h : Wired ch) (hseq : Sequenced ch.hooks d)
    (ha : ch.actions[i]? = some a) : Wired (ch.cancelCallback i) := by
  have hhooks : ch.cancelCallback i = { ch with
      hooks := ch.hooks.remove a.node
      actions := ch.actions.modify i fun a => { a with canceling := false }
      pauses := ch.pauses + 1 } := by
    unfold FileDescr.cancelCallback removeHook
    rw [ha]
    rfl
  rw [hhooks]
  exact h.removed hseq rfl rfl rfl

theorem iterate (h : Wired ch) (hinv : Inv filter ch d) (event : IoEvent) (curr : ℕ)
    (called : Bool) (result : Except Exn Unit) :
    Wired (ch.iterate filter event curr called result) := by
  have hpush : ∀ frame, Wired (ch.push frame) := fun frame => h.congr rfl rfl rfl
  unfold FileDescr.iterate
  split
  · exact hpush _
  split
  · exact h
  split
  · rename_i hactive
    obtain ⟨i, a, ha, rfl⟩ := hinv.linked.of_active hactive
    rw [ha.data]
    exact (hpush _).retrySyscall hinv.sequenced ⟨i, a.event⟩ ha.action result
  · exact hpush _

theorem clear {since curr : ℕ} {called : Bool} (h : Wired ch) (hinv : Inv filter ch d)
    (hend : event = .write → curr = header .write → called = false →
      ∀ event, ch.hooks.isEmpty (header event) = true)
    (result : Except Exn Unit) : Wired (ch.clear filter since event curr called result) := by
  have hpush : ∀ frame, Wired (ch.push frame) := fun frame => h.congr rfl rfl rfl
  unfold FileDescr.clear
  split
  · exact hpush _
  rename_i hcalled
  split
  · rename_i hcurr
    cases event with
    | read => exact hpush _
    | write =>
      have hempty := hend rfl hcurr (by simpa using hcalled)
      refine (h.stopEvent (hempty .read)).stopEvent ?_
      unfold FileDescr.stopEvent
      split
      · exact hempty .write
      · exact hempty .write
  split
  · rename_i hactive
    obtain ⟨i, a, ha, rfl⟩ := hinv.linked.of_active hactive
    rw [ha.data]
    have hremoved : Wired ({ ch with hooks := ch.hooks.remove a.node }.push
        (.clear since event a.node true)) := h.removed hinv.sequenced rfl rfl rfl
    exact hremoved.retrySyscall (hinv.sequenced.remove a.node) ⟨i, a.event⟩ ha.action result
  · exact hpush _

theorem isEmpty_of_clearing {since : ℕ} (hinv : Inv filter ch d)
    (hclearing : Clearing ch.hooks d since .write (header .write) false)
    (hnew : ((ch.actions.drop since).all fun a => !ch.hooks.active a.node) = true)
    (event : IoEvent) : ch.hooks.isEmpty (header event) = true := by
  obtain ⟨l, hl⟩ := hinv.linked.lists event
  refine (hinv.linked.represents.ring hl).isEmpty_iff.mpr (List.eq_nil_iff_forall_not_mem.mpr ?_)
  intro x hx
  obtain ⟨i, a, ha, rfl, rfl, -⟩ := hinv.linked.hook event l x hl hx
  by_cases hi : i < since
  · have hold : Old ch.hooks since a.node := ⟨_, ha.data, hi⟩
    cases hevent : a.event with
    | read =>
      rw [hevent] at hl
      exact hclearing.passed rfl l a.node hl hx hold
    | write =>
      rw [hevent] at hl
      exact hinv.not_old hclearing hl hx hold
  · have hmem : a ∈ ch.actions.drop since := by
      refine List.mem_iff_getElem?.mpr ⟨i - since, ?_⟩
      rw [List.getElem?_drop, Nat.add_sub_cancel' (Nat.not_lt.mp hi)]
      exact ha.action
    have hactive : ch.hooks.active a.node = true :=
      (hinv.linked.represents.active a.node).mpr ⟨_, l, hl, hx⟩
    have hinactive := List.all_eq_true.mp hnew a hmem
    rw [hactive] at hinactive
    cases hinactive

theorem step {op : Op} (h : Wired ch) (hinv : Inv filter ch d)
    (hstep : step filter ch op = some ch') (hop : keepsEvents filter ch op = true) :
    Wired ch' := by
  cases step_cases hstep with
  | refused => exact h
  | waits => exact h.congr rfl rfl rfl
  | syscall event attempt => exact h.syscall hinv.sequenced event attempt
  | resume i event attempt =>
    have hwaiting : Wired { ch with waiting := ch.waiting.eraseIdx i } := h.congr rfl rfl rfl
    exact hwaiting.syscall hinv.sequenced event attempt
  | registerAction event => exact h.registerAction hinv.sequenced event
  | cancel is => exact h.cancel is
  | cancelCallback i a _ ha => exact h.cancelCallback hinv.sequenced ha
  | close =>
    unfold close
    split
    · exact h
    · exact h.congr rfl rfl rfl
  | abort e =>
    unfold abort
    split
    · exact h
    · exact h.congr rfl rfl rfl
  | ready => exact h.congr rfl rfl rfl
  | unpause =>
    have hwired : Wired { ch with pauses := ch.pauses - 1 } := h.congr rfl rfl rfl
    exact (hwired.stopUnused .read).stopUnused .write
  | iterate event curr called stack result hstack =>
    have hrest : Wired { ch with stack := stack } := h.congr rfl rfl rfl
    exact hrest.iterate (hinv.rest hstack) event curr called result
  | clear since event curr called stack result hstack =>
    have hrest : Wired { ch with stack := stack } := h.congr rfl rfl rfl
    refine hrest.clear (hinv.rest hstack) ?_ result
    rintro rfl rfl rfl
    obtain ⟨-, -, hclearing⟩ := hinv.clearing since _ _ _ (by rw [hstack]; exact .head _)
    simp only [keepsEvents, hstack, ne_eq, not_true_eq_false, decide_false, Bool.false_or] at hop
    exact isEmpty_of_clearing (hinv.rest hstack) hclearing hop
  | leave => exact h.congr rfl rfl rfl
  | escape => exact h.congr rfl rfl rfl

end Wired

/-! ## What the sequences hold -/

theorem hooksOf_eq (h : Inv filter ch d) (hl : d.lists (header event) = some l) :
    ch.hooksOf event = l.filterMap ch.hooks.data := by
  have hvalue : d.value = ch.hooks.data := funext h.linked.represents.value
  have hfold : ∀ (hooks acc : List Hook),
      hooks.foldl (fun acc hook => acc ++ [hook]) acc = acc ++ hooks := by
    intro hooks
    induction hooks with
    | nil => exact fun acc => (List.append_nil acc).symm
    | cons hook hooks ih =>
      intro acc
      rw [List.foldl_cons, ih, List.append_assoc]
      rfl
  unfold hooksOf
  rw [(h.linked.represents.reads hl).foldL, Option.getD_some, hfold, List.nil_append, hvalue]

theorem mem_hooksOf (h : Inv filter ch d) {hook : Hook} (hmem : hook ∈ ch.hooksOf event) :
    ∃ a, Hooked ch.hooks d ch.actions hook.action a ∧ a.event = event := by
  obtain ⟨l, hl⟩ := h.linked.lists event
  rw [hooksOf_eq h hl] at hmem
  obtain ⟨x, hx, hdata⟩ := List.mem_filterMap.mp hmem
  obtain ⟨i, a, ha, rfl, hevent, -⟩ := h.linked.hook event l x hl hx
  cases hdata.symm.trans ha.data
  exact ⟨a, ha, hevent⟩

theorem filterMap_eq_singleton {f : ℕ → Option Hook} {hook : Hook} (hnodup : l.Nodup) (hx : x ∈ l)
    (hfx : f x = some hook) (hother : ∀ y ∈ l, y ≠ x → f y = none) : l.filterMap f = [hook] := by
  obtain ⟨l₁, l₂, rfl⟩ := List.append_of_mem hx
  have hnot : x ∉ l₁ ++ l₂ := (List.nodup_middle.mp hnodup).notMem
  have hnone : ∀ l' ⊆ l₁ ++ l₂, l'.filterMap f = [] := by
    intro l' hl'
    refine List.filterMap_eq_nil_iff.mpr fun y hy => ?_
    refine hother y ?_ fun heq => hnot (heq ▸ hl' hy)
    have hmem := hl' hy
    simp only [List.mem_append, List.mem_cons] at hmem ⊢
    tauto
  rw [List.filterMap_append, List.filterMap_cons_some hfx, hnone l₁ (List.subset_append_left ..),
    hnone l₂ (List.subset_append_right ..)]
  rfl

theorem filter_hooksOf (h : Inv filter ch d) (ha : ch.actions[i]? = some a)
    (hpending : a.waiter = .pending) (event : IoEvent) :
    (ch.hooksOf event).filter (fun hook => hook.action = i) =
      if event = a.event then [⟨i, event⟩] else [] := by
  obtain ⟨l, hl⟩ := h.linked.lists event
  split
  · rename_i heq
    subst heq
    obtain ⟨-, -, hdata, l', hl', hmem⟩ := h.linked.pending i a ha hpending nofun
    cases hl.symm.trans hl'
    have hnodup := (List.nodup_cons.mp (h.linked.represents.ring hl).nodup).2
    rw [hooksOf_eq h hl, List.filter_filterMap]
    refine filterMap_eq_singleton hnodup hmem ?_ fun y hy hne => ?_
    · rw [hdata]
      simp
    · obtain ⟨j, b, hb, rfl, -⟩ := h.linked.hook a.event l y hl hy
      have hji : j ≠ i := by
        rintro rfl
        rw [Option.some.inj (hb.action.symm.trans ha)] at hne
        exact hne rfl
      rw [hb.data]
      simp [hji]
  · rename_i hne
    refine List.filter_eq_nil_iff.mpr fun hook hmem heq => hne ?_
    obtain ⟨b, hb, hevent⟩ := mem_hooksOf h hmem
    have hb' := hb.action
    rw [of_decide_eq_true heq, ha] at hb'
    rw [Option.some.inj hb', hevent]

theorem Inv.attended (h : Inv filter ch d) (hwired : Wired ch) : Attended ch := by
  refine ⟨fun event hne => ?_, fun event hook hmem => ?_, fun i a ha hpending event => ?_⟩
  · have hev : ch.event event ≠ none := by
      intro hnone
      obtain ⟨l, hl⟩ := h.linked.lists event
      have hempty := (h.linked.represents.ring hl).isEmpty_iff.mp (hwired.used event hnone)
      rw [hooksOf_eq h hl, hempty] at hne
      exact hne rfl
    obtain ⟨ev, hev⟩ := Option.ne_none_iff_exists'.mp hev
    exact ⟨ev, hev, hwired.registered _ ev hev⟩
  · obtain ⟨a, ha, -⟩ := mem_hooksOf h hmem
    exact ⟨a, ha.action, ha.live⟩
  · exact filter_hooksOf h ha hpending event

theorem wired_mkCh : Wired mkCh := by
  refine ⟨fun event _ => ?_, fun event ev hev => nomatch hev⟩
  cases event <;> rfl

/-- In every run in which `abort` is only called with exceptions that make the actions fail, and in
which no action that a callback registers has a hook when `clear_events` stops the events, a
sequence of hooks that is in use has an event, and each pending action has one hook; the other hooks
are those of canceled actions whose callback of `on_cancel` is still to run. -/
theorem hooks_are_attended
    (h : Reach (step filter) (fun ch op => keepsEvents filter ch op = true) mkCh ch) :
    Attended ch := by
  have hinv : (∃ d, Inv filter ch d) ∧ Wired ch := by
    refine h.invariant (P := fun ch => (∃ d, Inv filter ch d) ∧ Wired ch)
      ⟨inv_mkCh filter, wired_mkCh⟩ ?_
    rintro ch op ch' ⟨⟨d, hinv⟩, hwired⟩ hop hstep
    refine ⟨hinv.step hstep fun e he hclosed => ?_, hwired.step hinv hstep hop⟩
    subst he
    simpa [keepsEvents, hclosed] using hop
  obtain ⟨⟨d, hinv⟩, hwired⟩ := hinv
  exact hinv.attended hwired

/-- An action that asks for the other event is tried again there, and the first event is stopped
after the pause.  The action is canceled, and the callback of `on_cancel` is still to run. -/
theorem hooks_are_attended_moved :
    ∃ ch, replay (step .handleAll) mkCh [.registerAction .read, .ready 0 .read,
        .turn (.error .retryWrite), .turn (.ok ()), .turn (.ok ()), .unpause, .cancel [0]] =
          some ch ∧
      Attended ch := by
  obtain ⟨ch, hch⟩ : ∃ ch, replay (checked (step .handleAll) (keepsEvents .handleAll)) mkCh
      [.registerAction .read, .ready 0 .read, .turn (.error .retryWrite), .turn (.ok ()),
        .turn (.ok ()), .unpause, .cancel [0]] = some ch := ⟨_, rfl⟩
  refine ⟨ch, ?_, hooks_are_attended (reach_of_checked _ hch)⟩
  rw [← hch]
  rfl

end Lwt.Descriptor
