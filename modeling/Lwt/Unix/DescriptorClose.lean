import Lwt.Unix.DescriptorHooks

/-!
# Closing and aborting a file descriptor

After `close` and `abort` the actions fail with the error of the descriptor, and none is executed.
There are exceptions to this: a call of `wrap_syscall` that waits for `ch.blocking` executes its
action without another look at the state, and an exception of `abort` that requeues the actions, or
that the exception filter refuses, leaves waiters pending.
-/

namespace Lwt.Descriptor

open Transition FileDescr

variable {filter : ExceptionFilter} {ch ch' : FileDescr} {d : Deques Hook} {event : IoEvent}
  {i n since curr : ℕ} {a : Action} {w : Waiter} {called : Bool} {base : List Frame} {op : Op}

/-- A call of `clear_events`. -/
def Frame.isClear : Frame → Bool
  | .clear _ _ _ _ => true
  | _ => false

/-- `abort` is called with an exception that makes the actions fail, `wrap_syscall` does not execute
an action that has waited for `blocking` when the descriptor is not opened any more, and no
exception ends a call of `clear_events`. -/
def keepsClosed (filter : ExceptionFilter) (ch : FileDescr) : Op → Bool
  | .abort e => ch.state = .closed || plain filter e
  | .resume _ (some _) => ch.state = .opened
  | .escape n => (ch.stack.take n).all fun frame => !frame.isClear
  | _ => true

/-! ## The stack -/

theorem suffix_of_eq (h : ch'.stack = ch.stack) : ch.stack <:+ ch'.stack := h ▸ List.suffix_rfl

theorem stack_finish (ch : FileDescr) (i : ℕ) (w : Waiter) :
    ch.stack <:+ (ch.finish i w).stack := by
  unfold finish removeHook
  cases ha : ch.actions[i]? with
  | none => simp [stopEvents, ha]
  | some a =>
    cases hw : a.waiter with
    | pending =>
      simp only [stopEvents, ha, Option.map_some, hw]
      exact List.suffix_cons _ _
    | _ => simp [stopEvents, ha, hw]

theorem stack_register : (ch.register event).stack = ch.stack := by
  unfold register
  split <;> rfl

theorem stack_requeue : ((((ch.removeHook i).stopEvents).addHook i event).register event).stack =
    ch.stack := by
  rw [stack_register]
  unfold removeHook
  split <;> rfl

theorem stack_retry (ch : FileDescr) (hook : Hook) (o : Outcome) :
    ch.stack <:+ (ch.retry hook o).stack := by
  unfold retry
  cases o with
  | success => exact stack_finish ch _ _
  | exn e => exact stack_finish ch _ _
  | requeued event =>
    simp only
    split
    · exact suffix_of_eq stack_requeue
    · exact List.suffix_rfl
  | escapes => exact List.suffix_cons _ _

theorem stack_retrySyscall (ch : FileDescr) (hook : Hook) (result : Except Exn Unit) :
    ch.stack <:+ (ch.retrySyscall filter hook result).stack := by
  unfold retrySyscall
  split
  · exact stack_retry ch.execute hook _
  · exact stack_retry ch hook _

theorem stack_registerAction : (ch.registerAction event).stack = ch.stack := stack_register

theorem stack_syscall (attempt : Option (Except Exn Unit)) :
    ch.stack <:+ (ch.syscall filter event attempt).stack := by
  unfold syscall
  split
  · exact suffix_of_eq stack_registerAction
  · split
    · exact List.suffix_rfl
    · exact List.suffix_rfl
    · change ch.execute.stack <:+ _
      exact suffix_of_eq stack_registerAction
    · exact List.suffix_cons _ _

theorem stack_cancel (ch : FileDescr) (is : List ℕ) : ch.stack <:+ (ch.cancel is).stack := by
  have hrejected : ∀ ch : FileDescr, (is.foldl reject ch).stack = ch.stack := by
    induction is with
    | nil => exact fun _ => rfl
    | cons i is ih =>
      refine fun ch => (ih (ch.reject i)).trans ?_
      unfold reject
      split <;> rfl
  change _ <:+ _ :: (is.foldl reject ch).stack
  rw [hrejected ch]
  exact List.suffix_cons _ _

theorem stack_cancelCallback : (ch.cancelCallback i).stack = ch.stack := by
  unfold cancelCallback removeHook
  split <;> rfl

theorem stack_stopEvent : (ch.stopEvent event).stack = ch.stack := by
  unfold stopEvent
  split <;> rfl

theorem actions_stopEvent : (ch.stopEvent event).actions = ch.actions := by
  unfold stopEvent
  split <;> rfl

theorem stack_stopUnused : (ch.stopUnused event).stack = ch.stack := by
  unfold stopUnused
  split
  · exact stack_stopEvent
  · rfl

theorem stack_iterate (result : Except Exn Unit) :
    ch.stack <:+ (ch.iterate filter event curr called result).stack := by
  unfold iterate
  split
  · exact List.suffix_cons _ _
  split
  · exact List.suffix_rfl
  split
  · split
    · exact (List.suffix_cons _ _).trans (stack_retrySyscall (ch.push _) _ result)
    · exact List.suffix_cons _ _
  · exact List.suffix_cons _ _

/-- The call of `clear_events` is still there, or has come to its end. -/
theorem stack_clear (filter : ExceptionFilter) (ch : FileDescr) (since : ℕ) (event : IoEvent)
    (curr : ℕ) (called : Bool) (result : Except Exn Unit) :
    (∃ event' curr' called', (.clear since event' curr' called' :: ch.stack) <:+
      (ch.clear filter since event curr called result).stack) ∨
    (event = .write ∧ curr = header .write ∧ called = false ∧
      (ch.clear filter since event curr called result).stack = ch.stack ∧
      (ch.clear filter since event curr called result).actions = ch.actions) := by
  unfold clear
  split
  · exact .inl ⟨_, _, _, List.suffix_rfl⟩
  rename_i hcalled
  split
  · rename_i hcurr
    cases event with
    | read => exact .inl ⟨_, _, _, List.suffix_rfl⟩
    | write =>
      refine .inr ⟨rfl, hcurr, by simpa using hcalled, ?_, ?_⟩
      · exact stack_stopEvent.trans stack_stopEvent
      · exact actions_stopEvent.trans actions_stopEvent
  split
  · split
    · rename_i hook _
      exact .inl ⟨event, curr, true, stack_retrySyscall
        ({ ch with hooks := ch.hooks.remove curr }.push (.clear since event curr true)) hook result⟩
    · exact .inl ⟨_, _, _, List.suffix_rfl⟩
  · exact .inl ⟨_, _, _, List.suffix_rfl⟩

/-! ## Steps of a descriptor that is not opened -/

/-- No action is executed, and an action that is resolved is canceled or fails with the error of the
descriptor. -/
structure Fails (ch ch' : FileDescr) : Prop where
  state : ch'.state ≠ .opened
  closed : ch.state = .closed → ch'.state = .closed
  runs : ch'.runs = ch.runs
  actions : ∀ (i : ℕ) a, ch.actions[i]? = some a → ∃ a', ch'.actions[i]? = some a' ∧
    (a'.waiter = a.waiter ∨ a.waiter = .pending ∧ (a'.waiter = .canceled ∨
      ∃ e, checkDescriptor ch'.state = .error e ∧ a'.waiter = .rejected e))

namespace Fails

theorem of_same (hstate : ch.state ≠ .opened) (hstate' : ch'.state = ch.state)
    (hruns : ch'.runs = ch.runs) (hactions : ch'.actions = ch.actions) : Fails ch ch' := by
  refine ⟨hstate' ▸ hstate, fun hclosed => hstate'.trans hclosed, hruns, fun i a ha =>
    ⟨a, ?_, .inl rfl⟩⟩
  rw [hactions, ha]

theorem finish (hstate : ch.state ≠ .opened) (ha : ch.actions[i]? = some a)
    (hlive : a.live = true) {e : Exn} (he : checkDescriptor ch.state = .error e) :
    Fails ch (ch.finish i (.rejected e)) := by
  rcases waiter_of_live hlive with hpending | hcanceled
  · rw [finish_eq ha hpending]
    refine ⟨hstate, id, rfl, fun j b hj => ?_⟩
    change ∃ a', (List.modify _ _ _)[j]? = some a' ∧ _
    by_cases hij : i = j
    · subst hij
      cases ha.symm.trans hj
      refine ⟨{ a with waiter := .rejected e }, ?_, .inr ⟨hpending, .inr ⟨e, he, rfl⟩⟩⟩
      rw [List.getElem?_modify_eq, ha]
      rfl
    · refine ⟨b, ?_, .inl rfl⟩
      rw [List.getElem?_modify_ne _ _ hij, hj]
  · rw [finish_canceled ha hcanceled]
    exact of_same hstate rfl rfl rfl

theorem registerAction (hstate : ch.state ≠ .opened) (event : IoEvent) :
    Fails ch (ch.registerAction event) := by
  have hregister : ∀ ch : FileDescr, (ch.register event).state = ch.state ∧
      (ch.register event).runs = ch.runs ∧ (ch.register event).actions = ch.actions := by
    intro ch
    unfold register
    split <;> exact ⟨rfl, rfl, rfl⟩
  unfold FileDescr.registerAction
  simp only
  obtain ⟨hstate', hruns, hactions⟩ := hregister
    (addHook { ch with actions := ch.actions ++ [⟨0, .pending, event, false⟩] }
    ch.actions.length event)
  refine ⟨fun h => hstate (hstate'.symm.trans h), fun hclosed => hstate'.trans hclosed, hruns,
    fun i a ha => ?_⟩
  have hlt := (List.getElem?_eq_some_iff.mp ha).1
  refine ⟨a, ?_, .inl rfl⟩
  rw [hactions]
  change (List.modify _ _ _)[i]? = _
  rw [List.getElem?_modify_ne _ _ (Nat.ne_of_gt hlt), List.getElem?_append_left hlt, ha]

theorem of_eq {ch₀ : FileDescr} (h : Fails ch₀ ch') (hstate : ch₀.state = ch.state)
    (hruns : ch₀.runs = ch.runs) (hactions : ch₀.actions = ch.actions) : Fails ch ch' := by
  refine ⟨h.state, ?_, h.runs.trans hruns, ?_⟩
  · rw [← hstate]
    exact h.closed
  · rw [← hactions]
    exact h.actions

theorem retrySyscall (ch₀ : FileDescr) (hinv : Inv filter ch d) (hstate : ch.state ≠ .opened)
    (hstate' : ch₀.state = ch.state) (hruns : ch₀.runs = ch.runs)
    (hactions : ch₀.actions = ch.actions) (hook : Hook) (ha : ch.actions[hook.action]? = some a)
    (hlive : a.live = true) (result : Except Exn Unit) :
    Fails ch (ch₀.retrySyscall filter hook result) := by
  obtain ⟨e, he⟩ := check_error hstate
  rw [retrySyscall_error hstate' he, hinv.outcome_error he]
  have hfinish : Fails ch₀ (ch₀.finish hook.action (.rejected e)) :=
    Fails.finish (hstate' ▸ hstate) (hactions ▸ ha) hlive (hstate'.symm ▸ he)
  exact hfinish.of_eq hstate' hruns hactions

theorem syscall (hstate : ch.state ≠ .opened) (event : IoEvent) :
    Fails ch (ch.syscall filter event none) := registerAction hstate event

theorem rejected (is : List ℕ) (ch : FileDescr) :
    (is.foldl reject ch).state = ch.state ∧ (is.foldl reject ch).runs = ch.runs ∧
      ∀ (i : ℕ) a, ch.actions[i]? = some a → ∃ a', (is.foldl reject ch).actions[i]? = some a' ∧
        (a'.waiter = a.waiter ∨ a.waiter = .pending ∧ a'.waiter = .canceled) := by
  induction is generalizing ch with
  | nil => exact ⟨rfl, rfl, fun i a ha => ⟨a, ha, .inl rfl⟩⟩
  | cons j is ih =>
    obtain ⟨hstate, hruns, hactions⟩ := ih (ch.reject j)
    have hreject : (ch.reject j).state = ch.state ∧ (ch.reject j).runs = ch.runs ∧
        ∀ (i : ℕ) a, ch.actions[i]? = some a → ∃ a', (ch.reject j).actions[i]? = some a' ∧
          (a'.waiter = a.waiter ∨ a.waiter = .pending ∧ a'.waiter = .canceled) := by
      unfold FileDescr.reject
      split
      · rename_i hpending
        obtain ⟨b, hb, hpending⟩ := Option.map_eq_some_iff.mp hpending
        refine ⟨rfl, rfl, fun i a ha => ?_⟩
        change ∃ a', (List.modify _ _ _)[i]? = some a' ∧ _
        by_cases hji : j = i
        · subst hji
          cases hb.symm.trans ha
          refine ⟨{ b with waiter := .canceled, canceling := true }, ?_, .inr ⟨hpending, rfl⟩⟩
          rw [List.getElem?_modify_eq, hb]
          rfl
        · refine ⟨a, ?_, .inl rfl⟩
          rw [List.getElem?_modify_ne _ _ hji, ha]
      · exact ⟨rfl, rfl, fun i a ha => ⟨a, ha, .inl rfl⟩⟩
    refine ⟨hstate.trans hreject.1, hruns.trans hreject.2.1, fun i a ha => ?_⟩
    obtain ⟨b, hb, hab⟩ := hreject.2.2 i a ha
    obtain ⟨a', ha', hba⟩ := hactions i b hb
    refine ⟨a', ha', ?_⟩
    rcases hba with hsame | ⟨hpending, hcanceled⟩
    · rcases hab with hsame' | ⟨hpending', hcanceled'⟩
      · exact .inl (hsame.trans hsame')
      · exact .inr ⟨hpending', hsame.trans hcanceled'⟩
    · rcases hab with hsame' | ⟨hpending', -⟩
      · exact .inr ⟨hsame'.symm.trans hpending, hcanceled⟩
      · exact .inr ⟨hpending', hcanceled⟩

theorem cancel (hstate : ch.state ≠ .opened) (is : List ℕ) : Fails ch (ch.cancel is) := by
  obtain ⟨hstate', hruns, hactions⟩ := rejected is ch
  refine ⟨fun h => hstate (hstate'.symm.trans h), fun hclosed => hstate'.trans hclosed, hruns,
    fun i a ha => ?_⟩
  obtain ⟨a', ha', hw⟩ := hactions i a ha
  exact ⟨a', ha', hw.imp_right fun h => ⟨h.1, .inl h.2⟩⟩

theorem cancelCallback (hstate : ch.state ≠ .opened) (i : ℕ) : Fails ch (ch.cancelCallback i) := by
  have hremoved : (ch.removeHook i).state = ch.state ∧ (ch.removeHook i).runs = ch.runs ∧
      (ch.removeHook i).actions = ch.actions := by
    unfold removeHook
    split <;> exact ⟨rfl, rfl, rfl⟩
  obtain ⟨hstate', hruns, hactions⟩ := hremoved
  refine ⟨fun h => hstate (hstate'.symm.trans h), fun hclosed => hstate'.trans hclosed, hruns,
    fun j a ha => ?_⟩
  change ∃ a', (List.modify (ch.removeHook i).actions _ _)[j]? = some a' ∧ _
  rw [hactions]
  by_cases hij : i = j
  · subst hij
    refine ⟨{ a with canceling := false }, ?_, .inl rfl⟩
    rw [List.getElem?_modify_eq, ha]
    rfl
  · refine ⟨a, ?_, .inl rfl⟩
    rw [List.getElem?_modify_ne _ _ hij, ha]

theorem stopEvent_same (ch : FileDescr) (event : IoEvent) : (ch.stopEvent event).state = ch.state ∧
    (ch.stopEvent event).runs = ch.runs ∧ (ch.stopEvent event).actions = ch.actions := by
  unfold stopEvent
  split <;> exact ⟨rfl, rfl, rfl⟩

theorem stopUnused_same (ch : FileDescr) (event : IoEvent) :
    (ch.stopUnused event).state = ch.state ∧
    (ch.stopUnused event).runs = ch.runs ∧ (ch.stopUnused event).actions = ch.actions := by
  unfold stopUnused
  split
  · exact stopEvent_same ch event
  · exact ⟨rfl, rfl, rfl⟩

theorem iterate (hinv : Inv filter ch d) (hstate : ch.state ≠ .opened) (event : IoEvent) (curr : ℕ)
    (called : Bool) (result : Except Exn Unit) :
    Fails ch (ch.iterate filter event curr called result) := by
  unfold FileDescr.iterate
  split
  · exact of_same hstate rfl rfl rfl
  split
  · exact of_same hstate rfl rfl rfl
  split
  · rename_i hactive
    obtain ⟨i, a, ha, rfl⟩ := hinv.linked.of_active hactive
    rw [ha.data]
    exact retrySyscall (ch.push (.iterate event a.node true)) hinv hstate rfl rfl rfl ⟨i, a.event⟩
      ha.action ha.live result
  · exact of_same hstate rfl rfl rfl

theorem clear (hinv : Inv filter ch d) (hstate : ch.state ≠ .opened) (since : ℕ) (event : IoEvent)
    (curr : ℕ) (called : Bool) (result : Except Exn Unit) :
    Fails ch (ch.clear filter since event curr called result) := by
  unfold FileDescr.clear
  split
  · exact of_same hstate rfl rfl rfl
  split
  · cases event with
    | read => exact of_same hstate rfl rfl rfl
    | write =>
      obtain ⟨hstate₁, hruns₁, hactions₁⟩ := stopEvent_same ch .read
      obtain ⟨hstate₂, hruns₂, hactions₂⟩ := stopEvent_same (ch.stopEvent .read) .write
      exact of_same hstate (hstate₂.trans hstate₁) (hruns₂.trans hruns₁)
        (hactions₂.trans hactions₁)
  split
  · rename_i hactive
    obtain ⟨i, a, ha, rfl⟩ := hinv.linked.of_active hactive
    rw [ha.data]
    exact retrySyscall
      ({ ch with hooks := ch.hooks.remove a.node }.push (.clear since event a.node true)) hinv
      hstate
      rfl rfl rfl ⟨i, a.event⟩ ha.action ha.live result
  · exact of_same hstate rfl rfl rfl

theorem step (hinv : Inv filter ch d) (hstate : ch.state ≠ .opened)
    (hstep : step filter ch op = some ch') (hop : keepsClosed filter ch op = true) :
    Fails ch ch' := by
  cases step_cases hstep with
  | refused => exact of_same hstate rfl rfl rfl
  | waits event hopened => exact absurd hopened hstate
  | syscall event attempt hopened => exact absurd hopened hstate
  | resume i event attempt =>
    cases attempt with
    | none =>
      have hwaiting : ({ ch with waiting := ch.waiting.eraseIdx i } : FileDescr).state ≠
        .opened :=
        hstate
      exact (syscall hwaiting event).of_eq rfl rfl rfl
    | some result => exact absurd (of_decide_eq_true hop) hstate
  | registerAction event => exact registerAction hstate event
  | cancel is => exact cancel hstate is
  | cancelCallback i => exact cancelCallback hstate i
  | close =>
    unfold close
    split
    · exact of_same hstate rfl rfl rfl
    · exact ⟨nofun, fun _ => rfl, rfl, fun i a ha => ⟨a, ha, .inl rfl⟩⟩
  | abort e =>
    unfold abort
    split
    · exact of_same hstate rfl rfl rfl
    · rename_i hclosed
      exact ⟨nofun, fun h => absurd h hclosed, rfl, fun i a ha => ⟨a, ha, .inl rfl⟩⟩
  | ready => exact of_same hstate rfl rfl rfl
  | unpause =>
    obtain ⟨hstate₁, hruns₁, hactions₁⟩ := stopUnused_same
      { ch with pauses := ch.pauses - 1 } .read
    obtain ⟨hstate₂, hruns₂, hactions₂⟩ :=
      stopUnused_same ({ ch with pauses := ch.pauses - 1 }.stopUnused .read) .write
    exact of_same hstate (hstate₂.trans hstate₁) (hruns₂.trans hruns₁) (hactions₂.trans hactions₁)
  | iterate event curr called stack result hstack =>
    exact (iterate (hinv.rest hstack) hstate event curr called result).of_eq rfl rfl rfl
  | clear since event curr called stack result hstack =>
    exact (clear (hinv.rest hstack) hstate since event curr called result).of_eq rfl rfl rfl
  | leave => exact of_same hstate rfl rfl rfl
  | escape => exact of_same hstate rfl rfl rfl

end Fails

/-! ## The call of `close` or `abort` -/

/-- The call of `clear_events` that was made on the stack `base` is under way. -/
def UnderWay (since : ℕ) (base : List Frame) (ch : FileDescr) : Prop :=
  ∃ event curr called, (.clear since event curr called :: base) <:+ ch.stack

/-- None of the actions that were there before is pending. -/
def Settled (since : ℕ) (ch : FileDescr) : Prop :=
  ∀ (i : ℕ) a, i < since → ch.actions[i]? = some a → a.waiter ≠ .pending

theorem UnderWay.mono (h : UnderWay since base ch) (hstack : ch.stack <:+ ch'.stack) :
    UnderWay since base ch' := by
  obtain ⟨event, curr, called, hsuffix⟩ := h
  exact ⟨event, curr, called, hsuffix.trans hstack⟩

theorem UnderWay.rest {frame : Frame} {stack : List Frame} (h : UnderWay since base ch)
    (hstack : ch.stack = frame :: stack) (hframe : frame.isClear = false) :
    UnderWay since base { ch with stack := stack } := by
  obtain ⟨event, curr, called, hsuffix⟩ := h
  rw [hstack] at hsuffix
  rcases List.suffix_cons_iff.mp hsuffix with heq | hsuffix
  · rw [← (List.cons.inj heq).1] at hframe
    cases hframe
  · exact ⟨event, curr, called, hsuffix⟩

theorem UnderWay.escape (h : UnderWay since base ch)
    (hframes : ((ch.stack.take n).all fun frame => !frame.isClear) = true) :
    UnderWay since base { ch with stack := ch.stack.drop n } := by
  obtain ⟨event, curr, called, above, habove⟩ := h
  have hle : n ≤ above.length := by
    by_contra hlt
    have hmem : Frame.clear since event curr called ∈ ch.stack.take n := by
      refine List.mem_take_iff_getElem.mpr ⟨above.length, ?_, ?_⟩
      · rw [← habove, List.length_append, List.length_cons]
        omega
      · simp [← habove]
    have hclear := List.all_eq_true.mp hframes _ hmem
    cases hclear
  refine ⟨event, curr, called, above.drop n, ?_⟩
  change _ = ch.stack.drop n
  rw [← habove, List.drop_append_of_le_length hle]

theorem UnderWay.clear {since' : ℕ} {stack : List Frame} (h : UnderWay since base ch)
    (hinv : Inv filter ch d) (hstack : ch.stack = .clear since' event curr called :: stack)
    (result : Except Exn Unit) :
    UnderWay since base ({ ch with stack := stack }.clear filter since' event curr called result) ∨
      Settled since ({ ch with stack := stack }.clear filter since' event curr called result) := by
  obtain ⟨event₀, curr₀, called₀, hsuffix⟩ := h
  rw [hstack] at hsuffix
  rcases List.suffix_cons_iff.mp hsuffix with heq | hsuffix
  · obtain ⟨hframe, hbase⟩ := List.cons.inj heq
    obtain ⟨rfl, rfl, rfl, rfl⟩ := Frame.clear.inj hframe
    rcases stack_clear filter { ch with stack := stack } since event₀ curr₀ called₀ result
      with ⟨event', curr', called', hsuffix⟩ | ⟨rfl, rfl, rfl, -, hactions⟩
    · exact .inl ⟨event', curr', called', hbase ▸ hsuffix⟩
    · obtain ⟨-, -, hclearing⟩ := hinv.clearing since _ _ _ (by rw [hstack]; exact .head _)
      refine .inr fun i a hi ha => hinv.cleared hclearing hi ?_
      rw [hactions] at ha
      exact ha
  · refine .inl ⟨event₀, curr₀, called₀, hsuffix.trans ?_⟩
    rcases stack_clear filter { ch with stack := stack } since' event curr called result
      with ⟨event', curr', called', hsuffix⟩ | ⟨-, -, -, hstack', -⟩
    · exact (List.suffix_cons _ _).trans hsuffix
    · exact hstack' ▸ List.suffix_rfl

theorem UnderWay.step (h : UnderWay since base ch) (hinv : Inv filter ch d)
    (hstep : step filter ch op = some ch') (hop : keepsClosed filter ch op = true) :
    UnderWay since base ch' ∨ Settled since ch' := by
  cases step_cases hstep with
  | refused => exact .inl h
  | waits => exact .inl h
  | syscall event attempt => exact .inl (h.mono (stack_syscall attempt))
  | resume i event attempt =>
    have hwaiting : UnderWay since base { ch with waiting := ch.waiting.eraseIdx i } := h
    exact .inl (hwaiting.mono (stack_syscall attempt))
  | registerAction event => exact .inl (h.mono (suffix_of_eq stack_registerAction))
  | cancel is => exact .inl (h.mono (stack_cancel ch is))
  | cancelCallback i => exact .inl (h.mono (suffix_of_eq stack_cancelCallback))
  | close =>
    unfold close
    split
    · exact .inl h
    · exact .inl (h.mono (List.suffix_cons _ _))
  | abort e =>
    unfold abort
    split
    · exact .inl h
    · exact .inl (h.mono (List.suffix_cons _ _))
  | ready => exact .inl (h.mono (List.suffix_cons _ _))
  | unpause =>
    refine .inl (h.mono (suffix_of_eq ?_))
    exact stack_stopUnused.trans stack_stopUnused
  | iterate event curr called stack result hstack =>
    exact .inl ((h.rest hstack rfl).mono (stack_iterate result))
  | clear since' event curr called stack result hstack =>
    exact h.clear hinv hstack result
  | leave stack hstack => exact .inl (h.rest hstack rfl)
  | escape n => exact .inl (h.escape hop)

/-! ## The end of `clear_events` -/

/-- An iteration goes on, and a callback returns at once. -/
def returns : Op → Bool
  | .turn _ => true
  | .leave => true
  | _ => false

/-- A call of `clear_events` that is on the top. -/
structure OnTop (filter : ExceptionFilter) (ch : FileDescr) (d : Deques Hook) (since : ℕ)
    (event : IoEvent) (start all : List ℕ) (curr : ℕ) (called : Bool) (base : List Frame) :
    Prop where
  inv : Inv filter ch d
  passes : ch.hooks.Passes d (header event) start all curr called
  stack : ch.stack = .clear since event curr called :: base

namespace OnTop

variable {start all : List ℕ}

theorem clearing (h : OnTop filter ch d since event start all curr called base) :
    ch.state ≠ .opened ∧ since ≤ ch.actions.length ∧
      Clearing ch.hooks d since event curr called :=
  h.inv.clearing since event curr called (by rw [h.stack]; exact .head _)

theorem turn (h : OnTop filter ch d since event start all curr called base) :
    Reach (step filter) (fun _ op => returns op = true) ch
      ({ ch with stack := base }.clear filter since event curr called (.ok ())) := by
  refine .tail (.turn (.ok ())) .refl rfl ?_
  simp only [Descriptor.step, h.stack]

theorem call (h : OnTop filter ch d since event start all curr false base)
    (hcurr : curr ≠ header event) :
    ∃ ch' d', Reach (step filter) (fun _ op => returns op = true) ch ch' ∧
      OnTop filter ch' d' since event start all curr true base := by
  have hturn := h.turn
  obtain ⟨hstate, hsince, hclearing⟩ := h.clearing
  have hrest := h.inv.rest h.stack
  unfold clear at hturn
  rw [if_neg (by simp), if_neg hcurr] at hturn
  split at hturn
  · rename_i hactive
    obtain ⟨i, a, ha, rfl⟩ := hrest.linked.of_active hactive
    obtain ⟨l, hl, hmem⟩ := ha.list
    obtain ⟨e, he⟩ := check_error hstate
    rw [ha.data] at hturn
    simp only [hrest.clear_active he ha] at hturn
    have hinv := hrest.clear_hook hstate hsince ha hclearing hcurr e
    have hpasses : (ch.hooks.remove a.node).Passes (d.remove a.node) (header event) start all a.node
        true := by
      refine (h.passes.remove h.inv.linked.represents hl hmem).call hcurr ?_
      rw [Sequences.active_remove]
      simp
    have haction : ({ ch with stack := base }.push (.clear since event a.node true)).actions[i]? =
        some a := ha.action
    rcases waiter_of_live ha.live with hpending | hcanceled
    · rw [finish_eq haction hpending] at hturn hinv
      exact ⟨_, _, .tail .leave hturn rfl rfl, hinv.rest rfl, hpasses, rfl⟩
    · rw [finish_canceled haction hcanceled] at hturn hinv
      exact ⟨_, _, hturn, hinv, hpasses, rfl⟩
  · rename_i hactive
    have hinactive : ch.hooks.active curr = false := by simpa using hactive
    refine ⟨_, d, hturn, hrest.push fun since' event' curr' called' hframe => ?_,
      h.passes.call hcurr hinactive, rfl⟩
    cases hframe
    exact ⟨hstate, hsince, hclearing.call hcurr hinactive⟩

theorem next (h : OnTop filter ch d since event start all curr true base) :
    ∃ ch', Reach (step filter) (fun _ op => returns op = true) ch ch' ∧
      OnTop filter ch' d since event start all (ch.hooks.next curr) false base := by
  obtain ⟨hstate, hsince, hclearing⟩ := h.clearing
  refine ⟨_, h.turn, ?_, h.passes.next, rfl⟩
  refine (h.inv.rest h.stack).push fun since' event' curr' called' hframe => ?_
  cases hframe
  exact ⟨hstate, hsince, hclearing.next⟩

theorem passed (h : OnTop filter ch d since event start all curr false base) :
    ∃ ch' d', Reach (step filter) (fun _ op => returns op = true) ch ch' ∧
      OnTop filter ch' d' since event start all (header event) false base := by
  induction hn : (all ++ [header event]).length - (all ++ [header event]).idxOf curr
    using Nat.strong_induction_on generalizing ch d curr with
  | _ n ih =>
    by_cases hcurr : curr = header event
    · subst hcurr
      exact ⟨ch, d, .refl, h⟩
    · obtain ⟨ch₁, d₁, hreach₁, hcalled⟩ := h.call hcurr
      obtain ⟨ch₂, hreach₂, hnext⟩ := hcalled.next
      have hlt := hcalled.passes.shrinks
      have hle := List.idxOf_le_length (l := all ++ [header event]) (a := ch₁.hooks.next curr)
      obtain ⟨ch₃, d₃, hreach₃, hend⟩ := ih _ (by omega) hnext rfl
      exact ⟨ch₃, d₃, (hreach₁.trans hreach₂).trans hreach₃, hend⟩

theorem ends (h : OnTop filter ch d since .read start all curr false base) :
    ∃ ch', Reach (step filter) (fun _ op => returns op = true) ch ch' ∧ ch'.stack = base := by
  obtain ⟨ch₁, d₁, hreach₁, hread⟩ := h.passed
  obtain ⟨hstate, hsince, hclearing⟩ := hread.clearing
  have hrest := hread.inv.rest hread.stack
  obtain ⟨l, hl⟩ := hread.inv.linked.lists .write
  have hstarts := Sequences.Passes.starts hread.inv.linked.represents hl
  have hwrite : OnTop filter ({ ch₁ with stack := base }.push
      (.clear since .write (ch₁.hooks.next (header .write)) false)) d₁ since .write l l
      (ch₁.hooks.next (header .write)) false base := by
    refine ⟨hrest.push fun since' event' curr' called' hframe => ?_, hstarts, rfl⟩
    cases hframe
    exact ⟨hstate, hsince, hread.inv.turn_over hclearing⟩
  obtain ⟨ch₂, d₂, hreach₂, hwritten⟩ := hwrite.passed
  exact ⟨_, ((hreach₁.trans hread.turn).trans hreach₂).trans hwritten.turn,
    stack_stopEvent.trans stack_stopEvent⟩

end OnTop

/-! ## After the call -/

/-- What has become of an action that was pending when the descriptor was closed or aborted: `ch₀`
is the state before the call, `ch₁` the state that the call has led to.  The call of `clear_events`
is under way, or the waiter has been canceled, or the action has failed with the error that the
descriptor has had in a state since. -/
def Answered (filter : ExceptionFilter) (ch₀ ch₁ ch : FileDescr) (w : Waiter) : Prop :=
  w = .pending ∧ UnderWay ch₀.actions.length ch₀.stack ch ∨ w = .canceled ∨
    ∃ e mid, Reach (step filter) (fun ch op => keepsClosed filter ch op = true) ch₁ mid ∧
      Reach (step filter) (fun ch op => keepsClosed filter ch op = true) mid ch ∧
      checkDescriptor mid.state = .error e ∧ w = .rejected e

/-- What holds after the call. -/
structure After (filter : ExceptionFilter) (ch₀ ch₁ ch : FileDescr) : Prop where
  reach : Reach (step filter) (fun ch op => keepsClosed filter ch op = true) ch₁ ch
  inv : ∃ d, Inv filter ch d
  state : ch.state ≠ .opened
  closed : ch₁.state = .closed → ch.state = .closed
  runs : ch.runs = ch₀.runs
  actions : ch₀.state ≠ .closed → ∀ (i : ℕ) a, ch₀.actions[i]? = some a → a.waiter = .pending →
    ∃ a', ch.actions[i]? = some a' ∧ Answered filter ch₀ ch₁ ch a'.waiter

namespace After

variable {ch₀ ch₁ : FileDescr}

theorem step (h : After filter ch₀ ch₁ ch) (hstep : step filter ch op = some ch')
    (hop : keepsClosed filter ch op = true) : After filter ch₀ ch₁ ch' := by
  obtain ⟨d, hinv⟩ := h.inv
  have hfails := Fails.step hinv h.state hstep hop
  have hreach := h.reach.tail op hop hstep
  refine ⟨hreach, hinv.step hstep fun e he hclosed => ?_, hfails.state,
    fun hclosed => hfails.closed (h.closed hclosed), hfails.runs.trans h.runs,
    fun hclosed i a ha hpending => ?_⟩
  · subst he
    simpa [keepsClosed, hclosed] using hop
  · obtain ⟨b, hb, hanswered⟩ := h.actions hclosed i a ha hpending
    obtain ⟨b', hb', hw⟩ := hfails.actions i b hb
    refine ⟨b', hb', ?_⟩
    rcases hw with hsame | ⟨-, hcanceled | ⟨e, he, hrejected⟩⟩
    · rw [hsame]
      rcases hanswered with ⟨hpending', hunderway⟩ | hcanceled | ⟨e, mid, hbefore, hafter, he, hw⟩
      · rcases hunderway.step hinv hstep hop with hunderway' | hsettled
        · exact .inl ⟨hpending', hunderway'⟩
        · -- the call of `clear_events` is over, and has come to all the actions
          have hlt := (List.getElem?_eq_some_iff.mp ha).1
          exact absurd (hsame.trans hpending') (hsettled i b' hlt hb')
      · exact .inr (.inl hcanceled)
      · exact .inr (.inr ⟨e, mid, hbefore, hafter.tail op hop hstep, he, hw⟩)
    · exact .inr (.inl hcanceled)
    · exact .inr (.inr ⟨e, ch', hreach, .refl, he, hrejected⟩)

theorem clearEvents (hinv : Inv filter ch d) {state : State} (hstate : state ≠ .opened)
    (hplain : ∀ e, state = .aborted e → plain filter e = true) :
    After filter ch { ch with state := state }.clearEvents
      { ch with state := state }.clearEvents := by
  refine ⟨.refl, ⟨d, hinv.clearEvents hstate hplain⟩, hstate, id, rfl, fun _ i a ha hpending => ?_⟩
  exact ⟨a, ha, .inl ⟨hpending, _, _, _, List.suffix_rfl⟩⟩

theorem of_closed (hinv : Inv filter ch d) (hclosed : ch.state = .closed) :
    After filter ch ch ch := by
  refine ⟨.refl, ⟨d, hinv⟩, ?_, id, rfl, fun hne => absurd hclosed hne⟩
  rw [hclosed]
  exact nofun

theorem of_call (hinv : Inv filter ch d) (hop : op = .close ∨ ∃ e, op = .abort e)
    (hkeeps : keepsClosed filter ch op = true) (hstep : Descriptor.step filter ch op = some ch') :
    After filter ch ch' ch' := by
  rcases hop with rfl | ⟨e, rfl⟩
  · obtain ⟨-, hstep⟩ := Option.ite_none_right_eq_some.mp hstep
    cases hstep
    unfold close
    split
    · rename_i hclosed
      exact of_closed hinv hclosed
    · exact clearEvents hinv nofun nofun
  · obtain ⟨-, hstep⟩ := Option.ite_none_right_eq_some.mp hstep
    cases hstep
    unfold abort
    split
    · rename_i hclosed
      exact of_closed hinv hclosed
    · rename_i hclosed
      refine clearEvents hinv nofun fun e' he' => ?_
      rw [← State.aborted.inj he']
      simpa [keepsClosed, hclosed] using hkeeps

end After

theorem clear_events_returns (hinv : Inv filter ch d) {state : State} (hstate : state ≠ .opened)
    (hplain : ∀ e, state = .aborted e → plain filter e = true) :
    ∃ ch', Reach (step filter) (fun _ op => returns op = true)
      { ch with state := state }.clearEvents ch' ∧ ch'.stack = ch.stack := by
  obtain ⟨l, hl⟩ := hinv.linked.lists .read
  have htop : OnTop filter { ch with state := state }.clearEvents d ch.actions.length .read l l
      (ch.hooks.next (header .read)) false ch.stack :=
    ⟨hinv.clearEvents hstate hplain, Sequences.Passes.starts hinv.linked.represents hl, rfl⟩
  exact htop.ends

theorem call_returns (hinv : Inv filter ch d) (hop : op = .close ∨ ∃ e, op = .abort e)
    (hkeeps : keepsClosed filter ch op = true) (hstep : step filter ch op = some ch') :
    ∃ ch'', Reach (step filter) (fun _ op => returns op = true) ch' ch'' ∧
      ch''.stack = ch.stack := by
  rcases hop with rfl | ⟨e, rfl⟩
  · obtain ⟨-, hstep⟩ := Option.ite_none_right_eq_some.mp hstep
    cases hstep
    unfold close
    split
    · exact ⟨ch, .refl, rfl⟩
    · exact clear_events_returns hinv nofun nofun
  · obtain ⟨-, hstep⟩ := Option.ite_none_right_eq_some.mp hstep
    cases hstep
    unfold abort
    split
    · exact ⟨ch, .refl, rfl⟩
    · rename_i hclosed
      refine clear_events_returns hinv nofun fun e' he' => ?_
      rw [← State.aborted.inj he']
      simpa [keepsClosed, hclosed] using hkeeps

/-- In every run in which `abort` is only called with exceptions that make the actions fail, in
which no call of `wrap_syscall` that has waited executes its action on a descriptor that is not
opened, and in which no exception ends a call of `clear_events`: after `close` or `abort` no action
is executed, a descriptor that is closed stays closed, and the actions that were pending fail with
the error of the descriptor, if they are not canceled, before the call returns.  The call returns if
the callbacks do. -/
theorem closed_descriptor_fails {ch₀ ch₁ : FileDescr}
    (hbefore : Reach (step filter) (fun ch op => keepsClosed filter ch op = true) mkCh ch₀)
    (hop : op = .close ∨ ∃ e, op = .abort e) (hkeeps : keepsClosed filter ch₀ op = true)
    (hstep : step filter ch₀ op = some ch₁)
    (hafter : Reach (step filter) (fun ch op => keepsClosed filter ch op = true) ch₁ ch) :
    ch.state ≠ .opened ∧ (ch₁.state = .closed → ch.state = .closed) ∧ ch.runs = ch₀.runs ∧
      (ch₀.state ≠ .closed → ∀ (i : ℕ) a, ch₀.actions[i]? = some a → a.waiter = .pending →
        ∃ a', ch.actions[i]? = some a' ∧ Answered filter ch₀ ch₁ ch a'.waiter) ∧
      ∃ ch', Reach (step filter) (fun _ op => returns op = true) ch₁ ch' ∧
        ch'.stack = ch₀.stack := by
  obtain ⟨d, hinv⟩ : ∃ d, Inv filter ch₀ d := by
    refine hbefore.invariant (P := fun ch => ∃ d, Inv filter ch d) (inv_mkCh filter) ?_
    rintro ch op ch' ⟨d, hinv⟩ hkeeps hstep
    refine hinv.step hstep fun e he hclosed => ?_
    subst he
    simpa [keepsClosed, hclosed] using hkeeps
  have hcall := After.of_call hinv hop hkeeps hstep
  have hend : After filter ch₀ ch₁ ch :=
    hafter.invariant (P := After filter ch₀ ch₁) hcall fun ch op ch' h hkeeps hstep =>
      h.step hstep hkeeps
  exact ⟨hend.state, hend.closed, hend.runs, hend.actions, call_returns hinv hop hkeeps hstep⟩

/-- A read and a write are waiting. -/
def twoWaiting : FileDescr := (mkCh.registerAction .read).registerAction .write

/-- A read and a write that wait, of which the callbacks of the first cancel the second. -/
theorem closed_descriptor_fails_canceled :
    ∃ ch₀ ch₁ ch, replay (step .handleAll) mkCh [.registerAction .read, .registerAction .write] =
        some ch₀ ∧ step .handleAll ch₀ .close = some ch₁ ∧
      replay (step .handleAll) ch₁ [.turn (.ok ()), .cancel [1], .leave, .leave] = some ch ∧
      ch.runs = ch₀.runs ∧ ∃ a, ch.actions[0]? = some a ∧
        Answered .handleAll ch₀ ch₁ ch a.waiter := by
  obtain ⟨ch₁, ch, hclose, hafter⟩ : ∃ ch₁ ch, step .handleAll twoWaiting .close = some ch₁ ∧
      replay (checked (step .handleAll) (keepsClosed .handleAll)) ch₁
        [.turn (.ok ()), .cancel [1], .leave, .leave] = some ch := ⟨_, _, rfl, rfl⟩
  have hbefore : replay (checked (step .handleAll) (keepsClosed .handleAll)) mkCh
      [.registerAction .read, .registerAction .write] = some twoWaiting := rfl
  obtain ⟨-, -, hruns, hanswered, -⟩ := closed_descriptor_fails (reach_of_checked _ hbefore)
    (.inl rfl) rfl hclose (reach_of_checked _ hafter)
  refine ⟨twoWaiting, ch₁, ch, rfl, hclose, ?_, hruns, hanswered nofun 0 _ rfl rfl⟩
  cases hclose
  exact hafter.symm ▸ rfl

end Lwt.Descriptor
