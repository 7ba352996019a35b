import Lwt.Promise.Cancel
import Lwt.Promise.Entries
import Lwt.Promise.Layers

/-!
# Callbacks see the storage of their attachment

Each attachment takes a snapshot of the storage (`Attaches`), and the functions that call a
callback put it back first.  For regular callbacks the snapshot is part of the callback
itself.  A cancel callback is known by its mark only, so `step_attaches` follows the entries
of all records from step to step.
-/

namespace Lwt

open Heap Table Transition

variable {U : Type} {c c' : Config U} {a : Label U}

/-! ## What a callback has saved and calls -/

/-- The storage that a callback has saved. -/
def Callback.snapshot : Callback U → Option (Storage U)
  | .compose _ storage _ _ | .observe storage _ _ => some storage
  | .join _ => none

/-- The function that is called after the storage has been restored. -/
def Compose.function : Compose U → Option U
  | .pass => none
  | .proxy f | .map f => some f

def Observe.function : Observe U → Option U
  | .hooked f | .hookedUnit f => some f
  | .ignore | .bare _ | .hook => none

/-- The user function that a callback calls with the result `r` after it has restored the
storage. -/
def Callback.function (r : Result U) : Callback U → Option U
  | .compose _ _ onFulfilled onRejected =>
    match r with
    | .fulfilled _ => onFulfilled.function
    | .rejected _ => onRejected.function
  | .observe _ onFulfilled onRejected =>
    match r with
    | .fulfilled _ => onFulfilled.function
    | .rejected _ => onRejected.function
  | .join _ => none

/-- The callback calls a function without restoring the storage: the handler of `dont_wait`,
or the hook of `async` and `ignore_result`. -/
def Callback.unrestored (r : Result U) : Callback U → Bool
  | .observe _ onFulfilled onRejected =>
    match r, onFulfilled, onRejected with
    | .fulfilled _, .bare _, _ | .fulfilled _, .hook, _ => true
    | .rejected _, _, .bare _ | .rejected _, _, .hook => true
    | _, _, _ => false
  | _ => false

/-- The user function of a combinator for the result `r`, as its caller passed it. -/
def Combinator.function (r : Result U) : Combinator U → Option U
  | .bind f | .map f | .onSuccess f => match r with
      | .fulfilled _ => some f
      | .rejected _ => none
  | .catch' h | .onFailure h => match r with
      | .fulfilled _ => none
      | .rejected _ => some h
  | .tryBind f h | .onAny f h => match r with
      | .fulfilled _ => some f
      | .rejected _ => some h
  | .onTermination f => some f
  | .noCancel | .dontWait _ | .async | .ignoreResult => none

theorem function_callback (k : Combinator U) (p : Pid) (storage : Storage U) (r : Result U) :
    (k.callback p storage).function r = k.function r := by
  cases k <;> cases r <;> rfl

theorem snapshot_callback (k : Combinator U) (p : Pid) (storage : Storage U) :
    (k.callback p storage).snapshot = some storage := by
  cases k <;> rfl

/-- A callback that calls a user function restores its snapshot first. -/
theorem runCallback_function {r : Result U} {callback : Callback U} {f : U}
    (hf : callback.function r = some f) : ∃ argument,
      (runCallback c r callback).control = .user (.start f argument) ∧
      callback.snapshot = some (runCallback c r callback).storage := by
  cases callback with
  | compose target storage onFulfilled onRejected =>
    cases r with
    | fulfilled v =>
      cases onFulfilled with
      | pass => simp [Callback.function, Compose.function] at hf
      | proxy f' =>
        obtain rfl : f' = f := by simpa [Callback.function, Compose.function] using hf
        exact ⟨v, rfl, rfl⟩
      | map f' =>
        obtain rfl : f' = f := by simpa [Callback.function, Compose.function] using hf
        exact ⟨v, rfl, rfl⟩
    | rejected e =>
      cases onRejected with
      | pass => simp [Callback.function, Compose.function] at hf
      | proxy f' =>
        obtain rfl : f' = f := by simpa [Callback.function, Compose.function] using hf
        exact ⟨.exn e, rfl, rfl⟩
      | map f' =>
        obtain rfl : f' = f := by simpa [Callback.function, Compose.function] using hf
        exact ⟨.exn e, rfl, rfl⟩
  | observe storage onFulfilled onRejected =>
    cases r with
    | fulfilled v =>
      cases onFulfilled with
      | hooked f' =>
        obtain rfl : f' = f := by simpa [Callback.function, Observe.function] using hf
        exact ⟨v, rfl, rfl⟩
      | hookedUnit f' =>
        obtain rfl : f' = f := by simpa [Callback.function, Observe.function] using hf
        exact ⟨.unit, rfl, rfl⟩
      | _ => simp [Callback.function, Observe.function] at hf
    | rejected e =>
      cases onRejected with
      | hooked f' =>
        obtain rfl : f' = f := by simpa [Callback.function, Observe.function] using hf
        exact ⟨.exn e, rfl, rfl⟩
      | hookedUnit f' =>
        obtain rfl : f' = f := by simpa [Callback.function, Observe.function] using hf
        exact ⟨.unit, rfl, rfl⟩
      | _ => simp [Callback.function, Observe.function] at hf
  | join j => simp [Callback.function] at hf

/-! ## Attachments -/

/-- What is attached in a step has saved the storage before the step, and has a number of its
own. -/
structure Attaches (c c' : Config U) : Prop where
  le : c.nextNode ≤ c'.nextNode
  node : ∀ node, .attached node ∈ c'.trace → .attached node ∈ c.trace ∨
    (c.nextNode ≤ node.id ∧ node.id < c'.nextNode ∧
      ∀ storage, node.callback.snapshot = some storage → storage = c.storage)
  entry : ∀ entry : Entry U, c'.store.Has entry → c.store.Has entry ∨
    (c.nextNode ≤ entry.mark.id ∧ entry.mark.id < c'.nextNode ∧ entry.storage = c.storage)

theorem Act.attached {g : Guard U} {s s' : Store U} (hact : Act g s s') :
    s.nextNode ≤ s'.nextNode ∧ ∀ node, .attached node ∈ s'.trace → .attached node ∈ s.trace ∨
      (s.nextNode ≤ node.id ∧ node.id < s'.nextNode) := by
  have hattach : ∀ {t : Store U} {u : Pid} {callback : Callback U} {node : Node U},
      .attached node ∈ (t.attach u callback).trace → .attached node ∈ t.trace ∨
        (t.nextNode ≤ node.id ∧ node.id < t.nextNode + 1) := by
    intro t u callback node hmem
    rcases List.mem_cons.mp hmem with heq | hmem
    · obtain rfl : node = ⟨t.nextNode, u, callback⟩ := by simpa using heq
      exact .inr ⟨le_rfl, Nat.lt_succ_self _⟩
    · exact .inl hmem
  cases hact with
  | attachCompose => exact ⟨Nat.le_succ _, fun node hmem => hattach hmem⟩
  | attachObserve => exact ⟨Nat.le_succ _, fun node hmem => hattach hmem⟩
  | joinAttach => exact ⟨Nat.le_succ _, fun node hmem => hattach hmem⟩
  | allocInitial hinit =>
    refine ⟨Nat.le_add_right _ _, fun node hmem => .inl ?_⟩
    rcases hinit with ⟨-, rfl⟩ | ⟨_, -, rfl⟩
    · exact hmem
    · simpa using hmem
  | newProtection =>
    exact ⟨Nat.le_succ _, fun node hmem => .inl (by simpa [Store.attachCancel] using hmem)⟩
  | addUserCancel =>
    exact ⟨Nat.le_succ _, fun node hmem => .inl (by simpa [Store.attachCancel] using hmem)⟩
  | @note e he =>
    refine ⟨le_rfl, fun node hmem => .inl ?_⟩
    rcases List.mem_cons.mp hmem with rfl | hmem
    · exact he.elim
    · exact hmem
  | _ =>
    exact ⟨le_rfl, fun node hmem => .inl (by
      first | exact hmem | simpa [Store.resolve, Store.clear] using hmem)⟩

theorem Acts.attached {g : Guard U} {s s' : Store U} (hs : Sound s) (hacts : Acts g s s') :
    s.nextNode ≤ s'.nextNode ∧
    (∀ node, .attached node ∈ s'.trace → .attached node ∈ s.trace ∨
      (s.nextNode ≤ node.id ∧ node.id < s'.nextNode)) ∧
    ∀ entry : Entry U, s'.Has entry → s.Has entry ∨
      (s.nextNode ≤ entry.mark.id ∧ entry.mark.id < s'.nextNode) := by
  induction hacts with
  | refl => exact ⟨le_rfl, fun _ => .inl, fun _ => .inl⟩
  | @tail t s' hacts hact ih =>
    obtain ⟨hle, hnode, hentry⟩ := ih
    obtain ⟨hle', hnode'⟩ := hact.attached
    refine ⟨hle.trans hle', fun node hmem => ?_, fun entry hhas => ?_⟩
    · rcases hnode' node hmem with hmem | ⟨hge, hlt⟩
      · exact (hnode node hmem).imp_right fun h => ⟨h.1, h.2.trans_le hle'⟩
      · exact .inr ⟨hle.trans hge, hlt⟩
    · rcases hact.has (Acts.sound hs hacts).wellFormed hhas with hhas | ⟨hid, hnext, -⟩
      · exact (hentry entry hhas).imp_right fun h => ⟨h.1, h.2.trans_le hle'⟩
      · exact .inr ⟨hle.trans hid.ge, by omega⟩

namespace Attaches

variable {c₁ : Config U}

theorem trans (h : Attaches c c₁) (h' : Attaches c₁ c') (hstorage : c₁.storage = c.storage) :
    Attaches c c' := by
  refine ⟨h.le.trans h'.le, fun node hmem => ?_, fun entry hhas => ?_⟩
  · rcases h'.node node hmem with hmem | ⟨hge, hlt, hsaved⟩
    · exact (h.node node hmem).imp_right fun hnew => ⟨hnew.1, hnew.2.1.trans_le h'.le, hnew.2.2⟩
    · exact .inr ⟨h.le.trans hge, hlt, hstorage ▸ hsaved⟩
  · rcases h'.entry entry hhas with hhas | ⟨hge, hlt, hsaved⟩
    · exact (h.entry entry hhas).imp_right fun hnew => ⟨hnew.1, hnew.2.1.trans_le h'.le, hnew.2.2⟩
    · exact .inr ⟨h.le.trans hge, hlt, hsaved.trans hstorage⟩

theorem of_has (hnext : c'.nextNode = c.nextNode)
    (hnode : ∀ node, .attached node ∈ c'.trace → .attached node ∈ c.trace)
    (hentry : ∀ entry : Entry U, c'.store.Has entry → c.store.Has entry) : Attaches c c' :=
  ⟨hnext.ge, fun node hmem => .inl (hnode node hmem), fun entry hhas => .inl (hentry entry hhas)⟩

end Attaches

section Functions

variable (c)

theorem attaches_follow (hwf : c.heap.WellFormed) (p : Pid) : Attaches c (c.follow p) :=
  .of_has rfl (fun _ h => h) fun _ hhas =>
    hhas.imp_left fun h => h.of_compressed hwf (compressed_compress hwf p)

theorem attaches_alloc (how : HowToCancel) : Attaches c (c.alloc (newPending how)) :=
  .of_has rfl (fun _ h => h) fun _ hhas => hhas.imp_left Heap.Has.of_append_newPending

theorem attaches_attachCallback (u : Pid) {callback : Callback U}
    (hsaved : ∀ storage, callback.snapshot = some storage → storage = c.storage) :
    Attaches c (c.attachCallback u callback) := by
  refine ⟨Nat.le_succ _, fun node hmem => ?_, fun entry hhas =>
    .inl (hhas.imp_left Heap.Has.of_attach)⟩
  rcases List.mem_cons.mp hmem with heq | hmem
  · obtain rfl : node = ⟨c.nextNode, u, callback⟩ := by simpa using heq
    exact .inr ⟨le_rfl, Nat.lt_succ_self _, hsaved⟩
  · exact .inl hmem

theorem has_attachCancelCallback {u : Pid} {f : CancelCallback U} {entry : Entry U}
    (hhas : (c.attachCancelCallback u f).store.Has entry) :
    entry = ⟨⟨c.nextNode, u⟩, c.storage, f⟩ ∨ c.store.Has entry := by
  rcases hhas with hheap | hwork
  · exact hheap.of_attachCancel.imp_right .inl
  · exact .inr (.inr hwork)

theorem attaches_attachCancelCallback (u : Pid) (f : CancelCallback U) :
    Attaches c (c.attachCancelCallback u f) := by
  refine ⟨Nat.le_succ _, fun node hmem => .inl ?_, fun entry hhas => ?_⟩
  · simpa [Config.attachCancelCallback] using hmem
  · rcases has_attachCancelCallback c hhas with rfl | hhas
    · exact .inr ⟨le_rfl, Nat.lt_succ_self _, rfl⟩
    · exact .inl hhas

theorem attaches_attachCell (hwf : c.heap.WellFormed) (kind : CellKind) (how : HowToCancel)
    (ps : List Pid) : Attaches c (attachCell c kind how ps) := by
  have hwf' : Heap.WellFormed (c.heap ++ [newPending how]) :=
    wellFormed_append hwf (isUnderlying_newPending how)
  unfold attachCell
  dsimp only
  split
  · rename_i heap hadd
    exact .of_has rfl (fun _ h => h) fun _ hhas => hhas.imp_left fun h =>
      (h.of_addCellToEach hwf' hadd).of_append_newPending
  · exact .of_has rfl (fun _ h => h) fun _ hhas => hhas.imp_left Heap.Has.of_append_newPending

theorem attachTo_attaches (hwf : c.heap.WellFormed) (k : Combinator U) (p : Pid) :
    (attachTo c k p).nextNode = c.nextNode ∨ Attaches c (attachTo c k p) := by
  have hrun : ∀ given u r i, (runImmediate (c.follow p) given u r i).nextNode = c.nextNode := by
    intro given u r i
    cases i with
    | observe o => cases o <;> rfl
    | reraise => cases r <;> rfl
    | _ => rfl
  have hsaved : ∀ p'' storage, (k.callback p'' c.storage).snapshot = some storage →
      storage = c.storage := by
    intro p'' storage h
    rw [snapshot_callback] at h
    exact (Option.some.inj h).symm
  unfold attachTo
  dsimp only
  split
  · exact .inl (hrun _ _ _ _)
  · exact .inl (hrun _ _ _ _)
  · refine .inr ?_
    split
    · rename_i how _
      have h := ((attaches_follow c hwf p).trans (attaches_alloc (c.follow p) how) rfl).trans
        (attaches_attachCallback _ (c.heap.root p) (hsaved (c.follow p).heap.length)) rfl
      exact ⟨h.le, h.node, h.entry⟩
    · have h := (attaches_follow c hwf p).trans
        (attaches_attachCallback _ (c.heap.root p) (hsaved (c.heap.root p))) rfl
      exact ⟨h.le, h.node, h.entry⟩
  · exact .inl rfl

theorem onCancel_attaches (hwf : c.heap.WellFormed) (p : Pid) (f : U) :
    (onCancel c p f).nextNode = c.nextNode ∨ Attaches c (onCancel c p f) := by
  unfold onCancel
  dsimp only
  split
  · exact .inl rfl
  · have h := (attaches_follow c hwf p).trans
      (attaches_attachCancelCallback _ (c.heap.root p) (.user f)) rfl
    exact .inr ⟨h.le, h.node, h.entry⟩
  · exact .inl rfl

theorem protected_attaches (hwf : c.heap.WellFormed) (p : Pid) :
    (protected' c p).nextNode = c.nextNode ∨ Attaches c (protected' c p) := by
  unfold protected'
  dsimp only
  split
  · have hwf' : (c.follow p).heap.WellFormed := (compressed_compress hwf p).wellFormed hwf
    have hcell := attaches_attachCell (c.follow p) hwf' .protection .cancelThisPromise [p]
    have hstorage := (works_attachCell (c.follow p) .protection .cancelThisPromise [p]).storage
    exact .inr (((attaches_follow c hwf p).trans hcell rfl).trans
      (attaches_attachCancelCallback _ _ _) hstorage)
  · exact .inl rfl

theorem attaches_attachCallbackOrNoteResult (hwf : c.heap.WellFormed) (j : ℕ) (p : Pid) :
    Attaches c (attachCallbackOrNoteResult c j p) := by
  unfold attachCallbackOrNoteResult
  dsimp only
  split
  · have hsaved : ∀ storage, (Callback.join j : Callback U).snapshot = some storage →
        storage = c.storage := by simp [Callback.snapshot]
    have h := (attaches_follow c hwf p).trans
      (attaches_attachCallback (c.follow p) (c.heap.root p) hsaved) rfl
    exact ⟨h.le, h.node, h.entry⟩
  · have h := attaches_follow c hwf p
    exact ⟨h.le, h.node, h.entry⟩
  · exact attaches_follow c hwf p

theorem attaches_attachCallbackOrResolveImmediately (hwf : c.heap.WellFormed) (j : ℕ)
    (ps : List Pid) : Attaches c (attachCallbackOrResolveImmediately c j ps) := by
  induction ps generalizing c with
  | nil =>
    unfold attachCallbackOrResolveImmediately
    split
    · split
      · exact .of_has rfl (fun _ h => h) fun _ hhas => hhas.imp_left fun h =>
          h.of_append (by simp)
      · exact .of_has rfl (fun _ h => h) fun _ h => h
    · exact .of_has rfl (fun _ h => h) fun _ h => h
  | cons p ps ih =>
    have hone := attaches_attachCallbackOrNoteResult c hwf j p
    have hstorage : (attachCallbackOrNoteResult c j p).storage = c.storage := by
      unfold attachCallbackOrNoteResult
      dsimp only
      split
      · rfl
      · rfl
      · rfl
    have hwf' : (attachCallbackOrNoteResult c j p).heap.WellFormed := by
      have hcomp := compressed_compress hwf p
      unfold attachCallbackOrNoteResult
      dsimp only
      split
      · exact (similar_modifyPending fun callbacks =>
          howToCancel_addImplicitlyRemovedCallback _ callbacks).wellFormed (hcomp.wellFormed hwf)
      · exact hcomp.wellFormed hwf
      · exact hcomp.wellFormed hwf
    exact hone.trans (ih _ hwf') hstorage

theorem attaches_join (hwf : c.heap.WellFormed) (ps : List Pid) : Attaches c (join c ps) := by
  have hwf' : Heap.WellFormed (c.heap ++ [newPending (.propagateCancelToSeveral ps)]) :=
    wellFormed_append hwf (isUnderlying_newPending _)
  have h := attaches_attachCallbackOrResolveImmediately
    { c.alloc (newPending (.propagateCancelToSeveral ps)) with
      joins := c.joins ++ [Join.mk c.heap.length 0 (.fulfilled .unit) true] } hwf' c.joins.length ps
  exact (attaches_alloc c (.propagateCancelToSeveral ps)).trans ⟨h.le, h.node, h.entry⟩ rfl

theorem attaches_addTask (add : Sequences Pid → Pid → ℕ → Sequences Pid) (seq : ℕ) :
    Attaches c (addTask add c seq) := by
  refine ⟨Nat.le_succ _, fun node hmem => .inl ?_, fun entry hhas => .inl ?_⟩
  · simpa [addTask, Config.ret] using hmem
  · refine hhas.imp_left fun h => h.of_append ?_
    rintro callbacks heq
    cases heq
    exact fun h => h

theorem attaches_pause : Attaches c (pause c) := by
  have htask := attaches_addTask c Sequences.addR paused
  unfold pause
  dsimp only
  split
  · exact ⟨htask.le, htask.node, htask.entry⟩
  · rename_i f _
    refine ⟨htask.le, fun node hmem => htask.node node
      (by simpa [Config.apply, Config.push] using hmem),
      fun entry hhas => htask.entry entry ?_⟩
    refine hhas.imp_right ?_
    rintro ⟨w, hw, hentry⟩
    refine ⟨w, ?_, hentry⟩
    simpa [Config.store, Config.apply, Config.push, Frame.work] using hw

theorem execute_attaches (hwf : c.heap.WellFormed) (o : Op U) :
    (execute c o).nextNode = c.nextNode ∨ Attaches c (execute c o) := by
  cases o with
  | attach k p => exact attachTo_attaches c hwf k p
  | onCancel p f => exact onCancel_attaches c hwf p f
  | protected' p => exact protected_attaches c hwf p
  | join ps => exact .inr (attaches_join c hwf ps)
  | addTaskR seq => exact .inr (attaches_addTask c _ seq)
  | addTaskL seq => exact .inr (attaches_addTask c _ seq)
  | pause => exact .inr (attaches_pause c)
  | choose ps random => exact .inl (works_choose c ps random).nextNode
  | pick ps random => exact .inl (works_pick c ps random).nextNode
  | nchoose ps => exact .inl (works_nchoose c ps).nextNode
  | npick ps => exact .inl (works_npick c ps).nextNode
  | nchooseSplit ps => exact .inl (works_nchooseSplit c ps).nextNode
  | cancel p => exact .inl rfl
  | wakeupGeneral name p r => exact .inl (works_wakeupWith c _ _ _ _).nextNode
  | wakeupLaterGeneral name p r => exact .inl (works_wakeupWith c _ _ _ _).nextNode
  | poll p => exact .inl (works_poll c p).nextNode
  | wakeupPaused => exact .inl (works_wakeupPaused c).nextNode
  | abandonWakeups =>
    simp only [execute]
    split
    · exact .inl rfl
    · exact .inl rfl
  | takeL seq => exact .inl (works_take c _).nextNode
  | takeR seq => exact .inl (works_take c _).nextNode
  | _ => exact .inl rfl

theorem nextNode_runCallback (r : Result U) (callback : Callback U) :
    (runCallback c r callback).nextNode = c.nextNode := by
  have hcompose : ∀ target storage (k : Compose U),
      (runCompose c target storage r k).nextNode = c.nextNode := by
    intro target storage k
    cases k with
    | pass => exact (works_resolveUnderlying c target r).nextNode
    | _ => rfl
  have hobserve : ∀ storage (k : Observe U), (runObserve c storage r k).nextNode = c.nextNode := by
    intro storage k
    cases k <;> rfl
  cases callback with
  | compose target storage onFulfilled onRejected =>
    cases r with
    | fulfilled v => exact hcompose _ _ _
    | rejected e => exact hcompose _ _ _
  | observe storage onFulfilled onRejected =>
    cases r with
    | fulfilled v => exact hobserve _ _
    | rejected e => exact hobserve _ _
  | join j => exact (works_runJoin c j r).nextNode

variable {c}

theorem nextNode_returnTo {v : Val U} {frame : Frame U} (hframe : ∀ k, frame ≠ .attach k)
    (hret : returnTo c v frame = some c') : c'.nextNode = c.nextNode := by
  by_cases hsteady : frame.steady = true
  · exact (works_returnTo c hsteady hret).nextNode
  · cases frame with
    | attach k => exact absurd rfl (hframe k)
    | runCancelCallbacks todo =>
      cases hret
      unfold runCancelCallbacks
      split <;> rfl
    | runRegularCallbacks todo r =>
      cases hret
      unfold runRegularCallbacks
      split
      · rfl
      · rfl
      · rfl
      · exact nextNode_runCallback _ _ _
      · dsimp only
        split
        · split
          · exact (works_runCellBody _ _ _).nextNode
          · rfl
        · rfl
    | leaveResolutionLoop snapshot =>
      simp only [returnTo] at hret
      split at hret
      · cases hret
        rfl
      · cases hret
        rfl
    | drain snapshot =>
      simp only [returnTo] at hret
      split at hret
      · cases hret
        rfl
      · cases hret
        rfl
    | user | guardFail | hooked | runCallbacks | withValue =>
      cases hret
      rfl
    | _ => exact absurd rfl hsteady

variable (c)

theorem nextNode_raiseTo (e : Exn U) (frame : Frame U) :
    (raiseTo c e frame).nextNode = c.nextNode := by
  by_cases hsteady : frame.steady = true
  · exact (works_raiseTo c e hsteady).nextNode
  · cases frame with
    | guardFail | hooked | withValue =>
      simp only [raiseTo]
      split
      · rfl
      · rfl
    | user | attach | runCallbacks | runCancelCallbacks | runRegularCallbacks
    | leaveResolutionLoop | drain => rfl
    | _ => exact absurd rfl hsteady

end Functions

/-- Attachments are made by the user code that has control, or, in `catch` and the like, when
the user function has returned a promise. -/
theorem nextNode_cases (hstep : step c a = some c') (hnext : c'.nextNode ≠ c.nextNode) :
    (∃ s, c.control = .user s) ∨ ∃ k stack, c.stack = .attach k :: stack := by
  rcases step_cases hstep with ⟨s, m, hcontrol, -⟩ |
    ⟨v, frame, stack, -, hstack, -, hret⟩ | ⟨e, frame, stack, -, -, -, rfl⟩
  · exact .inl ⟨s, hcontrol⟩
  · refine .inr ?_
    by_contra hnot
    have hframe : ∀ k, frame ≠ .attach k := fun k hk => hnot ⟨k, stack, hk ▸ hstack⟩
    have hsame := nextNode_returnTo hframe hret
    exact hnext hsame
  · exact absurd (nextNode_raiseTo { c with stack := stack } e frame) hnext

theorem step_attaches (hs : Sound c.store) (halive : c'.control ≠ .crash)
    (hstep : step c a = some c') : Attaches c c' := by
  by_cases hnext : c'.nextNode = c.nextNode
  -- no number is given away: the nodes are those the store had
  · obtain ⟨s', hacts, hend⟩ := step_sim hs (permits_true c a) hstep
    rcases hend with ⟨hcrash, -⟩ | ⟨-, rfl⟩
    · exact absurd hcrash halive
    · obtain ⟨-, hnode, hentry⟩ := hacts.attached hs
      have hnext' : c'.store.nextNode = c.store.nextNode := hnext
      refine .of_has hnext (fun node hmem => ?_) fun entry hhas => ?_
      · exact (hnode node hmem).resolve_right fun h => by omega
      · exact (hentry entry hhas).resolve_right fun h => by omega
  · rcases step_cases hstep with ⟨s, m, hcontrol, rfl, huser⟩ |
      ⟨v, frame, stack, hcontrol, hstack, rfl, hret⟩ | ⟨e, frame, stack, -, -, -, rfl⟩
    -- a number is given away only by a call, or by a frame that attaches
    · cases m with
      | call o u =>
        simp only [userStep] at huser
        split at huser
        · cases huser
          have h := (execute_attaches (c.push [.user u]) hs.wellFormed o).resolve_left hnext
          have hstore : (c.push [.user u]).store = c.store := by
            rw [store_push]
            simp [Frame.work]
          exact ⟨h.le, h.node, fun entry hhas => hstore ▸ h.entry entry hhas⟩
        · simp at huser
      | apply f argument u =>
        cases huser
        exact absurd rfl hnext
      | ret v =>
        simp only [userStep] at huser
        split at huser
        · simp at huser
        · split at huser
          · cases huser
            exact absurd rfl hnext
          · simp at huser
      | raise e =>
        simp only [userStep] at huser
        split at huser
        · simp at huser
        · cases huser
          exact absurd rfl hnext
    · by_cases hframe : ∃ k, frame = .attach k
      · obtain ⟨k, rfl⟩ := hframe
        have hstore : Config.store { c with stack := stack } = c.store := by
          rw [store_stack c hstack]
          simp [Frame.work]
        simp only [returnTo] at hret
        split at hret
        · split at hret
          · cases hret
            have h := (attachTo_attaches { c with stack := stack } hs.wellFormed k _).resolve_left
              hnext
            exact ⟨h.le, h.node, fun entry hhas => hstore ▸ h.entry entry hhas⟩
          · simp at hret
        · simp at hret
      · simp only [not_exists] at hframe
        have hsame := nextNode_returnTo hframe hret
        exact absurd hsame hnext
    · exact absurd (nextNode_raiseTo { c with stack := stack } e frame) hnext

/-! ## Calls of callbacks -/

/-- The next step calls the callback `node`. -/
def Config.AboutToCall (c : Config U) (node : Node U) (r : Result U) : Prop :=
  ∃ v rest stack, c.control = .ret v ∧
    c.stack = .runRegularCallbacks (.implicitlyRemoved node :: rest) r :: stack

/-- The next step calls the user's cancel callback `mark`. -/
def Config.AboutToCancel (c : Config U) (mark : Mark) : Prop :=
  ∃ v storage f rest stack, c.control = .ret v ∧
    c.stack = .runCancelCallbacks (.callback mark storage (.user f) :: rest) :: stack

/-- In every run from `c` on, the callback `node` calls the function of `k` with `storage`. -/
def RunsWith (c : Config U) (node : Node U) (k : Combinator U) (storage : Storage U) : Prop :=
  ∀ c₁ c₂ r f, Reach step (fun _ _ => True) c c₁ → c₁.AboutToCall node r → k.function r = some f →
    step c₁ .tau = some c₂ →
    c₂.storage = storage ∧ ∃ argument, c₂.control = .user (.start f argument)

/-- In every run from `c` on, the cancel callback `mark` calls `f` with `storage`. -/
def CancelRunsWith (c : Config U) (mark : Mark) (f : U) (storage : Storage U) : Prop :=
  ∀ c₁ c₂, Reach step (fun _ _ => True) c c₁ → c₁.AboutToCancel mark → step c₁ .tau = some c₂ →
    c₂.storage = storage ∧ c₂.control = .user (.start f .unit)

theorem regular_mem_work {l : RegularCallbackList U} {rest : List (RegularCallbackList U)}
    {r : Result U} {stack : List (Frame U)}
    (hstack : c.stack = .runRegularCallbacks (l :: rest) r :: stack) :
    .regular l r ∈ c.store.work := by
  have hframe : .runRegularCallbacks (l :: rest) r ∈ c.stack := by simp [hstack]
  exact mem_work_of_mem_stack hframe (by simp [Frame.work])

theorem cancels_mem_work {l : CancelCallbackList U} {rest : List (CancelCallbackList U)}
    {stack : List (Frame U)} (hstack : c.stack = .runCancelCallbacks (l :: rest) :: stack) :
    .cancels l ∈ c.store.work := by
  have hframe : .runCancelCallbacks (l :: rest) ∈ c.stack := by simp [hstack]
  exact mem_work_of_mem_stack hframe (by simp [Frame.work])

theorem step_aboutToCall {node : Node U} {r : Result U} (h : c.AboutToCall node r)
    (hstep : step c a = some c') : ∃ rest stack,
      c.stack = .runRegularCallbacks (.implicitlyRemoved node :: rest) r :: stack ∧
      c' = runCallback (({ c with stack := stack }.emit (.called node r)).push
        [.runRegularCallbacks rest r]) r node.callback := by
  obtain ⟨v, rest, stack, hcontrol, hstack⟩ := h
  exact ⟨rest, stack, hstack, (Option.some.inj (returnTo_of_step hcontrol hstack hstep)).symm⟩

theorem step_aboutToCancel {mark : Mark} (h : c.AboutToCancel mark)
    (hstep : step c a = some c') : ∃ (storage : Storage U) (f : U),
      c.store.Has ⟨mark, storage, .user f⟩ ∧ c'.storage = storage ∧
      c'.control = .user (.start f .unit) := by
  obtain ⟨v, storage, f, rest, stack, hcontrol, hstack⟩ := h
  cases returnTo_of_step hcontrol hstack hstep
  exact ⟨storage, f, .inr ⟨_, cancels_mem_work hstack, rfl⟩, rfl, rfl⟩

/-- The callback of `k` calls the function of `k` with the storage that it has saved. -/
theorem runsWith_callback {node : Node U} {k : Combinator U} {p : Pid} {storage : Storage U}
    (hnode : node.callback = k.callback p storage) (c : Config U) : RunsWith c node k storage := by
  intro c₁ c₂ r f _ hcall hf hstep
  obtain ⟨rest, stack, -, rfl⟩ := step_aboutToCall hcall hstep
  rw [← function_callback k p storage r, ← hnode] at hf
  obtain ⟨argument, hcontrol, hsaved⟩ := runCallback_function
    (c := ({ c₁ with stack := stack }.emit (.called node r)).push [.runRegularCallbacks rest r]) hf
  rw [hnode, snapshot_callback, ← hnode] at hsaved
  exact ⟨(Option.some.inj hsaved).symm, argument, hcontrol⟩

/-! ## Runs -/

/-- Everything attached has a number below the next one. -/
structure Fresh (c : Config U) : Prop where
  node : ∀ node, .attached node ∈ c.trace → node.id < c.nextNode
  entry : ∀ entry : Entry U, c.store.Has entry → entry.mark.id < c.nextNode

theorem Fresh.step (hfresh : Fresh c) (h : Attaches c c') : Fresh c' := by
  refine ⟨fun node hmem => ?_, fun entry hhas => ?_⟩
  · rcases h.node node hmem with hmem | ⟨-, hlt, -⟩
    · exact (hfresh.node node hmem).trans_le h.le
    · exact hlt
  · rcases h.entry entry hhas with hhas | ⟨-, hlt, -⟩
    · exact (hfresh.entry entry hhas).trans_le h.le
    · exact hlt

theorem not_has_initial (main hook : U) (entry : Entry U) :
    ¬ (initial main hook).store.Has entry := by
  rintro (⟨u, callbacks, hu, -⟩ | ⟨w, hw, -⟩)
  · simp [initial, Config.store] at hu
  · simp [initial, Config.store, queueWork] at hw

theorem fresh_initial (main hook : U) : Fresh (initial main hook) :=
  ⟨by simp [initial], fun entry hhas => absurd hhas (not_has_initial main hook entry)⟩

theorem step_sound (hs : Sound c.store) (halive : c'.control ≠ .crash)
    (hstep : step c a = some c') : Sound c'.store := by
  obtain ⟨s', hacts, hend⟩ := step_sim hs (permits_true c a) hstep
  rcases hend with ⟨hcrash, -⟩ | ⟨-, rfl⟩
  · exact absurd hcrash halive
  · exact hacts.sound hs

/-- An entry stays as it is: from `c` on the cancel callback `mark` calls `f` with `storage`. -/
theorem cancelRunsWith {mark : Mark} {f : U} {storage : Storage U} (hs : Sound c.store)
    (hlt : mark.id < c.nextNode)
    (honly : ∀ entry : Entry U, c.store.Has entry → entry.mark = mark →
      entry.storage = storage ∧ entry.function = .user f) : CancelRunsWith c mark f storage := by
  intro c₁ c₂ hrun hcancel hstep
  have hinv : c₁.control ≠ .crash → Sound c₁.store ∧ mark.id < c₁.nextNode ∧
      ∀ entry : Entry U, c₁.store.Has entry → entry.mark = mark →
        entry.storage = storage ∧ entry.function = .user f := by
    refine hrun.invariant (P := fun c₁ => c₁.control ≠ .crash → Sound c₁.store ∧
      mark.id < c₁.nextNode ∧ ∀ entry : Entry U, c₁.store.Has entry → entry.mark = mark →
        entry.storage = storage ∧ entry.function = .user f) (fun _ => ⟨hs, hlt, honly⟩) ?_
    intro c₁ a c₂ hinv _ hstep halive
    obtain ⟨hs, hlt, honly⟩ := hinv (control_ne_crash_of_step hstep)
    have hattaches := step_attaches hs halive hstep
    refine ⟨step_sound hs halive hstep, hlt.trans_le hattaches.le, fun entry hhas hmark => ?_⟩
    refine honly entry ((hattaches.entry entry hhas).resolve_right fun hnew => ?_) hmark
    rw [hmark] at hnew
    omega
  obtain ⟨-, -, honly⟩ := hinv (control_ne_crash_of_step hstep)
  obtain ⟨storage', f', hhas, hstorage, hcontrol⟩ := step_aboutToCancel hcancel hstep
  obtain ⟨rfl, hf⟩ := honly _ hhas rfl
  obtain rfl : f' = f := by simpa using hf
  exact ⟨hstorage, hcontrol⟩

end Lwt
