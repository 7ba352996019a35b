import Lwt.Promise.Ownership
import Lwt.Promise.Script
import Lwt.Promise.Simulation

/-!
# No promise is resolved twice

The two places where a promise with an owner can be resolved by someone else.  The promise
of `protected` can be canceled, and relies on a cancel callback to take its owner away in
time; `npick` holds on to an underlying promise while it cancels others, and that promise
can be linked in the meantime.  `safeGuard` excludes both.  Under it every internal owner
finds its promise pending, in every reachable configuration, so that the machine never
crashes (`resolve_finds_pending`).
-/

namespace Lwt

open Heap Table Transition Multiset

variable {U : Type} {g : Guard U} {s s' : Store U}

/-- The callback of a `protected` is called before its promise is canceled, and a promise
that an `npick` holds on to is not linked. -/
def safeGuard : Guard U := fun s hazard =>
  match hazard with
  | .call i => ∀ cell, s.cells[i]? = some cell → cell.kind = .protection →
      ¬ s.heap.IsResolved (s.heap.root cell.target) (.rejected .canceled)
  | .link _ inner => ∀ r, .oweExact inner r ∉ s.work
  | _ => True

/-! ## The promises `npick` holds on to -/

/-- An `npick` holds on to promises that are still underlying promises. -/
def Held (s : Store U) : Prop := ∀ p r, .oweExact p r ∈ s.work → s.heap.root p = p

/-- An `npick` holds on to the underlying promise of its own. -/
theorem Act.oweExact_mem {p : Pid} {r : Result U} (hwf : s.heap.WellFormed) (hact : Act g s s')
    (hmem : .oweExact p r ∈ s'.work) : .oweExact p r ∈ s.work ∨ s'.heap.root p = p := by
  cases hact with
  | wake => exact .inl (by simpa [Store.resolve] using hmem)
  | cancelMark => exact .inl (by simpa [Store.resolve] using hmem)
  | runRecord hwork =>
    simp only [Callbacks.opened] at hmem
    split at hmem <;> exact .inl (by simpa [hwork] using hmem)
  | @callCell rest i cell r' hwork hcell hlive hkind hguard =>
    rcases mem_cons.mp hmem with heq | hmem
    · have hp : p = (s.clear i).heap.root cell.target := by
        unfold Cell.owed at heq
        split at heq <;> simp_all
      refine .inr ?_
      rw [hp]
      exact root_root ((Store.similar_clear hwf i).wellFormed hwf) cell.target
    · exact .inl (by simp [hwork, hmem])
  | callProtection hwork => exact .inl (by simpa [Store.resolve, Store.clear, hwork] using hmem)
  | settle hwork => exact .inl (by simpa [Store.resolve, hwork] using hmem)
  | settleExact hwork => 
    rcases mem_cons.mp hmem with heq | hmem
    · simp at heq
    · exact .inl (by rw [hwork]; exact mem_cons_of_mem hmem)
  | drop hguard hle => exact .inl (mem_of_le hle hmem)
  | _ => exact .inl (by simp_all [Store.attach, Store.attachCancel])

theorem Act.held (hwf : s.heap.WellFormed)
    (hlink : ∀ outer inner, g s (.link outer inner) → ∀ r, .oweExact inner r ∉ s.work)
    (hheld : Held s) (hact : Act g s s') : Held s' := by
  intro p r hmem
  rcases hact.oweExact_mem hwf hmem with hold | hroot
  · have hp := hheld p r hold
    rcases (hact.effect hwf).root_cases hwf with hsame | ⟨outer, inner, hg, -, -, -, hroot⟩
    · rw [hsame, hp]
    · rw [hroot, hp, if_neg]
      rintro rfl
      exact hlink outer p hg r hold
  · exact hroot


/-! ## The invariant -/

/-- Every promise has at most one owner, and owners find the promises they resolve. -/
structure Safe (s : Store U) : Prop where
  joined : Joined s
  owned : Owned s
  shielded : Shielded s
  held : Held s

theorem Act.safe (hs : Sound s)
    (hlink : ∀ outer inner, g s (.link outer inner) → ∀ r, .oweExact inner r ∉ s.work)
    (hsafe : Safe s) (hact : Act g s s') : Safe s' := by
  have htransfer := hact.transfer hs hsafe.joined
  exact ⟨hact.joined hs.wellFormed hsafe.joined, htransfer.owned hs.wellFormed hsafe.owned,
    htransfer.shielded hs.wellFormed hsafe.owned hsafe.shielded,
    hact.held hs.wellFormed hlink hsafe.held⟩

theorem mem_internal_of_work {w : Work U} {t : Pid} (hw : w ∈ s.work) (ht : t ∈ w.owed) :
    t ∈ s.internal := by
  obtain ⟨rest, hrest⟩ := exists_cons_of_mem hw
  simp only [Store.internal, hrest, map_cons, sum_cons, mem_add]
  exact .inl (.inl (.inr (.inl ht)))

theorem Safe.isPending_owe (hsafe : Safe s) {target : Pid} {promised : Option (Result U)}
    (hw : .owe target promised ∈ s.work) : s.heap.IsPending (s.heap.root target) := by
  obtain ⟨callbacks, hcb, -⟩ := hsafe.owned.pending target (mem_internal_of_work hw (by simp))
  exact ⟨callbacks, hcb⟩

theorem Safe.isPending_oweExact (hsafe : Safe s) {p : Pid} {r : Result U}
    (hw : .oweExact p r ∈ s.work) : s.heap.IsPending p := by
  obtain ⟨callbacks, hcb, -⟩ := hsafe.owned.pending p (mem_internal_of_work hw (by simp))
  rw [hsafe.held p r hw] at hcb
  exact ⟨callbacks, hcb⟩

theorem Safe.not_stuck (hsafe : Safe s)
    (hcall : ∀ i cell, g s (.call i) → s.cells[i]? = some cell → cell.kind = .protection →
      ¬ s.heap.IsResolved (s.heap.root cell.target) (.rejected .canceled)) : ¬ Stuck g s := by
  intro hstuck
  cases hstuck with
  | owe hw hp => exact hp (hsafe.isPending_owe hw)
  | oweExact hw hp => exact hp (hsafe.isPending_oweExact hw)
  | @protection i cell r hw hcell hlive hkind hg hp =>
    have hmem : cell.target ∈ s.protects :=
      mem_total.mpr ⟨i, cell, hcell, by simp [Cell.protects, hlive, hkind]⟩
    rcases hsafe.shielded cell.target hmem with hpending | hcanceled
    · exact hp hpending
    · exact hcall i cell hg hcell hkind hcanceled

theorem safe_initial (main hook : U) : Safe (initial main hook).store := by
  have hinternal : (initial main hook).store.internal = 0 := rfl
  have hinitials : (initial main hook).store.initials = 0 := rfl
  refine ⟨⟨?_, ?_, ?_⟩, ?_, ?_, ?_⟩
  · intro j join hj
    simp [initial, Config.store] at hj
  · intro j join hj
    simp [initial, Config.store] at hj
  · intro j hj
    simp [Store.joinRefs, nodes_eq, initial, Config.store, heapTotal, queueWork] at hj
  · rw [Owned, hinternal, hinitials]
    exact ⟨by simp, by simp, by simp⟩
  · intro t ht
    simp [Store.protects, initial, Config.store] at ht
  · intro p r hmem
    simp [initial, Config.store, queueWork] at hmem

/-! ## Resolved once -/

def Event.resolvedPromise : Event U → Option Pid
  | .resolved p _ => some p
  | _ => none

/-- The promises whose state was set to a result, latest first. -/
def resolvedPromises (trace : List (Event U)) : List Pid := trace.filterMap Event.resolvedPromise

/-- The trace and the heap agree on what has been resolved, and nothing was resolved
twice. -/
structure Recorded (s : Store U) : Prop where
  resolved : ∀ p ∈ resolvedPromises s.trace, ∃ r, s.heap.IsResolved p r
  nodup : (resolvedPromises s.trace).Nodup

theorem Recorded.resolve {u : Pid} {callbacks : Callbacks U} {r : Result U} (hrec : Recorded s)
    (hu : s.heap[u]? = some (.pending callbacks)) : Recorded (s.resolve u callbacks r) := by
  have hne : ∀ p ∈ resolvedPromises s.trace, p ≠ u := by
    rintro p hp rfl
    obtain ⟨r', hr'⟩ := hrec.resolved p hp
    simp [IsResolved, hu] at hr'
  have htrace : resolvedPromises (s.resolve u callbacks r).trace =
      u :: resolvedPromises s.trace := rfl
  refine ⟨fun p hp => ?_, ?_⟩
  · rw [htrace] at hp
    rcases List.mem_cons.mp hp with rfl | hp
    · exact ⟨r, List.getElem?_set_self (lt_length_of_getElem? hu)⟩
    · obtain ⟨r', hr'⟩ := hrec.resolved p hp
      refine ⟨r', ?_⟩
      rw [IsResolved, Store.resolve, List.getElem?_set_ne (hne p hp).symm]
      exact hr'
  · rw [htrace]
    exact List.nodup_cons.mpr ⟨fun hmem => hne u hmem rfl, hrec.nodup⟩

theorem Recorded.of_trace (hwf : s.heap.WellFormed) (hrec : Recorded s) (hact : Act g s s')
    (htrace : resolvedPromises s'.trace = resolvedPromises s.trace) : Recorded s' := by
  refine ⟨fun p hp => ?_, htrace ▸ hrec.nodup⟩
  obtain ⟨r, hr⟩ := hrec.resolved p (htrace ▸ hp)
  exact ⟨r, (hact.effect hwf).isResolved hr⟩

theorem Act.recorded (hwf : s.heap.WellFormed) (hrec : Recorded s) (hact : Act g s s') :
    Recorded s' := by
  have hkeep := hrec.of_trace hwf hact
  cases hact with
  | wake hp hcb => exact hrec.resolve hcb
  | cancelMark hcb hhow => exact hrec.resolve hcb
  | settle hwork hpromised hcb =>
    exact Recorded.resolve (s := { s with work := _ }) ⟨hrec.resolved, hrec.nodup⟩ hcb
  | settleExact hwork hcb =>
    exact Recorded.resolve (s := { s with work := _ }) ⟨hrec.resolved, hrec.nodup⟩ hcb
  | callProtection hwork hcell hlive hkind hguard hc hcb =>
    refine Recorded.resolve ⟨fun p hp => ?_, hrec.nodup⟩ hcb
    obtain ⟨r', hr'⟩ := hrec.resolved p hp
    exact ⟨r', hc.similar.isResolved ((Store.similar_clear hwf _).isResolved hr')⟩
  | @note e he =>
    refine hkeep ?_
    cases e <;> first | exact he.elim | rfl
  | allocInitial hinit => rcases hinit with ⟨-, rfl⟩ | ⟨node, -, rfl⟩ <;> exact hkeep rfl
  | _ => exact hkeep rfl

/-! ## Runs -/

/-- `p` has been canceled. -/
def Heap.isCanceled (h : Heap U) (p : Pid) : Bool :=
  match h.stateOf p with
  | some (.resolved r) => r.isCanceled
  | _ => false

/-- When the callback of a `protected` is about to be called, its promise has not been
canceled: no `cancel` has marked it and is still to remove the callback. -/
def Config.protectedInTime (c : Config U) : Bool :=
  match c.control, c.stack with
  | .ret _, .runRegularCallbacks (.explicitlyRemovable i :: _) _ :: _ =>
    match c.cells[i]? with
    | some cell => !(cell.live && cell.kind = .protection && c.heap.isCanceled cell.target)
    | none => true
  | _, _ => true

/-- The frame of an `npick` callback that is canceling and holds on to `p`. -/
def Frame.holds (p : Pid) : Frame U → Bool
  | .resolveExact p' _ => p' = p
  | _ => false

/-- When a callback is about to return the promise `q` for `target`, no call of an `npick`
callback that is still canceling holds on to the underlying promise of `q`. -/
def Config.npickUndisturbed (c : Config U) : Bool :=
  match c.control, c.stack with
  | .ret (.promise q), .proxyInto target :: stack =>
    c.heap.root q = c.heap.root target || !stack.any (Frame.holds (c.heap.root q))
  | _, _ => true

theorem oweExact_mem_work {c : Config U} {p : Pid} {r : Result U} :
    .oweExact p r ∈ c.store.work ↔ .resolveExact p r ∈ c.stack := by
  have hrecords : ∀ records : List (Pid × Callbacks U),
      Work.oweExact p r ∉ canceledRecords records := by
    intro records hmem
    obtain ⟨i, a, -, ha⟩ := mem_total.mp hmem
    simp at ha
  have hframe : ∀ frame : Frame U, .oweExact p r ∈ frame.work ↔ frame = .resolveExact p r := by
    intro frame
    cases frame <;> simp [Frame.work, mem_total, hrecords, eq_comm]
  have hqueue : .oweExact p r ∉ queueWork c.deferredCallbacks := by
    intro hmem
    obtain ⟨i, a, -, ha⟩ := mem_total.mp hmem
    simp at ha
  rw [Config.store, mem_add, or_iff_right hqueue, mem_total]
  constructor
  · rintro ⟨i, frame, hget, hmem⟩
    rw [← (hframe frame).mp hmem]
    exact List.mem_of_getElem? hget
  · intro hmem
    obtain ⟨i, hget⟩ := List.getElem?_of_mem hmem
    exact ⟨i, _, hget, (hframe _).mpr rfl⟩

theorem Config.npickUndisturbed_spec (c : Config U) {q target : Pid} {stack : List (Frame U)}
    (hcontrol : c.control = .ret (.promise q)) (hstack : c.stack = .proxyInto target :: stack)
    (hnpick : c.npickUndisturbed = true) (hne : c.heap.root q ≠ c.heap.root target) :
    ∀ r, .oweExact (c.heap.root q) r ∉ c.store.work := by
  intro r hmem
  simp only [Config.npickUndisturbed, hcontrol, hstack] at hnpick
  rw [oweExact_mem_work, hstack] at hmem
  have hholds : stack.any (Frame.holds (c.heap.root q)) = true :=
    List.any_eq_true.mpr
      ⟨_, (List.mem_cons.mp hmem).resolve_left (by simp), by simp [Frame.holds]⟩
  simp [hholds, hne] at hnpick

theorem Heap.isCanceled_of_isResolved {h : Heap U} {p : Pid}
    (hp : h.IsResolved (h.root p) (.rejected .canceled)) : h.isCanceled p = true := by
  have hstate : h.stateOf p = some (.resolved (.rejected .canceled)) := hp
  simp [Heap.isCanceled, hstate, Result.isCanceled]

theorem permits_safeGuard {c : Config U} {a : Label U} (hprot : c.protectedInTime = true)
    (hnpick : c.npickUndisturbed = true) : c.Permits safeGuard a := by
  unfold Config.Permits
  split
  · rename_i v frame stack hcontrol hstack
    cases frame with
    | runRegularCallbacks todo r =>
      cases todo with
      | nil => trivial
      | cons l rest =>
        cases l with
        | explicitlyRemovable i =>
          intro hlive cell hcell hkind hcanceled
          have hget : c.cells[i]? = some cell := hcell
          rw [isLive, show c.store.cells[i]? = some cell from hcell] at hlive
          simp only [Config.protectedInTime, hcontrol, hstack, hget] at hprot
          have hmarked : c.heap.isCanceled cell.target = true :=
            Heap.isCanceled_of_isResolved hcanceled
          simp [hlive, hkind, hmarked] at hprot
        | _ => trivial
    | runCancelCallbacks todo =>
      unfold Frame.Permits
      split <;> trivial
    | proxyInto target =>
      rintro q rfl hne -
      exact c.npickUndisturbed_spec hcontrol hstack hnpick hne
    | _ => trivial
  · exact fun _ => trivial
  · unfold Label.Permits
    split
    · exact fun _ => trivial
    · trivial
  · trivial

/-- The promises that the function of a frame is going to resolve or to link are pending. -/
def Config.FindsPending (c : Config U) : Prop :=
  (∀ target, .proxyInto target ∈ c.stack ∨ .resolveWith target ∈ c.stack ∨
    (∃ r, .resolveUnderlying target r ∈ c.stack) → c.heap.IsPending (c.heap.root target)) ∧
  ∀ p r, .resolveExact p r ∈ c.stack → c.heap.IsPending p

theorem mem_work_of_mem_stack {c : Config U} {frame : Frame U} {w : Work U}
    (hframe : frame ∈ c.stack) (hw : w ∈ frame.work) : w ∈ c.store.work := by
  obtain ⟨i, hget⟩ := List.getElem?_of_mem hframe
  exact mem_add.mpr (.inr (mem_total.mpr ⟨i, frame, hget, hw⟩))

theorem Safe.findsPending {c : Config U} (hsafe : Safe c.store) : c.FindsPending := by
  refine ⟨fun target hmem => ?_, fun p r hmem => ?_⟩
  · rcases hmem with hmem | hmem | ⟨r, hmem⟩
    · exact hsafe.isPending_owe (mem_work_of_mem_stack hmem (mem_singleton_self _))
    · exact hsafe.isPending_owe (mem_work_of_mem_stack hmem (mem_singleton_self _))
    · exact hsafe.isPending_owe (mem_work_of_mem_stack hmem (mem_singleton_self _))
  · exact hsafe.isPending_oweExact (mem_work_of_mem_stack hmem (mem_singleton_self _))

/-- In every run in which `protected` is called back in time and `npick` is undisturbed,
`resolve` and `make_into_proxy` find a pending promise, and no promise is resolved twice. -/
theorem resolve_finds_pending {main hook : U} {c : Config U}
    (hreach : Reach step (fun c _ => c.protectedInTime = true ∧ c.npickUndisturbed = true)
      (initial main hook) c) :
    c.control ≠ .crash ∧ c.FindsPending ∧ (resolvedPromises c.trace).Nodup := by
  have hok : ∀ (c : Config U) (a : Label U), c.protectedInTime = true ∧
      c.npickUndisturbed = true → c.Permits safeGuard a := fun c a h => permits_safeGuard h.1 h.2
  have hact : ∀ s s' : Store U, Sound s → (Safe s ∧ Recorded s) → Act safeGuard s s' →
      Safe s' ∧ Recorded s' := fun s s' hs hP hact =>
    ⟨hact.safe hs (fun _ _ hg => hg) hP.1, hact.recorded hs.wellFormed hP.2⟩
  have hinit : Safe (initial main hook).store ∧ Recorded (initial main hook).store :=
    ⟨safe_initial main hook, by simp [initial, Config.store, resolvedPromises],
      by simp [initial, Config.store, resolvedPromises]⟩
  have halive := reach_not_crash hok hact
    (fun s hP => hP.1.not_stuck fun i cell hg => hg cell) hinit hreach
  obtain ⟨-, hsafe, hrec⟩ := reach_store hok hact hinit hreach halive
  exact ⟨halive, hsafe.findsPending, hrec.nodup⟩

/-- A cancellation that marks the promise of a `protected` first and the promise it
protects next: the record of the latter is run first. -/
def cancelBothMoves : List (Move ℕ) :=
  [.call .task 0, .call (.protected' 0) 0, .call (.join [1, 0]) 0, .call (.cancel 2) 0]

/-- A callback that `npick` runs by canceling `1` returns the promise of the `npick`. -/
def returnNpickMoves : List (Move ℕ) :=
  [.call .task 0, .call .task 0, .call (.npick [0, 1]) 0, .call (.attach (.tryBind 0 0) 1) 0,
    .call (.wakeupGeneral "wakeup" 0 (.fulfilled .unit)) 0, .ret (.promise 2)]

def Control.isCrash : Control U → Bool
  | .crash => true
  | _ => false

theorem Control.isCrash_iff (control : Control U) : control.isCrash = true ↔ control = .crash := by
  cases control <;> simp [Control.isCrash]

/-- Both runs crash: neither condition can be left out. -/
theorem resolve_finds_resolved :
    (∃ c : Config ℕ, Reach step (fun c _ => c.npickUndisturbed = true) (initial 0 0) c ∧
      c.control = .crash) ∧
    ∃ c : Config ℕ, Reach step (fun c _ => c.protectedInTime = true) (initial 0 0) c ∧
      c.control = .crash := by
  constructor
  · obtain ⟨c, hreach, hcrash⟩ := exists_reach (fun c _ => c.npickUndisturbed)
      (P := fun c => c.control.isCrash)
      (show (script _ 40 (initial 0 0) cancelBothMoves).any _ = true by decide)
    exact ⟨c, hreach, (c.control.isCrash_iff).mp hcrash⟩
  · obtain ⟨c, hreach, hcrash⟩ := exists_reach (fun c _ => c.protectedInTime)
      (P := fun c => c.control.isCrash)
      (show (script _ 40 (initial 0 0) returnNpickMoves).any _ = true by decide)
    exact ⟨c, hreach, (c.control.isCrash_iff).mp hcrash⟩

/-- A `protected` that is canceled before the promise it protects is resolved, and an
`npick` that cancels: a run to which `resolve_finds_pending` applies. -/
def quietMoves : List (Move ℕ) :=
  [.call .task 0, .call .task 0, .call (.protected' 0) 0, .call (.cancel 2) 0,
    .call (.npick [0, 1]) 0, .call (.attach (.bind 0) 3) 0,
    .call (.wakeupGeneral "wakeup" 0 (.fulfilled .unit)) 0, .ret (.promise 1)]

theorem resolve_finds_pending_quiet : ∃ c : Config ℕ,
    Reach step (fun c _ => c.protectedInTime = true ∧ c.npickUndisturbed = true)
      (initial 0 0) c ∧
    (resolvedPromises c.trace).length = 5 ∧
    c.control ≠ .crash ∧ c.FindsPending ∧ (resolvedPromises c.trace).Nodup := by
  obtain ⟨c, hreach, hlen⟩ := exists_reach
    (fun c _ => c.protectedInTime && c.npickUndisturbed)
    (P := fun c => (resolvedPromises c.trace).length = 5)
    (show (script _ 40 (initial 0 0) quietMoves).any _ = true by decide)
  have hreach' := hreach.mono fun c _ hok => (Bool.and_eq_true _ _).mp hok
  exact ⟨c, hreach', of_decide_eq_true hlen, resolve_finds_pending hreach'⟩

end Lwt
