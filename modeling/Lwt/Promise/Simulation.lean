import Lwt.Promise.Concurrent
import Lwt.Promise.Loop

/-!
# The machine refines the store

`Config.store` abstracts a configuration.  `step_sim` is the refinement: a step of the
machine whose hazards are admitted by the guard is a sequence of acts of the store, and a
step that crashes is a sequence of acts that ends in a store that is `Stuck`.
-/

namespace Lwt

open Heap

variable {U : Type} {g : Guard U}

/-! ## Abstraction -/

/-- Records of canceled promises. -/
def canceledRecords (records : List (Pid × Callbacks U)) : Multiset (Work U) :=
  Table.total (fun entry => {.record entry.1 entry.2 (.rejected .canceled)}) records

/-- The work in a frame. -/
def Frame.work : Frame U → Multiset (Work U)
  | .proxyInto target | .resolveWith target => {.owe target none}
  | .resolveUnderlying target r => {.owe target (some r)}
  | .resolveExact p r => {.oweExact p r}
  | .runCallbacks p callbacks r => {.record p callbacks r}
  | .runCancelCallbacks todo => Table.total (fun l => {.cancels l}) todo
  | .runRegularCallbacks todo r => Table.total (fun l => {.regular l r}) todo
  | .propagateCancel _ collected => canceledRecords collected
  | .runRecords records => canceledRecords records
  | _ => 0

/-- The work in the queue of deferred callbacks. -/
def queueWork (queue : List (Pid × Callbacks U × Result U)) : Multiset (Work U) :=
  Table.total (fun entry => {.record entry.1 entry.2.1 entry.2.2}) queue

/-- The store of a configuration. -/
def Config.store (c : Config U) : Store U where
  heap := c.heap
  cells := c.cells
  joins := c.joins
  joining := none
  sequences := c.sequences
  work := queueWork c.deferredCallbacks + Table.total Frame.work c.stack
  resolvers := c.resolvers
  nextNode := c.nextNode
  trace := c.trace

/-- More work. -/
def Store.add (s : Store U) (work : Multiset (Work U)) : Store U :=
  { s with work := work + s.work }

@[simp] theorem Store.add_zero (s : Store U) : s.add 0 = s := by simp [Store.add]

@[simp] theorem Store.add_add (s : Store U) (w w' : Multiset (Work U)) :
    (s.add w).add w' = s.add (w' + w) := by
  simp [Store.add, add_assoc]

section Store

variable (c : Config U)

@[simp] theorem store_ret (v : Val U) : (c.ret v).store = c.store := rfl

@[simp] theorem store_raise (e : Exn U) : (c.raise e).store = c.store := rfl

theorem store_push (frames : List (Frame U)) :
    (c.push frames).store = c.store.add (Table.total Frame.work frames) := by
  simp only [Config.push, Config.store, Store.add, Table.total_append]
  rw [add_left_comm]

theorem store_stack {frame : Frame U} {stack : List (Frame U)} (hstack : c.stack = frame :: stack) :
    c.store = Store.add (Config.store { c with stack := stack }) frame.work := by
  simp only [Config.store, Store.add, hstack, Table.total_cons]
  rw [add_left_comm]

end Store

/-! ## Simulation -/

/-- What happened up to a crash in the store `s`: nothing, or a live cell was called. -/
def Store.CrashTrace (s : Store U) (trace : List (Event U)) : Prop :=
  trace = s.trace ∨ ∃ i r, isLive s.cells i = true ∧ trace = .cellCalled i r :: s.trace

/-- The configuration `c` is what acts make of `s`; if `c` has crashed, they make a store
of it that is stuck. -/
def Sim (g : Guard U) (s : Store U) (c : Config U) : Prop :=
  ∃ s', Acts g s s' ∧
    ((c.control = .crash ∧ Stuck g s' ∧ s'.CrashTrace c.trace) ∨
      (c.control ≠ .crash ∧ s' = c.store))

theorem Sim.refl {s : Store U} {c : Config U} (hcontrol : c.control ≠ .crash)
    (hs : s = c.store) : Sim g s c :=
  ⟨s, .refl, .inr ⟨hcontrol, hs⟩⟩

theorem Sim.act {s s' : Store U} {c : Config U} (hact : Act g s s') (hsim : Sim g s' c) :
    Sim g s c := by
  obtain ⟨s'', hacts, hend⟩ := hsim
  exact ⟨s'', .head hact hacts, hend⟩

theorem Sim.stuck {s : Store U} {c : Config U} (hcontrol : c.control = .crash)
    (htrace : s.CrashTrace c.trace) (hs : Stuck g s) : Sim g s c :=
  ⟨s, .refl, .inl ⟨hcontrol, hs, htrace⟩⟩

theorem Sim.follow {c c' : Config U} {w : Multiset (Work U)} {p : Pid}
    (hwf : c.heap.WellFormed) (hsim : Sim g ((c.follow p).store.add w) c') :
    Sim g (c.store.add w) c' :=
  hsim.act (.compress (s := c.store.add w) (h := c.heap.compress p) (compressed_compress hwf p))

theorem Sim.followAll {c c' : Config U} {w : Multiset (Work U)} (ps : List Pid)
    (hwf : c.heap.WellFormed) (hsim : Sim g ((c.followAll ps).store.add w) c') :
    Sim g (c.store.add w) c' :=
  hsim.act (.compress (s := c.store.add w) (h := c.heap.compressAll ps)
    (compressed_compressAll hwf ps))

theorem Sim.follow_zero {c c' : Config U} {p : Pid} (hwf : c.heap.WellFormed)
    (hsim : Sim g (c.follow p).store c') : Sim g c.store c' := by
  rw [← Store.add_zero c.store]
  exact Sim.follow (p := p) hwf (by rwa [Store.add_zero])

theorem Sim.followAll_zero {c c' : Config U} (ps : List Pid) (hwf : c.heap.WellFormed)
    (hsim : Sim g (c.followAll ps).store c') : Sim g c.store c' := by
  rw [← Store.add_zero c.store]
  exact Sim.followAll ps hwf (by rwa [Store.add_zero])

theorem Sim.ret (c : Config U) (v : Val U) : Sim g c.store (c.ret v) :=
  .refl (by simp [Config.ret]) rfl

theorem Sim.raise (c : Config U) (e : Exn U) : Sim g c.store (c.raise e) :=
  .refl (by simp [Config.raise]) rfl

theorem Sim.retNew (c : Config U) (r : Result U) : Sim g c.store (c.retNew (.resolved r)) :=
  Sim.act (.allocResolved (s := c.store) r) (.refl (by simp [Config.retNew, Config.ret]) rfl)

theorem Sim.apply {c : Config U} (f : U) (argument : Val U) :
    Sim g c.store (c.apply f argument) :=
  Sim.act (.note (s := c.store) (e := .applied f argument) trivial)
    (.refl (by simp [Config.apply]) rfl)

/-! ## Resolving and linking -/

theorem store_runCallbacksOrDeferThem (c : Config U) (d : Deferral) (p : Pid)
    (callbacks : Callbacks U) (r : Result U) :
    (runCallbacksOrDeferThem c d p callbacks r).control ≠ .crash ∧
      (runCallbacksOrDeferThem c d p callbacks r).store =
        c.store.add {.record p callbacks r} := by
  unfold runCallbacksOrDeferThem
  split
  · refine ⟨by simp [Config.ret], ?_⟩
    simp [Config.store, queueWork, Store.add, Config.ret, add_assoc]
  · refine ⟨by simp [Config.ret], ?_⟩
    rw [store_ret, store_push]
    simp [Frame.work, Config.store]

theorem store_resolve {c : Config U} {d : Deferral} {p : Pid} {callbacks : Callbacks U}
    {r : Result U} (hcb : c.heap[p]? = some (.pending callbacks)) :
    (resolve c d p r).control ≠ .crash ∧
      (resolve c d p r).store = c.store.resolve p callbacks r := by
  simp only [resolve, hcb]
  obtain ⟨hcontrol, hstore⟩ := store_runCallbacksOrDeferThem
    ((c.setState p (.resolved r)).emit (.resolved p r)) d p callbacks r
  exact ⟨hcontrol, hstore⟩

theorem resolve_of_not_isPending {c : Config U} {d : Deferral} {p : Pid} {r : Result U}
    (hp : ¬ c.heap.IsPending p) :
    (resolve c d p r).control = .crash ∧ (resolve c d p r).trace = c.trace := by
  unfold resolve
  split
  · rename_i callbacks hcb
    exact absurd ⟨callbacks, hcb⟩ hp
  · exact ⟨rfl, rfl⟩

/-- Paying what is owed to `t`, in a configuration that has looked up the underlying
promise. -/
theorem sim_resolve {c : Config U} {d : Deferral} {t : Pid} {o : Option (Result U)}
    {r : Result U} (hpromised : o = none ∨ o = some r) :
    Sim g (c.store.add {.owe t o}) (resolve c d (c.heap.root t) r) := by
  by_cases hp : c.heap.IsPending (c.heap.root t)
  · obtain ⟨callbacks, hcb⟩ := hp
    obtain ⟨hcontrol, hstore⟩ := store_resolve (d := d) (r := r) hcb
    refine Sim.act (.settle (s := c.store.add _) (w := c.store.work) rfl hpromised hcb) ?_
    exact .refl hcontrol hstore.symm
  · obtain ⟨hcontrol, htrace⟩ := resolve_of_not_isPending (d := d) (r := r) hp
    refine .stuck hcontrol (.inl htrace) (.owe (o := o) ?_ hp)
    simp [Store.add]

theorem sim_resolveUnderlying {c : Config U} {target : Pid} {promised : Option (Result U)}
    {r : Result U} (hwf : c.heap.WellFormed) (hpromised : promised = none ∨ promised = some r) :
    Sim g (c.store.add {.owe target promised}) (resolveUnderlying c target r) := by
  refine Sim.follow (p := target) hwf ?_
  have hroot : (c.follow target).heap.root target = c.heap.root target :=
    (compressed_compress hwf target).root_eq hwf target
  rw [resolveUnderlying, ← hroot]
  exact sim_resolve hpromised

theorem sim_resolveExact {c : Config U} {p : Pid} {r : Result U} :
    Sim g (c.store.add {.oweExact p r}) (resolve c .immediately p r) := by
  by_cases hp : c.heap.IsPending p
  · obtain ⟨callbacks, hcb⟩ := hp
    obtain ⟨hcontrol, hstore⟩ := store_resolve (d := .immediately) (r := r) hcb
    refine Sim.act (.settleExact (s := c.store.add _) (w := c.store.work) rfl hcb) ?_
    exact .refl hcontrol hstore.symm
  · obtain ⟨hcontrol, htrace⟩ := resolve_of_not_isPending (d := .immediately) (r := r) hp
    refine .stuck hcontrol (.inl htrace) (.oweExact (r := r) ?_ hp)
    simp [Store.add]

theorem sim_wakeupWith {c : Config U} {d : Deferral} (name : String) {p : Pid} {r : Result U}
    (hs : Sound c.store) (hp : p ∈ c.resolvers) : Sim g c.store (wakeupWith d c name p r) := by
  have hwf : c.heap.WellFormed := hs.wellFormed
  have hc := compressed_compress hwf p
  have hroot : (c.follow p).store.heap.root p = c.heap.root p := hc.root_eq hwf p
  refine Sim.follow_zero (p := p) hwf ?_
  obtain ⟨st, hst, hu⟩ := exists_stateOf hwf (hs.resolvers_lt p hp)
  have hst' : (c.heap.compress p)[c.heap.root p]? = some st :=
    (hc.getElem?_root hwf p).trans hst
  simp only [wakeupWith, Config.follow, hst']
  cases st with
  | proxy q => exact hu.elim
  | pending callbacks =>
    obtain ⟨hcontrol, hstore⟩ := store_resolve (c := c.follow p) (d := d) (r := r) hst'
    have hget : (c.follow p).store.heap[(c.follow p).store.heap.root p]? =
        some (.pending callbacks) := by
      rw [hroot]
      exact hst'
    refine Sim.act (.wake (s := (c.follow p).store) (r := r) hp hget) (.refl hcontrol ?_)
    rw [hroot]
    exact hstore.symm
  | resolved r' =>
    split
    · exact .refl (by simp [Config.ret]) rfl
    · exact .refl (by simp [Config.raise]) rfl
    · simp_all

/-- `make_into_proxy`, in a configuration that has looked up both underlying promises. -/
theorem sim_makeIntoProxy {c : Config U} {target q : Pid} (hwf : c.heap.WellFormed)
    (hq : q < c.heap.length)
    (hlink : c.heap.root q ≠ c.heap.root target → c.heap.IsPending (c.heap.root q) →
      g (c.store.add {.owe target none}) (.link (c.heap.root target) (c.heap.root q))) :
    Sim g (c.store.add {.owe target none})
      (makeIntoProxy (c.follow target) (c.heap.root target) q) := by
  have hc := compressed_compress hwf target
  have hwf' := hc.wellFormed hwf
  have hc' := hc.trans (compressed_compress hwf' q)
  have hrootq : (c.heap.compress target).root q = c.heap.root q := hc.root_eq hwf q
  simp only [makeIntoProxy, Config.follow, hrootq]
  by_cases hsame : c.heap.root q = c.heap.root target
  · rw [if_pos hsame]
    refine Sim.act (.compress (s := c.store.add _) hc') ?_
    refine Sim.act (.same (q := q) (w := c.store.work) rfl ?_) (.refl (by simp [Config.ret]) rfl)
    show Heap.root ((c.heap.compress target).compress q) q =
      Heap.root ((c.heap.compress target).compress q) target
    rw [hc'.root_eq hwf, hc'.root_eq hwf, hsame]
  · rw [if_neg hsame]
    obtain ⟨st, hst, hu⟩ := exists_stateOf hwf hq
    have hst' : ((c.heap.compress target).compress q)[c.heap.root q]? = some st :=
      (hc'.getElem?_root hwf q).trans hst
    simp only [hst']
    cases st with
    | proxy q' => exact hu.elim
    | resolved r =>
      refine Sim.act (.compress (s := c.store.add _) hc') ?_
      have hroot : Heap.root ((c.heap.compress target).compress q) target =
          c.heap.root target := hc'.root_eq hwf target
      have hsim := sim_resolve (g := g)
        (c := { c with heap := (c.heap.compress target).compress q })
        (d := .immediately) (t := target) (o := none) (r := r) (.inl rfl)
      rw [hroot] at hsim
      exact hsim
    | pending callbacks =>
      by_cases hp : c.heap.IsPending (c.heap.root target)
      · obtain ⟨outerCallbacks, houter⟩ := hp
        have houter' : ((c.heap.compress target).compress q)[c.heap.root target]? =
            some (.pending outerCallbacks) := (hc'.getElem?_root hwf target).trans houter
        simp only [houter']
        exact Sim.act (.link (s := c.store.add _) (w := c.store.work) rfl hc' hsame hst'
          houter' (hlink hsame ⟨callbacks, hst⟩)) (.refl (by simp [Config.ret]) rfl)
      · have hstuck : Stuck g (c.store.add {.owe target none}) :=
          .owe (t := target) (o := none) (by simp [Store.add]) hp
        dsimp only
        split
        · rename_i outerCallbacks houter
          exact absurd ⟨outerCallbacks, (hc'.getElem?_root hwf target).symm.trans houter⟩ hp
        · exact .stuck rfl (.inl rfl) hstuck

/-! ## Callbacks -/

theorem sim_apply_push {c : Config U} (frames : List (Frame U)) (f : U) (argument : Val U) :
    Sim g (c.store.add (Table.total Frame.work frames)) ((c.push frames).apply f argument) := by
  rw [← store_push]
  exact .apply f argument

theorem sim_runCompose {c : Config U} (target : Pid) (storage : Storage U) (r : Result U)
    (k : Compose U) (hwf : c.heap.WellFormed) :
    ∃ promised, Sim g (c.store.add {.owe target promised})
      (runCompose c target storage r k) := by
  cases k with
  | pass => exact ⟨some r, sim_resolveUnderlying hwf (.inr rfl)⟩
  | proxy f =>
    exact ⟨none, sim_apply_push (c := { c with storage := storage })
      [.guardFail, .proxyInto target] f r.argument⟩
  | map f =>
    exact ⟨none, sim_apply_push (c := { c with storage := storage })
      [.resolveWith target] f r.argument⟩

theorem sim_runObserve {c : Config U} {storage : Storage U} {r : Result U} (k : Observe U) :
    Sim g c.store (runObserve c storage r k) := by
  cases k with
  | ignore => exact .refl (by simp [runObserve, Config.ret]) rfl
  | hooked f =>
    have h := sim_apply_push (g := g) (c := { c with storage := storage }) [.hooked] f r.argument
    rwa [show Table.total Frame.work [(.hooked : Frame U)] = 0 by simp [Frame.work],
      Store.add_zero] at h
  | hookedUnit f =>
    have h := sim_apply_push (g := g) (c := { c with storage := storage }) [.hooked] f .unit
    rwa [show Table.total Frame.work [(.hooked : Frame U)] = 0 by simp [Frame.work],
      Store.add_zero] at h
  | bare h => exact .apply h r.argument
  | hook => exact .apply c.asyncExceptionHook r.argument

theorem sim_runJoin {c : Config U} {node : Node U} {j : ℕ} {r : Result U}
    (hwf : c.heap.WellFormed) (hnode : node.callback = .join j) :
    Sim g (c.store.add {.regular (.implicitlyRemoved node) r})
      (runJoin (c.emit (.called node r)) j r) := by
  unfold runJoin
  cases hj : c.joins[j]? with
  | none =>
    simp only [Config.emit, hj]
    exact Sim.act (.callJoinNone (s := c.store.add _) (w := c.store.work) rfl hnode hj)
      (.refl (by simp [Config.ret]) rfl)
  | some join =>
    simp only [Config.emit, hj]
    split
    · rename_i hlast
      refine Sim.act (.callJoinLast (s := c.store.add _) (w := c.store.work)
        (x := updateJoinResult r join.joinResult) rfl rfl hnode hj hlast) ?_
      exact sim_resolveUnderlying
        (c := { c with
          joins := c.joins.set j
            { join with
              joinResult := updateJoinResult r join.joinResult
              numberPendingInPs := join.numberPendingInPs - 1
              live := false }
          trace := .called node r :: c.trace })
        hwf (.inr rfl)
    · rename_i hlast
      exact Sim.act (.callJoin (s := c.store.add _) (w := c.store.work) rfl hnode hj hlast)
        (.refl (by simp [Config.ret]) rfl)

theorem sim_runCallback {c : Config U} {node : Node U} {r : Result U} (hwf : c.heap.WellFormed) :
    Sim g (c.store.add {.regular (.implicitlyRemoved node) r})
      (runCallback (c.emit (.called node r)) r node.callback) := by
  cases hcallback : node.callback with
  | join j => exact sim_runJoin hwf hcallback
  | compose target storage onFulfilled onRejected =>
    have hcall : ∀ f, (∀ c', runCallback c' r (.compose target storage onFulfilled onRejected) =
        runCompose c' target storage r f) →
        Sim g (c.store.add {.regular (.implicitlyRemoved node) r})
          (runCallback (c.emit (.called node r)) r
            (.compose target storage onFulfilled onRejected)) := by
      intro f hf
      obtain ⟨promised, hsim⟩ := sim_runCompose (g := g) (c := c.emit (.called node r)) target
        storage r f hwf
      rw [hf]
      exact Sim.act (.callCompose (s := c.store.add _) (w := c.store.work)
        (o := promised) rfl hcallback) hsim
    cases r with
    | fulfilled v => exact hcall onFulfilled fun _ => rfl
    | rejected e => exact hcall onRejected fun _ => rfl
  | observe storage onFulfilled onRejected =>
    refine Sim.act (.callObserve (s := c.store.add _) (w := c.store.work) rfl hcallback) ?_
    cases r with
    | fulfilled v => exact sim_runObserve (c := c.emit (.called node (.fulfilled v))) onFulfilled
    | rejected e => exact sim_runObserve (c := c.emit (.called node (.rejected e))) onRejected

theorem sim_runCellBody {c : Config U} {cell : Cell} {r : Result U} (hwf : c.heap.WellFormed) :
    Sim g (c.store.add {cell.owed c.heap r}) (runCellBody c cell r) := by
  unfold runCellBody Cell.owed
  cases cell.kind with
  | choose => exact sim_resolveUnderlying hwf (.inr rfl)
  | protection => exact sim_resolveUnderlying hwf (.inr rfl)
  | pick =>
    refine .refl (by simp [Config.ret]) ?_
    rw [store_ret, store_push]
    simp [Frame.work]
  | nchoose =>
    refine Sim.followAll cell.originallyAddedTo hwf ?_
    exact sim_resolveUnderlying ((compressed_compressAll hwf _).wellFormed hwf) (.inr rfl)
  | nchooseSplit =>
    refine Sim.followAll cell.originallyAddedTo hwf ?_
    exact sim_resolveUnderlying ((compressed_compressAll hwf _).wellFormed hwf) (.inr rfl)
  | npick =>
    refine Sim.follow (p := cell.target) hwf ?_
    refine Sim.followAll cell.originallyAddedTo
      ((compressed_compress hwf _).wellFormed hwf) ?_
    refine .refl (by simp [Config.ret]) ?_
    rw [store_ret, store_push]
    simp [Frame.work]

theorem sim_runCell {c : Config U} {i : ℕ} {cell : Cell} {r : Result U} (hwf : c.heap.WellFormed)
    (hcell : c.cells[i]? = some cell) (hlive : cell.live = true)
    (hcall : g (c.store.add {.regular (.explicitlyRemovable i) r}) (.call i)) :
    Sim g (c.store.add {.regular (.explicitlyRemovable i) r}) (runCell c i cell r) := by
  have hmembers : Store.members (c.store.add {.regular (.explicitlyRemovable i) r}) i =
      cell.originallyAddedTo := by
    simp [Store.members, Store.add, Config.store, hcell]
  have hsim := similar_visitEach (clearedCells c.cells i) hwf cell.originallyAddedTo
  have hwf' := hsim.wellFormed hwf
  by_cases hkind : cell.kind = .protection
  · have hcomp := compressed_compress hwf' cell.target
    have hall := hsim.trans hcomp.similar
    have hrun : runCell c i cell r = resolve
        (((c.emit (.cellCalled i r)).clearCell i cell.originallyAddedTo).follow cell.target)
        .immediately (c.heap.root cell.target) r := by
      rw [← hsim.root_eq hwf]
      simp only [runCell, runCellBody, hkind]
      rfl
    rw [hrun]
    by_cases hp : c.heap.IsPending (c.heap.root cell.target)
    · -- The callback is called and resolves its promise in one act.
      obtain ⟨callbacks, hcb⟩ := hall.isPending hp
      obtain ⟨hcontrol, hstore⟩ := store_resolve (d := .immediately) (r := r)
        (c := ((c.emit (.cellCalled i r)).clearCell i cell.originallyAddedTo).follow cell.target)
        hcb
      refine Sim.act (.callProtection (s := c.store.add _) (w := c.store.work)
        rfl hcell hlive hkind hcall
        (by rw [Store.clear, hmembers]; exact hcomp) hcb) (.refl hcontrol ?_)
      rw [hstore]
      rfl
    · have hp' := fun hp' => hp ((hall.isPending_root_iff hwf cell.target).mp hp')
      obtain ⟨hcontrol, htrace⟩ := resolve_of_not_isPending (d := .immediately) (r := r)
        (c := ((c.emit (.cellCalled i r)).clearCell i cell.originallyAddedTo).follow cell.target)
        hp'
      refine .stuck hcontrol (.inr ⟨i, r, ?_, htrace⟩)
        (.protection (r := r) (by simp [Store.add]) hcell hlive hkind hcall hp)
      simp [Store.add, Config.store, isLive, hcell, hlive]
  · refine Sim.act (.callCell (s := c.store.add _) (w := c.store.work) rfl hcell hlive hkind
      hcall) ?_
    rw [Store.clear, hmembers]
    exact sim_runCellBody (c := (c.emit (.cellCalled i r)).clearCell i cell.originallyAddedTo) hwf'

/-! ## Combinators on one promise -/

theorem sim_apply_frame {c : Config U} {frame : Frame U} {f : U} {argument : Val U}
    (hframe : frame.work = 0) : Sim g c.store ((c.push [frame]).apply f argument) := by
  have h := sim_apply_push (g := g) (c := c) [frame] f argument
  simpa [hframe] using h

theorem sim_runImmediate {c : Config U} {given u : Pid} {r : Result U} (k : Immediate U) :
    Sim g c.store (runImmediate c given u r k) := by
  cases k with
  | call f => exact .apply f r.argument
  | map f => exact sim_apply_frame rfl
  | forward => exact .retNew c r
  | underlying => exact .ret c (.promise u)
  | given => exact .ret c (.promise given)
  | observe o =>
    cases o with
    | ignore => exact .ret c .unit
    | hooked f => exact sim_apply_frame rfl
    | hookedUnit f => exact sim_apply_frame rfl
    | bare h => exact .apply h r.argument
    | hook => exact .apply c.asyncExceptionHook r.argument
  | reraise =>
    cases r with
    | fulfilled v => exact .ret c .unit
    | rejected e => exact .raise c e

/-- A combinator that makes a promise attaches a callback that resolves it, the others
attach one that resolves nothing. -/
theorem Combinator.callback_spec (k : Combinator U) (u p'' : Pid) (storage : Storage U) :
    (∃ how onFulfilled onRejected, k.howToCancel u = some how ∧
      (how = .propagateCancelToOne u ∨ how = .notCancelable) ∧
      k.callback p'' storage = .compose p'' storage onFulfilled onRejected) ∨
    (∃ onFulfilled onRejected, k.howToCancel u = none ∧
      k.callback p'' storage = .observe storage onFulfilled onRejected) := by
  cases k <;> simp [Combinator.howToCancel, Combinator.callback]

theorem sim_attachTo {c : Config U} {k : Combinator U} {p : Pid} (hwf : c.heap.WellFormed)
    (hp : p < c.heap.length) : Sim g c.store (attachTo c k p) := by
  refine Sim.follow_zero (p := p) hwf ?_
  obtain ⟨st, hst, hu⟩ := exists_stateOf hwf hp
  have hst' : (c.heap.compress p)[c.heap.root p]? = some st :=
    ((compressed_compress hwf p).getElem?_root hwf p).trans hst
  simp only [attachTo, Config.follow, hst']
  cases st with
  | proxy q => exact hu.elim
  | resolved r =>
    cases r with
    | fulfilled v => exact sim_runImmediate (c := c.follow p) k.onFulfilled
    | rejected e => exact sim_runImmediate (c := c.follow p) k.onRejected
  | pending callbacks =>
    dsimp only
    rcases k.callback_spec (c.heap.root p) (c.heap.compress p).length c.storage with
      ⟨how, onFulfilled, onRejected, hhow, hkind, hcallback⟩ |
      ⟨onFulfilled, onRejected, hhow, hcallback⟩
    · simp only [hhow, hcallback]
      exact Sim.act (.attachCompose (s := (c.follow p).store) ⟨callbacks, hst'⟩ hkind)
        (.refl (by simp [Config.ret]) rfl)
    · simp only [hhow]
      rcases k.callback_spec (c.heap.root p) (c.heap.root p) c.storage with
        ⟨how, _, _, hhow', _⟩ | ⟨onFulfilled, onRejected, _, hcallback⟩
      · simp [hhow] at hhow'
      rw [hcallback]
      exact Sim.act (.attachObserve (s := (c.follow p).store) ⟨callbacks, hst'⟩)
        (.refl (by simp [Config.ret]) rfl)

theorem sim_onCancel {c : Config U} {p : Pid} {f : U} (hwf : c.heap.WellFormed) :
    Sim g c.store (onCancel c p f) := by
  refine Sim.follow_zero (p := p) hwf ?_
  unfold onCancel
  dsimp only
  split
  · exact sim_apply_frame rfl
  · rename_i callbacks hcb
    exact Sim.act (.addUserCancel (s := (c.follow p).store) ⟨callbacks, hcb⟩)
      (.refl (by simp [Config.ret]) rfl)
  · exact .ret _ .unit

/-! ## Cancellation -/

theorem sim_cancel {c : Config U} {p : Pid} : Sim g c.store (cancel c p) := by
  refine Sim.act (.note (s := c.store) (e := .cancelRequested p) trivial) ?_
  refine .refl (by simp [cancel, Config.ret]) ?_
  rw [cancel, store_ret, store_push]
  simp [Frame.work, canceledRecords, Config.emit, Config.store]

theorem sim_cancelAndCollectCallbacks {c : Config U} {p : Pid} {todo : List Pid}
    {collected : List (Pid × Callbacks U)} (hwf : c.heap.WellFormed) :
    Sim g (c.store.add (canceledRecords collected))
      (cancelAndCollectCallbacks c p todo collected) := by
  have hpush : ∀ todo' : List Pid, Sim g ((c.follow p).store.add (canceledRecords collected))
      (((c.follow p).push [.propagateCancel todo' collected]).ret .unit) := by
    intro todo'
    refine .refl (by simp [Config.ret]) ?_
    rw [store_ret, store_push]
    simp [Frame.work]
  refine Sim.follow (p := p) hwf ?_
  unfold cancelAndCollectCallbacks
  dsimp only
  split
  · rename_i callbacks hcb
    cases hhow : callbacks.howToCancel with
    | notCancelable => exact hpush todo
    | propagateCancelToOne p' => exact hpush (p' :: todo)
    | propagateCancelToSeveral ps => exact hpush (ps ++ todo)
    | cancelThisPromise =>
      refine Sim.act (.cancelMark (s := (c.follow p).store.add _) hcb hhow) ?_
      refine .refl (by simp [Config.ret]) ?_
      rw [store_ret, store_push]
      simp [Frame.work, canceledRecords, Store.resolve, Store.add, Config.store,
        Config.setState, Config.emit]
  · exact hpush todo

/-! ## Combinators on several promises -/

theorem sim_nthResolvedAndCancelPending {c : Config U} {ps : List Pid} {n : ℕ}
    (hwf : c.heap.WellFormed) : Sim g c.store (nthResolvedAndCancelPending c ps n) := by
  induction ps generalizing c n with
  | nil => exact .raise c .assertFailure
  | cons p ps ih =>
    refine Sim.follow_zero (p := p) hwf ?_
    have hwf' := (compressed_compress hwf p).wellFormed hwf
    unfold nthResolvedAndCancelPending
    split
    · cases n with
      | zero =>
        refine .refl (by simp [Config.ret]) ?_
        rw [store_ret, store_push]
        simp [Frame.work]
      | succ n => exact ih hwf'
    · have hcancel := sim_cancel (g := g)
        (c := (c.follow p).push [.nthResolvedAndCancelPending ps n]) (p := p)
      rw [store_push] at hcancel
      simpa [Frame.work] using hcancel

theorem sim_attachCell {c : Config U} {kind : CellKind} {ps : List Pid} (hkind : kind ≠ .protection)
    (hwf : c.heap.WellFormed) (hps : ∀ p ∈ ps, c.heap.IsPending (c.heap.root p)) :
    Sim g c.store (attachCell c kind (.propagateCancelToSeveral ps) ps) := by
  have hwf' := wellFormed_append (x := newPending (.propagateCancelToSeveral ps)) hwf trivial
  obtain ⟨h', hadd⟩ := exists_addCellToEach c.cells.length (hwf') (ps) fun p hp => by
    rw [root_append hwf (isUnderlying_newPending _)]
    exact (hps p hp).append
  simp only [attachCell, Config.alloc, hadd]
  exact Sim.act (.newCell (s := c.store) hkind hadd) (.refl (by simp [Config.ret]) rfl)

theorem Sim.followed {c c' : Config U} {ps : List Pid} (hwf : c.heap.WellFormed)
    (hps : ∀ p ∈ ps, p < c.heap.length)
    (hsim : (c.followAll ps).heap.WellFormed → (∀ p ∈ ps, p < (c.followAll ps).heap.length) →
      Sim g (c.followAll ps).store c') : Sim g c.store c' := by
  have hcomp := compressed_compressAll hwf ps
  refine Sim.followAll_zero ps hwf (hsim (hcomp.wellFormed hwf) ?_)
  simpa [Config.followAll, hcomp.length_eq] using hps

theorem sim_choose {c : Config U} {ps : List Pid} {random : ℕ} (hwf : c.heap.WellFormed)
    (hps : ∀ p ∈ ps, p < c.heap.length) : Sim g c.store (choose c ps random) := by
  unfold choose
  split
  · exact .raise c _
  refine Sim.followed hwf hps fun hwf hps => ?_
  dsimp only
  split
  · rename_i hcount
    exact sim_attachCell (by simp) hwf (isPending_of_countFulfilled hwf hps hcount)
  -- The other branches return a resolved promise of the list, and `nth_resolved` finds one.
  all_goals
    split
    · exact .ret _ _
    · exact .raise _ _

theorem sim_pick {c : Config U} {ps : List Pid} {random : ℕ} (hwf : c.heap.WellFormed)
    (hps : ∀ p ∈ ps, p < c.heap.length) : Sim g c.store (pick c ps random) := by
  unfold pick
  split
  · exact .raise c _
  refine Sim.followed hwf hps fun hwf hps => ?_
  dsimp only
  split
  · rename_i hcount
    exact sim_attachCell (by simp) hwf (isPending_of_countFulfilled hwf hps hcount)
  · exact sim_nthResolvedAndCancelPending hwf
  · exact sim_nthResolvedAndCancelPending hwf
  · refine .refl (by simp [Config.ret]) ?_
    rw [store_ret, store_push]
    simp [Frame.work]

theorem sim_nchoose {c : Config U} {ps : List Pid} (hwf : c.heap.WellFormed)
    (hps : ∀ p ∈ ps, p < c.heap.length) : Sim g c.store (nchoose c ps) := by
  unfold nchoose
  split
  · exact .raise c _
  refine Sim.followed hwf hps fun hwf hps => ?_
  dsimp only
  split
  · exact .retNew _ _
  · rename_i hcheck
    exact sim_attachCell (by simp) hwf
      (isPending_of_checkForAlreadyResolvedPromises hwf hps hcheck)

theorem sim_npick {c : Config U} {ps : List Pid} (hwf : c.heap.WellFormed)
    (hps : ∀ p ∈ ps, p < c.heap.length) : Sim g c.store (npick c ps) := by
  unfold npick
  split
  · exact .raise c _
  refine Sim.followed hwf hps fun hwf hps => ?_
  dsimp only
  split
  · refine .refl (by simp [Config.ret]) ?_
    rw [store_ret, store_push]
    simp [Frame.work]
  · rename_i hcheck
    exact sim_attachCell (by simp) hwf
      (isPending_of_checkForAlreadyResolvedPromises hwf hps hcheck)

theorem sim_nchooseSplit {c : Config U} {ps : List Pid} (hwf : c.heap.WellFormed)
    (hps : ∀ p ∈ ps, p < c.heap.length) : Sim g c.store (nchooseSplit c ps) := by
  unfold nchooseSplit
  split
  · exact .raise c _
  refine Sim.followed hwf hps fun hwf hps => ?_
  dsimp only
  split
  · exact .retNew _ _
  · rename_i hcheck
    exact sim_attachCell (by simp) hwf
      (isPending_of_checkForAlreadyResolvedSplit hwf hps hcheck)

theorem sim_protected {c : Config U} {p : Pid} (hwf : c.heap.WellFormed)
    (hg : ∀ s, g s .protect) :
    Sim g c.store (protected' c p) := by
  have hcomp := compressed_compress hwf p
  have hwf' := hcomp.wellFormed hwf
  refine Sim.follow_zero (p := p) hwf ?_
  unfold protected'
  dsimp only
  split
  · rename_i callbacks hcb
    have hwf'' := wellFormed_append (x := newPending .cancelThisPromise) hwf' trivial
    obtain ⟨h', hadd⟩ := exists_addCellToEach c.cells.length (hwf'') ([p]) fun q hq => by
      obtain rfl : q = p := by simpa using hq
      rw [root_append hwf' (isUnderlying_newPending _), hcomp.root_eq hwf]
      exact IsPending.append ⟨callbacks, hcb⟩
    simp only [attachCell, Config.alloc, Config.follow, hadd]
    exact Sim.act (.newProtection (s := (c.follow p).store) hadd (hg _))
      (.refl (by simp [Config.ret, Config.attachCancelCallback]) rfl)
  · exact .ret _ _

/-! ## Join -/

/-- The store of a configuration in the middle of the call of `join` with the references
`j`. -/
def Config.joiningStore (c : Config U) (j : ℕ) : Store U := { c.store with joining := some j }

theorem acts_attachCallbackOrNoteResult {c : Config U} {j : ℕ} {p : Pid}
    (hwf : c.heap.WellFormed) :
    Acts g (c.joiningStore j) ((attachCallbackOrNoteResult c j p).joiningStore j) := by
  refine .head (.compress (s := c.joiningStore j) (compressed_compress hwf p)) ?_
  unfold attachCallbackOrNoteResult
  dsimp only
  split
  · rename_i join callbacks hj hcb
    exact .single (.joinAttach (s := (c.follow p).joiningStore j) rfl hj ⟨callbacks, hcb⟩)
  · rename_i join r hj hr
    exact .single (.joinNote (s := (c.follow p).joiningStore j) rfl hj)
  · exact .refl

theorem sim_attachCallbackOrResolveImmediately {c : Config U} {j : ℕ} {ps : List Pid}
    (hs : Sound (c.joiningStore j)) (hj : j < c.joins.length) :
    Sim g (c.joiningStore j) (attachCallbackOrResolveImmediately c j ps) := by
  induction ps generalizing c with
  | nil =>
    have hget : c.joins[j]? = some c.joins[j] := List.getElem?_eq_getElem hj
    simp only [attachCallbackOrResolveImmediately, hget]
    split
    · rename_i hzero
      exact Sim.act (.joinEndEmpty (s := c.joiningStore j) rfl hget hzero)
        (.refl (by simp [Config.retNew, Config.ret]) rfl)
    · rename_i hzero
      exact Sim.act (.joinEnd (s := c.joiningStore j) rfl hget hzero)
        (.refl (by simp [Config.ret]) rfl)
  | cons p ps ih =>
    have hacts := acts_attachCallbackOrNoteResult (g := g) (j := j) (p := p) hs.wellFormed
    have hj' : j < (attachCallbackOrNoteResult c j p).joins.length := by
      unfold attachCallbackOrNoteResult
      dsimp only
      split <;> simpa [Config.attachCallback, Config.follow] using hj
    obtain ⟨s', hacts', hend⟩ := ih (hacts.sound hs) hj'
    exact ⟨s', hacts.trans hacts', hend⟩

theorem sim_join {c : Config U} {ps : List Pid} (hs : Sound c.store) :
    Sim g c.store (join c ps) := by
  have hact := Act.joinNew (g := g) (s := c.store) (l := ps) rfl
  exact Sim.act hact
    (sim_attachCallbackOrResolveImmediately
      (c := { c.alloc (newPending (.propagateCancelToSeveral ps)) with
        joins := c.joins ++ [Join.mk c.heap.length 0 (.fulfilled .unit) true] })
      (hact.sound hs) (by simp [Config.store]))

/-! ## Frames -/

/-- The hazards of returning `v` to a frame, in the store with the work of the frame. -/
def Frame.Permits (g : Guard U) (s : Store U) (v : Val U) : Frame U → Prop
  | .runRegularCallbacks (.explicitlyRemovable i :: _) _ =>
    isLive s.cells i = true → g s (.call i)
  | .runCancelCallbacks (.callback _ _ (.removeTheCallback i) :: _) => g s (.remove i)
  | .proxyInto target =>
    ∀ q, v = .promise q → s.heap.root q ≠ s.heap.root target →
      s.heap.IsPending (s.heap.root q) → g s (.link (s.heap.root target) (s.heap.root q))
  | _ => True

/-- The hazard of a move. -/
def Label.Permits (g : Guard U) : Label U → Prop
  | .move (.call (.protected' _) _) => ∀ s, g s .protect
  | _ => True

/-- The guard admits the hazard of the next step, if there is one. -/
def Config.Permits (g : Guard U) (c : Config U) (a : Label U) : Prop :=
  match c.control, c.stack with
  | .ret v, frame :: _ => frame.Permits g c.store v
  | .exn e, frame :: _ => frame.breaks c e = true → g c.store .drop
  | .user _, _ => a.Permits g
  | _, _ => True

theorem permits_true (c : Config U) (a : Label U) : c.Permits (fun _ _ => True) a := by
  unfold Config.Permits
  split
  · unfold Frame.Permits
    split
    · exact fun _ => trivial
    · trivial
    · exact fun _ _ _ _ => trivial
    · trivial
  · exact fun _ => trivial
  · unfold Label.Permits
    split
    · exact fun _ => trivial
    · trivial
  · trivial

/-- The guard `g`, in runs in which no exception breaks a loop. -/
def Guard.quietly (g : Guard U) : Guard U := fun s hazard =>
  match hazard with
  | .drop => False
  | _ => g s hazard

theorem permits_quietly {c : Config U} {a : Label U} (hpermits : c.Permits g a)
    (hquiet : c.quiet = true) : c.Permits g.quietly a := by
  unfold Config.Permits at hpermits ⊢
  split
  · rename_i v frame stack hcontrol hstack
    simp only [hcontrol, hstack] at hpermits
    unfold Frame.Permits at hpermits ⊢
    split <;> first | exact hpermits | trivial
  · rename_i e frame stack hcontrol hstack
    intro hbreaks
    simp [Config.quiet, hcontrol, hstack, hbreaks] at hquiet
  · rename_i hcontrol
    simp only [hcontrol] at hpermits
    unfold Label.Permits at hpermits ⊢
    split <;> first | exact hpermits | trivial
  · trivial

theorem sim_runCancelCallbacks {c : Config U} {todo : List (CancelCallbackList U)} {v : Val U}
    (hg : (Frame.runCancelCallbacks todo).Permits g
      (c.store.add (Frame.runCancelCallbacks todo).work) v) :
    Sim g (c.store.add (Frame.runCancelCallbacks todo).work) (runCancelCallbacks c todo) := by
  cases todo with
  | nil => simpa [Frame.work, runCancelCallbacks] using Sim.ret c .unit
  | cons fs rest =>
    have hwork : (c.store.add (Frame.runCancelCallbacks (fs :: rest)).work).work =
        .cancels fs ::ₘ (c.push [.runCancelCallbacks rest]).store.work := by
      rw [store_push]
      simp [Frame.work, Store.add]
    cases fs with
    | empty =>
      refine Sim.act (.cancelsEmpty hwork)
        (.refl (by simp [runCancelCallbacks, Config.ret]) rfl)
    | concat fs fs' =>
      refine Sim.act (.cancelsConcat hwork)
        (.refl (by simp [runCancelCallbacks, Config.ret]) ?_)
      rw [runCancelCallbacks, store_ret, store_push, store_push]
      simp [Frame.work, Store.add, Multiset.cons_swap]
    | removeSequenceNode mark node =>
      refine Sim.act (.cancelsNode hwork) ?_
      refine Sim.act (.sequences (q := c.sequences.remove node) ?_)
        (.refl (by simp [runCancelCallbacks, Config.ret]) rfl)
      rintro p ⟨i, hi⟩
      exact ⟨i, by rwa [Sequences.data_remove] at hi⟩
    | callback mark storage f =>
      cases f with
      | user f =>
        refine Sim.act (.cancelsUser hwork) ?_
        have hwork : Frame.work (.hooked : Frame U) = 0 := rfl
        exact sim_apply_frame
          (c := ({ c with storage := storage }.emit (.cancelCalled mark)).push
            [.runCancelCallbacks rest]) hwork
      | removeTheCallback i =>
        refine Sim.act (.cancelsRemove hwork hg)
          (.refl (by simp [runCancelCallbacks, Config.ret]) ?_)
        rw [runCancelCallbacks, store_ret, store_push, store_push]
        rfl

theorem sim_runRegularCallbacks {c : Config U} {r : Result U}
    {todo : List (RegularCallbackList U)} {v : Val U} (hwf : c.heap.WellFormed)
    (hg : (Frame.runRegularCallbacks todo r).Permits g
      (c.store.add (Frame.runRegularCallbacks todo r).work) v) :
    Sim g (c.store.add (Frame.runRegularCallbacks todo r).work)
      (runRegularCallbacks c r todo) := by
  cases todo with
  | nil => simpa [Frame.work, runRegularCallbacks] using Sim.ret c .unit
  | cons fs rest =>
    have hstore : c.store.add (Frame.runRegularCallbacks (fs :: rest) r).work =
        (c.push [.runRegularCallbacks rest r]).store.add {.regular fs r} := by
      rw [store_push]
      simp [Frame.work]
    rw [hstore] at hg ⊢
    cases fs with
    | empty =>
      exact Sim.act (.regularEmpty (w := (c.push [.runRegularCallbacks rest r]).store.work)
        rfl) (.refl (by simp [runRegularCallbacks, Config.ret]) rfl)
    | concat fs fs' =>
      refine Sim.act (.regularConcat
        (w := (c.push [.runRegularCallbacks rest r]).store.work) rfl)
        (.refl (by simp [runRegularCallbacks, Config.ret]) ?_)
      rw [runRegularCallbacks, store_ret, store_push, store_push]
      simp [Frame.work, Store.add, Multiset.cons_swap]
    | implicitlyRemoved node =>
      exact sim_runCallback (c := c.push [.runRegularCallbacks rest r]) hwf
    | explicitlyRemovable i =>
      cases hcell : c.cells[i]? with
      | none =>
        have hdead : isLive c.cells i = false := by simp [isLive, hcell]
        have hrun : runRegularCallbacks c r (.explicitlyRemovable i :: rest) =
            (c.push [.runRegularCallbacks rest r]).ret .unit := by
          simp [runRegularCallbacks, Config.push, hcell]
        rw [hrun]
        exact Sim.act (.regularDead
          (w := (c.push [.runRegularCallbacks rest r]).store.work) rfl hdead)
          (.refl (by simp [Config.ret]) rfl)
      | some cell =>
        by_cases hlive : cell.live = true
        · have hlive' : isLive c.cells i = true := by simp [isLive, hcell, hlive]
          have hrun : runRegularCallbacks c r (.explicitlyRemovable i :: rest) =
              runCell (c.push [.runRegularCallbacks rest r]) i cell r := by
            simp [runRegularCallbacks, Config.push, hcell, hlive]
          rw [hrun]
          exact sim_runCell (c := c.push [.runRegularCallbacks rest r]) hwf hcell hlive
            (hg hlive')
        · have hdead : isLive c.cells i = false := by simpa [isLive, hcell] using hlive
          have hrun : runRegularCallbacks c r (.explicitlyRemovable i :: rest) =
              (c.push [.runRegularCallbacks rest r]).ret .unit := by
            simp [runRegularCallbacks, Config.push, hcell, hlive]
          rw [hrun]
          exact Sim.act (.regularDead
            (w := (c.push [.runRegularCallbacks rest r]).store.work) rfl hdead)
            (.refl (by simp [Config.ret]) rfl)

theorem sim_runCallbacks {c : Config U} {p : Pid} {callbacks : Callbacks U} {r : Result U} :
    Sim g (c.store.add {.record p callbacks r}) (runCallbacks c p callbacks r) := by
  refine Sim.act (.runRecord (s := c.store.add _) (w := c.store.work) rfl)
    (.refl (by simp [runCallbacks, Config.ret]) ?_)
  rw [runCallbacks, store_ret, store_push]
  cases hr : r.isCanceled with
  | false => simp [Callbacks.opened, hr, Frame.work, Store.add, Config.store, Config.emit]
  | true => simp [Callbacks.opened, hr, Frame.work, Store.add, Config.store, Config.emit]

theorem sim_wakeupEach {c : Config U} {tmp curr : ℕ} {woken : Bool} (hs : Sound c.store) :
    Sim g c.store (wakeupEach c tmp curr woken) := by
  have hnext : ∀ frame : Frame U, frame.work = 0 →
      Sim g c.store ((c.push [frame]).ret .unit) := by
    intro frame hframe
    refine .refl (by simp [Config.ret]) ?_
    rw [store_ret, store_push]
    simp [hframe]
  unfold wakeupEach
  split
  · exact hnext _ rfl
  split
  · exact .ret c .unit
  split
  · rename_i p _ hdata
    have hstore : (c.push [.wakeupEach tmp curr true]).store = c.store := by
      rw [store_push]
      simp [Frame.work]
    have hsim := sim_wakeupWith (g := g) (c := c.push [.wakeupEach tmp curr true])
      (d := .immediately) "wakeup" (r := .fulfilled .unit) (by rwa [hstore])
      (hs.sequences p ⟨curr, hdata⟩)
    rwa [hstore] at hsim
  · exact hnext _ rfl

theorem sim_push_eq {c : Config U} {frames : List (Frame U)} {w : Multiset (Work U)} {v : Val U}
    (hw : Table.total Frame.work frames = w) : Sim g (c.store.add w) ((c.push frames).ret v) := by
  refine .refl (by simp [Config.ret]) ?_
  rw [store_ret, store_push, hw]

theorem sim_returnTo {c c' : Config U} {v : Val U} {frame : Frame U} (hs : Sound c.store)
    (hg : frame.Permits g (c.store.add frame.work) v) (hret : returnTo c v frame = some c') :
    Sim g (c.store.add frame.work) c' := by
  have hwf : c.heap.WellFormed := hs.wellFormed
  have hzero : ∀ {c' : Config U}, Sim g c.store c' → Sim g (c.store.add 0) c' := by
    intro c' h
    rwa [Store.add_zero]
  cases frame with
  | user u =>
    cases hret
    exact hzero (.refl (by simp) rfl)
  | guardFail =>
    cases hret
    exact hzero (.ret c v)
  | attach k =>
    simp only [returnTo] at hret
    split at hret
    · split at hret
      · rename_i p hp
        cases hret
        exact hzero (sim_attachTo hwf hp)
      · simp at hret
    · simp at hret
  | proxyInto target =>
    simp only [returnTo] at hret
    split at hret
    · split at hret
      · rename_i q hq
        cases hret
        exact sim_makeIntoProxy hwf hq fun hne hpending => hg q rfl hne hpending
      · simp at hret
    · simp at hret
  | resolveWith target =>
    cases hret
    exact sim_resolveUnderlying hwf (.inl rfl)
  | allocWith =>
    cases hret
    exact hzero (.retNew c _)
  | hooked =>
    cases hret
    exact hzero (.ret c .unit)
  | runCallbacks p callbacks r =>
    cases hret
    exact sim_runCallbacks
  | runCancelCallbacks todo =>
    cases hret
    exact sim_runCancelCallbacks hg
  | runRegularCallbacks todo r =>
    cases hret
    exact sim_runRegularCallbacks hwf hg
  | leaveResolutionLoop snapshot =>
    simp only [returnTo] at hret
    split at hret
    -- the outermost loop goes on with what has been deferred
    · cases hret
      exact sim_push_eq rfl
    · cases hret
      exact hzero (.refl (by simp [Config.ret]) rfl)
  | drain snapshot =>
    simp only [returnTo] at hret
    split at hret
    · cases hret
      exact hzero (.refl (by simp [Config.ret]) rfl)
    · rename_i p callbacks r rest hqueue
      cases hret
      refine hzero (.refl (by simp [Config.ret]) ?_)
      rw [store_ret, store_push]
      -- the deferred record goes from the queue to the stack
      simp [Frame.work, Store.add, Config.store, hqueue, queueWork]
  | propagateCancel todo collected =>
    cases todo with
    | nil =>
      cases hret
      exact sim_push_eq (by simp [Frame.work])
    | cons p todo =>
      cases hret
      exact sim_cancelAndCollectCallbacks hwf
  | runRecords records =>
    cases records with
    | nil =>
      cases hret
      exact hzero (.ret c .unit)
    | cons entry rest =>
      cases hret
      obtain ⟨hcontrol, hstore⟩ := store_runCallbacksOrDeferThem (c.push [.runRecords rest])
        .immediately entry.1 entry.2 (.rejected .canceled)
      refine .refl hcontrol ?_
      rw [hstore, store_push]
      simp [Frame.work, canceledRecords]
  | iterCancel ps =>
    cases ps with
    | nil =>
      cases hret
      exact hzero (.ret c .unit)
    | cons p ps =>
      cases hret
      have h := sim_cancel (g := g) (c := c.push [.iterCancel ps]) (p := p)
      rw [store_push] at h
      simpa [Frame.work] using h
  | resolveUnderlying target r =>
    cases hret
    exact sim_resolveUnderlying hwf (.inr rfl)
  | resolveExact p r =>
    cases hret
    exact sim_resolveExact
  | nthResolvedAndCancelPending ps n =>
    cases hret
    exact hzero (sim_nthResolvedAndCancelPending hwf)
  | nthResolved ps n =>
    simp only [returnTo] at hret
    split at hret
    · cases hret
      exact hzero (Sim.followAll_zero ps hwf (.ret _ _))
    · cases hret
      exact hzero (Sim.followAll_zero ps hwf (.raise _ _))
  | returnPromise p =>
    cases hret
    exact hzero (.ret c _)
  | allocResult r =>
    cases hret
    exact hzero (.retNew c r)
  | withValue savedStorage =>
    cases hret
    exact hzero (.refl (by simp [Config.ret]) rfl)
  | wakeupEach tmp curr woken =>
    cases hret
    exact hzero (sim_wakeupEach hs)

theorem sim_raiseTo {c : Config U} {e : Exn U} {frame : Frame U} (hwf : c.heap.WellFormed)
    (hg : frame.breaks c e = true → g (c.store.add frame.work) .drop) :
    Sim g (c.store.add frame.work) (raiseTo c e frame) := by
  have hdrop : g (c.store.add frame.work) .drop →
      Sim g (c.store.add frame.work) (c.raise e) := fun h =>
    Sim.act (.drop (w := c.store.work) h (Multiset.le_add_left _ _)) (.raise c e)
  have hzero : ∀ {c' : Config U}, Sim g c.store c' → Sim g (c.store.add 0) c' := by
    intro c' h
    rwa [Store.add_zero]
  cases frame with
  | user u => exact hzero (.refl (by simp [raiseTo]) rfl)
  | guardFail =>
    simp only [raiseTo]
    split
    · exact hzero (.retNew c _)
    · exact hzero (.raise c e)
  | allocWith =>
    simp only [raiseTo]
    split
    · exact hzero (.retNew c _)
    · exact hzero (.raise c e)
  | resolveWith target =>
    simp only [raiseTo]
    split
    · exact sim_resolveUnderlying hwf (.inl rfl)
    · rename_i hfilter
      exact hdrop (hg (by simpa [Frame.breaks] using hfilter))
  | hooked =>
    simp only [raiseTo]
    split
    · exact hzero (.apply _ _)
    · exact hzero (.raise c e)
  | withValue savedStorage =>
    simp only [raiseTo]
    split
    · exact hzero (.refl (by simp [Config.raise]) rfl)
    · exact hzero (.raise c e)
  | attach => exact hzero (.raise c e)
  | iterCancel => exact hzero (.raise c e)
  | nthResolvedAndCancelPending => exact hzero (.raise c e)
  | nthResolved => exact hzero (.raise c e)
  | returnPromise => exact hzero (.raise c e)
  | allocResult => exact hzero (.raise c e)
  | wakeupEach => exact hzero (.raise c e)
  | _ => exact hdrop (hg rfl)

/-! ## Public functions and steps -/

theorem sim_newInitial {c : Config U} {how : HowToCancel}
    (hhow : how = .notCancelable ∨ how = .cancelThisPromise) :
    Sim g c.store (newInitial c how) :=
  Sim.act (.allocInitial (s := c.store) (q := c.sequences) (.inl ⟨rfl, rfl⟩) hhow
      fun _ hp => .inl hp)
    (.refl (by simp [newInitial, Config.ret]) rfl)

theorem sim_addTask {c c' : Config U} (add : Sequences Pid → Pid → ℕ → Sequences Pid) (seq : ℕ)
    (hadd : ∀ {x a b}, (add c.sequences b seq).data x = some a →
      c.sequences.data x = some a ∨ a = b)
    (hsim : Sim g (addTask add c seq).store c') : Sim g c.store c' := by
  refine Sim.act (.allocInitial (s := c.store) (q := add c.sequences c.heap.length seq)
    (.inr ⟨c.sequences.length, rfl, rfl⟩) (.inr rfl) ?_) hsim
  rintro p ⟨i, hi⟩
  rcases hadd hi with hold | rfl
  · exact .inl ⟨i, hold⟩
  · exact .inr rfl

theorem sim_pause {c : Config U} : Sim g c.store (pause c) := by
  refine sim_addTask Sequences.addR paused Sequences.data_addR ?_
  unfold pause
  dsimp only
  split
  · exact .ret _ _
  · exact sim_apply_frame
      (c := { addTask Sequences.addR c paused with
        pausedCount := (addTask Sequences.addR c paused).pausedCount + 1 }) rfl

theorem sim_wakeupPaused {c : Config U} : Sim g c.store (wakeupPaused c) := by
  unfold wakeupPaused
  split
  · exact .refl (by simp [Config.ret]) rfl
  · refine Sim.act (.sequences (s := c.store)
      (q := c.sequences.create.transferR paused c.sequences.length) ?_)
      (.refl (by simp [Config.ret]) ?_)
    · rintro p ⟨i, hi⟩
      rw [Sequences.data_transferR] at hi
      exact ⟨i, Sequences.data_create hi⟩
    · rw [store_ret, store_push]
      simp [Frame.work, Store.add, Config.store]

theorem sim_take {c : Config U} {seq : ℕ} {taken : Option (Pid × Sequences Pid)}
    (htaken : taken = c.sequences.takeL seq ∨ taken = c.sequences.takeR seq) :
    Sim g c.store (take taken c) := by
  unfold take
  split
  · rename_i p sequences
    obtain ⟨node, hnode⟩ : ∃ node, sequences = c.sequences.remove node := by
      rcases htaken with htaken | htaken
      · simp only [Sequences.takeL] at htaken
        split at htaken
        · simp at htaken
        · obtain ⟨_, _, hpair⟩ := Option.map_eq_some_iff.mp htaken.symm
          exact ⟨_, (congrArg Prod.snd hpair).symm⟩
      · simp only [Sequences.takeR] at htaken
        split at htaken
        · simp at htaken
        · obtain ⟨_, _, hpair⟩ := Option.map_eq_some_iff.mp htaken.symm
          exact ⟨_, (congrArg Prod.snd hpair).symm⟩
    refine Sim.act (.sequences (s := c.store) (q := sequences) ?_)
      (.refl (by simp [Config.ret]) rfl)
    rintro p ⟨i, hi⟩
    rw [hnode, Sequences.data_remove] at hi
    exact ⟨i, hi⟩
  · exact .raise c _

theorem sim_execute {c : Config U} {o : Op U} {u : U} (hs : Sound c.store)
    (hvalid : o.valid c = true) (hg : Label.Permits g (.move (.call o u))) :
    Sim g c.store (execute c o) := by
  have hwf : c.heap.WellFormed := hs.wellFormed
  simp only [Op.valid, Bool.and_eq_true, List.all_eq_true, decide_eq_true_eq] at hvalid
  obtain ⟨⟨hpromises, hresolvers⟩, -⟩ := hvalid
  cases o with
  | ofResult r => exact .retNew c r
  | wait => exact sim_newInitial (.inl rfl)
  | task => exact sim_newInitial (.inr rfl)
  | addTaskR seq =>
    exact sim_addTask Sequences.addR _ Sequences.data_addR
      (.refl (by simp [execute, addTask, Config.ret]) rfl)
  | addTaskL seq =>
    exact sim_addTask Sequences.addL _ Sequences.data_addL
      (.refl (by simp [execute, addTask, Config.ret]) rfl)
  | attach k p => exact sim_attachTo hwf (hpromises p (by simp [Op.promises]))
  | tryAttach f k =>
    -- the guarded call is a call with two frames under it
    have h := sim_apply_push (g := g) (c := c) [.guardFail, .attach k] f .unit
    simpa [Frame.work, execute] using h
  | onCancel p f => exact sim_onCancel hwf
  | protected' p => exact sim_protected hwf hg
  | join ps => exact sim_join hs
  | choose ps random => exact sim_choose hwf hpromises
  | pick ps random => exact sim_pick hwf hpromises
  | nchoose ps => exact sim_nchoose hwf hpromises
  | npick ps => exact sim_npick hwf hpromises
  | nchooseSplit ps => exact sim_nchooseSplit hwf hpromises
  | cancel p => exact sim_cancel
  | wakeupGeneral name p r => exact sim_wakeupWith _ hs (hresolvers p (by simp [Op.resolvers]))
  | wakeupLaterGeneral name p r =>
    exact sim_wakeupWith _ hs (hresolvers p (by simp [Op.resolvers]))
  | state p => exact Sim.follow_zero (p := p) hwf (.ret _ _)
  | poll p =>
    refine Sim.follow_zero (p := p) hwf ?_
    simp only [execute, poll]
    split
    · exact .ret _ _
    · exact .raise _ _
    · exact .ret _ _
  | pause => exact sim_pause
  | wakeupPaused => exact sim_wakeupPaused
  | abandonPaused =>
    refine Sim.act (.sequences (s := c.store) (q := c.sequences.clear paused) ?_)
      (.refl (by simp [execute, Config.ret]) rfl)
    -- the promises of the cleared sequence were in it before
    rintro p ⟨i, hi⟩
    exact ⟨i, by rwa [Sequences.data_clear] at hi⟩
  | withValue key value f => exact sim_apply_frame (c := { c with storage := _ }) rfl
  | abandonWakeups =>
    simp only [execute]
    split
    · refine .refl (by simp [Config.ret]) ?_
      rw [store_ret, store_push]
      simp [Frame.work]
    · exact .ret c .unit
  | createSequence =>
    refine Sim.act (.sequences (s := c.store) (q := c.sequences.create) ?_)
      (.refl (by simp [execute, Config.ret]) rfl)
    rintro p ⟨i, hi⟩
    exact ⟨i, Sequences.data_create hi⟩
  | takeL seq => exact sim_take (.inl rfl)
  | takeR seq => exact sim_take (.inr rfl)
  | _ => exact .refl (by simp [execute, Config.ret]) rfl

theorem step_sim {c c' : Config U} {a : Label U} (hs : Sound c.store) (hg : c.Permits g a)
    (hstep : step c a = some c') : Sim g c.store c' := by
  unfold step at hstep
  split at hstep
  · rename_i s m hcontrol
    cases m with
    | call o u =>
      simp only [userStep] at hstep
      split at hstep
      · rename_i hvalid
        cases hstep
        have hstore : (c.push [.user u]).store = c.store := by
          rw [store_push]
          simp [Frame.work]
        rw [← hstore] at hs ⊢
        simp only [Config.Permits, hcontrol] at hg
        exact sim_execute hs hvalid hg
      · simp at hstep
    | apply f argument u =>
      cases hstep
      exact sim_apply_frame rfl
    | ret v =>
      simp only [userStep] at hstep
      split at hstep
      · simp at hstep
      · split at hstep
        · cases hstep
          exact .ret c v
        · simp at hstep
    | raise e =>
      simp only [userStep] at hstep
      split at hstep
      · simp at hstep
      · cases hstep
        exact .raise c e
  · rename_i v hcontrol
    split at hstep
    · simp at hstep
    · rename_i frame stack hstack
      simp only [Config.Permits, hcontrol, hstack] at hg
      rw [store_stack c hstack] at hg ⊢
      refine sim_returnTo ⟨hs.wellFormed, hs.resolvers_lt, hs.sequences⟩ hg hstep
  · rename_i e hcontrol
    split at hstep
    · simp at hstep
    · rename_i frame stack hstack
      cases hstep
      simp only [Config.Permits, hcontrol, hstack] at hg
      rw [store_stack c hstack] at hg ⊢
      exact sim_raiseTo hs.wellFormed hg
  · simp at hstep

theorem sound_initial (main hook : U) : Sound (initial main hook).store := by
  refine ⟨⟨fun p => ⟨p, .here (by simp [initial, Config.store, parent])⟩, ?_⟩, ?_, ?_⟩
  · intro p q hq
    simp [initial, Config.store, parent] at hq
  · intro p hp
    simp [initial, Config.store] at hp
  · rintro p ⟨i, hi⟩
    exact absurd (Sequences.data_create hi) (by simp [Sequences.data])

/-- An invariant of acts, with soundness, is kept by steps whose hazards are admitted, as
long as the machine has not crashed. -/
theorem reach_store_from {ok : Config U → Label U → Prop} {P : Store U → Prop}
    {c₀ c : Config U} (hok : ∀ c a, ok c a → c.Permits g a)
    (hact : ∀ s s', Sound s → P s → Act g s s' → P s')
    (hinit : Sound c₀.store ∧ P c₀.store) (hreach : Transition.Reach step ok c₀ c) :
    c.control ≠ .crash → Sound c.store ∧ P c.store := by
  refine hreach.invariant (P := fun c => c.control ≠ .crash → Sound c.store ∧ P c.store)
    (fun _ => hinit) ?_
  intro c a c' hc hokc hstep hcontrol
  obtain ⟨hs, hP⟩ := hc (control_ne_crash_of_step hstep)
  obtain ⟨s', hacts, hend⟩ := step_sim hs (hok c a hokc) hstep
  rcases hend with ⟨hcrash, -⟩ | ⟨-, rfl⟩
  · exact absurd hcrash hcontrol
  · exact hacts.invariant (P := fun s => Sound s ∧ P s) ⟨hs, hP⟩ fun s s' hsp hact' =>
      ⟨hact'.sound hsp.1, hact s s' hsp.1 hsp.2 hact'⟩

theorem reach_store {ok : Config U → Label U → Prop} {P : Store U → Prop} {main hook : U}
    {c : Config U} (hok : ∀ c a, ok c a → c.Permits g a)
    (hact : ∀ s s', Sound s → P s → Act g s s' → P s')
    (hinit : P (initial main hook).store)
    (hreach : Transition.Reach step ok (initial main hook) c) :
    c.control ≠ .crash → Sound c.store ∧ P c.store :=
  reach_store_from hok hact ⟨sound_initial main hook, hinit⟩ hreach

/-- How a run stands: the invariant holds of the store, or the machine has crashed in a
store that is stuck and of which the invariant holds. -/
theorem reach_cases {ok : Config U → Label U → Prop} {P : Store U → Prop} {main hook : U}
    {c : Config U} (hok : ∀ c a, ok c a → c.Permits g a)
    (hact : ∀ s s', Sound s → P s → Act g s s' → P s')
    (hinit : P (initial main hook).store)
    (hreach : Transition.Reach step ok (initial main hook) c) :
    (c.control ≠ .crash ∧ P c.store) ∨
      (c.control = .crash ∧ ∃ s, P s ∧ Stuck g s ∧ s.CrashTrace c.trace) := by
  by_cases hcrash : c.control = .crash
  · cases hreach with
    | refl => simp [initial] at hcrash
    | @tail c₀ _ a hreach hokc hstep =>
      obtain ⟨hs, hP⟩ := reach_store hok hact hinit hreach (control_ne_crash_of_step hstep)
      obtain ⟨s', hacts, hend⟩ := step_sim hs (hok c₀ a hokc) hstep
      rcases hend with ⟨-, hend⟩ | ⟨hcontrol, -⟩
      · have hP' := hacts.invariant (P := fun s => Sound s ∧ P s) ⟨hs, hP⟩
          fun s s' hsp hact' => ⟨hact'.sound hsp.1, hact s s' hsp.1 hsp.2 hact'⟩
        exact .inr ⟨hcrash, s', hP'.2, hend⟩
      · exact absurd hcrash hcontrol
  · exact .inl ⟨hcrash, (reach_store hok hact hinit hreach hcrash).2⟩

/-- If the invariant excludes stuck stores, the machine does not crash. -/
theorem reach_not_crash {ok : Config U → Label U → Prop} {P : Store U → Prop} {main hook : U}
    {c : Config U} (hok : ∀ c a, ok c a → c.Permits g a)
    (hact : ∀ s s', Sound s → P s → Act g s s' → P s')
    (hstuck : ∀ s, P s → ¬ Stuck g s) (hinit : P (initial main hook).store)
    (hreach : Transition.Reach step ok (initial main hook) c) : c.control ≠ .crash := by
  rcases reach_cases hok hact hinit hreach with ⟨hcontrol, -⟩ | ⟨-, s, hP, hend, -⟩
  · exact hcontrol
  · exact absurd hend (hstuck s hP)

end Lwt
