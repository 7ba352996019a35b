import Lwt.Promise.Pick

/-!
# The race between the members of a `pick`

A `pick` whose members are all pending attaches one removable callback to each of them.
The first of them to be processed clears the cell, so that the callback is not called again
(`step_cell`); it cancels all members and then resolves the promise of the `pick`.
`Racing` follows these steps through a run in which no exception breaks a loop.
`pick_gives_member` puts this together with what a call with a resolved member gives.
-/

namespace Lwt

open Heap Transition

variable {U : Type} {c₀ c₁ c c' : Config U} {a : Label U} {i : ℕ} {p : Pid} {ps : List Pid}
  {r : Result U}

/-! ## The cell -/

/-- The guard that admits the clearing of the cell `k` only. -/
def clearingGuard (k : Option ℕ) : Guard U := fun _ hazard =>
  match hazard with
  | .call j | .remove j => k = some j
  | _ => True

theorem permits_clearingGuard (c : Config U) (a : Label U) :
    c.Permits (clearingGuard c.clearing) a := by
  unfold Config.Permits
  split
  · rename_i v frame stack hcontrol hstack
    unfold Frame.Permits
    split
    · intro hlive
      have hlive' : c.isLive _ = true := hlive
      simp [clearingGuard, Config.clearing, hcontrol, hstack, hlive']
    · simp [clearingGuard, Config.clearing, hcontrol, hstack]
    · exact fun _ _ _ _ => trivial
    · trivial
  · exact fun _ => trivial
  · unfold Label.Permits
    split
    · exact fun _ => trivial
    · trivial
  · trivial

/-- Only the cell that the guard admits is cleared. -/
theorem Act.getElem?_cell {k : Option ℕ} {s s' : Store U} {cell : Cell} (hk : k ≠ some i)
    (hcell : s.cells[i]? = some cell) (hact : Act (clearingGuard k) s s') :
    s'.cells[i]? = some cell := by
  have hother : ∀ j, k = some j → (clearedCells s.cells j)[i]? = some cell := by
    rintro j rfl
    have hne : j ≠ i := fun h => hk (by rw [h])
    simp [clearedCells, hne, hcell]
  have happend : ∀ new, (s.cells ++ [new])[i]? = some cell := fun new => by
    rw [List.getElem?_append_left (List.getElem?_eq_some_iff.mp hcell).1]
    exact hcell
  cases hact with
  | newCell => exact happend _
  | newProtection => exact happend _
  | cancelsRemove hwork hguard => exact hother _ hguard
  | callCell hwork hcell' hlive hkind hguard => exact hother _ hguard
  | callProtection hwork hcell' hlive hkind hguard => exact hother _ hguard
  | _ => exact hcell

/-- The step runs the callback in the cell `i` of a `pick` with the result `r`. -/
structure CallsPick (i : ℕ) (p : Pid) (ps : List Pid) (r : Result U) (c c' : Config U) : Prop where
  returns : ∃ v, c.control = .ret v
  frame : ∃ rest stack, c.stack = .runRegularCallbacks (.explicitlyRemovable i :: rest) r :: stack
  stack : ∃ below, c'.stack = .iterCancel ps :: .resolveUnderlying p r :: below
  control : c'.control = .ret .unit
  trace : c'.trace = .cellCalled i r :: c.trace

/-- The step calls the callback in the cell `i`. -/
def CallsCell (i : ℕ) (cell : Cell) (c c' : Config U) : Prop :=
  ∃ v rest r stack, c.control = .ret v ∧
    c.stack = .runRegularCallbacks (.explicitlyRemovable i :: rest) r :: stack ∧
    c' = runCell ({ c with stack := stack }.push [.runRegularCallbacks rest r]) i cell r

/-- A live cell, other than that of a `protected`, stays so until its callback is called. -/
theorem step_liveCell {cell : Cell} (hs : Sound c.store) (ht : Tracked c.store)
    (hcell : c.cells[i]? = some cell) (hlive : cell.live = true) (hkind : cell.kind ≠ .protection)
    (hstep : step c a = some c') (hcontrol : c'.control ≠ .crash) :
    c'.cells[i]? = some cell ∨ CallsCell i cell c c' := by
  by_cases hclearing : c.clearing = some i
  · right
    unfold Config.clearing at hclearing
    split at hclearing
    · rename_i v j rest r stack hctrl hstack
      split at hclearing
      · obtain rfl := Option.some.inj hclearing
        have hrun : runRegularCallbacks { c with stack := stack } r
            (.explicitlyRemovable j :: rest) = c' :=
          Option.some.inj (returnTo_of_step hctrl hstack hstep)
        have hget : ({ c with stack := stack }.push [.runRegularCallbacks rest r]).cells[j]? =
            some cell := hcell
        simp only [runRegularCallbacks, hget, hlive, if_true] at hrun
        exact ⟨v, rest, r, stack, hctrl, hstack, hrun.symm⟩
      · simp at hclearing
    · rename_i mark storage j rest stack hctrl hstack
      -- A removal is of the cell of a `protected`.
      obtain rfl := Option.some.inj hclearing
      have hframe : .runCancelCallbacks (.callback mark storage (.removeTheCallback j) :: rest) ∈
          c.stack := by simp [hstack]
      obtain ⟨cell', q, hcell', -, hkind', -⟩ := ht.removable j
        (mem_removals_of_work (w := .cancels (.callback mark storage (.removeTheCallback j)))
          (mem_work_of_mem_stack hframe (by simp [Frame.work]))
          (by simp [Work.removals, CancelCallbackList.removals]))
      obtain rfl : cell = cell' := Option.some.inj (hcell.symm.trans hcell')
      exact absurd hkind' hkind
    · simp at hclearing
  · left
    obtain ⟨s', hacts, hend⟩ := step_sim hs (permits_clearingGuard c a) hstep
    have hkept : s'.cells[i]? = some cell :=
      Acts.invariant (P := fun s => s.cells[i]? = some cell) hacts hcell
        fun _ _ h hact => hact.getElem?_cell hclearing h
    rcases hend with ⟨hcrash, -⟩ | ⟨-, rfl⟩
    · exact absurd hcrash hcontrol
    · exact hkept

theorem step_cell (hs : Sound c.store) (ht : Tracked c.store)
    (hcell : c.cells[i]? = some ⟨.pick, p, ps, true⟩) (hstep : step c a = some c')
    (hcontrol : c'.control ≠ .crash) :
    c'.cells[i]? = some ⟨.pick, p, ps, true⟩ ∨ ∃ r, CallsPick i p ps r c c' := by
  rcases step_liveCell hs ht hcell rfl (by simp) hstep hcontrol with hcell' |
    ⟨v, rest, r, stack, hctrl, hstack, rfl⟩
  · exact .inl hcell'
  · exact .inr ⟨r, ⟨v, hctrl⟩, ⟨rest, stack, hstack⟩, ⟨_, rfl⟩, rfl, rfl⟩

/-! ## The race -/

/-- The step from `c₂` to `c₃`, in a run that starts at `c₁`, is the first to process a
member of the `pick`: it has the result `r`. -/
structure ProcessedFirst (ok : Config U → Label U → Prop) (c₁ : Config U) (i : ℕ) (p : Pid)
    (ps : List Pid) (r : Result U) (c₂ c₃ : Config U) : Prop where
  reach : Reach step ok c₁ c₂
  calls : CallsPick i p ps r c₂ c₃
  step : ∃ a, ok c₂ a ∧ step c₂ a = some c₃
  first : ∀ r', .cellCalled i r' ∉ c₂.trace
  member : ∃ q ∈ ps, c₂.heap.stateOf q = some (.resolved r)

/-- How the `pick` with the cell `i` and the promise `p`, whose call led to `c₁`, stands in
a run in which no exception breaks a loop. -/
inductive Racing (ok : Config U → Label U → Prop) (c₁ : Config U) (i : ℕ) (p : Pid)
    (ps : List Pid) (c : Config U) : Prop
  | waiting : Reach step ok c₁ c → c.cells[i]? = some ⟨.pick, p, ps, true⟩ →
      Racing ok c₁ i p ps c
  | canceling (r : Result U) (c₂ c₃ : Config U) (below : List (Frame U)) :
      ProcessedFirst ok c₁ i p ps r c₂ c₃ → Reach step ok c₃ c → Past c₃ c →
      Iterating True c₃.trace ps (.resolveUnderlying p r :: below) c → Racing ok c₁ i p ps c
  | due (r : Result U) (c₂ c₃ : Config U) (below : List (Frame U)) :
      ProcessedFirst ok c₁ i p ps r c₂ c₃ → Reach step ok c₃ c → Past c₃ c →
      (∀ q ∈ ps, Requested c₃.trace c q) → c.stack = .resolveUnderlying p r :: below →
      (∃ v, c.control = .ret v) → Racing ok c₁ i p ps c
  | done (r : Result U) (c₂ c₃ : Config U) : ProcessedFirst ok c₁ i p ps r c₂ c₃ →
      Reach step ok c₃ c → Past c₃ c → (∀ q ∈ ps, Requested c₃.trace c q) →
      c.heap.IsResolved (c.heap.root p) r → Racing ok c₁ i p ps c

theorem Owned.isPending_of_frame (ho : Owned c.store) (hframe : .resolveUnderlying p r ∈ c.stack) :
    ∃ callbacks, c.heap[c.heap.root p]? = some (.pending callbacks) := by
  have hwork : .owe p (some r) ∈ c.store.work :=
    mem_work_of_mem_stack hframe (Multiset.mem_singleton_self _)
  obtain ⟨callbacks, hcb, -⟩ :=
    ho.pending p (mem_internal_of_work hwork (Multiset.mem_singleton_self p))
  exact ⟨callbacks, hcb⟩

theorem isResolved_resolveUnderlying {callbacks : Callbacks U} (hwf : c.heap.WellFormed)
    (hp : c.heap[c.heap.root p]? = some (.pending callbacks)) :
    (resolveUnderlying c p r).heap.IsResolved ((resolveUnderlying c p r).heap.root p) r := by
  have hcomp := compressed_compress hwf p
  have hwf' := hcomp.wellFormed hwf
  have hp' : (c.heap.compress p)[Heap.root (c.heap.compress p) p]? = some (.pending callbacks) := by
    rw [hcomp.root_eq hwf, hcomp.getElem?_root hwf]
    exact hp
  have hheap : (resolveUnderlying c p r).heap =
      (c.heap.compress p).set (Heap.root (c.heap.compress p) p) (.resolved r) := by
    rw [hcomp.root_eq hwf] at hp' ⊢
    simp only [resolveUnderlying, resolve, Config.follow, hp']
    rfl
  rw [hheap]
  exact isResolved_root_set hwf' hp'

theorem CalledOnce.not_called {s : Store U} (honce : CalledOnce s) (hlive : isLive s.cells i = true)
    (r : Result U) : .cellCalled i r ∉ s.trace := by
  intro hmem
  have hcalled : i ∈ calledCells s.trace := List.mem_filterMap.mpr ⟨_, hmem, rfl⟩
  simp [(honce.dead i hcalled).2] at hlive

theorem Racing.step {ok : Config U → Label U → Prop} (hokq : ∀ c a, ok c a → c.quiet = true)
    (h : Racing ok c₁ i p ps c) (hs : Sound c.store) (hk : Kept c.store) (hok : ok c a)
    (hstep : step c a = some c') (hcontrol : c'.control ≠ .crash) : Racing ok c₁ i p ps c' := by
  obtain ⟨new, hnew⟩ := step_trace hs hstep
  cases h with
  | waiting hrun hcell =>
    rcases step_cell hs hk.tracked hcell hstep hcontrol with hcell' | ⟨r, hcalls⟩
    · exact .waiting (hrun.tail a hok hstep) hcell'
    · obtain ⟨rest, stack, hstack⟩ := hcalls.frame
      obtain ⟨below, hstack'⟩ := hcalls.stack
      -- The list that is being called holds the cell.
      have hframe : .runRegularCallbacks (.explicitlyRemovable i :: rest) r ∈ c.stack := by
        simp [hstack]
      obtain ⟨cell, hcell', q, hq, hr⟩ := hk.tracked.due (.regular (.explicitlyRemovable i) r)
        (mem_work_of_mem_stack hframe (by simp [Frame.work])) _ r ⟨rfl, rfl⟩ i
        (by simp [RegularCallbackList.cells])
      obtain rfl : _ = cell := Option.some.inj (hcell.symm.trans hcell')
      have hlive : isLive c.store.cells i = true := isLive_iff.mpr ⟨_, hcell, rfl⟩
      have hs' := ((Past.refl hs).step hstep).sound hcontrol
      exact .canceling r c c' below
        ⟨hrun, hcalls, ⟨a, hok, hstep⟩, hk.calledOnce.not_called hlive, q, hq, hr⟩ .refl
        (.refl hs') (iterating_push ps hstack' hcalls.control)
  | canceling r c₂ c₃ below hfirst hrun hpast hiter =>
    have hrun' := hrun.tail a hok hstep
    have hpast' := hpast.step hstep
    rcases hiter.step hs hpast.trace (fun _ => hokq c a hok) hstep with
      hiter | ⟨hstack, ⟨hret, hall⟩ | ⟨hnot, -⟩⟩
    · exact .canceling r c₂ c₃ below hfirst hrun' hpast' hiter
    · exact .due r c₂ c₃ below hfirst hrun' hpast' hall hstack hret
    · exact absurd trivial hnot
  | due r c₂ c₃ below hfirst hrun hpast hall hstack hret =>
    obtain ⟨v, hret⟩ := hret
    obtain ⟨callbacks, hp⟩ := hk.owned.isPending_of_frame (p := p) (r := r) (by simp [hstack])
    have hc' : resolveUnderlying { c with stack := below } p r = c' :=
      Option.some.inj (returnTo_of_step hret hstack hstep)
    refine .done r c₂ c₃ hfirst (hrun.tail a hok hstep) (hpast.step hstep)
      (fun q hq => (hall q hq).of_append hnew) ?_
    rw [← hc']
    exact isResolved_resolveUnderlying hs.wellFormed hp
  | done r c₂ c₃ hfirst hrun hpast hall hr =>
    exact .done r c₂ c₃ hfirst (hrun.tail a hok hstep) (hpast.step hstep)
      (fun q hq => (hall q hq).of_append hnew) (step_isResolved hs hstep hcontrol hr)

/-! ## Orderly runs -/

/-- No exception is about to break a loop, no clearing takes another cell for its own, and
`resolve` is going to find a pending promise. -/
def Config.orderly (c : Config U) : Bool :=
  c.quiet && (c.sparesCells && (c.protectedInTime && c.npickUndisturbed))

theorem Config.orderly_iff : c.orderly = true ↔ c.quiet = true ∧ c.sparesCells = true ∧
    c.protectedInTime = true ∧ c.npickUndisturbed = true := by
  simp [Config.orderly]

/-- What holds in orderly runs. -/
structure Orderly (c : Config U) : Prop where
  alive : c.control ≠ .crash
  sound : Sound c.store
  kept : Kept c.store
  live : LiveDue c.store
  balance : c.balance ≤ 0
  defers : c.DefersInLoop

theorem reach_orderly {main hook : U}
    (hreach : Reach step (fun c _ => c.orderly = true) (initial main hook) c) : Orderly c := by
  have halive : c.control ≠ .crash :=
    reach_not_crash (g := safeGuard) (P := Safe)
      (fun c a h => permits_safeGuard (Config.orderly_iff.mp h).2.2.1
      (Config.orderly_iff.mp h).2.2.2)
      (fun s s' hs hsafe hact => hact.safe hs (fun _ _ hg => hg) hsafe)
      (fun s hsafe => hsafe.not_stuck fun i cell hg => hg cell) (safe_initial main hook) hreach
  obtain ⟨hs, hk⟩ := reach_kept hreach halive
  have hrace := reach_store (g := cellGuard.quietly)
    (P := fun s => Tracked s ∧ CellsPlaced s.heap s.cells ∧ LiveDue s)
    (fun c a h => permits_quietly (permits_cellGuard (Config.orderly_iff.mp h).2.1)
      (Config.orderly_iff.mp h).1)
    (fun s s' hs hc hact => ⟨hact.tracked hs.wellFormed hc.1,
      hact.cellsPlaced hs.wellFormed hc.1 hc.2.1 fun i h => h.elim id id,
      hact.liveDue hs.wellFormed hc.2.1 (fun i h => h) (fun h => h) hc.2.2⟩)
    ⟨tracked_initial main hook, cellsPlaced_initial main hook, fun i cell hcell => by
      simp [initial, Config.store] at hcell⟩ hreach halive
  exact ⟨halive, hs, hk, hrace.2.2.2,
    reach_balance (fun c a h => (Config.orderly_iff.mp h).1) hreach, reach_defersInLoop hreach⟩

/-! ## What `pick` gives -/

/-- The call of `pick ps` made in `c₀`, to go on at `u`, has returned `p`. -/
structure GivesResolved (c₀ : Config U) (u : U) (ps : List Pid) (p : Pid) (c : Config U) :
    Prop where
  chosen : Chosen c₀ ps p
  stack : c.stack = c₀.stack
  control : c.control = .user (.resume u (.ok (.promise p)))
  state : c.heap.stateOf p = c₀.heap.stateOf p
  requested : ∀ q ∈ ps, c₀.heap.isResolved q = false → Requested c₀.trace c q

/-- The promise `p` of a `pick` whose call led to `c₁` is resolved once, with the result of
the member that was processed first, after all members have got a cancel request; it is
resolved when the loops have ended in which a member was resolved. -/
structure GivesFirst (ok : Config U → Label U → Prop) (c₁ : Config U) (i : ℕ) (p : Pid)
    (ps : List Pid) (c : Config U) : Prop where
  resolved : ∀ r, c.heap.stateOf p = some (.resolved r) → ∃ c₂ c₃,
    ProcessedFirst ok c₁ i p ps r c₂ c₃ ∧ Reach step ok c₃ c ∧
      (∀ q ∈ ps, Requested c₃.trace c q) ∧
      ∀ q ∈ ps, (∀ q' ∈ ps, c₂.heap.isResolved q' = true → c₂.heap.root q' = c₂.heap.root q) →
        c₂.heap.stateOf q = some (.resolved r)
  once : (resolvedPromises c.trace).Nodup
  ended : c.loopsEnded = true → (∃ q ∈ ps, c.heap.isResolved q = true) →
    c.heap.isResolved p = true

/-- If one member only has been resolved when the callback is called, it is with its
result. -/
theorem ProcessedFirst.only {ok : Config U → Label U → Prop} {c₂ c₃ : Config U} {q : Pid}
    (h : ProcessedFirst ok c₁ i p ps r c₂ c₃)
    (honly : ∀ q' ∈ ps, c₂.heap.isResolved q' = true → c₂.heap.root q' = c₂.heap.root q) :
    c₂.heap.stateOf q = some (.resolved r) := by
  obtain ⟨q', hq', hr⟩ := h.member
  have hroot := honly q' hq' (Heap.isResolved_iff.mpr ⟨r, hr⟩)
  rw [Heap.stateOf, ← hroot]
  exact hr

/-- Before the race is over, its promise is pending, and the cell is live or the callback is
on the stack. -/
theorem Racing.cases {ok : Config U → Label U → Prop} (h : Racing ok c₁ i p ps c)
    (hk : Kept c.store) :
    ((∀ r, c.heap.stateOf p ≠ some (.resolved r)) ∧
      (c.cells[i]? = some ⟨.pick, p, ps, true⟩ ∨ ∃ r, .resolveUnderlying p r ∈ c.stack)) ∨
    ∃ r c₂ c₃, c.heap.stateOf p = some (.resolved r) ∧ ProcessedFirst ok c₁ i p ps r c₂ c₃ ∧
      Reach Lwt.step ok c₃ c ∧ ∀ q ∈ ps, Requested c₃.trace c q := by
  have hframe : ∀ r, .resolveUnderlying p r ∈ c.stack →
      (∀ r, c.heap.stateOf p ≠ some (.resolved r)) ∧
        (c.cells[i]? = some ⟨.pick, p, ps, true⟩ ∨ ∃ r, .resolveUnderlying p r ∈ c.stack) := by
    intro r hmem
    obtain ⟨callbacks, hcb⟩ := hk.owned.isPending_of_frame hmem
    refine ⟨fun r' hr' => ?_, .inr ⟨r, hmem⟩⟩
    rw [Heap.stateOf, hcb] at hr'
    simp at hr'
  cases h with
  | waiting hrun hcell =>
    exact .inl ⟨fun r hr => hk.owned.not_isResolved (mem_internal_of_live hcell rfl (by simp)) hr,
      .inl hcell⟩
  | canceling r c₂ c₃ below hfirst hrun hpast hiter =>
    obtain ⟨done, rest, -, -, top, hstack, -⟩ := hiter
    exact .inl (hframe r (by simp [hstack]))
  | due r c₂ c₃ below hfirst hrun hpast hall hstack hret =>
    exact .inl (hframe r (by simp [hstack]))
  | done r c₂ c₃ hfirst hrun hpast hall hr => exact .inr ⟨r, c₂, c₃, hr, hfirst, hrun, hall⟩

theorem Racing.givesFirst {ok : Config U → Label U → Prop} (h : Racing ok c₁ i p ps c)
    (ho : Orderly c) : GivesFirst ok c₁ i p ps c := by
  refine ⟨fun r hr => ?_, ho.kept.recorded.nodup, fun hended hmember => ?_⟩
  · rcases h.cases ho.kept with ⟨hnot, -⟩ | ⟨r', c₂, c₃, hr', hfirst, hrun, hall⟩
    · exact absurd hr (hnot r)
    · obtain rfl : r = r' := by simpa [hr] using hr'
      exact ⟨c₂, c₃, hfirst, hrun, hall, fun q _ honly => hfirst.only honly⟩
  · rcases h.cases ho.kept with ⟨-, hcell | ⟨r, hframe⟩⟩ | ⟨r, c₂, c₃, hr, -⟩
    · -- Nothing is left to do, so that the live cell waits in pending promises.
      have hwork := work_eq_zero ho.balance ho.defers hended
      obtain ⟨q, hq, hresolved⟩ := hmember
      obtain ⟨r, hr⟩ := Heap.isResolved_iff.mp hresolved
      rcases ho.live i _ hcell rfl q hq with ⟨callbacks, hcb⟩ | ⟨w, hw, -⟩
      · have hcb' : c.heap[c.heap.root q]? = some (.pending callbacks) := hcb
        rw [IsResolved, hcb'] at hr
        simp at hr
      · simp [hwork] at hw
    · have hout := List.all_eq_true.mp hended _ hframe
      simp [Frame.inLoop] at hout
    · exact Heap.isResolved_iff.mpr ⟨r, hr⟩

/-- The call of a `pick` with a resolved member, as far as it has come. -/
theorem reach_picking (strict : Prop) {u : U} {random : ℕ} {ok : Config U → Label U → Prop}
    (hs : Sound c₀.store) (hps : ps ≠ []) (hsome : ∃ q ∈ ps, c₀.heap.isResolved q = true)
    (hcall : step c₀ (.move (.call (.pick ps random) u)) = some c₁)
    (hok : ∀ c a, ok c a → (strict → c.quiet = true ∧ c₀.walksSteadily c = true) ∧
      c₀.stack.length < c.stack.length)
    (hrun : Reach step ok c₁ c) : Past c₀ c ∧ Picking strict c₀ u ps c := by
  refine hrun.invariant (P := fun c => Past c₀ c ∧ Picking strict c₀ u ps c)
    ⟨(Past.refl hs).step hcall, .of_call hs hps hsome (step_move hcall).2⟩ ?_
  rintro c a c' ⟨hpast, hpick⟩ hokc hstep
  obtain ⟨hgood, hlen⟩ := hok c a hokc
  exact ⟨hpast.step hstep, hpick.step hpast hgood hlen hstep⟩

theorem Picking.givesResolved {u : U} (h : Picking True c₀ u ps c) (hpast : Past c₀ c)
    (hcontrol : c.control ≠ .crash) (hreturn : c.stack.length ≤ c₀.stack.length) :
    ∃ p, GivesResolved c₀ u ps p c := by
  have hlonger : ∀ frames : List (Frame U), frames ≠ [] → c.stack ≠ frames ++ c₀.stack := by
    intro frames hne hstack
    rw [hstack, List.length_append] at hreturn
    have hpos := List.length_pos_iff.mpr hne
    omega
  cases h with
  | walking done rest n hps hn hrejected hdone hcancel =>
    obtain ⟨top, hstack, -⟩ := hcancel
    exact absurd (by simpa using hstack)
      (hlonger (top ++ [.nthResolvedAndCancelPending rest n, .user u]) (by simp))
  | @finishing p todo frame hsel hfacts hiter =>
    obtain ⟨done, rest, -, -, top, hstack, -⟩ := hiter
    exact absurd (by simpa using hstack)
      (hlonger (top ++ [.iterCancel rest, frame, .user u]) (by simp))
  | @selected p frame hsel hfacts hstack hret =>
    exact absurd (by simpa using hstack) (hlonger [frame, .user u] (by simp))
  | returned hfacts hstack hret =>
    exact absurd (by simpa using hstack) (hlonger [.user u] (by simp))
  | @resumed p hfacts hstack hret =>
    obtain ⟨hchosen, hrequested⟩ := hfacts trivial
    obtain ⟨r, hr⟩ := Heap.isResolved_iff.mp hchosen.resolved
    refine ⟨p, hchosen, hstack, hret, ?_, fun q hq hpending => ?_⟩
    · have hbefore : c₀.heap.stateOf p = some (.resolved r) := hr
      rw [hbefore]
      exact hpast.isResolved hcontrol p r hr
    · exact (hrequested q hq hpending).resolve_left (by simp)
  | escaped frames hnot => exact absurd trivial hnot
  | left hnot => exact absurd trivial hnot

theorem reach_returning {u : U} {v : Val U} (hcontrol : c₁.control = .ret v)
    (hstack : c₁.stack = .user u :: c₀.stack)
    (hrun : Reach step (fun c _ => c₀.stack.length < c.stack.length) c₁ c) :
    c.stack = .user u :: c₀.stack ∨ c.stack = c₀.stack := by
  have hinv : (c.control = .ret v ∧ c.stack = .user u :: c₀.stack) ∨ c.stack = c₀.stack := by
    refine hrun.invariant (P := fun c => (c.control = .ret v ∧ c.stack = .user u :: c₀.stack) ∨
      c.stack = c₀.stack) (.inl ⟨hcontrol, hstack⟩) ?_
    rintro c a c' (⟨hcontrol, hstack⟩ | hstack) hlen hstep
    · cases returnTo_of_step hcontrol hstack hstep
      exact .inr rfl
    · rw [hstack] at hlen
      exact absurd hlen (Nat.lt_irrefl _)
  exact hinv.imp_left And.right

theorem reach_racing {main hook u : U} {random : ℕ}
    (hreach : Reach step (fun c _ => c.orderly = true) (initial main hook) c₀) (hps : ps ≠ [])
    (hpending : ∀ q ∈ ps, c₀.heap.isResolved q = false) (horderly : c₀.orderly = true)
    (hcall : step c₀ (.move (.call (.pick ps random) u)) = some c₁)
    (hrun : Reach step (fun c _ => c.orderly = true) c₁ c) :
    Racing (fun c _ => c.orderly = true) c₁ c₀.cells.length c₀.heap.length ps c := by
  have hreach₁ := hreach.tail _ horderly hcall
  obtain ⟨-, -, hcells⟩ := pick_pending (reach_orderly hreach).sound hps hpending
    (step_move hcall).2
  have hinv : Reach step (fun c _ => c.orderly = true) (initial main hook) c ∧
      Racing (fun c _ => c.orderly = true) c₁ c₀.cells.length c₀.heap.length ps c := by
    refine hrun.invariant (P := fun c => Reach step (fun c _ => c.orderly = true)
      (initial main hook) c ∧
      Racing (fun c _ => c.orderly = true) c₁ c₀.cells.length c₀.heap.length ps c)
      ⟨hreach₁, .waiting .refl (by simp [hcells])⟩ ?_
    rintro c a c' ⟨hreach, hracing⟩ hok hstep
    have ho := reach_orderly hreach
    have hreach' := hreach.tail a hok hstep
    exact ⟨hreach', hracing.step (fun c _ h => (Config.orderly_iff.mp h).1) ho.sound ho.kept hok
      hstep (reach_orderly hreach').alive⟩
  exact hinv.2

/-- A call of `pick` in any state that is reached.  If a member is resolved, the call, if it
walks steadily, returns a member that was resolved at the call, a rejected one if there
was one, and the pending members have got a cancel request.  If all members are pending,
the promise that the call returns gets the result of the member that is processed first.
No assertion fails. -/
theorem pick_gives_member {main hook u : U} {random : ℕ}
    (hreach : Reach step (fun _ _ => True) (initial main hook) c₀) (hps : ps ≠ [])
    (hcall : step c₀ (.move (.call (.pick ps random) u)) = some c₁) :
    (Reach step (fun c _ => c.orderly = true) (initial main hook) c₀ →
      ((∃ q ∈ ps, c₀.heap.isResolved q = true) → ∀ c,
        Reach step (fun c _ => c.orderly = true ∧ c₀.walksSteadily c = true ∧
          c₀.stack.length < c.stack.length) c₁ c →
        c.stack.length ≤ c₀.stack.length → ∃ p, GivesResolved c₀ u ps p c) ∧
      ((∀ q ∈ ps, c₀.heap.isResolved q = false) →
        c₁.control = .ret (.promise c₀.heap.length) ∧
        ∀ c, Reach step (fun c _ => c.orderly = true) c₁ c →
          GivesFirst (fun c _ => c.orderly = true) c₁ c₀.cells.length c₀.heap.length ps c)) ∧
    c₁.control ≠ .exn .assertFailure ∧
    ∀ (c c' : Config U) (frame : Frame U) (v : Val U),
      Reach step (fun c _ => c₀.stack.length < c.stack.length) c₁ c → c.control = .ret v →
      c.stack = frame :: .user u :: c₀.stack → step c .tau = some c' →
      c'.control ≠ .exn .assertFailure := by
  have hs := reach_sound hreach (control_ne_crash_of_step hcall)
  obtain ⟨⟨s, hcontrol⟩, huser⟩ := step_move hcall
  -- the call itself is none of the hazards
  have hmove : c₀.orderly = true := by
    simp [Config.orderly, Config.quiet, Config.sparesCells, Config.clearing,
      Config.protectedInTime, Config.npickUndisturbed, hcontrol]
  refine ⟨fun horderly => ⟨fun hsome c hrun hreturn => ?_, fun hpending => ⟨?_, fun c hrun => ?_⟩⟩,
    ?_, fun c c' frame v hrun hcontrol hstack hstep => ?_⟩
  · have hwhole : Reach step (fun c _ => c.orderly = true) (initial main hook) c :=
      (horderly.tail _ hmove hcall).trans (hrun.mono fun _ _ h => h.1)
    obtain ⟨hpast, hpicking⟩ := reach_picking True hs hps hsome hcall
      (fun c _ h => ⟨fun _ => ⟨(Config.orderly_iff.mp h.1).1, h.2.1⟩, h.2.2⟩) hrun
    exact hpicking.givesResolved hpast (reach_orderly hwhole).alive hreturn
  · exact (pick_pending hs hps hpending huser).1
  · have hwhole : Reach step (fun c _ => c.orderly = true) (initial main hook) c :=
      (horderly.tail _ hmove hcall).trans hrun
    exact (reach_racing horderly hps hpending hmove hcall hrun).givesFirst (reach_orderly hwhole)
  · by_cases hsome : ∃ q ∈ ps, c₀.heap.isResolved q = true
    · simp [pick_control hs hps hsome huser]
    · have hpending : ∀ q ∈ ps, c₀.heap.isResolved q = false := by simpa using hsome
      simp [(pick_pending hs hps hpending huser).1]
  · by_cases hsome : ∃ q ∈ ps, c₀.heap.isResolved q = true
    · obtain ⟨hpast, hpicking⟩ := reach_picking False hs hps hsome hcall
        (fun c _ h => ⟨fun h => h.elim, h⟩) hrun
      exact hpicking.not_raise hpast hcontrol hstack hstep _
    · -- The call has returned at once, and its frame is no longer there.
      have hpending : ∀ q ∈ ps, c₀.heap.isResolved q = false := by simpa using hsome
      obtain ⟨hcontrol₁, hstack₁, -⟩ := pick_pending hs hps hpending huser
      rcases reach_returning hcontrol₁ hstack₁ hrun with hleft | hleft
      · simp [hstack] at hleft
      · have hlen := congrArg List.length (hstack.symm.trans hleft)
        simp only [List.length_cons] at hlen
        omega

/-- The promise that a call has just returned to user code. -/
def Config.given (c : Config U) : Option (U × Pid) :=
  match c.control with
  | .user (.resume u (.ok (.promise p))) => some (u, p)
  | _ => none

theorem Config.control_of_given {u : U} (h : c.given = some (u, p)) :
    c.control = .user (.resume u (.ok (.promise p))) := by
  unfold Config.given at h
  split at h
  · rename_i heq
    cases h
    exact heq
  · simp at h

/-- A pending promise and a fulfilled one. -/
def pickMoves : List (Move ℕ) := [.call .task 0, .call (.ofResult (.fulfilled .unit)) 0]

/-- The pending promise is named twice: the first mention cancels it, and the second one is
taken for the promise that was counted. -/
theorem pick_gives_canceled : ∃ c₀ c₁ c : Config ℕ,
    Reach step (fun c _ => c.orderly = true) (initial 0 0) c₀ ∧
    c₀.heap.isResolved 0 = false ∧ c₀.heap.stateOf 1 = some (.resolved (.fulfilled .unit)) ∧
    step c₀ (.move (.call (.pick [0, 0, 1] 0) 0)) = some c₁ ∧
    Reach step (fun c _ => c.orderly = true ∧ c₀.stack.length < c.stack.length) c₁ c ∧
    c.stack.length ≤ c₀.stack.length ∧ c.control = .user (.resume 0 (.ok (.promise 0))) ∧
    c.heap.stateOf 0 = some (.resolved (.rejected .canceled)) ∧
    ¬ ∃ p, GivesResolved c₀ 0 [0, 0, 1] p c := by
  obtain ⟨c₀, hreach, hc₀⟩ := exists_reach (fun c _ => c.orderly)
    (P := fun c₀ => !c₀.heap.isResolved 0 &&
      (c₀.heap.stateOf 1 = some (.resolved (.fulfilled .unit)) &&
        (step c₀ (.move (.call (.pick [0, 0, 1] 0) 0))).any fun c₁ =>
          (script (fun c _ => c.orderly && decide (c₀.stack.length < c.stack.length)) 40 c₁ []).any
            fun c => c.stack.length ≤ c₀.stack.length && (c.given = some (0, 0) &&
              c.heap.stateOf 0 = some (.resolved (.rejected .canceled)))))
    (show (script _ 40 (initial 0 0) pickMoves).any _ = true by decide)
  simp only [Bool.and_eq_true, decide_eq_true_eq, Bool.not_eq_true'] at hc₀
  obtain ⟨hpending, hfulfilled, hcall⟩ := hc₀
  obtain ⟨c₁, hcall, hc₁⟩ := (Option.any_eq_true _ _).mp hcall
  obtain ⟨c, hrun, hc⟩ := exists_reach _ hc₁
  simp only [Bool.and_eq_true, decide_eq_true_eq] at hc
  have hcontrol := Config.control_of_given hc.2.1
  refine ⟨c₀, c₁, c, hreach, hpending, hfulfilled, hcall,
    hrun.mono fun c _ hok => by simpa using hok, hc.1, hcontrol, hc.2.2, ?_⟩
  rintro ⟨p, hgives⟩
  obtain rfl : p = 0 := by simpa [hcontrol, eq_comm] using hgives.control
  simpa [hpending] using hgives.chosen.resolved

/-- A `pick` that cancels the pending promise and gives the other one, and a `pick` of two
pending promises, of which the first is then resolved. -/
theorem pick_gives_member_fulfilled :
    (∃ c₀ c₁ c : Config ℕ, Reach step (fun c _ => c.orderly = true) (initial 0 0) c₀ ∧
      step c₀ (.move (.call (.pick [0, 1] 0) 0)) = some c₁ ∧ (∃ p, GivesResolved c₀ 0 [0, 1] p c)) ∧
    ∃ c₁ c : Config ℕ, c.loopsEnded = true ∧
      GivesFirst (fun c _ => c.orderly = true) c₁ 0 2 [0, 1] c ∧
      c.heap.stateOf 2 = some (.resolved (.fulfilled .unit)) := by
  constructor
  · obtain ⟨c₀, hreach, hc₀⟩ := exists_reach (fun c _ => c.orderly)
      (P := fun c₀ => c₀.heap.isResolved 1 &&
        (step c₀ (.move (.call (.pick [0, 1] 0) 0))).any fun c₁ =>
          (script (fun c _ => c.orderly && (c₀.walksSteadily c &&
            decide (c₀.stack.length < c.stack.length))) 40 c₁ []).any
              fun c => c.stack.length ≤ c₀.stack.length)
      (show (script _ 40 (initial 0 0) pickMoves).any _ = true by decide)
    obtain ⟨hresolved, hcall⟩ := (Bool.and_eq_true _ _).mp hc₀
    obtain ⟨c₁, hcall, hc₁⟩ := (Option.any_eq_true _ _).mp hcall
    obtain ⟨c, hrun, hc⟩ := exists_reach _ hc₁
    refine ⟨c₀, c₁, c, hreach, hcall, ?_⟩
    exact ((pick_gives_member (hreach.mono fun _ _ _ => trivial) (by simp) hcall).1 hreach).1
      ⟨1, by simp, hresolved⟩ c (hrun.mono fun c _ hok => by simpa using hok) (of_decide_eq_true hc)
  · obtain ⟨c₀, hreach, hc₀⟩ := exists_reach (fun c _ => c.orderly)
      (P := fun c₀ => !c₀.heap.isResolved 0 && (!c₀.heap.isResolved 1 &&
        (c₀.cells.length = 0 && (c₀.heap.length = 2 &&
        (step c₀ (.move (.call (.pick [0, 1] 0) 0))).any fun c₁ =>
          (script (fun c _ => c.orderly) 40 c₁
            [.call (.wakeupGeneral "wakeup" 0 (.fulfilled .unit)) 0]).any fun c =>
              c.loopsEnded && c.heap.stateOf 2 = some (.resolved (.fulfilled .unit))))))
      (show (script _ 40 (initial 0 0) [.call .task 0, .call .task 0]).any _ = true by decide)
    simp only [Bool.and_eq_true, decide_eq_true_eq, Bool.not_eq_true'] at hc₀
    obtain ⟨hfirst, hsecond, hcells, hheap, hcall⟩ := hc₀
    obtain ⟨c₁, hcall, hc₁⟩ := (Option.any_eq_true _ _).mp hcall
    obtain ⟨c, hrun, hc⟩ := exists_reach _ hc₁
    simp only [Bool.and_eq_true, decide_eq_true_eq] at hc
    have hgives := (((pick_gives_member (hreach.mono fun _ _ _ => trivial) (by simp) hcall).1
      hreach).2 (by simp [hfirst, hsecond])).2 c hrun
    rw [hcells, hheap] at hgives
    exact ⟨c₁, c, hc.1, hgives, hc.2⟩

end Lwt
