import Lwt.Promise.Clearing
import Lwt.Promise.Ownership
import Lwt.Promise.Simulation

/-!
# Cells and who clears them

A removable callback is a reference to a cell, in the callback lists of the promises it was
added to.  It is called at most once, since it clears its cell before it does anything else
(`CalledOnce`), and it is called with the result of a promise it was added to (`CellsDue`).
The only other function that clears a cell is the `remove_the_callback` of `protected`,
which is run at most once and clears the cell of its own call (`Tracked`).
-/

namespace Lwt

open Heap Table Multiset

variable {U : Type} {g : Guard U} {s s' : Store U}

/-! ## Cells in callback lists -/

def Callbacks.cells (callbacks : Callbacks U) : Multiset ℕ := callbacks.regularCallbacks.cells

/-- A record with no new cells. -/
def NoNewCells (_ : Pid) (callbacks callbacks' : Callbacks U) : Prop :=
  callbacks'.cells ≤ callbacks.cells

/-- Cells are in the records of promises they were added to. -/
structure CellsWithin (h : Heap U) (cells : List Cell) : Prop where
  members_lt : ∀ (i : ℕ) (cell : Cell), cells[i]? = some cell →
    ∀ p ∈ cell.originallyAddedTo, p < h.length
  attached : ∀ (u : Pid) (callbacks : Callbacks U), h[u]? = some (.pending callbacks) →
    ∀ i ∈ callbacks.cells, ∃ cell, cells[i]? = some cell ∧
      ∃ p ∈ cell.originallyAddedTo, h.root p = u

/-- Cells that differ only by being cleared. -/
structure Cleared (cells cells' : List Cell) : Prop where
  length_eq : cells'.length = cells.length
  spec : ∀ (i : ℕ) (cell' : Cell), cells'[i]? = some cell' →
    ∃ cell, cells[i]? = some cell ∧ cell'.originallyAddedTo = cell.originallyAddedTo ∧
      cell'.kind = cell.kind ∧ (cell'.live = true → cell.live = true)

theorem Cleared.refl (cells : List Cell) : Cleared cells cells :=
  ⟨rfl, fun _ cell hcell => ⟨cell, hcell, rfl, rfl, fun h => h⟩⟩

theorem cleared_clearedCells (cells : List Cell) (i : ℕ) :
    Cleared cells (clearedCells cells i) := by
  refine ⟨by simp [clearedCells], fun j cell' hcell' => ?_⟩
  simp only [clearedCells, List.getElem?_modify] at hcell'
  obtain ⟨cell, hcell, rfl⟩ := Option.map_eq_some_iff.mp hcell'
  refine ⟨cell, hcell, ?_⟩
  split
  · exact ⟨rfl, rfl, fun h => absurd h (by simp)⟩
  · exact ⟨rfl, rfl, fun h => h⟩

theorem Cleared.exists_of_lt {cells cells' : List Cell} (hc : Cleared cells cells') {i : ℕ}
    {cell : Cell} (hcell : cells[i]? = some cell) : ∃ cell', cells'[i]? = some cell' ∧
      cell'.originallyAddedTo = cell.originallyAddedTo := by
  have hlt : i < cells'.length := by
    rw [hc.length_eq]
    exact (List.getElem?_eq_some_iff.mp hcell).1
  obtain ⟨cell', hcell'⟩ : ∃ cell', cells'[i]? = some cell' := ⟨cells'[i], by simp [hlt]⟩
  obtain ⟨cell₀, hcell₀, hps, -⟩ := hc.spec i cell' hcell'
  obtain rfl : cell = cell₀ := Option.some.inj (hcell.symm.trans hcell₀)
  exact ⟨cell', hcell', hps⟩

theorem isLive_iff {cells : List Cell} {i : ℕ} :
    isLive cells i = true ↔ ∃ cell, cells[i]? = some cell ∧ cell.live = true := by
  unfold isLive
  split
  · rename_i cell hcell
    simp [hcell]
  · rename_i hcell
    simp [hcell]

theorem isLive_clearedCells {cells : List Cell} {i j : ℕ} :
    isLive (clearedCells cells i) j = true ↔ j ≠ i ∧ isLive cells j = true := by
  by_cases hij : i = j
  · subst hij
    cases hcell : cells[i]? with
    | none => simp [isLive, clearedCells, hcell]
    | some cell => simp [isLive, clearedCells, hcell]
  · have hne : j ≠ i := fun h => hij h.symm
    simp [isLive, clearedCells, hij, hne]

/-- The record that a link leaves is the merged one, or that of another promise. -/
theorem getElem?_link {h : Heap U} {outer inner u : Pid}
    {callbacks outerCallbacks merged callbacks' : Callbacks U}
    (hinner : h[inner]? = some (.pending callbacks))
    (houter : h[outer]? = some (.pending outerCallbacks))
    (hu : ((h.set outer (.pending merged)).set inner (.proxy outer))[u]? =
      some (.pending callbacks')) :
    (u = outer ∧ callbacks' = merged) ∨
      (u ≠ outer ∧ u ≠ inner ∧ h[u]? = some (.pending callbacks')) := by
  by_cases hi : inner = u
  · subst hi
    rw [List.getElem?_set_self (by simpa using lt_length_of_getElem? hinner)] at hu
    simp at hu
  · rw [List.getElem?_set_ne hi] at hu
    by_cases ho : outer = u
    · subst ho
      rw [List.getElem?_set_self (lt_length_of_getElem? houter)] at hu
      exact .inl ⟨rfl, (State.pending.inj (Option.some.inj hu)).symm⟩
    · rw [List.getElem?_set_ne ho] at hu
      exact .inr ⟨Ne.symm ho, Ne.symm hi, hu⟩

theorem cells_mergeCallbacks (cells : List Cell) (from' into : Callbacks U) :
    (mergeCallbacks cells from' into).cells ≤ into.cells + from'.cells ∧
      ∀ j, isLive cells j = true → (mergeCallbacks cells from' into).cells.count j =
        into.cells.count j + from'.cells.count j := by
  unfold mergeCallbacks Callbacks.cells
  dsimp only
  split
  · rw [cells_cleanUpCallbackCells, cells_concatRegularCallbacks]
    refine ⟨filter_le _ _, fun j hj => ?_⟩
    rw [count_filter, if_pos hj, count_add]
  · rw [cells_concatRegularCallbacks]
    exact ⟨le_refl _, fun j _ => count_add j _ _⟩

theorem cells_iterate_add (c k : ℕ) (callbacks : Callbacks U) :
    ((addRegularCallbackListNode (.explicitlyRemovable c))^[k] callbacks).cells =
      Multiset.replicate k c + callbacks.cells := by
  induction k generalizing callbacks with
  | zero => simp
  | succ k ih =>
    rw [Function.iterate_succ_apply, ih, Callbacks.cells, cells_addRegularCallbackListNode,
      replicate_succ]
    simp [RegularCallbackList.cells, Callbacks.cells, add_cons]

/-- A new cell is added to each promise as often as the list names it. -/
theorem cells_addCellToEach {c : ℕ} {h h' : Heap U} {ps : List Pid} (hwf : h.WellFormed)
    (hadd : addCellToEach c h ps = some h') (u : Pid) (callbacks' : Callbacks U)
    (hu : h'[u]? = some (.pending callbacks')) :
    ∃ callbacks, h[u]? = some (.pending callbacks) ∧
      callbacks'.cells = Multiset.replicate (h.occurrences ps u) c + callbacks.cells := by
  obtain ⟨callbacks, hcb, -⟩ := Recordwise.of_addCellToEach (R := fun _ _ _ => True)
    (fun _ _ => trivial) (fun _ _ _ _ _ _ => trivial) hwf (fun _ _ => trivial) hadd u callbacks' hu
  have hget := getElem?_modifyEach (f := addRegularCallbackListNode
    (.explicitlyRemovable c)) hwf ps hcb
  rw [← addCellToEach_eq_modifyEach hwf hadd, hu] at hget
  cases Option.some.inj hget
  exact ⟨callbacks, hcb, cells_iterate_add _ _ _⟩

namespace CellsWithin

variable {h h' : Heap U} {cells cells' : List Cell}

theorem of_recordwise (hp : CellsWithin h cells) (hcells : Cleared cells cells')
    (hrel : Recordwise NoNewCells h h') (hroot : ∀ p, h'.root p = h.root p)
    (hlen : h'.length = h.length) : CellsWithin h' cells' := by
  refine ⟨fun i cell' hcell' p hmem => ?_, fun u callbacks' hu i hi => ?_⟩
  · obtain ⟨cell, hcell, hps, -⟩ := hcells.spec i cell' hcell'
    rw [hlen]
    exact hp.members_lt i cell hcell p (hps ▸ hmem)
  · obtain ⟨callbacks, hcb, hle⟩ := hrel u callbacks' hu
    obtain ⟨cell, hcell, p, hmem, hpu⟩ := hp.attached u callbacks hcb i (mem_of_le hle hi)
    obtain ⟨cell', hcell', hps⟩ := hcells.exists_of_lt hcell
    exact ⟨cell', hcell', p, hps ▸ hmem, (hroot p).trans hpu⟩

theorem append {x : State U} (hwf : h.WellFormed) (hp : CellsWithin h cells)
    (hx : x.IsUnderlying) (hempty : ∀ callbacks, x = .pending callbacks → callbacks.cells = 0) :
    CellsWithin (h ++ [x]) cells := by
  refine ⟨fun i cell hcell p hmem => ?_, fun u callbacks hu i hi => ?_⟩
  · have hlt := hp.members_lt i cell hcell p hmem
    simp only [List.length_append, List.length_singleton]
    exact Nat.lt_succ_of_lt hlt
  · rcases getElem?_append_singleton hu with hold | ⟨-, hnew⟩
    · obtain ⟨cell, hcell, p, hmem, hpu⟩ := hp.attached u callbacks hold i hi
      exact ⟨cell, hcell, p, hmem, (root_append hwf hx p).trans hpu⟩
    · rw [hempty callbacks hnew.symm] at hi
      simp at hi

theorem newCell {kind : CellKind} {target : Pid} {ps : List Pid} (hwf : h.WellFormed)
    (hp : CellsWithin h cells) (hps : ∀ p ∈ ps, p < h.length)
    (hadd : addCellToEach cells.length h ps = some h') :
    CellsWithin h' (cells ++ [⟨kind, target, ps, true⟩]) := by
  have hsim := similar_addCellToEach hwf hadd
  refine ⟨fun i cell hcell p hmem => ?_, fun u callbacks' hu i hi => ?_⟩
  · rw [hsim.length_eq]
    rcases getElem?_append_singleton hcell with hold | ⟨-, rfl⟩
    · exact hp.members_lt i cell hold p hmem
    · exact hps p hmem
  · obtain ⟨callbacks, hcb, hcells⟩ := cells_addCellToEach hwf hadd u callbacks' hu
    rw [hcells] at hi
    rcases mem_add.mp hi with hnew | hold
    · obtain ⟨hocc, rfl⟩ := mem_replicate.mp hnew
      obtain ⟨p, hmem, hpu⟩ := List.countP_pos_iff.mp (Nat.pos_of_ne_zero hocc)
      exact ⟨⟨kind, target, ps, true⟩, by simp, p, hmem, (hsim.root_eq hwf
        p).trans (by simpa using hpu)⟩
    · obtain ⟨cell, hcell, p, hmem, hpu⟩ := hp.attached u callbacks hcb i hold
      refine ⟨cell, ?_, p, hmem, (hsim.root_eq hwf p).trans hpu⟩
      rw [List.getElem?_append_left (List.getElem?_eq_some_iff.mp hcell).1]
      exact hcell

theorem link {outer inner : Pid} {callbacks outerCallbacks : Callbacks U} {how : HowToCancel}
    (hwf : h.WellFormed) (hp : CellsWithin h cells) (hc : Compressed h h') (hne : inner ≠ outer)
    (hinner : h'[inner]? = some (.pending callbacks))
    (houter : h'[outer]? = some (.pending outerCallbacks)) :
    CellsWithin ((h'.set outer (.pending { mergeCallbacks cells callbacks outerCallbacks with
      howToCancel := how })).set inner (.proxy outer)) cells := by
  obtain ⟨-, hroot⟩ := link_spec { mergeCallbacks cells callbacks outerCallbacks with
    howToCancel := how } hwf hc hne hinner houter
  have hp' : CellsWithin h' cells := hp.of_recordwise (.refl cells)
    (.of_compressed (fun _ _ => le_refl _) hwf hc) (hc.root_eq hwf) hc.length_eq
  have hrooth' := hc.root_eq hwf
  refine ⟨fun i cell hcell p hmem => ?_, fun u callbacks' hu i hi => ?_⟩
  · simpa using hp'.members_lt i cell hcell p hmem
  · rcases getElem?_link hinner houter hu with ⟨rfl, rfl⟩ | ⟨ho, hin, hu'⟩
    · rcases mem_add.mp
        (mem_of_le (cells_mergeCallbacks cells callbacks outerCallbacks).1
        hi) with hmem | hmem
      · obtain ⟨cell, hcell, p, hpmem, hpu⟩ := hp'.attached _ _ houter i hmem
        refine ⟨cell, hcell, p, hpmem, ?_⟩
        rw [hroot, ← hrooth', hpu, if_neg hne.symm]
      · obtain ⟨cell, hcell, p, hpmem, hpu⟩ := hp'.attached _ _ hinner i hmem
        refine ⟨cell, hcell, p, hpmem, ?_⟩
        rw [hroot, ← hrooth', hpu, if_pos rfl]
    · obtain ⟨cell, hcell, p, hpmem, hpu⟩ := hp'.attached u callbacks' hu' i hi
      refine ⟨cell, hcell, p, hpmem, ?_⟩
      rw [hroot, ← hrooth', hpu, if_neg hin]

end CellsWithin

/-! ## The table of cells -/

/-- `cells'` has the cells of `cells`, and perhaps more. -/
def CellsExtend (cells cells' : List Cell) : Prop :=
  ∀ (i : ℕ) (cell : Cell), cells[i]? = some cell → ∃ cell', cells'[i]? = some cell' ∧
    cell'.originallyAddedTo = cell.originallyAddedTo

theorem Act.cells_cases (hact : Act g s s') :
    s'.cells = s.cells ∨ (∃ i, s'.cells = clearedCells s.cells i) ∨
      ∃ cell, s'.cells = s.cells ++ [cell] := by
  cases hact with
  | newCell => exact .inr (.inr ⟨_, rfl⟩)
  | newProtection => exact .inr (.inr ⟨_, rfl⟩)
  | cancelsRemove => exact .inr (.inl ⟨_, rfl⟩)
  | callCell => exact .inr (.inl ⟨_, rfl⟩)
  | callProtection => exact .inr (.inl ⟨_, rfl⟩)
  | _ => exact .inl rfl

theorem Act.cellsExtend (hact : Act g s s') : CellsExtend s.cells s'.cells := by
  intro i cell hcell
  rcases hact.cells_cases with heq | ⟨j, heq⟩ | ⟨new, heq⟩
  · exact ⟨cell, by rw [heq]; exact hcell, rfl⟩
  · rw [heq]
    exact (cleared_clearedCells s.cells j).exists_of_lt hcell
  · refine ⟨cell, ?_, rfl⟩
    rw [heq, List.getElem?_append_left (List.getElem?_eq_some_iff.mp hcell).1]
    exact hcell

/-- A promise that the cell was added to is resolved with `r`. -/
def MemberResolved (s : Store U) (i : ℕ) (r : Result U) : Prop :=
  ∃ cell, s.cells[i]? = some cell ∧
    ∃ p ∈ cell.originallyAddedTo, s.heap.IsResolved (s.heap.root p) r

theorem Act.memberResolved {i : ℕ} {r : Result U} (hwf : s.heap.WellFormed) (hact : Act g s s')
    (hm : MemberResolved s i r) : MemberResolved s' i r := by
  obtain ⟨cell, hcell, p, hmem, hr⟩ := hm
  obtain ⟨cell', hcell', hps⟩ := hact.cellsExtend i cell hcell
  exact ⟨cell', hcell', p, hps ▸ hmem, (hact.effect hwf).isResolved_root hwf hr⟩

/-- A removable callback is called with the result of a promise it was added to. -/
def CellsDue (s : Store U) : Prop :=
  ∀ w ∈ s.work, ∀ l r, w.Runs l r → ∀ i ∈ l.cells, MemberResolved s i r

theorem Act.cellsDue (hwf : s.heap.WellFormed) (hp : CellsWithin s.heap s.cells)
    (hdue : CellsDue s) (hact : Act g s s') : CellsDue s' := by
  refine hact.runs (Q := fun r l => ∀ i ∈ l.cells, MemberResolved s' i r) hwf ?_ ?_ ?_
  · intro r l l' hl
    exact ⟨fun i hi => hl i (mem_add.mpr (.inl hi)),
      fun i hi => hl i (mem_add.mpr (.inr hi))⟩
  · intro u callbacks callbacks' r hcb hnodes hcells hres i hi
    obtain ⟨cell, hcell, p, hmem, hpu⟩ :=
      hp.attached u callbacks hcb i (mem_of_le hcells hi)
    obtain ⟨cell', hcell', hps⟩ := hact.cellsExtend i cell hcell
    refine ⟨cell', hcell', p, hps ▸ hmem, ?_⟩
    rw [(hact.effect hwf).root_eq_of_resolved hwf hcb hres, hpu]
    exact hres
  · intro w hw l r hruns i hi
    exact hact.memberResolved hwf (hdue w hw l r hruns i hi)

/-! ## Removals -/

def Callbacks.removals (callbacks : Callbacks U) : Multiset ℕ := callbacks.cancelCallbacks.removals

/-- The cells that the work may remove. -/
def Work.removals : Work U → Multiset ℕ
  | .record _ callbacks _ => callbacks.removals
  | .cancels l => l.removals
  | _ => 0

/-- The calls of `remove_the_callback` that may still be made. -/
def Store.removals (s : Store U) : Multiset ℕ := s.content Callbacks.removals Work.removals

theorem removals_eq (s : Store U) :
    s.removals = heapTotal Callbacks.removals s.heap + (s.work.map Work.removals).sum := rfl

section Removals

variable {h h' : Heap U} {u : Pid} {callbacks : Callbacks U}

theorem removals_resolve (hu : s.heap[u]? = some (.pending callbacks)) (r : Result U) :
    (s.resolve u callbacks r).removals = s.removals := by
  have hset := heapTotal_set_other (μ := Callbacks.removals) (s := .resolved r) hu rfl
  simp only [removals_eq, Store.resolve, map_cons, sum_cons, Work.removals]
  rw [← add_assoc, hset]

theorem heapRemovals_clear (hwf : s.heap.WellFormed) (i : ℕ) :
    heapTotal Callbacks.removals (s.clear i).heap = heapTotal Callbacks.removals s.heap :=
  heapTotal_visitEach hwf (fun callbacks =>
    congrArg CancelCallbackList.removals (cancelCallbacks_deferOrCleanUp _ callbacks)) _

theorem heapRemovals_attach (u : Pid) (callback : Callback U) :
    heapTotal Callbacks.removals (s.attach u callback).heap =
      heapTotal Callbacks.removals s.heap :=
  heapTotal_modifyPending_of_eq fun _ => rfl

theorem heapRemovals_addCellToEach {c : ℕ} {ps : List Pid} (hwf : h.WellFormed)
    (hadd : addCellToEach c h ps = some h') :
    heapTotal Callbacks.removals h' = heapTotal Callbacks.removals h :=
  heapTotal_addCellToEach hwf (fun _ => rfl) hadd

theorem heapRemovals_link {h₁ : Heap U} {outer inner : Pid} {outerCallbacks : Callbacks U}
    {how : HowToCancel} (cells : List Cell) (hwf : h.WellFormed) (hc : Compressed h h₁)
    (hne : inner ≠ outer) (hinner : h₁[inner]? = some (.pending callbacks))
    (houter : h₁[outer]? = some (.pending outerCallbacks)) :
    heapTotal Callbacks.removals ((h₁.set outer (.pending
      { mergeCallbacks cells callbacks outerCallbacks with howToCancel := how })).set inner
        (.proxy outer)) = heapTotal Callbacks.removals h :=
  heapTotal_link hwf hc hne hinner houter
    ((removals_mergeCallbacks cells callbacks outerCallbacks).trans (add_comm _ _))

end Removals

theorem removals_opened_le (callbacks : Callbacks U) (r : Result U) :
    ((callbacks.opened r).map Work.removals).sum ≤ callbacks.removals := by
  unfold Callbacks.opened
  split
  · simp [Work.removals, Callbacks.removals]
  · exact Multiset.zero_le _

theorem removals_owed (h : Heap U) (cell : Cell) (r : Result U) :
    (cell.owed h r).removals = 0 := by
  unfold Cell.owed
  split <;> rfl

theorem Store.Initializes.removals_eq_zero {l : CancelCallbackList U} {new : List (Event U)}
    (h : s.Initializes l new) : l.removals = 0 := by
  rcases h with ⟨rfl, -⟩ | ⟨node, rfl, -⟩
  · rfl
  · rfl

/-- Only `protected` adds a removal. -/
theorem Act.removals (hwf : s.heap.WellFormed) (hact : Act g s s') :
    s'.removals ≤ s.removals ∨
      ∃ p, s'.cells = s.cells ++ [⟨.protection, s.heap.length, [p], true⟩] ∧
        s'.removals = s.cells.length ::ₘ s.removals := by
  have hwf' : ∀ how, Heap.WellFormed (s.heap ++ [newPending how]) := fun how =>
    wellFormed_append hwf (isUnderlying_newPending how)
  have hof : ∀ {s₁ : Store U}, s₁.removals = s.removals → s₁.removals ≤ s.removals ∨
      ∃ p, s₁.cells = s.cells ++ [⟨.protection, s.heap.length, [p], true⟩] ∧
        s₁.removals = s.cells.length ::ₘ s.removals := fun h => .inl h.le
  cases hact with
  | newProtection hadd =>
    refine .inr ⟨_, rfl, ?_⟩
    -- the removal of the new cell waits in the new promise
    have hpending : Heap.IsPending (s.heap ++ [newPending .cancelThisPromise]) s.heap.length :=
      ⟨⟨.empty, .empty, .cancelThisPromise, 0⟩, by simp [newPending]⟩
    simp only [removals_eq, Store.attachCancel]
    rw [heapTotal_modifyPending (x := {s.cells.length})
        ((similar_addCellToEach (hwf' _) hadd).isPending hpending)
        fun callbacks => removals_addCancelCallback callbacks _ _ _,
      heapRemovals_addCellToEach (hwf' _) hadd, heapTotal_append]
    simp [newPending, Callbacks.removals, CancelCallbackList.removals]
  | compress hc => exact hof (by simp [removals_eq, heapTotal_compressed hwf hc])
  | allocResolved r => exact hof (by simp [removals_eq])
  | allocInitial hinit =>
    have hremovals := hinit.removals_eq_zero
    exact hof (by simp [removals_eq, Callbacks.removals, hremovals])
  | attachCompose hu hhow =>
    exact hof (by rw [removals_eq, heapRemovals_attach]; simp [removals_eq,
      Store.attach, newPending,
      Callbacks.removals, CancelCallbackList.removals])
  | attachObserve hu => exact hof (by rw [removals_eq, heapRemovals_attach]; rfl)
  | newCell hkind hadd =>
    exact hof (by simp [removals_eq, heapRemovals_addCellToEach (hwf' _) hadd, newPending,
      Callbacks.removals, CancelCallbackList.removals])
  | addUserCancel =>
    refine hof ?_
    simp only [removals_eq, Store.attachCancel]
    rw [heapTotal_modifyPending_of_eq fun callbacks => ?_]
    exact (removals_addCancelCallback callbacks _ _ _).trans (Multiset.zero_add _)
  | joinNew =>
    exact hof (by simp [removals_eq, newPending, Callbacks.removals, CancelCallbackList.removals])
  | joinAttach hjoining hjoin hu => exact hof (by rw [removals_eq, heapRemovals_attach]; rfl)
  | joinEndEmpty => exact hof (by simp [removals_eq])
  | wake hp hcb => exact hof (removals_resolve hcb _)
  | cancelMark hcb hhow => exact hof (removals_resolve hcb _)
  | runRecord hwork =>
    -- what is not opened of a record is thrown away
    refine .inl ?_
    simp only [removals_eq, hwork, Multiset.map_add, sum_add, map_cons,
      sum_cons, Work.removals]
    gcongr
    exact removals_opened_le _ _
  | regularEmpty hwork => exact hof (by simp [removals_eq, hwork, Work.removals])
  | regularConcat hwork => exact hof (by simp [removals_eq, hwork, Work.removals])
  | regularDead hwork => exact hof (by simp [removals_eq, hwork, Work.removals])
  | cancelsEmpty hwork =>
    exact hof (by simp [removals_eq, hwork, Work.removals, CancelCallbackList.removals])
  | cancelsConcat hwork =>
    exact hof (by simp [removals_eq, hwork, Work.removals,
      CancelCallbackList.removals, add_assoc])
  | cancelsUser hwork =>
    exact hof (by simp [removals_eq, hwork, Work.removals, CancelCallbackList.removals])
  | cancelsNode hwork =>
    exact hof (by simp [removals_eq, hwork, Work.removals, CancelCallbackList.removals])
  | @cancelsRemove rest mark storage i hwork hguard =>
    refine .inl ?_
    rw [removals_eq, removals_eq, heapRemovals_clear hwf, hwork, map_cons,
      sum_cons]
    exact add_le_add_right (Multiset.le_add_left _ _) _
  | callCompose hwork hcallback => exact hof (by simp [removals_eq, hwork, Work.removals])
  | callObserve hwork hcallback => exact hof (by simp [removals_eq, hwork, Work.removals])
  | callJoinNone hwork hcallback => exact hof (by simp [removals_eq, hwork, Work.removals])
  | callJoin hwork hcallback => exact hof (by simp [removals_eq, hwork, Work.removals])
  | callJoinLast hjoining hwork hcallback =>
    exact hof (by simp [removals_eq, hwork, Work.removals])
  | callCell hwork hcell hlive hkind hguard =>
    refine hof ?_
    rw [removals_eq, heapRemovals_clear hwf, removals_eq, hwork, map_cons,
      map_cons, sum_cons, sum_cons, removals_owed]
    rfl
  | @callProtection rest i cell r h callbacks hwork hcell hlive hkind hguard hc hcb =>
    refine hof ?_
    rw [removals_resolve hcb, removals_eq,
      heapTotal_compressed ((Store.similar_clear hwf i).wellFormed hwf) hc,
      heapRemovals_clear hwf]
    simp [removals_eq, hwork, Work.removals]
  | settle hwork hpromised hcb =>
    refine hof ?_
    rw [removals_resolve]
    · simp [removals_eq, hwork, Work.removals]
    · exact hcb
  | settleExact hwork hcb =>
    refine hof ?_
    rw [removals_resolve]
    · simp [removals_eq, hwork, Work.removals]
    · exact hcb
  | link hwork hc hne hcb houter hguard =>
    refine hof ?_
    rw [removals_eq, heapRemovals_link s.cells hwf hc hne hcb houter]
    simp [removals_eq, hwork, Work.removals]
  | same hwork hroot => exact hof (by simp [removals_eq, hwork, Work.removals])
  | drop hguard hle =>
    refine .inl (add_le_add_right ?_ _)
    exact bind_le_bind Work.removals hle
  | _ => exact hof rfl

/-! ## The invariant -/

theorem lt_length_of_addCellToEach {h h' : Heap U} {c : ℕ} {ps : List Pid} (hwf : h.WellFormed)
    (hadd : addCellToEach c h ps = some h') : ∀ p ∈ ps, p < h.length := by
  induction ps generalizing h with
  | nil => simp
  | cons p ps ih =>
    obtain ⟨callbacks, hcb, -, hone, hrest⟩ := addCellToEach_cons hwf hadd
    intro q hq
    rcases List.mem_cons.mp hq with rfl | hq
    · -- A reference to no promise is its own root, and has no state.
      by_contra hge
      have hpar : h.parent q = none := by
        rw [parent, List.getElem?_eq_none (Nat.le_of_not_lt hge)]
      rw [root_of_parent_eq_none hwf hpar, List.getElem?_eq_none (Nat.le_of_not_lt hge)] at hcb
      simp at hcb
    · simpa [(compressed_compress hwf p).length_eq] using ih (hone.wellFormed hwf) hrest q hq

theorem CellsWithin.of_similar {h h' : Heap U} {cells : List Cell} (hp : CellsWithin h cells)
    (hwf : h.WellFormed) (hsim : Similar h h') (hrel : Recordwise NoNewCells h h') :
    CellsWithin h' cells :=
  hp.of_recordwise (.refl cells) hrel (hsim.root_eq hwf) hsim.length_eq

theorem CellsWithin.set_resolved {h : Heap U} {cells : List Cell} {u : Pid}
    {callbacks : Callbacks U} {r : Result U} (hwf : h.WellFormed) (hp : CellsWithin h cells)
    (hu : h[u]? = some (.pending callbacks)) : CellsWithin (h.set u (.resolved r)) cells :=
  hp.of_recordwise (.refl cells) (.of_set_other (fun _ _ => le_refl _) (by simp))
    (root_set hwf hu trivial trivial) (by simp)

theorem CellsWithin.attach {u : Pid} {callback : Callback U} (hwf : s.heap.WellFormed)
    (hp : CellsWithin s.heap s.cells) :
    CellsWithin (s.attach u callback).heap (s.attach u callback).cells := by
  refine hp.of_similar hwf (Store.similar_attach s u callback)
    (.of_modifyPending (fun _ _ => le_refl _) fun callbacks => ?_)
  simp [NoNewCells, Callbacks.cells, addImplicitlyRemovedCallback, RegularCallbackList.cells]

theorem CellsWithin.addCancel {h : Heap U} {cells : List Cell} {u : Pid} {mark : Mark}
    {storage : Storage U}
    {f : CancelCallback U} (hwf : h.WellFormed) (hp : CellsWithin h cells) :
    CellsWithin (h.modifyPending u (addCancelCallback mark storage f)) cells :=
  hp.of_similar hwf
    (similar_modifyPending fun callbacks => howToCancel_addCancelCallback _ _ _ callbacks)
    (.of_modifyPending (fun _ _ => le_refl _) fun _ => le_refl _)

theorem CellsWithin.clear (i : ℕ) (hwf : s.heap.WellFormed) (hp : CellsWithin s.heap s.cells) :
    CellsWithin (s.clear i).heap (s.clear i).cells := by
  have hsim := Store.similar_clear hwf i
  refine hp.of_recordwise (cleared_clearedCells s.cells i) ?_ (hsim.root_eq hwf) hsim.length_eq
  exact Recordwise.of_visitEach (R := NoNewCells) (fun _ callbacks => le_refl callbacks.cells)
    (fun _ _ _ _ h h' => h'.trans h) hwf _
    fun _ callbacks => cells_deferOrCleanUp_le (clearedCells s.cells i) callbacks

theorem Act.cellsWithin (hwf : s.heap.WellFormed) (hp : CellsWithin s.heap s.cells)
    (hact : Act g s s') : CellsWithin s'.heap s'.cells := by
  have hwf' : ∀ how, Heap.WellFormed (s.heap ++ [newPending how]) := fun how =>
    wellFormed_append hwf (isUnderlying_newPending how)
  have hnew : ∀ how, CellsWithin (s.heap ++ [newPending how]) s.cells := fun how =>
    hp.append hwf (isUnderlying_newPending how) (by rintro callbacks heq; cases heq; rfl)
  have hcompressed : ∀ {h h' : Heap U} {cells : List Cell}, h.WellFormed →
      CellsWithin h cells → Compressed h h' → CellsWithin h' cells := fun hwf hp hc =>
    hp.of_similar hwf hc.similar (.of_compressed (fun _ _ => le_refl _) hwf hc)
  cases hact with
  | compress hcomp => exact hcompressed hwf hp hcomp
  | allocResolved r => exact hp.append hwf trivial (by simp)
  | allocInitial =>
    exact hp.append (x := .pending _) hwf trivial (by rintro callbacks heq; cases heq; rfl)
  | attachCompose hu hhow =>
    exact CellsWithin.attach (s := { s with heap := s.heap ++ [newPending _] }) (hwf' _) (hnew _)
  | attachObserve hu => exact hp.attach hwf
  | newCell hkind hadd =>
    exact (hnew _).newCell (hwf' _) (lt_length_of_addCellToEach (hwf' _) hadd) hadd
  | newProtection hadd =>
    exact ((hnew _).newCell (hwf' _) (lt_length_of_addCellToEach (hwf' _) hadd) hadd).addCancel
      ((similar_addCellToEach (hwf' _) hadd).wellFormed (hwf' _))
  | addUserCancel => exact hp.addCancel hwf
  | joinNew => exact hnew _
  | joinAttach hjoining hjoin hu =>
    exact CellsWithin.attach (s := { s with joins := s.joins.set _ _ }) hwf hp
  | joinEndEmpty => exact hp.append (x := .resolved _) hwf trivial (by simp)
  | wake hmem hcb => exact hp.set_resolved hwf hcb
  | cancelMark hcb hhow => exact hp.set_resolved hwf hcb
  | @cancelsRemove rest mark storage i hwork hguard => exact hp.clear i hwf
  | @callCell rest i cell r hwork => exact hp.clear i hwf
  | @callProtection rest i cell r h callbacks hwork hcell hlive hkind hguard hcomp hcb =>
    have hwf₁ := (Store.similar_clear hwf i).wellFormed hwf
    exact (hcompressed hwf₁ (hp.clear i hwf) hcomp).set_resolved (hcomp.wellFormed hwf₁) hcb
  | settle hwork hpromised hcb => exact hp.set_resolved hwf hcb
  | settleExact hwork hcb => exact hp.set_resolved hwf hcb
  | link hwork hcomp hne hcb houter hguard => exact hp.link hwf hcomp hne hcb houter
  | _ => exact hp

/-- What holds of cells and removals.  A removal is of the cell of a `protected`, which is
live unless the promise it was added to is resolved. -/
structure Tracked (s : Store U) : Prop where
  within : CellsWithin s.heap s.cells
  due : CellsDue s
  nodup : s.removals.Nodup
  removable : ∀ i ∈ s.removals, ∃ cell p, s.cells[i]? = some cell ∧
    cell.originallyAddedTo = [p] ∧ cell.kind = .protection ∧
      (cell.live = true ∨ ∃ r, s.heap.IsResolved (s.heap.root p) r)

theorem mem_removals_of_work {w : Work U} {i : ℕ} (hw : w ∈ s.work) (hi : i ∈ w.removals) :
    i ∈ s.removals := by
  rw [removals_eq]
  refine mem_add.mpr (.inr ?_)
  have hbind : i ∈ s.work.bind Work.removals := mem_bind.mpr ⟨w, hw, hi⟩
  exact hbind

/-- A cell that is cleared while a removal of it may still be run has a resolved member. -/
theorem Act.clears_cases (hwf : s.heap.WellFormed) (hc : Tracked s) (hact : Act g s s') :
    s'.cells = s.cells ∨
      (∃ i, s'.cells = clearedCells s.cells i ∧ (i ∈ s'.removals → ∃ r, MemberResolved s i r)) ∨
      ∃ cell, s'.cells = s.cells ++ [cell] := by
  cases hact with
  | newCell => exact .inr (.inr ⟨_, rfl⟩)
  | newProtection => exact .inr (.inr ⟨_, rfl⟩)
  | @cancelsRemove rest mark storage i hwork hguard =>
    -- The removal that is run was the only one of its cell.
    refine .inr (.inl ⟨i, rfl, fun hi => ?_⟩)
    have hremovals : s.removals =
        i ::ₘ Store.removals { s.clear i with work := rest } := by
      rw [removals_eq, removals_eq, heapRemovals_clear hwf, hwork, map_cons,
        sum_cons]
      simp [Work.removals, CancelCallbackList.removals]
    exact absurd hi (nodup_cons.mp (hremovals ▸ hc.nodup)).1
  | @callCell rest i cell r hwork =>
    exact .inr (.inl ⟨i, rfl, fun _ => ⟨r, hc.due (.regular (.explicitlyRemovable i) r)
      (by simp [hwork]) _ r ⟨rfl, rfl⟩ i (by simp [RegularCallbackList.cells])⟩⟩)
  | @callProtection rest i cell r h callbacks hwork =>
    exact .inr (.inl ⟨i, rfl, fun _ => ⟨r, hc.due (.regular (.explicitlyRemovable i) r)
      (by simp [hwork]) _ r ⟨rfl, rfl⟩ i (by simp [RegularCallbackList.cells])⟩⟩)
  | _ => exact .inl rfl

theorem Act.removable (hwf : s.heap.WellFormed) (hc : Tracked s) (hact : Act g s s') :
    ∀ i ∈ s'.removals, ∃ cell p, s'.cells[i]? = some cell ∧ cell.originallyAddedTo = [p] ∧
      cell.kind = .protection ∧ (cell.live = true ∨ ∃ r,
      s'.heap.IsResolved (s'.heap.root p) r) := by
  intro i hi
  have hkeep : ∀ p, (∃ r, s.heap.IsResolved (s.heap.root p) r) →
      ∃ r, s'.heap.IsResolved (s'.heap.root p) r :=
    fun p ⟨r, hr⟩ => ⟨r, (hact.effect hwf).isResolved_root hwf hr⟩
  have happend : ∀ new, s'.cells = s.cells ++ [new] → i ∈ s.removals →
      ∃ cell p, s'.cells[i]? = some cell ∧ cell.originallyAddedTo = [p] ∧
        cell.kind = .protection ∧ (cell.live = true ∨ ∃ r,
        s'.heap.IsResolved (s'.heap.root p) r) := by
    intro new heq hi
    obtain ⟨cell, p, hcell, hps, hkind, hown⟩ := hc.removable i hi
    refine ⟨cell, p, ?_, hps, hkind, hown.imp_right (hkeep p)⟩
    rw [heq, List.getElem?_append_left (List.getElem?_eq_some_iff.mp hcell).1]
    exact hcell
  rcases hact.removals hwf with hle | ⟨p, hcells, hremovals⟩
  · have hold := mem_of_le hle hi
    obtain ⟨cell, p, hcell, hps, hkind, hown⟩ := hc.removable i hold
    rcases hact.clears_cases hwf hc with heq | ⟨j, heq, hj⟩ | ⟨new, heq⟩
    · exact ⟨cell, p, heq ▸ hcell, hps, hkind, hown.imp_right (hkeep p)⟩
    · by_cases hij : j = i
      · subst hij
        obtain ⟨r, cell', hcell', q, hmem, hr⟩ := hj hi
        obtain rfl : cell = cell' := Option.some.inj (hcell.symm.trans hcell')
        obtain rfl : q = p := by simpa [hps] using hmem
        exact ⟨{ cell with live := false }, q, by simp [heq, clearedCells, hcell], hps, hkind,
          .inr (hkeep q ⟨r, hr⟩)⟩
      · exact ⟨cell, p, by simp [heq, clearedCells, hij, hcell], hps, hkind,
          hown.imp_right (hkeep p)⟩
    · exact happend new heq hold
  · rw [hremovals] at hi
    rcases mem_cons.mp hi with rfl | hi
    · refine ⟨⟨.protection, s.heap.length, [p], true⟩, p, ?_, rfl, rfl, .inl rfl⟩
      rw [hcells]
      simp
    · exact happend _ hcells hi

theorem Act.removals_nodup (hwf : s.heap.WellFormed) (hc : Tracked s) (hact : Act g s s') :
    s'.removals.Nodup := by
  rcases hact.removals hwf with hle | ⟨p, hcells, hremovals⟩
  · exact nodup_of_le hle hc.nodup
  · rw [hremovals, nodup_cons]
    refine ⟨fun hmem => ?_, hc.nodup⟩
    obtain ⟨cell, p, hcell, -⟩ := hc.removable _ hmem
    simp at hcell

theorem Act.tracked (hwf : s.heap.WellFormed) (hc : Tracked s) (hact : Act g s s') : Tracked s' :=
  ⟨hact.cellsWithin hwf hc.within, hact.cellsDue hwf hc.within hc.due,
    hact.removals_nodup hwf hc, hact.removable hwf hc⟩

theorem tracked_initial (main hook : U) : Tracked (initial main hook).store := by
  have hremovals : (initial main hook).store.removals = 0 := rfl
  refine ⟨⟨?_, ?_⟩, ?_, ?_, ?_⟩
  · intro i cell hcell
    simp [initial, Config.store] at hcell
  · intro u callbacks hu
    simp [initial, Config.store] at hu
  · intro w hw
    simp [initial, Config.store, queueWork] at hw
  · simp [hremovals]
  · simp [hremovals]

/-! ## Called at most once -/

def Event.calledCell : Event U → Option ℕ
  | .cellCalled i _ => some i
  | _ => none

/-- The removable callbacks that were called, latest first. -/
def calledCells (trace : List (Event U)) : List ℕ := trace.filterMap Event.calledCell

/-- The removable callbacks that were called are gone, and were called once. -/
structure CalledOnce (s : Store U) : Prop where
  dead : ∀ i ∈ calledCells s.trace, i < s.cells.length ∧ isLive s.cells i = false
  nodup : (calledCells s.trace).Nodup

/-- A removable callback is called while it is live, and cleared before. -/
theorem Act.calledCells_cases (hact : Act g s s') :
    calledCells s'.trace = calledCells s.trace ∨
      ∃ i, isLive s.cells i = true ∧ s'.cells = clearedCells s.cells i ∧
        calledCells s'.trace = i :: calledCells s.trace := by
  cases hact with
  | callCell hwork hcell hlive =>
    exact .inr ⟨_, isLive_iff.mpr ⟨_, hcell, hlive⟩, rfl, rfl⟩
  | callProtection hwork hcell hlive =>
    exact .inr ⟨_, isLive_iff.mpr ⟨_, hcell, hlive⟩, rfl, rfl⟩
  | @note e he =>
    refine .inl ?_
    cases e <;> first | exact he.elim | rfl
  | allocInitial hinit => rcases hinit with ⟨-, rfl⟩ | ⟨node, -, rfl⟩ <;> exact .inl rfl
  | _ => exact .inl rfl

theorem lt_length_of_isLive {cells : List Cell} {i : ℕ} (hlive : isLive cells i = true) :
    i < cells.length := by
  obtain ⟨cell, hcell, -⟩ := isLive_iff.mp hlive
  exact (List.getElem?_eq_some_iff.mp hcell).1

theorem Act.dead {i : ℕ} (hact : Act g s s') (hi : i < s.cells.length)
    (hdead : isLive s.cells i = false) : i < s'.cells.length ∧ isLive s'.cells i = false := by
  rcases hact.cells_cases with heq | ⟨j, heq⟩ | ⟨new, heq⟩
  · rw [heq]
    exact ⟨hi, hdead⟩
  · rw [heq]
    refine ⟨by simpa [clearedCells] using hi, ?_⟩
    by_contra hlive
    have hold := (isLive_clearedCells.mp (by simpa using hlive)).2
    rw [hdead] at hold
    simp at hold
  · rw [heq]
    refine ⟨by simp; omega, ?_⟩
    rw [isLive, List.getElem?_append_left hi]
    exact hdead

theorem Act.calledOnce (honce : CalledOnce s) (hact : Act g s s') : CalledOnce s' := by
  rcases hact.calledCells_cases with htrace | ⟨i, hlive, hcells, htrace⟩
  · refine ⟨fun j hj => ?_, htrace ▸ honce.nodup⟩
    obtain ⟨hlt, hdead⟩ := honce.dead j (htrace ▸ hj)
    exact hact.dead hlt hdead
  · have hnew : i ∉ calledCells s.trace := by
      intro hmem
      simp [(honce.dead i hmem).2] at hlive
    refine ⟨fun j hj => ?_, ?_⟩
    · rw [htrace] at hj
      rcases List.mem_cons.mp hj with rfl | hj
      · rw [hcells]
        refine ⟨by simpa [clearedCells] using lt_length_of_isLive hlive, ?_⟩
        simpa using fun h => (isLive_clearedCells.mp h).1 rfl
      · exact hact.dead (honce.dead j hj).1 (honce.dead j hj).2
    · rw [htrace]
      exact List.nodup_cons.mpr ⟨hnew, honce.nodup⟩

theorem calledOnce_initial (main hook : U) : CalledOnce (initial main hook).store :=
  ⟨by simp [initial, Config.store, calledCells], by simp [initial, Config.store, calledCells]⟩

theorem CalledOnce.crashTrace {trace : List (Event U)} (honce : CalledOnce s)
    (htrace : s.CrashTrace trace) : (calledCells trace).Nodup := by
  rcases htrace with rfl | ⟨i, r, hlive, rfl⟩
  · exact honce.nodup
  · refine List.nodup_cons.mpr ⟨fun hmem => ?_, honce.nodup⟩
    simp [(honce.dead i hmem).2] at hlive

end Lwt
