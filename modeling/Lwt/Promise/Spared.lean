import Lwt.Promise.Cells
import Lwt.Promise.Safety

/-!
# Clearing a cell changes nothing else

A live cell is in the callback list of an underlying promise as often as the list it was
added to names that promise (`CellsPlaced`).  So a list that is a single removable
callback when it is visited for the first time holds the cell that is being cleared; a
later visit, after the list has been scanned, can still find another one.  In runs in
which that does not happen (`Config.sparesCells`) clearing a cell changes only that cell.
-/

namespace Lwt

open Heap Table Transition Multiset

variable {U : Type} {g : Guard U} {s s' : Store U}

/-! ## Live cells -/

/-- A record with no new cells and all live ones. -/
def KeepsLive (cells : List Cell) (_ : Pid) (callbacks callbacks' : Callbacks U) : Prop :=
  callbacks'.cells ≤ callbacks.cells ∧
    ∀ j, isLive cells j = true → callbacks'.cells.count j = callbacks.cells.count j

theorem KeepsLive.of_eq {cells : List Cell} {u : Pid} {callbacks callbacks' : Callbacks U}
    (heq : callbacks'.cells = callbacks.cells) : KeepsLive cells u callbacks callbacks' :=
  ⟨heq.le, fun _ _ => by rw [heq]⟩

theorem KeepsLive.refl {cells : List Cell} (u : Pid) (callbacks : Callbacks U) :
    KeepsLive cells u callbacks callbacks :=
  .of_eq rfl

theorem KeepsLive.noNewCells {cells : List Cell} {h h' : Heap U}
    (hrel : Recordwise (KeepsLive cells) h h') : Recordwise NoNewCells h h' := by
  intro u callbacks' hu
  obtain ⟨callbacks, hcb, hle, -⟩ := hrel u callbacks' hu
  exact ⟨callbacks, hcb, hle⟩

/-- Live cells are in the records of the promises they were added to, as often as they
were added. -/
structure CellsPlaced (h : Heap U) (cells : List Cell) : Prop extends CellsWithin h cells where
  count : ∀ (i : ℕ) (cell : Cell), cells[i]? = some cell → cell.live = true →
    ∀ (u : Pid) (callbacks : Callbacks U), h[u]? = some (.pending callbacks) →
      callbacks.cells.count i = h.occurrences cell.originallyAddedTo u

namespace CellsPlaced

variable {h h' : Heap U} {cells cells' : List Cell}

theorem of_recordwise (hp : CellsPlaced h cells) (hcells : Cleared cells cells')
    (hrel : Recordwise (KeepsLive cells') h h') (hroot : ∀ p, h'.root p = h.root p)
    (hlen : h'.length = h.length) : CellsPlaced h' cells' := by
  refine ⟨hp.toCellsWithin.of_recordwise hcells (KeepsLive.noNewCells hrel) hroot hlen,
    fun i cell' hcell' hlive u callbacks' hu => ?_⟩
  obtain ⟨callbacks, hcb, -, hcount⟩ := hrel u callbacks' hu
  obtain ⟨cell, hcell, hps, -, hlive'⟩ := hcells.spec i cell' hcell'
  rw [hcount i (isLive_iff.mpr ⟨cell', hcell', hlive⟩), hp.count i cell hcell (hlive' hlive) u
    callbacks hcb, hps]
  simp only [occurrences, hroot]

theorem append {x : State U} (hwf : h.WellFormed) (hp : CellsPlaced h cells)
    (hx : x.IsUnderlying) (hempty : ∀ callbacks, x = .pending callbacks → callbacks.cells = 0) :
    CellsPlaced (h ++ [x]) cells := by
  refine ⟨hp.toCellsWithin.append hwf hx hempty, fun i cell hcell hlive u callbacks hu => ?_⟩
  have hocc : Heap.occurrences (h ++ [x]) cell.originallyAddedTo u =
      h.occurrences cell.originallyAddedTo u := by
    simp only [occurrences, root_append hwf hx]
  rw [hocc]
  rcases getElem?_append_singleton hu with hold | ⟨rfl, hnew⟩
  · exact hp.count i cell hcell hlive u callbacks hold
  · -- The new promise is nobody's underlying promise yet.
    rw [hempty callbacks hnew.symm, count_zero]
    refine (List.countP_eq_zero.mpr fun p hmem => ?_).symm
    have hlt := root_lt_length hwf (hp.members_lt i cell hcell p hmem)
    simpa using hlt.ne

theorem set_other {u : Pid} {callbacks : Callbacks U} {r : Result U} (hwf : h.WellFormed)
    (hp : CellsPlaced h cells) (hu : h[u]? = some (.pending callbacks)) :
    CellsPlaced (h.set u (.resolved r)) cells :=
  hp.of_recordwise (.refl cells) (.of_set_other KeepsLive.refl (by simp))
    (root_set hwf hu trivial trivial) (by simp)

theorem compressed (hwf : h.WellFormed) (hp : CellsPlaced h cells) (hc : Compressed h h') :
    CellsPlaced h' cells :=
  hp.of_recordwise (.refl cells) (.of_compressed KeepsLive.refl hwf hc)
  (hc.root_eq hwf) hc.length_eq

theorem newCell {kind : CellKind} {target : Pid} {ps : List Pid} (hwf : h.WellFormed)
    (hp : CellsPlaced h cells) (hps : ∀ p ∈ ps, p < h.length)
    (hadd : addCellToEach cells.length h ps = some h') :
    CellsPlaced h' (cells ++ [⟨kind, target, ps, true⟩]) := by
  have hsim := similar_addCellToEach hwf hadd
  refine ⟨hp.toCellsWithin.newCell hwf hps hadd, fun i cell hcell hlive u callbacks' hu => ?_⟩
  obtain ⟨callbacks, hcb, hcells⟩ := cells_addCellToEach hwf hadd u callbacks' hu
  have hocc : h'.occurrences cell.originallyAddedTo u =
      h.occurrences cell.originallyAddedTo u := by
    simp only [occurrences, hsim.root_eq hwf]
  rw [hocc, hcells, count_add]
  rcases getElem?_append_singleton hcell with hold | ⟨rfl, rfl⟩
  · have hne : cells.length ≠ i := (List.getElem?_eq_some_iff.mp hold).1.ne'
    rw [count_replicate, if_neg hne, Nat.zero_add]
    exact hp.count i cell hold hlive u callbacks hcb
  · -- The new cell was in no list before.
    have hzero : callbacks.cells.count cells.length = 0 := by
      refine count_eq_zero.mpr fun hmem => ?_
      obtain ⟨cell, hcell, -⟩ := hp.attached u callbacks hcb _ hmem
      simp at hcell
    rw [count_replicate, if_pos rfl, hzero, Nat.add_zero]

theorem link {outer inner : Pid} {callbacks outerCallbacks : Callbacks U} {how : HowToCancel}
    (hwf : h.WellFormed) (hp : CellsPlaced h cells) (hc : Compressed h h') (hne : inner ≠ outer)
    (hinner : h'[inner]? = some (.pending callbacks))
    (houter : h'[outer]? = some (.pending outerCallbacks)) :
    CellsPlaced ((h'.set outer (.pending { mergeCallbacks cells callbacks outerCallbacks with
      howToCancel := how })).set inner (.proxy outer)) cells := by
  obtain ⟨-, hroot⟩ := link_spec { mergeCallbacks cells callbacks outerCallbacks with
    howToCancel := how } hwf hc hne hinner houter
  have hp' := hp.compressed hwf hc
  obtain ⟨-, hlive⟩ := cells_mergeCallbacks cells callbacks outerCallbacks
  have hrooth' := hc.root_eq hwf
  refine ⟨hp.toCellsWithin.link hwf hc hne hinner houter,
    fun i cell hcell hlivecell u callbacks' hu => ?_⟩
  have hlive' := isLive_iff.mpr ⟨cell, hcell, hlivecell⟩
  rcases getElem?_link hinner houter hu with ⟨rfl, rfl⟩ | ⟨ho, hin, hu'⟩
  · rw [show Callbacks.cells { mergeCallbacks cells callbacks outerCallbacks with
        howToCancel := how } = (mergeCallbacks cells callbacks outerCallbacks).cells from rfl,
      hlive i hlive', hp'.count i cell hcell hlivecell _ _ houter,
      hp'.count i cell hcell hlivecell _ _ hinner]
    simp only [occurrences, hroot, hrooth']
    induction cell.originallyAddedTo with
    | nil => rfl
    | cons p ps ih =>
      simp only [List.countP_cons] at ih ⊢
      rw [← ih]
      by_cases hpi : h.root p = inner
      · simp [hpi, hne]
        omega
      · by_cases hpo : h.root p = u
        · simp [hpo, hne.symm]
          omega
        · simp [hpi, hpo]
  · rw [hp'.count i cell hcell hlivecell u callbacks' hu']
    simp only [occurrences, hroot, hrooth']
    refine List.countP_congr fun p _ => ?_
    by_cases hpi : h.root p = inner
    · simp [hpi, Ne.symm ho, Ne.symm hin]
    · simp [hpi]

end CellsPlaced

/-! ## Clearing -/

/-- Of the callback lists and the table of cells, only the cell `i` has changed. -/
structure ClearsOnly (h : Heap U) (cells : List Cell) (i : ℕ) (h' : Heap U)
    (cells' : List Cell) : Prop where
  table : ∀ j ≠ i, cells'[j]? = cells[j]?
  root : ∀ p, h'.root p = h.root p
  record : ∀ (u : Pid) (callbacks : Callbacks U), h[u]? = some (.pending callbacks) →
    ∃ callbacks' : Callbacks U, h'[u]? = some (.pending callbacks') ∧
      callbacks'.nodes = callbacks.nodes ∧
      callbacks'.cancelCallbacks = callbacks.cancelCallbacks ∧
      callbacks'.howToCancel = callbacks.howToCancel ∧
      ∀ j ≠ i, isLive cells j = true → callbacks'.cells.count j = callbacks.cells.count j

section Clear

variable {h : Heap U} {cells : List Cell} {i : ℕ} {cell : Cell}

/-- No visit takes another cell for the one that is being cleared. -/
def SparesAll (h : Heap U) (cells : List Cell) (i : ℕ) (ps : List Pid) : Prop :=
  ∀ (u : Pid) (callbacks : Callbacks U), h[u]? = some (.pending callbacks) →
    Spares (clearedCells cells i) (h.occurrences ps u) callbacks

theorem other_visits (cells : List Cell) (k : ℕ) (callbacks : Callbacks U) :
    ((deferOrCleanUp cells)^[k] callbacks).cancelCallbacks = callbacks.cancelCallbacks ∧
      ((deferOrCleanUp cells)^[k] callbacks).howToCancel = callbacks.howToCancel := by
  induction k generalizing callbacks with
  | zero => exact ⟨rfl, rfl⟩
  | succ k ih =>
    rw [Function.iterate_succ_apply]
    obtain ⟨hcancel, hhow⟩ := ih (deferOrCleanUp cells callbacks)
    rw [hcancel, hhow]
    exact ⟨cancelCallbacks_deferOrCleanUp cells callbacks,
      howToCancel_deferOrCleanUp cells callbacks⟩

/-- A list that is single when it is visited first holds the cell that is being cleared. -/
theorem CellsPlaced.dead_of_single (hp : CellsPlaced h cells) (hcell : cells[i]? = some cell)
    (hown : cell.live = true ∨
      ∀ p ∈ cell.originallyAddedTo, ∃ r, h.IsResolved (h.root p) r)
    {u : Pid} {callbacks : Callbacks U} (hu : h[u]? = some (.pending callbacks)) {c : ℕ}
    (hocc : 1 ≤ h.occurrences cell.originallyAddedTo u)
    (hsingle : callbacks.regularCallbacks = .explicitlyRemovable c) :
    isLive (clearedCells cells i) c = false := by
  rcases hown with hlive | hresolved
  · have hcount := hp.count i cell hcell hlive u callbacks hu
    have hmem : i ∈ callbacks.cells := count_pos.mp (by omega)
    obtain rfl : i = c := by simpa [Callbacks.cells, hsingle, RegularCallbackList.cells] using hmem
    simpa using fun h => (isLive_clearedCells.mp h).1 rfl
  · obtain ⟨p, hmem, hpu⟩ := List.countP_pos_iff.mp (Nat.lt_of_lt_of_le Nat.zero_lt_one hocc)
    obtain ⟨r, hr⟩ := hresolved p hmem
    rw [of_decide_eq_true hpu, IsResolved, hu] at hr
    simp at hr

theorem CellsPlaced.clearsOnly_iff (hwf : h.WellFormed) (hp : CellsPlaced h cells)
    (hcell : cells[i]? = some cell)
    (hown : cell.live = true ∨
      ∀ p ∈ cell.originallyAddedTo, ∃ r, h.IsResolved (h.root p) r) :
    SparesAll h cells i cell.originallyAddedTo ↔
      ClearsOnly h cells i (visitEach (clearedCells cells i) h cell.originallyAddedTo)
        (clearedCells cells i) := by
  have hget : ∀ (u : Pid) (callbacks : Callbacks U), h[u]? = some (.pending callbacks) →
      (visitEach (clearedCells cells i) h cell.originallyAddedTo)[u]? = some (.pending
        ((deferOrCleanUp (clearedCells cells i))^[h.occurrences cell.originallyAddedTo u]
          callbacks)) := fun u callbacks hu => getElem?_modifyEach hwf _ hu
  constructor
  · intro hspares
    refine ⟨fun j hj => ?_, (similar_visitEach _ hwf _).root_eq hwf, fun u callbacks hu => ?_⟩
    · simp [clearedCells, Ne.symm hj]
    · obtain ⟨hcancel, hhow⟩ := other_visits (clearedCells cells i)
        (h.occurrences cell.originallyAddedTo u) callbacks
      refine ⟨_, hget u callbacks hu, nodes_visits _, hcancel, hhow, fun j hj hlive => ?_⟩
      exact count_visits (isLive_clearedCells.mpr ⟨hj, hlive⟩)
        (fun hocc c hsingle => hp.dead_of_single hcell hown hu hocc hsingle)
        (hspares u callbacks hu)
  · intro honly u callbacks hu
    by_contra hnot
    -- The cell that is found after the scan is live, and lost.
    have hempty := visits_lose hnot
    simp only [Spares, Classical.not_imp, Bool.not_eq_false] at hnot
    obtain ⟨c, hc⟩ := exists_of_isSingle hnot.2
    have hmem : c ∈ (cleanUpCallbackCells (clearedCells cells i)
      callbacks.regularCallbacks).cells := by
      simp [hc, RegularCallbackList.cells]
    rw [cells_cleanUpCallbackCells, mem_filter] at hmem
    obtain ⟨hmem, hlive⟩ := hmem
    obtain ⟨hne, hlive⟩ := isLive_clearedCells.mp hlive
    obtain ⟨callbacks', hcb', -, -, -, hcount⟩ := honly.record u callbacks hu
    rw [hget u callbacks hu] at hcb'
    cases Option.some.inj hcb'
    have hzero := hcount c hne hlive
    rw [Callbacks.cells, hempty, RegularCallbackList.cells, count_zero] at hzero
    exact count_eq_zero.mp hzero.symm hmem

theorem CellsPlaced.clear (hwf : h.WellFormed) (hp : CellsPlaced h cells)
    (hcell : cells[i]? = some cell)
    (hown : cell.live = true ∨
      ∀ p ∈ cell.originallyAddedTo, ∃ r, h.IsResolved (h.root p) r)
    (hspares : SparesAll h cells i cell.originallyAddedTo) :
    CellsPlaced (visitEach (clearedCells cells i) h cell.originallyAddedTo)
      (clearedCells cells i) := by
  have hsim := similar_visitEach (clearedCells cells i) hwf cell.originallyAddedTo
  refine hp.of_recordwise (cleared_clearedCells cells i) (fun u callbacks' hu => ?_)
    (hsim.root_eq hwf) hsim.length_eq
  obtain ⟨callbacks, hcb, hle⟩ := Recordwise.of_visitEach
    (R := fun _ callbacks callbacks' => callbacks'.cells ≤ callbacks.cells)
    (fun _ _ => le_refl _) (fun _ _ _ _ h h' => h'.trans h) hwf cell.originallyAddedTo
    (fun _ callbacks => cells_deferOrCleanUp_le (clearedCells cells i) callbacks) u callbacks' hu
  obtain ⟨callbacks₁, hcb₁, -, -, -, hcount⟩ :=
    ((hp.clearsOnly_iff hwf hcell hown).mp hspares).record u callbacks hcb
  cases Option.some.inj (hu.symm.trans hcb₁)
  refine ⟨callbacks, hcb, hle, fun j hj => ?_⟩
  obtain ⟨hne, hlive⟩ := isLive_clearedCells.mp hj
  exact hcount j hne hlive

end Clear

/-! ## The invariant -/

/-- No visit of a removal takes another cell for the one that is being cleared. -/
def cellGuard : Guard U := fun s hazard =>
  match hazard with
  | .call i | .remove i => SparesAll s.heap s.cells i (s.members i)
  | _ => True

theorem members_eq {i : ℕ} {cell : Cell} (hcell : s.cells[i]? = some cell) :
    s.members i = cell.originallyAddedTo := by
  simp [Store.members, hcell]

theorem CellsPlaced.attach {u : Pid} {callback : Callback U} (hwf : s.heap.WellFormed)
    (hp : CellsPlaced s.heap s.cells) :
    CellsPlaced (s.attach u callback).heap (s.attach u callback).cells := by
  have hsim := Store.similar_attach s u callback
  refine hp.of_recordwise (.refl _) (.of_modifyPending KeepsLive.refl fun callbacks => ?_)
    (hsim.root_eq hwf) hsim.length_eq
  exact .of_eq (by simp [Callbacks.cells, addImplicitlyRemovedCallback, RegularCallbackList.cells])

theorem CellsPlaced.addCancel {h : Heap U} {cells : List Cell} {u : Pid} {mark : Mark}
    {storage : Storage U}
    {f : CancelCallback U} (hwf : h.WellFormed) (hp : CellsPlaced h cells) :
    CellsPlaced (h.modifyPending u (addCancelCallback mark storage f)) cells := by
  have hsim : Similar h (h.modifyPending u (addCancelCallback mark storage f)) :=
    similar_modifyPending fun callbacks => howToCancel_addCancelCallback _ _ _ callbacks
  exact hp.of_recordwise (.refl _) (.of_modifyPending KeepsLive.refl fun callbacks => .of_eq rfl)
    (hsim.root_eq hwf) hsim.length_eq

theorem CellsPlaced.clear_store {i : ℕ} {cell : Cell} (hwf : s.heap.WellFormed)
    (hp : CellsPlaced s.heap s.cells)
    (hcell : s.cells[i]? = some cell)
    (hown : cell.live = true ∨
      ∀ p ∈ cell.originallyAddedTo, ∃ r, s.heap.IsResolved (s.heap.root p) r)
    (hspares : SparesAll s.heap s.cells i (s.members i)) :
    CellsPlaced (s.clear i).heap (s.clear i).cells := by
  rw [members_eq hcell] at hspares
  simp only [Store.clear, members_eq hcell]
  exact hp.clear hwf hcell hown hspares

theorem Tracked.removable_of_mem {i : ℕ} (hc : Tracked s) (hi : i ∈ s.removals) :
    ∃ cell, s.cells[i]? = some cell ∧ (cell.live = true ∨
      ∀ p ∈ cell.originallyAddedTo, ∃ r, s.heap.IsResolved (s.heap.root p) r) := by
  obtain ⟨cell, p, hcell, hps, -, hown⟩ := hc.removable i hi
  refine ⟨cell, hcell, hown.imp_right fun hres q hq => ?_⟩
  obtain rfl : q = p := by simpa [hps] using hq
  exact hres

theorem Act.cellsPlaced (hwf : s.heap.WellFormed) (hc : Tracked s)
    (hp : CellsPlaced s.heap s.cells)
    (hspares : ∀ i, g s (.call i) ∨ g s (.remove i) → SparesAll s.heap s.cells i (s.members i))
    (hact : Act g s s') : CellsPlaced s'.heap s'.cells := by
  have hwf' : ∀ how, Heap.WellFormed (s.heap ++ [newPending how]) := fun how =>
    wellFormed_append hwf (isUnderlying_newPending how)
  have hnew : ∀ how, CellsPlaced (s.heap ++ [newPending how]) s.cells := fun how =>
    hp.append hwf (isUnderlying_newPending how) (by rintro callbacks heq; cases heq; rfl)
  cases hact with
  | compress hcomp => exact hp.compressed hwf hcomp
  | allocResolved r => exact hp.append hwf trivial (by simp)
  | allocInitial =>
    exact hp.append (x := .pending _) hwf trivial (by rintro callbacks heq; cases heq; rfl)
  | attachCompose hu hhow =>
    exact CellsPlaced.attach (s := { s with heap := s.heap ++ [newPending _] }) (hwf' _) (hnew _)
  | attachObserve hu => exact hp.attach hwf
  | newCell hkind hadd =>
    exact (hnew _).newCell (hwf' _) (lt_length_of_addCellToEach (hwf' _) hadd) hadd
  | newProtection hadd =>
    exact ((hnew _).newCell (hwf' _) (lt_length_of_addCellToEach (hwf' _) hadd) hadd).addCancel
      ((similar_addCellToEach (hwf' _) hadd).wellFormed (hwf' _))
  | addUserCancel => exact hp.addCancel hwf
  | joinNew => exact hnew _
  | joinAttach hjoining hjoin hu =>
    exact CellsPlaced.attach (s := { s with joins := s.joins.set _ _ }) hwf hp
  | joinEndEmpty => exact hp.append (x := .resolved _) hwf trivial (by simp)
  | wake hmem hcb => exact hp.set_other hwf hcb
  | cancelMark hcb hhow => exact hp.set_other hwf hcb
  | @cancelsRemove rest mark storage i hwork hguard =>
    obtain ⟨cell, hcell, hown⟩ := hc.removable_of_mem (i := i)
      (mem_removals_of_work (w := .cancels (.callback mark storage (.removeTheCallback i)))
        (by simp [hwork]) (by simp [Work.removals, CancelCallbackList.removals]))
    exact hp.clear_store hwf hcell hown (hspares i (.inr hguard))
  | callCell hwork hcell hlive hkind hguard =>
    exact hp.clear_store hwf hcell (.inl hlive) (hspares _ (.inl hguard))
  | @callProtection rest i cell r h callbacks hwork hcell hlive hkind hguard hcomp hcb =>
    have hwf₁ := (Store.similar_clear hwf i).wellFormed hwf
    exact ((hp.clear_store hwf hcell (.inl hlive) (hspares i (.inl hguard))).compressed hwf₁
      hcomp).set_other
      (hcomp.wellFormed hwf₁) hcb
  | settle hwork hpromised hcb => exact hp.set_other hwf hcb
  | settleExact hwork hcb => exact hp.set_other hwf hcb
  | link hwork hcomp hne hcb houter hguard => exact hp.link hwf hcomp hne hcb houter
  | _ => exact hp

/-! ## Live cells are called -/

/-- A list with the cell `i` is about to be called. -/
def Store.Running (s : Store U) (i : ℕ) : Prop :=
  ∃ w ∈ s.work, ∃ l r, w.Runs l r ∧ i ∈ l.cells

/-- Live cells wait in pending promises, or are about to be called. -/
def LiveDue (s : Store U) : Prop :=
  ∀ (i : ℕ) (cell : Cell), s.cells[i]? = some cell → cell.live = true →
    ∀ q ∈ cell.originallyAddedTo, s.heap.IsPending (s.heap.root q) ∨ s.Running i

theorem Store.Running.of_work {i : ℕ} (hrun : s.Running i) (hwork : ∀ w ∈ s.work, w ∈ s'.work) :
    s'.Running i := by
  obtain ⟨w, hw, hruns⟩ := hrun
  exact ⟨w, hwork w hw, hruns⟩

theorem Store.Running.of_rest {w : Work U} {rest : Multiset (Work U)} {i : ℕ} (hrun : s.Running i)
    (hwork : s.work = w ::ₘ rest) (hw : ∀ l r, w.Runs l r → i ∉ l.cells)
    (hrest : ∀ w ∈ rest, w ∈ s'.work) : s'.Running i := by
  obtain ⟨w', hw', l, r, hruns, hi⟩ := hrun
  rw [hwork] at hw'
  rcases mem_cons.mp hw' with rfl | hw'
  · exact absurd hi (hw l r hruns)
  · exact ⟨w', hrest w' hw', l, r, hruns, hi⟩

namespace LiveDue

theorem of_similar (hwf : s.heap.WellFormed) (hl : LiveDue s) (hsim : Similar s.heap s'.heap)
    (hcells : Cleared s.cells s'.cells)
    (hrun : ∀ i, isLive s'.cells i = true → s.Running i → s'.Running i) : LiveDue s' := by
  intro i cell' hcell' hlive' q hq
  obtain ⟨cell, hcell, hps, -, hlive⟩ := hcells.spec i cell' hcell'
  rcases hl i cell hcell (hlive hlive') q (hps ▸ hq) with hp | hr
  · exact .inl ((hsim.isPending_own_root_iff hwf q).mpr hp)
  · exact .inr (hrun i (isLive_iff.mpr ⟨cell', hcell', hlive'⟩) hr)

theorem of_work (hl : LiveDue s) (hheap : s'.heap = s.heap) (hcells : s'.cells = s.cells)
    (hrun : ∀ i, isLive s.cells i = true → s.Running i → s'.Running i) : LiveDue s' := by
  intro i cell hcell hlive q hq
  rw [hcells] at hcell
  rw [hheap]
  exact (hl i cell hcell hlive q hq).imp_right (hrun i (isLive_iff.mpr ⟨cell, hcell, hlive⟩))

theorem append {x : State U} (hwf : s.heap.WellFormed) (hl : LiveDue s) (hx : x.IsUnderlying) :
    LiveDue { s with heap := s.heap ++ [x] } := by
  intro i cell hcell hlive q hq
  refine (hl i cell hcell hlive q hq).imp_left fun hp => ?_
  rw [root_append hwf hx]
  exact hp.append

theorem resolve {u : Pid} {callbacks : Callbacks U} {r : Result U} (hwf : s.heap.WellFormed)
    (hp : CellsPlaced s.heap s.cells) (hl : LiveDue s)
    (hu : s.heap[u]? = some (.pending callbacks)) :
    LiveDue (s.resolve u callbacks r) := by
  intro i cell hcell hlive q hq
  rcases hl i cell hcell hlive q hq with hpending | hrun
  · by_cases hqu : s.heap.root q = u
    · -- The cell is in the record that is to be run.
      refine .inr ⟨.record u callbacks r, mem_cons_self _ _, callbacks.regularCallbacks, r,
        ⟨rfl, rfl⟩, ?_⟩
      have hcount := hp.count i cell hcell hlive u callbacks hu
      have hocc : 0 < s.heap.occurrences cell.originallyAddedTo u :=
        List.countP_pos_iff.mpr ⟨q, hq, by simp [hqu]⟩
      exact count_pos.mp (hcount ▸ hocc)
    · refine .inl ?_
      have hroot : (s.resolve u callbacks r).heap.root q = s.heap.root q :=
        root_set (t := .resolved r) hwf hu trivial trivial q
      rw [hroot, IsPending, Store.resolve, List.getElem?_set_ne (Ne.symm hqu)]
      exact hpending
  · exact .inr (hrun.of_work fun w hw => mem_cons_of_mem hw)

theorem newCell (kind : CellKind) (target : Pid) {ps : List Pid} {h : Heap U}
    (hwf : s.heap.WellFormed) (hl : LiveDue s)
    (hadd : addCellToEach s.cells.length s.heap ps = some h) :
    LiveDue { s with heap := h, cells := s.cells ++ [⟨kind, target, ps, true⟩] } := by
  have hsim := similar_addCellToEach hwf hadd
  intro i cell hcell hlive q hq
  rcases getElem?_append_singleton hcell with hold | ⟨rfl, rfl⟩
  · exact (hl i cell hold hlive q hq).imp_left (hsim.isPending_own_root_iff hwf q).mpr
  · exact .inl ((hsim.isPending_own_root_iff hwf q).mpr (isPending_of_addCellToEach hwf hadd q hq))

theorem link {outer inner : Pid} {callbacks outerCallbacks : Callbacks U} {how : HowToCancel}
    {h' : Heap U} (hwf : s.heap.WellFormed) (hl : LiveDue s) (hc : Compressed s.heap h')
    (hne : inner ≠ outer) (hinner : h'[inner]? = some (.pending callbacks))
    (houter : h'[outer]? = some (.pending outerCallbacks)) :
    LiveDue { s with
      heap := (h'.set outer (.pending { mergeCallbacks s.cells callbacks outerCallbacks
        with howToCancel := how })).set inner (.proxy outer) } := by
  obtain ⟨-, hroot⟩ := link_spec { mergeCallbacks s.cells callbacks outerCallbacks with
    howToCancel := how } hwf hc hne hinner houter
  intro i cell hcell hlive q hq
  refine (hl i cell hcell hlive q hq).imp_left fun hpending => ?_
  have hmerged : Heap.IsPending ((h'.set outer (.pending { mergeCallbacks s.cells callbacks
      outerCallbacks with howToCancel := how })).set inner (.proxy outer)) outer := by
    refine ⟨{ mergeCallbacks s.cells callbacks outerCallbacks with howToCancel := how }, ?_⟩
    rw [List.getElem?_set_ne hne, List.getElem?_set_self (lt_length_of_getElem? houter)]
  show Heap.IsPending _ (Heap.root _ q)
  rw [hroot]
  split
  · exact hmerged
  · rename_i hqi
    by_cases hqo : s.heap.root q = outer
    · rw [hqo]
      exact hmerged
    · obtain ⟨cb, hcb⟩ := hpending
      refine ⟨cb, ?_⟩
      rw [List.getElem?_set_ne (Ne.symm hqi), List.getElem?_set_ne (Ne.symm hqo),
        hc.getElem?_root hwf]
      exact hcb

end LiveDue

theorem Act.liveDue (hwf : s.heap.WellFormed) (hp : CellsPlaced s.heap s.cells)
    (hspares : ∀ i, g s (.call i) → SparesAll s.heap s.cells i (s.members i))
    (hdrop : ¬ g s .drop) (hl : LiveDue s) (hact : Act g s s') : LiveDue s' := by
  have hwf' : ∀ how, Heap.WellFormed (s.heap ++ [newPending how]) := fun how =>
    wellFormed_append hwf (isUnderlying_newPending how)
  have hnew : ∀ how, LiveDue { s with heap := s.heap ++ [newPending how] } := fun how =>
    hl.append hwf (isUnderlying_newPending how)
  have hsame : ∀ {s s' : Store U}, s'.work = s.work →
      ∀ i, isLive s'.cells i = true → s.Running i → s'.Running i := fun hwork i _ hrun =>
    hrun.of_work fun w hw => hwork ▸ hw
  -- Work that calls no list with a live cell is done, and nothing else changes.
  have hdone : ∀ {w : Work U} {rest : Multiset (Work U)} (s' : Store U), s.work = w ::ₘ rest →
      (∀ i, isLive s.cells i = true → ∀ l r, w.Runs l r → i ∉ l.cells) →
      (∀ w ∈ rest, w ∈ s'.work) → s'.heap = s.heap → s'.cells = s.cells → LiveDue s' :=
    fun s' hwork hw hrest hheap hcells => hl.of_work hheap hcells fun i hlive hrun =>
      hrun.of_rest hwork (hw i hlive) hrest
  have hnode : ∀ {node : Node U} {r : Result U} (i : ℕ), isLive s.cells i = true →
      ∀ l r', (Work.regular (.implicitlyRemoved node) r).Runs l r' → i ∉ l.cells := by
    rintro node r i - l r' ⟨rfl, rfl⟩
    simp [RegularCallbackList.cells]
  cases hact with
  | compress hc => exact hl.of_similar hwf hc.similar (.refl _) (hsame rfl)
  | allocResolved r => exact hl.append hwf trivial
  | allocInitial => exact hl.append (x := .pending _) hwf trivial
  | attachCompose hu hhow =>
    exact (hnew _).of_similar (hwf' _) (Store.similar_attach { s with heap := _ } _ _) (.refl _)
      (hsame rfl)
  | attachObserve hu =>
    exact hl.of_similar hwf (Store.similar_attach s _ _) (.refl _) (hsame rfl)
  | newCell hkind hadd =>
    exact LiveDue.newCell (s := { s with heap := s.heap ++ [newPending _] }) _ _ (hwf' _)
      (hnew _) hadd
  | @newProtection p storage h hadd hguard =>
    have hcell := (hnew _).newCell .protection s.heap.length (hwf' _) hadd
    refine hcell.of_similar ((similar_addCellToEach (hwf' _) hadd).wellFormed (hwf' _)) ?_
      (.refl _) (hsame rfl)
    exact similar_modifyPending fun callbacks => howToCancel_addCancelCallback _ _ _ callbacks
  | addUserCancel =>
    exact hl.of_similar hwf
      (similar_modifyPending fun callbacks => howToCancel_addCancelCallback _ _ _ callbacks)
      (.refl _)
      (hsame rfl)
  | joinNew => exact hnew _
  | joinAttach =>
    exact hl.of_similar hwf (Store.similar_attach { s with joins := _ } _ _) (.refl _) (hsame rfl)
  | joinEndEmpty => exact hl.append (x := .resolved _) hwf trivial
  | wake hmem hcb => exact hl.resolve hwf hp hcb
  | cancelMark hcb hhow => exact hl.resolve hwf hp hcb
  | @runRecord rest p callbacks r hwork =>
    refine hl.of_work rfl rfl fun i _ hrun => ?_
    obtain ⟨w, hw, l, r', hruns, hi⟩ := hrun
    rw [hwork] at hw
    rcases mem_cons.mp hw with rfl | hw
    · refine ⟨.regular callbacks.regularCallbacks r, mem_add.mpr (.inl ?_), l,
        r', hruns, hi⟩
      unfold Callbacks.opened
      split <;> simp
    · exact ⟨w, mem_add.mpr (.inr hw), l, r', hruns, hi⟩
  | regularEmpty hwork =>
    refine hdone _ hwork ?_ (fun w hw => hw) rfl rfl
    rintro i - l r ⟨rfl, rfl⟩
    simp [RegularCallbackList.cells]
  | @regularConcat rest l₁ l₂ r hwork =>
    refine hl.of_work rfl rfl fun i _ hrun => ?_
    obtain ⟨w, hw, l, r', hruns, hi⟩ := hrun
    rw [hwork] at hw
    rcases mem_cons.mp hw with rfl | hw
    · obtain ⟨rfl, rfl⟩ := hruns
      rcases mem_add.mp hi with hi | hi
      · exact ⟨.regular l₁ r, by simp, l₁, r, ⟨rfl, rfl⟩, hi⟩
      · exact ⟨.regular l₂ r, by simp, l₂, r, ⟨rfl, rfl⟩, hi⟩
    · exact ⟨w, by simp [hw], l, r', hruns, hi⟩
  | @regularDead rest j r hwork hdead =>
    refine hdone _ hwork ?_ (fun w hw => hw) rfl rfl
    rintro i hlive l r' ⟨rfl, rfl⟩ hi
    obtain rfl : i = j := by simpa [RegularCallbackList.cells] using hi
    simp [hdead] at hlive
  | cancelsEmpty hwork => exact hdone _ hwork (fun _ _ _ _ h => h.elim) (fun w hw => hw) rfl rfl
  | cancelsConcat hwork =>
    exact hdone _ hwork (fun _ _ _ _ h => h.elim) (fun w hw => by simp [hw]) rfl rfl
  | cancelsUser hwork => exact hdone _ hwork (fun _ _ _ _ h => h.elim) (fun w hw => hw) rfl rfl
  | cancelsNode hwork => exact hdone _ hwork (fun _ _ _ _ h => h.elim) (fun w hw => hw) rfl rfl
  | @cancelsRemove rest mark storage i hwork hguard =>
    refine hl.of_similar hwf (Store.similar_clear hwf i) (cleared_clearedCells s.cells i)
      fun j _ hrun => ?_
    exact hrun.of_rest hwork (fun _ _ h => h.elim) fun w hw => hw
  | callCompose hwork hcallback =>
    exact hdone _ hwork hnode (fun w hw => mem_cons_of_mem hw) rfl rfl
  | callObserve hwork hcallback => exact hdone _ hwork hnode (fun w hw => hw) rfl rfl
  | callJoinNone hwork hcallback => exact hdone _ hwork hnode (fun w hw => hw) rfl rfl
  | callJoin hwork hcallback => exact hdone _ hwork hnode (fun w hw => hw) rfl rfl
  | callJoinLast hjoining hwork hcallback =>
    exact hdone _ hwork hnode (fun w hw => mem_cons_of_mem hw) rfl rfl
  | @callCell rest i cell r hwork hcell hlive hkind hguard =>
    refine hl.of_similar hwf (Store.similar_clear hwf i) (cleared_clearedCells s.cells i)
      fun j hj hrun => hrun.of_rest hwork ?_ fun w hw => mem_cons_of_mem hw
    rintro l r' ⟨rfl, rfl⟩ hmem
    obtain rfl : j = i := by simpa [RegularCallbackList.cells] using hmem
    exact (isLive_clearedCells.mp hj).1 rfl
  | @callProtection rest i cell r h callbacks hwork hcell hlive hkind hguard hcomp hcb =>
    have hwf₁ := (Store.similar_clear hwf i).wellFormed hwf
    have hplaced := (hp.clear_store hwf hcell (.inl hlive) (hspares i hguard)).compressed hwf₁
      hcomp
    refine LiveDue.resolve (hcomp.wellFormed hwf₁) hplaced ?_ hcb
    refine hl.of_similar hwf ((Store.similar_clear hwf i).trans hcomp.similar)
      (cleared_clearedCells s.cells i) fun j hj hrun => hrun.of_rest hwork ?_ fun w hw => hw
    rintro l r' ⟨rfl, rfl⟩ hmem
    obtain rfl : j = i := by simpa [RegularCallbackList.cells] using hmem
    exact (isLive_clearedCells.mp hj).1 rfl
  | @settle rest target o r callbacks hwork hpromised hcb =>
    exact LiveDue.resolve (s := { s with work := rest }) hwf hp
      (hdone _ hwork (fun _ _ _ _ h => h.elim) (fun w hw => hw) rfl rfl) hcb
  | @settleExact rest p r callbacks hwork hcb =>
    exact LiveDue.resolve (s := { s with work := rest }) hwf hp
      (hdone _ hwork (fun _ _ _ _ h => h.elim) (fun w hw => hw) rfl rfl) hcb
  | @link rest target q h callbacks outerCallbacks hwork hc hne hcb houter hguard =>
    exact LiveDue.link (s := { s with work := rest }) hwf
      (hdone _ hwork (fun _ _ _ _ h => h.elim) (fun w hw => hw) rfl rfl) hc hne hcb houter
  | same hwork hroot => exact hdone _ hwork (fun _ _ _ _ h => h.elim) (fun w hw => hw) rfl rfl
  | drop hguard hle => exact absurd hguard hdrop
  | _ => exact hl

theorem cellsPlaced_initial (main hook : U) :
    CellsPlaced (initial main hook).store.heap (initial main hook).store.cells := by
  refine ⟨(tracked_initial main hook).within, fun i cell hcell => ?_⟩
  simp [initial, Config.store] at hcell

/-! ## Runs -/

/-- The cell that the next step clears. -/
def Config.clearing (c : Config U) : Option ℕ :=
  match c.control, c.stack with
  | .ret _, .runRegularCallbacks (.explicitlyRemovable i :: _) _ :: _ =>
    if c.isLive i then some i else none
  | .ret _, .runCancelCallbacks (.callback _ _ (.removeTheCallback i) :: _) :: _ => some i
  | _, _ => none

/-- The promises that the cell `i` was added to. -/
def Config.members (c : Config U) (i : ℕ) : List Pid :=
  (c.cells[i]?.map Cell.originallyAddedTo).getD []

/-- Besides the cell `i`, the record holds one callback only, and that is a removable one. -/
def Callbacks.isSingleBut (callbacks : Callbacks U) (cells : List Cell) (i : ℕ) : Bool :=
  callbacks.nodes.card = 0 &&
    (callbacks.cells.filter fun j => j ≠ i ∧ isLive cells j = true).card = 1

/-- A promise that is visited again after its callback list has been scanned holds no
callback besides the cell being cleared, or a callback that is not removable, or several. -/
def Config.sparesCells (c : Config U) : Bool :=
  match c.clearing with
  | none => true
  | some i => (List.range c.heap.length).all fun u =>
    match c.heap[u]? with
    | some (.pending callbacks) =>
      !(decide (visitsToCleanUp callbacks < c.heap.occurrences (c.members i) u) &&
        callbacks.isSingleBut c.cells i)
    | _ => true

theorem isSingleBut_iff {callbacks : Callbacks U} {cells : List Cell} {i : ℕ} :
    callbacks.isSingleBut cells i = true ↔
      (cleanUpCallbackCells (clearedCells cells i) callbacks.regularCallbacks).isSingle = true := by
  rw [(tight_cleanUpCallbackCells _ _).isSingle_iff, cells_cleanUpCallbackCells,
    nodes_cleanUpCallbackCells]
  have hfilter : (callbacks.regularCallbacks.cells.filter
      fun j => isLive (clearedCells cells i) j = true) =
        callbacks.cells.filter fun j => j ≠ i ∧ isLive cells j = true :=
    filter_congr fun j _ => isLive_clearedCells
  rw [hfilter, Callbacks.isSingleBut, Bool.and_eq_true, decide_eq_true_iff, decide_eq_true_iff]
  rfl

theorem Config.sparesCells_iff {c : Config U} {i : ℕ} (hclearing : c.clearing = some i) :
    c.sparesCells = true ↔ SparesAll c.heap c.cells i (c.members i) := by
  simp only [Config.sparesCells, hclearing, List.all_eq_true, List.mem_range]
  constructor
  · intro hall u callbacks hu hvisits
    have hspared := hall u (lt_length_of_getElem? hu)
    simp only [hu, hvisits, decide_true, Bool.true_and, Bool.not_eq_true'] at hspared
    by_contra hsingle
    rw [isSingleBut_iff.mpr (by simpa using hsingle)] at hspared
    simp at hspared
  · intro hspares u hu
    split
    · rename_i callbacks hcb
      by_contra hnot
      simp only [Bool.not_eq_true, Bool.not_eq_false', Bool.and_eq_true, decide_eq_true_eq,
        isSingleBut_iff] at hnot
      rw [hspares u callbacks hcb hnot.1] at hnot
      simp at hnot
    · rfl

theorem permits_cellGuard {c : Config U} {a : Label U} (hspares : c.sparesCells = true) :
    c.Permits cellGuard a := by
  unfold Config.Permits
  split
  · rename_i v frame stack hcontrol hstack
    cases frame with
    | runRegularCallbacks todo r =>
      cases todo with
      | nil => trivial
      | cons l rest =>
        cases l with
        | explicitlyRemovable i =>
          intro hlive
          have hclearing : c.clearing = some i := by
            have hlive' : c.isLive i = true := hlive
            simp [Config.clearing, hcontrol, hstack, hlive']
          exact (Config.sparesCells_iff hclearing).mp hspares
        | _ => trivial
    | runCancelCallbacks todo =>
      unfold Frame.Permits
      split
      · rename_i heq
        cases heq
      · rename_i i rest heq
        cases heq
        have hclearing : c.clearing = some i := by simp [Config.clearing, hcontrol, hstack]
        exact (Config.sparesCells_iff hclearing).mp hspares
      · rename_i heq
        cases heq
      · trivial
    | proxyInto target => exact fun q _ _ _ => trivial
    | _ => trivial
  · exact fun _ => trivial
  · unfold Label.Permits
    split
    · exact fun _ => trivial
    · trivial
  · trivial

/-- The next step clears a cell that is live or whose member is resolved. -/
theorem Tracked.of_clearing {c : Config U} {i : ℕ} (hc : Tracked c.store)
    (hclearing : c.clearing = some i) :
    ∃ cell, c.cells[i]? = some cell ∧ (cell.live = true ∨
      ∀ p ∈ cell.originallyAddedTo, ∃ r, c.heap.IsResolved (c.heap.root p) r) := by
  unfold Config.clearing at hclearing
  split at hclearing
  · rename_i j rest r stack hcontrol hstack
    split at hclearing
    · rename_i hlive
      obtain rfl := Option.some.inj hclearing
      obtain ⟨cell, hcell, hlive⟩ := isLive_iff.mp hlive
      exact ⟨cell, hcell, .inl hlive⟩
    · simp at hclearing
  · rename_i mark storage j rest stack hcontrol hstack
    obtain rfl := Option.some.inj hclearing
    refine hc.removable_of_mem (mem_removals_of_work
      (w := .cancels (.callback mark storage (.removeTheCallback j))) ?_
      (by simp [Work.removals, CancelCallbackList.removals]))
    have hframe : .runCancelCallbacks (.callback mark storage (.removeTheCallback j) :: rest) ∈
      c.stack := by
      simp [hstack]
    exact mem_work_of_mem_stack hframe (by simp [Frame.work])
  · simp at hclearing

/-- The configuration after the cell `i` has been cleared. -/
def Config.cleared (c : Config U) (i : ℕ) : Config U := c.clearCell i (c.members i)

/-- Removable callbacks are called at most once in every run.  In every run in which no
clearing takes another cell for its own, clearing a cell changes only that cell, and it
does so exactly if it takes no other cell for its own. -/
theorem clearing_changes_only_cell {main hook : U} {c : Config U} {i : ℕ} :
    (Reach step (fun _ _ => True) (initial main hook) c → (calledCells c.trace).Nodup) ∧
    (Reach step (fun c _ => c.sparesCells = true) (initial main hook) c → c.clearing = some i →
      (c.sparesCells = true ↔
        ClearsOnly c.heap c.cells i (c.cleared i).heap (c.cleared i).cells)) := by
  refine ⟨fun hreach => ?_, fun hreach hclearing => ?_⟩
  · have hcases := reach_cases (g := fun _ _ => True) (P := CalledOnce)
      (fun c a _ => permits_true c a) (fun s s' _ honce hact => hact.calledOnce honce)
      (calledOnce_initial main hook) hreach
    rcases hcases with ⟨-, honce⟩ | ⟨-, s, honce, -, htrace⟩
    · exact honce.nodup
    · exact honce.crashTrace htrace
  · have halive : c.control ≠ .crash := by
      intro hcrash
      simp [Config.clearing, hcrash] at hclearing
    obtain ⟨hs, hc⟩ := reach_store (g := cellGuard)
      (P := fun s => Tracked s ∧ CellsPlaced s.heap s.cells) (fun c a h => permits_cellGuard h)
      (fun s s' hs hc hact => ⟨hact.tracked hs.wellFormed hc.1,
        hact.cellsPlaced hs.wellFormed hc.1 hc.2 fun i h => h.elim id id⟩)
      ⟨tracked_initial main hook, cellsPlaced_initial main hook⟩ hreach halive
    obtain ⟨cell, hcell, hown⟩ := hc.1.of_clearing hclearing
    have hmembers : c.members i = cell.originallyAddedTo := by simp [Config.members, hcell]
    rw [Config.sparesCells_iff hclearing, Config.cleared, hmembers]
    exact hc.2.clearsOnly_iff hs.wellFormed hcell hown

/-- Clearing the cell `i` removes the live cell `j` from the record of `u`. -/
def Config.loses (c : Config U) (i j : ℕ) (u : Pid) : Bool :=
  match c.heap[u]?, (c.cleared i).heap[u]? with
  | some (.pending callbacks), some (.pending callbacks') =>
    j ≠ i && c.isLive j && callbacks.cells.count j ≠ callbacks'.cells.count j
  | _, _ => false

theorem Config.not_clearsOnly_of_loses {c : Config U} {i j : ℕ} {u : Pid}
    (hloses : c.loses i j u = true) :
    ¬ ClearsOnly c.heap c.cells i (c.cleared i).heap (c.cleared i).cells := by
  intro honly
  unfold Config.loses at hloses
  split at hloses
  · rename_i callbacks callbacks' hcb hcb'
    simp only [Bool.and_eq_true, decide_eq_true_eq] at hloses
    obtain ⟨⟨hne, hlive⟩, hcount⟩ := hloses
    obtain ⟨callbacks₁, hcb₁, -, -, -, hkeep⟩ := honly.record u callbacks hcb
    cases Option.some.inj (hcb'.symm.trans hcb₁)
    exact hcount (hkeep j hne hlive).symm
  · simp at hloses

/-- A `choose` that names the promise `0` 44 times, another that names it once, and the
resolution of another member of the first. -/
def crowdedMoves : List (Move ℕ) :=
  [.call .task 0, .call .task 0, .call .task 0, .call (.choose (List.replicate 44 0 ++ [1]) 0) 0,
    .call (.choose [0, 2] 0) 0, .call (.wakeupGeneral "wakeup" 1 (.fulfilled .unit)) 0]

/-- The second `choose` loses its callback on the promise `0`. -/
theorem clearing_takes_other_cell : ∃ c : Config ℕ,
    Reach step (fun _ _ => True) (initial 0 0) c ∧ c.clearing = some 0 ∧
      ¬ ClearsOnly c.heap c.cells 0 (c.cleared 0).heap (c.cleared 0).cells := by
  obtain ⟨c, hreach, hlost⟩ := exists_reach (fun c _ => c.clearing.isNone)
    (P := fun c => decide (c.clearing = some 0) && c.loses 0 1 0)
    (show (script _ 40 (initial 0 0) crowdedMoves).any _ = true by decide +kernel)
  obtain ⟨hclearing, hloses⟩ := (Bool.and_eq_true _ _).mp hlost
  exact ⟨c, hreach.mono fun _ _ _ => trivial, of_decide_eq_true hclearing,
    Config.not_clearsOnly_of_loses hloses⟩

/-- A `choose` with duplicates beside another one. -/
def duplicateMoves : List (Move ℕ) :=
  [.call .task 0, .call .task 0, .call .task 0, .call (.choose [0, 0, 1, 0] 0) 0,
    .call (.choose [0, 2] 0) 0, .call (.attach (.bind 0) 0) 0,
    .call (.wakeupGeneral "wakeup" 1 (.fulfilled .unit)) 0]

theorem clearing_changes_only_cell_duplicates : ∃ c : Config ℕ,
    Reach step (fun c _ => c.sparesCells = true) (initial 0 0) c ∧ c.clearing = some 0 ∧
      (calledCells c.trace).Nodup ∧
      ClearsOnly c.heap c.cells 0 (c.cleared 0).heap (c.cleared 0).cells := by
  obtain ⟨c, hreach, hend⟩ := exists_reach (fun c _ => c.sparesCells && c.clearing.isNone)
    (P := fun c => decide (c.clearing = some 0) && c.sparesCells)
    (show (script _ 40 (initial 0 0) duplicateMoves).any _ = true by decide +kernel)
  obtain ⟨hclearing, hspares⟩ := (Bool.and_eq_true _ _).mp hend
  have hclearing' := of_decide_eq_true hclearing
  have hreach' := hreach.mono fun c _ hok => ((Bool.and_eq_true _ _).mp hok).1
  exact ⟨c, hreach', hclearing',
    clearing_changes_only_cell (i := 0).1 (hreach'.mono fun _ _ _ => trivial),
    (clearing_changes_only_cell.2 hreach' hclearing').mp hspares⟩

end Lwt
