import Mathlib.Data.Multiset.Filter
import Mathlib.Logic.Function.Iterate
import Lwt.Promise.Contents

/-!
# Visiting the promises a cell was added to

`clear_explicitly_removable_callback_cell` visits each promise of a list, which can name
one underlying promise several times.  What `k` visits do to a record is computed here:
they keep every implicitly removed callback, and they keep the live cells unless a visit
finds a single live cell, which it takes for the one that is being cleared.  `Spares` says
that this does not happen.
-/

namespace Lwt

open Heap

variable {U : Type}

/-! ## Visits to one record -/

section Visits

variable {cells : List Cell} {callbacks : Callbacks U}

/-- The list is a single removable callback. -/
def RegularCallbackList.isSingle : RegularCallbackList U → Bool
  | .explicitlyRemovable _ => true
  | _ => false

/-- The number of visits up to and including the one that scans the list. -/
def visitsToCleanUp (callbacks : Callbacks U) : ℕ :=
  max 1 (cleanupThrottle + 1 - callbacks.cleanupsDeferred)

/-- In `k` visits no single live cell is found after a scan. -/
def Spares (cells : List Cell) (k : ℕ) (callbacks : Callbacks U) : Prop :=
  visitsToCleanUp callbacks < k →
    (cleanUpCallbackCells cells callbacks.regularCallbacks).isSingle = false

/-- A second scan finds nothing to remove. -/
theorem cleanUpCallbackCells_idem (l : RegularCallbackList U) :
    cleanUpCallbackCells cells (cleanUpCallbackCells cells l) = cleanUpCallbackCells cells l := by
  induction l with
  | empty => rfl
  | implicitlyRemoved node => rfl
  | explicitlyRemovable c =>
    by_cases hlive : isLive cells c = true
    · simp [cleanUpCallbackCells, hlive]
    · simp [cleanUpCallbackCells, hlive]
  | concat l1 l2 ih1 ih2 =>
    rw [cleanUpCallbackCells]
    generalize cleanUpCallbackCells cells l1 = l1' at ih1
    generalize cleanUpCallbackCells cells l2 = l2' at ih2
    unfold concatRegularCallbacks
    split
    · exact ih2
    · exact ih1
    · rw [cleanUpCallbackCells, ih1, ih2]
      simp_all [concatRegularCallbacks]

/-- The number of callbacks in a list. -/
def RegularCallbackList.size (l : RegularCallbackList U) : ℕ := l.nodes.card + l.cells.card

/-- A list without empty parts. -/
def RegularCallbackList.Tight : RegularCallbackList U → Prop
  | .concat l r => 1 ≤ l.size ∧ 1 ≤ r.size
  | _ => True

theorem RegularCallbackList.Tight.one_le_size {l : RegularCallbackList U} (ht : l.Tight)
    (hne : l ≠ .empty) : 1 ≤ l.size := by
  cases l with
  | empty => exact absurd rfl hne
  | implicitlyRemoved node => simp [size, nodes, RegularCallbackList.cells]
  | explicitlyRemovable c => simp [size, nodes, RegularCallbackList.cells]
  | concat l r =>
    obtain ⟨hl, -⟩ := ht
    simp only [size, nodes, RegularCallbackList.cells, Multiset.card_add] at hl ⊢
    omega

/-- A list without empty parts is single if it holds one callback, a removable one. -/
theorem RegularCallbackList.Tight.isSingle_iff {l : RegularCallbackList U} (ht : l.Tight) :
    l.isSingle = true ↔ l.nodes.card = 0 ∧ l.cells.card = 1 := by
  cases l with
  | empty => simp [isSingle, RegularCallbackList.cells]
  | implicitlyRemoved node => simp [isSingle, nodes]
  | explicitlyRemovable c => simp [isSingle, nodes, RegularCallbackList.cells]
  | concat l r =>
    obtain ⟨hl, hr⟩ := ht
    simp only [size] at hl hr
    simp only [isSingle, nodes, RegularCallbackList.cells, Multiset.card_add,
      Bool.false_eq_true, false_iff]
    omega

theorem tight_cleanUpCallbackCells (cells : List Cell) (l : RegularCallbackList U) :
    (cleanUpCallbackCells cells l).Tight := by
  induction l with
  | empty => trivial
  | implicitlyRemoved node => trivial
  | explicitlyRemovable c =>
    rw [cleanUpCallbackCells]
    split <;> trivial
  | concat l1 l2 ih1 ih2 =>
    rw [cleanUpCallbackCells]
    unfold concatRegularCallbacks
    split
    · exact ih2
    · exact ih1
    · rename_i hne1 hne2
      exact ⟨ih1.one_le_size hne1, ih2.one_le_size hne2⟩

theorem deferOrCleanUp_of_isSingle {c : ℕ}
    (hsingle : callbacks.regularCallbacks = .explicitlyRemovable c) :
    deferOrCleanUp cells callbacks = { callbacks with regularCallbacks := .empty } := by
  simp [deferOrCleanUp, hsingle]

theorem deferOrCleanUp_of_not_isSingle
    (hsingle : callbacks.regularCallbacks.isSingle = false) :
    deferOrCleanUp cells callbacks =
      if cleanupThrottle < callbacks.cleanupsDeferred + 1 then
        { callbacks with
          cleanupsDeferred := 0
          regularCallbacks := cleanUpCallbackCells cells callbacks.regularCallbacks }
      else { callbacks with cleanupsDeferred := callbacks.cleanupsDeferred + 1 } := by
  unfold deferOrCleanUp
  split
  · simp_all [RegularCallbackList.isSingle]
  · rfl

theorem exists_of_isSingle {l : RegularCallbackList U} (hsingle : l.isSingle = true) :
    ∃ c, l = .explicitlyRemovable c := by
  cases l with
  | explicitlyRemovable c => exact ⟨c, rfl⟩
  | _ => simp [RegularCallbackList.isSingle] at hsingle

/-- Visits keep the live cells. -/
theorem count_visits {j k : ℕ} (hj : isLive cells j = true)
    (hdead : 1 ≤ k → ∀ c, callbacks.regularCallbacks = .explicitlyRemovable c →
      isLive cells c = false)
    (hspares : Spares cells k callbacks) :
    ((deferOrCleanUp cells)^[k] callbacks).regularCallbacks.cells.count j =
      callbacks.regularCallbacks.cells.count j := by
  induction k generalizing callbacks with
  | zero => rfl
  | succ k ih =>
    rw [Function.iterate_succ_apply]
    -- a single callback is dropped with its cell, which is not the live one
    by_cases hsingle : callbacks.regularCallbacks.isSingle = true
    · obtain ⟨c, hc⟩ := exists_of_isSingle hsingle
      have hne : j ≠ c := by
        rintro rfl
        simp [hdead (by omega) j hc] at hj
      rw [deferOrCleanUp_of_isSingle hc, ih]
      · simp [hc, RegularCallbackList.cells, hne]
      · intro _ c' hc'
        simp at hc'
      · intro _
        rfl
    · have hsingle' : callbacks.regularCallbacks.isSingle = false := by simpa using hsingle
      have hnever : ∀ c, callbacks.regularCallbacks ≠ .explicitlyRemovable c := by
        rintro c hc
        simp [hc, RegularCallbackList.isSingle] at hsingle'
      rw [deferOrCleanUp_of_not_isSingle hsingle']
      split
      · -- The list is scanned now; if there are visits left, what remains is not single.
        rename_i hthrottle
        have hcleaned : 1 ≤ k →
            (cleanUpCallbackCells cells callbacks.regularCallbacks).isSingle = false := by
          intro hk
          refine hspares ?_
          simp only [visitsToCleanUp, cleanupThrottle] at hthrottle ⊢
          omega
        rw [ih]
        · simp [Multiset.count_filter_of_pos, hj]
        · intro hk c hc
          have hc' : cleanUpCallbackCells cells callbacks.regularCallbacks =
              .explicitlyRemovable c := hc
          simp [hc', RegularCallbackList.isSingle] at hcleaned
          omega
        · intro hlt
          simp only [cleanUpCallbackCells_idem]
          refine hcleaned ?_
          simp only [visitsToCleanUp] at hlt
          omega
      · rename_i hthrottle
        rw [ih]
        · exact fun _ c hc => absurd hc (hnever c)
        · intro hlt
          refine hspares ?_
          simp only [visitsToCleanUp, cleanupThrottle] at hthrottle hlt ⊢
          omega

theorem visits_empty (k : ℕ) (hempty : callbacks.regularCallbacks = .empty) :
    ((deferOrCleanUp cells)^[k] callbacks).regularCallbacks = .empty := by
  induction k generalizing callbacks with
  | zero => exact hempty
  | succ k ih =>
    rw [Function.iterate_succ_apply]
    refine ih ?_
    rw [deferOrCleanUp_of_not_isSingle (by simp [hempty, RegularCallbackList.isSingle])]
    split
    · simp [hempty, cleanUpCallbackCells]
    · exact hempty

theorem visits_lose {k : ℕ} (hspares : ¬ Spares cells k callbacks) :
    ((deferOrCleanUp cells)^[k] callbacks).regularCallbacks = .empty := by
  simp only [Spares, Classical.not_imp, Bool.not_eq_false] at hspares
  obtain ⟨hlt, hlost⟩ := hspares
  induction k generalizing callbacks with
  | zero => simp at hlt
  | succ k ih =>
    rw [Function.iterate_succ_apply]
    by_cases hsingle : callbacks.regularCallbacks.isSingle = true
    · obtain ⟨c, hc⟩ := exists_of_isSingle hsingle
      rw [deferOrCleanUp_of_isSingle hc]
      exact visits_empty k rfl
    · rw [deferOrCleanUp_of_not_isSingle (by simpa using hsingle)]
      split
      · -- The next visit finds the list single and empties it.
        rename_i hthrottle
        obtain ⟨n, rfl⟩ : ∃ n, k = n + 1 := by
          refine ⟨k - 1, ?_⟩
          simp only [visitsToCleanUp, cleanupThrottle] at hthrottle hlt
          omega
        obtain ⟨c, hc⟩ := exists_of_isSingle hlost
        rw [Function.iterate_succ_apply, deferOrCleanUp_of_isSingle hc]
        exact visits_empty n rfl
      · rename_i hthrottle
        refine ih ?_ hlost
        simp only [visitsToCleanUp, cleanupThrottle] at hthrottle hlt ⊢
        omega

theorem nodes_visits (k : ℕ) :
    ((deferOrCleanUp cells)^[k] callbacks).nodes = callbacks.nodes := by
  induction k generalizing callbacks with
  | zero => rfl
  | succ k ih =>
    rw [Function.iterate_succ_apply, ih]
    exact nodes_deferOrCleanUp cells callbacks

end Visits

/-! ## Visits to a heap -/

namespace Heap

variable {h : Heap U} {u : Pid}

/-- How often a list of promises names the underlying promise `u`. -/
def occurrences (h : Heap U) (ps : List Pid) (u : Pid) : ℕ := ps.countP fun p => h.root p = u

/-- The function is applied to the record of the underlying promise of each promise of the
list. -/
def modifyEach (f : Callbacks U → Callbacks U) (h : Heap U) (ps : List Pid) : Heap U :=
  ps.foldl (fun h p => (h.compress p).modifyPending (h.root p) f) h

theorem addCellToEach_eq_modifyEach {c : ℕ} {h' : Heap U} {ps : List Pid} (hwf : h.WellFormed)
    (hadd : addCellToEach c h ps = some h') :
    h' = h.modifyEach (addRegularCallbackListNode (.explicitlyRemovable c)) ps := by
  induction ps generalizing h with
  | nil =>
    obtain rfl : h = h' := by simpa [addCellToEach] using hadd
    rfl
  | cons p ps ih =>
    obtain ⟨callbacks, -, hget, hone, hrest⟩ := addCellToEach_cons hwf hadd
    rw [ih (hone.wellFormed hwf) hrest]
    simp [modifyEach, modifyPending, hget]

theorem modifyPending_wellFormed {f : Callbacks U → Callbacks U} (hwf : h.WellFormed) :
    (h.modifyPending u f).WellFormed ∧ ∀ p, (h.modifyPending u f).root p = h.root p := by
  unfold modifyPending
  split
  · rename_i callbacks hcb
    exact ⟨wellFormed_set hwf hcb trivial trivial, root_set hwf hcb trivial trivial⟩
  · exact ⟨hwf, fun _ => rfl⟩

/-- The record of `u` is changed once for each occurrence. -/
theorem getElem?_modifyEach {f : Callbacks U → Callbacks U} {callbacks : Callbacks U}
    (hwf : h.WellFormed) (ps : List Pid) (hu : h[u]? = some (.pending callbacks)) :
    (h.modifyEach f ps)[u]? = some (.pending (f^[h.occurrences ps u] callbacks)) := by
  induction ps generalizing h callbacks with
  | nil => exact hu
  | cons p ps ih =>
    have hcomp := compressed_compress hwf p
    have hroot : h.root u = u := root_of_getElem? hwf hu trivial
    have hu' : (h.compress p)[u]? = some (.pending callbacks) := by
      rw [← hroot, hcomp.getElem?_root hwf, hroot]
      exact hu
    obtain ⟨hwf', hroots⟩ := modifyPending_wellFormed (u := h.root p) (f := f)
      (hcomp.wellFormed hwf)
    have hocc : ((h.compress p).modifyPending (h.root p) f).occurrences ps u =
        h.occurrences ps u := by
      simp only [occurrences, hroots, hcomp.root_eq hwf]
    by_cases hp : h.root p = u
    · have hget : ((h.compress p).modifyPending (h.root p) f)[u]? =
          some (.pending (f callbacks)) := by
        simp only [modifyPending, hp, hu']
        exact List.getElem?_set_self (lt_length_of_getElem? hu')
      have hstep := ih hwf' hget
      rw [hocc, ← Function.iterate_succ_apply] at hstep
      simpa [modifyEach, occurrences, hp] using hstep
    · have hget : ((h.compress p).modifyPending (h.root p) f)[u]? =
          some (.pending callbacks) := by
        unfold modifyPending
        split
        · rw [List.getElem?_set_ne hp]
          exact hu'
        · exact hu'
      have hstep := ih hwf' hget
      rw [hocc] at hstep
      simpa [modifyEach, occurrences, hp] using hstep

end Heap

end Lwt
