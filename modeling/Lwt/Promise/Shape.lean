import Lwt.Promise.PendingCallbacks
import Mathlib.Algebra.BigOperators.Group.Multiset.Basic
import Mathlib.Data.Multiset.Filter

/-!
# What the operations on callback lists preserve

Two views of the heap.  `State.shape` forgets the callback lists of pending promises;
`Similar` heaps have the same promises, roots and shapes, and everything but creating,
resolving and linking promises keeps the heap similar.  `nodes`, `cells` and `removals`
are the contents of the callback lists, as multisets; clean-ups and merges keep the
implicitly removed callbacks and the cells that are still live.
-/

namespace Lwt

open Forest

variable {U : Type}

/-! ## Shapes -/

/-- A promise without its callback lists. -/
inductive Shape (U : Type)
  | resolved (r : Result U)
  | pending (how : HowToCancel)
  | proxy

def State.shape : State U → Shape U
  | .resolved r => .resolved r
  | .pending callbacks => .pending callbacks.howToCancel
  | .proxy _ => .proxy

namespace Heap

variable {h h' h'' : Heap U} {p q u : Pid}

def IsPending (h : Heap U) (u : Pid) : Prop :=
  ∃ callbacks, h[u]? = some (.pending callbacks)

def IsResolved (h : Heap U) (u : Pid) (r : Result U) : Prop :=
  h[u]? = some (.resolved r)

/-- `h'` has the promises of `h`, with the same underlying promises in the same states up
to their callback lists. -/
structure Similar (h h' : Heap U) : Prop where
  length_eq : h'.length = h.length
  shape_eq : ∀ x, h.parent x = none → h'[x]?.map State.shape = h[x]?.map State.shape
  root : ∀ x u, Root h.parent x u → Root h'.parent x u
  parent_lt : (∀ p q, h.parent p = some q → q < h.length) →
    ∀ p q, h'.parent p = some q → q < h'.length

theorem Compressed.similar (hc : Compressed h h') : Similar h h' :=
  ⟨hc.length_eq, fun x hx => by rw [hc.getElem?_eq x hx], hc.root, hc.parent_lt⟩

theorem Similar.refl (h : Heap U) : Similar h h := (Compressed.refl h).similar

theorem Similar.parent_eq_none (hs : Similar h h') (hx : h.parent p = none) :
    h'.parent p = none :=
  (hs.root p p (.here hx)).parent_eq_none

theorem Similar.trans (hs : Similar h h') (hs' : Similar h' h'') : Similar h h'' where
  length_eq := hs'.length_eq.trans hs.length_eq
  shape_eq x hx := (hs'.shape_eq x (hs.parent_eq_none hx)).trans (hs.shape_eq x hx)
  root x u hx := hs'.root x u (hs.root x u hx)
  parent_lt hlt := hs'.parent_lt (hs.parent_lt hlt)

theorem Similar.wellFormed (hs : Similar h h') (hwf : h.WellFormed) : h'.WellFormed :=
  ⟨fun p => (hwf.exists_root p).imp fun u hu => hs.root p u hu, hs.parent_lt hwf.parent_lt⟩

theorem Similar.root_eq (hs : Similar h h') (hwf : h.WellFormed) (p : Pid) :
    h'.root p = h.root p :=
  root_eq_of_root (hs.wellFormed hwf) (hs.root p _ (root_spec hwf p))

theorem Similar.shape_root (hs : Similar h h') (hwf : h.WellFormed) (p : Pid) :
    h'[h.root p]?.map State.shape = h[h.root p]?.map State.shape :=
  hs.shape_eq _ (parent_root hwf p)

theorem shape_eq_pending {how : HowToCancel} :
    h[u]?.map State.shape = some (.pending how) ↔
      ∃ callbacks, h[u]? = some (.pending callbacks) ∧ callbacks.howToCancel = how := by
  cases h[u]? with
  | none => simp
  | some s => cases s <;> simp [State.shape]

theorem shape_eq_resolved {r : Result U} :
    h[u]?.map State.shape = some (.resolved r) ↔ h.IsResolved u r := by
  unfold IsResolved
  cases h[u]? with
  | none => simp
  | some s => cases s <;> simp [State.shape]

theorem Similar.isPending (hs : Similar h h') (hu : h.IsPending u) : h'.IsPending u := by
  obtain ⟨callbacks, hcb⟩ := hu
  have hshape := hs.shape_eq u (parent_eq_none_of_getElem? hcb trivial)
  obtain ⟨callbacks', hcb', _⟩ := shape_eq_pending.mp
    (hshape.trans (shape_eq_pending.mpr ⟨callbacks, hcb, rfl⟩))
  exact ⟨callbacks', hcb'⟩

theorem Similar.isResolved {r : Result U} (hs : Similar h h') (hu : h.IsResolved u r) :
    h'.IsResolved u r := by
  have hshape := hs.shape_eq u (parent_eq_none_of_getElem? hu trivial)
  exact shape_eq_resolved.mp (hshape.trans (shape_eq_resolved.mpr hu))

theorem Similar.isPending_root_iff (hs : Similar h h') (hwf : h.WellFormed) (p : Pid) :
    h'.IsPending (h.root p) ↔ h.IsPending (h.root p) := by
  refine ⟨fun hp => ?_, hs.isPending⟩
  obtain ⟨callbacks, hcb⟩ := hp
  have hshape := hs.shape_root hwf p
  rw [shape_eq_pending.mpr ⟨callbacks, hcb, rfl⟩] at hshape
  obtain ⟨callbacks', hcb', _⟩ := shape_eq_pending.mp hshape.symm
  exact ⟨callbacks', hcb'⟩

theorem Similar.isPending_own_root_iff (hs : Similar h h') (hwf : h.WellFormed) (p : Pid) :
    h'.IsPending (h'.root p) ↔ h.IsPending (h.root p) := by
  rw [hs.root_eq hwf]
  exact hs.isPending_root_iff hwf p

/-- The record of a pending promise changes, but not how to cancel it. -/
theorem similar_set_pending {callbacks callbacks' : Callbacks U}
    (hu : h[u]? = some (.pending callbacks))
    (hhow : callbacks'.howToCancel = callbacks.howToCancel) :
    Similar h (h.set u (.pending callbacks')) := by
  have hpar : Heap.parent (h.set u (.pending callbacks')) = h.parent :=
    parent_set_underlying hu trivial trivial
  refine ⟨by simp, fun x _ => ?_, fun x v hx => by rwa [hpar], fun hlt => ?_⟩
  · by_cases hx : u = x
    · subst hx
      rw [List.getElem?_set_self (lt_length_of_getElem? hu), hu]
      simp [State.shape, hhow]
    · rw [List.getElem?_set_ne hx]
  · rw [hpar]
    simpa using hlt

theorem similar_modifyPending {f : Callbacks U → Callbacks U}
    (hf : ∀ callbacks, (f callbacks).howToCancel = callbacks.howToCancel) :
    Similar h (h.modifyPending u f) := by
  unfold modifyPending
  split
  · rename_i callbacks hcb
    exact similar_set_pending hcb (hf callbacks)
  · exact .refl h

end Heap

/-! ## Contents of the callback lists -/

namespace RegularCallbackList

/-- The implicitly removed callbacks of a list. -/
def nodes : RegularCallbackList U → Multiset (Node U)
  | empty => 0
  | concat l r => l.nodes + r.nodes
  | implicitlyRemoved node => {node}
  | explicitlyRemovable _ => 0

/-- The cells of a list. -/
def cells : RegularCallbackList U → Multiset ℕ
  | empty => 0
  | concat l r => l.cells + r.cells
  | implicitlyRemoved _ => 0
  | explicitlyRemovable c => {c}

end RegularCallbackList

/-- The cells that a list of cancel callbacks removes. -/
def CancelCallbackList.removals : CancelCallbackList U → Multiset ℕ
  | empty => 0
  | concat l r => l.removals + r.removals
  | callback _ _ (.removeTheCallback c) => {c}
  | callback _ _ (.user _) => 0
  | removeSequenceNode _ _ => 0

section Lists

variable (cells : List Cell) (l1 l2 : RegularCallbackList U)

@[simp] theorem nodes_concatRegularCallbacks :
    (concatRegularCallbacks l1 l2).nodes = l1.nodes + l2.nodes := by
  cases l1 <;> cases l2 <;> simp [concatRegularCallbacks, RegularCallbackList.nodes]

@[simp] theorem cells_concatRegularCallbacks :
    (concatRegularCallbacks l1 l2).cells = l1.cells + l2.cells := by
  cases l1 <;> cases l2 <;> simp [concatRegularCallbacks, RegularCallbackList.cells]

@[simp] theorem removals_concatCancelCallbacks (l1 l2 : CancelCallbackList U) :
    (concatCancelCallbacks l1 l2).removals = l1.removals + l2.removals := by
  cases l1 <;> cases l2 <;> simp [concatCancelCallbacks, CancelCallbackList.removals]

@[simp] theorem nodes_cleanUpCallbackCells (l : RegularCallbackList U) :
    (cleanUpCallbackCells cells l).nodes = l.nodes := by
  induction l with
  | empty => rfl
  | concat l r ihl ihr => simp [cleanUpCallbackCells, RegularCallbackList.nodes, ihl, ihr]
  | implicitlyRemoved node => rfl
  | explicitlyRemovable c =>
    unfold cleanUpCallbackCells
    split <;> rfl

@[simp] theorem cells_cleanUpCallbackCells (l : RegularCallbackList U) :
    (cleanUpCallbackCells cells l).cells = l.cells.filter fun c => isLive cells c := by
  induction l with
  | empty => rfl
  | concat l r ihl ihr => simp [cleanUpCallbackCells, RegularCallbackList.cells, ihl, ihr]
  | implicitlyRemoved node => rfl
  | explicitlyRemovable c =>
    unfold cleanUpCallbackCells
    split <;> simp_all [RegularCallbackList.cells, Multiset.filter_singleton]

end Lists

section Records

variable (cells : List Cell) (callbacks : Callbacks U)

@[simp] theorem nodes_deferOrCleanUp :
    (deferOrCleanUp cells callbacks).regularCallbacks.nodes = callbacks.regularCallbacks.nodes := by
  unfold deferOrCleanUp
  split
  · simp_all [RegularCallbackList.nodes]
  · split <;> simp

theorem cells_deferOrCleanUp_le :
    (deferOrCleanUp cells callbacks).regularCallbacks.cells ≤ callbacks.regularCallbacks.cells := by
  unfold deferOrCleanUp
  split
  · exact Multiset.zero_le _
  · split
    · rw [cells_cleanUpCallbackCells]
      exact Multiset.filter_le _ _
    · exact le_refl _

@[simp] theorem howToCancel_deferOrCleanUp :
    (deferOrCleanUp cells callbacks).howToCancel = callbacks.howToCancel := by
  unfold deferOrCleanUp
  split
  · rfl
  · split <;> rfl

@[simp] theorem cancelCallbacks_deferOrCleanUp :
    (deferOrCleanUp cells callbacks).cancelCallbacks = callbacks.cancelCallbacks := by
  unfold deferOrCleanUp
  split
  · rfl
  · split <;> rfl

@[simp] theorem nodes_addRegularCallbackListNode (node : RegularCallbackList U) :
    (addRegularCallbackListNode node callbacks).regularCallbacks.nodes =
      node.nodes + callbacks.regularCallbacks.nodes := by
  unfold addRegularCallbackListNode
  cases callbacks.regularCallbacks <;> simp [RegularCallbackList.nodes]

@[simp] theorem cells_addRegularCallbackListNode (node : RegularCallbackList U) :
    (addRegularCallbackListNode node callbacks).regularCallbacks.cells =
      node.cells + callbacks.regularCallbacks.cells := by
  unfold addRegularCallbackListNode
  cases callbacks.regularCallbacks <;> simp [RegularCallbackList.cells]

@[simp] theorem nodes_mergeCallbacks (from' into : Callbacks U) :
    (mergeCallbacks cells from' into).regularCallbacks.nodes =
      into.regularCallbacks.nodes + from'.regularCallbacks.nodes := by
  unfold mergeCallbacks
  dsimp only
  split <;> simp

@[simp] theorem removals_mergeCallbacks (from' into : Callbacks U) :
    (mergeCallbacks cells from' into).cancelCallbacks.removals =
      into.cancelCallbacks.removals + from'.cancelCallbacks.removals := by
  simp [mergeCallbacks]

@[simp] theorem removals_addCancelCallback (mark : Mark) (storage : Storage U)
    (f : CancelCallback U) :
    (addCancelCallback mark storage f callbacks).cancelCallbacks.removals =
      (CancelCallbackList.callback mark storage f).removals +
      callbacks.cancelCallbacks.removals := by
  unfold addCancelCallback
  cases callbacks.cancelCallbacks <;> simp [CancelCallbackList.removals]

end Records

namespace Heap

variable {h h' : Heap U}

theorem similar_visitEach (cells : List Cell) (hwf : h.WellFormed) (ps : List Pid) :
    Similar h (visitEach cells h ps) := by
  unfold visitEach
  induction ps generalizing h with
  | nil => exact .refl h
  | cons p ps ih =>
    have hone : Similar h ((h.compress p).modifyPending (h.root p) (deferOrCleanUp cells)) :=
      (compressed_compress hwf p).similar.trans
        (similar_modifyPending fun callbacks => howToCancel_deferOrCleanUp cells callbacks)
    exact hone.trans (ih (hone.wellFormed hwf))

/-- What `add_cell_to_each` does for the first promise of a list. -/
theorem addCellToEach_cons {c : ℕ} {p : Pid} {ps : List Pid} (hwf : h.WellFormed)
    (hadd : addCellToEach c h (p :: ps) = some h') :
    ∃ callbacks, h[h.root p]? = some (.pending callbacks) ∧
      (h.compress p)[h.root p]? = some (.pending callbacks) ∧
      Similar h ((h.compress p).set (h.root p)
        (.pending (addRegularCallbackListNode (.explicitlyRemovable c) callbacks))) ∧
      addCellToEach c ((h.compress p).set (h.root p)
        (.pending (addRegularCallbackListNode (.explicitlyRemovable c) callbacks))) ps =
        some h' := by
  rw [addCellToEach] at hadd
  split at hadd
  · rename_i callbacks hcb
    have hcomp := compressed_compress hwf p
    have hget := (hcomp.getElem?_root hwf p).trans hcb
    exact ⟨callbacks, hcb, hget, hcomp.similar.trans (similar_set_pending hget rfl), hadd⟩
  · simp at hadd

theorem similar_addCellToEach {c : ℕ} (hwf : h.WellFormed) {ps : List Pid}
    (hadd : addCellToEach c h ps = some h') : Similar h h' := by
  induction ps generalizing h with
  | nil =>
    obtain rfl : h = h' := by simpa [addCellToEach] using hadd
    exact .refl h
  | cons p ps ih =>
    obtain ⟨callbacks, -, -, hone, hrest⟩ := addCellToEach_cons hwf hadd
    exact hone.trans (ih (hone.wellFormed hwf) hrest)

end Heap

end Lwt
