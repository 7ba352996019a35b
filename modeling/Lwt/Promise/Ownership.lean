import Lwt.Promise.Contents
import Mathlib.Data.Multiset.Bind

/-!
# Every promise has at most one owner

The promises that the library has to resolve itself are owned: by the callback of a
combinator that is attached to another promise, by a function that is on its way to
resolve them, by a call of `join`, by the cell of a `choose`.  These owners are
*internal*.  The promises of resolvers and of `protected` have an *initial* owner.

`Owned` says that no two owners share an underlying promise, and that the underlying
promise of an internal owner is pending and cannot be canceled itself.  It is this that
the casts of `may_now_be_proxy` rely on.  What an act does to the owners is one of the
few cases of `Transfer`, and each of them preserves `Owned`.
-/

namespace Lwt

open Heap Table Multiset

variable {U : Type} {g : Guard U} {s s' : Store U}

/-! ## Owners -/

def Callback.targets : Callback U → Multiset Pid
  | .compose target _ _ _ => {target}
  | _ => 0

def Work.owed : Work U → Multiset Pid
  | .owe target _ => {target}
  | .oweExact p _ => {p}
  | _ => 0

def Join.owed (join : Join U) : Multiset Pid :=
  if join.live then {join.target} else 0

/-- The promise of a live cell, unless it is that of a `protected`. -/
def Cell.internal (cell : Cell) : Multiset Pid :=
  if cell.live ∧ cell.kind ≠ .protection then {cell.target} else 0

/-- The promise of the live cell of a `protected`. -/
def Cell.protects (cell : Cell) : Multiset Pid :=
  if cell.live ∧ cell.kind = .protection then {cell.target} else 0

section Simp

variable (target p : Pid) (storage : Storage U) (F R : Compose U) (F' R' : Observe U) (j : ℕ)
  (callbacks : Callbacks U) (l : RegularCallbackList U) (l' : CancelCallbackList U) (r : Result U)
  (promised : Option (Result U))

@[simp] theorem targets_compose : (Callback.compose target storage F R).targets = {target} := rfl
@[simp] theorem targets_observe : (Callback.observe storage F' R').targets = 0 := rfl
@[simp] theorem targets_join : (Callback.join j : Callback U).targets = 0 := rfl
@[simp] theorem owed_record : (Work.record p callbacks r).owed = 0 := rfl
@[simp] theorem owed_regular : (Work.regular l r).owed = 0 := rfl
@[simp] theorem owed_cancels : (Work.cancels l').owed = 0 := rfl
@[simp] theorem owed_owe : (Work.owe target promised).owed = {target} := rfl
@[simp] theorem owed_oweExact : (Work.oweExact p r).owed = {p} := rfl

end Simp

namespace Store

/-- The promises with an internal owner, one entry for each owner. -/
def internal (s : Store U) : Multiset Pid :=
  s.nodes.bind (fun node => node.callback.targets) + (s.work.map Work.owed).sum +
    total Join.owed s.joins + total Cell.internal s.cells

/-- The promises of the calls of `protected` that have not been called back. -/
def protects (s : Store U) : Multiset Pid := total Cell.protects s.cells

/-- The promises with an initial owner. -/
def initials (s : Store U) : Multiset Pid := s.protects + s.resolvers

end Store

/-- In the heap `h`, no two owners share an underlying promise, and those of the
`internal` owners are pending and not cancelable themselves. -/
structure OwnedIn (h : Heap U) (internal initials : Multiset Pid) : Prop where
  lt : ∀ t ∈ internal + initials, t < h.length
  nodup : ((internal + initials).map h.root).Nodup
  pending : ∀ t ∈ internal, ∃ callbacks, h[h.root t]? = some (.pending callbacks) ∧
    callbacks.howToCancel ≠ .cancelThisPromise

/-- The promises of a store are owned. -/
abbrev Owned (s : Store U) : Prop := OwnedIn s.heap s.internal s.initials

/-- The promise of a `protected` that has not been called back is pending, or canceled. -/
def Shielded (s : Store U) : Prop :=
  ∀ t ∈ s.protects, s.heap.IsPending (s.heap.root t) ∨
    s.heap.IsResolved (s.heap.root t) (.rejected .canceled)

/-- What an act does to the owners. -/
inductive Transfer (s s' : Store U) : Prop
  | keep : Similar s.heap s'.heap → s'.internal ≤ s.internal → s'.protects ≤ s.protects →
      s'.resolvers = s.resolvers → Transfer s s'
  | alloc {x : State U} : x.IsUnderlying → Similar (s.heap ++ [x]) s'.heap →
      s'.internal ≤ s.internal → s'.protects ≤ s.protects → s'.resolvers = s.resolvers →
      Transfer s s'
  | rename {t : Pid} {rest : Multiset Pid} : Similar s.heap s'.heap → s.internal = t ::ₘ rest →
      s'.internal = s.heap.root t ::ₘ rest → s'.protects = s.protects →
      s'.resolvers = s.resolvers → Transfer s s'
  | allocInternal {how : HowToCancel} : how ≠ .cancelThisPromise →
      Similar (s.heap ++ [newPending how]) s'.heap → s'.internal = s.heap.length ::ₘ s.internal →
      s'.protects = s.protects → s'.resolvers = s.resolvers → Transfer s s'
  | allocResolver {x : State U} : x.IsUnderlying → Similar (s.heap ++ [x]) s'.heap →
      s'.internal = s.internal → s'.protects = s.protects →
      s'.resolvers = s.heap.length :: s.resolvers → Transfer s s'
  | allocProtection {how : HowToCancel} : Similar (s.heap ++ [newPending how]) s'.heap →
      s'.internal = s.internal → s'.protects = s.heap.length ::ₘ s.protects →
      s'.resolvers = s.resolvers → Transfer s s'
  | pay {t : Pid} {callbacks : Callbacks U} {r : Result U} :
      s.heap[s.heap.root t]? = some (.pending callbacks) →
      s'.heap = s.heap.set (s.heap.root t) (.resolved r) → s.internal = t ::ₘ s'.internal →
      s'.protects = s.protects → s'.resolvers = s.resolvers → Transfer s s'
  | wake {t : Pid} {callbacks : Callbacks U} {r : Result U} : t ∈ s.resolvers →
      s.heap[s.heap.root t]? = some (.pending callbacks) →
      s'.heap = s.heap.set (s.heap.root t) (.resolved r) → s'.internal = s.internal →
      s'.protects = s.protects → s'.resolvers = s.resolvers → Transfer s s'
  | unprotect {t : Pid} {h : Heap U} {callbacks : Callbacks U} {r : Result U} :
      Similar s.heap h → h[s.heap.root t]? = some (.pending callbacks) →
      s'.heap = h.set (s.heap.root t) (.resolved r) → s'.internal = s.internal →
      s.protects = t ::ₘ s'.protects → s'.resolvers = s.resolvers → Transfer s s'
  | cancel {u : Pid} {callbacks : Callbacks U} :
      s.heap[u]? = some (.pending callbacks) → callbacks.howToCancel = .cancelThisPromise →
      s'.heap = s.heap.set u (.resolved (.rejected .canceled)) → s'.internal = s.internal →
      s'.protects = s.protects → s'.resolvers = s.resolvers → Transfer s s'
  | link {t inner : Pid} {h : Heap U} {callbacks outerCallbacks : Callbacks U}
      (merged : Callbacks U) :
      Compressed s.heap h → inner ≠ s.heap.root t → h[inner]? = some (.pending callbacks) →
      h[s.heap.root t]? = some (.pending outerCallbacks) →
      merged.howToCancel = callbacks.howToCancel →
      s'.heap = (h.set (s.heap.root t) (.pending merged)).set inner (.proxy (s.heap.root t)) →
      s.internal = t ::ₘ s'.internal → s'.protects = s.protects →
      s'.resolvers = s.resolvers → Transfer s s'

/-! ## Transfers keep promises owned -/

namespace OwnedIn

variable {h h' h₁ : Heap U} {internal internal' initials initials' : Multiset Pid} {t u x : Pid}

/-- A promise with an internal owner has no other owner. -/
theorem root_ne (ho : OwnedIn h (t ::ₘ internal) initials) (hx : x ∈ internal + initials) :
    h.root x ≠ h.root t := by
  have hnodup := ho.nodup
  rw [cons_add, map_cons, nodup_cons] at hnodup
  intro heq
  exact hnodup.1 (heq ▸ mem_map_of_mem _ hx)

theorem root_ne_of_initial (ho : OwnedIn h internal initials) (ht : t ∈ initials)
    (hx : x ∈ internal) : h.root x ≠ h.root t := by
  obtain ⟨rest, rfl⟩ := exists_cons_of_mem hx
  exact (ho.root_ne (mem_add.mpr (.inr ht))).symm

theorem of_le (ho : OwnedIn h internal initials) (hint : internal' ≤ internal)
    (hini : initials' ≤ initials) : OwnedIn h internal' initials' where
  lt t ht := ho.lt t (mem_of_le (add_le_add hint hini) ht)
  nodup := nodup_of_le (map_le_map (add_le_add hint hini)) ho.nodup
  pending t ht := ho.pending t (mem_of_le hint ht)

theorem of_similar (hwf : h.WellFormed) (ho : OwnedIn h internal initials) (hs : Similar h h') :
    OwnedIn h' internal initials where
  lt t ht := by
    rw [hs.length_eq]
    exact ho.lt t ht
  nodup := by
    rw [Multiset.map_congr rfl fun t _ => hs.root_eq hwf t]
    exact ho.nodup
  pending t ht := by
    obtain ⟨callbacks, hcb, hhow⟩ := ho.pending t ht
    have hshape := hs.shape_root hwf t
    rw [shape_eq_pending.mpr ⟨callbacks, hcb, rfl⟩] at hshape
    obtain ⟨callbacks', hcb', hhow'⟩ := shape_eq_pending.mp hshape
    exact ⟨callbacks', by rw [hs.root_eq hwf, hcb'], hhow' ▸ hhow⟩

theorem rename (hwf : h.WellFormed) (ho : OwnedIn h (t ::ₘ internal) initials) :
    OwnedIn h (h.root t ::ₘ internal) initials where
  lt x hx := by
    rw [cons_add] at hx
    rcases mem_cons.mp hx with rfl | hx
    · exact root_lt_length hwf (ho.lt t (by simp))
    · exact ho.lt x (by rw [cons_add]; exact mem_cons_of_mem hx)
  nodup := by
    have hnodup := ho.nodup
    rw [cons_add, map_cons] at hnodup ⊢
    rwa [root_root hwf]
  pending x hx := by
    rcases mem_cons.mp hx with rfl | hx
    · rw [root_root hwf]
      exact ho.pending t (mem_cons_self t internal)
    · exact ho.pending x (mem_cons_of_mem hx)

theorem append {s : State U} (hwf : h.WellFormed) (ho : OwnedIn h internal initials)
    (hs : s.IsUnderlying) : OwnedIn (h ++ [s]) internal initials where
  lt t ht := by
    rw [List.length_append, List.length_singleton]
    exact Nat.lt_succ_of_lt (ho.lt t ht)
  nodup := by
    rw [Multiset.map_congr rfl fun t _ => root_append hwf hs t]
    exact ho.nodup
  pending t ht := by
    obtain ⟨callbacks, hcb, hhow⟩ := ho.pending t ht
    refine ⟨callbacks, ?_, hhow⟩
    rw [root_append hwf hs, List.getElem?_append_left (lt_length_of_getElem? hcb), hcb]

theorem nodup_cons_length {s : State U} (hwf : h.WellFormed) (ho : OwnedIn h internal initials)
    (hs : s.IsUnderlying) :
    ((h.length ::ₘ (internal + initials)).map (Heap.root (h ++ [s]))).Nodup := by
  rw [map_cons, nodup_cons]
  refine ⟨fun hmem => ?_, (ho.append hwf hs).nodup⟩
  obtain ⟨t, ht, heq⟩ := mem_map.mp hmem
  rw [root_append hwf hs, root_append hwf hs, root_length hwf] at heq
  exact absurd heq (Nat.ne_of_lt (root_lt_length hwf (ho.lt t ht)))

theorem append_internal {how : HowToCancel} (hwf : h.WellFormed)
    (ho : OwnedIn h internal initials) (hhow : how ≠ .cancelThisPromise) :
    OwnedIn (h ++ [newPending how]) (h.length ::ₘ internal) initials where
  lt t ht := by
    rw [cons_add] at ht
    rcases mem_cons.mp ht with rfl | ht
    · simp
    · exact (ho.append hwf (isUnderlying_newPending how)).lt t ht
  nodup := by
    rw [cons_add]
    exact ho.nodup_cons_length hwf (isUnderlying_newPending how)
  pending t ht := by
    rcases mem_cons.mp ht with rfl | ht
    · rw [root_append hwf (isUnderlying_newPending how), root_length hwf]
      exact ⟨⟨.empty, .empty, how, 0⟩, by simp [newPending], hhow⟩
    · exact (ho.append hwf (isUnderlying_newPending how)).pending t ht

theorem append_initial {s : State U} (hwf : h.WellFormed) (ho : OwnedIn h internal initials)
    (hs : s.IsUnderlying) : OwnedIn (h ++ [s]) internal (h.length ::ₘ initials) where
  lt t ht := by
    rw [add_cons] at ht
    rcases mem_cons.mp ht with rfl | ht
    · simp
    · exact (ho.append hwf hs).lt t ht
  nodup := by
    rw [add_cons]
    exact ho.nodup_cons_length hwf hs
  pending := (ho.append hwf hs).pending

theorem set_resolved {callbacks : Callbacks U} {r : Result U} (hwf : h.WellFormed)
    (ho : OwnedIn h internal initials) (hu : h[u]? = some (.pending callbacks))
    (hne : ∀ t ∈ internal, h.root t ≠ u) : OwnedIn (h.set u (.resolved r)) internal initials where
  lt t ht := by
    rw [List.length_set]
    exact ho.lt t ht
  nodup := by
    rw [Multiset.map_congr rfl fun t _ =>
      root_set (t := .resolved r) hwf hu trivial trivial t]
    exact ho.nodup
  pending t ht := by
    rw [root_set (t := .resolved r) hwf hu trivial trivial,
      List.getElem?_set_ne (hne t ht).symm]
    exact ho.pending t ht

/-- Linking gives the owner of the inner promise the place of the owner of the outer one. -/
theorem link {inner : Pid} {callbacks outerCallbacks merged : Callbacks U} (hwf : h.WellFormed)
    (ho : OwnedIn h (t ::ₘ internal) initials) (hc : Compressed h h₁) (hne : inner ≠ h.root t)
    (hinner : h₁[inner]? = some (.pending callbacks))
    (houter : h₁[h.root t]? = some (.pending outerCallbacks))
    (hhow : merged.howToCancel = callbacks.howToCancel) :
    OwnedIn ((h₁.set (h.root t) (.pending merged)).set inner (.proxy (h.root t)))
      internal initials := by
  obtain ⟨-, hroot⟩ := link_spec merged hwf hc hne hinner houter
  have hlen : ((h₁.set (h.root t) (.pending merged)).set inner (.proxy (h.root t))).length =
      h.length := by
    simp [hc.length_eq]
  have hle : internal + initials ≤ t ::ₘ internal + initials := by
    rw [cons_add]
    exact le_cons_self _ _
  refine ⟨fun x hx => ?_, ?_, fun x hx => ?_⟩
  · rw [hlen]
    exact ho.lt x (mem_of_le hle hx)
  · rw [Multiset.map_congr rfl fun x _ => hroot x]
    refine Multiset.Nodup.map_on ?_ (Multiset.Nodup.of_map _ (nodup_of_le
      (map_le_map hle) ho.nodup))
    intro x hx y hy hxy
    have hinj := inj_on_of_nodup_map (nodup_of_le (map_le_map hle)
      ho.nodup)
    refine hinj x hx y hy ?_
    have hx' := ho.root_ne hx
    have hy' := ho.root_ne hy
    split at hxy <;> split at hxy <;> simp_all
  · obtain ⟨cb, hcb, hcbhow⟩ := ho.pending x (mem_cons_of_mem hx)
    rw [hroot]
    have hcb₁ : h₁[h.root x]? = some (.pending cb) := (hc.getElem?_root hwf x).trans hcb
    have hxt := ho.root_ne (mem_add.mpr (.inl hx))
    split
    · rename_i hxi
      rw [hxi, hinner] at hcb₁
      obtain rfl : callbacks = cb := by simpa using hcb₁
      refine ⟨merged, ?_, hhow ▸ hcbhow⟩
      rw [List.getElem?_set_ne hne, List.getElem?_set_self (lt_length_of_getElem? houter)]
    · rename_i hxi
      refine ⟨cb, ?_, hcbhow⟩
      rw [List.getElem?_set_ne (Ne.symm hxi), List.getElem?_set_ne hxt.symm, hcb₁]

end OwnedIn

theorem initials_congr (hprot : s'.protects = s.protects) (hres : s'.resolvers = s.resolvers) :
    s'.initials = s.initials := by
  rw [Store.initials, Store.initials, hprot, hres]

theorem initials_le (hprot : s'.protects ≤ s.protects) (hres : s'.resolvers = s.resolvers) :
    s'.initials ≤ s.initials := by
  rw [Store.initials, Store.initials, hres]
  exact add_le_add_left hprot _

/-- Promises that have lost their owner can be counted as `lost` to one: nobody else gets
hold of them. -/
theorem Transfer.owned_add (lost : Multiset Pid) (hwf : s.heap.WellFormed)
    (ho : OwnedIn s.heap (lost + s.internal) s.initials) (ht : Transfer s s') :
    OwnedIn s'.heap (lost + s'.internal) s'.initials := by
  cases ht with
  | keep hs hint hprot hres =>
    exact (ho.of_similar hwf hs).of_le (add_le_add_right hint lost) (initials_le hprot hres)
  | alloc hx hs hint hprot hres =>
    exact ((ho.append hwf hx).of_similar (wellFormed_append hwf hx) hs).of_le
      (add_le_add_right hint lost) (initials_le hprot hres)
  | rename hs hint hint' hprot hres =>
    -- the owner is written down under the underlying promise of `t`
    rw [hint, add_cons] at ho
    rw [hint', add_cons, initials_congr hprot hres]
    exact (ho.rename hwf).of_similar hwf hs
  | allocInternal hhow hs hint hprot hres =>
    rw [hint, add_cons, initials_congr hprot hres]
    exact (ho.append_internal hwf hhow).of_similar
      (wellFormed_append hwf (isUnderlying_newPending _)) hs
  | allocResolver hx hs hint hprot hres =>
    rw [hint, Store.initials, hprot, hres, ← cons_coe, add_cons]
    exact (ho.append_initial hwf hx).of_similar (wellFormed_append hwf hx) hs
  | allocProtection hs hint hprot hres =>
    rw [hint, Store.initials, hprot, hres, cons_add]
    exact (ho.append_initial hwf (isUnderlying_newPending _)).of_similar
      (wellFormed_append hwf (isUnderlying_newPending _)) hs
  | pay hcb hheap hint hprot hres =>
    -- what is resolved has one owner, which is removed with it
    rw [hint, add_cons] at ho
    rw [hheap, initials_congr hprot hres]
    exact (ho.of_le (le_cons_self _ _) le_rfl).set_resolved hwf hcb fun x hx =>
      ho.root_ne (mem_add.mpr (.inl hx))
  | wake hmem hcb hheap hint hprot hres =>
    rw [hheap, hint, initials_congr hprot hres]
    exact ho.set_resolved hwf hcb fun x hx => ho.root_ne_of_initial
      (mem_add.mpr (.inr (mem_coe.mpr hmem))) hx
  | @unprotect t h callbacks r hs hcb hheap hint hprot hres =>
    have hmem : t ∈ s.initials := by
      rw [Store.initials, hprot]
      exact mem_add.mpr (.inl (mem_cons_self _ _))
    rw [hheap, hint]
    refine OwnedIn.of_le ?_ le_rfl (initials_le (hprot ▸ le_cons_self _ _) hres)
    refine (ho.of_similar hwf hs).set_resolved (hs.wellFormed hwf) hcb fun x hx => ?_
    rw [hs.root_eq hwf]
    exact ho.root_ne_of_initial hmem hx
  | cancel hcb hhow hheap hint hprot hres =>
    rw [hheap, hint, initials_congr hprot hres]
    refine ho.set_resolved hwf hcb fun x hx heq => ?_
    -- a promise with an owner cannot be canceled
    obtain ⟨callbacks', hcb', hhow'⟩ := ho.pending x hx
    rw [heq, hcb] at hcb'
    obtain rfl : _ = callbacks' := by simpa using hcb'
    exact hhow' hhow
  | link _ hc hne hinner houter hhow hheap hint hprot hres =>
    rw [hint, add_cons] at ho
    rw [hheap, initials_congr hprot hres]
    exact ho.link hwf hc hne hinner houter hhow

theorem Transfer.owned (hwf : s.heap.WellFormed) (ho : Owned s) (ht : Transfer s s') :
    Owned s' := by
  have hadd := ht.owned_add 0 hwf (by rwa [zero_add])
  rwa [zero_add] at hadd

/-! ## The promises of `protected` -/

namespace Heap

variable {h h' : Heap U} {t u : Pid}

/-- The underlying promise of `t` is pending, or canceled. -/
def Shields (h : Heap U) (t : Pid) : Prop :=
  h.IsPending (h.root t) ∨ h.IsResolved (h.root t) (.rejected .canceled)

theorem Shields.of_similar (hwf : h.WellFormed) (hsh : h.Shields t) (hs : Similar h h') :
    h'.Shields t := by
  rw [Shields, hs.root_eq hwf]
  exact hsh.imp hs.isPending hs.isResolved

theorem Shields.append {x : State U} (hwf : h.WellFormed) (hsh : h.Shields t)
    (hx : x.IsUnderlying) : Heap.Shields (h ++ [x]) t := by
  rw [Shields, root_append hwf hx]
  refine hsh.imp IsPending.append fun hr => ?_
  rw [IsResolved, List.getElem?_append_left (lt_length_of_getElem? hr)]
  exact hr

theorem Shields.set_resolved {callbacks : Callbacks U} {r : Result U} (hwf : h.WellFormed)
    (hsh : h.Shields t) (hu : h[u]? = some (.pending callbacks))
    (hr : h.root t = u → r = .rejected .canceled) : Heap.Shields (h.set u (.resolved r)) t := by
  rw [Shields, root_set (t := .resolved r) hwf hu trivial trivial]
  by_cases htu : h.root t = u
  · refine .inr ?_
    rw [IsResolved, htu, List.getElem?_set_self (lt_length_of_getElem? hu), hr htu]
  · rw [IsPending, IsResolved, List.getElem?_set_ne (Ne.symm htu)]
    exact hsh

end Heap

theorem Owned.initials_root_ne {t x : Pid} (ho : Owned s) (rest : Multiset Pid)
    (hini : s.initials = t ::ₘ rest) (hx : x ∈ rest) : s.heap.root x ≠ s.heap.root t := by
  have hnodup := ho.nodup
  rw [hini, add_cons, map_cons, nodup_cons] at hnodup
  intro heq
  exact hnodup.1 (heq ▸ mem_map_of_mem _ (mem_add.mpr (.inr hx)))

theorem Transfer.shielded (hwf : s.heap.WellFormed) (ho : Owned s) (hsh : Shielded s)
    (ht : Transfer s s') : Shielded s' := by
  have hini : ∀ t ∈ s.protects, t ∈ s.initials := fun t ht => mem_add.mpr (.inl ht)
  cases ht with
  | keep hs hint hprot hres =>
    exact fun t ht => Shields.of_similar hwf (hsh t (mem_of_le hprot ht)) hs
  | alloc hx hs hint hprot hres =>
    exact fun t ht => Shields.of_similar (wellFormed_append hwf hx)
      (Shields.append hwf (hsh t (mem_of_le hprot ht)) hx) hs
  | rename hs hint hint' hprot hres =>
    exact fun t ht => Shields.of_similar hwf (hsh t (hprot ▸ ht)) hs
  | allocInternal hhow hs hint hprot hres =>
    exact fun t ht => Shields.of_similar (wellFormed_append hwf (isUnderlying_newPending _))
      (Shields.append hwf (hsh t (hprot ▸ ht)) (isUnderlying_newPending _)) hs
  | allocResolver hx hs hint hprot hres =>
    exact fun t ht => Shields.of_similar (wellFormed_append hwf hx)
      (Shields.append hwf (hsh t (hprot ▸ ht)) hx) hs
  | @allocProtection how hs hint hprot hres =>
    have hwf' := wellFormed_append (x := newPending how) hwf trivial
    intro t ht
    rw [hprot] at ht
    rcases mem_cons.mp ht with rfl | ht
    · refine Shields.of_similar hwf' (.inl ?_) hs
      rw [root_append hwf (isUnderlying_newPending how), root_length hwf]
      exact ⟨⟨.empty, .empty, how, 0⟩, by simp [newPending]⟩
    · exact Shields.of_similar hwf'
        (Shields.append hwf (hsh t ht) (isUnderlying_newPending how)) hs
  | pay hcb hheap hint hprot hres =>
    intro t ht
    rw [hprot] at ht
    rw [hheap]
    -- no promise of the work is the root of a protected one
    rw [Owned, hint] at ho
    exact Shields.set_resolved hwf (hsh t ht) hcb fun heq =>
      absurd heq (ho.root_ne (mem_add.mpr (.inr (hini t ht))))
  | @wake t callbacks r hmem hcb hheap hint hprot hres =>
    intro x hx
    rw [hprot] at hx
    rw [hheap]
    refine Shields.set_resolved hwf (hsh x hx) hcb fun heq => ?_
    obtain ⟨rest, hrest⟩ := exists_cons_of_mem (mem_coe.mpr hmem)
    refine absurd heq (ho.initials_root_ne (s.protects + rest) ?_
      (mem_add.mpr (.inl hx)))
    rw [Store.initials, hrest, add_cons]
  | @unprotect t h callbacks r hs hcb hheap hint hprot hres =>
    intro x hx
    rw [hheap]
    have hsh' : h.Shields x :=
      Shields.of_similar hwf (hsh x (by rw [hprot]; exact mem_cons_of_mem hx)) hs
    refine hsh'.set_resolved (hs.wellFormed hwf) hcb fun heq => ?_
    rw [hs.root_eq hwf] at heq
    refine absurd heq (ho.initials_root_ne (s'.protects + s.resolvers) ?_
      (mem_add.mpr (.inl hx)))
    rw [Store.initials, hprot, cons_add]
  | cancel hcb hhow hheap hint hprot hres =>
    intro x hx
    rw [hprot] at hx
    rw [hheap]
    exact Shields.set_resolved hwf (hsh x hx) hcb fun _ => rfl
  | @link t inner h callbacks outerCallbacks merged hc hne hinner houter hhow hheap hint hprot
      hres =>
      obtain ⟨-, hroot⟩ := link_spec merged hwf hc hne hinner houter
      intro x hx
      rw [hprot] at hx
      -- the outer promise is one of the work, so `x` has another root
      have hxt : s.heap.root x ≠ s.heap.root t := by
        rw [Owned, hint] at ho
        exact ho.root_ne (mem_add.mpr (.inr (hini x hx)))
      rw [hheap, hroot]
      split
      · refine .inl ⟨merged, ?_⟩
        rw [List.getElem?_set_ne hne, List.getElem?_set_self (lt_length_of_getElem? houter)]
      · rename_i hxi
        rw [IsPending, IsResolved, List.getElem?_set_ne (Ne.symm hxi),
          List.getElem?_set_ne hxt.symm, hc.getElem?_root hwf]
        exact hsh x hx

/-! ## Joins -/

def Callback.joinRefs : Callback U → Multiset ℕ
  | .join j => {j}
  | _ => 0

/-- The callbacks of calls of `join` that have not been called. -/
def Store.joinRefs (s : Store U) : Multiset ℕ := s.nodes.bind fun node => node.callback.joinRefs

/-- `number_pending_in_ps` counts the callbacks of a call of `join` (and those lost to an
exception); as long as there are any, its promise is still to be resolved. -/
structure Joined (s : Store U) : Prop where
  count : ∀ j join, s.joins[j]? = some join →
    ((s.joinRefs.count j : ℕ) : ℤ) ≤ join.numberPendingInPs
  live : ∀ j join, s.joins[j]? = some join → j ∈ s.joinRefs ∨ s.joining = some j →
    join.live = true
  lt : ∀ j ∈ s.joinRefs, j < s.joins.length

theorem Joined.congr (hj : Joined s) (hrefs : s'.joinRefs = s.joinRefs)
    (hjoins : s'.joins = s.joins) (hjoining : s'.joining = s.joining) : Joined s' := by
  constructor
  · rw [hrefs, hjoins]
    exact hj.count
  · rw [hrefs, hjoins, hjoining]
    exact hj.live
  · rw [hrefs, hjoins]
    exact hj.lt

/-- One call of `join` changes its count along with the number of its callbacks. -/
theorem Joined.set {j : ℕ} {join join' : Join U} (hj : Joined s) (refs : Multiset ℕ)
    (hjoin : s.joins[j]? = some join) (hjoins : s'.joins = s.joins.set j join')
    (hrefs : s'.joinRefs = refs) (hother : ∀ i, i ≠ j → refs.count i = s.joinRefs.count i)
    (hcount : ((refs.count j : ℕ) : ℤ) ≤ join'.numberPendingInPs)
    (hlive : j ∈ refs ∨ s'.joining = some j → join'.live = true)
    (hjoining : ∀ i, i ≠ j → s'.joining = some i → s.joining = some i) : Joined s' := by
  subst hrefs
  have hlt : j < s.joins.length := (List.getElem?_eq_some_iff.mp hjoin).1
  have hmem : ∀ i, i ≠ j → (i ∈ s'.joinRefs ↔ i ∈ s.joinRefs) := fun i hi => by
    rw [← count_pos, ← count_pos, hother i hi]
  refine ⟨fun i other hi => ?_, fun i other hi hor => ?_, fun i hi => ?_⟩
  · rw [hjoins] at hi
    by_cases hij : i = j
    · subst hij
      obtain rfl : join' = other := by simpa [hlt] using hi
      exact hcount
    · rw [List.getElem?_set_ne (Ne.symm hij)] at hi
      rw [hother i hij]
      exact hj.count i other hi
  · rw [hjoins] at hi
    by_cases hij : i = j
    · subst hij
      obtain rfl : join' = other := by simpa [hlt] using hi
      exact hlive hor
    · rw [List.getElem?_set_ne (Ne.symm hij)] at hi
      exact hj.live i other hi (hor.imp (hmem i hij).mp (hjoining i hij))
  · rw [hjoins, List.length_set]
    by_cases hij : i = j
    · exact hij ▸ hlt
    · exact hj.lt i ((hmem i hij).mp hi)

theorem Joined.append {join : Join U} (hj : Joined s) (hjoins : s'.joins = s.joins ++ [join])
    (hrefs : s'.joinRefs = s.joinRefs) (hcount : join.numberPendingInPs = 0)
    (hlive : join.live = true) (hjoining : s'.joining = some s.joins.length) : Joined s' := by
  have hnot : s.joins.length ∉ s.joinRefs := fun hmem => Nat.lt_irrefl _ (hj.lt _ hmem)
  have hcases : ∀ i other, s'.joins[i]? = some other →
      s.joins[i]? = some other ∨ i = s.joins.length ∧ other = join := fun i other hi =>
    getElem?_append_singleton (by rwa [hjoins] at hi)
  refine ⟨fun i other hi => ?_, fun i other hi hor => ?_, fun i hi => ?_⟩
  · rw [hrefs]
    rcases hcases i other hi with hold | ⟨rfl, rfl⟩
    · exact hj.count i other hold
    · rw [hcount, count_eq_zero_of_notMem hnot]
      exact le_rfl
  · rw [hrefs, hjoining] at hor
    rcases hcases i other hi with hold | ⟨rfl, rfl⟩
    · refine hj.live i other hold (.inl (hor.resolve_right fun heq => ?_))
      have := (List.getElem?_eq_some_iff.mp hold).1
      obtain rfl : s.joins.length = i := by simpa using heq
      exact Nat.lt_irrefl _ this
    · exact hlive
  · rw [hrefs] at hi
    rw [hjoins]
    simpa using Nat.lt_succ_of_lt (hj.lt i hi)

theorem joinRefs_called {node : Node U} {rest : Multiset (Work U)} {r : Result U}
    (hwork : s.work = .regular (.implicitlyRemoved node) r ::ₘ rest) :
    s.joinRefs = node.callback.joinRefs + Store.joinRefs { s with work := rest } := by
  simp only [Store.joinRefs, nodes_eq, hwork, map_cons, sum_cons, nodes_regular,
    RegularCallbackList.nodes, add_bind, singleton_bind]
  abel

theorem nodes_drop {work' : Multiset (Work U)} (hle : work' ≤ s.work) :
    Store.nodes { s with work := work' } ≤ s.nodes := by
  obtain ⟨lost, hlost⟩ := Multiset.le_iff_exists_add.mp hle
  simp only [nodes_eq, hlost, Multiset.map_add, sum_add]
  exact add_le_add_right (Multiset.le_add_right _ _) _

theorem bind_le_bind {α β : Type*} {m m' : Multiset α} (f : α → Multiset β) (hle : m' ≤ m) :
    m'.bind f ≤ m.bind f := by
  obtain ⟨rest, rfl⟩ := Multiset.le_iff_exists_add.mp hle
  rw [add_bind]
  exact Multiset.le_add_right _ _

theorem Joined.drop {work' : Multiset (Work U)} (hj : Joined s) (hle : work' ≤ s.work) :
    Joined { s with work := work' } := by
  have hrefs : Store.joinRefs { s with work := work' } ≤ s.joinRefs :=
    bind_le_bind _ (nodes_drop hle)
  refine ⟨fun j join hjoin => ?_, fun j join hjoin hor => ?_, fun j hmem => ?_⟩
  · exact (Int.ofNat_le.mpr (count_le_of_le j hrefs)).trans (hj.count j join hjoin)
  · exact hj.live j join hjoin (hor.imp_left (mem_of_le hrefs))
  · exact hj.lt j (mem_of_le hrefs hmem)

theorem Act.joined (hwf : s.heap.WellFormed) (hj : Joined s) (hact : Act g s s') : Joined s' := by
  rcases hact.nodes hwf with ⟨-, work', hle, rfl⟩ | hn
  · exact hj.drop hle
  -- the references to joins are callbacks, and an act conserves these
  have hrefs : s'.nodes = s.nodes → s'.joinRefs = s.joinRefs := fun h => by
    rw [Store.joinRefs, Store.joinRefs, h]
  cases hact with
  | attachCompose hu hhow =>
    refine hj.congr ?_ rfl rfl
    rw [Store.joinRefs, nodes_attach hu.append]
    simp [Store.joinRefs, nodes_eq, Callback.joinRefs]
  | attachObserve hu =>
    refine hj.congr ?_ rfl rfl
    rw [Store.joinRefs, nodes_attach hu]
    simp [Store.joinRefs, Callback.joinRefs]
  | joinNew hjoining => exact hj.append rfl (hrefs (by simpa using hn)) rfl rfl rfl
  | @joinAttach j join u hjoining hjoin hu =>
    refine hj.set (j ::ₘ s.joinRefs) hjoin rfl ?_
      (fun i hi => count_cons_of_ne hi _) ?_
      (fun _ => hj.live j join hjoin (.inr hjoining)) fun i hi h => h
    · rw [Store.joinRefs, nodes_attach]
      · simp [Store.joinRefs, nodes_eq, Callback.joinRefs]
      · exact hu
    · have hcount := hj.count j join hjoin
      rw [count_cons_self]
      push_cast
      exact add_le_add_left hcount 1
  | @joinNote j join r hjoining hjoin =>
    exact hj.set _ hjoin rfl (hrefs (by simpa using hn)) (fun i _ => rfl)
      (hj.count j join hjoin :)
      (hj.live j join hjoin :) fun i _ h => h
  | joinEnd hjoining hjoin hzero =>
    have hrefs' := hrefs (by simpa using hn)
    refine ⟨fun i join hi => ?_, fun i join hi hor => ?_, fun i hi => ?_⟩
    · rw [hrefs']
      exact hj.count i join hi
    · rw [hrefs'] at hor
      exact hj.live i join hi (.inl (by simpa using hor))
    · rw [hrefs'] at hi
      exact hj.lt i hi
  | @joinEndEmpty j join hjoining hjoin hzero =>
    have hcount := hj.count j join hjoin
    have hnone : s.joinRefs.count j = 0 := by omega
    refine hj.set _ hjoin rfl (hrefs (by simpa using hn)) (fun i _ => rfl) hcount (fun h => ?_)
      fun i _ h => by simp at h
    rw [← count_pos, hnone] at h
    simp at h
  | callCompose hwork hcallback =>
    refine hj.congr ?_ rfl rfl
    rw [joinRefs_called hwork, hcallback]
    simp [Store.joinRefs, nodes_eq, Callback.joinRefs]
  | callObserve hwork hcallback =>
    refine hj.congr ?_ rfl rfl
    rw [joinRefs_called hwork, hcallback]
    simp [Store.joinRefs, nodes_eq, Callback.joinRefs]
  | @callJoinNone rest node j r hwork hcallback hjoin =>
    have hmem : j ∈ s.joinRefs := by
      rw [joinRefs_called hwork, hcallback]
      simp [Callback.joinRefs]
    have hlt := hj.lt j hmem
    simp only [List.getElem?_eq_none_iff] at hjoin
    omega
  | @callJoin rest node j r r' join hwork hcallback hjoin hlast =>
    have hcalled := joinRefs_called hwork
    rw [hcallback, Callback.joinRefs, singleton_add] at hcalled
    have hcount := hj.count j join hjoin
    rw [hcalled, count_cons_self] at hcount
    refine hj.set (Store.joinRefs { s with work := rest }) hjoin rfl rfl
      (fun i hi => ?_) ?_ (fun _ => ?_) fun i hi h => h
    · rw [hcalled, count_cons_of_ne hi]
    · show _ ≤ join.numberPendingInPs - 1
      push_cast at hcount
      omega
    · exact hj.live j join hjoin (.inl (by rw [hcalled]; simp))
  | @callJoinLast rest node j r r' join hjoining hwork hcallback hjoin hlast =>
    have hcalled := joinRefs_called hwork
    rw [hcallback, Callback.joinRefs, singleton_add] at hcalled
    have hcount := hj.count j join hjoin
    rw [hcalled, count_cons_self] at hcount
    refine hj.set (Store.joinRefs { s with work := rest }) hjoin rfl ?_
      (fun i hi => ?_) ?_ (fun h => ?_) fun i hi h => h
    · simp [Store.joinRefs, nodes_eq]
    · rw [hcalled, count_cons_of_ne hi]
    · show _ ≤ join.numberPendingInPs - 1
      push_cast at hcount
      omega
    · rw [← count_pos] at h
      rcases h with h | h
      · push_cast at hcount
        omega
      · rw [hjoining] at h
        simp at h
  | drop _ hle => exact hj.drop hle
  | note he => exact hj.congr (hrefs (by simpa [he.nodes] using hn)) rfl rfl
  | allocInitial hinit => exact hj.congr (hrefs (by simpa [hinit.nodes] using hn)) rfl rfl
  | addUserCancel => exact hj.congr (hrefs (nodes_attachCancel s _ _ _)) rfl rfl
  | _ => exact hj.congr (hrefs (by simpa [Store.resolve, Store.clear] using hn)) rfl rfl

/-! ## What acts do to the owners -/

theorem total_clearedCells {f : Cell → Multiset Pid} {cells : List Cell} {i : ℕ} {cell : Cell}
    (hf : f { cell with live := false } = 0) (hcell : cells[i]? = some cell) :
    total f cells = f cell + total f (clearedCells cells i) := by
  have hmodify : clearedCells cells i = cells.set i { cell with live := false } := by
    rw [clearedCells, List.modify_eq_set_getElem?, hcell]
    rfl
  have hset := total_set (f := f) (b := { cell with live := false }) hcell
  rw [hf, add_zero] at hset
  rw [hmodify, ← hset, add_comm]

theorem total_clearedCells_le {f : Cell → Multiset Pid} (cells : List Cell) (i : ℕ)
    (hf : ∀ cell : Cell, f { cell with live := false } = 0) :
    total f (clearedCells cells i) ≤ total f cells := by
  cases hcell : cells[i]? with
  | none =>
    rw [clearedCells, List.modify_eq_set_getElem?, hcell]
    exact le_rfl
  | some cell =>
    rw [total_clearedCells (hf cell) hcell]
    exact Multiset.le_add_left _ _

@[simp] theorem internal_cleared (cell : Cell) : Cell.internal { cell with live := false } = 0 := by
  simp [Cell.internal]

@[simp] theorem protects_cleared (cell : Cell) : Cell.protects { cell with live := false } = 0 := by
  simp [Cell.protects]

theorem transfer_of_work (hheap : s'.heap = s.heap) (hcells : s'.cells = s.cells)
    (hjoins : s'.joins = s.joins) (hresolvers : s'.resolvers = s.resolvers)
    (hnodes : (s'.work.map Work.nodes).sum = (s.work.map Work.nodes).sum)
    (howed : (s'.work.map Work.owed).sum ≤ (s.work.map Work.owed).sum) : Transfer s s' := by
  refine .keep (hheap ▸ .refl _) ?_ (by rw [Store.protects, Store.protects, hcells]) hresolvers
  rw [Store.internal, Store.internal, nodes_eq, nodes_eq, hheap, hcells, hjoins, hnodes]
  gcongr

theorem owed_owed (h : Heap U) {cell : Cell} (r : Result U) (hkind : cell.kind ≠ .npick) :
    (cell.owed h r).owed = {cell.target} := by
  unfold Cell.owed
  split <;> first | rfl | contradiction

theorem owed_owed_npick (h : Heap U) {cell : Cell} (r : Result U) (hkind : cell.kind = .npick) :
    (cell.owed h r).owed = {h.root cell.target} := by
  simp [Cell.owed, hkind]

/-- The internal owners other than the cell `i`, which is being called. -/
def Store.others (s : Store U) (i : ℕ) (rest : Multiset (Work U)) : Multiset Pid :=
  s.nodes.bind (fun node => node.callback.targets) + (rest.map Work.owed).sum +
    total Join.owed s.joins + total Cell.internal (clearedCells s.cells i)

theorem internal_eq_others {rest : Multiset (Work U)} {i : ℕ} {cell : Cell} {r : Result U}
    (hwork : s.work = .regular (.explicitlyRemovable i) r ::ₘ rest)
    (hcell : s.cells[i]? = some cell) : s.internal = cell.internal + s.others i rest := by
  rw [Store.internal, Store.others, total_clearedCells (internal_cleared cell) hcell, hwork]
  simp only [map_cons, sum_cons, owed_regular, zero_add]
  abel

theorem internal_called {rest : Multiset (Work U)} {i : ℕ} {r : Result U} {w : Work U}
    (trace : List (Event U)) (hwf : s.heap.WellFormed)
    (hwork : s.work = .regular (.explicitlyRemovable i) r ::ₘ rest) (hw : w.nodes = 0) :
    Store.internal { s.clear i with work := w ::ₘ rest, trace := trace } =
      w.owed + s.others i rest := by
  rw [Store.others, ← nodes_clear hwf i]
  simp only [Store.internal, nodes_eq, Store.clear, hwork, map_cons, sum_cons, hw,
    nodes_regular, RegularCallbackList.nodes, zero_add]
  abel

theorem Act.transfer (hs : Sound s) (hj : Joined s) (hact : Act g s s') : Transfer s s' := by
  have hwf := hs.wellFormed
  cases hact with
  | compress hc =>
    refine .keep hc.similar (le_of_eq ?_) le_rfl rfl
    simp [Store.internal, nodes_eq, heapTotal_compressed hwf hc]
  | note => exact .keep (.refl _) le_rfl le_rfl rfl
  | sequences => exact .keep (.refl _) le_rfl le_rfl rfl
  | allocResolved r =>
    refine .alloc (x := .resolved r) trivial (.refl _) (le_of_eq ?_) le_rfl rfl
    simp [Store.internal, nodes_eq]
  | allocInitial =>
    refine .allocResolver (x := .pending _) trivial (.refl _) ?_ rfl rfl
    simp [Store.internal, nodes_eq]
  | attachCompose hu hhow =>
    refine .allocInternal ?_
      (Store.similar_attach { s with heap := s.heap ++ [newPending _] } _ _) ?_ rfl rfl
    · rcases hhow with rfl | rfl <;> simp
    · rw [Store.internal, nodes_attach hu.append]
      simp [Store.internal, Store.attach, nodes_eq]
  | attachObserve hu =>
    refine .keep (Store.similar_attach s _ _) (le_of_eq ?_) le_rfl rfl
    rw [Store.internal, nodes_attach hu]
    simp [Store.internal, Store.attach]
  | newCell hkind hadd =>
    refine .allocInternal ?_
      (similar_addCellToEach (wellFormed_append hwf (isUnderlying_newPending _)) hadd) ?_ ?_ rfl
    · simp
    · simp [Store.internal, nodes_eq,
        heapNodes_addCellToEach (wellFormed_append hwf (isUnderlying_newPending _)) hadd,
        Cell.internal, hkind]
      simp only [← singleton_add]
      abel
    · simp [Store.protects, Cell.protects, hkind]
  | newProtection hadd =>
    refine .allocProtection
      ((similar_addCellToEach (wellFormed_append hwf (isUnderlying_newPending _)) hadd).trans
        (Store.similar_attachCancel { s with heap := _, cells := _ } _ _ _)) ?_ ?_ rfl
    · rw [Store.internal, nodes_attachCancel]
      simp [Store.internal, nodes_eq, Store.attachCancel,
        heapNodes_addCellToEach (wellFormed_append hwf (isUnderlying_newPending _)) hadd,
        Cell.internal]
    · simp only [Store.protects, Store.attachCancel, Cell.protects, total_append,
        total_cons, total_nil,
        ← singleton_add, and_true, if_true]
      abel
  | addUserCancel =>
    refine .keep ?_ (le_of_eq ?_) le_rfl rfl
    · exact Store.similar_attachCancel s _ _ _
    · rw [Store.internal, nodes_attachCancel]
      rfl
  | joinNew =>
    refine .allocInternal (HowToCancel.noConfusion : HowToCancel.propagateCancelToSeveral _ ≠ _)
      (.refl _) ?_ rfl rfl
    simp [Store.internal, nodes_eq, Join.owed]
    simp only [← singleton_add]
    abel
  | joinAttach hjoining hjoin hu =>
    refine .keep (Store.similar_attach { s with joins := _ } _ _) (le_of_eq ?_) le_rfl rfl
    rw [Store.internal, nodes_attach]
    · simp [Store.internal, Store.attach, nodes_eq]
      exact total_set_of_eq hjoin rfl
    · exact hu
  | joinNote hjoining hjoin =>
    refine .keep (.refl _) (le_of_eq ?_) le_rfl rfl
    simp [Store.internal, nodes_eq]
    exact total_set_of_eq hjoin rfl
  | joinEnd => exact .keep (.refl _) le_rfl le_rfl rfl
  | @joinEndEmpty j join hjoining hjoin hzero =>
    refine .alloc (x := .resolved join.joinResult) trivial (.refl _) ?_ le_rfl rfl
    have hset := total_set (f := Join.owed) (b := { join with live := false }) hjoin
    have hle : total Join.owed (s.joins.set j { join with live := false }) ≤
        total Join.owed s.joins := by
      rw [show Join.owed { join with live := false } = 0 by simp [Join.owed], add_zero] at hset
      rw [← hset]
      exact Multiset.le_add_right _ _
    simp only [Store.internal, nodes_eq, heapTotal_append, lift_resolved, add_zero]
    gcongr
  | wake hp hcb =>
    refine .wake hp hcb rfl ?_ rfl rfl
    rw [Store.internal, nodes_resolve hcb]
    simp [Store.internal, Store.resolve]
  | cancelMark hcb hhow =>
    refine .cancel hcb hhow rfl ?_ rfl rfl
    rw [Store.internal, nodes_resolve hcb]
    simp [Store.internal, Store.resolve]
  | runRecord hwork =>
    refine transfer_of_work rfl rfl rfl rfl ?_ ?_
    · simp [hwork]
    · rw [hwork]
      simp only [Callbacks.opened]
      split <;> simp
  | regularEmpty hwork =>
    refine transfer_of_work rfl rfl rfl rfl ?_ ?_
    · simp [hwork, RegularCallbackList.nodes]
    · simp [hwork]
  | regularConcat hwork =>
    refine transfer_of_work rfl rfl rfl rfl ?_ ?_
    · simp [hwork, RegularCallbackList.nodes, add_assoc]
    · simp [hwork]
  | regularDead hwork =>
    refine transfer_of_work rfl rfl rfl rfl ?_ ?_
    · simp [hwork, RegularCallbackList.nodes]
    · simp [hwork]
  | cancelsEmpty hwork =>
    exact transfer_of_work rfl rfl rfl rfl (by simp [hwork])
      (by simp [hwork])
  | cancelsConcat hwork =>
    exact transfer_of_work rfl rfl rfl rfl (by simp [hwork])
      (by simp [hwork])
  | cancelsUser hwork =>
    exact transfer_of_work rfl rfl rfl rfl (by simp [hwork])
      (by simp [hwork])
  | cancelsNode hwork =>
    exact transfer_of_work rfl rfl rfl rfl (by simp [hwork])
      (by simp [hwork])
  | @cancelsRemove rest mark storage i hwork hguard =>
    have hnodes : (s.clear i).nodes = s.nodes := nodes_clear hwf i
    refine .keep (Store.similar_clear hwf i) ?_ ?_ rfl
    · rw [nodes_eq, nodes_eq, hwork] at hnodes
      simp only [Store.internal, nodes_eq, Store.clear, hwork, map_cons,
        sum_cons, nodes_cancels, owed_cancels, zero_add] at hnodes ⊢
      rw [add_right_cancel hnodes]
      gcongr
      exact total_clearedCells_le s.cells i internal_cleared
    · exact total_clearedCells_le s.cells i protects_cleared
  | callCompose hwork hcallback =>
    refine .keep (.refl _) (le_of_eq ?_) le_rfl rfl
    simp [Store.internal, nodes_eq, hwork, hcallback, RegularCallbackList.nodes]
  | callObserve hwork hcallback =>
    refine .keep (.refl _) (le_of_eq ?_) le_rfl rfl
    simp [Store.internal, nodes_eq, hwork, hcallback, RegularCallbackList.nodes]
  | callJoinNone hwork hcallback =>
    refine .keep (.refl _) (le_of_eq ?_) le_rfl rfl
    simp [Store.internal, nodes_eq, hwork, hcallback, RegularCallbackList.nodes]
  | callJoin hwork hcallback hjoin hlast =>
    refine .keep (.refl _) (le_of_eq ?_) le_rfl rfl
    simp [Store.internal, nodes_eq, hwork, hcallback, RegularCallbackList.nodes]
    exact total_set_of_eq hjoin rfl
  | @callJoinLast rest node j r r' join hjoining hwork hcallback hjoin hlast =>
    refine .keep (.refl _) (le_of_eq ?_) le_rfl rfl
    have hlive : join.live = true := by
      refine hj.live j join hjoin (.inl ?_)
      simp [Store.joinRefs, nodes_eq, hwork, RegularCallbackList.nodes, hcallback,
        Callback.joinRefs]
    have hset := total_set (f := Join.owed) hjoin (b := { join with
      joinResult := r', numberPendingInPs := join.numberPendingInPs - 1, live := false })
    simp only [Join.owed, hlive, if_true, Bool.false_eq_true, if_false, add_zero] at hset
    simp only [Store.internal, nodes_eq, hwork, map_cons, sum_cons,
      nodes_regular, RegularCallbackList.nodes, nodes_owe, owed_owe, owed_regular, zero_add,
      add_bind, singleton_bind, hcallback, targets_join]
    rw [← hset]
    abel
  | @callCell rest i cell r hwork hcell hlive hkind hguard =>
    -- The owner was the cell and is now the function in it.
    have hinternal := internal_eq_others hwork hcell
    have hinternal' := internal_called (.cellCalled i r :: s.trace) hwf hwork
      (nodes_owed (s.clear i).heap cell r)
    have hprotects := total_clearedCells (protects_cleared cell) hcell
    simp only [Cell.internal, hlive, hkind, ne_eq, not_false_eq_true, and_self, if_true]
      at hinternal
    simp only [Cell.protects, hkind, and_false, if_false, zero_add] at hprotects
    by_cases hnpick : cell.kind = .npick
    · rw [owed_owed_npick _ r hnpick, (Store.similar_clear hwf i).root_eq hwf] at hinternal'
      exact .rename (Store.similar_clear hwf i) hinternal hinternal' hprotects.symm rfl
    · rw [owed_owed _ r hnpick, ← hinternal] at hinternal'
      exact .keep (Store.similar_clear hwf i) hinternal'.le hprotects.symm.le rfl
  | @callProtection rest i cell r h callbacks hwork hcell hlive hkind hguard hc hcb =>
    have hprotects := total_clearedCells (protects_cleared cell) hcell
    have hinternal := internal_eq_others hwork hcell
    simp only [Cell.protects, hlive, hkind, and_self, if_true] at hprotects
    simp only [Cell.internal, hkind, ne_eq, not_true_eq_false, and_false, if_false, zero_add]
      at hinternal
    have hsim := Store.similar_clear hwf i
    refine .unprotect (t := cell.target) (hsim.trans hc.similar) hcb rfl ?_ hprotects rfl
    · have hnodes : Store.nodes { s.clear i with
          heap := h, work := rest, trace := .cellCalled i r :: s.trace } = s.nodes := by
        rw [← nodes_clear hwf i, nodes_eq, nodes_eq,
          heapTotal_compressed (hsim.wellFormed hwf) hc]
        simp [Store.clear, hwork, RegularCallbackList.nodes]
      rw [Store.internal, nodes_resolve hcb, hnodes, hinternal, Store.others]
      simp [Store.resolve, Store.clear]
  | settle hwork hpromised hcb =>
    refine .pay hcb rfl ?_ rfl rfl
    rw [Store.internal, Store.internal, nodes_resolve]
    · simp [nodes_eq, Store.resolve, hwork]
    · exact hcb
  | @settleExact rest p r callbacks hwork hcb =>
    have hroot : s.heap.root p = p := root_of_getElem? hwf hcb trivial
    refine .pay (t := p) (by rw [hroot]; exact hcb) (by rw [hroot]; rfl) ?_ rfl rfl
    rw [Store.internal, Store.internal, nodes_resolve]
    · simp [nodes_eq, Store.resolve, hwork]
    · exact hcb
  | @link rest target q h callbacks outerCallbacks hwork hc hne hcb houter hguard =>
    refine .link { mergeCallbacks s.cells callbacks outerCallbacks with
      howToCancel := callbacks.howToCancel } hc hne hcb houter rfl rfl ?_ rfl rfl
    simp [Store.internal, nodes_eq, hwork, heapNodes_link s.cells hwf hc hne hcb houter]
  | same hwork hroot =>
    refine transfer_of_work rfl rfl rfl rfl ?_ ?_
    · simp [hwork]
    · simp [hwork, le_cons_self]
  | drop hguard hle =>
    refine .keep (.refl _) ?_ le_rfl rfl
    have hnodes := bind_le_bind (fun node => node.callback.targets) (nodes_drop hle)
    obtain ⟨lost, hlost⟩ := Multiset.le_iff_exists_add.mp hle
    simp only [Store.internal]
    gcongr
    simp only [hlost, Multiset.map_add, sum_add]
    exact Multiset.le_add_right _ _

end Lwt
