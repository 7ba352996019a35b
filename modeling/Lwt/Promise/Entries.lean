import Lwt.Promise.Marks

/-!
# The storages that cancel callbacks have saved

`on_cancel` saves the current storage together with its function.  Such an entry stays what
it was attached as, whatever records it is merged into and wherever it waits to be called:
an act of the store brings no entry into being but the one that it attaches, and that one
carries a number that no entry had before.
-/

namespace Lwt

open Heap Table Multiset

variable {U : Type} {g : Guard U} {s s' : Store U}

variable (U) in
/-- A cancel callback that saved a storage. -/
structure Entry where
  mark : Mark
  storage : Storage U
  function : CancelCallback U

variable {entry : Entry U}

/-! ## Entries in callback lists -/

/-- The entry is in the list. -/
def CancelCallbackList.Has (entry : Entry U) : CancelCallbackList U → Prop
  | empty => False
  | concat l r => l.Has entry ∨ r.Has entry
  | callback mark storage f => entry = ⟨mark, storage, f⟩
  | removeSequenceNode _ _ => False

/-- The entry may still be called. -/
def Work.Has (entry : Entry U) : Work U → Prop
  | .record _ callbacks _ => callbacks.cancelCallbacks.Has entry
  | .cancels l => l.Has entry
  | _ => False

/-- The entry is in the record of a pending promise. -/
def Heap.Has (entry : Entry U) (h : Heap U) : Prop :=
  ∃ (u : Pid) (callbacks : Callbacks U), h[u]? = some (.pending callbacks) ∧
    callbacks.cancelCallbacks.Has entry

/-- The entry waits in a record or is about to be called. -/
def Store.Has (entry : Entry U) (s : Store U) : Prop :=
  s.heap.Has entry ∨ ∃ w ∈ s.work, w.Has entry

theorem has_concatCancelCallbacks {l1 l2 : CancelCallbackList U}
    (h : (concatCancelCallbacks l1 l2).Has entry) : l1.Has entry ∨ l2.Has entry := by
  cases l1 with
  | empty => exact .inr h
  | _ =>
    cases l2 with
    | empty => exact .inl h
    | _ => exact h

theorem has_addCancelCallback {mark : Mark} {storage : Storage U} {f : CancelCallback U}
    {callbacks : Callbacks U}
    (h : (addCancelCallback mark storage f callbacks).cancelCallbacks.Has entry) :
    entry = ⟨mark, storage, f⟩ ∨ callbacks.cancelCallbacks.Has entry := by
  simp only [addCancelCallback] at h
  split at h
  · exact .inl h
  · exact h

theorem not_has_owe {target : Pid} {promised : Option (Result U)} :
    ¬ (Work.owe target promised).Has entry := fun h => h

theorem not_has_owed {h : Heap U} {cell : Cell} {r : Result U} : ¬ (cell.owed h r).Has entry := by
  unfold Cell.owed
  split <;> exact fun h => h

/-! ## Entries in the heap -/

/-- Records with the same cancel callbacks. -/
def KeepsEntries (_ : Pid) (callbacks callbacks' : Callbacks U) : Prop :=
  callbacks'.cancelCallbacks = callbacks.cancelCallbacks

theorem KeepsEntries.refl (u : Pid) (callbacks : Callbacks U) :
    KeepsEntries u callbacks callbacks := rfl

theorem KeepsEntries.trans (u : Pid) (c₁ c₂ c₃ : Callbacks U) (h : KeepsEntries u c₁ c₂)
    (h' : KeepsEntries u c₂ c₃) : KeepsEntries u c₁ c₃ :=
  Eq.trans h' h

namespace Heap

variable {h h' : Heap U} {u : Pid}

theorem Has.of_recordwise (hrel : Recordwise KeepsEntries h h') (hhas : h'.Has entry) :
    h.Has entry := by
  obtain ⟨v, callbacks', hv, hentry⟩ := hhas
  obtain ⟨callbacks, hcb, heq⟩ := hrel v callbacks' hv
  exact ⟨v, callbacks, hcb, heq ▸ hentry⟩

theorem Has.of_append {x : State U}
    (hx : ∀ callbacks, x = .pending callbacks → ¬ callbacks.cancelCallbacks.Has entry)
    (hhas : Heap.Has entry (h ++ [x])) : h.Has entry := by
  obtain ⟨v, callbacks, hv, hentry⟩ := hhas
  rcases getElem?_append_singleton hv with hold | ⟨-, heq⟩
  · exact ⟨v, callbacks, hold, hentry⟩
  · exact absurd hentry (hx callbacks heq.symm)

theorem Has.of_append_newPending {how : HowToCancel}
    (hhas : Heap.Has entry (h ++ [newPending how])) : h.Has entry :=
  hhas.of_append (by
    rintro callbacks heq
    cases heq
    exact fun h => h)

theorem Has.of_set_other {x : State U} (hx : ∀ callbacks, x ≠ .pending callbacks)
    (hhas : Heap.Has entry (h.set u x)) : h.Has entry :=
  hhas.of_recordwise (.of_set_other KeepsEntries.refl hx)

theorem Has.of_compressed (hwf : h.WellFormed) (hc : Compressed h h') (hhas : h'.Has entry) :
    h.Has entry :=
  hhas.of_recordwise (.of_compressed KeepsEntries.refl hwf hc)

theorem Has.of_addCellToEach {c : ℕ} {ps : List Pid} (hwf : h.WellFormed)
    (hadd : addCellToEach c h ps = some h') (hhas : h'.Has entry) : h.Has entry :=
  hhas.of_recordwise
    (.of_addCellToEach KeepsEntries.refl KeepsEntries.trans hwf (fun _ _ => rfl) hadd)

theorem Has.of_attach {node : Node U}
    (hhas : (h.modifyPending u (addImplicitlyRemovedCallback node)).Has entry) : h.Has entry :=
  hhas.of_recordwise (Recordwise.of_modifyPending (f := addImplicitlyRemovedCallback node)
    KeepsEntries.refl fun _ => rfl)

theorem Has.of_attachCancel {mark : Mark} {storage : Storage U} {f : CancelCallback U}
    (hhas : (h.modifyPending u (addCancelCallback mark storage f)).Has entry) :
    entry = ⟨mark, storage, f⟩ ∨ h.Has entry := by
  obtain ⟨v, callbacks', hv, hentry⟩ := hhas
  simp only [modifyPending] at hv
  split at hv
  · rename_i callbacks hcb
    by_cases huv : u = v
    · subst huv
      rw [List.getElem?_set_self (lt_length_of_getElem? hcb)] at hv
      cases Option.some.inj hv
      exact (has_addCancelCallback hentry).imp_right fun hold => ⟨u, callbacks, hcb, hold⟩
    · rw [List.getElem?_set_ne huv] at hv
      exact .inr ⟨v, callbacks', hv, hentry⟩
  · exact .inr ⟨v, callbacks', hv, hentry⟩

theorem Has.of_link {outer inner : Pid} {callbacks outerCallbacks : Callbacks U}
    {how : HowToCancel} {cells : List Cell}
    (hinner : h[inner]? = some (.pending callbacks))
    (houter : h[outer]? = some (.pending outerCallbacks))
    (hhas : Heap.Has entry ((h.set outer (.pending
      { mergeCallbacks cells callbacks outerCallbacks with howToCancel := how })).set inner
        (.proxy outer))) : h.Has entry := by
  obtain ⟨v, callbacks', hv, hentry⟩ := hhas.of_set_other (by simp)
  by_cases hov : outer = v
  · subst hov
    rw [List.getElem?_set_self (lt_length_of_getElem? houter)] at hv
    cases Option.some.inj hv
    rcases has_concatCancelCallbacks hentry with hold | hold
    · exact ⟨outer, outerCallbacks, houter, hold⟩
    · exact ⟨inner, callbacks, hinner, hold⟩
  · rw [List.getElem?_set_ne hov] at hv
    exact ⟨v, callbacks', hv, hentry⟩

end Heap

theorem Store.has_clear (hwf : s.heap.WellFormed) {i : ℕ} (hhas : (s.clear i).heap.Has entry) :
    s.heap.Has entry :=
  hhas.of_recordwise (.of_visitEach KeepsEntries.refl KeepsEntries.trans hwf _
    fun _ callbacks => cancelCallbacks_deferOrCleanUp _ callbacks)

/-! ## Entries in a store -/

theorem Store.Has.of_attach {u : Pid} {callback : Callback U}
    (hhas : (s.attach u callback).Has entry) : s.Has entry :=
  hhas.imp_left Heap.Has.of_attach

theorem Store.Has.of_attachCancel {u : Pid} {storage : Storage U} {f : CancelCallback U}
    (hhas : (s.attachCancel u storage f).Has entry) :
    entry = ⟨⟨s.nextNode, u⟩, storage, f⟩ ∨ s.Has entry := by
  rcases hhas with hheap | hwork
  · exact hheap.of_attachCancel.imp_right .inl
  · exact .inr (.inr hwork)

theorem Store.Has.of_resolve {u : Pid} {callbacks : Callbacks U} {r : Result U}
    (hu : s.heap[u]? = some (.pending callbacks)) (hhas : (s.resolve u callbacks r).Has entry) :
    s.Has entry := by
  rcases hhas with hheap | ⟨w, hw, hentry⟩
  · exact .inl (hheap.of_set_other (by simp))
  · rcases mem_cons.mp hw with rfl | hw
    · exact .inl ⟨u, callbacks, hu, hentry⟩
    · exact .inr ⟨w, hw, hentry⟩

/-- The act attaches the entry, or it was there before. -/
theorem Act.has (hwf : s.heap.WellFormed) (hact : Act g s s') (hhas : s'.Has entry) :
    s.Has entry ∨ (entry.mark.id = s.nextNode ∧ s'.nextNode = s.nextNode + 1 ∧
      s'.trace = .cancelAttached entry.mark :: s.trace) := by
  have hwf' : ∀ how, Heap.WellFormed (s.heap ++ [newPending how]) := fun how =>
    wellFormed_append hwf (isUnderlying_newPending how)
  -- Work that is taken apart.
  have hrest : ∀ {w : Work U} {rest : Multiset (Work U)}, s.work = w ::ₘ rest →
      ∀ {h : Heap U}, (h.Has entry → s.heap.Has entry) →
      (h.Has entry ∨ ∃ w ∈ rest, w.Has entry) → s.Has entry := by
    intro w rest hwork h hheap hhas
    rcases hhas with hh | ⟨w', hw', hentry⟩
    · exact .inl (hheap hh)
    · exact .inr ⟨w', hwork ▸ mem_cons_of_mem hw', hentry⟩
  have hcons : ∀ {w w' : Work U} {rest : Multiset (Work U)}, s.work = w ::ₘ rest →
      ¬ w'.Has entry → ∀ {h : Heap U}, (h.Has entry → s.heap.Has entry) →
      (h.Has entry ∨ ∃ x ∈ w' ::ₘ rest, x.Has entry) → s.Has entry := by
    intro w w' rest hwork hw h hheap hhas
    rcases hhas with hh | ⟨x, hx, hentry⟩
    · exact .inl (hheap hh)
    · rcases mem_cons.mp hx with rfl | hx
      · exact absurd hentry hw
      · exact .inr ⟨x, hwork ▸ mem_cons_of_mem hx, hentry⟩
  cases hact with
  | compress hc => exact .inl (hhas.imp_left fun h => h.of_compressed hwf hc)
  | allocResolved r => exact .inl (hhas.imp_left fun h => h.of_append (by simp))
  | allocInitial hinit =>
    refine .inl (hhas.imp_left fun h => h.of_append ?_)
    rintro callbacks heq
    cases heq
    rcases hinit with ⟨rfl, -⟩ | ⟨node, rfl, -⟩
    · exact fun h => h
    · exact fun h => h
  | attachCompose hu hhow =>
    exact .inl (hhas.of_attach.imp_left Heap.Has.of_append_newPending)
  | attachObserve hu => exact .inl hhas.of_attach
  | newCell hkind hadd =>
    exact .inl (hhas.imp_left fun h => (h.of_addCellToEach (hwf' _) hadd).of_append_newPending)
  | newProtection hadd hguard =>
    rcases hhas.of_attachCancel with rfl | hold
    · exact .inr ⟨rfl, rfl, rfl⟩
    · exact .inl (hold.imp_left fun h =>
        (h.of_addCellToEach (hwf' _) hadd).of_append_newPending)
  | addUserCancel hu =>
    rcases hhas.of_attachCancel with rfl | hold
    · exact .inr ⟨rfl, rfl, rfl⟩
    · exact .inl hold
  | joinNew => exact .inl (hhas.imp_left Heap.Has.of_append_newPending)
  | joinAttach => exact .inl hhas.of_attach
  | joinEndEmpty => exact .inl (hhas.imp_left fun h => h.of_append (by simp))
  | wake hp hcb => exact .inl (hhas.of_resolve hcb)
  | cancelMark hcb hhow => exact .inl (hhas.of_resolve hcb)
  | @runRecord rest p callbacks r hwork =>
    rcases hhas with hh | ⟨w, hw, hentry⟩
    · exact .inl (.inl hh)
    · rcases mem_add.mp hw with hopened | hw
      · refine .inl (.inr ⟨.record p callbacks r, by simp [hwork], ?_⟩)
        simp only [Callbacks.opened] at hopened
        split at hopened
        · rcases mem_cons.mp hopened with rfl | hopened
          · exact hentry
          · obtain rfl := mem_singleton.mp hopened
            exact hentry.elim
        · obtain rfl := mem_singleton.mp hopened
          exact hentry.elim
      · exact .inl (.inr ⟨w, hwork ▸ mem_cons_of_mem hw, hentry⟩)
  | regularEmpty hwork => exact .inl (hrest hwork id hhas)
  | regularConcat hwork =>
    rcases hhas with hh | ⟨w, hw, hentry⟩
    · exact .inl (.inl hh)
    · rcases mem_cons.mp hw with rfl | hw
      · exact hentry.elim
      · rcases mem_cons.mp hw with rfl | hw
        · exact hentry.elim
        · exact .inl (.inr ⟨w, hwork ▸ mem_cons_of_mem hw, hentry⟩)
  | regularDead hwork => exact .inl (hrest hwork id hhas)
  | cancelsEmpty hwork => exact .inl (hrest hwork id hhas)
  | @cancelsConcat rest l l' hwork =>
    rcases hhas with hh | ⟨w, hw, hentry⟩
    · exact .inl (.inl hh)
    · rcases mem_cons.mp hw with rfl | hw
      · exact .inl (.inr ⟨.cancels (.concat l l'), by simp [hwork], .inl hentry⟩)
      · rcases mem_cons.mp hw with rfl | hw
        · exact .inl (.inr ⟨.cancels (.concat l l'), by simp [hwork], .inr hentry⟩)
        · exact .inl (.inr ⟨w, hwork ▸ mem_cons_of_mem hw, hentry⟩)
  | cancelsUser hwork => exact .inl (hrest hwork id hhas)
  | cancelsNode hwork => exact .inl (hrest hwork id hhas)
  | cancelsRemove hwork => exact .inl (hrest hwork (Store.has_clear hwf) hhas)
  | callCompose hwork => exact .inl (hcons hwork not_has_owe id hhas)
  | callObserve hwork => exact .inl (hrest hwork id hhas)
  | callJoinNone hwork => exact .inl (hrest hwork id hhas)
  | callJoin hwork => exact .inl (hrest hwork id hhas)
  | callJoinLast hjoining hwork => exact .inl (hcons hwork not_has_owe id hhas)
  | callCell hwork hcell hlive hkind hguard =>
    exact .inl (hcons hwork not_has_owed (Store.has_clear hwf) hhas)
  | @callProtection rest i cell r h callbacks hwork hcell hlive hkind hguard hc hcb =>
    have hwf₁ := (Store.similar_clear hwf i).wellFormed hwf
    have hold := hhas.of_resolve (s := { s.clear i with
      heap := h, work := rest, trace := .cellCalled i r :: s.trace }) hcb
    exact .inl (hrest hwork (fun hh => Store.has_clear hwf (hh.of_compressed hwf₁ hc)) hold)
  | @settle rest target o r callbacks hwork hpromised hcb =>
    have hold := Store.Has.of_resolve (s := { s with work := rest }) hcb hhas
    exact .inl (hrest hwork id hold)
  | @settleExact rest p r callbacks hwork hcb =>
    have hold := Store.Has.of_resolve (s := { s with work := rest }) hcb hhas
    exact .inl (hrest hwork id hold)
  | link hwork hc hne hcb houter hguard =>
    exact .inl (hrest hwork (fun hh => (hh.of_link hcb houter).of_compressed hwf hc) hhas)
  | same hwork => exact .inl (hrest hwork id hhas)
  | drop hguard hle =>
    rcases hhas with hh | ⟨w, hw, hentry⟩
    · exact .inl (.inl hh)
    · exact .inl (.inr ⟨w, mem_of_le hle hw, hentry⟩)
  | _ => exact .inl hhas

end Lwt
