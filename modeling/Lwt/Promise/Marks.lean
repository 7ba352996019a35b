import Lwt.Promise.Cells
import Lwt.Promise.Safety

/-!
# Cancel callbacks

Cancel callbacks wait in the record of a pending promise next to the regular ones, and are
merged like them when the promise becomes a proxy.  When the promise is resolved they are
called if the result is `Rejected Canceled`, and thrown away otherwise.  The marks that the
callbacks carry make the account exact: what was attached is still to be called, has been
called, or was thrown away with the record of a promise that was not canceled.
-/

namespace Lwt

open Heap Table Multiset

variable {U : Type} {g : Guard U} {s s' : Store U}

/-! ## Marks in callback lists -/

/-- The marks of the callbacks in a list. -/
def CancelCallbackList.marks : CancelCallbackList U → Multiset Mark
  | empty => 0
  | concat l r => l.marks + r.marks
  | callback mark _ _ => {mark}
  | removeSequenceNode mark _ => {mark}

def Callbacks.marks (callbacks : Callbacks U) : Multiset Mark := callbacks.cancelCallbacks.marks

/-- The cancel callbacks that may still be called. -/
def Work.marks : Work U → Multiset Mark
  | .record _ callbacks _ => callbacks.marks
  | .cancels l => l.marks
  | _ => 0

/-- The cancel callbacks that have not been called. -/
def Store.marks (s : Store U) : Multiset Mark := s.content Callbacks.marks Work.marks

def Event.attachedMarks : Event U → Multiset Mark
  | .cancelAttached mark => {mark}
  | _ => 0

def Event.calledMarks : Event U → Multiset Mark
  | .cancelCalled mark => {mark}
  | _ => 0

/-- The cancel callbacks attached in the course of a trace. -/
def attachedMarks (trace : List (Event U)) : Multiset Mark := total Event.attachedMarks trace

/-- The cancel callbacks called in the course of a trace. -/
def calledMarks (trace : List (Event U)) : Multiset Mark := total Event.calledMarks trace

theorem marks_eq (s : Store U) :
    s.marks = heapTotal Callbacks.marks s.heap + (s.work.map Work.marks).sum := rfl

section Simp

variable (e : Event U) (trace : List (Event U)) (mark : Mark) (callbacks : Callbacks U)

@[simp] theorem attachedMarks_cons :
    attachedMarks (e :: trace) = e.attachedMarks + attachedMarks trace := total_cons

@[simp] theorem calledMarks_cons :
    calledMarks (e :: trace) = e.calledMarks + calledMarks trace := total_cons

@[simp] theorem marks_concatCancelCallbacks (l1 l2 : CancelCallbackList U) :
    (concatCancelCallbacks l1 l2).marks = l1.marks + l2.marks := by
  cases l1 <;> cases l2 <;> simp [concatCancelCallbacks, CancelCallbackList.marks]

@[simp] theorem marks_mergeCallbacks (cells : List Cell) (from' into : Callbacks U) :
    (mergeCallbacks cells from' into).cancelCallbacks.marks =
      into.cancelCallbacks.marks + from'.cancelCallbacks.marks := by
  simp [mergeCallbacks]

@[simp] theorem marks_addCancelCallback (storage : Storage U) (f : CancelCallback U) :
    (addCancelCallback mark storage f callbacks).marks = {mark} + callbacks.marks := by
  unfold addCancelCallback Callbacks.marks
  cases callbacks.cancelCallbacks <;> simp [CancelCallbackList.marks]

@[simp] theorem marks_deferOrCleanUp (cells : List Cell) :
    (deferOrCleanUp cells callbacks).marks = callbacks.marks :=
  congrArg CancelCallbackList.marks (cancelCallbacks_deferOrCleanUp cells callbacks)

theorem marks_opened (r : Result U) :
    ((callbacks.opened r).map Work.marks).sum = if r.isCanceled then callbacks.marks else 0 := by
  unfold Callbacks.opened
  split <;> simp [Work.marks, Callbacks.marks]

@[simp] theorem marks_regular (l : RegularCallbackList U) (r : Result U) :
    (Work.regular l r).marks = 0 := rfl

@[simp] theorem marks_owed (h : Heap U) (cell : Cell) (r : Result U) :
    (cell.owed h r).marks = 0 := by
  unfold Cell.owed
  split <;> rfl

end Simp

theorem Result.isCanceled_iff {r : Result U} : r.isCanceled = true ↔ r = .rejected .canceled := by
  cases r with
  | fulfilled v => simp [Result.isCanceled]
  | rejected e => cases e <;> simp [Result.isCanceled]

/-! ## Conservation -/

section Marks

variable {u : Pid} {callbacks : Callbacks U}

theorem marks_resolve (hu : s.heap[u]? = some (.pending callbacks)) (r : Result U) :
    (s.resolve u callbacks r).marks = s.marks := by
  have hset := heapTotal_set_other (μ := Callbacks.marks) (s := .resolved r) hu rfl
  simp only [marks_eq, Store.resolve, map_cons, sum_cons, Work.marks]
  rw [← add_assoc, hset]

theorem marks_attachCancel (hu : s.heap.IsPending u) (storage : Storage U)
    (f : CancelCallback U) :
    (s.attachCancel u storage f).marks = ⟨s.nextNode, u⟩ ::ₘ s.marks := by
  have hmodify := heapTotal_modifyPending (μ := Callbacks.marks)
    (f := addCancelCallback ⟨s.nextNode, u⟩ storage f) hu
    fun callbacks => marks_addCancelCallback _ callbacks storage f
  simp only [marks_eq, Store.attachCancel]
  rw [hmodify, add_assoc]
  rfl

theorem heapMarks_attach (callback : Callback U) :
    heapTotal Callbacks.marks (s.attach u callback).heap = heapTotal Callbacks.marks s.heap :=
  heapTotal_modifyPending_of_eq fun _ => rfl

theorem heapMarks_clear (hwf : s.heap.WellFormed) (i : ℕ) :
    heapTotal Callbacks.marks (s.clear i).heap = heapTotal Callbacks.marks s.heap :=
  heapTotal_visitEach hwf (fun callbacks => marks_deferOrCleanUp callbacks _) _

end Marks

/-- Between `s` and `s'` no cancel callback is duplicated, and those in `lost` are thrown
away. -/
def MarksBalance (s s' : Store U) (lost : Multiset Mark) : Prop :=
  s'.marks + lost + calledMarks s'.trace + attachedMarks s.trace =
    s.marks + calledMarks s.trace + attachedMarks s'.trace

theorem MarksBalance.of_eq (hmarks : s'.marks = s.marks)
    (hcalled : calledMarks s'.trace = calledMarks s.trace)
    (hattached : attachedMarks s'.trace = attachedMarks s.trace) : MarksBalance s s' 0 := by
  rw [MarksBalance, hmarks, hcalled, hattached, add_zero]

theorem MarksBalance.of_resolve {t : Store U} {u : Pid} {callbacks : Callbacks U} {r : Result U}
    (hu : t.heap[u]? = some (.pending callbacks)) (hmarks : t.marks = s.marks)
    (hcalled : calledMarks t.trace = calledMarks s.trace)
    (hattached : attachedMarks t.trace = attachedMarks s.trace) :
    MarksBalance s (t.resolve u callbacks r) 0 := by
  refine .of_eq ((marks_resolve hu r).trans hmarks) ?_ ?_
  · simpa [Store.resolve, Event.calledMarks] using hcalled
  · simpa [Store.resolve, Event.attachedMarks] using hattached

theorem Event.IsNote.marks {e : Event U} (he : e.IsNote) :
    e.attachedMarks = 0 ∧ e.calledMarks = 0 := by
  cases e <;> first | exact he.elim | exact ⟨rfl, rfl⟩

/-- Cancel callbacks are thrown away with the record of a promise that is not canceled, and
in no other way. -/
theorem Act.marks (hwf : s.heap.WellFormed) (hquiet : ¬ g s .drop) (hact : Act g s s') :
    ∃ lost, MarksBalance s s' lost ∧ ∀ mark ∈ lost, ∃ p callbacks r,
      .record p callbacks r ∈ s.work ∧ r.isCanceled = false ∧ mark ∈ callbacks.marks := by
  have hwf' : ∀ how, Heap.WellFormed (s.heap ++ [newPending how]) := fun how =>
    wellFormed_append hwf (isUnderlying_newPending how)
  have hof : ∀ {s₁ : Store U}, MarksBalance s s₁ 0 → ∃ lost, MarksBalance s s₁ lost ∧
      ∀ mark ∈ lost, ∃ p callbacks r, .record p callbacks r ∈ s.work ∧ r.isCanceled = false ∧
        mark ∈ callbacks.marks := fun h => ⟨0, h, by simp⟩
  -- a cancel callback that is called goes from the work to the trace
  have hcall : ∀ {s₁ : Store U} {w : Work U} {mark : Mark}, s.work = w ::ₘ s₁.work →
      heapTotal Callbacks.marks s₁.heap = heapTotal Callbacks.marks s.heap → w.marks = {mark} →
      s₁.trace = .cancelCalled mark :: s.trace → MarksBalance s s₁ 0 := by
    intro s₁ w mark hwork hheap hw htrace
    simp only [MarksBalance, marks_eq, hwork, hheap, hw, htrace, map_cons,
      sum_cons, calledMarks_cons, attachedMarks_cons, Event.calledMarks,
      Event.attachedMarks]
    abel
  cases hact with
  | drop hguard => exact absurd hguard hquiet
  | @runRecord rest p callbacks r hwork =>
    -- the marks of the record are lost unless it is canceled
    refine ⟨if r.isCanceled then 0 else callbacks.marks, ?_, fun mark hmem => ?_⟩
    · simp only [MarksBalance, marks_eq, hwork, Multiset.map_add, sum_add, marks_opened,
        map_cons, sum_cons, Work.marks, calledMarks_cons, attachedMarks_cons,
        Event.calledMarks, Event.attachedMarks, zero_add]
      split <;> abel
    · split at hmem
      · simp at hmem
      · rename_i hcanceled
        exact ⟨p, callbacks, r, by simp [hwork], by simpa using hcanceled, hmem⟩
  | compress hc => exact hof (.of_eq (by simp [marks_eq, heapTotal_compressed hwf hc]) rfl rfl)
  | note he => exact hof (.of_eq rfl (by simp [he.marks]) (by simp [he.marks]))
  | allocResolved r => exact hof (.of_eq (by simp [marks_eq]) rfl rfl)
  | allocInitial hinit =>
    refine hof ?_
    rcases hinit with ⟨rfl, rfl⟩ | ⟨node, rfl, rfl⟩
    · exact .of_eq (by simp [marks_eq, Callbacks.marks, CancelCallbackList.marks]) rfl rfl
    · simp only [MarksBalance, marks_eq, heapTotal_append, lift_pending, Callbacks.marks,
        CancelCallbackList.marks, List.cons_append, List.nil_append, calledMarks_cons,
        attachedMarks_cons, Event.calledMarks, Event.attachedMarks]
      abel
  | attachCompose hu hhow =>
    refine hof (.of_eq ?_ (by simp [Store.attach, Event.calledMarks])
      (by simp [Store.attach, Event.attachedMarks]))
    rw [marks_eq, heapMarks_attach]
    simp [marks_eq, Store.attach, Callbacks.marks, CancelCallbackList.marks]
  | attachObserve hu =>
    refine hof (.of_eq ?_ (by simp [Store.attach, Event.calledMarks])
      (by simp [Store.attach, Event.attachedMarks]))
    rw [marks_eq, heapMarks_attach]
    rfl
  | newCell hkind hadd =>
    refine hof (.of_eq ?_ rfl rfl)
    rw [marks_eq, heapTotal_addCellToEach (hwf' _) (fun _ => rfl) hadd]
    simp [marks_eq, Callbacks.marks, CancelCallbackList.marks]
  | @newProtection p storage h hadd hguard =>
    refine hof ?_
    have hpending : Heap.IsPending (s.heap ++ [newPending .cancelThisPromise]) s.heap.length :=
      ⟨⟨.empty, .empty, .cancelThisPromise, 0⟩, by simp [newPending]⟩
    have hmarks := marks_attachCancel (s := { s with heap := h, cells := s.cells ++
      [Cell.mk .protection s.heap.length [p] true] })
      ((similar_addCellToEach (hwf' _) hadd).isPending hpending) storage
      (.removeTheCallback s.cells.length)
    have hheap : heapTotal Callbacks.marks h = heapTotal Callbacks.marks s.heap := by
      rw [heapTotal_addCellToEach (hwf' _) (fun _ => rfl) hadd]
      simp [Callbacks.marks, CancelCallbackList.marks]
    rw [MarksBalance, hmarks]
    simp only [marks_eq, hheap, Store.attachCancel, calledMarks_cons, attachedMarks_cons,
      Event.calledMarks, Event.attachedMarks, ← singleton_add]
    abel
  | addUserCancel hu =>
    refine hof ?_
    rw [MarksBalance, marks_attachCancel hu]
    simp only [Store.attachCancel, calledMarks_cons, attachedMarks_cons, Event.calledMarks,
      Event.attachedMarks, ← singleton_add]
    abel
  | joinNew =>
    exact hof (.of_eq (by simp [marks_eq, Callbacks.marks, CancelCallbackList.marks]) rfl rfl)
  | joinAttach hjoining hjoin hu =>
    refine hof (.of_eq ?_ (by simp [Store.attach, Event.calledMarks])
      (by simp [Store.attach, Event.attachedMarks]))
    rw [marks_eq, heapMarks_attach]
    rfl
  | joinEndEmpty => exact hof (.of_eq (by simp [marks_eq]) rfl rfl)
  | wake hp hcb => exact hof (.of_resolve hcb rfl rfl rfl)
  | cancelMark hcb hhow => exact hof (.of_resolve hcb rfl rfl rfl)
  | regularEmpty hwork => exact hof (.of_eq (by simp [marks_eq, hwork, Work.marks]) rfl rfl)
  | regularConcat hwork => exact hof (.of_eq (by simp [marks_eq, hwork, Work.marks]) rfl rfl)
  | regularDead hwork => exact hof (.of_eq (by simp [marks_eq, hwork, Work.marks]) rfl rfl)
  | cancelsEmpty hwork =>
    exact hof (.of_eq (by simp [marks_eq, hwork, Work.marks, CancelCallbackList.marks]) rfl rfl)
  | cancelsConcat hwork =>
    exact hof (.of_eq (by simp [marks_eq, hwork, Work.marks, CancelCallbackList.marks, add_assoc])
      rfl rfl)
  | cancelsUser hwork => exact hof (hcall hwork rfl rfl rfl)
  | cancelsNode hwork => exact hof (hcall hwork rfl rfl rfl)
  | @cancelsRemove rest mark storage i hwork hguard =>
    exact hof (hcall hwork (heapMarks_clear hwf i) rfl rfl)
  | callCompose hwork hcallback =>
    exact hof (.of_eq (by simp [marks_eq, hwork, Work.marks]) (by simp [Event.calledMarks])
      (by simp [Event.attachedMarks]))
  | callObserve hwork hcallback =>
    exact hof (.of_eq (by simp [marks_eq, hwork, Work.marks]) (by simp [Event.calledMarks])
      (by simp [Event.attachedMarks]))
  | callJoinNone hwork hcallback =>
    exact hof (.of_eq (by simp [marks_eq, hwork, Work.marks]) (by simp [Event.calledMarks])
      (by simp [Event.attachedMarks]))
  | callJoin hwork hcallback =>
    exact hof (.of_eq (by simp [marks_eq, hwork, Work.marks]) (by simp [Event.calledMarks])
      (by simp [Event.attachedMarks]))
  | callJoinLast hjoining hwork hcallback =>
    exact hof (.of_eq (by simp [marks_eq, hwork, Work.marks]) (by simp [Event.calledMarks])
      (by simp [Event.attachedMarks]))
  | callCell hwork hcell hlive hkind hguard =>
    refine hof (.of_eq ?_ (by simp [Event.calledMarks]) (by simp [Event.attachedMarks]))
    rw [marks_eq, heapMarks_clear hwf]
    simp [marks_eq, hwork]
  | @callProtection rest i cell r h callbacks hwork hcell hlive hkind hguard hc hcb =>
    refine hof (.of_resolve hcb ?_ (by simp [Event.calledMarks])
      (by simp [Event.attachedMarks]))
    rw [marks_eq, heapTotal_compressed ((Store.similar_clear hwf i).wellFormed hwf) hc,
      heapMarks_clear hwf]
    simp [marks_eq, hwork, Work.marks]
  | settle hwork hpromised hcb =>
    exact hof (.of_resolve (t := { s with work := _ }) hcb
      (by simp [marks_eq, hwork, Work.marks]) rfl rfl)
  | settleExact hwork hcb =>
    exact hof (.of_resolve (t := { s with work := _ }) hcb
      (by simp [marks_eq, hwork, Work.marks]) rfl rfl)
  | @link rest target q h callbacks outerCallbacks hwork hc hne hcb houter hguard =>
    refine hof (.of_eq ?_ rfl rfl)
    rw [marks_eq, heapTotal_link hwf hc hne hcb houter
      ((marks_mergeCallbacks s.cells callbacks outerCallbacks).trans (add_comm _ _))]
    simp [marks_eq, hwork, Work.marks]
  | same hwork hroot => exact hof (.of_eq (by simp [marks_eq, hwork, Work.marks]) rfl rfl)
  | _ => exact hof (.of_eq rfl rfl rfl)

/-! ## Where a cancel callback waits -/

/-- Records whose cancel callbacks are the same. -/
def KeepsMarks (_ : Pid) (callbacks callbacks' : Callbacks U) : Prop :=
  callbacks'.marks = callbacks.marks

theorem KeepsMarks.refl (u : Pid) (callbacks : Callbacks U) : KeepsMarks u callbacks callbacks :=
  rfl

theorem KeepsMarks.trans (u : Pid) (c₁ c₂ c₃ : Callbacks U) (h : KeepsMarks u c₁ c₂)
    (h' : KeepsMarks u c₂ c₃) : KeepsMarks u c₁ c₃ :=
  Eq.trans h' h

/-- The cancel callback `mark` waits in the record of `u`. -/
def WaitsIn (h : Heap U) (mark : Mark) (u : Pid) : Prop :=
  ∃ callbacks, h[u]? = some (.pending callbacks) ∧ mark ∈ callbacks.marks

theorem WaitsIn.of_recordwise {h h' : Heap U} {mark : Mark} {u : Pid}
    (hrel : Recordwise KeepsMarks h h') (hw : WaitsIn h' mark u) : WaitsIn h mark u := by
  obtain ⟨callbacks', hu, hmem⟩ := hw
  obtain ⟨callbacks, hcb, hkeeps⟩ := hrel u callbacks' hu
  exact ⟨callbacks, hcb, hkeeps ▸ hmem⟩

theorem WaitsIn.of_append {h : Heap U} {x : State U} {mark : Mark} {u : Pid}
    (hx : ∀ callbacks, x = .pending callbacks → callbacks.marks = 0)
    (hw : WaitsIn (h ++ [x]) mark u) : WaitsIn h mark u := by
  obtain ⟨callbacks, hu, hmem⟩ := hw
  rcases getElem?_append_singleton hu with hold | ⟨-, heq⟩
  · exact ⟨callbacks, hold, hmem⟩
  · rw [hx callbacks heq.symm] at hmem
    simp at hmem

theorem WaitsIn.of_attachCancel {mark : Mark} {u v : Pid} {storage : Storage U}
    {f : CancelCallback U} (hw : WaitsIn (s.attachCancel u storage f).heap mark v) :
    mark = ⟨s.nextNode, u⟩ ∧ v = u ∨ WaitsIn s.heap mark v := by
  obtain ⟨callbacks', hv, hmem⟩ := hw
  simp only [Store.attachCancel, modifyPending] at hv
  split at hv
  · rename_i callbacks hcb
    by_cases huv : u = v
    · subst huv
      rw [List.getElem?_set_self (lt_length_of_getElem? hcb)] at hv
      cases Option.some.inj hv
      rw [marks_addCancelCallback] at hmem
      rcases mem_add.mp hmem with hnew | hold
      · exact .inl ⟨mem_singleton.mp hnew, rfl⟩
      · exact .inr ⟨callbacks, hcb, hold⟩
    · rw [List.getElem?_set_ne huv] at hv
      exact .inr ⟨callbacks', hv, hmem⟩
  · exact .inr ⟨callbacks', hv, hmem⟩

theorem recordwise_clear (hwf : s.heap.WellFormed) (i : ℕ) :
    Recordwise KeepsMarks s.heap (s.clear i).heap :=
  .of_visitEach KeepsMarks.refl KeepsMarks.trans hwf _
    fun _ callbacks => marks_deferOrCleanUp callbacks _

theorem recordwise_attach (s : Store U) (u : Pid) (callback : Callback U) :
    Recordwise KeepsMarks s.heap (s.attach u callback).heap :=
  Recordwise.of_modifyPending (f := addImplicitlyRemovedCallback _) KeepsMarks.refl fun _ => rfl

theorem recordwise_addCellToEach {h h' : Heap U} {c : ℕ} {ps : List Pid} (hwf : h.WellFormed)
    (hadd : addCellToEach c h ps = some h') : Recordwise KeepsMarks h h' :=
  .of_addCellToEach KeepsMarks.refl KeepsMarks.trans hwf (fun _ _ => rfl) hadd

/-- The underlying promise of a promise is that of the promise that was underlying it. -/
theorem Effect.root_root {L : Pid → Pid → Prop} {h h' : Heap U} (hwf : h.WellFormed)
    (he : Effect L h h') (p : Pid) : h'.root (h.root p) = h'.root p := by
  rcases he.root_cases hwf with hroot | ⟨outer, inner, -, -, -, -, hroot⟩
  · rw [hroot, hroot, Heap.root_root hwf]
  · rw [hroot, hroot, Heap.root_root hwf]

/-- A cancel callback is new, or it waited in the record of a promise whose record is now
this one. -/
theorem Act.waitsIn {mark : Mark} {u : Pid} (hwf : s.heap.WellFormed) (hact : Act g s s')
    (hw : WaitsIn s'.heap mark u) :
    (mark = ⟨s.nextNode, u⟩ ∧ s'.nextNode = s.nextNode + 1 ∧
        s'.trace = .cancelAttached mark :: s.trace) ∨
      ∃ v, WaitsIn s.heap mark v ∧ s'.heap.root v = u := by
  -- `u` is pending after the act, so it is its own root
  have hpending : s'.heap.root u = u := by
    obtain ⟨callbacks, hu, -⟩ := hw
    exact root_of_getElem? ((hact.effect hwf).wellFormed hwf) hu trivial
  have hsame : WaitsIn s.heap mark u → (mark = ⟨s.nextNode, u⟩ ∧ s'.nextNode = s.nextNode + 1 ∧
      s'.trace = .cancelAttached mark :: s.trace) ∨
        ∃ v, WaitsIn s.heap mark v ∧ s'.heap.root v = u := fun h => .inr ⟨u, h, hpending⟩
  have hwf' : ∀ how, Heap.WellFormed (s.heap ++ [newPending how]) := fun how =>
    wellFormed_append hwf (isUnderlying_newPending how)
  have hnew : ∀ {how}, WaitsIn (s.heap ++ [newPending how]) mark u → WaitsIn s.heap mark u :=
    fun h => h.of_append (by rintro callbacks heq; cases heq; rfl)
  have hset : ∀ {h : Heap U} {v : Pid} {r : Result U}, WaitsIn (h.set v (.resolved r)) mark u →
      WaitsIn h mark u := fun h => h.of_recordwise (.of_set_other KeepsMarks.refl (by simp))
  have hattach : ∀ {t : Store U} {v : Pid} {callback : Callback U},
      WaitsIn (t.attach v callback).heap mark u → WaitsIn t.heap mark u := fun h =>
    h.of_recordwise (recordwise_attach _ _ _)
  cases hact with
  | compress hc => exact hsame (hw.of_recordwise (.of_compressed KeepsMarks.refl hwf hc))
  | allocResolved r => exact hsame (hw.of_append (by simp))
  | allocInitial hinit =>
    obtain ⟨callbacks, hu, hmem⟩ := hw
    rcases getElem?_append_singleton hu with hold | ⟨rfl, heq⟩
    · exact hsame ⟨callbacks, hold, hmem⟩
    · cases heq
      rcases hinit with ⟨rfl, rfl⟩ | ⟨node, rfl, rfl⟩
      · simp [Callbacks.marks, CancelCallbackList.marks] at hmem
      · obtain rfl : mark = ⟨s.nextNode, s.heap.length⟩ := by
          simpa [Callbacks.marks, CancelCallbackList.marks] using hmem
        exact .inl ⟨rfl, rfl, rfl⟩
  | attachCompose hu hhow => exact hsame (hnew (hattach (t := { s with heap := _ }) hw))
  | attachObserve hu => exact hsame (hattach hw)
  | newCell hkind hadd =>
    exact hsame (hnew (hw.of_recordwise (recordwise_addCellToEach (hwf' _) hadd)))
  | newProtection hadd =>
    rcases hw.of_attachCancel with ⟨rfl, rfl⟩ | hw
    · exact .inl ⟨rfl, rfl, rfl⟩
    · exact hsame (hnew (hw.of_recordwise (recordwise_addCellToEach (hwf' _) hadd)))
  | addUserCancel hu =>
    rcases hw.of_attachCancel with ⟨rfl, rfl⟩ | hw
    · exact .inl ⟨rfl, rfl, rfl⟩
    · exact hsame hw
  | joinNew => exact hsame (hnew hw)
  | joinAttach hjoining hjoin hu => exact hsame (hattach (t := { s with joins := _ }) hw)
  | joinEndEmpty => exact hsame (hw.of_append (by simp))
  | wake hp hcb => exact hsame (hset hw)
  | cancelMark hcb hhow => exact hsame (hset hw)
  | cancelsRemove => exact hsame (hw.of_recordwise (recordwise_clear hwf _))
  | callCell => exact hsame (hw.of_recordwise (recordwise_clear hwf _))
  | @callProtection rest i cell r h callbacks hwork hcell hlive hkind hguard hc hcb =>
    exact hsame (((hset hw).of_recordwise (.of_compressed KeepsMarks.refl
      ((Store.similar_clear hwf i).wellFormed hwf) hc)).of_recordwise (recordwise_clear hwf _))
  | settle hwork hpromised hcb => exact hsame (hset hw)
  | settleExact hwork hcb => exact hsame (hset hw)
  | @link rest target q h callbacks outerCallbacks hwork hc hne hcb houter hguard =>
    obtain ⟨callbacks', hu, hmem⟩ := hw
    have hback : ∀ {v callbacks}, h[v]? = some (.pending callbacks) → mark ∈ callbacks.marks →
        WaitsIn s.heap mark v := fun hv hm =>
      WaitsIn.of_recordwise (.of_compressed KeepsMarks.refl hwf hc) ⟨_, hv, hm⟩
    rcases getElem?_link hcb houter hu with ⟨rfl, rfl⟩ | ⟨-, -, hu⟩
    · have hmerged : mark ∈ outerCallbacks.marks + callbacks.marks := by
        rwa [Callbacks.marks, marks_mergeCallbacks] at hmem
      rcases mem_add.mp hmerged with hm | hm
      · exact hsame (hback houter hm)
      · refine .inr ⟨_, hback hcb hm, ?_⟩
        rw [(link_spec _ hwf hc hne hcb houter).2, Heap.root_root hwf, if_pos rfl]
    · exact hsame (hback hu hmem)
  | _ => exact hsame hw

/-- The work is to call the cancel callback `mark`, if `r` is `Rejected Canceled`. -/
def Work.Cancels (mark : Mark) (r : Result U) : Work U → Prop
  | .record _ callbacks r' => mark ∈ callbacks.marks ∧ r' = r
  | .cancels l => mark ∈ l.marks ∧ r = .rejected .canceled
  | _ => False

theorem not_cancels_owed {h : Heap U} {cell : Cell} {r r' : Result U} {mark : Mark} :
    ¬ (cell.owed h r').Cancels mark r := by
  unfold Cell.owed
  split <;> exact fun h => h

/-- A cancel callback gets into the work when the promise it waits for is resolved, and the
work is then taken apart. -/
theorem Act.cancels {mark : Mark} {r : Result U} {w : Work U} (hwf : s.heap.WellFormed)
    (hact : Act g s s') (hw : w ∈ s'.work) (hmark : w.Cancels mark r) :
    (∃ w₀ ∈ s.work, w₀.Cancels mark r) ∨ ∃ u, WaitsIn s.heap mark u ∧ s'.heap.IsResolved u r := by
  -- the acts that resolve a promise put its record into the work
  have hresolve : ∀ {h : Heap U} {u : Pid} {callbacks : Callbacks U} {r' : Result U},
      h[u]? = some (.pending callbacks) → Recordwise KeepsMarks s.heap h →
      Work.Cancels mark r (.record u callbacks r') →
      WaitsIn s.heap mark u ∧ Heap.IsResolved (h.set u (.resolved r')) u r := by
    rintro h u callbacks r' hu hrel ⟨hmem, rfl⟩
    exact ⟨WaitsIn.of_recordwise hrel ⟨callbacks, hu, hmem⟩,
      List.getElem?_set_self (lt_length_of_getElem? hu)⟩
  have hrefl : Recordwise KeepsMarks s.heap s.heap := .refl KeepsMarks.refl _
  have hold : ∀ {x : Work U}, x ∈ s.work → x.Cancels mark r → (∃ w₀ ∈ s.work,
      w₀.Cancels mark r) ∨ ∃ u, WaitsIn s.heap mark u ∧ s'.heap.IsResolved u r :=
    fun hmem hc => .inl ⟨_, hmem, hc⟩
  have hrest : ∀ {w₁ : Work U} {rest : Multiset (Work U)}, s.work = w₁ ::ₘ rest → w ∈ rest →
      (∃ w₀ ∈ s.work, w₀.Cancels mark r) ∨ ∃ u, WaitsIn s.heap mark u ∧ s'.heap.IsResolved u r :=
    fun hwork hmem => hold (hwork ▸ mem_cons_of_mem hmem) hmark
  cases hact with
  | wake hp hcb =>
    rcases mem_cons.mp hw with rfl | hw
    · exact .inr ⟨_, hresolve hcb hrefl hmark⟩
    · exact hold hw hmark
  | cancelMark hcb hhow =>
    rcases mem_cons.mp hw with rfl | hw
    · exact .inr ⟨_, hresolve hcb hrefl hmark⟩
    · exact hold hw hmark
  | settle hwork hpromised hcb =>
    rcases mem_cons.mp hw with rfl | hw
    · exact .inr ⟨_, hresolve hcb hrefl hmark⟩
    · exact hrest hwork hw
  | settleExact hwork hcb =>
    rcases mem_cons.mp hw with rfl | hw
    · exact .inr ⟨_, hresolve hcb hrefl hmark⟩
    · exact hrest hwork hw
  | @callProtection rest i cell r' h callbacks hwork hcell hlive hkind hguard hc hcb =>
    rcases mem_cons.mp hw with rfl | hw
    · refine .inr ⟨_, hresolve hcb ?_ hmark⟩
      exact (recordwise_clear hwf i).trans KeepsMarks.trans
        (.of_compressed KeepsMarks.refl ((Store.similar_clear hwf i).wellFormed hwf) hc)
    · exact hrest hwork hw
  | @runRecord rest p callbacks r' hwork =>
    rcases mem_add.mp hw with hopened | hmem
    · refine hold (x := .record p callbacks r') (by simp [hwork]) ?_
      simp only [Callbacks.opened] at hopened
      split at hopened
      · rename_i hcanceled
        rcases mem_cons.mp hopened with rfl | hopened
        · obtain ⟨hmem, rfl⟩ := hmark
          exact ⟨hmem, Result.isCanceled_iff.mp hcanceled⟩
        · obtain rfl := mem_singleton.mp hopened
          exact hmark.elim
      · obtain rfl := mem_singleton.mp hopened
        exact hmark.elim
    · exact hrest hwork hmem
  | @cancelsConcat rest l l' hwork =>
    rcases mem_cons.mp hw with rfl | hw
    · exact hold (x := .cancels (.concat l l')) (by simp [hwork])
        ⟨mem_add.mpr (.inl hmark.1), hmark.2⟩
    rcases mem_cons.mp hw with rfl | hw
    · exact hold (x := .cancels (.concat l l')) (by simp [hwork])
        ⟨mem_add.mpr (.inr hmark.1), hmark.2⟩
    · exact hrest hwork hw
  | regularConcat hwork =>
    rcases mem_cons.mp hw with rfl | hw
    · exact hmark.elim
    rcases mem_cons.mp hw with rfl | hw
    · exact hmark.elim
    · exact hrest hwork hw
  | callCompose hwork hcallback =>
    rcases mem_cons.mp hw with rfl | hw
    · exact hmark.elim
    · exact hrest hwork hw
  | callJoinLast hjoining hwork hcallback =>
    rcases mem_cons.mp hw with rfl | hw
    · exact hmark.elim
    · exact hrest hwork hw
  | callCell hwork hcell hlive hkind hguard =>
    rcases mem_cons.mp hw with rfl | hw
    · exact absurd hmark not_cancels_owed
    · exact hrest hwork hw
  | regularEmpty hwork => exact hrest hwork hw
  | regularDead hwork => exact hrest hwork hw
  | cancelsEmpty hwork => exact hrest hwork hw
  | cancelsUser hwork => exact hrest hwork hw
  | cancelsNode hwork => exact hrest hwork hw
  | cancelsRemove hwork => exact hrest hwork hw
  | callObserve hwork => exact hrest hwork hw
  | callJoinNone hwork => exact hrest hwork hw
  | callJoin hwork => exact hrest hwork hw
  | link hwork => exact hrest hwork hw
  | same hwork => exact hrest hwork hw
  | drop hguard hle => exact hold (mem_of_le hle hw) hmark
  | _ => exact hold hw hmark

theorem Act.cancelCalled {mark : Mark} (hact : Act g s s') (hmem : .cancelCalled mark ∈ s'.trace) :
    .cancelCalled mark ∈ s.trace ∨ ∃ w ∈ s.work, w.Cancels mark (.rejected .canceled) := by
  have hcall : ∀ {l : CancelCallbackList U} {mark' : Mark} {rest : Multiset (Work U)},
      s.work = .cancels l ::ₘ rest → l.marks = {mark'} →
      .cancelCalled mark ∈ (.cancelCalled mark' :: s.trace : List (Event U)) →
      .cancelCalled mark ∈ s.trace ∨ ∃ w ∈ s.work, w.Cancels mark (.rejected .canceled) := by
    intro l mark' rest hwork hl hmem
    rcases List.mem_cons.mp hmem with heq | hmem
    · obtain rfl : mark = mark' := by simpa using heq
      exact .inr ⟨.cancels l, by simp [hwork], by simp [hl], rfl⟩
    · exact .inl hmem
  cases hact with
  | cancelsUser hwork => exact hcall hwork rfl hmem
  | cancelsNode hwork => exact hcall hwork rfl hmem
  | cancelsRemove hwork => exact hcall hwork rfl hmem
  | @note e he =>
    rcases List.mem_cons.mp hmem with rfl | hmem
    · exact he.elim
    · exact .inl hmem
  | allocInitial hinit =>
    rcases hinit with ⟨-, rfl⟩ | ⟨node, -, rfl⟩
    · exact .inl hmem
    · exact .inl (by simpa using hmem)
  | _ => first | exact .inl hmem | exact .inl (by simpa [Store.resolve, Store.attach,
      Store.attachCancel] using hmem)

theorem Act.attachedMarks (hact : Act g s s') :
    (attachedMarks s'.trace = attachedMarks s.trace ∧ s.nextNode ≤ s'.nextNode) ∨
      ∃ u, attachedMarks s'.trace = ⟨s.nextNode, u⟩ ::ₘ attachedMarks s.trace ∧
        s'.nextNode = s.nextNode + 1 := by
  cases hact with
  | note he => exact .inl ⟨by simp [he.marks], le_rfl⟩
  | allocInitial hinit =>
    rcases hinit with ⟨-, rfl⟩ | ⟨node, -, rfl⟩
    · exact .inl ⟨rfl, le_rfl⟩
    · exact .inr ⟨s.heap.length, rfl, rfl⟩
  | newProtection => exact .inr ⟨_, rfl, rfl⟩
  | addUserCancel => exact .inr ⟨_, rfl, rfl⟩
  | attachCompose =>
    exact .inl ⟨by simp [Store.attach, Event.attachedMarks], Nat.le_succ _⟩
  | attachObserve =>
    exact .inl ⟨by simp [Store.attach, Event.attachedMarks], Nat.le_succ _⟩
  | joinAttach =>
    exact .inl ⟨by simp [Store.attach, Event.attachedMarks], Nat.le_succ _⟩
  | _ =>
    exact .inl ⟨by simp [Store.resolve, Store.clear, Event.attachedMarks], le_rfl⟩

/-! ## The invariant -/

/-- Every cancel callback has a number of its own, waits in the record of its promise, and
is called only if its promise is canceled. -/
structure Marked (s : Store U) : Prop where
  lt : ∀ mark ∈ attachedMarks s.trace, mark.id < s.nextNode
  nodup : ((attachedMarks s.trace).map Mark.id).Nodup
  waits : ∀ mark u, WaitsIn s.heap mark u → s.heap.root mark.on = u
  due : ∀ w ∈ s.work, ∀ mark r, w.Cancels mark r → s.heap.IsResolved (s.heap.root mark.on) r
  called : ∀ mark, .cancelCalled mark ∈ s.trace →
    s.heap.IsResolved (s.heap.root mark.on) (.rejected .canceled)
  conserved : ∃ lost, attachedMarks s.trace = s.marks + calledMarks s.trace + lost ∧
    ∀ mark ∈ lost, ∃ r, r.isCanceled = false ∧ s.heap.IsResolved (s.heap.root mark.on) r

theorem Act.marked (hwf : s.heap.WellFormed) (hquiet : ¬ g s .drop) (hm : Marked s)
    (hact : Act g s s') : Marked s' := by
  have he := hact.effect hwf
  have hwf' := he.wellFormed hwf
  have hkeep : ∀ {p : Pid} {r : Result U}, s.heap.IsResolved (s.heap.root p) r →
      s'.heap.IsResolved (s'.heap.root p) r := he.isResolved_root hwf
  refine ⟨?_, ?_, fun mark u hw => ?_, fun w hw mark r hc => ?_, fun mark hmem => ?_, ?_⟩
  · intro mark hmem
    rcases hact.attachedMarks with ⟨heq, hle⟩ | ⟨u, heq, hnext⟩
    · rw [heq] at hmem
      exact (hm.lt mark hmem).trans_le hle
    · rw [heq] at hmem
      rw [hnext]
      rcases mem_cons.mp hmem with rfl | hmem
      · exact Nat.lt_succ_self _
      · exact Nat.lt_succ_of_lt (hm.lt mark hmem)
  · rcases hact.attachedMarks with ⟨heq, hle⟩ | ⟨u, heq, hnext⟩
    · rw [heq]
      exact hm.nodup
    · rw [heq, map_cons, nodup_cons]
      refine ⟨fun hmem => ?_, hm.nodup⟩
      obtain ⟨mark, hmark, hid⟩ := mem_map.mp hmem
      exact absurd hid (hm.lt mark hmark).ne
  · rcases hact.waitsIn hwf hw with ⟨rfl, -⟩ | ⟨v, hv, hroot⟩
    · obtain ⟨callbacks, hu, -⟩ := hw
      exact root_of_getElem? hwf' hu trivial
    · rw [← he.root_root hwf, hm.waits mark v hv, hroot]
  · rcases hact.cancels hwf hw hc with ⟨w₀, hw₀, hc₀⟩ | ⟨u, hu, hr⟩
    · exact hkeep (hm.due w₀ hw₀ mark r hc₀)
    · rw [← he.root_root hwf, hm.waits mark u hu, root_of_getElem? hwf' hr trivial]
      exact hr
  · rcases hact.cancelCalled hmem with hold | ⟨w, hw, hc⟩
    · exact hkeep (hm.called mark hold)
    · exact hkeep (hm.due w hw mark _ hc)
  · obtain ⟨lost, heq, hlost⟩ := hm.conserved
    obtain ⟨new, hbalance, hnew⟩ := hact.marks hwf hquiet
    refine ⟨new + lost, ?_, fun mark hmem => ?_⟩
    · rw [MarksBalance, heq] at hbalance
      refine add_left_cancel (a := s.marks + calledMarks s.trace) ?_
      rw [← hbalance]
      abel
    · rcases mem_add.mp hmem with hmem | hmem
      · obtain ⟨p, callbacks, r, hw, hr, hmark⟩ := hnew mark hmem
        exact ⟨r, hr, hkeep (hm.due _ hw mark r ⟨hmark, rfl⟩)⟩
      · obtain ⟨r, hr, hres⟩ := hlost mark hmem
        exact ⟨r, hr, hkeep hres⟩

theorem marked_initial (main hook : U) : Marked (initial main hook).store := by
  refine ⟨?_, ?_, ?_, ?_, ?_, 0, ?_, ?_⟩
  · simp [initial, Config.store, attachedMarks]
  · simp [initial, Config.store, attachedMarks]
  · rintro mark u ⟨callbacks, hu, -⟩
    simp [initial, Config.store] at hu
  · simp [initial, Config.store, queueWork]
  · simp [initial, Config.store]
  · simp [marks_eq, initial, Config.store, attachedMarks, calledMarks, heapTotal, queueWork]
  · simp

/-- No exception breaks a loop. -/
def quietGuard : Guard U := fun _ hazard => hazard ≠ .drop

theorem permits_quietGuard {c : Config U} {a : Label U} (hquiet : c.quiet = true) :
    c.Permits quietGuard a := by
  unfold Config.Permits
  split
  · rename_i v frame stack hcontrol hstack
    unfold Frame.Permits
    split
    · exact fun _ => Hazard.noConfusion
    · exact Hazard.noConfusion
    · exact fun _ _ _ _ => Hazard.noConfusion
    · trivial
  · rename_i e frame stack hcontrol hstack
    intro hbreaks
    simp [Config.quiet, hcontrol, hstack, hbreaks] at hquiet
  · unfold Label.Permits
    split
    · exact fun _ => Hazard.noConfusion
    · trivial
  · trivial

theorem mem_attachedMarks {trace : List (Event U)} {mark : Mark} :
    mark ∈ attachedMarks trace ↔ .cancelAttached mark ∈ trace := by
  rw [attachedMarks, mem_total]
  constructor
  · rintro ⟨i, e, hget, hmem⟩
    cases e <;> simp_all [Event.attachedMarks]
    exact List.mem_of_getElem? hget
  · intro hmem
    obtain ⟨i, hget⟩ := List.getElem?_of_mem hmem
    exact ⟨i, _, hget, by simp [Event.attachedMarks]⟩

theorem mem_calledMarks {trace : List (Event U)} {mark : Mark} :
    mark ∈ calledMarks trace ↔ .cancelCalled mark ∈ trace := by
  rw [calledMarks, mem_total]
  constructor
  · rintro ⟨i, e, hget, hmem⟩
    cases e <;> simp_all [Event.calledMarks]
    exact List.mem_of_getElem? hget
  · intro hmem
    obtain ⟨i, hget⟩ := List.getElem?_of_mem hmem
    exact ⟨i, _, hget, by simp [Event.calledMarks]⟩

/-- A cancel callback that has been attached waits in a record, is in the work, has been
called, or belonged to a promise that was not canceled. -/
theorem Marked.cases (hm : Marked s) {mark : Mark} (hmark : .cancelAttached mark ∈ s.trace) :
    (∃ u, WaitsIn s.heap mark u) ∨ (∃ w ∈ s.work, mark ∈ w.marks) ∨
      .cancelCalled mark ∈ s.trace ∨
      ∃ r, r.isCanceled = false ∧ s.heap.IsResolved (s.heap.root mark.on) r := by
  obtain ⟨lost, heq, hlost⟩ := hm.conserved
  have hmem := mem_attachedMarks.mpr hmark
  rw [heq] at hmem
  rcases mem_add.mp hmem with hmem | hmem
  · rcases mem_add.mp hmem with hmem | hmem
    · rcases mem_add.mp hmem with hmem | hmem
      · obtain ⟨u, st, hget, hmem⟩ := mem_total.mp hmem
        cases st with
        | pending callbacks => exact .inl ⟨u, callbacks, hget, hmem⟩
        | resolved r => simp [State.lift] at hmem
        | proxy q => simp [State.lift] at hmem
      · have hbind : mark ∈ s.work.bind Work.marks := hmem
        exact .inr (.inl (mem_bind.mp hbind))
    · exact .inr (.inr (.inl (mem_calledMarks.mp hmem)))
  · exact .inr (.inr (.inr (hlost mark hmem)))

theorem exists_cancels {w : Work U} {mark : Mark} (hmem : mark ∈ w.marks) :
    ∃ r, w.Cancels mark r := by
  cases w with
  | record p callbacks r => exact ⟨r, hmem, rfl⟩
  | cancels l => exact ⟨_, hmem, rfl⟩
  | _ => simp [Work.marks] at hmem

end Lwt
