import Lwt.Promise.Safety

/-!
# Every callback is called once, with the result of its promise

`Act.nodes` counts: the callbacks attached so far are those still waiting and those that
have been called.  `Placed` says where a waiting callback is: in the record of the
underlying promise of the promise it was attached to, or, once that promise is resolved,
in work that is going to call it with its result.  When no loop is under way there is no
work left, so that every callback of a resolved promise has been called.
-/

namespace Lwt

open Heap Table Transition Multiset

variable {U : Type} {g : Guard U} {s s' : Store U}

/-! ## Callbacks are told apart -/

/-- Every attachment gets a number of its own. -/
structure Numbered (s : Store U) : Prop where
  lt : ∀ node ∈ attachedNodes s.trace, node.id < s.nextNode
  nodup : ((attachedNodes s.trace).map Node.id).Nodup

theorem Numbered.attach (hn : Numbered s) (u : Pid) (callback : Callback U) :
    Numbered (s.attach u callback) := by
  have htrace : attachedNodes (s.attach u callback).trace =
      ⟨s.nextNode, u, callback⟩ ::ₘ attachedNodes s.trace := by
    simp [Store.attach]
  constructor
  · intro node hmem
    rw [htrace] at hmem
    rcases mem_cons.mp hmem with rfl | hmem
    · exact Nat.lt_succ_self _
    · exact Nat.lt_succ_of_lt (hn.lt node hmem)
  · rw [htrace, map_cons, nodup_cons]
    refine ⟨fun hmem => ?_, hn.nodup⟩
    obtain ⟨node, hnode, hid⟩ := mem_map.mp hmem
    exact absurd hid (hn.lt node hnode).ne

theorem Numbered.congr (hn : Numbered s) (htrace : attachedNodes s'.trace = attachedNodes s.trace)
    (hnext : s.nextNode ≤ s'.nextNode) : Numbered s' := by
  refine ⟨fun node hnode => ?_, by rw [htrace]; exact hn.nodup⟩
  rw [htrace] at hnode
  exact (hn.lt node hnode).trans_le hnext

theorem Act.numbered (hn : Numbered s) (hact : Act g s s') : Numbered s' := by
  cases hact with
  | attachCompose =>
    refine Numbered.attach ?_ _ _
    exact ⟨hn.lt, hn.nodup⟩
  | attachObserve => exact hn.attach _ _
  | joinAttach =>
    refine Numbered.attach ?_ _ _
    exact ⟨hn.lt, hn.nodup⟩
  | note he => exact hn.congr (by simp [he.nodes]) le_rfl
  | allocInitial hinit => exact hn.congr (hinit.nodes _).1 (Nat.le_add_right _ _)
  | newProtection => exact hn.congr (by simp) (Nat.le_succ _)
  | addUserCancel => exact hn.congr (by simp) (Nat.le_succ _)
  | _ => exact hn.congr (by simp [Store.resolve, Store.clear]) le_rfl

/-- No callback is lost or duplicated. -/
def Conserved (s : Store U) : Prop := attachedNodes s.trace = s.nodes + calledNodes s.trace

theorem Act.conserved (hwf : s.heap.WellFormed) (hquiet : ¬ g s .drop) (hc : Conserved s)
    (hact : Act g s s') : Conserved s' := by
  rcases hact.nodes hwf with ⟨hdrop, -⟩ | heq
  · exact absurd hdrop hquiet
  · rw [Conserved] at hc ⊢
    rw [hc, add_comm (s'.nodes + _)] at heq
    exact (add_left_cancel heq).symm

/-! ## Where a callback waits -/

/-- The promise that the callback was attached to is resolved with `r`. -/
def Delivers (h : Heap U) (r : Result U) (node : Node U) : Prop :=
  h.IsResolved (h.root node.on) r

/-- The callbacks in work are going to be called with the results of their promises. -/
def Work.Due (h : Heap U) : Work U → Prop
  | .record _ callbacks r => ∀ node ∈ callbacks.nodes, Delivers h r node
  | .regular l r => ∀ node ∈ l.nodes, Delivers h r node
  | _ => True

/-- Waiting callbacks are where they belong, and called ones got the right result. -/
structure Placed (s : Store U) : Prop where
  attached : ∀ u callbacks, s.heap[u]? = some (.pending callbacks) →
    ∀ node ∈ callbacks.nodes, s.heap.root node.on = u
  due : ∀ w ∈ s.work, w.Due s.heap
  called : ∀ node r, .called node r ∈ s.trace → Delivers s.heap r node

theorem Effect.delivers {L : Pid → Pid → Prop} {h h' : Heap U} {r : Result U} {node : Node U}
    (hwf : h.WellFormed) (he : Effect L h h') (hd : Delivers h r node) : Delivers h' r node := by
  rcases he.root_cases hwf with hroot | ⟨outer, inner, -, -, ⟨callbacks, hinner⟩, -, hroot⟩
  · rw [Delivers, hroot]
    exact he.isResolved hd
  · have hne : h.root node.on ≠ inner := by
      rintro rfl
      simp [Delivers, IsResolved, hinner] at hd
    rw [Delivers, hroot, if_neg hne]
    exact he.isResolved hd

theorem Effect.due {L : Pid → Pid → Prop} {h h' : Heap U} {w : Work U} (hwf : h.WellFormed)
    (he : Effect L h h') (hd : w.Due h) : w.Due h' := by
  cases w with
  | record p callbacks r => exact fun node hnode => he.delivers hwf (hd node hnode)
  | regular l r => exact fun node hnode => he.delivers hwf (hd node hnode)
  | _ => trivial

/-- A callback in a record of `h'` is in the record that the same promise has in `h`. -/
def NodesWithin (h h' : Heap U) : Prop :=
  ∀ (u : Pid) (callbacks' : Callbacks U), h'[u]? = some (.pending callbacks') →
  ∀ node ∈ callbacks'.nodes,
    ∃ callbacks : Callbacks U, h[u]? = some (.pending callbacks) ∧ node ∈ callbacks.nodes

theorem NodesWithin.trans {h h' h'' : Heap U} (hn : NodesWithin h h') (hn' : NodesWithin h' h'') :
    NodesWithin h h'' := by
  intro u callbacks'' hu node hnode
  obtain ⟨callbacks', hcb', hnode'⟩ := hn' u callbacks'' hu node hnode
  exact hn u callbacks' hcb' node hnode'

/-- The record keeps its callbacks. -/
def KeepsNodes (_ : Pid) (callbacks callbacks' : Callbacks U) : Prop :=
  callbacks'.nodes = callbacks.nodes

theorem KeepsNodes.refl (u : Pid) (callbacks : Callbacks U) : KeepsNodes u callbacks callbacks :=
  rfl

theorem KeepsNodes.trans (u : Pid) (c₁ c₂ c₃ : Callbacks U) (h : KeepsNodes u c₁ c₂)
    (h' : KeepsNodes u c₂ c₃) : KeepsNodes u c₁ c₃ :=
  Eq.trans h' h

theorem NodesWithin.of_recordwise {h h' : Heap U} (hrel : Recordwise KeepsNodes h h') :
    NodesWithin h h' := by
  intro u callbacks' hu node hnode
  obtain ⟨callbacks, hcb, heq⟩ := hrel u callbacks' hu
  rw [heq] at hnode
  exact ⟨callbacks, hcb, hnode⟩

theorem NodesWithin.append {h : Heap U} {x : State U}
    (hx : ∀ callbacks, x = .pending callbacks → callbacks.nodes = 0) : NodesWithin h
    (h ++ [x]) := by
  intro u callbacks hu node hnode
  rcases getElem?_append_singleton hu with hold | ⟨rfl, hnew⟩
  · exact ⟨callbacks, hold, hnode⟩
  · rw [hx callbacks hnew.symm] at hnode
    simp at hnode

theorem NodesWithin.set_other {h : Heap U} {u : Pid} {x : State U}
    (hx : ∀ callbacks, x ≠ .pending callbacks) : NodesWithin h (h.set u x) :=
  .of_recordwise (.of_set_other KeepsNodes.refl hx)

theorem nodesWithin_clear (hwf : s.heap.WellFormed) (i : ℕ) :
    NodesWithin s.heap (s.clear i).heap :=
  .of_recordwise (.of_visitEach KeepsNodes.refl KeepsNodes.trans hwf _
    fun _ callbacks => nodes_deferOrCleanUp _ callbacks)

theorem nodesWithin_addCellToEach {h h' : Heap U} {c : ℕ} {ps : List Pid} (hwf : h.WellFormed)
    (hadd : addCellToEach c h ps = some h') : NodesWithin h h' := by
  refine .of_recordwise (.of_addCellToEach KeepsNodes.refl KeepsNodes.trans hwf
    (fun _ callbacks => ?_) hadd)
  simp [KeepsNodes, Callbacks.nodes, RegularCallbackList.nodes]

theorem nodesWithin_addCancelCallback (h : Heap U) (u : Pid) (mark : Mark) (storage : Storage U)
    (f : CancelCallback U) : NodesWithin h (h.modifyPending u (addCancelCallback mark storage f)) :=
  .of_recordwise (.of_modifyPending KeepsNodes.refl fun _ => rfl)

/-- An act that attaches no callback and links nothing. -/
theorem Placed.of_nodesWithin {L : Pid → Pid → Prop} (hwf : s.heap.WellFormed) (hp : Placed s)
    (he : Effect L s.heap s'.heap) (hroot : ∀ p, s'.heap.root p = s.heap.root p)
    (hnodes : NodesWithin s.heap s'.heap) (hdue : ∀ w ∈ s'.work, w ∈ s.work ∨ w.Due s'.heap)
    (hcalled : ∀ node r, .called node r ∈ s'.trace →
      .called node r ∈ s.trace ∨ Delivers s'.heap r node) : Placed s' := by
  refine ⟨fun u callbacks' hu node hnode => ?_, fun w hw => ?_, fun node r hmem => ?_⟩
  · obtain ⟨callbacks, hcb, hnode'⟩ := hnodes u callbacks' hu node hnode
    rw [hroot]
    exact hp.attached u callbacks hcb node hnode'
  · rcases hdue w hw with hold | hnew
    · exact he.due hwf (hp.due w hold)
    · exact hnew
  · rcases hcalled node r hmem with hold | hnew
    · exact he.delivers hwf (hp.called node r hold)
    · exact hnew

theorem Placed.of_heap {h : Heap U} (hwf : s.heap.WellFormed) (hp : Placed s)
    (he : Effect (fun _ _ => False) s.heap h) (hnodes : NodesWithin s.heap h)
    (hheap : s'.heap = h) (hwork : s'.work = s.work)
    (hcalled : ∀ node r, .called node r ∈ s'.trace → .called node r ∈ s.trace) : Placed s' := by
  subst hheap
  refine hp.of_nodesWithin hwf he ?_ hnodes (fun w hw => .inl (hwork ▸ hw))
    fun node r hmem => .inl (hcalled node r hmem)
  rcases he.root_cases hwf with hroot | ⟨_, _, hfalse, _⟩
  · exact hroot
  · exact hfalse.elim

theorem Placed.attach {u : Pid} (hwf : s.heap.WellFormed) (hp : Placed s)
    (hu : s.heap.IsPending u) (callback : Callback U) : Placed (s.attach u callback) := by
  have hsim := Store.similar_attach s u callback
  have he : Effect (fun _ _ => False) s.heap (s.attach u callback).heap := .similar hsim
  refine ⟨fun v callbacks' hv node hnode => ?_, fun w hw => he.due hwf (hp.due w hw),
    fun node r hmem => ?_⟩
  · rw [hsim.root_eq hwf]
    obtain ⟨callbacks, hcb⟩ := hu
    simp only [Store.attach, modifyPending, hcb] at hv
    by_cases huv : u = v
    · subst huv
      rw [List.getElem?_set_self (lt_length_of_getElem? hcb)] at hv
      cases Option.some.inj hv
      rw [Callbacks.nodes, addImplicitlyRemovedCallback, nodes_addRegularCallbackListNode] at hnode
      rcases mem_add.mp hnode with hnew | hold
      · obtain rfl := mem_singleton.mp hnew
        exact IsPending.root_eq hwf ⟨callbacks, hcb⟩
      · exact hp.attached u callbacks hcb node hold
    · rw [List.getElem?_set_ne huv] at hv
      exact hp.attached v callbacks' hv node hnode
  · rcases List.mem_cons.mp hmem with heq | hmem
    · simp at heq
    · exact he.delivers hwf (hp.called node r hmem)

theorem Placed.resolve {u : Pid} {callbacks : Callbacks U} (hwf : s.heap.WellFormed)
    (hp : Placed s) (hu : s.heap[u]? = some (.pending callbacks)) (r : Result U) :
    Placed (s.resolve u callbacks r) := by
  have he : Effect (fun _ _ => False) s.heap (s.resolve u callbacks r).heap :=
    .resolve (.refl _) hu
  have hroot : ∀ p, (s.resolve u callbacks r).heap.root p = s.heap.root p :=
    root_set hwf hu trivial trivial
  refine hp.of_nodesWithin hwf he hroot (.set_other (by simp)) (fun w hw => ?_)
    fun node r' hmem => .inl ?_
  · rcases mem_cons.mp hw with rfl | hw
    · refine .inr fun node hnode => ?_
      rw [Delivers, hroot, hp.attached u callbacks hu node hnode]
      exact List.getElem?_set_self (lt_length_of_getElem? hu)
    · exact .inl hw
  · simpa [Store.resolve] using hmem

theorem Placed.of_work {work : Multiset (Work U)} {trace : List (Event U)} (hp : Placed s)
    (hdue : ∀ w ∈ work, w ∈ s.work ∨ w.Due s.heap)
    (hcalled : ∀ node r, .called node r ∈ trace →
      .called node r ∈ s.trace ∨ Delivers s.heap r node) :
    Placed { s with work := work, trace := trace } := by
  refine ⟨hp.attached, fun w hw => ?_, fun node r hmem => ?_⟩
  · rcases hdue w hw with hold | hnew
    · exact hp.due w hold
    · exact hnew
  · rcases hcalled node r hmem with hold | hnew
    · exact hp.called node r hold
    · exact hnew

theorem Placed.call {rest work : Multiset (Work U)} {node : Node U} {r : Result U} (hp : Placed s)
    (hwork : s.work = .regular (.implicitlyRemoved node) r ::ₘ rest)
    (hrest : ∀ w ∈ work, w ∈ rest ∨ w.Due s.heap) :
    Placed { s with work := work, trace := .called node r :: s.trace } := by
  have hdue : Delivers s.heap r node :=
    hp.due (.regular (.implicitlyRemoved node) r) (by simp [hwork]) node
      (by simp [RegularCallbackList.nodes])
  refine hp.of_work (fun w hw => (hrest w hw).imp_left fun hold => ?_) fun node' r' hmem => ?_
  · rw [hwork]
    exact mem_cons_of_mem hold
  · rcases List.mem_cons.mp hmem with heq | hold
    · obtain ⟨rfl, rfl⟩ : node' = node ∧ r' = r := by simpa using heq
      exact .inr hdue
    · exact .inl hold

theorem Placed.clear (hwf : s.heap.WellFormed) (hp : Placed s) (i : ℕ) : Placed (s.clear i) :=
  hp.of_heap hwf (.similar (Store.similar_clear hwf i)) (nodesWithin_clear hwf i) rfl rfl fun _ _ =>
  id

theorem Placed.link {h : Heap U} {outer inner : Pid} {callbacks outerCallbacks : Callbacks U}
    {how : HowToCancel} {rest : Multiset (Work U)} (hwf : s.heap.WellFormed) (hp : Placed s)
    (hc : Compressed s.heap h) (hne : inner ≠ outer)
    (hinner : h[inner]? = some (.pending callbacks))
    (houter : h[outer]? = some (.pending outerCallbacks))
    (he : Effect (fun _ _ => True) s.heap ((h.set outer (.pending
      { mergeCallbacks s.cells callbacks outerCallbacks with howToCancel := how })).set inner
        (.proxy outer)))
    (hrest : rest ≤ s.work) :
    Placed { s with
      heap := (h.set outer (.pending
        { mergeCallbacks s.cells callbacks outerCallbacks with howToCancel := how })).set inner
          (.proxy outer)
      work := rest } := by
  obtain ⟨-, hroot⟩ := link_spec
    { mergeCallbacks s.cells callbacks outerCallbacks with howToCancel := how } hwf hc hne hinner
      houter
  have hplaced : ∀ u callbacks, h[u]? = some (.pending callbacks) → ∀ node ∈ callbacks.nodes,
      s.heap.root node.on = u := by
    intro u callbacks hu node hnode
    obtain ⟨callbacks', hcb, hnode'⟩ :=
      NodesWithin.of_recordwise (.of_compressed KeepsNodes.refl hwf hc) u callbacks hu node hnode
    exact hp.attached u callbacks' hcb node hnode'
  refine ⟨fun u callbacks' hu node hnode => ?_, fun w hw => ?_, fun node r hmem => ?_⟩
  · rw [hroot]
    by_cases hi : inner = u
    · subst hi
      rw [List.getElem?_set_self (by simpa using lt_length_of_getElem? hinner)] at hu
      simp at hu
    · rw [List.getElem?_set_ne hi] at hu
      by_cases ho : outer = u
      · subst ho
        rw [List.getElem?_set_self (lt_length_of_getElem? houter)] at hu
        cases Option.some.inj hu
        rw [Callbacks.nodes, nodes_mergeCallbacks] at hnode
        rcases mem_add.mp hnode with hnode | hnode
        · rw [hplaced outer _ houter node hnode, if_neg hne.symm]
        · rw [hplaced inner _ hinner node hnode, if_pos rfl]
      · rw [List.getElem?_set_ne ho] at hu
        rw [hplaced u callbacks' hu node hnode, if_neg (Ne.symm hi)]
  · exact he.due hwf (hp.due w (mem_of_le hrest hw))
  · exact he.delivers hwf (hp.called node r hmem)

theorem Act.placed (hwf : s.heap.WellFormed) (hp : Placed s) (hact : Act g s s') : Placed s' := by
  have hwf' : ∀ how, Heap.WellFormed (s.heap ++ [newPending how]) := fun how =>
    wellFormed_append hwf (isUnderlying_newPending how)
  have hnew : ∀ how, NodesWithin s.heap (s.heap ++ [newPending how]) := fun how =>
    .append (by rintro callbacks heq; cases heq; rfl)
  cases hact with
  | compress hc =>
    exact hp.of_heap hwf (.similar hc.similar)
      (.of_recordwise (.of_compressed KeepsNodes.refl hwf hc)) rfl rfl fun _ _ => id
  | @note e he =>
    refine hp.of_work (fun w hw => .inl hw) fun node r hmem => .inl ?_
    rcases List.mem_cons.mp hmem with rfl | hmem
    · exact he.elim
    · exact hmem
  | allocResolved r =>
    exact hp.of_heap hwf (.alloc (x := .resolved r) trivial (.refl _))
      (.append (by simp)) rfl rfl fun _ _ => id
  | allocInitial hinit =>
    refine hp.of_heap hwf (.alloc (x := .pending _) trivial (.refl _))
      (.append (by rintro callbacks heq; cases heq; rfl)) rfl rfl fun node r hmem => ?_
    rcases hinit with ⟨-, rfl⟩ | ⟨node', -, rfl⟩
    · exact hmem
    · simpa using hmem
  | attachCompose hu hhow =>
    refine Placed.attach (s := { s with heap := s.heap ++ [newPending _] })
      (hwf' _) ?_ hu.append _
    exact hp.of_heap hwf (.alloc (x := newPending _) trivial (.refl _))
      (hnew _) rfl rfl fun _ _ => id
  | attachObserve hu => exact hp.attach hwf hu _
  | newCell hkind hadd =>
    exact hp.of_heap hwf
      (.alloc (x := newPending _) trivial (similar_addCellToEach (hwf' _) hadd))
      ((hnew _).trans (nodesWithin_addCellToEach (hwf' _) hadd)) rfl rfl fun _ _ => id
  | newProtection hadd =>
    refine hp.of_heap hwf (.alloc (x := newPending .cancelThisPromise) trivial
      ((similar_addCellToEach (hwf' _) hadd).trans
        (Store.similar_attachCancel { s with heap := _, cells := _ } _ _ _))) ?_ rfl rfl ?_
    · exact ((hnew _).trans (nodesWithin_addCellToEach (hwf' _) hadd)).trans
        (nodesWithin_addCancelCallback _ _ _ _ _)
    · simp [Store.attachCancel]
  | addUserCancel =>
    exact hp.of_heap hwf (.similar (Store.similar_attachCancel s _ _ _))
      (nodesWithin_addCancelCallback _ _ _ _ _) rfl rfl (by simp [Store.attachCancel])
  | joinNew =>
    exact hp.of_heap hwf (.alloc (x := newPending _) trivial (.refl _))
      (hnew _) rfl rfl fun _ _ => id
  | joinAttach hjoining hjoin hu =>
    exact Placed.attach (s := { s with joins := s.joins.set _ _ }) hwf
      ⟨hp.attached, hp.due, hp.called⟩ hu _
  | joinEndEmpty =>
    exact hp.of_heap hwf (.alloc (x := .resolved _) trivial (.refl _)) (.append (by simp))
      rfl rfl fun _ _ => id
  | wake hmem hcb => exact hp.resolve hwf hcb _
  | cancelMark hcb hhow => exact hp.resolve hwf hcb _
  | @runRecord rest p callbacks r hwork =>
    -- the cancel callbacks of a record are opened only if it is canceled
    have hdue : ∀ node ∈ callbacks.nodes, Delivers s.heap r node :=
      hp.due (.record p callbacks r) (by simp [hwork])
    refine hp.of_work (fun w hw => ?_) fun node r' hmem => .inl (by simpa using hmem)
    rcases mem_add.mp hw with hopened | hrest
    · refine .inr ?_
      simp only [Callbacks.opened] at hopened
      split at hopened
      · rcases mem_cons.mp hopened with rfl | hmem
        · trivial
        · obtain rfl := mem_singleton.mp hmem
          exact hdue
      · obtain rfl := mem_singleton.mp hopened
        exact hdue
    · exact .inl (by simp [hwork, hrest])
  | regularEmpty hwork =>
    exact hp.of_work (fun w hw => .inl (by simp [hwork, hw])) fun _ _ => .inl
  | @regularConcat rest l l' r hwork =>
    have hdue : ∀ node ∈ (RegularCallbackList.concat l l').nodes, Delivers s.heap r node :=
      hp.due (.regular (.concat l l') r) (by simp [hwork])
    refine hp.of_work (fun w hw => ?_) fun _ _ => .inl
    rcases mem_cons.mp hw with rfl | hw
    · exact .inr fun node hnode => hdue node (mem_add.mpr (.inl hnode))
    rcases mem_cons.mp hw with rfl | hw
    · exact .inr fun node hnode => hdue node (mem_add.mpr (.inr hnode))
    · exact .inl (by simp [hwork, hw])
  | regularDead hwork =>
    exact hp.of_work (fun w hw => .inl (by simp [hwork, hw])) fun _ _ => .inl
  | cancelsEmpty hwork =>
    exact hp.of_work (fun w hw => .inl (by simp [hwork, hw])) fun _ _ => .inl
  | cancelsConcat hwork =>
    refine hp.of_work (fun w hw => ?_) fun _ _ => .inl
    rcases mem_cons.mp hw with rfl | hw
    · exact .inr trivial
    rcases mem_cons.mp hw with rfl | hw
    · exact .inr trivial
    · exact .inl (by simp [hwork, hw])
  | cancelsUser hwork =>
    exact hp.of_work (fun w hw => .inl (by simp [hwork, hw]))
      fun _ _ hmem => .inl (by simpa using hmem)
  | cancelsNode hwork =>
    exact hp.of_work (fun w hw => .inl (by simp [hwork, hw]))
      fun _ _ hmem => .inl (by simpa using hmem)
  | @cancelsRemove rest mark storage i hwork hguard =>
    refine (hp.clear hwf i).of_work (fun w hw => .inl ?_) fun _ _ hmem => .inl ?_
    · simp [Store.clear, hwork, hw]
    · simpa [Store.clear] using hmem
  | callCompose hwork hcallback =>
    refine hp.call hwork fun w hw => ?_
    rcases mem_cons.mp hw with rfl | hw
    · exact .inr trivial
    · exact .inl hw
  | callObserve hwork hcallback => exact hp.call hwork fun w hw => .inl hw
  | callJoinNone hwork hcallback => exact hp.call hwork fun w hw => .inl hw
  | callJoin hwork hcallback =>
    have hcalled := hp.call hwork fun w hw => .inl hw
    exact ⟨hcalled.attached, hcalled.due, hcalled.called⟩
  | @callJoinLast rest node j r x join hjoining hwork hcallback =>
    -- the last member: what the join owes is new work
    have hcalled : Placed { s with
        work := .owe join.target (some x) ::ₘ rest, trace := .called node r :: s.trace } := by
      refine hp.call hwork fun w hw => ?_
      rcases mem_cons.mp hw with rfl | hw
      · exact .inr trivial
      · exact .inl hw
    exact ⟨hcalled.attached, hcalled.due, hcalled.called⟩
  | @callCell rest i cell r hwork hcell hlive hkind hguard =>
    -- what the cell owes is new work
    refine (hp.clear hwf i).of_work (fun w hw => ?_) fun node r' hmem => .inl ?_
    · rcases mem_cons.mp hw with rfl | hw
      · refine .inr ?_
        unfold Cell.owed
        split <;> trivial
      · exact .inl (by simp [Store.clear, hwork, hw])
    · simpa [Store.clear] using hmem
  | @callProtection rest i cell r h callbacks hwork hcell hlive hkind hguard hc hcb =>
    -- the cell is cleared and its promise is found, before it is resolved
    have hclear := hp.clear hwf i
    have hwf₁ := (Store.similar_clear hwf i).wellFormed hwf
    have hcomp : Placed { s.clear i with heap := h } :=
      hclear.of_heap hwf₁ (.similar hc.similar)
        (.of_recordwise (.of_compressed KeepsNodes.refl hwf₁ hc)) rfl rfl fun _ _ => id
    refine Placed.resolve (hc.wellFormed hwf₁) ?_ hcb r
    refine hcomp.of_work (fun w hw => .inl ?_) fun node r' hmem => .inl ?_
    · simp [Store.clear, hwork, hw]
    · simpa [Store.clear] using hmem
  | @settle rest target promised r callbacks hwork hpromised hcb =>
    have hrest : Placed { s with work := rest } :=
      hp.of_work (fun w hw => .inl (by simp [hwork, hw])) fun _ _ => .inl
    exact Placed.resolve (s := { s with work := rest }) hwf hrest hcb r
  | @settleExact rest p r callbacks hwork hcb =>
    have hrest : Placed { s with work := rest } :=
      hp.of_work (fun w hw => .inl (by simp [hwork, hw])) fun _ _ => .inl
    exact Placed.resolve (s := { s with work := rest }) hwf hrest hcb r
  | link hwork hc hne hcb houter hguard =>
    refine hp.link hwf hc hne hcb houter ?_ (hwork ▸ le_cons_self _ _)
    exact .link trivial hc hne (root_root hwf _) (root_root hwf _) hcb houter rfl
  | same hwork hroot =>
    exact hp.of_work (fun w hw => .inl (by simp [hwork, hw])) fun _ _ => .inl
  | drop hguard hle =>
    exact hp.of_work (fun w hw => .inl (mem_of_le hle hw)) fun _ _ => .inl
  | _ => exact ⟨hp.attached, hp.due, hp.called⟩

/-! ## Runs without `protected` -/

/-- The move is a call of `protected`. -/
def Label.protects : Label U → Bool
  | .move (.call (.protected' _) _) => true
  | _ => false

/-- No exception breaks a loop, `protected` is not called, and no promise is linked that
an `npick` holds on to. -/
def deliveryGuard : Guard U := fun s hazard =>
  match hazard with
  | .link _ inner => ∀ r, .oweExact inner r ∉ s.work
  | .drop | .protect => False
  | _ => True

def Unprotected (s : Store U) : Prop :=
  ∀ (i : ℕ) (cell : Cell), s.cells[i]? = some cell → cell.kind ≠ .protection

theorem Unprotected.clear (hu : Unprotected s) (i : ℕ) : Unprotected (s.clear i) := by
  intro j cell hcell
  simp only [Store.clear, clearedCells, List.getElem?_modify] at hcell
  obtain ⟨cell', hcell', rfl⟩ := Option.map_eq_some_iff.mp hcell
  have hkind := hu j cell' hcell'
  split <;> exact hkind

theorem Act.unprotected (hg : ¬ g s .protect) (hu : Unprotected s) (hact : Act g s s') :
    Unprotected s' := by
  cases hact with
  | newCell hkind hadd =>
    intro i cell hcell
    rcases getElem?_append_singleton hcell with hold | ⟨-, rfl⟩
    · exact hu i cell hold
    · exact hkind
  | newProtection hadd hguard => exact absurd hguard hg
  | cancelsRemove => exact hu.clear _
  | callCell => exact hu.clear _
  | callProtection => exact hu.clear _
  | _ => exact hu

/-- What holds in the runs that `deliveryGuard` admits. -/
structure Delivering (s : Store U) : Prop where
  safe : Safe s
  unprotected : Unprotected s
  numbered : Numbered s
  conserved : Conserved s
  placed : Placed s

theorem Act.delivering (hs : Sound s) (hd : Delivering s) (hact : Act deliveryGuard s s') :
    Delivering s' :=
  ⟨hact.safe hs (fun _ _ hg => hg) hd.safe, hact.unprotected (fun hg => hg) hd.unprotected,
    hact.numbered hd.numbered, hact.conserved hs.wellFormed (fun hg => hg) hd.conserved,
    hact.placed hs.wellFormed hd.placed⟩

theorem Delivering.not_stuck (hd : Delivering s) : ¬ Stuck deliveryGuard s :=
  hd.safe.not_stuck fun i cell _ hcell hkind => absurd hkind (hd.unprotected i cell hcell)

theorem delivering_initial (main hook : U) : Delivering (initial main hook).store := by
  refine ⟨safe_initial main hook, ?_, ⟨?_, ?_⟩, ?_, ⟨?_, ?_, ?_⟩⟩
  · intro i cell hcell
    simp [initial, Config.store] at hcell
  · intro node hnode
    simp [initial, Config.store, attachedNodes] at hnode
  · simp [initial, Config.store, attachedNodes]
  · simp [Conserved, nodes_eq, initial, Config.store, attachedNodes, calledNodes, heapTotal,
      queueWork]
  · intro u callbacks hu
    simp [initial, Config.store] at hu
  · intro w hw
    simp [initial, Config.store, queueWork] at hw
  · intro node r hmem
    simp [initial, Config.store] at hmem

theorem permits_deliveryGuard {c : Config U} {a : Label U} (hprot : a.protects = false)
    (hquiet : c.quiet = true) (hnpick : c.npickUndisturbed = true) :
    c.Permits deliveryGuard a := by
  unfold Config.Permits
  split
  · rename_i v frame stack hcontrol hstack
    cases frame with
    | runRegularCallbacks todo r =>
      cases todo with
      | nil => trivial
      | cons l rest =>
        cases l with
        | explicitlyRemovable i => exact fun _ => trivial
        | _ => trivial
    | runCancelCallbacks todo =>
      unfold Frame.Permits
      split <;> trivial
    | proxyInto target =>
      rintro q rfl hne -
      exact c.npickUndisturbed_spec hcontrol hstack hnpick hne
    | _ => trivial
  · rename_i e frame stack hcontrol hstack
    intro hbreaks
    simp [Config.quiet, hcontrol, hstack, hbreaks] at hquiet
  · unfold Label.Permits
    split
    · simp [Label.protects] at hprot
    · trivial
  · trivial

/-- The frame belongs to a resolution loop, or to a `cancel` that has records to run. -/
def Frame.inLoop : Frame U → Bool
  | .proxyInto _ | .resolveWith _ | .resolveUnderlying _ _ | .resolveExact _ _
  | .runCallbacks _ _ _ | .runCancelCallbacks _ | .runRegularCallbacks _ _
  | .leaveResolutionLoop _ | .drain _ | .propagateCancel _ _ | .runRecords _ => true
  | _ => false

/-- All resolution loops have ended. -/
def Config.loopsEnded (c : Config U) : Bool := c.stack.all fun frame => !frame.inLoop

/-- When all loops have ended, nothing is left to do. -/
theorem work_eq_zero {c : Config U} (hbalance : c.balance ≤ 0) (hdefers : c.DefersInLoop)
    (hended : c.loopsEnded = true) : c.store.work = 0 := by
  have hframe : ∀ frame ∈ c.stack, frame.inLoop = false := by
    simpa [Config.loopsEnded] using hended
  have hloops : loops c.stack = 0 := by
    refine List.countP_eq_zero.mpr fun frame hmem => ?_
    have hout := hframe frame hmem
    cases frame <;> simp_all [Frame.inLoop, Frame.leaves]
  have hqueue : c.deferredCallbacks = [] := by
    by_contra hne
    have hle := hdefers hne
    rw [Config.balance, hloops] at hbalance
    simp only [Nat.cast_zero, sub_zero] at hbalance
    omega
  have hstack : total Frame.work c.stack = 0 := by
    refine eq_zero_of_forall_notMem fun w hw => ?_
    obtain ⟨i, frame, hget, hmem⟩ := mem_total.mp hw
    have hout := hframe frame (List.mem_of_getElem? hget)
    cases frame <;> simp_all [Frame.inLoop, Frame.work]
  rw [Config.store, hqueue, hstack]
  rfl

theorem mem_attachedNodes {trace : List (Event U)} {node : Node U} :
    node ∈ attachedNodes trace ↔ .attached node ∈ trace := by
  rw [attachedNodes, mem_total]
  constructor
  · rintro ⟨i, e, hget, hmem⟩
    cases e <;> simp_all [Event.attachedNodes]
    exact List.mem_of_getElem? hget
  · intro hmem
    obtain ⟨i, hget⟩ := List.getElem?_of_mem hmem
    exact ⟨i, _, hget, by simp⟩

theorem mem_calledNodes {trace : List (Event U)} {node : Node U} :
    node ∈ calledNodes trace ↔ ∃ r, .called node r ∈ trace := by
  rw [calledNodes, mem_total]
  constructor
  · rintro ⟨i, e, hget, hmem⟩
    cases e <;> simp_all [Event.calledNodes]
    exact ⟨_, List.mem_of_getElem? hget⟩
  · rintro ⟨r, hmem⟩
    obtain ⟨i, hget⟩ := List.getElem?_of_mem hmem
    exact ⟨i, _, hget, by simp⟩

theorem Conserved.cases (hc : Conserved s) {node : Node U} (hnode : .attached node ∈ s.trace) :
    (∃ (u : Pid) (callbacks : Callbacks U), s.heap[u]? = some (.pending callbacks) ∧
      node ∈ callbacks.nodes) ∨
      (∃ w ∈ s.work, node ∈ w.nodes) ∨ ∃ r, .called node r ∈ s.trace := by
  have hmem : node ∈ s.nodes + calledNodes s.trace := by
    rw [← hc]
    exact mem_attachedNodes.mpr hnode
  rcases mem_add.mp hmem with hmem | hmem
  · rw [nodes_eq] at hmem
    rcases mem_add.mp hmem with hmem | hmem
    · obtain ⟨u, st, hget, hmem⟩ := mem_total.mp hmem
      cases st with
      | pending callbacks => exact .inl ⟨u, callbacks, hget, hmem⟩
      | resolved r => simp [State.lift] at hmem
      | proxy q => simp [State.lift] at hmem
    · have hbind : node ∈ s.work.bind Work.nodes := hmem
      exact .inr (.inl (mem_bind.mp hbind))
  · exact .inr (.inr (mem_calledNodes.mp hmem))

theorem Placed.called_of_ended (hp : Placed s) (hc : Conserved s) (hwork : s.work = 0)
    {node : Node U} {r : Result U} (hnode : .attached node ∈ s.trace)
    (hr : s.heap.stateOf node.on = some (.resolved r)) : .called node r ∈ s.trace := by
  rcases hc.cases hnode with ⟨u, callbacks, hu, hmem⟩ | ⟨w, hw, -⟩ | ⟨r', hmem⟩
  · have hroot : s.heap.root node.on = u := hp.attached u callbacks hu node hmem
    rw [Heap.stateOf, hroot, hu] at hr
    simp at hr
  · simp [hwork] at hw
  · have hstate : s.heap.stateOf node.on = some (.resolved r') := hp.called node r' hmem
    rw [hr] at hstate
    cases hstate
    exact hmem

/-- In every run in which `protected` is not called, no exception breaks a loop and `npick`
is undisturbed: no callback is called twice; a callback waits in the record of its promise
while that is pending; it is called with the result of its promise; and when the loops
have ended, every callback of a resolved promise has been called. -/
theorem callback_called_once {main hook : U} {c : Config U}
    (hreach : Reach step (fun c a => a.protects = false ∧ c.quiet = true ∧
      c.npickUndisturbed = true) (initial main hook) c) :
    c.control ≠ .crash ∧ ((calledNodes c.trace).map Node.id).Nodup ∧
    ∀ node, .attached node ∈ c.trace →
      (∀ callbacks, c.heap.stateOf node.on = some (.pending callbacks) →
        node ∈ callbacks.nodes ∧ ∀ r, .called node r ∉ c.trace) ∧
      (∀ r, .called node r ∈ c.trace → c.heap.stateOf node.on = some (.resolved r)) ∧
      (c.loopsEnded = true → ∀ r, c.heap.stateOf node.on = some (.resolved r) →
        .called node r ∈ c.trace) := by
  have hok : ∀ (c : Config U) (a : Label U), a.protects = false ∧ c.quiet = true ∧
      c.npickUndisturbed = true → c.Permits deliveryGuard a :=
    fun c a h => permits_deliveryGuard h.1 h.2.1 h.2.2
  have hact : ∀ s s' : Store U, Sound s → Delivering s → Act deliveryGuard s s' →
      Delivering s' := fun s s' hs hd hact => hact.delivering hs hd
  have hinit := delivering_initial main hook
  have halive := reach_not_crash hok hact (fun s hd => hd.not_stuck) hinit hreach
  obtain ⟨hs, hd⟩ := reach_store hok hact hinit hreach halive
  have hwf : c.heap.WellFormed := hs.wellFormed
  refine ⟨halive, ?_, fun node hnode => ⟨fun callbacks hpending => ?_, fun r hmem => ?_,
    fun hended r hresolved => ?_⟩⟩
  · -- The callbacks that were called are among those that were attached.
    refine nodup_of_le (map_le_map ?_) hd.numbered.nodup
    rw [hd.conserved]
    exact Multiset.le_add_left _ _
  · have hnone : ∀ r, ¬ Delivers c.heap r node := by
      intro r hdeliv
      have hstate : c.heap.stateOf node.on = some (.resolved r) := hdeliv
      simp [hpending] at hstate
    refine ⟨?_, fun r hmem => hnone r (hd.placed.called node r hmem)⟩
    rcases hd.conserved.cases hnode with ⟨u, callbacks', hu, hmem⟩ | ⟨w, hw, hmem⟩ | ⟨r, hmem⟩
    · have hroot : c.heap.root node.on = u := hd.placed.attached u callbacks' hu node hmem
      have hget : c.heap[c.heap.root node.on]? = some (.pending callbacks) := hpending
      rw [hroot, show c.heap[u]? = some (.pending callbacks') from hu] at hget
      cases hget
      exact hmem
    · have hdue := hd.placed.due w hw
      cases w with
      | record p callbacks' r => exact absurd (hdue node hmem) (hnone r)
      | regular l r => exact absurd (hdue node hmem) (hnone r)
      | _ => simp at hmem
    · exact absurd (hd.placed.called node r hmem) (hnone r)
  · exact hd.placed.called node r hmem
  · have hwork := work_eq_zero (reach_balance (fun _ _ h => h.2.1) hreach)
      (reach_defersInLoop hreach) hended
    exact hd.placed.called_of_ended hd.conserved hwork hnode hresolved

/-- An `npick`, a callback on the promise it cancels and one on its own promise. -/
def npickMoves : List (Move ℕ) :=
  [.call .task 0, .call .task 0, .call (.npick [0, 1]) 0, .call (.attach (.onSuccess 0) 2) 0,
    .call (.attach (.tryBind 0 0) 1) 0,
    .call (.wakeupGeneral "wakeup" 0 (.fulfilled .unit)) 0]

/-- The callback on the promise of the `npick`. -/
def npickNode : Node ℕ := ⟨0, 2, .observe [] (.hooked 0) .ignore⟩

/-- The callback of the canceled promise returns another promise: each callback is called
once. -/
theorem callback_called_once_npick : ∃ c : Config ℕ,
    Reach step (fun c a => a.protects = false ∧ c.quiet = true ∧ c.npickUndisturbed = true)
      (initial 0 0) c ∧
    c.loopsEnded = true ∧ .attached npickNode ∈ c.trace ∧
    .called npickNode (.fulfilled (.cons .unit .nil)) ∈ c.trace ∧
    c.control ≠ .crash ∧ ((calledNodes c.trace).map Node.id).Nodup := by
  obtain ⟨c, hreach, hc⟩ := exists_reach
    (fun c a => !a.protects && (c.quiet && c.npickUndisturbed))
    (P := fun c => c.loopsEnded && (.attached npickNode ∈ c.trace &&
      c.heap.stateOf 2 = some (.resolved (.fulfilled (.cons .unit .nil)))))
    (show (script _ 40 (initial 0 0) (npickMoves ++ [.ret (.promise 0), .ret .unit])).any _ = true
      by decide)
  simp only [Bool.and_eq_true, decide_eq_true_eq] at hc
  have hreach' := hreach.mono fun c a hok => by simpa using hok
  obtain ⟨halive, hnodup, hall⟩ := callback_called_once hreach'
  exact ⟨c, hreach', hc.1, hc.2.1, (hall npickNode hc.2.1).2.2 hc.1 _ hc.2.2, halive, hnodup⟩

/-- As `npickMoves`, with two callbacks on the promise of the `npick`. -/
def npickTwiceMoves : List (Move ℕ) :=
  [.call .task 0, .call .task 0, .call (.npick [0, 1]) 0, .call (.attach (.onSuccess 0) 2) 0,
    .call (.attach (.onSuccess 2) 2) 0, .call (.attach (.tryBind 0 0) 1) 0,
    .call (.wakeupGeneral "wakeup" 0 (.fulfilled .unit)) 0]

/-- The second callback on the promise of the `npick`. -/
def npickNode' : Node ℕ := ⟨1, 2, .observe [] (.hooked 2) .ignore⟩

/-- The callback of the canceled promise returns the promise of the `npick`: the callbacks on it
are moved to the record of promise `3`, which stays pending, while the promise of the `npick` is
fulfilled.  Its `Proxy` is then read as if it were `Pending`, so promise `3` is taken for the
record of callbacks, its state for a removable callback, and the `concat` of the two callbacks for
the contents of the cell: neither of the two is called.  (With one callback its node would stand
there, and what is read as the function to call happens to be the callback.) -/
theorem callback_redirected : ∃ c : Config ℕ,
    Reach step (fun c a => a.protects = false ∧ c.quiet = true) (initial 0 0) c ∧
    c.control = .crash ∧ .attached npickNode ∈ c.trace ∧ .attached npickNode' ∈ c.trace ∧
    c.heap.stateOf npickNode.on = some (.resolved (.fulfilled (.cons .unit .nil))) ∧
    (∀ r, .called npickNode r ∉ c.trace) ∧ (∀ r, .called npickNode' r ∉ c.trace) ∧
    ∃ callbacks, c.heap.stateOf 3 = some (.pending callbacks) ∧ npickNode ∈ callbacks.nodes ∧
      npickNode' ∈ callbacks.nodes := by
  obtain ⟨c, hreach, hc⟩ := exists_reach (fun c a => !a.protects && c.quiet)
    (P := fun c => c.control.isCrash && (.attached npickNode ∈ c.trace &&
      (.attached npickNode' ∈ c.trace &&
      (c.heap.stateOf npickNode.on = some (.resolved (.fulfilled (.cons .unit .nil))) &&
        (npickNode ∉ calledNodes c.trace && (npickNode' ∉ calledNodes c.trace &&
          (npickNode ∈ (c.heap.stateOf 3).elim 0 (State.lift Callbacks.nodes) &&
            npickNode' ∈ (c.heap.stateOf 3).elim 0 (State.lift Callbacks.nodes))))))))
    (show (script _ 40 (initial 0 0) (npickTwiceMoves ++ [.ret (.promise 2)])).any _ = true
      by decide)
  simp only [Bool.and_eq_true, decide_eq_true_eq] at hc
  obtain ⟨hcrash, hnode, hnode', hstate, hcalled, hcalled', hmoved, hmoved'⟩ := hc
  refine ⟨c, hreach.mono fun c a hok => by simpa using hok, (c.control.isCrash_iff).mp hcrash,
    hnode, hnode', hstate, fun r hmem => hcalled (mem_calledNodes.mpr ⟨r, hmem⟩),
    fun r hmem => hcalled' (mem_calledNodes.mpr ⟨r, hmem⟩), ?_⟩
  cases hmember : c.heap.stateOf 3 with
  | none => simp [hmember] at hmoved
  | some state =>
    rw [hmember] at hmoved hmoved'
    cases state with
    | pending callbacks => exact ⟨callbacks, rfl, hmoved, hmoved'⟩
    | resolved r => simp [State.lift] at hmoved
    | proxy p => simp [State.lift] at hmoved

end Lwt
