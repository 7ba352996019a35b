import Lwt.Promise.Effect

/-!
# Adding up the records of the pending promises

A measure `μ` of records (the callbacks in them, say, as a multiset) is summed over all
pending promises: `heapTotal μ h`.  The lemmas say what the operations on the heap do to
the sum; path compression never matters, and linking keeps the sum of any measure that
`merge_callbacks` adds up.
-/

namespace Lwt

open Heap Table Multiset

variable {U : Type} {M : Type*} [AddCancelCommMonoid M] {μ : Callbacks U → M}

/-- The measure of the record of a promise, if it is pending. -/
def State.lift (μ : Callbacks U → M) : State U → M
  | .pending callbacks => μ callbacks
  | _ => 0

@[simp] theorem lift_pending (callbacks : Callbacks U) :
    (State.pending callbacks).lift μ = μ callbacks := rfl

@[simp] theorem lift_resolved (r : Result U) : (State.resolved r).lift μ = 0 := rfl

@[simp] theorem lift_newPending (how : HowToCancel) :
    (newPending how).lift μ = μ ⟨.empty, .empty, how, 0⟩ := rfl

/-- The sum of a measure over all pending promises. -/
def heapTotal (μ : Callbacks U → M) (h : Heap U) : M := total (State.lift μ) h

variable {h h' h₁ : Heap U} {u : Pid} {callbacks : Callbacks U}

theorem heapTotal_compressed (hwf : h.WellFormed) (hc : Compressed h h') :
    heapTotal μ h' = heapTotal μ h := by
  refine total_congr hc.length_eq fun x a b ha hb => ?_
  cases hpar : h.parent x with
  | none =>
    have heq := hc.getElem?_eq x hpar
    rw [ha, hb] at heq
    rw [Option.some.inj heq]
  | some q =>
    -- A proxy is still a proxy.
    have hpar' : ∃ q', h'.parent x = some q' := by
      cases hnone : h'.parent x with
      | some q' => exact ⟨q', rfl⟩
      | none =>
        have hroot := (hc.root x _ (root_spec hwf x)).unique (.here hnone)
        have := parent_root hwf x
        simp [hroot, hpar] at this
    obtain ⟨q', hq'⟩ := hpar'
    rw [parent_eq_some_iff, ha] at hpar
    rw [parent_eq_some_iff, hb] at hq'
    cases hpar
    cases hq'
    rfl

@[simp] theorem heapTotal_append (x : State U) :
    heapTotal μ (h ++ [x]) = heapTotal μ h + x.lift μ := by
  simp [heapTotal]

theorem heapTotal_set_pending {d : Callbacks U}
    (hu : h[u]? = some (.pending callbacks)) :
    heapTotal μ (h.set u (.pending d)) + μ callbacks = heapTotal μ h + μ d :=
  total_set (f := State.lift μ) (b := .pending d) hu

/-- A promise that is resolved, or becomes a proxy, takes its record out of the sum. -/
theorem heapTotal_set_other {s : State U} (hu : h[u]? = some (.pending callbacks))
    (hs : s.lift μ = 0) : heapTotal μ (h.set u s) + μ callbacks = heapTotal μ h := by
  have hset := total_set (f := State.lift μ) (b := s) hu
  rw [hs, add_zero] at hset
  exact hset

theorem heapTotal_modifyPending {f : Callbacks U → Callbacks U} {x : M} (hu : h.IsPending u)
    (hf : ∀ callbacks, μ (f callbacks) = x + μ callbacks) :
    heapTotal μ (h.modifyPending u f) = x + heapTotal μ h := by
  obtain ⟨callbacks, hcb⟩ := hu
  simp only [modifyPending, hcb]
  have hset := heapTotal_set_pending (μ := μ) (d := f callbacks) hcb
  rw [hf, add_left_comm, ← add_assoc] at hset
  exact add_right_cancel hset

theorem heapTotal_modifyPending_of_eq {f : Callbacks U → Callbacks U}
    (hf : ∀ callbacks, μ (f callbacks) = μ callbacks) :
    heapTotal μ (h.modifyPending u f) = heapTotal μ h := by
  unfold modifyPending
  split
  · rename_i callbacks hcb
    exact total_set_of_eq hcb (hf callbacks)
  · rfl

theorem heapTotal_visitEach {cells : List Cell} (hwf : h.WellFormed)
    (hμ : ∀ callbacks, μ (deferOrCleanUp cells callbacks) = μ callbacks) (ps : List Pid) :
    heapTotal μ (visitEach cells h ps) = heapTotal μ h := by
  unfold visitEach
  induction ps generalizing h with
  | nil => rfl
  | cons p ps ih =>
    have hwf' := (compressed_compress hwf p).wellFormed hwf
    have hone : Similar (h.compress p)
        ((h.compress p).modifyPending (h.root p) (deferOrCleanUp cells)) :=
      similar_modifyPending fun callbacks => howToCancel_deferOrCleanUp cells callbacks
    rw [List.foldl_cons, ih (hone.wellFormed hwf'), heapTotal_modifyPending_of_eq hμ,
      heapTotal_compressed hwf (compressed_compress hwf p)]

theorem heapTotal_addCellToEach {c : ℕ} (hwf : h.WellFormed)
    (hμ : ∀ callbacks,
      μ (addRegularCallbackListNode (.explicitlyRemovable c) callbacks) = μ callbacks)
    {ps : List Pid} (hadd : addCellToEach c h ps = some h') : heapTotal μ h' = heapTotal μ h := by
  induction ps generalizing h with
  | nil =>
    obtain rfl : h = h' := by simpa [addCellToEach] using hadd
    rfl
  | cons p ps ih =>
    obtain ⟨callbacks, -, hget, hone, hrest⟩ := addCellToEach_cons hwf hadd
    rw [ih (hone.wellFormed hwf) hrest]
    exact (total_set_of_eq hget (hμ callbacks)).trans
      (heapTotal_compressed hwf (compressed_compress hwf p))

theorem heapTotal_link {outer inner : Pid} {outerCallbacks merged : Callbacks U}
    (hwf : h.WellFormed) (hc : Compressed h h₁) (hne : inner ≠ outer)
    (hinner : h₁[inner]? = some (.pending callbacks))
    (houter : h₁[outer]? = some (.pending outerCallbacks))
    (hμ : μ merged = μ callbacks + μ outerCallbacks) :
    heapTotal μ ((h₁.set outer (.pending merged)).set inner (.proxy outer)) = heapTotal μ h := by
  have hinner' : (h₁.set outer (.pending merged))[inner]? = some (.pending callbacks) := by
    rw [List.getElem?_set_ne (Ne.symm hne), hinner]
  have hset := heapTotal_set_pending (μ := μ) (d := merged) houter
  have hother := heapTotal_set_other (μ := μ) (s := .proxy outer) hinner' rfl
  rw [hμ, ← hother, heapTotal_compressed hwf hc] at hset
  refine add_right_cancel (b := μ callbacks + μ outerCallbacks) ?_
  rw [← add_assoc, hset]

/-! ## Contents of a store

A measure of records together with a measure of work. -/

/-- The sum over the pending promises and the work. -/
def Store.content (μ : Callbacks U → M) (ω : Work U → M) (s : Store U) : M :=
  heapTotal μ s.heap + (s.work.map ω).sum

/-! ## Callbacks -/

def Callbacks.nodes (callbacks : Callbacks U) : Multiset (Node U) :=
  callbacks.regularCallbacks.nodes

/-- The implicitly removed callbacks that are still to be called. -/
def Work.nodes : Work U → Multiset (Node U)
  | .record _ callbacks _ => callbacks.nodes
  | .regular l _ => l.nodes
  | _ => 0

/-- The implicitly removed callbacks that have not been called. -/
def Store.nodes (s : Store U) : Multiset (Node U) := s.content Callbacks.nodes Work.nodes

section Simp

variable (target p : Pid) (l : RegularCallbackList U) (l' : CancelCallbackList U) (r : Result U)
  (promised : Option (Result U)) (callbacks : Callbacks U)

@[simp] theorem nodes_record : (Work.record p callbacks r).nodes = callbacks.nodes := rfl
@[simp] theorem nodes_regular : (Work.regular l r).nodes = l.nodes := rfl
@[simp] theorem nodes_cancels : (Work.cancels l').nodes = 0 := rfl
@[simp] theorem nodes_owe : (Work.owe target promised).nodes = 0 := rfl
@[simp] theorem nodes_oweExact : (Work.oweExact p r).nodes = 0 := rfl

end Simp

section Nodes

variable {s : Store U}

theorem nodes_eq (s : Store U) :
    s.nodes = heapTotal Callbacks.nodes s.heap + (s.work.map Work.nodes).sum := rfl

@[simp] theorem nodes_opened (callbacks : Callbacks U) (r : Result U) :
    ((callbacks.opened r).map Work.nodes).sum = callbacks.nodes := by
  unfold Callbacks.opened
  split <;> simp [Work.nodes, Callbacks.nodes]

@[simp] theorem nodes_newRecord (cancels : CancelCallbackList U) (how : HowToCancel) (n : ℕ) :
    Callbacks.nodes ⟨.empty, cancels, how, n⟩ = 0 := rfl

theorem nodes_resolve (hu : s.heap[u]? = some (.pending callbacks)) (r : Result U) :
    (s.resolve u callbacks r).nodes = s.nodes := by
  have hset := heapTotal_set_other (μ := Callbacks.nodes) (s := .resolved r) hu rfl
  simp only [nodes_eq, Store.resolve, map_cons, sum_cons, Work.nodes]
  rw [← add_assoc, hset]

theorem nodes_attach (hu : s.heap.IsPending u) (callback : Callback U) :
    (s.attach u callback).nodes = ⟨s.nextNode, u, callback⟩ ::ₘ s.nodes := by
  have hmodify := heapTotal_modifyPending (μ := Callbacks.nodes)
    (f := addImplicitlyRemovedCallback ⟨s.nextNode, u, callback⟩) hu
    fun callbacks => nodes_addRegularCallbackListNode callbacks _
  simp only [nodes_eq, Store.attach]
  rw [hmodify, add_assoc]
  rfl

theorem nodes_clear (hwf : s.heap.WellFormed) (i : ℕ) : (s.clear i).nodes = s.nodes := by
  simp only [nodes_eq, Store.clear]
  rw [heapTotal_visitEach hwf fun callbacks => nodes_deferOrCleanUp _ callbacks]

theorem heapNodes_addCellToEach {c : ℕ} {ps : List Pid} (hwf : h.WellFormed)
    (hadd : addCellToEach c h ps = some h') :
    heapTotal Callbacks.nodes h' = heapTotal Callbacks.nodes h :=
  heapTotal_addCellToEach hwf (fun callbacks => by
    simp [Callbacks.nodes, RegularCallbackList.nodes]) hadd

@[simp] theorem heapNodes_addCancelCallback (mark : Mark) (storage : Storage U)
    (f : CancelCallback U) :
    heapTotal Callbacks.nodes (h.modifyPending u (addCancelCallback mark storage f)) =
      heapTotal Callbacks.nodes h :=
  heapTotal_modifyPending_of_eq fun _ => rfl

@[simp] theorem nodes_attachCancel (s : Store U) (u : Pid) (storage : Storage U)
    (f : CancelCallback U) : (s.attachCancel u storage f).nodes = s.nodes := by
  simp [nodes_eq, Store.attachCancel]

theorem heapNodes_link {h₁ : Heap U} {outer inner : Pid} {outerCallbacks : Callbacks U}
    {how : HowToCancel} (cells : List Cell) (hwf : h.WellFormed) (hc : Compressed h h₁)
    (hne : inner ≠ outer) (hinner : h₁[inner]? = some (.pending callbacks))
    (houter : h₁[outer]? = some (.pending outerCallbacks)) :
    heapTotal Callbacks.nodes ((h₁.set outer (.pending
      { mergeCallbacks cells callbacks outerCallbacks with howToCancel := how })).set inner
        (.proxy outer)) = heapTotal Callbacks.nodes h :=
  heapTotal_link hwf hc hne hinner houter
    ((nodes_mergeCallbacks cells callbacks outerCallbacks).trans (add_comm _ _))

theorem nodes_resolve_compressed {h : Heap U} {i : ℕ} {r : Result U} {trace : List (Event U)}
    {rest : Multiset (Work U)} (hwf : s.heap.WellFormed)
    (hwork : s.work = .regular (.explicitlyRemovable i) r ::ₘ rest)
    (hc : Compressed (s.clear i).heap h) (hu : h[u]? = some (.pending callbacks)) :
    ({ s.clear i with heap := h, work := rest, trace := trace }.resolve u callbacks r).nodes =
      s.nodes := by
  rw [nodes_resolve hu, ← nodes_clear hwf i, nodes_eq, nodes_eq,
    heapTotal_compressed ((Store.similar_clear hwf i).wellFormed hwf) hc]
  simp [Store.clear, hwork, RegularCallbackList.nodes]

end Nodes

@[simp] theorem nodes_owed (h : Heap U) (cell : Cell) (r : Result U) :
    (cell.owed h r).nodes = 0 := by
  unfold Cell.owed
  split <;> rfl

/-! ## Record by record -/

/-- The record that a promise has in `h'` is related to the one it has in `h`. -/
def Recordwise (R : Pid → Callbacks U → Callbacks U → Prop) (h h' : Heap U) : Prop :=
  ∀ u callbacks', h'[u]? = some (.pending callbacks') →
    ∃ callbacks, h[u]? = some (.pending callbacks) ∧ R u callbacks callbacks'

namespace Recordwise

variable {R : Pid → Callbacks U → Callbacks U → Prop} {h h' h'' : Heap U} {u : Pid}

theorem refl (hR : ∀ u callbacks, R u callbacks callbacks) (h : Heap U) : Recordwise R h h :=
  fun u callbacks hu => ⟨callbacks, hu, hR u callbacks⟩

theorem trans (hR : ∀ u c₁ c₂ c₃, R u c₁ c₂ → R u c₂ c₃ → R u c₁ c₃) (hrel : Recordwise R h h')
    (hrel' : Recordwise R h' h'') : Recordwise R h h'' := by
  intro u c₃ hu
  obtain ⟨c₂, hc₂, h₂₃⟩ := hrel' u c₃ hu
  obtain ⟨c₁, hc₁, h₁₂⟩ := hrel u c₂ hc₂
  exact ⟨c₁, hc₁, hR u c₁ c₂ c₃ h₁₂ h₂₃⟩

theorem of_compressed (hR : ∀ u callbacks, R u callbacks callbacks) (hwf : h.WellFormed)
    (hc : Compressed h h') : Recordwise R h h' := by
  intro u callbacks hu
  have hroot : h.root u = u := by
    rw [← hc.root_eq hwf, root_of_getElem? (hc.wellFormed hwf) hu trivial]
  have hget := hc.getElem?_root hwf u
  rw [hroot, hu] at hget
  exact ⟨callbacks, hget.symm, hR u callbacks⟩

theorem of_set {callbacks callbacks' : Callbacks U} (hR : ∀ u callbacks, R u callbacks callbacks)
    (hu : h[u]? = some (.pending callbacks)) (hrel : R u callbacks callbacks') :
    Recordwise R h (h.set u (.pending callbacks')) := by
  intro v c hv
  by_cases huv : u = v
  · subst huv
    rw [List.getElem?_set_self (lt_length_of_getElem? hu)] at hv
    obtain rfl : callbacks' = c := by simpa using hv
    exact ⟨callbacks, hu, hrel⟩
  · rw [List.getElem?_set_ne huv] at hv
    exact ⟨c, hv, hR v c⟩

theorem of_set_other {s : State U} (hR : ∀ u callbacks, R u callbacks callbacks)
    (hs : ∀ callbacks, s ≠ .pending callbacks) : Recordwise R h (h.set u s) := by
  intro v c hv
  by_cases huv : u = v
  · subst huv
    by_cases hlt : u < h.length
    · rw [List.getElem?_set_self hlt] at hv
      exact absurd (Option.some.inj hv) (hs c)
    · rw [List.getElem?_eq_none (by simpa using hlt)] at hv
      simp at hv
  · rw [List.getElem?_set_ne huv] at hv
    exact ⟨c, hv, hR v c⟩

theorem of_modifyPending {f : Callbacks U → Callbacks U}
    (hR : ∀ u callbacks, R u callbacks callbacks) (hf : ∀ callbacks, R u callbacks (f callbacks)) :
    Recordwise R h (h.modifyPending u f) := by
  unfold modifyPending
  split
  · rename_i callbacks hcb
    exact of_set hR hcb (hf callbacks)
  · exact refl hR h

theorem of_visitEach {cells : List Cell} (hR : ∀ u callbacks, R u callbacks callbacks)
    (htrans : ∀ u c₁ c₂ c₃, R u c₁ c₂ → R u c₂ c₃ → R u c₁ c₃) (hwf : h.WellFormed) (ps : List Pid)
    (hf : ∀ u callbacks, R u callbacks (deferOrCleanUp cells callbacks)) :
    Recordwise R h (visitEach cells h ps) := by
  unfold visitEach
  induction ps generalizing h with
  | nil => exact refl hR h
  | cons p ps ih =>
    have hcomp := compressed_compress hwf p
    have hsim : Similar h ((h.compress p).modifyPending (h.root p) (deferOrCleanUp cells)) :=
      hcomp.similar.trans
        (similar_modifyPending fun callbacks => howToCancel_deferOrCleanUp cells callbacks)
    have hone := (of_compressed hR hwf hcomp).trans htrans
      (of_modifyPending (u := h.root p) hR (hf (h.root p)))
    exact hone.trans htrans (ih (hsim.wellFormed hwf))

theorem of_addCellToEach {c : ℕ} {ps : List Pid} (hR : ∀ u callbacks, R u callbacks callbacks)
    (htrans : ∀ u c₁ c₂ c₃, R u c₁ c₂ → R u c₂ c₃ → R u c₁ c₃) (hwf : h.WellFormed)
    (hf : ∀ u callbacks,
      R u callbacks (addRegularCallbackListNode (.explicitlyRemovable c) callbacks))
    (hadd : addCellToEach c h ps = some h') : Recordwise R h h' := by
  induction ps generalizing h with
  | nil =>
    obtain rfl : h = h' := by simpa [addCellToEach] using hadd
    exact refl hR h
  | cons p ps ih =>
    obtain ⟨callbacks, -, hget, hsim, hrest⟩ := addCellToEach_cons hwf hadd
    have hone := (of_compressed hR hwf (compressed_compress hwf p)).trans htrans
      (of_set hR hget (hf _ callbacks))
    exact hone.trans htrans (ih (hsim.wellFormed hwf) hrest)

end Recordwise

/-! ## Lists that are being called -/

/-- The work is to call the callbacks of `l` with `r`. -/
def Work.Runs (l : RegularCallbackList U) (r : Result U) : Work U → Prop
  | .record _ callbacks r' => callbacks.regularCallbacks = l ∧ r' = r
  | .regular l' r' => l' = l ∧ r' = r
  | _ => False

theorem not_runs_owed {h : Heap U} {cell : Cell} {r r' : Result U} {l : RegularCallbackList U} :
    ¬ (cell.owed h r').Runs l r := by
  unfold Cell.owed
  split <;> exact fun h => h

/-- Lists get into the work when a promise is resolved, and are then taken apart.  So a
property `Q` of the lists in the work is kept if it is kept by taking a list apart and
holds of the list of a promise that the act resolves. -/
theorem Act.runs {g : Guard U} {s s' : Store U} {Q : Result U → RegularCallbackList U → Prop}
    (hwf : s.heap.WellFormed) (hact : Act g s s')
    (hconcat : ∀ r l l', Q r (.concat l l') → Q r l ∧ Q r l')
    (hresolve : ∀ (u : Pid) (callbacks callbacks' : Callbacks U) (r : Result U),
      s.heap[u]? = some (.pending callbacks) → callbacks'.nodes = callbacks.nodes →
      callbacks'.regularCallbacks.cells ≤ callbacks.regularCallbacks.cells →
      s'.heap.IsResolved u r → Q r callbacks'.regularCallbacks)
    (hold : ∀ w ∈ s.work, ∀ l r, w.Runs l r → Q r l) :
    ∀ w ∈ s'.work, ∀ l r, w.Runs l r → Q r l := by
  -- the acts that resolve a promise put its record into the work
  have hdone : ∀ {u : Pid} {callbacks : Callbacks U} {r : Result U} {rest : Multiset (Work U)},
      s.heap[u]? = some (.pending callbacks) → s'.heap.IsResolved u r →
      (∀ w ∈ rest, w ∈ s.work) → ∀ w ∈ .record u callbacks r ::ₘ rest, ∀ l r,
      w.Runs l r → Q r l := by
    intro u callbacks r rest hcb hres hrest w hw l r' hruns
    rcases mem_cons.mp hw with rfl | hw
    · obtain ⟨rfl, rfl⟩ := hruns
      exact hresolve u callbacks callbacks r hcb rfl (le_refl _) hres
    · exact hold w (hrest w hw) l r' hruns
  have hset : ∀ {h : Heap U} {u : Pid} {callbacks : Callbacks U} {r : Result U},
      h[u]? = some (.pending callbacks) → Heap.IsResolved (h.set u (.resolved r)) u r :=
    fun hcb => List.getElem?_set_self (lt_length_of_getElem? hcb)
  cases hact with
  | wake hp hcb => exact hdone hcb (hset hcb) fun _ hw => hw
  | cancelMark hcb hhow => exact hdone hcb (hset hcb) fun _ hw => hw
  | settle hwork hpromised hcb => exact hdone hcb (hset hcb) fun _ hw => by simp_all
  | settleExact hwork hcb => exact hdone hcb (hset hcb) fun _ hw => by simp_all
  | @callProtection rest i cell r h callbacks hwork hcell hlive hkind hguard hc hcb =>
    have hwf₁ := (Store.similar_clear hwf i).wellFormed hwf
    obtain ⟨callbacks₁, hcb₁, rfl⟩ :=
      Recordwise.of_compressed (R := fun _ callbacks callbacks' => callbacks' = callbacks)
        (fun _ _ => rfl) hwf₁ hc _ callbacks hcb
    -- clearing the cell may have shortened the list of the promise
    obtain ⟨callbacks₀, hcb₀, hnodes, hcells⟩ := Recordwise.of_visitEach
      (R := fun _ callbacks callbacks' => callbacks'.nodes = callbacks.nodes ∧
        callbacks'.regularCallbacks.cells ≤ callbacks.regularCallbacks.cells)
      (fun _ _ => ⟨rfl, le_refl _⟩) (fun _ _ _ _ h h' => ⟨h'.1.trans h.1, h'.2.trans h.2⟩) hwf _
      (fun _ callbacks => ⟨nodes_deferOrCleanUp _ callbacks, cells_deferOrCleanUp_le _ callbacks⟩)
      _ callbacks hcb₁
    intro w hw l r' hruns
    rcases mem_cons.mp hw with rfl | hw
    · obtain ⟨rfl, rfl⟩ := hruns
      exact hresolve _ callbacks₀ callbacks r hcb₀ hnodes hcells (hset hcb)
    · exact hold w (by rw [hwork]; exact mem_cons_of_mem hw) l r' hruns
  | @runRecord rest p callbacks r hwork =>
    have hrecord := hold (.record p callbacks r) (by simp [hwork])
    intro w hw l r' hruns
    rcases mem_add.mp hw with hopened | hrest
    · simp only [Callbacks.opened] at hopened
      split at hopened
      · rcases mem_cons.mp hopened with rfl | hmem
        · exact hruns.elim
        · obtain rfl := mem_singleton.mp hmem
          exact hrecord l r' hruns
      · obtain rfl := mem_singleton.mp hopened
        exact hrecord l r' hruns
    · exact hold w (by simp [hwork, hrest]) l r' hruns
  | @regularConcat rest l₁ l₂ r hwork =>
    obtain ⟨h₁, h₂⟩ := hconcat r l₁ l₂ (hold (.regular (.concat l₁ l₂) r) (by simp [hwork]) _ _
      ⟨rfl, rfl⟩)
    intro w hw l r' hruns
    rcases mem_cons.mp hw with rfl | hw
    · obtain ⟨rfl, rfl⟩ := hruns
      exact h₁
    rcases mem_cons.mp hw with rfl | hw
    · obtain ⟨rfl, rfl⟩ := hruns
      exact h₂
    · exact hold w (by simp [hwork, hw]) l r' hruns
  | cancelsConcat hwork =>
    intro w hw l r' hruns
    rcases mem_cons.mp hw with rfl | hw
    · exact hruns.elim
    rcases mem_cons.mp hw with rfl | hw
    · exact hruns.elim
    · exact hold w (by simp [hwork, hw]) l r' hruns
  | callCompose hwork hcallback =>
    intro w hw l r' hruns
    rcases mem_cons.mp hw with rfl | hw
    · exact hruns.elim
    · exact hold w (by simp [hwork, hw]) l r' hruns
  | callJoinLast hjoining hwork hcallback =>
    intro w hw l r' hruns
    rcases mem_cons.mp hw with rfl | hw
    · exact hruns.elim
    · exact hold w (by simp [hwork, hw]) l r' hruns
  | callCell hwork hcell hlive hkind hguard =>
    intro w hw l r' hruns
    rcases mem_cons.mp hw with rfl | hw
    · exact absurd hruns not_runs_owed
    · exact hold w (by simp [hwork, hw]) l r' hruns
  | regularEmpty hwork => exact fun w hw => hold w (by simp [hwork, hw])
  | regularDead hwork => exact fun w hw => hold w (by simp [hwork, hw])
  | cancelsEmpty hwork => exact fun w hw => hold w (by simp [hwork, hw])
  | cancelsUser hwork => exact fun w hw => hold w (by simp [hwork, hw])
  | cancelsNode hwork => exact fun w hw => hold w (by simp [hwork, hw])
  | cancelsRemove hwork hguard => exact fun w hw => hold w (by simp [hwork, hw])
  | callObserve hwork hcallback => exact fun w hw => hold w (by simp [hwork, hw])
  | callJoinNone hwork hcallback => exact fun w hw => hold w (by simp [hwork, hw])
  | callJoin hwork hcallback => exact fun w hw => hold w (by simp [hwork, hw])
  | link hwork => exact fun w hw => hold w (by simp [hwork, hw])
  | same hwork hroot => exact fun w hw => hold w (by simp [hwork, hw])
  | drop hguard hle => exact fun w hw => hold w (mem_of_le hle hw)
  | _ => exact hold

/-! ## Conservation -/

def Event.attachedNodes : Event U → Multiset (Node U)
  | .attached node => {node}
  | _ => 0

def Event.calledNodes : Event U → Multiset (Node U)
  | .called node _ => {node}
  | _ => 0

/-- The callbacks attached in the course of a trace. -/
def attachedNodes (trace : List (Event U)) : Multiset (Node U) := total Event.attachedNodes trace

/-- The callbacks called in the course of a trace. -/
def calledNodes (trace : List (Event U)) : Multiset (Node U) := total Event.calledNodes trace

section Simp

variable (node : Node U) (r : Result U) (p : Pid) (i : ℕ) (m : Mark) (e : Event U)
  (trace : List (Event U))

@[simp] theorem attachedNodes_cons :
    attachedNodes (e :: trace) = e.attachedNodes + attachedNodes trace := total_cons

@[simp] theorem calledNodes_cons :
    calledNodes (e :: trace) = e.calledNodes + calledNodes trace := total_cons

@[simp] theorem attachedNodes_attached : (Event.attached node).attachedNodes = {node} := rfl
@[simp] theorem attachedNodes_called : (Event.called node r).attachedNodes = 0 := rfl
@[simp] theorem attachedNodes_cellCalled : (Event.cellCalled i r).attachedNodes = 0 := rfl
@[simp] theorem attachedNodes_cancelAttached :
    (Event.cancelAttached m : Event U).attachedNodes = 0 := rfl
@[simp] theorem attachedNodes_cancelCalled :
    (Event.cancelCalled m : Event U).attachedNodes = 0 := rfl
@[simp] theorem attachedNodes_recordRun : (Event.recordRun p r).attachedNodes = 0 := rfl
@[simp] theorem attachedNodes_resolved : (Event.resolved p r).attachedNodes = 0 := rfl
@[simp] theorem calledNodes_attached : (Event.attached node).calledNodes = 0 := rfl
@[simp] theorem calledNodes_called : (Event.called node r).calledNodes = {node} := rfl
@[simp] theorem calledNodes_cellCalled : (Event.cellCalled i r).calledNodes = 0 := rfl
@[simp] theorem calledNodes_cancelAttached :
    (Event.cancelAttached m : Event U).calledNodes = 0 := rfl
@[simp] theorem calledNodes_cancelCalled : (Event.cancelCalled m : Event U).calledNodes = 0 := rfl
@[simp] theorem calledNodes_recordRun : (Event.recordRun p r).calledNodes = 0 := rfl
@[simp] theorem calledNodes_resolved : (Event.resolved p r).calledNodes = 0 := rfl

theorem Event.IsNote.nodes {e : Event U} (he : e.IsNote) :
    e.attachedNodes = 0 ∧ e.calledNodes = 0 := by
  cases e <;> first | exact he.elim | exact ⟨rfl, rfl⟩

@[simp] theorem attachedNodes_attachCancel (s : Store U) (u : Pid) (storage : Storage U)
    (f : CancelCallback U) :
    attachedNodes (s.attachCancel u storage f).trace = attachedNodes s.trace := by
  simp [Store.attachCancel]

@[simp] theorem calledNodes_attachCancel (s : Store U) (u : Pid) (storage : Storage U)
    (f : CancelCallback U) :
    calledNodes (s.attachCancel u storage f).trace = calledNodes s.trace := by
  simp [Store.attachCancel]

theorem Store.Initializes.nodes {s : Store U} {l : CancelCallbackList U} {new : List (Event U)}
    (h : s.Initializes l new) :
    attachedNodes (new ++ trace) = attachedNodes trace ∧
      calledNodes (new ++ trace) = calledNodes trace := by
  rcases h with ⟨-, rfl⟩ | ⟨node, -, rfl⟩
  · exact ⟨rfl, rfl⟩
  · simp

end Simp

/-- Acts other than `drop` neither lose nor duplicate callbacks: those attached are those
still to be called and those that have been called. -/
theorem Act.nodes {g : Guard U} {s s' : Store U} (hwf : s.heap.WellFormed)
    (hact : Act g s s') :
    (g s .drop ∧ ∃ work' ≤ s.work, s' = { s with work := work' }) ∨
    s'.nodes + calledNodes s'.trace + attachedNodes s.trace =
      s.nodes + calledNodes s.trace + attachedNodes s'.trace := by
  have hwf' : ∀ how, Heap.WellFormed (s.heap ++ [newPending how]) := fun how =>
    wellFormed_append hwf (isUnderlying_newPending how)
  -- only `drop` may lose callbacks
  by_cases hdrops : g s .drop ∧ ∃ work' ≤ s.work, s' = { s with work := work' }
  · exact .inl hdrops
  right
  cases hact with
  | drop hguard hle => exact absurd ⟨hguard, _, hle, rfl⟩ hdrops
  | compress hc => simp [nodes_eq, heapTotal_compressed hwf hc]
  | note he => simp [nodes_eq, he.nodes]
  | allocResolved r => simp [nodes_eq]
  | allocInitial hinit => simp [nodes_eq, hinit.nodes]
  | attachCompose hu hhow =>
    rw [nodes_attach hu.append]
    simp [Store.attach, nodes_eq]
  | attachObserve hu =>
    rw [nodes_attach hu]
    simp [Store.attach]
  | newCell hkind hadd => simp [nodes_eq, heapNodes_addCellToEach (hwf' _) hadd]
  | newProtection hadd =>
    rw [nodes_attachCancel]
    simp [nodes_eq, heapNodes_addCellToEach (hwf' _) hadd]
  | addUserCancel => simp
  | joinNew => simp [nodes_eq]
  | joinAttach hjoining hjoin hu =>
    rw [nodes_attach]
    · simp [Store.attach, nodes_eq]
    · exact hu
  | joinEndEmpty => simp [nodes_eq]
  | wake hp hcb =>
    rw [nodes_resolve hcb]
    simp [Store.resolve]
  | cancelMark hcb hhow =>
    rw [nodes_resolve hcb]
    simp [Store.resolve]
  | runRecord hwork => simp [nodes_eq, hwork]
  | regularEmpty hwork => simp [nodes_eq, hwork, RegularCallbackList.nodes]
  | regularConcat hwork => simp [nodes_eq, hwork, RegularCallbackList.nodes, add_assoc]
  | regularDead hwork => simp [nodes_eq, hwork, RegularCallbackList.nodes]
  | cancelsEmpty hwork => simp [nodes_eq, hwork]
  | cancelsConcat hwork => simp [nodes_eq, hwork]
  | cancelsUser hwork => simp [nodes_eq, hwork]
  | cancelsNode hwork => simp [nodes_eq, hwork]
  | cancelsRemove hwork hguard =>
    have hclear := nodes_clear hwf
    simp_all [nodes_eq, Store.clear]
  | callCompose hwork hcallback => simp [nodes_eq, hwork, RegularCallbackList.nodes]
  | callObserve hwork hcallback => simp [nodes_eq, hwork, RegularCallbackList.nodes]
  | callJoinNone hwork hcallback => simp [nodes_eq, hwork, RegularCallbackList.nodes]
  | callJoin hwork hcallback => simp [nodes_eq, hwork, RegularCallbackList.nodes]
  | callJoinLast hjoining hwork hcallback => simp [nodes_eq, hwork, RegularCallbackList.nodes]
  | callCell hwork hcell hlive hkind hguard =>
    have hclear := nodes_clear hwf
    simp_all [nodes_eq, Store.clear, RegularCallbackList.nodes]
  | callProtection hwork hcell hlive hkind hguard hc hcb =>
    rw [nodes_resolve_compressed hwf hwork hc hcb]
    simp [Store.resolve, Store.clear]
  | settle hwork hpromised hcb =>
    rw [nodes_resolve]
    · simp [nodes_eq, Store.resolve, hwork]
    · exact hcb
  | settleExact hwork hcb =>
    rw [nodes_resolve]
    · simp [nodes_eq, Store.resolve, hwork]
    · exact hcb
  | link hwork hc hne hcb houter hguard =>
    simp [nodes_eq, hwork, heapNodes_link s.cells hwf hc hne hcb houter]
  | same hwork hroot => simp [nodes_eq, hwork]
  | _ => rfl

end Lwt
