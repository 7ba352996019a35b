import Lwt.Promise.Store

/-!
# What an act does to the heap

Up to the callback lists there are four possibilities (`Effect`): the heap stays similar,
one promise is added, a pending promise is resolved, or a pending promise is linked under
another one.  In each case well-formedness is kept and the roots are known.
-/

namespace Lwt

open Heap

variable {U : Type} {g : Guard U} {L : Pid → Pid → Prop}

/-- The effect of an act on the heap; `L` says which links are admitted. -/
inductive Effect (L : Pid → Pid → Prop) : Heap U → Heap U → Prop
  | similar {h h' : Heap U} : Similar h h' → Effect L h h'
  | alloc {h h' : Heap U} {x : State U} : x.IsUnderlying → Similar (h ++ [x]) h' → Effect L h h'
  | resolve {h h₁ : Heap U} {u : Pid} {callbacks : Callbacks U} {r : Result U} :
      Similar h h₁ → h₁[u]? = some (.pending callbacks) → Effect L h (h₁.set u (.resolved r))
  | link {h h₁ : Heap U} {outer inner : Pid} {callbacks outerCallbacks merged : Callbacks U} :
      L outer inner → Compressed h h₁ → inner ≠ outer → h.root inner = inner →
      h.root outer = outer →
      h₁[inner]? = some (.pending callbacks) → h₁[outer]? = some (.pending outerCallbacks) →
      merged.howToCancel = callbacks.howToCancel →
      Effect L h ((h₁.set outer (.pending merged)).set inner (.proxy outer))

namespace Heap

variable {h h' h₁ : Heap U} {p u outer inner : Pid}

theorem wellFormed_append {x : State U} (hwf : h.WellFormed) (hx : x.IsUnderlying) :
    Heap.WellFormed (h ++ [x]) :=
  wellFormed_of_parent_eq (parent_append hx) (by simp) hwf

theorem root_append {x : State U} (hwf : h.WellFormed) (hx : x.IsUnderlying) (p : Pid) :
    Heap.root (h ++ [x]) p = h.root p :=
  root_of_parent_eq (parent_append hx) (by simp) hwf p

@[simp] theorem isUnderlying_newPending (how : HowToCancel) :
    (newPending how : State U).IsUnderlying := trivial

theorem root_length (hwf : h.WellFormed) : h.root h.length = h.length :=
  root_of_parent_eq_none hwf (by simp [parent])

theorem wellFormed_set {s t : State U} (hwf : h.WellFormed) (hs : h[u]? = some s)
    (hu : s.IsUnderlying) (hu' : t.IsUnderlying) : Heap.WellFormed (h.set u t) :=
  wellFormed_of_parent_eq (parent_set_underlying hs hu hu') (by simp) hwf

theorem root_set {s t : State U} (hwf : h.WellFormed) (hs : h[u]? = some s)
    (hu : s.IsUnderlying) (hu' : t.IsUnderlying) (p : Pid) :
    Heap.root (h.set u t) p = h.root p :=
  root_of_parent_eq (parent_set_underlying hs hu hu') (by simp) hwf p

/-- The heap that `make_into_proxy` leaves. -/
theorem link_spec {callbacks outerCallbacks : Callbacks U} (merged : Callbacks U)
    (hwf : h.WellFormed)
    (hc : Compressed h h₁) (hne : inner ≠ outer) (hinner : h₁[inner]? = some (.pending callbacks))
    (houter : h₁[outer]? = some (.pending outerCallbacks)) :
    Heap.WellFormed ((h₁.set outer (.pending merged)).set inner (.proxy outer)) ∧
      ∀ p, Heap.root ((h₁.set outer (.pending merged)).set inner (.proxy outer)) p =
        if h.root p = inner then outer else h.root p := by
  have hwf₁ := hc.wellFormed hwf
  have hwf₂ : Heap.WellFormed (h₁.set outer (.pending merged)) :=
    wellFormed_set hwf₁ houter trivial trivial
  have hinner₂ : (h₁.set outer (.pending merged))[inner]? = some (.pending callbacks) := by
    rw [List.getElem?_set_ne (Ne.symm hne), hinner]
  have houter₂ : (h₁.set outer (.pending merged))[outer]? = some (.pending merged) := by
    simp [lt_length_of_getElem? houter]
  obtain ⟨hwf₃, hroot⟩ := link hwf₂ hinner₂ trivial houter₂ trivial hne
  refine ⟨hwf₃, fun p => ?_⟩
  rw [hroot, root_set (t := .pending merged) hwf₁ houter trivial trivial, hc.root_eq hwf]

theorem isResolved_root_set {callbacks : Callbacks U} {r : Result U} (hwf : h.WellFormed)
    (hp : h[h.root p]? = some (.pending callbacks)) :
    Heap.IsResolved (h.set (h.root p) (.resolved r))
      (Heap.root (h.set (h.root p) (.resolved r)) p) r := by
  rw [root_set (t := .resolved r) hwf hp trivial trivial]
  exact List.getElem?_set_self (lt_length_of_getElem? hp)

theorem IsPending.append {x : State U} (hp : h.IsPending p) : Heap.IsPending (h ++ [x]) p := by
  obtain ⟨callbacks, hcb⟩ := hp
  exact ⟨callbacks, by rw [List.getElem?_append_left (lt_length_of_getElem? hcb), hcb]⟩

theorem IsPending.root_eq (hwf : h.WellFormed) (hp : h.IsPending p) : h.root p = p := by
  obtain ⟨callbacks, hcb⟩ := hp
  exact root_of_getElem? hwf hcb trivial

end Heap

theorem howToCancel_addImplicitlyRemovedCallback (node : Node U) (callbacks : Callbacks U) :
    (addImplicitlyRemovedCallback node callbacks).howToCancel = callbacks.howToCancel := rfl

theorem howToCancel_addCancelCallback (mark : Mark) (storage : Storage U) (f : CancelCallback U)
    (callbacks : Callbacks U) :
    (addCancelCallback mark storage f callbacks).howToCancel = callbacks.howToCancel := rfl

theorem Store.similar_attach (s : Store U) (u : Pid) (callback : Callback U) :
    Similar s.heap (s.attach u callback).heap :=
  similar_modifyPending fun callbacks => howToCancel_addImplicitlyRemovedCallback _ callbacks

theorem Store.similar_attachCancel (s : Store U) (u : Pid) (storage : Storage U)
    (f : CancelCallback U) : Similar s.heap (s.attachCancel u storage f).heap :=
  similar_modifyPending fun callbacks => howToCancel_addCancelCallback _ _ _ callbacks

theorem Store.similar_clear {s : Store U} (hwf : s.heap.WellFormed) (i : ℕ) :
    Similar s.heap (s.clear i).heap :=
  similar_visitEach _ hwf _

theorem Act.effect {s s' : Store U} (hwf : s.heap.WellFormed) (hact : Act g s s') :
    Effect (fun outer inner => g s (.link outer inner)) s.heap s'.heap := by
  cases hact with
  | compress hc => exact .similar hc.similar
  | allocResolved r => exact .alloc (x := .resolved r) trivial (.refl _)
  | allocInitial => exact .alloc (x := .pending _) trivial (.refl _)
  | attachCompose hu hhow =>
    exact .alloc (x := newPending _) trivial (Store.similar_attach { s with heap := _ } _ _)
  | attachObserve hu => exact .similar (Store.similar_attach s _ _)
  | newCell hkind hadd =>
    exact .alloc (x := newPending _) trivial
      (similar_addCellToEach (wellFormed_append hwf trivial) hadd)
  | newProtection hadd =>
    have hwf' := wellFormed_append (x := newPending .cancelThisPromise) hwf trivial
    exact .alloc (x := newPending .cancelThisPromise) trivial
      ((similar_addCellToEach hwf' hadd).trans
        (Store.similar_attachCancel { s with heap := _, cells := _ } _ _ _))
  | addUserCancel => exact .similar (Store.similar_attachCancel s _ _ _)
  | joinNew => exact .alloc (x := newPending _) trivial (.refl _)
  | joinAttach => exact .similar (Store.similar_attach { s with joins := _ } _ _)
  | joinEndEmpty => exact .alloc (x := .resolved _) trivial (.refl _)
  | wake hp hcb => exact .resolve (.refl _) hcb
  | cancelMark hcb hhow => exact .resolve (.refl _) hcb
  | cancelsRemove => exact .similar (Store.similar_clear hwf _)
  | callCell => exact .similar (Store.similar_clear hwf _)
  | callProtection hwork hcell hlive hkind hg hc hcb =>
    exact .resolve ((Store.similar_clear hwf _).trans hc.similar) hcb
  | settle hwork hpromised hcb => exact .resolve (.refl _) hcb
  | settleExact hwork hcb => exact .resolve (.refl _) hcb
  | link hwork hc hne hcb houter hguard =>
    exact .link hguard hc hne (root_root hwf _) (root_root hwf _) hcb houter rfl
  | _ => exact .similar (.refl _)

theorem Effect.wellFormed {h h' : Heap U} (hwf : h.WellFormed) (he : Effect L h h') :
    h'.WellFormed := by
  cases he with
  | similar hs => exact hs.wellFormed hwf
  | alloc hx hs => exact hs.wellFormed (wellFormed_append hwf hx)
  | resolve hs hcb => exact wellFormed_set (hs.wellFormed hwf) hcb trivial trivial
  | link _ hc hne _ _ hinner houter => exact (link_spec _ hwf hc hne hinner houter).1

theorem Effect.root_cases {h h' : Heap U} (hwf : h.WellFormed) (he : Effect L h h') :
    (∀ p, h'.root p = h.root p) ∨
      ∃ outer inner, L outer inner ∧ inner ≠ outer ∧ h.IsPending inner ∧ h.IsPending outer ∧
        ∀ p, h'.root p = if h.root p = inner then outer else h.root p := by
  cases he with
  | similar hs => exact .inl (hs.root_eq hwf)
  | alloc hx hs =>
    exact .inl fun p => (hs.root_eq (wellFormed_append hwf hx) p).trans (root_append hwf hx p)
  | @resolve h₁ u callbacks r hs hcb =>
    refine .inl fun p => ?_
    rw [root_set (t := .resolved r) (hs.wellFormed hwf) hcb trivial trivial, hs.root_eq hwf]
  | @link h₁ outer inner callbacks outerCallbacks merged hL hc hne hinner houter hcb hcb' =>
    refine .inr ⟨outer, inner, hL, hne, ?_, ?_, (link_spec _ hwf hc hne hcb hcb').2⟩
    · rw [← hinner, ← hc.similar.isPending_root_iff hwf, hinner]
      exact ⟨callbacks, hcb⟩
    · rw [← houter, ← hc.similar.isPending_root_iff hwf, houter]
      exact ⟨outerCallbacks, hcb'⟩

theorem Effect.isResolved {h h' : Heap U} {p : Pid} {r : Result U} (he : Effect L h h')
    (hr : h.IsResolved p r) : h'.IsResolved p r := by
  cases he with
  | similar hs => exact hs.isResolved hr
  | alloc hx hs =>
    refine hs.isResolved ?_
    rw [IsResolved, List.getElem?_append_left (lt_length_of_getElem? hr)]
    exact hr
  | @resolve h₁ u callbacks r' hs hcb =>
    have hr₁ : h₁.IsResolved p r := hs.isResolved hr
    have hne : u ≠ p := by
      rintro rfl
      simp [IsResolved, hcb] at hr₁
    rw [IsResolved, List.getElem?_set_ne hne]
    exact hr₁
  | @link h₁ outer inner callbacks outerCallbacks merged _ hc hne _ _ hinner houter =>
    have hr₁ : h₁.IsResolved p r := hc.similar.isResolved hr
    have hi : inner ≠ p := by
      rintro rfl
      simp [IsResolved, hinner] at hr₁
    have ho : outer ≠ p := by
      rintro rfl
      simp [IsResolved, houter] at hr₁
    rw [IsResolved, List.getElem?_set_ne hi, List.getElem?_set_ne ho]
    exact hr₁

theorem Effect.isResolved_root {h h' : Heap U} {p : Pid} {r : Result U} (hwf : h.WellFormed)
    (he : Effect L h h') (hr : h.IsResolved (h.root p) r) : h'.IsResolved (h'.root p) r := by
  rcases he.root_cases hwf with hroot | ⟨outer, inner, -, -, ⟨callbacks, hinner⟩, -, hroot⟩
  · rw [hroot]
    exact he.isResolved hr
  · have hne : h.root p ≠ inner := by
      rintro rfl
      simp [IsResolved, hinner] at hr
    rw [hroot, if_neg hne]
    exact he.isResolved hr

theorem Effect.root_eq_of_resolved {h h' : Heap U} {u : Pid} {callbacks : Callbacks U}
    {r : Result U} (hwf : h.WellFormed) (he : Effect L h h')
    (hu : h[u]? = some (.pending callbacks)) (hr : h'.IsResolved u r) (p : Pid) :
    h'.root p = h.root p := by
  cases he with
  | similar hs => exact hs.root_eq hwf p
  | alloc hx hs => exact (hs.root_eq (wellFormed_append hwf hx) p).trans (root_append hwf hx p)
  | @resolve h₁ u callbacks r hs hcb =>
    rw [root_set (t := .resolved r) (hs.wellFormed hwf) hcb trivial trivial, hs.root_eq hwf]
  | @link h₁ outer inner callbacks' outerCallbacks merged _ hc hne _ _ hinner houter =>
    have hroot : h.root u = u := root_of_getElem? hwf hu trivial
    have hu₁ : h₁[u]? = some (.pending callbacks) := by
      rw [← hroot, hc.getElem?_root hwf, hroot]
      exact hu
    by_cases hi : inner = u
    · subst hi
      rw [IsResolved, List.getElem?_set_self (by simpa using lt_length_of_getElem? hinner)] at hr
      simp at hr
    · by_cases ho : outer = u
      · subst ho
        rw [IsResolved, List.getElem?_set_ne hi,
          List.getElem?_set_self (lt_length_of_getElem? houter)] at hr
        simp at hr
      · rw [IsResolved, List.getElem?_set_ne hi, List.getElem?_set_ne ho, hu₁] at hr
        simp at hr

/-- What holds of the heap, the resolvers and the sequences of every store. -/
structure Sound (s : Store U) : Prop where
  wellFormed : s.heap.WellFormed
  resolvers_lt : ∀ p ∈ s.resolvers, p < s.heap.length
  sequences : ∀ p, s.sequences.Holds p → p ∈ s.resolvers

theorem Effect.length_le {h h' : Heap U} (he : Effect L h h') : h.length ≤ h'.length := by
  cases he with
  | similar hs => exact hs.length_eq.ge
  | alloc hx hs => simp [hs.length_eq]
  | resolve hs hcb => simp [hs.length_eq]
  | link _ hc => simp [hc.length_eq]

theorem Act.sound {s s' : Store U} (hs : Sound s) (hact : Act g s s') : Sound s' := by
  have heffect := hact.effect hs.wellFormed
  have hlt : ∀ p ∈ s.resolvers, p < s'.heap.length := fun p hp =>
    (hs.resolvers_lt p hp).trans_le heffect.length_le
  cases hact with
  | sequences hsub =>
    exact ⟨heffect.wellFormed hs.wellFormed, hlt, fun p hp => hs.sequences p (hsub p hp)⟩
  | allocInitial _ _ hsub =>
    refine ⟨heffect.wellFormed hs.wellFormed, fun p hp => ?_, fun p hp => ?_⟩
    · rcases List.mem_cons.mp hp with rfl | hp
      · simp
      · exact hlt p hp
    · rcases hsub p hp with hold | rfl
      · exact List.mem_cons_of_mem _ (hs.sequences p hold)
      · exact List.mem_cons_self
  | _ => exact ⟨heffect.wellFormed hs.wellFormed, hlt, hs.sequences⟩

/-- An invariant of acts is an invariant of sequences of acts. -/
theorem Acts.invariant {P : Store U → Prop} {s s' : Store U} (hacts : Acts g s s') (hs : P s)
    (hact : ∀ s s', P s → Act g s s' → P s') : P s' := by
  induction hacts with
  | refl => exact hs
  | tail _ hlast ih => exact hact _ _ ih hlast

theorem Acts.sound {s s' : Store U} (hs : Sound s) (hacts : Acts g s s') : Sound s' :=
  hacts.invariant hs fun _ _ => Act.sound

end Lwt
