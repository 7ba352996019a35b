import Lwt.Promise.Race

/-!
# What `nchoose`, `npick` and `nchoose_split` collect

Each of the three functions has two passes over its list: one at the call, if a member is
resolved then, and one in its callback, if all were pending.  `collected` and `split` say what
the passes are for: the values of the fulfilled members and the pending members, both in the
order of the list, or the exception of the first member that is rejected.

The pass of `nchoose_split` at the call does not reverse the pending members it has gathered
(`checkForAlreadyResolvedSplit_eq`), so they come out in the reverse order.
-/

namespace Lwt

open Heap Table Transition

variable {U : Type} {c₀ c₁ c c' : Config U} {a : Label U} {i : ℕ} {u : U} {p q : Pid}
  {ps : List Pid} {r : Result U} {h h' : Heap U}

theorem match_of_not_resolved {α : Type} {s : Option (State U)} (onFulfilled : Val U → α)
    (onRejected : Exn U → α) (pass : α) : (∀ r, s ≠ some (.resolved r)) →
    (match s with
      | some (.resolved (.fulfilled v)) => onFulfilled v
      | some (.resolved (.rejected e)) => onRejected e
      | _ => pass) = pass := by
  intro hnot
  split
  · exact absurd rfl (hnot _)
  · exact absurd rfl (hnot _)
  · rfl

/-! ## The members -/

namespace Heap

def fulfilledWith (h : Heap U) (p : Pid) : Option (Val U) :=
  match h.stateOf p with
  | some (.resolved (.fulfilled v)) => some v
  | _ => none

def rejectedWith (h : Heap U) (p : Pid) : Option (Exn U) :=
  match h.stateOf p with
  | some (.resolved (.rejected e)) => some e
  | _ => none

/-- The values of the members that are fulfilled. -/
def values (h : Heap U) (ps : List Pid) : List (Val U) := ps.filterMap h.fulfilledWith

/-- The members that are still pending. -/
def stillPending (h : Heap U) (ps : List Pid) : List Pid := ps.filter fun p => !h.isResolved p

/-- The exception of the first member that is rejected. -/
def firstRejected (h : Heap U) (ps : List Pid) : Option (Exn U) := ps.findSome? h.rejectedWith

/-- The exception of the first member that is rejected, or else the value `v`. -/
def orRejected (h : Heap U) (ps : List Pid) (v : Val U) : Result U :=
  match h.firstRejected ps with
  | some e => .rejected e
  | none => .fulfilled v

/-- What `nchoose ps` and `npick ps` are resolved with. -/
def collected (h : Heap U) (ps : List Pid) : Result U :=
  h.orRejected ps (Val.ofList (h.values ps))

def pairOf (values : List (Val U)) (pending : List Pid) : Val U :=
  .pair (Val.ofList values) (Val.ofList (pending.map Val.promise))

/-- What `nchoose_split ps` is resolved with, according to its callback. -/
def split (h : Heap U) (ps : List Pid) : Result U :=
  h.orRejected ps (pairOf (h.values ps) (h.stillPending ps))

/-- What `nchoose_split ps` is resolved with at its call. -/
def reversedSplit (h : Heap U) (ps : List Pid) : Result U :=
  h.orRejected ps (pairOf (h.values ps) (h.stillPending ps).reverse)

theorem passed (hnot : ∀ r, h.stateOf p ≠ some (.resolved r)) :
    h.fulfilledWith p = none ∧ h.rejectedWith p = none ∧ h.isResolved p = false := by
  refine ⟨?_, ?_, ?_⟩
  · unfold fulfilledWith
    split
    · rename_i v hst
      exact absurd hst (hnot _)
    · rfl
  · unfold rejectedWith
    split
    · rename_i e hst
      exact absurd hst (hnot _)
    · rfl
  · unfold isResolved
    split
    · rename_i r hst
      exact absurd hst (hnot _)
    · rfl

theorem cons_cases (h : Heap U) (p : Pid) (ps : List Pid) :
    (∃ v, h.stateOf p = some (.resolved (.fulfilled v)) ∧ h.values (p :: ps) = v :: h.values ps ∧
      h.stillPending (p :: ps) = h.stillPending ps ∧
      h.firstRejected (p :: ps) = h.firstRejected ps ∧ h.isResolved p = true) ∨
    (∃ e, h.stateOf p = some (.resolved (.rejected e)) ∧ h.firstRejected (p :: ps) = some e ∧
      h.isResolved p = true) ∨
    ((∀ r, h.stateOf p ≠ some (.resolved r)) ∧ h.values (p :: ps) = h.values ps ∧
      h.stillPending (p :: ps) = p :: h.stillPending ps ∧
      h.firstRejected (p :: ps) = h.firstRejected ps ∧ h.isResolved p = false) := by
  by_cases hres : ∃ r, h.stateOf p = some (.resolved r)
  · obtain ⟨r, hst⟩ := hres
    cases r with
    | fulfilled v =>
      refine .inl ⟨v, hst, ?_, ?_, ?_, ?_⟩ <;>
        simp [values, stillPending, firstRejected, fulfilledWith, rejectedWith, isResolved, hst]
    | rejected e =>
      refine .inr (.inl ⟨e, hst, ?_, ?_⟩) <;>
        simp [firstRejected, rejectedWith, isResolved, hst]
  · have hnot : ∀ r, h.stateOf p ≠ some (.resolved r) := fun r hr => hres ⟨r, hr⟩
    obtain ⟨hvalue, hexn, hpend⟩ := passed hnot
    refine .inr (.inr ⟨hnot, ?_, ?_, ?_, hpend⟩) <;>
      simp [values, stillPending, firstRejected, hvalue, hexn, hpend]

end Heap

/-! ## The passes -/

theorem collectFulfilledPromisesAfterPending_eq (h : Heap U) (results : List (Val U))
    (ps : List Pid) : collectFulfilledPromisesAfterPending h results ps =
      h.orRejected ps (Val.ofList (results.reverse ++ h.values ps)) := by
  induction ps generalizing results with
  | nil => simp [collectFulfilledPromisesAfterPending, orRejected, firstRejected, values]
  | cons p ps ih =>
    rcases h.cons_cases p ps with ⟨v, hst, hvalues, -, hrejected, -⟩ | ⟨e, hst, hrejected, -⟩ |
      ⟨hnot, hvalues, -, hrejected, -⟩
    · simp only [collectFulfilledPromisesAfterPending, hst, ih, orRejected, hrejected, hvalues]
      simp
    · simp only [collectFulfilledPromisesAfterPending, hst, orRejected, hrejected]
    · have hpass : collectFulfilledPromisesAfterPending h results (p :: ps) =
          collectFulfilledPromisesAfterPending h results ps := by
        rw [collectFulfilledPromisesAfterPending]
        exact match_of_not_resolved _ _ _ hnot
      rw [hpass, ih, orRejected, orRejected, hrejected, hvalues]

theorem finishSplit_eq (h : Heap U) (fulfilled : List (Val U)) (pending ps : List Pid) :
    finishSplit h fulfilled pending ps = h.orRejected ps
      (pairOf (fulfilled.reverse ++ h.values ps) (pending.reverse ++ h.stillPending ps)) := by
  induction ps generalizing fulfilled pending with
  | nil => simp [finishSplit, orRejected, firstRejected, values, stillPending, pairOf]
  | cons p ps ih =>
    rcases h.cons_cases p ps with ⟨v, hst, hvalues, hpending, hrejected, -⟩ |
      ⟨e, hst, hrejected, -⟩ | ⟨hnot, hvalues, hpending, hrejected, -⟩
    · simp only [finishSplit, hst, ih, orRejected, hrejected, hvalues, hpending]
      simp
    · simp only [finishSplit, hst, orRejected, hrejected]
    · have hpass : finishSplit h fulfilled pending (p :: ps) =
          finishSplit h fulfilled (p :: pending) ps := by
        rw [finishSplit]
        exact match_of_not_resolved _ _ _ hnot
      rw [hpass, ih, orRejected, orRejected, hrejected, hvalues, hpending]
      simp

theorem collectAlreadyResolvedPromises_eq (h : Heap U) (results : List (Val U))
    (pending ps : List Pid) : collectAlreadyResolvedPromises h results pending ps =
      h.orRejected ps
        (pairOf (results.reverse ++ h.values ps) ((h.stillPending ps).reverse ++ pending)) := by
  induction ps generalizing results pending with
  | nil =>
    simp [collectAlreadyResolvedPromises, orRejected, firstRejected, values, stillPending, pairOf]
  | cons p ps ih =>
    rcases h.cons_cases p ps with ⟨v, hst, hvalues, hpending, hrejected, -⟩ |
      ⟨e, hst, hrejected, -⟩ | ⟨hnot, hvalues, hpending, hrejected, -⟩
    · simp only [collectAlreadyResolvedPromises, hst, ih, orRejected, hrejected, hvalues,
        hpending]
      simp
    · simp only [collectAlreadyResolvedPromises, hst, orRejected, hrejected]
    · have hpass : collectAlreadyResolvedPromises h results pending (p :: ps) =
          collectAlreadyResolvedPromises h results (p :: pending) ps := by
        rw [collectAlreadyResolvedPromises]
        exact match_of_not_resolved _ _ _ hnot
      rw [hpass, ih, orRejected, orRejected, hrejected, hvalues, hpending]
      simp

theorem checkForAlreadyResolvedPromises_eq (h : Heap U) (ps : List Pid) :
    checkForAlreadyResolvedPromises h ps =
      if ps.any h.isResolved then some (h.collected ps) else none := by
  induction ps with
  | nil => rfl
  | cons p ps ih =>
    rcases h.cons_cases p ps with ⟨v, hst, hvalues, -, hrejected, hres⟩ |
      ⟨e, hst, hrejected, hres⟩ | ⟨hnot, hvalues, -, hrejected, hpend⟩
    · simp only [checkForAlreadyResolvedPromises, hst, List.any_cons, hres, Bool.true_or, if_true,
        collectFulfilledPromisesAfterPending_eq, collected, orRejected, hrejected, hvalues]
      rfl
    · simp only [checkForAlreadyResolvedPromises, hst, List.any_cons, hres, Bool.true_or, if_true,
        collected, orRejected, hrejected]
    · have hpass : checkForAlreadyResolvedPromises h (p :: ps) =
          checkForAlreadyResolvedPromises h ps := by
        rw [checkForAlreadyResolvedPromises]
        exact match_of_not_resolved _ _ _ hnot
      rw [hpass, ih, List.any_cons, hpend, Bool.false_or, collected, collected, orRejected,
        orRejected, hrejected, hvalues]

theorem checkForAlreadyResolvedSplit_eq (h : Heap U) (pending ps : List Pid) :
    checkForAlreadyResolvedSplit h pending ps =
      if ps.any h.isResolved then
        some (h.orRejected ps (pairOf (h.values ps) ((h.stillPending ps).reverse ++ pending)))
      else none := by
  induction ps generalizing pending with
  | nil => rfl
  | cons p ps ih =>
    rcases h.cons_cases p ps with ⟨v, hst, hvalues, hpending, hrejected, hres⟩ |
      ⟨e, hst, hrejected, hres⟩ | ⟨hnot, hvalues, hpending, hrejected, hpend⟩
    · simp only [checkForAlreadyResolvedSplit, hst, List.any_cons, hres, Bool.true_or, if_true,
        collectAlreadyResolvedPromises_eq, orRejected, hrejected, hvalues, hpending]
      rfl
    · simp only [checkForAlreadyResolvedSplit, hst, List.any_cons, hres, Bool.true_or, if_true,
        orRejected, hrejected]
    · have hpass : checkForAlreadyResolvedSplit h pending (p :: ps) =
          checkForAlreadyResolvedSplit h (p :: pending) ps := by
        rw [checkForAlreadyResolvedSplit]
        exact match_of_not_resolved _ _ _ hnot
      rw [hpass, ih, List.any_cons, hpend, Bool.false_or, orRejected, orRejected, hrejected,
        hvalues, hpending]
      simp

theorem Heap.collected_congr (hsame : ∀ p r, h'.stateOf p = some (.resolved r) ↔
    h.stateOf p = some (.resolved r)) (ps : List Pid) :
    h'.collected ps = h.collected ps ∧ h'.split ps = h.split ps ∧
      h'.reversedSplit ps = h.reversedSplit ps := by
  have hpass : ∀ p, h'.fulfilledWith p = h.fulfilledWith p ∧
      h'.rejectedWith p = h.rejectedWith p ∧ h'.isResolved p = h.isResolved p := by
    intro p
    by_cases hres : ∃ r, h.stateOf p = some (.resolved r)
    · obtain ⟨r, hr⟩ := hres
      have hr' := (hsame p r).mpr hr
      simp only [fulfilledWith, rejectedWith, isResolved, hr, hr', and_self]
    · have hnot : ∀ r, h.stateOf p ≠ some (.resolved r) := fun r hr => hres ⟨r, hr⟩
      have hnot' : ∀ r, h'.stateOf p ≠ some (.resolved r) := fun r hr =>
        hnot r ((hsame p r).mp hr)
      obtain ⟨hvalue, hexn, hpend⟩ := passed hnot
      obtain ⟨hvalue', hexn', hpend'⟩ := passed hnot'
      exact ⟨hvalue'.trans hvalue.symm, hexn'.trans hexn.symm, hpend'.trans hpend.symm⟩
  have hvalue : h'.fulfilledWith = h.fulfilledWith := funext fun p => (hpass p).1
  have hexn : h'.rejectedWith = h.rejectedWith := funext fun p => (hpass p).2.1
  have hpend : h'.isResolved = h.isResolved := funext fun p => (hpass p).2.2
  simp only [collected, split, reversedSplit, orRejected, firstRejected, values, stillPending,
    hvalue, hexn, hpend, and_self]

theorem Heap.Compressed.stateOf_resolved_iff (hwf : h.WellFormed) (hc : Compressed h h') (p : Pid)
    (r : Result U) : h'.stateOf p = some (.resolved r) ↔ h.stateOf p = some (.resolved r) := by
  rw [hc.stateOf_eq hwf]

theorem Heap.Similar.stateOf_resolved_iff (hwf : h.WellFormed) (hs : Similar h h') (p : Pid)
    (r : Result U) : h'.stateOf p = some (.resolved r) ↔ h.stateOf p = some (.resolved r) := by
  rw [stateOf, stateOf, hs.root_eq hwf]
  have hshape := hs.shape_root hwf p
  constructor
  · intro hr
    rw [shape_eq_resolved.mpr hr] at hshape
    exact shape_eq_resolved.mp hshape.symm
  · intro hr
    rw [shape_eq_resolved.mpr hr] at hshape
    exact shape_eq_resolved.mp hshape

/-! ## The calls -/

theorem any_isResolved_compressAll (hwf : h.WellFormed) (ps qs : List Pid) :
    qs.any (Heap.isResolved (h.compressAll ps)) = qs.any h.isResolved := by
  rw [funext fun q => (compressed_compressAll hwf ps).isResolved_eq hwf q]

theorem nchoose_eq (hwf : c.heap.WellFormed) (hps : ps ≠ []) : nchoose c ps =
    if ps.any c.heap.isResolved then
      (c.followAll ps).retNew (.resolved (c.heap.collected ps))
    else attachCell (c.followAll ps) .nchoose (.propagateCancelToSeveral ps) ps := by
  have hcomp := compressed_compressAll hwf ps
  have hcheck : checkForAlreadyResolvedPromises (c.followAll ps).heap ps =
      if ps.any c.heap.isResolved then some (c.heap.collected ps) else none := by
    rw [checkForAlreadyResolvedPromises_eq,
      ← (Heap.collected_congr (hcomp.stateOf_resolved_iff hwf) ps).1,
      ← any_isResolved_compressAll hwf ps]
    rfl
  simp only [nchoose, if_neg hps, hcheck]
  by_cases hany : ps.any c.heap.isResolved = true
  · simp only [if_pos hany]
  · simp only [if_neg hany]

theorem npick_eq (hwf : c.heap.WellFormed) (hps : ps ≠ []) : npick c ps =
    if ps.any c.heap.isResolved then
      ((c.followAll ps).push [.iterCancel ps, .allocResult (c.heap.collected ps)]).ret .unit
    else attachCell (c.followAll ps) .npick (.propagateCancelToSeveral ps) ps := by
  have hcomp := compressed_compressAll hwf ps
  have hcheck : checkForAlreadyResolvedPromises (c.followAll ps).heap ps =
      if ps.any c.heap.isResolved then some (c.heap.collected ps) else none := by
    rw [checkForAlreadyResolvedPromises_eq,
      ← (Heap.collected_congr (hcomp.stateOf_resolved_iff hwf) ps).1,
      ← any_isResolved_compressAll hwf ps]
    rfl
  simp only [npick, if_neg hps, hcheck]
  by_cases hany : ps.any c.heap.isResolved = true
  · simp only [if_pos hany]
  · simp only [if_neg hany]

theorem nchooseSplit_eq (hwf : c.heap.WellFormed) (hps : ps ≠ []) : nchooseSplit c ps =
    if ps.any c.heap.isResolved then
      (c.followAll ps).retNew (.resolved (c.heap.reversedSplit ps))
    else attachCell (c.followAll ps) .nchooseSplit (.propagateCancelToSeveral ps) ps := by
  have hcomp := compressed_compressAll hwf ps
  have hcheck : checkForAlreadyResolvedSplit (c.followAll ps).heap [] ps =
      if ps.any c.heap.isResolved then some (c.heap.reversedSplit ps) else none := by
    rw [checkForAlreadyResolvedSplit_eq, List.append_nil,
      ← (Heap.collected_congr (hcomp.stateOf_resolved_iff hwf) ps).2.2,
      ← any_isResolved_compressAll hwf ps]
    rfl
  simp only [nchooseSplit, if_neg hps, hcheck]
  by_cases hany : ps.any c.heap.isResolved = true
  · simp only [if_pos hany]
  · simp only [if_neg hany]

/-- The three functions. -/
inductive Collector
  | nchoose
  | npick
  | nchooseSplit

namespace Collector

def op (k : Collector) (ps : List Pid) : Op U :=
  match k with
  | nchoose => .nchoose ps
  | npick => .npick ps
  | nchooseSplit => .nchooseSplit ps

def kind : Collector → CellKind
  | nchoose => .nchoose
  | npick => .npick
  | nchooseSplit => .nchooseSplit

/-- What the promise is resolved with if the members are in the heap `h`. -/
def result (k : Collector) (h : Heap U) (ps : List Pid) : Result U :=
  match k with
  | nchoose | npick => h.collected ps
  | nchooseSplit => h.split ps

theorem kind_ne (k : Collector) : k.kind ≠ .protection := by
  cases k <;> simp [kind]

theorem result_congr (k : Collector) (hsame : ∀ p r, h'.stateOf p = some (.resolved r) ↔
    h.stateOf p = some (.resolved r)) (ps : List Pid) : k.result h' ps = k.result h ps := by
  obtain ⟨hcollected, hsplit, -⟩ := Heap.collected_congr hsame ps
  cases k
  · exact hcollected
  · exact hcollected
  · exact hsplit

end Collector

/-- A call whose members are all pending attaches its cell to each of them. -/
theorem Collector.call_pending (k : Collector) (hs : Sound c₀.store) (hps : ps ≠ [])
    (hpending : ∀ q ∈ ps, c₀.heap.isResolved q = false)
    (hcall : userStep c₀ (.call (k.op ps) u) = some c₁) :
    c₁.control = .ret (.promise c₀.heap.length) ∧ c₁.stack = .user u :: c₀.stack ∧
      c₁.cells = c₀.cells ++ [⟨k.kind, c₀.heap.length, ps, true⟩] := by
  obtain ⟨hvalid, rfl⟩ := userStep_call hcall
  have hwf : c₀.heap.WellFormed := hs.wellFormed
  have hcomp := compressed_compressAll hwf ps
  have hwf' := hcomp.wellFormed hwf
  have hlt : ∀ q ∈ ps, q < c₀.heap.length := by
    intro q hq
    cases k <;>
    · simp only [Op.valid, Op.promises, Collector.op, Bool.and_eq_true, List.all_eq_true,
        decide_eq_true_eq] at hvalid
      exact hvalid.1.1 q hq
  have hnone : ¬ ps.any (c₀.push [.user u]).heap.isResolved = true := by
    simpa [Config.push] using hpending
  have hattach : execute (c₀.push [.user u]) (k.op ps) =
      attachCell ((c₀.push [.user u]).followAll ps) k.kind (.propagateCancelToSeveral ps) ps := by
    cases k
    · exact (nchoose_eq (c := c₀.push [.user u]) hwf hps).trans (if_neg hnone)
    · exact (npick_eq (c := c₀.push [.user u]) hwf hps).trans (if_neg hnone)
    · exact (nchooseSplit_eq (c := c₀.push [.user u]) hwf hps).trans (if_neg hnone)
  have hall : ∀ q ∈ ps, IsPending (c₀.heap.compressAll ps)
    (Heap.root (c₀.heap.compressAll ps) q) := by
    intro q hq
    rw [hcomp.root_eq hwf, hcomp.similar.isPending_root_iff hwf]
    rcases stateOf_cases hwf (hlt q hq) with hst | ⟨v, hst⟩ | ⟨e, hst⟩
    · exact hst
    · have hres : c₀.heap.isResolved q = true := Heap.isResolved_iff.mpr ⟨_, hst⟩
      simp [hpending q hq] at hres
    · have hres : c₀.heap.isResolved q = true := Heap.isResolved_iff.mpr ⟨_, hst⟩
      simp [hpending q hq] at hres
  have hwf'' := wellFormed_append (x := newPending (.propagateCancelToSeveral ps)) hwf' trivial
  obtain ⟨h, hadd⟩ := exists_addCellToEach c₀.cells.length hwf'' ps fun q hq => by
    rw [root_append hwf' (isUnderlying_newPending _)]
    exact (hall q hq).append
  have hadd' : addCellToEach ((c₀.push [.user u]).followAll ps).cells.length
      (((c₀.push [.user u]).followAll ps).alloc (newPending (.propagateCancelToSeveral ps))).heap
      ps =
        some h := hadd
  have hlen : ((c₀.push [.user u]).followAll ps).heap.length = c₀.heap.length := hcomp.length_eq
  rw [hattach]
  simp only [attachCell, hlen, hadd']
  exact ⟨rfl, rfl, rfl⟩

/-- The call has returned the promise `p`, which is resolved with `r`. -/
structure Gives (c₀ : Config U) (u : U) (p : Pid) (r : Result U) (c : Config U) : Prop where
  control : c.control = .ret (.promise p)
  stack : c.stack = .user u :: c₀.stack
  state : c.heap.stateOf p = some (.resolved r)

theorem gives_retNew (hwf : c.heap.WellFormed) (hstack : c.stack = .user u :: c₀.stack)
    (r : Result U) : Gives c₀ u c.heap.length r (c.retNew (.resolved r)) := by
  refine ⟨rfl, hstack, ?_⟩
  show Heap.stateOf (c.heap ++ [.resolved r]) c.heap.length = _
  rw [stateOf, root_append hwf (x := .resolved r) trivial, root_length hwf]
  simp

/-- The calls of `nchoose` and `nchoose_split` with a resolved member. -/
theorem call_resolved (hs : Sound c₀.store) (hps : ps ≠ [])
    (hsome : ∃ q ∈ ps, c₀.heap.isResolved q = true) :
    (userStep c₀ (.call (.nchoose ps) u) = some c₁ →
      Gives c₀ u c₀.heap.length (c₀.heap.collected ps) c₁) ∧
    (userStep c₀ (.call (.nchooseSplit ps) u) = some c₁ →
      Gives c₀ u c₀.heap.length (c₀.heap.reversedSplit ps) c₁) := by
  have hwf : c₀.heap.WellFormed := hs.wellFormed
  have hcomp := compressed_compressAll hwf ps
  have hany : ps.any (c₀.push [.user u]).heap.isResolved = true := by
    simpa [Config.push] using hsome
  have hlen : ((c₀.push [.user u]).followAll ps).heap.length = c₀.heap.length := hcomp.length_eq
  have hgives : ∀ r, Gives c₀ u ((c₀.push [.user u]).followAll ps).heap.length r
      (((c₀.push [.user u]).followAll ps).retNew (.resolved r)) :=
    gives_retNew (hcomp.wellFormed hwf) rfl
  rw [hlen] at hgives
  constructor
  · intro hcall
    obtain ⟨-, rfl⟩ := userStep_call hcall
    have heq := (nchoose_eq (c := c₀.push [.user u]) hwf hps).trans (if_pos hany)
    show Gives _ _ _ _ (nchoose (c₀.push [.user u]) ps)
    rw [heq]
    exact hgives _
  · intro hcall
    obtain ⟨-, rfl⟩ := userStep_call hcall
    have heq := (nchooseSplit_eq (c := c₀.push [.user u]) hwf hps).trans (if_pos hany)
    show Gives _ _ _ _ (nchooseSplit (c₀.push [.user u]) ps)
    rw [heq]
    exact hgives _

/-! ## The callback -/

/-- The step from `c₂` to `c₃`, in a run that starts at `c₁`, calls the callback of a call with
the promise `p`: `p` is not resolved before it, a member is, and `r` is the result for the
members as they are in `c₂`. -/
structure Collects (k : Collector) (c₁ : Config U) (p : Pid) (ps : List Pid) (r : Result U)
    (c₂ c₃ : Config U) : Prop where
  reach : Reach step (fun _ _ => True) c₁ c₂
  step : ∃ a, step c₂ a = some c₃
  waiting : c₂.heap.isResolved p = false
  member : ∃ q ∈ ps, c₂.heap.isResolved q = true
  result : r = k.result c₂.heap ps

theorem not_isResolved_iff {h : Heap U} :
    h.isResolved p = false ↔ ∀ r, ¬ h.IsResolved (h.root p) r := by
  rw [← Bool.not_eq_true, Heap.isResolved_iff]
  exact not_exists

theorem mem_internal_of_collector {k : Collector}
    (hcell : c.cells[i]? = some ⟨k.kind, p, ps, true⟩) : p ∈ c.store.internal :=
  mem_internal_of_live (s := c.store) hcell rfl k.kind_ne

theorem collects_of_callsCell {k : Collector} (hk : Kept c.store)
    (hrun : Reach step (fun _ _ => True) c₁ c) (hcell : c.cells[i]? = some ⟨k.kind, p, ps, true⟩)
    (hcalls : CallsCell i ⟨k.kind, p, ps, true⟩ c c') (hstep : step c a = some c') :
    Collects k c₁ p ps (k.result c.heap ps) c c' := by
  obtain ⟨v, rest, r, stack, hctrl, hstack, -⟩ := hcalls
  refine ⟨hrun, ⟨a, hstep⟩, not_isResolved_iff.mpr fun r' hr' => ?_, ?_, rfl⟩
  · exact hk.owned.not_isResolved (mem_internal_of_collector hcell) hr'
  · -- The list that is being called holds the cell.
    have hframe : .runRegularCallbacks (.explicitlyRemovable i :: rest) r ∈ c.stack := by
      simp [hstack]
    obtain ⟨cell, hcell', q, hq, hr⟩ := hk.tracked.due (.regular (.explicitlyRemovable i) r)
      (mem_work_of_mem_stack hframe (by simp [Frame.work])) _ r ⟨rfl, rfl⟩ i
      (by simp [RegularCallbackList.cells])
    obtain rfl : _ = cell := Option.some.inj (hcell.symm.trans hcell')
    exact ⟨q, hq, Heap.isResolved_iff.mpr ⟨r, hr⟩⟩

theorem isResolved_of_callsCell {k : Collector} (hnpick : k ≠ .npick) (hs : Sound c.store)
    (hk : Kept c.store) (hcell : c.cells[i]? = some ⟨k.kind, p, ps, true⟩)
    (hcalls : CallsCell i ⟨k.kind, p, ps, true⟩ c c') :
    c'.heap.IsResolved (c'.heap.root p) (k.result c.heap ps) := by
  obtain ⟨v, rest, r, stack, hctrl, hstack, rfl⟩ := hcalls
  have hwf : c.heap.WellFormed := hs.wellFormed
  let x := ((({ c with stack := stack }.push [.runRegularCallbacks rest r]).emit
    (.cellCalled i r)).clearCell i ps)
  have hsim : Similar c.heap x.heap := similar_visitEach (clearedCells c.cells i) hwf ps
  have hwf' : x.heap.WellFormed := hsim.wellFormed hwf
  have hcomp := compressed_compressAll hwf' ps
  have hsim' : Similar c.heap (x.followAll ps).heap := hsim.trans hcomp.similar
  have hresult : k.result x.heap ps = k.result c.heap ps :=
    k.result_congr (hsim.stateOf_resolved_iff hwf) ps
  have hpending : IsPending (x.followAll ps).heap ((x.followAll ps).heap.root p) := by
    rw [hsim'.root_eq hwf, hsim'.isPending_root_iff hwf]
    obtain ⟨callbacks, hcb, -⟩ := hk.owned.pending p (mem_internal_of_collector hcell)
    exact ⟨callbacks, hcb⟩
  obtain ⟨callbacks, hcb⟩ := hpending
  have hresolved := isResolved_resolveUnderlying (r := k.result c.heap ps)
    (hcomp.wellFormed hwf') hcb
  have hrun : runCell ({ c with stack := stack }.push [.runRegularCallbacks rest r]) i
      ⟨k.kind, p, ps, true⟩ r = resolveUnderlying (x.followAll ps) p (k.result c.heap ps) := by
    rw [← hresult]
    cases k with
    | nchoose =>
      show resolveUnderlying (x.followAll ps) p
        (collectFulfilledPromisesAfterPending x.heap [] ps) = _
      rw [collectFulfilledPromisesAfterPending_eq]
      rfl
    | npick => exact absurd rfl hnpick
    | nchooseSplit =>
      show resolveUnderlying (x.followAll ps) p (finishSplit x.heap [] [] ps) = _
      rw [finishSplit_eq]
      rfl
  rw [hrun]
  exact hresolved

/-- How a call of `nchoose` or `nchoose_split` with the cell `i` and the promise `p` stands. -/
inductive Collecting (k : Collector) (c₁ : Config U) (i : ℕ) (p : Pid) (ps : List Pid)
    (c : Config U) : Prop
  | waiting : Reach step (fun _ _ => True) c₁ c → c.cells[i]? = some ⟨k.kind, p, ps, true⟩ →
      Collecting k c₁ i p ps c
  | done (r : Result U) (c₂ c₃ : Config U) : Collects k c₁ p ps r c₂ c₃ →
      c₃.heap.stateOf p = some (.resolved r) → Reach step (fun _ _ => True) c₃ c →
      c.heap.IsResolved (c.heap.root p) r → Collecting k c₁ i p ps c

theorem Collecting.step {k : Collector} (hnpick : k ≠ .npick) (h : Collecting k c₁ i p ps c)
    (hs : Sound c.store) (hk : Kept c.store) (hstep : step c a = some c')
    (hcontrol : c'.control ≠ .crash) : Collecting k c₁ i p ps c' := by
  cases h with
  | waiting hrun hcell =>
    rcases step_liveCell hs hk.tracked hcell rfl k.kind_ne hstep hcontrol with hcell' | hcalls
    · exact .waiting (hrun.tail a trivial hstep) hcell'
    · have hresolved := isResolved_of_callsCell hnpick hs hk hcell hcalls
      exact .done _ c c' (collects_of_callsCell hk hrun hcell hcalls hstep) hresolved .refl
        hresolved
  | done r c₂ c₃ hcollects hstate hrun hresolved =>
    exact .done r c₂ c₃ hcollects hstate (hrun.tail a trivial hstep)
      (step_isResolved hs hstep hcontrol hresolved)

/-! ## `npick` -/

/-- Promises that have one underlying promise keep one. -/
theorem step_root_eq {q : Pid} (hs : Sound c.store) (hstep : step c a = some c')
    (hcontrol : c'.control ≠ .crash) (hroot : c.heap.root p = c.heap.root q) :
    c'.heap.root p = c'.heap.root q := by
  obtain ⟨s', hacts, hend⟩ := step_sim (g := fun _ _ => True) hs (permits_true c a) hstep
  have hacts' : Sound s' ∧ s'.heap.root p = s'.heap.root q := by
    refine Acts.invariant (P := fun s => Sound s ∧ s.heap.root p = s.heap.root q) hacts
      ⟨hs, hroot⟩ ?_
    rintro s s' ⟨hs, hroot⟩ hact
    refine ⟨hact.sound hs, ?_⟩
    rcases (hact.effect hs.wellFormed).root_cases hs.wellFormed with hsame | ⟨_, _, -,
      -, -, -, hlink⟩
    · rw [hsame, hsame, hroot]
    · rw [hlink, hlink, hroot]
  rcases hend with ⟨hcrash, -⟩ | ⟨-, rfl⟩
  · exact absurd hcrash hcontrol
  · exact hacts'.2

/-- The promise `t` has lost its owner: nobody is going to resolve it. -/
def Lost (t : Pid) (s : Store U) : Prop := OwnedIn s.heap ({t} + s.internal) s.initials

theorem step_lost {t : Pid} (hs : Sound c.store) (hk : Kept c.store) (hstep : step c a = some c')
    (hcontrol : c'.control ≠ .crash) (hlost : Lost t c.store) : Lost t c'.store := by
  obtain ⟨s', hacts, hend⟩ := step_sim (g := fun _ _ => True) hs (permits_true c a) hstep
  have hacts' : (Sound s' ∧ Joined s') ∧ Lost t s' := by
    refine Acts.invariant (P := fun s => (Sound s ∧ Joined s) ∧ Lost t s) hacts
      ⟨⟨hs, hk.joined⟩, hlost⟩ ?_
    rintro s s' ⟨⟨hs, hj⟩, hlost⟩ hact
    exact ⟨⟨hact.sound hs, hact.joined hs.wellFormed hj⟩,
      (hact.transfer hs hj).owned_add {t} hs.wellFormed hlost⟩
  rcases hend with ⟨hcrash, -⟩ | ⟨-, rfl⟩
  · exact absurd hcrash hcontrol
  · exact hacts'.2

/-- An exception takes the frame away that was to resolve `t`. -/
theorem lost_of_raise {t : Pid} {e : Exn U} {below : List (Frame U)} (hk : Kept c.store)
    (hcontrol : c.control = .exn e) (hstack : c.stack = .resolveExact t r :: below)
    (hstep : step c a = some c') : Lost t c'.store := by
  obtain rfl : c' = raiseTo { c with stack := below } e (.resolveExact t r) :=
    raiseTo_of_step hcontrol hstack hstep
  have hinternal : c.store.internal = {t} + Store.internal
    (Config.store { c with stack := below }) := by
    rw [store_stack c hstack]
    simp only [Store.internal, nodes_eq, Store.add, Frame.work, Multiset.map_add, Multiset.sum_add,
      Multiset.map_singleton, Multiset.sum_singleton, nodes_oweExact, owed_oweExact, zero_add]
    abel
  have howned := hk.owned
  rw [Owned, hinternal] at howned
  exact howned

theorem isResolved_resolveExact {t : Pid} (hwf : c.heap.WellFormed)
    (hroot : c.heap.root p = c.heap.root t)
    (hcontrol : (resolve c .immediately t r).control ≠ .crash) :
    (resolve c .immediately t r).heap.IsResolved ((resolve c .immediately t r).heap.root p) r := by
  by_cases hp : c.heap.IsPending t
  · have hroot' : c.heap.root p = t := hroot.trans (hp.root_eq hwf)
    obtain ⟨callbacks, hcb⟩ := hp
    have hheap : (resolve c .immediately t r).heap = c.heap.set t (.resolved r) := by
      simp only [resolve, hcb]
      rfl
    rw [hheap, ← hroot']
    exact isResolved_root_set hwf (hroot'.symm ▸ hcb)
  · exact absurd (resolve_of_not_isPending hp).1 hcontrol

/-- How a call of `npick` with the cell `i` and the promise `p` stands. -/
inductive Npicking (c₁ : Config U) (i : ℕ) (p : Pid) (ps : List Pid) (c : Config U) : Prop
  | waiting : Reach step (fun _ _ => True) c₁ c → c.cells[i]? = some ⟨.npick, p, ps, true⟩ →
      Npicking c₁ i p ps c
  | canceling (r : Result U) (c₂ c₃ : Config U) (t : Pid) (below : List (Frame U)) :
      Collects .npick c₁ p ps r c₂ c₃ → Reach step (fun _ _ => True) c₃ c → Past c₃ c →
      c.heap.root p = c.heap.root t →
      Iterating False c₃.trace ps (.resolveExact t r :: below) c → Npicking c₁ i p ps c
  | due (r : Result U) (c₂ c₃ : Config U) (t : Pid) (below : List (Frame U)) :
      Collects .npick c₁ p ps r c₂ c₃ → Reach step (fun _ _ => True) c₃ c → Past c₃ c →
      c.heap.root p = c.heap.root t → c.stack = .resolveExact t r :: below →
      (∃ v, c.control = .ret v) → (∀ q ∈ ps, Requested c₃.trace c q) → Npicking c₁ i p ps c
  | escaping (r : Result U) (t : Pid) (below : List (Frame U)) (e : Exn U) :
      c.heap.root p = c.heap.root t → c.stack = .resolveExact t r :: below → c.control = .exn e →
      Npicking c₁ i p ps c
  | done (r : Result U) (c₂ c₃ : Config U) : Collects .npick c₁ p ps r c₂ c₃ →
      Reach step (fun _ _ => True) c₃ c → Past c₃ c → (∀ q ∈ ps, Requested c₃.trace c q) →
      c.heap.IsResolved (c.heap.root p) r → Npicking c₁ i p ps c
  | lost (t : Pid) : c.heap.root p = c.heap.root t → Lost t c.store → Npicking c₁ i p ps c

/-- What the callback of an `npick` sets out to do. -/
theorem iterating_of_callsCell (hs : Sound c.store)
    (hcalls : CallsCell i ⟨.npick, p, ps, true⟩ c c') : ∃ t below,
      c'.heap.root p = c'.heap.root t ∧
      Iterating False c'.trace ps (.resolveExact t (c.heap.collected ps) :: below) c' := by
  obtain ⟨v, rest, r, stack, hctrl, hstack, rfl⟩ := hcalls
  have hwf : c.heap.WellFormed := hs.wellFormed
  let x := ((({ c with stack := stack }.push [.runRegularCallbacks rest r]).emit
    (.cellCalled i r)).clearCell i ps)
  have hsim : Similar c.heap x.heap := similar_visitEach (clearedCells c.cells i) hwf ps
  have hwf' : x.heap.WellFormed := hsim.wellFormed hwf
  have hresult : collectFulfilledPromisesAfterPending x.heap [] ps = c.heap.collected ps := by
    rw [collectFulfilledPromisesAfterPending_eq]
    exact (Heap.collected_congr (hsim.stateOf_resolved_iff hwf) ps).1
  have hcomp : Compressed x.heap ((x.follow p).followAll ps).heap :=
    (compressed_compress hwf' p).trans
      (compressed_compressAll ((compressed_compress hwf' p).wellFormed hwf') ps)
  refine ⟨x.heap.root p, .runRegularCallbacks rest r :: stack, ?_, iterating_push ps ?_ rfl⟩
  · show Heap.root ((x.follow p).followAll ps).heap p =
      Heap.root ((x.follow p).followAll ps).heap (x.heap.root p)
    rw [hcomp.root_eq hwf', hcomp.root_eq hwf', root_root hwf']
  · rw [← hresult]
    rfl

theorem Npicking.step (h : Npicking c₁ i p ps c) (hs : Sound c.store) (hk : Kept c.store)
    (hstep : step c a = some c') (hcontrol : c'.control ≠ .crash) : Npicking c₁ i p ps c' := by
  obtain ⟨new, hnew⟩ := step_trace hs hstep
  cases h with
  | waiting hrun hcell =>
    rcases step_liveCell hs hk.tracked hcell rfl (by simp) hstep hcontrol with hcell' | hcalls
    · exact .waiting (hrun.tail a trivial hstep) hcell'
    · obtain ⟨t, below, hroot, hiter⟩ := iterating_of_callsCell hs hcalls
      have hs' := ((Past.refl hs).step hstep).sound hcontrol
      exact .canceling _ c c' t below
        (collects_of_callsCell (k := .npick) hk hrun hcell hcalls hstep) .refl (.refl hs') hroot
        hiter
  | canceling r c₂ c₃ t below hcollects hrun hpast hroot hiter =>
    have hrun' := hrun.tail a trivial hstep
    have hroot' := step_root_eq hs hstep hcontrol hroot
    rcases hiter.step hs hpast.trace (fun h => h.elim) hstep with
      hiter | ⟨hstack, ⟨hret, hall⟩ | ⟨-, e, hexn⟩⟩
    · exact .canceling r c₂ c₃ t below hcollects hrun' (hpast.step hstep) hroot' hiter
    · exact .due r c₂ c₃ t below hcollects hrun' (hpast.step hstep) hroot' hstack hret hall
    · exact .escaping r t below e hroot' hstack hexn
  | due r c₂ c₃ t below hcollects hrun hpast hroot hstack hret hall =>
    obtain ⟨v, hret⟩ := hret
    have hc' : resolve { c with stack := below } .immediately t r = c' :=
      Option.some.inj (returnTo_of_step hret hstack hstep)
    refine .done r c₂ c₃ hcollects (hrun.tail a trivial hstep) (hpast.step hstep)
      (fun q hq => (hall q hq).of_append hnew) ?_
    rw [← hc'] at hcontrol ⊢
    exact isResolved_resolveExact hs.wellFormed hroot hcontrol
  | escaping r t below e hroot hstack hexn =>
    exact .lost t (step_root_eq hs hstep hcontrol hroot) (lost_of_raise hk hexn hstack hstep)
  | done r c₂ c₃ hcollects hrun hpast hall hresolved =>
    exact .done r c₂ c₃ hcollects (hrun.tail a trivial hstep) (hpast.step hstep)
      (fun q hq => (hall q hq).of_append hnew) (step_isResolved hs hstep hcontrol hresolved)
  | lost t hroot hlost =>
    exact .lost t (step_root_eq hs hstep hcontrol hroot) (step_lost hs hk hstep hcontrol hlost)

/-- The call of `npick ps` made in `c₀` with a resolved member, to go on at `u`. -/
inductive Npicked (c₀ : Config U) (u : U) (ps : List Pid) (c : Config U) : Prop
  | canceling : Iterating False c₀.trace ps
      (.allocResult (c₀.heap.collected ps) :: .user u :: c₀.stack) c → Npicked c₀ u ps c
  | due : c.stack = .allocResult (c₀.heap.collected ps) :: .user u :: c₀.stack →
      (∃ v, c.control = .ret v) → (∀ q ∈ ps, Requested c₀.trace c q) → Npicked c₀ u ps c
  | returned (p : Pid) : c.stack = .user u :: c₀.stack → c.control = .ret (.promise p) →
      c.heap.stateOf p = some (.resolved (c₀.heap.collected ps)) →
      (∀ q ∈ ps, Requested c₀.trace c q) → Npicked c₀ u ps c
  | resumed (p : Pid) : c.stack = c₀.stack → c.control = .user (.resume u (.ok (.promise p))) →
      c.heap.stateOf p = some (.resolved (c₀.heap.collected ps)) →
      (∀ q ∈ ps, Requested c₀.trace c q) → Npicked c₀ u ps c
  | escaping (e : Exn U) : c.control = .exn e →
      (c.stack = .allocResult (c₀.heap.collected ps) :: .user u :: c₀.stack ∨
        c.stack = .user u :: c₀.stack) → Npicked c₀ u ps c
  | left (e : Exn U) : c.stack = c₀.stack → c.control = .user (.resume u (.error e)) →
      Npicked c₀ u ps c

theorem Npicked.step (h : Npicked c₀ u ps c) (hpast : Past c₀ c)
    (hlen : c₀.stack.length < c.stack.length) (hstep : step c a = some c') :
    Npicked c₀ u ps c' := by
  have hs := hpast.sound (control_ne_crash_of_step hstep)
  obtain ⟨new, hnew⟩ := step_trace hs hstep
  cases h with
  | canceling hiter =>
    rcases hiter.step hs hpast.trace (fun h => h.elim) hstep with
      hiter | ⟨hstack, ⟨hret, hall⟩ | ⟨-, e, hexn⟩⟩
    · exact .canceling hiter
    · exact .due hstack hret hall
    · exact .escaping e hexn (.inl hstack)
  | due hstack hret hall =>
    obtain ⟨v, hret⟩ := hret
    have hc' : Config.retNew { c with stack := .user u :: c₀.stack }
        (.resolved (c₀.heap.collected ps)) = c' :=
      Option.some.inj (returnTo_of_step hret hstack hstep)
    have hgives := gives_retNew (c := { c with stack := .user u :: c₀.stack }) hs.wellFormed rfl
      (c₀.heap.collected ps)
    rw [hc'] at hgives
    exact .returned _ hgives.stack hgives.control hgives.state fun q hq =>
      (hall q hq).of_append hnew
  | returned p hstack hret hstate hall =>
    cases returnTo_of_step hret hstack hstep
    exact .resumed p rfl rfl hstate fun q hq => (hall q hq).of_append hnew
  | resumed p hstack =>
    rw [hstack] at hlen
    exact absurd hlen (Nat.lt_irrefl _)
  | escaping e hexn hstack =>
    rcases hstack with hstack | hstack
    · obtain rfl := raiseTo_of_step hexn hstack hstep
      exact .escaping e rfl (.inr rfl)
    · obtain rfl := raiseTo_of_step hexn hstack hstep
      exact .left e rfl rfl
  | left e hstack =>
    rw [hstack] at hlen
    exact absurd hlen (Nat.lt_irrefl _)

theorem Npicked.of_call (hs : Sound c₀.store) (hps : ps ≠ [])
    (hsome : ∃ q ∈ ps, c₀.heap.isResolved q = true)
    (hcall : userStep c₀ (.call (.npick ps) u) = some c₁) : Npicked c₀ u ps c₁ := by
  obtain ⟨-, rfl⟩ := userStep_call hcall
  have hany : ps.any (c₀.push [.user u]).heap.isResolved = true := by
    simpa [Config.push] using hsome
  have heq := (npick_eq (c := c₀.push [.user u]) hs.wellFormed hps).trans (if_pos hany)
  show Npicked c₀ u ps (npick (c₀.push [.user u]) ps)
  rw [heq]
  exact .canceling (iterating_push ps rfl rfl)

theorem reach_npicked (hs : Sound c₀.store) (hps : ps ≠ [])
    (hsome : ∃ q ∈ ps, c₀.heap.isResolved q = true)
    (hcall : step c₀ (.move (.call (.npick ps) u)) = some c₁)
    (hrun : Reach step (fun c _ => c₀.stack.length < c.stack.length) c₁ c) : Npicked c₀ u ps c := by
  have hinv : Past c₀ c ∧ Npicked c₀ u ps c := by
    refine hrun.invariant (P := fun c => Past c₀ c ∧ Npicked c₀ u ps c)
      ⟨(Past.refl hs).step hcall, .of_call hs hps hsome (step_move hcall).2⟩ ?_
    rintro c a c' ⟨hpast, hpicked⟩ hlen hstep
    exact ⟨hpast.step hstep, hpicked.step hpast hlen hstep⟩
  exact hinv.2

/-! ## What the calls give -/

/-- The promise `p` of a call of `k` whose members are all pending gets the result for the
members as they are when its callback is called, by the callback itself or, if that is the one
of `npick`, after the members have got a cancel request. -/
def GivesCollected (k : Collector) (c₁ : Config U) (p : Pid) (ps : List Pid) (c : Config U) :
    Prop :=
  ∀ r, c.heap.stateOf p = some (.resolved r) → ∃ c₂ c₃, Collects k c₁ p ps r c₂ c₃ ∧
    Reach step (fun _ _ => True) c₃ c ∧
    (k = .npick → ∀ q ∈ ps, Requested c₃.trace c q) ∧
    (k ≠ .npick → c₃.heap.stateOf p = some (.resolved r))

theorem Collecting.givesCollected {k : Collector} (hnpick : k ≠ .npick)
    (h : Collecting k c₁ i p ps c) (hk : Kept c.store) : GivesCollected k c₁ p ps c := by
  intro r hr
  cases h with
  | waiting hrun hcell =>
    exact absurd hr (hk.owned.not_isResolved (mem_internal_of_collector hcell))
  | done r' c₂ c₃ hcollects hstate hrun hresolved =>
    obtain rfl : r' = r := by simpa using hresolved.symm.trans hr
    exact ⟨c₂, c₃, hcollects, hrun, fun h => absurd h hnpick, fun _ => hstate⟩

theorem Npicking.givesCollected (h : Npicking c₁ i p ps c) (hk : Kept c.store) :
    GivesCollected .npick c₁ p ps c := by
  intro r hr
  have hdue : ∀ t r', c.heap.root p = c.heap.root t → .resolveExact t r' ∉ c.stack := by
    intro t r' hroot hmem
    have hwork : .oweExact t r' ∈ c.store.work := oweExact_mem_work.mpr hmem
    have hr' : c.heap.IsResolved (c.heap.root t) r := hroot ▸ hr
    exact hk.owned.not_isResolved (mem_internal_of_work hwork (Multiset.mem_singleton_self t)) hr'
  cases h with
  | waiting hrun hcell =>
    exact absurd hr (hk.owned.not_isResolved (mem_internal_of_collector (k := .npick) hcell))
  | canceling r' c₂ c₃ t below hcollects hrun hpast hroot hiter =>
    obtain ⟨done, rest, -, -, top, hstack, -⟩ := hiter
    exact absurd (by simp [hstack]) (hdue t r' hroot)
  | due r' c₂ c₃ t below hcollects hrun hpast hroot hstack =>
    exact absurd (by simp [hstack]) (hdue t r' hroot)
  | escaping r' t below e hroot hstack =>
    exact absurd (by simp [hstack]) (hdue t r' hroot)
  | done r' c₂ c₃ hcollects hrun hpast hall hresolved =>
    obtain rfl : r' = r := by simpa using hresolved.symm.trans hr
    exact ⟨c₂, c₃, hcollects, hrun, fun _ => hall, fun h => absurd rfl h⟩
  | lost t hroot hlost =>
    have hr' : c.heap.IsResolved (c.heap.root t) r := hroot ▸ hr
    exact absurd hr' (hlost.not_isResolved (Multiset.mem_add.mpr (.inl (by simp))))

theorem reach_givesCollected {main hook : U} {k : Collector}
    (hreach : Reach step (fun _ _ => True) (initial main hook) c₀) (hps : ps ≠ [])
    (hpending : ∀ q ∈ ps, c₀.heap.isResolved q = false)
    (hcall : step c₀ (.move (.call (k.op ps) u)) = some c₁)
    (hrun : Reach step (fun _ _ => True) c₁ c) (hcontrol : c.control ≠ .crash) :
    GivesCollected k c₁ c₀.heap.length ps c := by
  have hreach₁ := hreach.tail _ trivial hcall
  obtain ⟨hctrl, -, hcells⟩ := k.call_pending
    (reach_sound hreach (control_ne_crash_of_step hcall)) hps hpending (step_move hcall).2
  have hcell : c₁.cells[c₀.cells.length]? = some ⟨k.kind, c₀.heap.length, ps, true⟩ := by
    simp [hcells]
  have hkept := (reach_kept (hreach₁.trans hrun) hcontrol).2
  by_cases hnpick : k = .npick
  · subst hnpick
    have hinv : Reach step (fun _ _ => True) (initial main hook) c ∧
        (c.control ≠ .crash → Npicking c₁ c₀.cells.length c₀.heap.length ps c) := by
      refine hrun.invariant (P := fun c => Reach step (fun _ _ => True) (initial main hook) c ∧
        (c.control ≠ .crash → Npicking c₁ c₀.cells.length c₀.heap.length ps c))
        ⟨hreach₁, fun _ => .waiting .refl hcell⟩ ?_
      rintro c a c' ⟨hreach, hnpicking⟩ hok hstep
      have halive := control_ne_crash_of_step hstep
      obtain ⟨hs, hk⟩ := reach_kept hreach halive
      exact ⟨hreach.tail a hok hstep, (hnpicking halive).step hs hk hstep⟩
    exact (hinv.2 hcontrol).givesCollected hkept
  · have hinv : Reach step (fun _ _ => True) (initial main hook) c ∧
        (c.control ≠ .crash → Collecting k c₁ c₀.cells.length c₀.heap.length ps c) := by
      refine hrun.invariant (P := fun c => Reach step (fun _ _ => True) (initial main hook) c ∧
        (c.control ≠ .crash → Collecting k c₁ c₀.cells.length c₀.heap.length ps c))
        ⟨hreach₁, fun _ => .waiting .refl hcell⟩ ?_
      rintro c a c' ⟨hreach, hcollecting⟩ hok hstep
      have halive := control_ne_crash_of_step hstep
      obtain ⟨hs, hk⟩ := reach_kept hreach halive
      exact ⟨hreach.tail a hok hstep, (hcollecting halive).step hnpick hs hk hstep⟩
    exact (hinv.2 hcontrol).givesCollected hnpick hkept

/-- A call that has returned its promise resumes its caller with it. -/
theorem reach_gives (h : Gives c₀ u p r c₁)
    (hrun : Reach step (fun c _ => c₀.stack.length < c.stack.length) c₁ c) :
    Gives c₀ u p r c ∨ (c.stack = c₀.stack ∧ c.control = .user (.resume u (.ok (.promise p))) ∧
      c.heap.stateOf p = some (.resolved r)) := by
  refine hrun.invariant (P := fun c => Gives c₀ u p r c ∨ (c.stack = c₀.stack ∧
    c.control = .user (.resume u (.ok (.promise p))) ∧
      c.heap.stateOf p = some (.resolved r))) (.inl h) ?_
  rintro c a c' (⟨hcontrol, hstack, hstate⟩ | ⟨hstack, -⟩) hlen hstep
  · cases returnTo_of_step hcontrol hstack hstep
    exact .inr ⟨rfl, rfl, hstate⟩
  · rw [hstack] at hlen
    exact absurd hlen (Nat.lt_irrefl _)

/-- A call of `k` on `ps` made in `c₀`, to go on at `u`, that leads to `c₁`: its promise gets
the result for the members as they are at the call if one of them is resolved then, and when
the callback is called otherwise.  An `npick` cancels all members after that. -/
structure CollectsInOrder (k : Collector) (c₀ : Config U) (u : U) (ps : List Pid)
    (c₁ : Config U) : Prop where
  immediate : (∃ q ∈ ps, c₀.heap.isResolved q = true) → ∀ c p,
    Reach step (fun c _ => c₀.stack.length < c.stack.length) c₁ c → c.stack = c₀.stack →
    c.control = .user (.resume u (.ok (.promise p))) →
      c.heap.stateOf p = some (.resolved (k.result c₀.heap ps)) ∧
      (k = .npick → ∀ q ∈ ps, Requested c₀.trace c q)
  deferred : (∀ q ∈ ps, c₀.heap.isResolved q = false) →
    c₁.control = .ret (.promise c₀.heap.length) ∧ c₁.stack = .user u :: c₀.stack ∧
    ∀ c, Reach step (fun _ _ => True) c₁ c → c.control ≠ .crash →
      GivesCollected k c₁ c₀.heap.length ps c

theorem Gives.immediate {k : Collector} (hnpick : k ≠ .npick) (h : Gives c₀ u p r c₁)
    (hr : r = k.result c₀.heap ps) {q : Pid}
    (hrun : Reach step (fun c _ => c₀.stack.length < c.stack.length) c₁ c)
    (hcontrol : c.control = .user (.resume u (.ok (.promise q)))) :
    c.heap.stateOf q = some (.resolved (k.result c₀.heap ps)) ∧
      (k = .npick → ∀ q ∈ ps, Requested c₀.trace c q) := by
  rcases reach_gives h hrun with hgives | ⟨-, hctrl, hstate⟩
  · simp [hgives.control] at hcontrol
  · obtain rfl : p = q := by simpa [hctrl] using hcontrol
    exact ⟨hr ▸ hstate, fun h => absurd h hnpick⟩

theorem CollectsInOrder.eq_result {k : Collector} (h : CollectsInOrder k c₀ u ps c₁)
    (hsome : ∃ q ∈ ps, c₀.heap.isResolved q = true) (hgives : Gives c₀ u p r c₁) :
    r = k.result c₀.heap ps := by
  obtain ⟨hcontrol, hstack, hstate⟩ := hgives
  have hresume : step c₁ .tau = some { c₁ with
      stack := c₀.stack, control := .user (.resume u (.ok (.promise p))) } := by
    simp [step, hcontrol, hstack, returnTo]
  have hlen : c₀.stack.length < c₁.stack.length := by simp [hstack]
  have hgiven := (h.immediate hsome _ p (Reach.refl.tail .tau hlen hresume) rfl rfl).1
  have hstate' : some (State.resolved r) = some (.resolved (k.result c₀.heap ps)) :=
    hstate.symm.trans hgiven
  simpa using hstate'

theorem Val.ofList_injective : Function.Injective (Val.ofList : List (Val U) → Val U) := by
  intro vs
  induction vs with
  | nil =>
    intro ws h
    cases ws with
    | nil => rfl
    | cons w ws => simp [Val.ofList] at h
  | cons v vs ih =>
    intro ws h
    cases ws with
    | nil => simp [Val.ofList] at h
    | cons w ws =>
      obtain ⟨rfl, htail⟩ : v = w ∧ Val.ofList vs = Val.ofList ws := by
        simpa [Val.ofList] using h
      rw [ih htail]

theorem reversedSplit_eq_split_iff (h : Heap U) (ps : List Pid) :
    h.reversedSplit ps = h.split ps ↔
      (h.firstRejected ps).isSome = true ∨ (h.stillPending ps).reverse = h.stillPending ps := by
  unfold Heap.reversedSplit Heap.split Heap.orRejected
  cases h.firstRejected ps with
  | some e => simp
  | none =>
    have hmap : Function.Injective (List.map (Val.promise : Pid → Val U)) :=
      List.map_injective_iff.mpr fun p q hpq => by simpa using hpq
    simp only [Heap.pairOf, Result.fulfilled.injEq, Val.pair.injEq, true_and,
      Val.ofList_injective.eq_iff, hmap.eq_iff, Option.isSome_none, Bool.false_eq_true, false_or]

/-- Unless a member is rejected, each member is one of those whose values are listed or one of
those listed as pending. -/
theorem Heap.accounts (h : Heap U) (hnone : h.firstRejected ps = none) :
    ∃ done : List Pid, done.Sublist ps ∧ (done ++ h.stillPending ps).Perm ps ∧
      done.map h.fulfilledWith = (h.values ps).map some := by
  refine ⟨ps.filter h.isResolved, List.filter_sublist, List.filter_append_perm _ ps, ?_⟩
  induction ps with
  | nil => rfl
  | cons p ps ih =>
    rcases h.cons_cases p ps with ⟨v, hst, hvalues, -, hrejected, hres⟩ |
      ⟨e, hst, hrejected, -⟩ | ⟨-, hvalues, -, hrejected, hpend⟩
    · have hvalue : h.fulfilledWith p = some v := by simp [fulfilledWith, hst]
      rw [hvalues, List.filter_cons_of_pos hres, List.map_cons, List.map_cons, hvalue,
        ih (hrejected.symm.trans hnone)]
    · simp [hrejected] at hnone
    · rw [hvalues, List.filter_cons_of_neg (by simp [hpend]), ih (hrejected.symm.trans hnone)]

/-- The calls of `nchoose` and `npick` give what they should; so does a call of `nchoose_split`
whose members are all pending, and one with a resolved member exactly if a member is rejected
or the list of the pending members reads the same in both directions. -/
theorem nchoose_collects_iff {main hook : U} (k : Collector)
    (hreach : Reach step (fun _ _ => True) (initial main hook) c₀) (hps : ps ≠ [])
    (hcall : step c₀ (.move (.call (k.op ps) u)) = some c₁) :
    (CollectsInOrder k c₀ u ps c₁ ↔ (k = .nchooseSplit →
      (∀ q ∈ ps, c₀.heap.isResolved q = false) ∨ (c₀.heap.firstRejected ps).isSome = true ∨
        (c₀.heap.stillPending ps).reverse = c₀.heap.stillPending ps)) ∧
    ∀ h : Heap U, h.firstRejected ps = none →
      ∃ done : List Pid, done.Sublist ps ∧ (done ++ h.stillPending ps).Perm ps ∧
        done.map h.fulfilledWith = (h.values ps).map some := by
  refine ⟨⟨?_, fun hcond => ⟨fun hsome c p hrun hstack hcontrol => ?_, fun hpending => ?_⟩⟩,
    fun h => h.accounts⟩
  all_goals have hs := reach_sound hreach (control_ne_crash_of_step hcall)
  · rintro hcollects rfl
    by_cases hsome : ∃ q ∈ ps, c₀.heap.isResolved q = true
    · right
      have hgives := (call_resolved hs hps hsome).2 (step_move hcall).2
      exact (reversedSplit_eq_split_iff _ _).mp (hcollects.eq_result hsome hgives)
    · exact .inl (by simpa using hsome)
  · cases k with
    | nchoose =>
      exact ((call_resolved hs hps hsome).1 (step_move hcall).2).immediate (by simp) rfl hrun
        hcontrol
    | npick =>
      -- the frames of the `npick` have left the stack, since it has returned
      have hlonger : ∀ frame stack, c.stack = frame :: stack →
          c₀.stack.length ≤ stack.length → False := by
        intro frame stack hstack' hle
        have hlen := congrArg List.length (hstack.symm.trans hstack')
        simp only [List.length_cons] at hlen
        omega
      cases reach_npicked hs hps hsome hcall hrun with
      | canceling hiter =>
        obtain ⟨done, rest, -, -, top, hstack', -⟩ := hiter
        have hlen := congrArg List.length (hstack.symm.trans hstack')
        simp only [List.length_append, List.length_cons] at hlen
        omega
      | due hstack' => exact (hlonger _ _ hstack' (by simp)).elim
      | returned q hstack' => exact (hlonger _ _ hstack' le_rfl).elim
      | resumed q hstack' hctrl hstate hall =>
        obtain rfl : q = p := by simpa [hctrl] using hcontrol
        exact ⟨hstate, fun _ => hall⟩
      | escaping e hexn => simp [hexn] at hcontrol
      | left e hstack' hctrl => simp [hctrl] at hcontrol
    | nchooseSplit =>
      refine ((call_resolved hs hps hsome).2 (step_move hcall).2).immediate (by simp) ?_ hrun
        hcontrol
      refine (reversedSplit_eq_split_iff _ _).mpr ((hcond rfl).resolve_left fun hpending => ?_)
      obtain ⟨q, hq, hres⟩ := hsome
      simp [hpending q hq] at hres
  · obtain ⟨hcontrol, hstack, -⟩ := k.call_pending hs hps hpending (step_move hcall).2
    exact ⟨hcontrol, hstack, fun c hrun halive =>
      reach_givesCollected hreach hps hpending hcall hrun halive⟩

/-- A fulfilled promise and two pending ones. -/
def splitMoves : List (Move ℕ) :=
  [.call (.ofResult (.fulfilled .unit)) 0, .call .task 0, .call .task 0]

/-- The two pending promises come in the reverse order. -/
theorem nchooseSplit_reverses : ∃ c₀ c₁ : Config ℕ,
    Reach step (fun _ _ => True) (initial 0 0) c₀ ∧
    c₀.heap.stateOf 0 = some (.resolved (.fulfilled .unit)) ∧
    c₀.heap.isResolved 1 = false ∧ c₀.heap.isResolved 2 = false ∧
    step c₀ (.move (.call (.nchooseSplit [0, 1, 2]) 0)) = some c₁ ∧
    Gives c₀ 0 3 (.fulfilled (pairOf [.unit] [2, 1])) c₁ ∧
    ¬ CollectsInOrder .nchooseSplit c₀ 0 [0, 1, 2] c₁ := by
  obtain ⟨c₀, hreach, hc₀⟩ := exists_reach (fun _ _ => true)
    (P := fun c₀ => c₀.heap.stateOf 0 = some (.resolved (.fulfilled .unit)) &&
      (!c₀.heap.isResolved 1 && (!c₀.heap.isResolved 2 &&
        (c₀.heap.length = 3 && (c₀.heap.split [0, 1, 2] = .fulfilled (pairOf [.unit] [1, 2]) &&
          (c₀.heap.reversedSplit [0, 1, 2] = .fulfilled (pairOf [.unit] [2, 1]) &&
            (step c₀ (.move (.call (.nchooseSplit [0, 1, 2]) 0))).isSome))))))
    (show (script _ 40 (initial 0 0) splitMoves).any _ = true by decide)
  simp only [Bool.and_eq_true, decide_eq_true_eq, Bool.not_eq_true'] at hc₀
  obtain ⟨hfulfilled, hfirst, hsecond, hlength, hsplit, hreversed, hcall⟩ := hc₀
  obtain ⟨c₁, hcall⟩ := Option.isSome_iff_exists.mp hcall
  have hreach' := hreach.mono fun _ _ _ => trivial
  have hsome : ∃ q ∈ [0, 1, 2], c₀.heap.isResolved q = true :=
    ⟨0, by simp, Heap.isResolved_iff.mpr ⟨_, hfulfilled⟩⟩
  have hgives := (call_resolved (reach_sound hreach' (control_ne_crash_of_step hcall)) (by simp)
    hsome).2 (step_move hcall).2
  rw [hlength, hreversed] at hgives
  refine ⟨c₀, c₁, hreach', hfulfilled, hfirst, hsecond, hcall, hgives, fun hcollects => ?_⟩
  have hresult := hcollects.eq_result hsome hgives
  rw [show Collector.nchooseSplit.result c₀.heap [0, 1, 2] =
    .fulfilled (pairOf [.unit] [1, 2]) from hsplit] at hresult
  simp [pairOf, Val.ofList] at hresult

/-- An `npick` of a fulfilled promise and two pending ones, and an `nchoose_split` of the
latter. -/
theorem nchoose_collects_three : ∃ c₀ c₁ c₂ : Config ℕ,
    CollectsInOrder .npick c₀ 0 [0, 1, 2] c₁ ∧ CollectsInOrder .nchooseSplit c₀ 0 [1, 2] c₂ := by
  obtain ⟨c₀, hreach, hc₀⟩ := exists_reach (fun _ _ => true)
    (P := fun c₀ => !c₀.heap.isResolved 1 && (!c₀.heap.isResolved 2 &&
      ((step c₀ (.move (.call (.npick [0, 1, 2]) 0))).isSome &&
        (step c₀ (.move (.call (.nchooseSplit [1, 2]) 0))).isSome)))
    (show (script _ 40 (initial 0 0) splitMoves).any _ = true by decide)
  simp only [Bool.and_eq_true, Bool.not_eq_true'] at hc₀
  obtain ⟨hfirst, hsecond, hnpick, hsplit⟩ := hc₀
  obtain ⟨c₁, hnpick⟩ := Option.isSome_iff_exists.mp hnpick
  obtain ⟨c₂, hsplit⟩ := Option.isSome_iff_exists.mp hsplit
  have hreach' := hreach.mono fun _ _ _ => trivial
  exact ⟨c₀, c₁, c₂, (nchoose_collects_iff .npick hreach' (by simp) hnpick).1.mpr (by simp),
    (nchoose_collects_iff .nchooseSplit hreach' (by simp) hsplit).1.mpr fun _ =>
      .inl (by simp [hfirst, hsecond])⟩

end Lwt
