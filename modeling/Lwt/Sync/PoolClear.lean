import Lwt.Sync.PoolCount

/-!
# Clearing a pool

A member that is free when `clear` is called is disposed of by it, and one that the user's function
has is disposed of when its use ends, for the reference that the use has read is set.  Neither is
given to another use.

A member that is being validated, or that `wakeup_later` has handed to a use whose callbacks are
yet to run, escapes: `use` reads the reference when `acquire` has ended, after the call.  So does
one for which `check` is running, when `check_and_release` has been called before the call of
`clear`: it has been given what the reference held then.
-/

namespace Lwt

open Tickets Table Transition Multiset

namespace Pool

variable {p p' q : Pool} {u v c : ℕ} {st : UseState} {a : Step}

/-! ## Where members come from -/

/-- The member has been with a use that has read the current reference, or `check` is running for
it and the reference did not hold `true`. -/
def Spare (p : Pool) (c : ℕ) : Prop :=
  ∃ u : ℕ, p.uses[u]? = some (UseState.using c p.cleared) ∨
    p.uses[u]? = some (UseState.checking c false)

/-- A use that gets to this stage in a step has its member from there. -/
def Arrives (p : Pool) (u : ℕ) : UseState → Prop
  | .creating c => c = p.created
  | .validating c => c ∈ p.list ∨ p.uses[u]? = some (.handed c)
  | .using c cleared => cleared = p.cleared ∧
      (p.uses[u]? = some (.creating c) ∨ p.uses[u]? = some (.validating c))
  | .checking c cleared => ∃ k, p.uses[u]? = some (.using c k) ∧ cleared = decide (k ≠ p.cleared)
  | .handed c => p.Spare c ∨ c ∈ total replaced p.replacing
  | _ => True

/-- What a step can do with members. -/
structure Origin (p p' : Pool) : Prop where
  uses : ∀ (u : ℕ) (st : UseState), p'.uses[u]? = some st → p.uses[u]? = some st ∨ Arrives p u st
  list : ∀ c ∈ p'.list, c ∈ p.list ∨ p.Spare c
  replacing : ∀ c ∈ total replaced p'.replacing, c ∈ total replaced p.replacing ∨ c = p.created
  cleared : p.cleared ≤ p'.cleared

theorem Origin.refl (p : Pool) : Origin p p :=
  ⟨fun _ _ => .inl, fun _ => .inl, fun _ => .inl, Nat.le_refl _⟩

theorem origin_setUse (hlist : ∀ c ∈ p'.list, c ∈ p.list)
    (hreplacing : ∀ c ∈ total replaced p'.replacing, c ∈ total replaced p.replacing ∨ c = p.created)
    (hcleared : p.cleared = p'.cleared) (huses : p'.uses = p.uses.set u st)
    (hst : Arrives p u st) : Origin p p' := by
  refine ⟨fun v st' hv => ?_, fun c hc => .inl (hlist c hc), hreplacing, Nat.le_of_eq hcleared⟩
  rw [huses] at hv
  rcases getElem?_set_cases hv with ⟨rfl, rfl⟩ | ⟨-, hv⟩
  · exact .inr hst
  · exact .inl hv

theorem origin_wakeupLater (hp : Origin p q) (hst : Arrives p u st) :
    Origin p (q.wakeupLater u st) := by
  unfold wakeupLater
  split
  case isTrue =>
    refine ⟨fun v st' hv => ?_, hp.list, hp.replacing, hp.cleared⟩
    rcases getElem?_set_cases hv with ⟨rfl, rfl⟩ | ⟨-, hv⟩
    · exact .inr hst
    · exact hp.uses v st' hv
  case isFalse => exact hp

theorem origin_release (hp : Origin p q) (hc : p.Spare c) : Origin p (q.release c) := by
  unfold release
  split
  case h_1 w waiters _ =>
    have hwaiters : Origin p { q with waiters := waiters } :=
      ⟨hp.uses, hp.list, hp.replacing, hp.cleared⟩
    exact origin_wakeupLater hwaiters (.inl hc)
  case h_2 =>
    refine ⟨hp.uses, fun d hd => ?_, hp.replacing, hp.cleared⟩
    rcases List.mem_append.mp hd with hd | hd
    · exact hp.list d hd
    · obtain rfl := List.mem_singleton.mp hd
      exact .inr hc

theorem origin_giveBack {keep : Bool} (hspare : keep = true → p.Spare c) :
    Origin p (p.giveBack u c keep) := by
  unfold giveBack
  split
  case isTrue hkeep =>
    exact origin_release (origin_setUse (fun _ => id) (fun _ => .inl) rfl rfl trivial)
      (hspare hkeep)
  case isFalse => exact origin_setUse (fun _ => id) (fun _ => .inl) rfl rfl trivial

theorem origin_disposeNext (hp : Origin p q) (i : ℕ) (elements : List ℕ) :
    Origin p (q.disposeNext i elements) := by
  unfold disposeNext
  split <;> exact ⟨hp.uses, hp.list, hp.replacing, hp.cleared⟩

theorem origin_use (p : Pool) : Origin p p.use := by
  have happend : ∀ {q : Pool} {st : UseState}, (∀ c ∈ q.list, c ∈ p.list) →
      q.replacing = p.replacing → q.cleared = p.cleared → q.uses = p.uses ++ [st] →
        Arrives p p.uses.length st → Origin p q := by
    intro q st hlist hreplacing hcleared huses hst
    refine ⟨fun v st' hv => ?_, fun c hc => .inl (hlist c hc), fun c hc => .inl ?_,
      Nat.le_of_eq hcleared.symm⟩
    · rw [huses] at hv
      rcases getElem?_append_cases hv with hv | ⟨rfl, rfl⟩
      · exact .inl hv
      · exact .inr hst
    · rwa [hreplacing] at hc
  rcases use_cases p with ⟨-, -, huse⟩ | ⟨-, -, huse⟩ | ⟨c, list, hlist, huse⟩
  · rw [huse]
    exact happend (fun _ => id) rfl rfl rfl rfl
  · rw [huse]
    exact happend (fun _ => id) rfl rfl rfl trivial
  · rw [huse]
    have hmem : ∀ d ∈ list, d ∈ p.list := fun d hd => by
      rw [hlist]
      exact List.mem_cons_of_mem _ hd
    exact happend hmem rfl rfl rfl (.inl (by rw [hlist]; exact List.mem_cons_self))

theorem origin_replaceDisposed (p : Pool) : Origin p p.replaceDisposed := by
  unfold replaceDisposed
  split
  case h_1 => exact Origin.refl p
  case h_2 w waiters _ =>
    refine ⟨fun _ _ => .inl, fun _ => .inl, fun c hc => ?_, Nat.le_refl _⟩
    simp only [newMember, total_append, total_cons, total_nil, replaced, add_zero,
      mem_add, mem_singleton] at hc
    exact hc

theorem origin_disposeEnds {k : AfterDispose} (u c : ℕ) (ok : Bool) :
    Origin p (p.disposeEnds u c k ok) := by
  unfold disposeEnds
  split
  case isTrue =>
    cases k with
    | createMember => exact origin_setUse (fun _ => id) (fun _ => .inl) rfl rfl rfl
    | replaceDisposed =>
      have hp := origin_replaceDisposed (p.disposeDone c)
      refine ⟨fun v st hv => ?_, hp.list, hp.replacing, hp.cleared⟩
      rcases getElem?_set_cases hv with ⟨rfl, rfl⟩ | ⟨-, hv⟩
      · exact .inr trivial
      · exact hp.uses v st hv
    | endUse => exact origin_setUse (fun _ => id) (fun _ => .inl) rfl rfl trivial
  case isFalse => exact origin_setUse (fun _ => id) (fun _ => .inl) rfl rfl trivial

theorem origin_cancel (us : List ℕ) (hp : Origin p q) : Origin p (q.cancel us) := by
  induction us generalizing q with
  | nil => exact hp
  | cons u us ih =>
    refine ih ?_
    unfold reject
    split
    · refine ⟨fun v st hv => ?_, hp.list, hp.replacing, hp.cleared⟩
      rcases getElem?_set_cases hv with ⟨rfl, rfl⟩ | ⟨-, hv⟩
      · exact .inr trivial
      · exact hp.uses v st hv
    · exact hp

theorem step_origin (hstep : p.step a = some p') : Origin p p' := by
  cases step_cases hstep with
  | use => exact origin_use p
  | createEnds u c ok hu =>
    unfold createEnds
    split
    · exact origin_setUse (fun _ => id) (fun _ => .inl) rfl rfl ⟨rfl, .inl hu⟩
    · exact origin_setUse (fun _ => id) (fun _ => .inl) rfl rfl trivial
  | validateEnds u c r hu =>
    cases r with
    | valid => exact origin_setUse (fun _ => id) (fun _ => .inl) rfl rfl ⟨rfl, .inr hu⟩
    | invalid => exact origin_setUse (fun _ => id) (fun _ => .inl) rfl rfl trivial
    | fails => exact origin_setUse (fun _ => id) (fun _ => .inl) rfl rfl trivial
  | bodyEnds u c cleared r hu =>
    cases r with
    | ok =>
      refine origin_giveBack fun hkeep => ⟨u, .inl ?_⟩
      rw [hu, of_decide_eq_true hkeep]
    | fails => exact origin_setUse (fun _ => id) (fun _ => .inl) rfl rfl ⟨cleared, hu, rfl⟩
  | checkEnds u c cleared r hu =>
    cases r with
    | gives ok =>
      refine origin_giveBack fun hkeep => ⟨u, .inr ?_⟩
      rw [hu, (Bool.not_eq_true' cleared).mp (Bool.and_eq_true_iff.mp hkeep).1]
    | raises => exact origin_setUse (fun _ => id) (fun _ => .inl) rfl rfl trivial
  | disposeEnds u c k ok hu => exact origin_disposeEnds u c ok
  | replaceEnds i w c ok hi =>
    -- the element that the waiter gets was being made for it
    have htotal := total_set (f := replaced) (b := none) hi
    have hmem : c ∈ total replaced p.replacing :=
      mem_total.mpr ⟨i, _, hi, mem_singleton_self c⟩
    have hset : Origin p { p with replacing := p.replacing.set i none } := by
      refine ⟨fun _ _ => .inl, fun _ => .inl, fun d hd => .inl ?_, Nat.le_refl _⟩
      have hle : total replaced (p.replacing.set i none) ≤ total replaced p.replacing := by
        have hnone : replaced none = 0 := rfl
        rw [hnone, add_zero] at htotal
        rw [← htotal]
        exact Multiset.le_add_right _ _
      exact mem_of_le hle hd
    unfold replaceEnds
    split
    · exact origin_wakeupLater hset (.inr hmem)
    · exact origin_wakeupLater ⟨hset.uses, hset.list, hset.replacing, hset.cleared⟩ trivial
  | clear =>
    have hcleared : Origin p { p with
        list := [], cleared := p.cleared + 1, clearing := p.clearing ++ [[]] } :=
      ⟨fun _ _ => .inl, fun _ h => absurd h List.not_mem_nil, fun _ => .inl, Nat.le_succ _⟩
    exact origin_disposeNext hcleared _ _
  | clearDisposed i c rest hi =>
    have hdone : Origin p (p.disposeDone c) :=
      ⟨fun _ _ => .inl, fun _ => .inl, fun _ => .inl, Nat.le_refl _⟩
    exact origin_disposeNext hdone _ _
  | clearFails i c rest hi => exact ⟨fun _ _ => .inl, fun _ => .inl, fun _ => .inl, Nat.le_refl _⟩
  | cancel us => exact origin_cancel us (Origin.refl p)
  | runCancelCallbacks u _ => exact origin_setUse (fun _ => id) (fun _ => .inl) rfl rfl trivial
  | runHanded u c hu => exact origin_setUse (fun _ => id) (fun _ => .inl) rfl rfl (.inr hu)
  | runEnded u _ _ _ => exact origin_setUse (fun _ => id) (fun _ => .inl) rfl rfl trivial

/-! ## Members of before a call of `clear` -/

/-- The references that the uses have read are not newer than the current one. -/
def Current (p : Pool) : Prop :=
  ∀ u c cleared : ℕ, p.uses[u]? = some (UseState.using c cleared) → cleared ≤ p.cleared

theorem current_step (hp : Current p) (hstep : p.step a = some p') : Current p' := by
  have horigin := step_origin hstep
  intro u c cleared hu
  refine Nat.le_trans ?_ horigin.cleared
  rcases horigin.uses u _ hu with hu | ⟨rfl, -⟩
  · exact hp u c cleared hu
  · exact Nat.le_refl _

theorem reach_current {ok : Pool → Step → Prop} {max : ℕ} (hreach : Reach step ok (create max) p) :
    Current p :=
  hreach.invariant (fun u c cleared hu => by simp [create] at hu) fun _ _ _ hp _ hstep =>
    current_step hp hstep

/-- The member `c` of a pool that was cleared in the state `p` is with a use that has it since
before, or with none; a call of `check` for it has been told of a call of `clear`. -/
structure Retired (p : Pool) (c : ℕ) (q : Pool) : Prop where
  placed : Placed q
  lt : c < q.created
  list : c ∉ q.list
  uses : ∀ (u : ℕ) (st : UseState), q.uses[u]? = some st → c ∈ st.held →
    (∃ cleared, st = .using c cleared ∧ cleared < q.cleared ∧ p.uses[u]? = some st) ∨
      st = .checking c true
  replacing : c ∉ total replaced q.replacing

theorem created_le (hstep : p.step a = some p') : p.created ≤ p'.created := by
  rcases step_moves hstep with ⟨-, hcreated⟩ | ⟨-, hcreated⟩ <;> omega

theorem Retired.lt_of_using {cleared : ℕ} (h : Retired p c q)
    (hu : q.uses[u]? = some (.using c cleared)) : cleared < q.cleared := by
  rcases h.uses u _ hu (mem_singleton_self c) with ⟨k, heq, hlt, -⟩ | heq
  · obtain ⟨-, rfl⟩ := UseState.using.inj heq
    exact hlt
  · cases heq

theorem Retired.step {q' : Pool} (h : Retired p c q) (hstep : q.step a = some q') :
    Retired p c q' := by
  have horigin := step_origin hstep
  -- a use of the element began before the clear, so that it is not given back
  have hspare : ¬q.Spare c := by
    rintro ⟨u, hu | hu⟩
    · exact Nat.lt_irrefl _ (h.lt_of_using hu)
    · rcases h.uses u _ hu (mem_singleton_self c) with ⟨_, heq, -⟩ | heq
      · cases heq
      · cases heq
  have hheld : ∀ {u : ℕ} {st : UseState}, q.uses[u]? = some st → st.held = {c} →
      (∀ cleared, st ≠ .using c cleared) → (∀ cleared, st ≠ .checking c cleared) → False := by
    intro u st hu hst hne hne'
    rcases h.uses u st hu (by rw [hst]; exact mem_singleton_self c) with
      ⟨cleared, heq, -⟩ | heq
    · exact hne cleared heq
    · exact hne' true heq
  refine ⟨h.placed.step hstep, h.lt.trans_le (created_le hstep), fun hc => ?_, fun u st hu hc => ?_,
    fun hc => ?_⟩
  · rcases horigin.list c hc with hc | hc
    · exact h.list hc
    · exact hspare hc
  · rcases horigin.uses u st hu with hu | harrives
    · rcases h.uses u st hu hc with ⟨cleared, heq, hlt, hp⟩ | heq
      · exact .inl ⟨cleared, heq, hlt.trans_le horigin.cleared, hp⟩
      · exact .inr heq
    · -- only a call of `check` can have `c` from a use; no other place has it
      cases st with
      | creating d =>
        obtain rfl := mem_singleton.mp hc
        have heq : c = q.created := harrives
        exact absurd heq (Nat.ne_of_lt h.lt)
      | validating d =>
        obtain rfl := mem_singleton.mp hc
        rcases harrives with hlist | hu
        · exact absurd hlist h.list
        · exact (hheld hu rfl (by simp) (by simp)).elim
      | «using» d cleared =>
        obtain rfl := mem_singleton.mp hc
        rcases harrives.2 with hu | hu
        · exact (hheld hu rfl (by simp) (by simp)).elim
        · exact (hheld hu rfl (by simp) (by simp)).elim
      | checking d cleared =>
        obtain rfl := mem_singleton.mp hc
        obtain ⟨k, hk, rfl⟩ := harrives
        refine .inr ?_
        rw [decide_eq_true (Nat.ne_of_lt (h.lt_of_using hk))]
      | handed d =>
        obtain rfl := mem_singleton.mp hc
        rcases harrives with hd | hd
        · exact absurd hd hspare
        · exact absurd hd h.replacing
      | _ => simp [UseState.held] at hc
  · rcases horigin.replacing c hc with hc | hc
    · exact h.replacing hc
    · exact Nat.ne_of_lt h.lt hc

/-- The user's function has the member, or a call of `check` that has been told of a call of
`clear`. -/
def Busy (c : ℕ) (st : UseState) : Prop :=
  (∃ cleared, st = .using c cleared) ∨ st = .checking c true

/-- The disposal of the member has been started, or a call of `clear` will come to it, or a use has
it. -/
def Scheduled (c : ℕ) (q : Pool) : Prop :=
  c ∈ q.disposed ∨ c ∈ total uncleared q.clearing ∨
    ∃ (u : ℕ) (st : UseState), q.uses[u]? = some st ∧ Busy c st

/-- The condition on a step: `check` does not raise for the member, and no disposal fails on which
that of the member waits. -/
def disposes (c : ℕ) (q : Pool) : Step → Bool
  | .checkEnds u .raises =>
    match q.uses[u]? with
    | some (.checking d _) => d ≠ c
    | _ => true
  | .clearDisposeEnds i false =>
    match q.clearing[i]? with
    | some (_ :: rest) => c ∉ rest
    | _ => true
  | _ => true

/-! ## Disposals -/

/-- For the member `c` nothing is lost. -/
structure Onward (c : ℕ) (q q' : Pool) : Prop where
  disposed : ∀ d ∈ q.disposed, d ∈ q'.disposed
  clearing : ∀ d ∈ total uncleared q.clearing, d ∈ total uncleared q'.clearing
  uses : ∀ (u : ℕ) (st : UseState), Busy c st → q.uses[u]? = some st → q'.uses[u]? = some st

theorem Onward.scheduled {q' : Pool} (h : Onward c q q') (hc : q.Scheduled c) : q'.Scheduled c := by
  rcases hc with hc | hc | ⟨u, st, hu, hst⟩
  · exact .inl (h.disposed c hc)
  · exact .inr (.inl (h.clearing c hc))
  · exact .inr (.inr ⟨u, st, h.uses u st hst hu, hst⟩)

theorem Onward.trans {q' q'' : Pool} (h : Onward c q q') (h' : Onward c q' q'') : Onward c q q'' :=
  ⟨fun d hd => h'.disposed d (h.disposed d hd), fun d hd => h'.clearing d (h.clearing d hd),
    fun u st hst hu => h'.uses u st hst (h.uses u st hst hu)⟩

theorem onward_setUse {q' : Pool} {st' : UseState} (hu : q.uses[u]? = some st)
    (hst : ¬Busy c st) (huses : q'.uses = q.uses.set u st')
    (hdisposed : ∀ d ∈ q.disposed, d ∈ q'.disposed) (hclearing : q'.clearing = q.clearing) :
    Onward c q q' := by
  refine ⟨hdisposed, fun d hd => by rwa [hclearing], fun v st' hst' hv => ?_⟩
  have hne : u ≠ v := by
    rintro rfl
    cases hu.symm.trans hv
    exact hst hst'
  rwa [huses, List.getElem?_set_ne hne]

theorem onward_wakeupLater (q : Pool) (u : ℕ) (st : UseState) :
    Onward c q (q.wakeupLater u st) := by
  unfold wakeupLater
  split
  case isTrue hu => exact onward_setUse hu (by simp [Busy]) rfl (fun _ => id) rfl
  case isFalse => exact ⟨fun _ => id, fun _ => id, fun _ _ _ => id⟩

theorem onward_release (q : Pool) (d : ℕ) : Onward c q (q.release d) := by
  unfold release
  split
  case h_1 w waiters _ =>
    have hwoken := onward_wakeupLater (c := c) { q with waiters := waiters } w (.handed d)
    exact ⟨hwoken.disposed, hwoken.clearing, hwoken.uses⟩
  case h_2 => exact ⟨fun _ => id, fun _ => id, fun _ _ _ => id⟩

theorem onward_cancel (us : List ℕ) (q : Pool) : Onward c q (q.cancel us) := by
  induction us generalizing q with
  | nil => exact ⟨fun _ => id, fun _ => id, fun _ _ _ => id⟩
  | cons u us ih =>
    refine Onward.trans ?_ (ih (q.reject u))
    unfold reject
    split
    case isTrue hu => exact onward_setUse hu (by simp [Busy]) rfl (fun _ => id) rfl
    case isFalse => exact ⟨fun _ => id, fun _ => id, fun _ _ _ => id⟩

theorem onward_use (q : Pool) : Onward c q q.use := by
  have happend : ∀ {st st' : UseState} {u : ℕ}, q.uses[u]? = some st' →
      (q.uses ++ [st])[u]? = some st' := by
    intro st st' u hu
    rwa [List.getElem?_append_left (List.getElem?_eq_some_iff.mp hu).1]
  rcases use_cases q with ⟨-, -, huse⟩ | ⟨-, -, huse⟩ | ⟨d, list, -, huse⟩ <;> rw [huse] <;>
    exact ⟨fun _ => id, fun _ => id, fun _ _ _ => happend⟩

theorem onward_giveBack {d : ℕ} {keep : Bool} (hu : q.uses[u]? = some st) (hst : ¬Busy c st) :
    Onward c q (q.giveBack u d keep) := by
  unfold giveBack
  split
  case isTrue =>
    have hended : Onward c q (q.setUse u .ended) :=
      onward_setUse hu hst rfl (fun _ => id) rfl
    exact hended.trans (onward_release _ d)
  case isFalse => exact onward_setUse hu hst rfl (fun _ => List.mem_cons_of_mem _) rfl

theorem scheduled_disposeNext {i : ℕ} {old rest : List ℕ} (hi : q.clearing[i]? = some old)
    (hc : q.Scheduled c) (hrest : c ∈ uncleared old → c ∈ rest) :
    (q.disposeNext i rest).Scheduled c := by
  have hdisposed : ∀ d ∈ q.disposed, d ∈ (q.disposeNext i rest).disposed := by
    intro d hd
    unfold disposeNext
    split
    · exact hd
    · exact List.mem_cons_of_mem _ hd
  have huses : (q.disposeNext i rest).uses = q.uses := by
    unfold disposeNext
    split <;> rfl
  rcases hc with hc | hc | ⟨u, st, hu, hst⟩
  · exact .inl (hdisposed c hc)
  · obtain ⟨j, l, hj, hl⟩ := mem_total.mp hc
    by_cases hij : i = j
    · subst hij
      cases hi.symm.trans hj
      have hmem := hrest hl
      unfold disposeNext
      cases rest with
      | nil => cases hmem
      | cons d rest =>
        have hilt := (List.getElem?_eq_some_iff.mp hi).1
        rcases List.mem_cons.mp hmem with rfl | hmem
        · exact .inl List.mem_cons_self
        · exact .inr (.inl (mem_total.mpr ⟨i, d :: rest, List.getElem?_set_self hilt, hmem⟩))
    · refine .inr (.inl (mem_total.mpr ⟨j, l, ?_, hl⟩))
      unfold disposeNext
      split <;> exact (List.getElem?_set_ne hij).trans hj
  · exact .inr (.inr ⟨u, st, by rwa [huses], hst⟩)

theorem Retired.disposed_of_bodyEnds {q' : Pool} {cleared : ℕ} (h : Retired p c q)
    (hu : q.uses[u]? = some (.using c cleared)) (hstep : q.step (.bodyEnds u .ok) = some q') :
    c ∈ q'.disposed := by
  have hne : decide (cleared = q.cleared) = false :=
    decide_eq_false (Nat.ne_of_lt (h.lt_of_using hu))
  simp only [Pool.step, hu, Option.some.injEq] at hstep
  obtain rfl := hstep
  simp only [bodyEnds, giveBack, hne, Bool.false_eq_true, if_false]
  exact List.mem_cons_self

theorem Retired.checking_of_bodyEnds {q' : Pool} {cleared : ℕ} (h : Retired p c q)
    (hu : q.uses[u]? = some (.using c cleared)) (hstep : q.step (.bodyEnds u .fails) = some q') :
    q'.uses[u]? = some (.checking c true) := by
  have hlt := (List.getElem?_eq_some_iff.mp hu).1
  simp only [Pool.step, hu, Option.some.injEq] at hstep
  obtain rfl := hstep
  simp only [bodyEnds, decide_eq_true (Nat.ne_of_lt (h.lt_of_using hu))]
  exact List.getElem?_set_self hlt

theorem disposed_of_checkEnds {q' : Pool} {ok : Bool} (hu : q.uses[u]? = some (.checking c true))
    (hstep : q.step (.checkEnds u (.gives ok)) = some q') : c ∈ q'.disposed := by
  simp only [step, hu, Option.some.injEq] at hstep
  obtain rfl := hstep
  simp only [checkEnds, giveBack, Bool.not_true, Bool.false_and, Bool.false_eq_true, if_false]
  exact List.mem_cons_self

theorem scheduled_step {q' : Pool} (h : Retired p c q) (hc : q.Scheduled c)
    (hok : q.disposes c a = true) (hstep : q.step a = some q') : q'.Scheduled c := by
  cases step_cases hstep with
  | use => exact Onward.scheduled (onward_use q) hc
  | createEnds u d ok hu =>
    unfold createEnds
    split <;> exact Onward.scheduled (onward_setUse hu (by simp [Busy]) rfl (fun _ => id) rfl) hc
  | validateEnds u d r hu =>
    cases r with
    | valid => exact Onward.scheduled (onward_setUse hu (by simp [Busy]) rfl (fun _ => id) rfl) hc
    | invalid | fails =>
      exact Onward.scheduled
        (onward_setUse hu (by simp [Busy]) rfl (fun _ => List.mem_cons_of_mem _) rfl) hc
  | bodyEnds u d cleared r hu =>
    by_cases hd : d = c
    · subst hd
      cases r with
      | ok => exact .inl (h.disposed_of_bodyEnds hu hstep)
      | fails => exact .inr (.inr ⟨u, _, h.checking_of_bodyEnds hu hstep, .inr rfl⟩)
    · have hst : ¬Busy c (.using d cleared) := by simp [Busy, hd]
      cases r with
      | ok => exact Onward.scheduled (onward_giveBack hu hst) hc
      | fails => exact Onward.scheduled (onward_setUse hu hst rfl (fun _ => id) rfl) hc
  | checkEnds u d cleared r hu =>
    by_cases hd : d = c
    · subst hd
      cases r with
      | gives ok =>
        have hcleared : cleared = true := by
          rcases h.uses u _ hu (mem_singleton_self d) with ⟨_, heq, -⟩ | heq
          · cases heq
          · exact (UseState.checking.inj heq).2
        subst hcleared
        exact .inl (disposed_of_checkEnds hu hstep)
      | raises => simp [disposes, hu] at hok
    · have hst : ¬Busy c (.checking d cleared) := by simp [Busy, hd]
      cases r with
      | gives ok => exact Onward.scheduled (onward_giveBack hu hst) hc
      | raises => exact Onward.scheduled (onward_setUse hu hst rfl (fun _ => id) rfl) hc
  | disposeEnds u d k ok hu =>
    unfold disposeEnds
    split
    · cases k with
      | createMember | endUse =>
        exact Onward.scheduled (onward_setUse hu (by simp [Busy]) rfl (fun _ => id) rfl) hc
      | replaceDisposed =>
        simp only
        have hsame : (q.disposeDone d).replaceDisposed.uses = q.uses ∧
            (q.disposeDone d).replaceDisposed.disposed = q.disposed ∧
            (q.disposeDone d).replaceDisposed.clearing = q.clearing := by
          unfold replaceDisposed
          split <;> exact ⟨rfl, rfl, rfl⟩
        have honward : Onward c q ((q.disposeDone d).replaceDisposed.setUse u .ended) := by
          refine onward_setUse hu (by simp [Busy]) (by rw [setUse, hsame.1]) (fun e he => ?_)
            hsame.2.2
          have hdisposed : e ∈ (q.disposeDone d).replaceDisposed.disposed := by
            rwa [hsame.2.1]
          exact hdisposed
        exact honward.scheduled hc
    · exact Onward.scheduled (onward_setUse hu (by simp [Busy]) rfl (fun _ => id) rfl) hc
  | replaceEnds i w d ok hi =>
    unfold replaceEnds
    split
    · have hwoken := onward_wakeupLater (c := c)
        { q with replacing := q.replacing.set i none } w (.handed d)
      exact hwoken.scheduled hc
    · have hwoken := onward_wakeupLater (c := c)
        { q with replacing := q.replacing.set i none, alive := q.alive.erase d } w .refused
      exact hwoken.scheduled hc
  | clear =>
    have hi : (q.clearing ++ [[]])[q.clearing.length]? = some [] := by simp
    refine scheduled_disposeNext (q := { q with
      list := [], cleared := q.cleared + 1, clearing := q.clearing ++ [[]] }) hi ?_
      (by simp [uncleared])
    rcases hc with hc | hc | hc
    · exact .inl hc
    · refine .inr (.inl ?_)
      simp only [total_append, mem_add]
      exact .inl hc
    · exact .inr (.inr hc)
  | clearDisposed i d rest hi => exact scheduled_disposeNext (q := q.disposeDone d) hi hc id
  | clearFails i d rest hi =>
    -- the members behind one whose disposal fails are not disposed of
    have hrest : c ∉ rest := by simpa [disposes, hi] using hok
    have hnext : (q.disposeNext i []).Scheduled c :=
      scheduled_disposeNext hi hc fun hmem => absurd hmem hrest
    exact hnext
  | cancel us => exact Onward.scheduled (onward_cancel us q) hc
  | runCancelCallbacks u hu | runHanded u _ hu =>
    exact Onward.scheduled (onward_setUse hu (by simp [Busy]) rfl (fun _ => id) rfl) hc
  | runEnded u st hu hst =>
    have hnot : ¬Busy c st := by rcases hst with rfl | rfl <;> simp [Busy]
    exact Onward.scheduled (onward_setUse hu hnot rfl (fun _ => id) rfl) hc

/-! ## The call of `clear` -/

/-- The member is free, or the user's function has it, or a call of `check` that has been told of
an earlier call of `clear`. -/
def Settled (p : Pool) (c : ℕ) : Prop :=
  c ∈ p.list ∨ ∃ (u : ℕ) (st : UseState), p.uses[u]? = some st ∧ Busy c st

/-- The member is on its way to the user's function, or `check` is running for it and has not been
told of a call of `clear`. -/
def InFlight (p : Pool) (c : ℕ) : Prop :=
  ∃ u : ℕ, p.uses[u]? = some (UseState.validating c) ∨ p.uses[u]? = some (UseState.handed c) ∨
    p.uses[u]? = some (UseState.checking c false)

theorem clear_fields (p : Pool) :
    p.clear.uses = p.uses ∧ p.clear.list = [] ∧ p.clear.replacing = p.replacing ∧
      p.clear.cleared = p.cleared + 1 := by
  unfold clear disposeNext
  simp only
  split <;> exact ⟨rfl, rfl, rfl, rfl⟩

theorem retired_clear (hplaced : Placed p) (hcurrent : Current p) (hc : p.Settled c) :
    Retired p c p.clear := by
  obtain ⟨huses, hlist, hreplacing, hcleared⟩ := clear_fields p
  have hstep : p.step .clear = some p.clear := rfl
  have hnodup := hplaced.nodup
  simp only [places, account, nodup_add, disjoint_left, mem_add]
    at hnodup
  obtain ⟨⟨⟨⟨-, hheld, hfree⟩, -, hreplaced⟩, -, -⟩, -, -⟩ := hnodup
  have hheldOf : ∀ {st : UseState}, Busy c st → c ∈ st.held := by
    rintro st (⟨cleared, rfl⟩ | rfl)
    · exact mem_singleton_self c
    · exact mem_singleton_self c
  have hmem : c ∈ p.list ∨ c ∈ total UseState.held p.uses := by
    rcases hc with hc | ⟨u, st, hu, hst⟩
    · exact .inl hc
    · exact .inr (mem_total.mpr ⟨u, _, hu, hheldOf hst⟩)
  refine ⟨hplaced.step hstep, ?_, by simp [hlist], fun u st hu hst => ?_, fun hmem' => ?_⟩
  · refine (hplaced.lt c ?_).trans_le (created_le hstep)
    simp only [places, account, mem_add]
    exact .inl (.inl (.inl hmem))
  · rw [huses] at hu
    have hheld' := mem_total.mpr ⟨u, st, hu, hst⟩
    rcases hc with hc | ⟨v, st', hv, hst'⟩
    · exact absurd hheld' (hfree hc)
    · -- the member is in one place, so that this is the use that has it
      obtain rfl := eq_of_mem_total hheld hu hv hst (hheldOf hst')
      cases hu.symm.trans hv
      rcases hst' with ⟨cleared, rfl⟩ | rfl
      · refine .inl ⟨cleared, rfl, ?_, hu⟩
        rw [hcleared]
        exact Nat.lt_succ_of_le (hcurrent u c cleared hu)
      · exact .inr rfl
  · rw [hreplacing] at hmem'
    exact hreplaced hmem hmem'

theorem scheduled_clear (hc : p.Settled c) : p.clear.Scheduled c := by
  obtain ⟨huses, -⟩ := clear_fields p
  rcases hc with hc | ⟨u, st, hu, hst⟩
  · have hmem : c ∈ p.list.reverse := List.mem_reverse.mpr hc
    unfold clear disposeNext
    simp only
    split
    case h_1 hnil =>
      rw [hnil] at hmem
      cases hmem
    case h_2 d rest hcons =>
      rw [hcons] at hmem
      rcases List.mem_cons.mp hmem with rfl | hmem
      · exact .inl List.mem_cons_self
      · refine .inr (.inl (mem_total.mpr ⟨p.clearing.length, d :: rest, ?_, hmem⟩))
        simp
  · exact .inr (.inr ⟨u, st, by rwa [huses], hst⟩)

theorem validating_arrives (hreach : Reach step (fun _ _ => True) p q)
    (hu : q.uses[u]? = some (.validating c)) :
    ∃ q' : Pool, Reach step (fun _ _ => True) p q' ∧ q'.uses[u]? = some (.using c q'.cleared) ∧
      q'.cleared = q.cleared := by
  have hlt := (List.getElem?_eq_some_iff.mp hu).1
  have hstep : q.step (.validateEnds u .valid) = some (q.setUse u (.using c q.cleared)) := by
    simp only [step, hu]
    rfl
  exact ⟨_, hreach.tail _ trivial hstep, List.getElem?_set_self hlt, rfl⟩

theorem handed_arrives (hreach : Reach step (fun _ _ => True) p q)
    (hu : q.uses[u]? = some (.handed c)) :
    ∃ q' : Pool, Reach step (fun _ _ => True) p q' ∧ q'.uses[u]? = some (.using c q'.cleared) ∧
      q'.cleared = q.cleared := by
  have hlt := (List.getElem?_eq_some_iff.mp hu).1
  have hstep : q.step (.runCallbacks u) = some (q.setUse u (.validating c)) := by
    simp only [step, hu]
  have hreach' := hreach.tail _ trivial hstep
  exact validating_arrives (q := q.setUse u (.validating c)) hreach' (List.getElem?_set_self hlt)

theorem checking_arrives (hreach : Reach step (fun _ _ => True) p q)
    (hu : q.uses[u]? = some (.checking c false)) (hlist : q.list = [])
    (hwakes : q.wakesWaiter = true) :
    ∃ (q' : Pool) (v : ℕ), Reach step (fun _ _ => True) p q' ∧
      q'.uses[v]? = some (.using c q'.cleared) ∧ q'.cleared = q.cleared := by
  have hstep : q.step (.checkEnds u (.gives true)) = some ((q.setUse u .ended).release c) := by
    simp only [step, hu]
    rfl
  have hreach' := hreach.tail _ trivial hstep
  cases hwaiters : q.waiters with
  | nil =>
    have hrelease : (q.setUse u .ended).release c = { q.setUse u .ended with list := [c] } := by
      simp [release, setUse, hwaiters, hlist]
    rw [hrelease] at hreach'
    have huse : Pool.step { q.setUse u .ended with list := [c] } .use =
        some { q.setUse u .ended with
          list := [], uses := (q.setUse u .ended).uses ++ [.validating c] } := by
      simp [step, use, acquire, setUse]
    have hreach'' := hreach'.tail _ trivial huse
    obtain ⟨q', hq', hv, hcleared⟩ := validating_arrives hreach''
      (u := (q.setUse u .ended).uses.length) (c := c) (by simp)
    exact ⟨q', _, hq', hv, hcleared⟩
  | cons v waiters =>
    have hv : q.uses[v]? = some .waiting := by simpa [wakesWaiter, hwaiters] using hwakes
    have hv' : (q.setUse u .ended).uses[v]? = some .waiting :=
      (getElem?_set_iff hu (by simp) (by simp) v).mpr hv
    have hrelease : (q.setUse u .ended).release c =
        Pool.setUse { q.setUse u .ended with waiters := waiters } v (.handed c) := by
      have hwaiters' : (q.setUse u .ended).waiters = v :: waiters := hwaiters
      simp only [release, hwaiters', wakeupLater, hv', if_true]
    rw [hrelease] at hreach'
    obtain ⟨q', hq', hvq, hcleared⟩ := handed_arrives hreach'
      (List.getElem?_set_self (List.getElem?_eq_some_iff.mp hv').1)
    exact ⟨q', v, hq', hvq, hcleared⟩

theorem inFlight_arrives (hc : p.InFlight c)
    (hwakes : (∃ u : ℕ, p.uses[u]? = some (UseState.checking c false)) → p.wakesWaiter = true) :
    ∃ (q : Pool) (u : ℕ), Reach step (fun _ _ => True) p.clear q ∧
      q.uses[u]? = some (.using c q.cleared) ∧ q.cleared = p.cleared + 1 := by
  obtain ⟨huses, hlist, -, hcleared⟩ := clear_fields p
  obtain ⟨u, hu | hu | hu⟩ := hc
  · obtain ⟨q, hq, hv, heq⟩ := validating_arrives (p := p.clear) .refl (by rwa [huses])
    exact ⟨q, u, hq, hv, heq.trans hcleared⟩
  · obtain ⟨q, hq, hv, heq⟩ := handed_arrives (p := p.clear) .refl (by rwa [huses])
    exact ⟨q, u, hq, hv, heq.trans hcleared⟩
  · have hwaiters : p.clear.waiters = p.waiters := by
      unfold clear disposeNext
      split <;> rfl
    have hwakes' : p.clear.wakesWaiter = true := by
      have h := hwakes ⟨u, hu⟩
      unfold wakesWaiter at h ⊢
      rwa [hwaiters, huses]
    obtain ⟨q, v, hq, hv, heq⟩ :=
      checking_arrives (p := p.clear) .refl (by rwa [huses]) hlist hwakes'
    exact ⟨q, v, hq, hv, heq.trans hcleared⟩

/-- When a pool is cleared, a member that has been created and is not in flight is given only to the
uses that have it already, whatever happens then.  It is disposed of at once, or when the disposals
of the same call before it are over, or when its use ends, provided that these disposals do not fail
and `check` does not raise.  A member that is in flight can be given to a use afterwards; if `check`
is running for it, provided that the first use that waits has not been canceled. -/
theorem cleared_member_is_disposed {max : ℕ} {p : Pool} {c : ℕ}
    (hreach : Reach step (fun _ _ => True) (create max) p) (hc : p.Settled c ∨ p.InFlight c) :
    (¬p.InFlight c →
      (∀ (q : Pool) (u cleared : ℕ), Reach step (fun _ _ => True) p.clear q →
        q.uses[u]? = some (.using c cleared) → p.uses[u]? = some (.using c cleared)) ∧
      ∀ q, Reach step (fun q a => q.disposes c a = true) p.clear q →
        q.Scheduled c ∧
        ∀ (u : ℕ) (q' : Pool),
          (∀ cleared : ℕ, q.uses[u]? = some (.using c cleared) →
            (q.step (.bodyEnds u .ok) = some q' → c ∈ q'.disposed) ∧
            (q.step (.bodyEnds u .fails) = some q' → q'.uses[u]? = some (.checking c true))) ∧
          ∀ cleared ok : Bool, q.uses[u]? = some (.checking c cleared) →
            q.step (.checkEnds u (.gives ok)) = some q' → c ∈ q'.disposed) ∧
    (p.InFlight c →
      ((∃ u : ℕ, p.uses[u]? = some (.checking c false)) → p.wakesWaiter = true) →
      ∃ (q : Pool) (u : ℕ), Reach step (fun _ _ => True) p.clear q ∧
        q.uses[u]? = some (.using c q.cleared) ∧ p.uses[u]? ≠ some (.using c q.cleared)) := by
  have hcurrent := reach_current hreach
  refine ⟨fun hnot => ?_, fun hflight hwakes => ?_⟩
  · have hclear := retired_clear (reach_placed hreach) hcurrent (hc.resolve_right hnot)
    have hretired : ∀ {ok : Pool → Step → Prop} {q : Pool}, Reach step ok p.clear q →
        Retired p c q :=
      fun hq => hq.invariant hclear fun _ _ _ h _ hstep => h.step hstep
    refine ⟨fun q u cleared hq hu => ?_, fun q hq => ⟨?_, fun u q' =>
      ⟨fun cleared hu => ⟨(hretired hq).disposed_of_bodyEnds hu,
        (hretired hq).checking_of_bodyEnds hu⟩, fun cleared ok hu hstep => ?_⟩⟩⟩
    · rcases (hretired hq).uses u _ hu (mem_singleton_self c) with ⟨_, -, -, hp⟩ | heq
      · exact hp
      · cases heq
    · let P : Pool → Prop := fun q => Retired p c q ∧ q.Scheduled c
      have hinit : P p.clear := ⟨hclear, scheduled_clear (hc.resolve_right hnot)⟩
      have hinv : P q := hq.invariant hinit fun _ _ _ h hok hstep =>
        ⟨h.1.step hstep, scheduled_step h.1 h.2 hok hstep⟩
      exact hinv.2
    · rcases (hretired hq).uses u _ hu (mem_singleton_self c) with ⟨_, heq, -⟩ | heq
      · cases heq
      · obtain rfl := (UseState.checking.inj heq).2
        exact disposed_of_checkEnds hu hstep
  · obtain ⟨q, u, hq, hu, hcleared⟩ := inFlight_arrives hflight hwakes
    refine ⟨q, u, hq, hu, fun hp => ?_⟩
    have hle := hcurrent u c _ hp
    omega

/-- One member is in use and one is free when the pool is cleared; the use fails, and `check` finds
nothing wrong with its member. -/
theorem cleared_member_is_disposed_in_use :
    ∃ p q : Pool, replay step (create 2)
        [.use, .createEnds 0 true, .use, .createEnds 1 true, .bodyEnds 0 .ok] = some p ∧
      p.list = [0] ∧ p.uses[1]? = some (.using 1 0) ∧
      replay (checked step fun q a => q.disposes 1 a) p.clear
        [.bodyEnds 1 .fails, .checkEnds 1 (.gives true)] = some q ∧
      q.disposed = [1, 0] ∧ q.Scheduled 1 := by
  let p : Pool := ⟨2, 2, [0], [], 0, [.ended, .using 1 0], [], [], 2, [1, 0], []⟩
  let q : Pool :=
    ⟨2, 2, [], [], 1, [.ended, .disposing 1 .endUse], [], [[0]], 2, [1, 0], [1, 0]⟩
  have hp : replay step (create 2)
      [.use, .createEnds 0 true, .use, .createEnds 1 true, .bodyEnds 0 .ok] = some p := by
    decide +kernel
  have hq : replay (checked step fun q a => q.disposes 1 a) p.clear
      [.bodyEnds 1 .fails, .checkEnds 1 (.gives true)] = some q := by decide +kernel
  have hnot : ¬p.InFlight 1 := by
    rintro ⟨u, hu⟩
    rcases u with - | - | u <;> simp [p] at hu
  have hsettled : p.Settled 1 := .inr ⟨1, .using 1 0, rfl, .inl ⟨0, rfl⟩⟩
  have hdisposed := ((cleared_member_is_disposed (reach_of_replay _ hp) (.inl hsettled)).1 hnot).2 q
    (reach_of_checked _ hq)
  exact ⟨p, q, hp, rfl, rfl, hq, rfl, hdisposed.1⟩

/-- A member that is being validated when the pool is cleared is given to the user's function
afterwards, and is free again when the use has ended. -/
theorem validated_member_outlives_clear :
    ∃ p q q' : Pool, Reach step (fun _ _ => True) (create 1) p ∧
      p.uses[1]? = some (.validating 0) ∧ Reach step (fun _ _ => True) p.clear q ∧
      q.uses[1]? = some (.using 0 q.cleared) ∧ q.cleared = p.cleared + 1 ∧
      q.step (.bodyEnds 1 .ok) = some q' ∧ q'.list = [0] ∧ q'.disposed = [] := by
  let p : Pool := ⟨1, 1, [], [], 0, [.ended, .validating 0], [], [], 1, [0], []⟩
  let q : Pool := ⟨1, 1, [], [], 1, [.ended, .using 0 1], [], [[]], 1, [0], []⟩
  let q' : Pool := ⟨1, 1, [0], [], 1, [.ended, .ended], [], [[]], 1, [0], []⟩
  have hp : replay step (create 1) [.use, .createEnds 0 true, .bodyEnds 0 .ok, .use] = some p := by
    decide +kernel
  have hq : replay step p.clear [.validateEnds 1 .valid] = some q := by decide +kernel
  have hq' : q.step (.bodyEnds 1 .ok) = some q' := by decide +kernel
  exact ⟨p, q, q', reach_of_replay _ hp, rfl, reach_of_replay _ hq, rfl, rfl, hq', rfl, rfl⟩

end Pool

end Lwt
