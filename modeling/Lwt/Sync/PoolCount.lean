import Lwt.Sync.PoolMembers

/-!
# The number of members of a pool

A member is charged as long as something in the pool has to do with it.  `Accounts` says
what a step does to the members charged, to the members alive and to `count`; the only
step that creates a member without counting it is a `replace_disposed` that finds a use
that waits.
-/

namespace Lwt

open Tickets Table Transition Multiset

namespace Pool

variable {p p' : Pool} {u c : ℕ} {st t : UseState}

/-! ## How many members there are -/

/-- The members that something in the pool still has to do with. -/
def charged (p : Pool) : Multiset ℕ := p.account UseState.owned fun elements => elements

/-- The first of `waiters` still waits, or there is none. -/
def wakesWaiter (p : Pool) : Bool :=
  match p.waiters with
  | [] => true
  | u :: _ => p.uses[u]? = some .waiting

/-- The step gives up a member without a disposal: `check` raises, a disposal fails, or the
member is given to a use that has been canceled. -/
def leaks (p : Pool) : Step → Bool
  | .bodyEnds u r =>
    match p.uses[u]?, r with
    | some (.using _ cleared), .ok => cleared = p.cleared && !p.wakesWaiter
    | _, _ => false
  | .checkEnds u r =>
    match p.uses[u]?, r with
    | some (.checking _ cleared), .gives ok => !cleared && ok && !p.wakesWaiter
    | some (.checking _ _), .raises => true
    | _, _ => false
  | .disposeEnds _ ok | .clearDisposeEnds _ ok => !ok
  | .replaceEnds i ok =>
    match p.replacing[i]? with
    | some (some (u, _)) => ok && p.uses[u]? ≠ some .waiting
    | _ => false
  | _ => false

/-- The step ends a creation or a disposal that is not followed by another creation in the
same use. -/
def shrinks (p : Pool) : Step → Bool
  | .createEnds _ ok => !ok
  | .disposeEnds u ok =>
    match p.uses[u]? with
    | some (.disposing _ .createMember) => false
    | _ => ok
  | .clearDisposeEnds _ ok => ok
  | _ => false

/-- `replace_disposed` finds a use that waits. -/
def replaces (p : Pool) : Step → Bool
  | .disposeEnds u ok =>
    match p.uses[u]? with
    | some (.disposing _ .replaceDisposed) => ok && p.waiters ≠ []
    | _ => false
  | _ => false

/-- What a step does to the members that are charged, to those that are alive and to
`count`. -/
inductive Accounts (p : Pool) (a : Step) (p' : Pool) : Prop
  | same : p'.charged = p.charged → p'.alive = p.alive → p'.count = p.count → Accounts p a p'
  | leak : p.leaks a = true → p'.charged ≤ p.charged → p'.alive = p.alive →
      p'.count = p.count → Accounts p a p'
  | gain : p.count < p.max → p'.charged = p.created ::ₘ p.charged →
      p'.alive = p.created :: p.alive → p'.count = p.count + 1 → Accounts p a p'
  | pay (c : ℕ) : p.shrinks a = true → c ::ₘ p'.charged = p.charged →
      p'.alive = p.alive.erase c → p'.count = p.count - 1 → Accounts p a p'
  | swap (c : ℕ) (rest : Multiset ℕ) : p.charged = c ::ₘ rest →
      p'.charged = p.created ::ₘ rest → p'.alive = p.created :: p.alive.erase c →
      p'.count = p.count → Accounts p a p'
  -- A member is created that is not counted.
  | replace (c : ℕ) (rest : Multiset ℕ) : p.replaces a = true → p.shrinks a = true →
      p.charged = c ::ₘ rest → p'.charged = p.created ::ₘ rest →
      p'.alive = p.created :: p.alive.erase c → p'.count = p.count - 1 → Accounts p a p'
  | refuse (c : ℕ) (i u : ℕ) : p.replacing[i]? = some (some (u, c)) →
      c ::ₘ p'.charged = p.charged → p'.alive = p.alive.erase c → p'.count = p.count →
      Accounts p a p'

variable {a : Step}

theorem charged_setUse (hu : p.uses[u]? = some st) :
    (p.setUse u t).charged + st.owned = p.charged + t.owned :=
  account_setUse hu

theorem charged_setUse_eq (hu : p.uses[u]? = some st) (heq : t.owned = st.owned) :
    (p.setUse u t).charged = p.charged := by
  have h := charged_setUse (t := t) hu
  rw [heq] at h
  exact add_right_cancel h

theorem charged_setUse_drop (hu : p.uses[u]? = some st) (hst : st.owned = {c})
    (hst' : t.owned = 0) : c ::ₘ (p.setUse u t).charged = p.charged := by
  have h := charged_setUse (t := t) hu
  rw [hst, hst', add_zero, add_comm, singleton_add] at h
  exact h

theorem charged_release (hwakes : p.wakesWaiter = true) :
    (p.release c).charged = c ::ₘ p.charged ∧ (p.release c).alive = p.alive ∧
      (p.release c).count = p.count := by
  unfold release
  split
  · rename_i v waiters hwaiters
    have hv : p.uses[v]? = some .waiting := by simpa [wakesWaiter, hwaiters] using hwakes
    simp only [wakeupLater, hv, if_true]
    have h := charged_setUse (p := { p with waiters := waiters }) (t := .handed c) hv
    refine ⟨?_, rfl, rfl⟩
    rw [show UseState.owned .waiting = 0 from rfl, add_zero, add_comm] at h
    exact h
  · refine ⟨?_, rfl, rfl⟩
    simp only [charged, account, ← coe_add, ← singleton_add,
      coe_singleton]
    abel

theorem charged_release_le : (p.release c).charged ≤ c ::ₘ p.charged ∧
    (p.release c).alive = p.alive ∧ (p.release c).count = p.count := by
  by_cases hwakes : p.wakesWaiter = true
  · exact ⟨(charged_release hwakes).1.le, (charged_release hwakes).2⟩
  · unfold release
    split
    · rename_i v waiters hwaiters
      have hv : ¬ p.uses[v]? = some .waiting := by simpa [wakesWaiter, hwaiters] using hwakes
      rw [wakeupLater, if_neg hv]
      exact ⟨le_cons_self _ _, rfl, rfl⟩
    · rename_i hwaiters
      simp [wakesWaiter, hwaiters] at hwakes

theorem wakesWaiter_setUse (hu : p.uses[u]? = some st) (hst : st ≠ .waiting) (hst' : t ≠ .waiting) :
    (p.setUse u t).wakesWaiter = p.wakesWaiter := by
  cases hwaiters : p.waiters with
  | nil => simp [wakesWaiter, setUse, hwaiters]
  | cons v waiters =>
    have hiff := getElem?_set_iff (x := UseState.waiting) hu hst hst' v
    simp only [wakesWaiter, show (p.setUse u t).waiters = v :: waiters from hwaiters, hwaiters]
    exact decide_eq_decide.mpr hiff

theorem accounts_giveBack {keep : Bool} (hu : p.uses[u]? = some st) (hst : st.owned = {c})
    (hleaks : keep = true → p.wakesWaiter = false → p.leaks a = true) :
    Accounts p a (p.giveBack u c keep) := by
  unfold giveBack
  split
  · rename_i hkeep
    have hdrop := charged_setUse_drop (t := .ended) hu hst rfl
    have hne : st ≠ .waiting := by
      rintro rfl
      exact singleton_ne_zero c hst.symm
    have hwakes := wakesWaiter_setUse (t := .ended) hu hne (by simp)
    by_cases hw : p.wakesWaiter = true
    · obtain ⟨hcharged, halive, hcount⟩ := charged_release (c := c) (hwakes.trans hw)
      exact .same (hcharged.trans hdrop) halive hcount
    · obtain ⟨hcharged, halive, hcount⟩ := charged_release_le (p := p.setUse u .ended) (c := c)
      exact .leak (hleaks hkeep (by simpa using hw)) (hcharged.trans hdrop.le) halive hcount
  · exact .same (charged_setUse_eq (p := p.dispose c) hu hst.symm) rfl rfl

theorem accounts_use : Accounts p .use p.use := by
  rcases use_cases p with ⟨hlist, hcount, huse⟩ | ⟨hlist, -, huse⟩ | ⟨c, list, hlist, huse⟩
  · rw [huse]
    refine .gain hcount ?_ rfl rfl
    simp only [charged, account, total_append, total_cons, total_nil, UseState.owned,
      ← singleton_add]
    abel
  · rw [huse]
    refine .same ?_ rfl rfl
    simp only [charged, account, total_append, total_cons, total_nil, UseState.owned, add_zero]
  · rw [huse]
    refine .same ?_ rfl rfl
    simp only [charged, account, hlist, total_append, total_cons, total_nil, UseState.owned,
      ← cons_coe, ← singleton_add]
    abel

theorem accounts_disposeEnds {k : AfterDispose} {ok : Bool}
    (hu : p.uses[u]? = some (.disposing c k)) :
    Accounts p (.disposeEnds u ok) (p.disposeEnds u c k ok) := by
  unfold disposeEnds
  split
  · rename_i hok
    cases k with
    | createMember =>
      have hdrop := charged_setUse_drop (t := .ended) hu rfl rfl
      refine .swap c _ hdrop.symm ?_ rfl (by simp [disposeDone, createMember, newMember, setUse])
      have h := charged_setUse (p := (p.disposeDone c).createMember.1) (u := u)
        (t := .creating p.created) hu
      rw [show ((p.disposeDone c).createMember.1).charged = p.charged from rfl, ← hdrop,
        show UseState.owned (.disposing c .createMember) = {c} from rfl,
        ← singleton_add, add_comm, add_assoc] at h
      refine (add_left_cancel h).trans ?_
      rw [add_comm]
      rfl
    | replaceDisposed =>
      dsimp only
      unfold replaceDisposed
      split
      · exact .pay c (by simp [shrinks, hu, hok])
          (charged_setUse_drop (p := p.disposeDone c) hu rfl rfl) rfl rfl
      · rename_i v waiters hwaiters
        have hne : p.waiters ≠ [] := by
          rw [show p.waiters = v :: waiters from hwaiters]
          simp
        refine .replace c _ (by simp [replaces, hu, hok, hne]) (by simp [shrinks, hu, hok])
          (charged_setUse_drop (t := .ended) hu rfl rfl).symm ?_ rfl rfl
        simp only [newMember, charged, account, disposeDone, setUse, total_append, total_cons,
          total_nil, replaced, ← singleton_add]
        abel
    | endUse =>
      exact .pay c (by simp [shrinks, hu, hok])
        (charged_setUse_drop (p := p.disposeDone c) hu rfl rfl) rfl rfl
  · rename_i hok
    refine .leak (by simp [leaks, hok]) ?_ rfl rfl
    rw [← charged_setUse_drop (t := .ended) hu rfl rfl]
    exact le_cons_self _ _

theorem charged_refuse (p : Pool) :
    (p.wakeupLater u .refused).charged = p.charged ∧ (p.wakeupLater u .refused).alive = p.alive ∧
      (p.wakeupLater u .refused).count = p.count := by
  unfold wakeupLater
  split
  · rename_i hu
    exact ⟨charged_setUse_eq hu rfl, rfl, rfl⟩
  · exact ⟨rfl, rfl, rfl⟩

theorem accounts_replaceEnds {i : ℕ} {ok : Bool} (hi : p.replacing[i]? = some (some (u, c))) :
    Accounts p (.replaceEnds i ok) (p.replaceEnds i u c ok) := by
  have hend : c ::ₘ charged { p with replacing := p.replacing.set i none } = p.charged :=
    account_endReplace hi
  unfold replaceEnds
  split
  · rename_i hok
    by_cases hu : p.uses[u]? = some .waiting
    · simp only [wakeupLater, hu, if_true]
      have h := charged_setUse (p := { p with replacing := p.replacing.set i none })
        (t := .handed c) hu
      rw [show UseState.owned .waiting = 0 from rfl, add_zero, add_comm] at h
      exact .same (h.trans hend) rfl rfl
    · simp only [wakeupLater, hu, if_false]
      refine .leak (by simp [leaks, hi, hok, hu]) ?_ rfl rfl
      rw [← hend]
      exact le_cons_self _ _
  · obtain ⟨hcharged, halive, hcount⟩ := charged_refuse (u := u)
      { p with replacing := p.replacing.set i none, alive := p.alive.erase c }
    exact .refuse c i u hi ((congrArg _ hcharged).trans hend) halive hcount

theorem charged_disposeNext {i : ℕ} {old r : List ℕ} (hi : p.clearing[i]? = some old) :
    (p.disposeNext i r).charged + old = p.charged + r ∧
      (p.disposeNext i r).alive = p.alive ∧ (p.disposeNext i r).count = p.count := by
  unfold disposeNext
  split
  · exact ⟨account_setClearing hi, rfl, rfl⟩
  · exact ⟨account_setClearing hi, rfl, rfl⟩

theorem accounts_clear : Accounts p .clear p.clear := by
  have hi : ({ p with list := [], cleared := p.cleared + 1, clearing := p.clearing ++ [[]] } :
      Pool).clearing[p.clearing.length]? = some [] := by simp
  obtain ⟨hcharged, halive, hcount⟩ := charged_disposeNext (r := p.list.reverse) hi
  refine .same ?_ halive hcount
  rw [coe_nil, add_zero] at hcharged
  refine hcharged.trans ?_
  simp only [charged, account, total_append, total_cons, total_nil, coe_reverse,
    coe_nil]
  abel

theorem accounts_cancel (us : List ℕ) :
    (p.cancel us).charged = p.charged ∧ (p.cancel us).alive = p.alive ∧
      (p.cancel us).count = p.count := by
  induction us generalizing p with
  | nil => exact ⟨rfl, rfl, rfl⟩
  | cons u us ih =>
    obtain ⟨hcharged, halive, hcount⟩ := ih (p := p.reject u)
    have hreject : (p.reject u).charged = p.charged ∧ (p.reject u).alive = p.alive ∧
        (p.reject u).count = p.count := by
      unfold reject
      split
      · rename_i hu
        exact ⟨charged_setUse_eq hu rfl, rfl, rfl⟩
      · exact ⟨rfl, rfl, rfl⟩
    exact ⟨hcharged.trans hreject.1, halive.trans hreject.2.1, hcount.trans hreject.2.2⟩

theorem step_accounts (hstep : p.step a = some p') : Accounts p a p' := by
  cases step_cases hstep with
  | use => exact accounts_use
  | createEnds u c ok hu =>
    unfold createEnds
    split
    · exact .same (charged_setUse_eq hu rfl) rfl rfl
    · rename_i hok
      -- no member was made: its place is given back
      exact .pay c (by simp [shrinks, hok])
        (charged_setUse_drop (p := { p with count := _, alive := _ }) hu rfl rfl) rfl rfl
  | validateEnds u c r hu =>
    cases r with
    | valid => exact .same (charged_setUse_eq hu rfl) rfl rfl
    | invalid => exact .same (charged_setUse_eq (p := p.dispose c) hu rfl) rfl rfl
    | fails => exact .same (charged_setUse_eq (p := p.dispose c) hu rfl) rfl rfl
  | bodyEnds u c cleared r hu =>
    cases r with
    | ok => exact accounts_giveBack hu rfl fun hkeep hw => by simpa [leaks, hu, hw] using hkeep
    | fails => exact .same (charged_setUse_eq hu rfl) rfl rfl
  | checkEnds u c cleared r hu =>
    cases r with
    | gives ok =>
      exact accounts_giveBack hu rfl fun hkeep hw => by simpa [leaks, hu, hw] using hkeep
    | raises =>
      -- an exception of `check` loses the member
      refine .leak (by simp [leaks, hu]) ?_ rfl rfl
      rw [← charged_setUse_drop (t := .ended) hu rfl rfl]
      exact le_cons_self _ _
  | disposeEnds u c k ok hu => exact accounts_disposeEnds hu
  | replaceEnds i u c ok hi => exact accounts_replaceEnds hi
  | clear => exact accounts_clear
  | clearDisposed i c rest hi =>
    obtain ⟨hcharged, halive, hcount⟩ :=
      charged_disposeNext (p := p.disposeDone c) (r := rest) hi
    refine .pay c rfl ?_ halive hcount
    rw [← cons_coe, ← singleton_add, ← add_assoc] at hcharged
    rw [← singleton_add, add_comm]
    exact add_right_cancel hcharged
  | clearFails i c rest hi =>
    -- the members that the rejected call has not come to are lost
    have hcharged := account_setClearing (h := UseState.owned) (l := [])
      (k := fun elements => (elements : Multiset ℕ)) hi
    refine .leak rfl ?_ rfl rfl
    rw [coe_nil, add_zero] at hcharged
    rw [charged, charged, ← hcharged]
    exact Multiset.le_add_right _ _
  | cancel us =>
    obtain ⟨hcharged, halive, hcount⟩ := accounts_cancel (p := p) us
    exact .same hcharged halive hcount
  | runCancelCallbacks u hu => exact .same (charged_setUse_eq hu rfl) rfl rfl
  | runHanded u c hu => exact .same (charged_setUse_eq hu rfl) rfl rfl
  | runEnded u st hu hst =>
    rcases hst with rfl | rfl <;> exact .same (charged_setUse_eq hu rfl) rfl rfl

theorem Accounts.charged_le (h : Accounts p a p') (hle : p.charged ≤ p.alive) :
    p'.charged ≤ p'.alive := by
  have herase : ∀ {c : ℕ} {rest : Multiset ℕ}, p.charged = c ::ₘ rest →
      rest ≤ (p.alive.erase c : List ℕ) := by
    intro c rest hrest
    rw [← coe_erase, ← erase_cons_head c rest, ← hrest]
    exact erase_le_erase c hle
  cases h with
  | same hcharged halive _ =>
    rw [hcharged, halive]
    exact hle
  | leak _ hcharged halive _ =>
    rw [halive]
    exact hcharged.trans hle
  | gain _ hcharged halive _ =>
    rw [hcharged, halive, ← cons_coe]
    exact cons_le_cons _ hle
  | pay c _ hcharged halive _ =>
    rw [halive]
    exact herase hcharged.symm
  | swap c rest hcharged hcharged' halive _ =>
    rw [hcharged', halive, ← cons_coe]
    exact cons_le_cons _ (herase hcharged)
  | replace c rest _ _ hcharged hcharged' halive _ =>
    rw [hcharged', halive, ← cons_coe]
    exact cons_le_cons _ (herase hcharged)
  | refuse c i u _ hcharged halive _ =>
    rw [halive]
    exact herase hcharged.symm

theorem length_erase {rest : Multiset ℕ} (hle : p.charged ≤ p.alive) (hc : p.charged = c ::ₘ rest) :
    (p.alive.erase c).length + 1 = p.alive.length := by
  have hmem : c ∈ p.alive := by
    refine mem_coe.mp (mem_of_le hle ?_)
    simp [hc]
  rw [List.length_erase_of_mem hmem]
  have := List.length_pos_of_mem hmem
  omega

/-! ## What most steps leave alone -/

/-- The size of the pool and the creations in `replace_disposed` stay. -/
def Keeps (p p' : Pool) : Prop := p'.max = p.max ∧ p'.replacing = p.replacing

theorem Keeps.trans {q p'' : Pool} (h : Keeps p q) (h' : Keeps q p'') : Keeps p p'' :=
  ⟨h'.1.trans h.1, h'.2.trans h.2⟩

theorem keeps_wakeupLater (p : Pool) (u : ℕ) (st : UseState) : Keeps p (p.wakeupLater u st) := by
  unfold wakeupLater
  split <;> exact ⟨rfl, rfl⟩

theorem keeps_release (p : Pool) (c : ℕ) : Keeps p (p.release c) := by
  unfold release
  split
  · exact keeps_wakeupLater { p with waiters := _ } _ _
  · exact ⟨rfl, rfl⟩

theorem keeps_giveBack (p : Pool) (u c : ℕ) (keep : Bool) : Keeps p (p.giveBack u c keep) := by
  unfold giveBack
  split
  · exact keeps_release (p.setUse u .ended) c
  · exact ⟨rfl, rfl⟩

theorem keeps_disposeNext (p : Pool) (i : ℕ) (elements : List ℕ) :
    Keeps p (p.disposeNext i elements) := by
  unfold disposeNext
  split <;> exact ⟨rfl, rfl⟩

theorem keeps_cancel (p : Pool) (us : List ℕ) : Keeps p (p.cancel us) := by
  induction us generalizing p with
  | nil => exact ⟨rfl, rfl⟩
  | cons u us ih =>
    refine Keeps.trans ?_ (ih (p.reject u))
    unfold reject
    split <;> exact ⟨rfl, rfl⟩

theorem keeps_use (p : Pool) : Keeps p p.use := by
  rcases use_cases p with ⟨-, -, huse⟩ | ⟨-, -, huse⟩ | ⟨c, list, -, huse⟩ <;> rw [huse] <;>
    exact ⟨rfl, rfl⟩

theorem keeps_disposeEnds {k : AfterDispose} {ok : Bool} (hu : p.uses[u]? = some (.disposing c k))
    (hreplaces : p.replaces (.disposeEnds u ok) = false) :
    Keeps p (p.disposeEnds u c k ok) := by
  unfold disposeEnds
  split
  · rename_i hok
    cases k with
    | createMember => exact ⟨rfl, rfl⟩
    | replaceDisposed =>
      have hwaiters : p.waiters = [] := by simpa [replaces, hu, hok] using hreplaces
      simp only [replaceDisposed, show (p.disposeDone c).waiters = [] from hwaiters]
      exact ⟨rfl, rfl⟩
    | endUse => exact ⟨rfl, rfl⟩
  · exact ⟨rfl, rfl⟩

theorem step_keeps (hstep : p.step a = some p') (hreplaces : p.replaces a = false) :
    p'.max = p.max ∧ (p'.replacing = p.replacing ∨ ∃ i, p'.replacing = p.replacing.set i none) := by
  have hkeeps : ∀ {p' : Pool}, Keeps p p' →
      p'.max = p.max ∧ (p'.replacing = p.replacing ∨ ∃ i, p'.replacing = p.replacing.set i none) :=
    fun h => ⟨h.1, .inl h.2⟩
  cases step_cases hstep with
  | use => exact hkeeps (keeps_use p)
  | createEnds u _ ok _ =>
    unfold createEnds
    split <;> exact hkeeps ⟨rfl, rfl⟩
  | validateEnds u _ r _ =>
    cases r <;> exact hkeeps ⟨rfl, rfl⟩
  | bodyEnds u _ _ r _ =>
    cases r with
    | ok => exact hkeeps (keeps_giveBack p u _ _)
    | fails => exact hkeeps ⟨rfl, rfl⟩
  | checkEnds u _ _ r _ =>
    cases r with
    | gives ok => exact hkeeps (keeps_giveBack p u _ _)
    | raises => exact hkeeps ⟨rfl, rfl⟩
  | disposeEnds u c k ok hu => exact hkeeps (keeps_disposeEnds hu hreplaces)
  | replaceEnds i u c ok _ =>
    unfold replaceEnds
    split
    · have h := keeps_wakeupLater { p with replacing := p.replacing.set i none } u (.handed c)
      exact ⟨h.1, .inr ⟨i, h.2⟩⟩
    · have h := keeps_wakeupLater
        { p with replacing := p.replacing.set i none, alive := p.alive.erase c } u .refused
      exact ⟨h.1, .inr ⟨i, h.2⟩⟩
  | clear =>
    exact hkeeps (Keeps.trans (q := { p with list := _, cleared := _, clearing := _ }) ⟨rfl, rfl⟩
      (keeps_disposeNext _ _ _))
  | clearDisposed i c rest hi => exact hkeeps (keeps_disposeNext (p.disposeDone c) i rest)
  | clearFails i c rest hi => exact hkeeps ⟨rfl, rfl⟩
  | cancel us => exact hkeeps (keeps_cancel p us)
  | runCancelCallbacks u _ => exact hkeeps ⟨rfl, rfl⟩
  | runHanded u _ _ => exact hkeeps ⟨rfl, rfl⟩
  | runEnded u _ _ _ => exact hkeeps ⟨rfl, rfl⟩

/-! ## The number of members -/

/-- `count` is the number of members alive, at most `max`, and no creation is uncounted. -/
structure Counted (p : Pool) : Prop where
  charged : p.charged ≤ p.alive
  count : p.count = p.alive.length
  le_max : p.count ≤ p.max
  replacing : ∀ x ∈ p.replacing, x = none

theorem counted_create (max : ℕ) : Counted (create max) :=
  ⟨by simp [charged, account, create], rfl, by simp [create], by simp [create]⟩

theorem Counted.step (hc : Counted p) (hreplaces : p.replaces a = false)
    (hstep : p.step a = some p') : Counted p' := by
  have haccounts := step_accounts hstep
  obtain ⟨hmax, hreplacing⟩ := step_keeps hstep hreplaces
  have hle := hc.le_max
  have hcount := hc.count
  have hnone : ∀ x ∈ p'.replacing, x = none := by
    intro x hx
    rcases hreplacing with h | ⟨i, h⟩
    · exact hc.replacing x (h ▸ hx)
    · rw [h] at hx
      rcases List.mem_or_eq_of_mem_set hx with hx | hx
      · exact hc.replacing x hx
      · exact hx
  refine ⟨haccounts.charged_le hc.charged, ?_, ?_, hnone⟩
  · cases haccounts with
    | same _ halive hcount' => rw [hcount', halive, hcount]
    | leak _ _ halive hcount' => rw [hcount', halive, hcount]
    | gain _ _ halive hcount' =>
      rw [hcount', halive, hcount]
      simp
    | pay c _ hcharged halive hcount' =>
      have := length_erase hc.charged hcharged.symm
      rw [hcount', halive, hcount]
      omega
    | swap c rest hcharged _ halive hcount' =>
      have := length_erase hc.charged hcharged
      rw [hcount', halive, hcount, List.length_cons]
      omega
    | replace c rest h => simp [hreplaces] at h
    | refuse c i u hi =>
      have := hc.replacing _ (List.mem_of_getElem? hi)
      simp at this
  · rw [hmax]
    cases haccounts with
    | gain hlt _ _ hcount' => omega
    | pay _ _ _ _ hcount' => omega
    | replace c rest h => simp [hreplaces] at h
    | same _ _ hcount' => omega
    | leak _ _ _ hcount' => omega
    | swap _ _ _ _ _ hcount' => omega
    | refuse _ _ _ _ _ _ hcount' => omega

theorem reach_counted {ok : Pool → Step → Prop} {max : ℕ}
    (hok : ∀ p a, ok p a → p.replaces a = false) (hreach : Reach step ok (create max) p) :
    Counted p ∧ p.max = max := by
  refine hreach.invariant (P := fun p => Counted p ∧ p.max = max) ⟨counted_create max, rfl⟩ ?_
  rintro p a p' ⟨hc, hmax⟩ h hstep
  exact ⟨hc.step (hok p a h) hstep, (step_keeps hstep (hok p a h)).1.trans hmax⟩

/-- The member created in `replace_disposed` is not counted. -/
theorem replaces_count (hstep : p.step a = some p') (hreplaces : p.replaces a = true) :
    ∃ c rest, p.charged = c ::ₘ rest ∧ p'.alive = p.created :: p.alive.erase c ∧
      p'.count = p.count - 1 := by
  cases a with
  | disposeEnds u ok =>
    simp only [replaces] at hreplaces
    split at hreplaces
    · rename_i c hu
      obtain ⟨hok, hwaiters⟩ : ok = true ∧ p.waiters ≠ [] := by simpa using hreplaces
      obtain ⟨v, waiters, hcons⟩ := List.exists_cons_of_ne_nil hwaiters
      simp only [step, hu, Option.some.injEq] at hstep
      subst hstep
      refine ⟨c, _, (charged_setUse_drop (t := .ended) hu rfl rfl).symm, ?_⟩
      simp only [disposeEnds, hok, if_true, replaceDisposed,
        show (p.disposeDone c).waiters = v :: waiters from hcons]
      exact ⟨rfl, rfl⟩
    · simp at hreplaces
  | _ => simp [replaces] at hreplaces

/-- In every run in which `replace_disposed` finds no use that waits, the number of members
created, or being created, and not disposed of is `count` and at most `max`; a step in
which it finds one makes `count` wrong. -/
theorem count_eq_members {max : ℕ} {p : Pool}
    (hreach : Reach step (fun p a => p.replaces a = false) (create max) p) :
    (p.count = p.alive.length ∧ p.alive.length ≤ max) ∧
    ∀ a p', p.step a = some p' → p.replaces a = true → p'.count ≠ p'.alive.length := by
  obtain ⟨hc, hmax⟩ := reach_counted (fun _ _ h => h) hreach
  have hcount := hc.count
  have hle := hc.le_max
  refine ⟨⟨hcount, by omega⟩, fun a p' hstep hreplaces => ?_⟩
  obtain ⟨c, rest, hcharged, halive, hcount'⟩ := replaces_count hstep hreplaces
  have := length_erase hc.charged hcharged
  rw [hcount', halive, List.length_cons]
  omega

/-- A pool of one member: its validation fails while another use waits. -/
def replaceSteps : List Step :=
  [.use, .createEnds 0 true, .bodyEnds 0 .ok, .use, .use, .validateEnds 1 .fails,
    .disposeEnds 1 true, .use]

/-- Two members are being created, and `count` is 1. -/
theorem count_ne_members : ∃ p, Reach step (fun _ _ => True) (create 1) p ∧
    p.count = 1 ∧ p.alive.length = 2 ∧ p.uses[2]? = some .waiting ∧
    p.replacing = [some (2, 1)] ∧ p.uses[3]? = some (.creating 2) :=
  ⟨⟨1, 1, [], [], 0, [.ended, .ended, .waiting, .creating 2], [some (2, 1)], [], 3, [2, 1], [0]⟩,
    reach_of_replay replaceSteps (by decide), rfl, rfl, rfl, rfl, rfl⟩

theorem count_eq_members_recreate : ∃ p,
    Reach step (fun p a => p.replaces a = false) (create 1) p ∧ p.alive = [1] ∧
      p.count = p.alive.length ∧ p.alive.length ≤ 1 := by
  have hreach : Reach step (fun p a => !p.replaces a = true) (create 1)
      ⟨1, 1, [], [2], 0, [.ended, .creating 1, .waiting], [], [], 2, [1], [0]⟩ :=
    reach_of_checked recreateSteps (by decide)
  have hreach' := hreach.mono (k := fun p a => p.replaces a = false) (by simp)
  exact ⟨_, hreach', rfl, (count_eq_members hreach').1⟩

end Pool

end Lwt
