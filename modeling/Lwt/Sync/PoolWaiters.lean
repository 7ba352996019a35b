import Lwt.Sync.PoolCount

/-!
# Uses that wait for a member

A use waits only when all members are out.  A member that leaves the pool for good while a
use waits is not replaced, whatever the way it leaves: its creation fails, its disposal
ends, a disposal fails, `check` raises, or it is given to a use that has been canceled.  In
runs without such steps (`handsOn`), as long as a use waits there are `max` members, none of
them idle, and the end of what one of them is busy with gives a member to the first use
that waits or leaves the member busy (`waiting_use_is_served`).
-/

namespace Lwt

open Tickets Table Transition

namespace Pool

variable {p p' : Pool} {a : Step} {u v c : ℕ} {st : UseState}

/-- No member is lost, and none leaves the pool while a use waits. -/
def handsOn (p : Pool) (a : Step) : Bool := !p.leaks a && (!p.shrinks a || p.waiters.isEmpty)

theorem handsOn_iff :
    p.handsOn a = true ↔ p.leaks a = false ∧ (p.shrinks a = true → p.waiters = []) := by
  cases hshrinks : p.shrinks a <;> simp [handsOn, hshrinks]

theorem replaces_of_handsOn (hok : p.handsOn a = true) : p.replaces a = false := by
  obtain ⟨-, hshrinks⟩ := handsOn_iff.mp hok
  by_contra hnot
  have hreplaces : p.replaces a = true := by simpa using hnot
  cases a with
  | disposeEnds u ok =>
    simp only [replaces] at hreplaces
    split at hreplaces
    · rename_i c hu
      obtain ⟨hok, hwaiters⟩ : ok = true ∧ p.waiters ≠ [] := by simpa using hreplaces
      exact hwaiters (hshrinks (by simp [shrinks, hu, hok]))
    · simp at hreplaces
  | _ => simp [replaces] at hreplaces

/-- All members alive are charged, and when a use waits they are all out. -/
structure Served (p : Pool) : Prop where
  counted : Counted p
  charged : p.charged = p.alive
  saturated : p.waiters ≠ [] → p.list = [] ∧ p.count = p.max

theorem served_create (max : ℕ) : Served (create max) :=
  ⟨counted_create max, by simp [Pool.charged, account, create], by simp [create]⟩

theorem Served.charged_step (hs : Served p) (hok : p.handsOn a = true)
    (hstep : p.step a = some p') :
    p'.charged = p'.alive := by
  obtain ⟨hleaks, -⟩ := handsOn_iff.mp hok
  have herase : ∀ {c : ℕ} {rest : Multiset ℕ}, p.charged = c ::ₘ rest →
      rest = (p.alive.erase c : List ℕ) := by
    intro c rest hrest
    rw [← Multiset.coe_erase, ← hs.charged, hrest, Multiset.erase_cons_head]
  cases step_accounts hstep with
  | same hcharged halive _ => rw [hcharged, halive, hs.charged]
  | leak h => simp [hleaks] at h
  | gain _ hcharged halive _ => rw [hcharged, halive, ← Multiset.cons_coe, hs.charged]
  | pay c _ hcharged halive _ =>
    rw [halive]
    exact herase hcharged.symm
  | swap c rest hcharged hcharged' halive _ =>
    rw [hcharged', halive, ← Multiset.cons_coe, herase hcharged]
  | replace c rest h => simp [replaces_of_handsOn hok] at h
  | refuse c i u hi =>
    have := hs.counted.replacing _ (List.mem_of_getElem? hi)
    simp at this

/-- Steps that leave the free members and `count` alone and make no use wait. -/
theorem Served.saturated_of_eq (hs : Served p) (hmax : p'.max = p.max)
    (h : p'.waiters ≠ [] → p.waiters ≠ [] ∧ p'.list = p.list ∧ p'.count = p.count)
    (hne : p'.waiters ≠ []) : p'.list = [] ∧ p'.count = p'.max := by
  obtain ⟨hwaiters, hlist, hcount⟩ := h hne
  obtain ⟨hempty, hfull⟩ := hs.saturated hwaiters
  exact ⟨hlist.trans hempty, by rw [hcount, hmax, hfull]⟩

theorem release_waiters (hne : (p.release c).waiters ≠ []) :
    p.waiters ≠ [] ∧ (p.release c).list = p.list ∧ (p.release c).count = p.count := by
  unfold release at hne ⊢
  split at hne
  · rename_i v waiters hwaiters
    simp only [hwaiters]
    unfold wakeupLater
    split <;> exact ⟨by simp, rfl, rfl⟩
  · rename_i hwaiters
    exact absurd hwaiters hne

theorem giveBack_waiters {keep : Bool} (hne : (p.giveBack u c keep).waiters ≠ []) :
    p.waiters ≠ [] ∧ (p.giveBack u c keep).list = p.list ∧
      (p.giveBack u c keep).count = p.count := by
  unfold giveBack at hne ⊢
  split
  · rename_i hkeep
    rw [if_pos hkeep] at hne
    exact release_waiters (p := p.setUse u .ended) hne
  · rename_i hkeep
    rw [if_neg hkeep] at hne
    exact ⟨hne, rfl, rfl⟩

theorem cancel_waiters (us : List ℕ) :
    (p.cancel us).waiters = p.waiters ∧ (p.cancel us).list = p.list ∧
      (p.cancel us).count = p.count := by
  induction us generalizing p with
  | nil => exact ⟨rfl, rfl, rfl⟩
  | cons u us ih =>
    obtain ⟨hwaiters, hlist, hcount⟩ := ih (p := p.reject u)
    have hreject : (p.reject u).waiters = p.waiters ∧ (p.reject u).list = p.list ∧
        (p.reject u).count = p.count := by
      unfold reject
      split <;> exact ⟨rfl, rfl, rfl⟩
    exact ⟨hwaiters.trans hreject.1, hlist.trans hreject.2.1, hcount.trans hreject.2.2⟩

theorem Served.saturated_use (hs : Served p) (hne : p.use.waiters ≠ []) :
    p.use.list = [] ∧ p.use.count = p.use.max := by
  have hle := hs.counted.le_max
  rcases use_cases p with ⟨-, hcount, huse⟩ | ⟨hlist, hcount, huse⟩ | ⟨c, list, hlist, huse⟩
  · rw [huse] at hne
    have := (hs.saturated hne).2
    omega
  · rw [huse]
    exact ⟨hlist, by simp only; omega⟩
  · rw [huse] at hne
    have := (hs.saturated hne).1
    simp [hlist] at this

theorem Served.saturated_step (hs : Served p) (hok : p.handsOn a = true)
    (hstep : p.step a = some p') (hne : p'.waiters ≠ []) : p'.list = [] ∧ p'.count = p'.max := by
  have hmax := (step_keeps hstep (replaces_of_handsOn hok)).1
  obtain ⟨hleaks, hshrinks⟩ := handsOn_iff.mp hok
  cases step_cases hstep with
  | use => exact hs.saturated_use hne
  | createEnds u _ ok _ =>
    cases ok with
    | true => exact hs.saturated_of_eq hmax (fun h => ⟨h, rfl, rfl⟩) hne
    | false => exact absurd (hshrinks rfl) hne
  | validateEnds u _ r _ =>
    cases r <;> exact hs.saturated_of_eq hmax (fun h => ⟨h, rfl, rfl⟩) hne
  | bodyEnds u _ _ r _ =>
    cases r with
    | ok => exact hs.saturated_of_eq hmax giveBack_waiters hne
    | fails => exact hs.saturated_of_eq hmax (fun h => ⟨h, rfl, rfl⟩) hne
  | checkEnds u _ _ r _ =>
    cases r with
    | gives ok => exact hs.saturated_of_eq hmax giveBack_waiters hne
    | raises => exact hs.saturated_of_eq hmax (fun h => ⟨h, rfl, rfl⟩) hne
  | disposeEnds u c k ok hu =>
    cases ok with
    | false => simp [leaks] at hleaks
    | true =>
      cases k with
      | createMember =>
        refine hs.saturated_of_eq hmax (fun h => ⟨h, rfl, ?_⟩) hne
        simp [disposeEnds, disposeDone, createMember, newMember, setUse]
      | replaceDisposed =>
        have hwaiters := hshrinks (by simp [shrinks, hu])
        simp only [disposeEnds, if_true, replaceDisposed,
          show (p.disposeDone c).waiters = [] from hwaiters] at hne
        exact absurd hwaiters hne
      | endUse => exact absurd (hshrinks (by simp [shrinks, hu])) hne
  | replaceEnds i u c ok hi =>
    -- no replacement is under way in such a pool
    have := hs.counted.replacing _ (List.mem_of_getElem? hi)
    simp at this
  | clear =>
    refine hs.saturated_of_eq hmax (fun h => ?_) hne
    have hwaiters : p.clear.waiters = p.waiters := by
      unfold clear disposeNext
      split <;> rfl
    -- a use that waits saw the list empty, and `clear` leaves it so
    obtain ⟨hempty, -⟩ := hs.saturated (hwaiters ▸ h)
    refine ⟨hwaiters ▸ h, ?_, ?_⟩
    · rw [hempty]
      unfold clear disposeNext
      split <;> rfl
    · unfold clear disposeNext
      split <;> rfl
  | clearDisposed i c rest hi =>
    have hwaiters : ((p.disposeDone c).disposeNext i rest).waiters = p.waiters := by
      unfold disposeNext
      split <;> rfl
    exact absurd (hwaiters.trans (hshrinks rfl)) hne
  | clearFails i c rest hi => simp [leaks] at hleaks
  | cancel us =>
    obtain ⟨hwaiters, hlist, hcount⟩ := cancel_waiters (p := p) us
    exact hs.saturated_of_eq hmax (fun h => ⟨hwaiters ▸ h, hlist, hcount⟩) hne
  | runCancelCallbacks u _ =>
    refine hs.saturated_of_eq hmax (fun h => ⟨fun hempty => h ?_, rfl, rfl⟩) hne
    simp [hempty]
  | runHanded u _ _ => exact hs.saturated_of_eq hmax (fun h => ⟨h, rfl, rfl⟩) hne
  | runEnded u _ _ _ => exact hs.saturated_of_eq hmax (fun h => ⟨h, rfl, rfl⟩) hne

theorem Served.step (hs : Served p) (hok : p.handsOn a = true) (hstep : p.step a = some p') :
    Served p' :=
  ⟨hs.counted.step (replaces_of_handsOn hok) hstep, hs.charged_step hok hstep,
    hs.saturated_step hok hstep⟩

/-! ## What the end of an activity gives -/

/-- The step ends what the use `u` is busy with. -/
def Step.ends (u : ℕ) : Step → Bool
  | .createEnds v _ | .validateEnds v _ | .bodyEnds v _ | .checkEnds v _ | .disposeEnds v _ |
    .runCallbacks v => v = u
  | _ => false

theorem getElem?_setUse (hu : p.uses[u]? = some st) (st' : UseState) :
    (p.setUse u st').uses[u]? = some st' := by
  simp [setUse, (List.getElem?_eq_some_iff.mp hu).1]

theorem release_hands {waiters : List ℕ} (hwaiters : p.waiters = v :: waiters)
    (hv : p.uses[v]? = some .waiting) : (p.release c).uses[v]? = some (.handed c) := by
  simp only [release, hwaiters, wakeupLater, hv, if_true]
  exact getElem?_setUse (p := { p with waiters := waiters }) hv _

/-- A use that ends gives its member to the first use that waits, or starts its disposal. -/
theorem giveBack_hands {waiters : List ℕ} {keep : Bool}
    (hu : p.uses[u]? = some st) (hst : st ≠ .waiting) (hwaiters : p.waiters = v :: waiters)
    (hwakes : keep = true → p.wakesWaiter = true) :
    (∃ st', (p.giveBack u c keep).uses[u]? = some st' ∧ st'.owned ≠ 0) ∨
      ∃ c', (p.giveBack u c keep).uses[v]? = some (.handed c') := by
  unfold giveBack
  split
  · rename_i hkeep
    have hv : p.uses[v]? = some .waiting := by
      simpa [wakesWaiter, hwaiters] using hwakes hkeep
    have hv' : (p.setUse u .ended).uses[v]? = some .waiting :=
      (getElem?_set_iff hu hst (by simp) v).mpr hv
    exact .inr ⟨c, release_hands hwaiters hv'⟩
  · exact .inl ⟨_, getElem?_setUse (p := p.dispose c) hu _, by simp [UseState.owned]⟩

theorem step_hands {waiters : List ℕ} (hok : p.handsOn a = true) (hends : a.ends u = true)
    (hwaiters : p.waiters = v :: waiters) (hu : p.uses[u]? = some st) (hst : st.owned ≠ 0)
    (hstep : p.step a = some p') :
    (∃ st', p'.uses[u]? = some st' ∧ st'.owned ≠ 0) ∨ ∃ c, p'.uses[v]? = some (.handed c) := by
  obtain ⟨hleaks, hshrinks⟩ := handsOn_iff.mp hok
  have hfull : p.shrinks a = false := by
    by_contra hnot
    simp [hshrinks (by simpa using hnot)] at hwaiters
  -- either the use goes on with its element, or the first waiter gets it
  cases step_cases hstep with
  | createEnds w c ok hw =>
    obtain rfl : w = u := by simpa [Step.ends] using hends
    cases ok with
    | false => simp [shrinks] at hfull
    | true => exact .inl ⟨_, getElem?_setUse hw _, by simp [UseState.owned]⟩
  | validateEnds w c r hw =>
    obtain rfl : w = u := by simpa [Step.ends] using hends
    cases r with
    | valid => exact .inl ⟨_, getElem?_setUse hw _, by simp [UseState.owned]⟩
    | invalid | fails =>
      exact .inl ⟨_, getElem?_setUse (p := p.dispose c) hw _, by simp [UseState.owned]⟩
  | bodyEnds w c cleared r hw =>
    obtain rfl : w = u := by simpa [Step.ends] using hends
    cases r with
    | ok =>
      refine giveBack_hands hw (by simp) hwaiters fun hkeep => ?_
      simpa [leaks, hw, show cleared = p.cleared by simpa using hkeep] using hleaks
    | fails => exact .inl ⟨_, getElem?_setUse hw _, by simp [UseState.owned]⟩
  | checkEnds w c cleared r hw =>
    obtain rfl : w = u := by simpa [Step.ends] using hends
    cases r with
    | gives ok =>
      refine giveBack_hands hw (by simp) hwaiters fun hkeep => ?_
      obtain ⟨hcleared, hgood⟩ : cleared = false ∧ ok = true := by simpa using hkeep
      simpa [leaks, hw, hcleared, hgood] using hleaks
    | raises => simp [leaks, hw] at hleaks
  | disposeEnds w c k ok hw =>
    obtain rfl : w = u := by simpa [Step.ends] using hends
    cases ok with
    | false => simp [leaks] at hleaks
    | true =>
      cases k with
      | createMember =>
        exact .inl ⟨_, getElem?_setUse (p := (p.disposeDone c).createMember.1) hw _,
          by simp [UseState.owned]⟩
      | replaceDisposed | endUse => simp [shrinks, hw] at hfull
  | runHanded w c hw =>
    obtain rfl : w = u := by simpa [Step.ends] using hends
    exact .inl ⟨_, getElem?_setUse hw _, by simp [UseState.owned]⟩
  | runEnded w st' hw hst' =>
    obtain rfl : w = u := by simpa [Step.ends] using hends
    cases hu.symm.trans hw
    rcases hst' with rfl | rfl <;> exact absurd rfl hst
  | _ => simp [Step.ends] at hends

theorem Served.busy (hs : Served p) (hlist : p.list = []) (hcount : 1 ≤ p.count) :
    (∃ (u : ℕ) (st : UseState), p.uses[u]? = some st ∧ st.owned ≠ 0) ∨
      ∃ (i c : ℕ) (rest : List ℕ), p.clearing[i]? = some (c :: rest) := by
  have hpos : 0 < p.alive.length := by
    have := hs.counted.count
    omega
  obtain ⟨c, hc⟩ := List.exists_mem_of_length_pos hpos
  have hmem : c ∈ p.charged := by
    rw [hs.charged]
    exact hc
  have hreplacing : c ∉ total replaced p.replacing := by
    intro h
    obtain ⟨i, x, hx, hcx⟩ := mem_total.mp h
    obtain rfl := hs.counted.replacing x (List.mem_of_getElem? hx)
    simp [replaced] at hcx
  simp only [Pool.charged, account, hlist, Multiset.coe_nil, zero_add, Multiset.mem_add] at hmem
  rcases hmem with (h | h) | h
  · obtain ⟨u, st, hu, hcst⟩ := mem_total.mp h
    refine .inl ⟨u, st, hu, fun hzero => ?_⟩
    simp [hzero] at hcst
  · exact absurd h hreplacing
  · obtain ⟨i, elements, hi, hce⟩ := mem_total.mp h
    cases elements with
    | nil => simp at hce
    | cons x rest => exact .inr ⟨i, x, rest, hi⟩

/-- In every run in which no member is lost and none leaves the pool while a use waits:
whenever a use waits, `count` is `max`, no member is idle, and something is busy with a
member; when that ends, the first use that waits gets a member, or the member is still
busy. -/
theorem waiting_use_is_served {max v : ℕ} {p : Pool} {waiters : List ℕ} (hmax : 1 ≤ max)
    (hreach : Reach step (fun p a => p.handsOn a = true) (create max) p)
    (hwaiters : p.waiters = v :: waiters) :
    p.count = max ∧ p.list = [] ∧
    ((∃ (u : ℕ) (st : UseState), p.uses[u]? = some st ∧ st.owned ≠ 0) ∨
      ∃ (i c : ℕ) (rest : List ℕ), p.clearing[i]? = some (c :: rest)) ∧
    ∀ (u : ℕ) (st : UseState) (a : Step) (p' : Pool), p.uses[u]? = some st → st.owned ≠ 0 →
      a.ends u = true → p.handsOn a = true → p.step a = some p' →
        (∃ st', p'.uses[u]? = some st' ∧ st'.owned ≠ 0) ∨ ∃ c, p'.uses[v]? = some (.handed c) := by
  have hs : Served p := hreach.invariant (served_create max) fun _ _ _ hs hok hstep =>
    hs.step hok hstep
  obtain ⟨-, hmax'⟩ := reach_counted (fun _ _ h => replaces_of_handsOn h) hreach
  obtain ⟨hlist, hcount⟩ := hs.saturated (by simp [hwaiters])
  refine ⟨by rw [hcount, hmax'], hlist, hs.busy hlist (by omega), ?_⟩
  intro u st a p' hu hst hends hok hstep
  exact step_hands hok hends hwaiters hu hst hstep

/-- A pool of one member, whose creation fails while another use waits. -/
def failedCreationSteps : List Step := [.use, .use, .createEnds 0 false]

/-- A pool of one member, which `check` finds broken while another use waits. -/
def brokenMemberSteps : List Step :=
  [.use, .createEnds 0 true, .use, .bodyEnds 0 .fails, .checkEnds 0 (.gives false),
    .disposeEnds 0 true]

/-- A pool of one member, which is given to a use that has just been canceled. -/
def canceledUseSteps : List Step :=
  [.use, .createEnds 0 true, .use, .use, .cancel [1], .bodyEnds 0 .ok, .runCancelCallbacks 1]

/-- A use waits and no member is left. -/
theorem waiting_use_is_forgotten :
    (∃ p, Reach step (fun _ _ => True) (create 1) p ∧ p.waiters = [1] ∧ p.count = 0 ∧
      p.charged = 0) ∧
    (∃ p, Reach step (fun _ _ => True) (create 1) p ∧ p.waiters = [1] ∧ p.count = 0 ∧
      p.charged = 0) ∧
    ∃ p, Reach step (fun _ _ => True) (create 1) p ∧ p.waiters = [2] ∧ p.charged = 0 :=
  ⟨⟨⟨1, 0, [], [1], 0, [.ended, .waiting], [], [], 1, [], []⟩,
      reach_of_replay failedCreationSteps (by decide), rfl, rfl, rfl⟩,
    ⟨⟨1, 0, [], [1], 0, [.ended, .waiting], [], [], 1, [], [0]⟩,
      reach_of_replay brokenMemberSteps (by decide), rfl, rfl, rfl⟩,
    ⟨⟨1, 1, [], [2], 0, [.ended, .unlinked, .waiting], [], [], 1, [0], []⟩,
      reach_of_replay canceledUseSteps (by decide), rfl, rfl⟩⟩

/-- A use waits for the member of another, and gets it. -/
def waitSteps : List Step := [.use, .createEnds 0 true, .use]

theorem waiting_use_is_served_once : ∃ p p', Reach step (fun p a => p.handsOn a = true)
    (create 1) p ∧
    p.waiters = [1] ∧ p.step (.bodyEnds 0 .ok) = some p' ∧ p.count = 1 ∧
    ((∃ st', p'.uses[0]? = some st' ∧ st'.owned ≠ 0) ∨ ∃ c, p'.uses[1]? = some (.handed c)) := by
  have hreach : Reach step (fun p a => p.handsOn a = true) (create 1)
      ⟨1, 1, [], [1], 0, [.using 0 0, .waiting], [], [], 1, [0], []⟩ :=
    reach_of_checked waitSteps (by decide)
  obtain ⟨hcount, -, -, hserved⟩ := waiting_use_is_served (by decide) hreach rfl
  exact ⟨_, _, hreach, rfl, rfl, hcount,
    hserved 0 (.using 0 0) (.bodyEnds 0 .ok) _ rfl (by simp [UseState.owned]) rfl rfl rfl⟩

end Pool

end Lwt
