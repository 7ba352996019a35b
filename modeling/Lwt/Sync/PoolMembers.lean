import Lwt.Library.Total
import Lwt.Sync.Pool

/-!
# Members of a pool are in one place

`places` collects the free members, those in the hands of a use, those being created, those
that a `clear` has not come to yet, and the calls of `dispose` so far.  A step moves a
member from one place to another, loses it, or adds a new one (`step_moves`), so nothing is
ever in `places` twice.
-/

namespace Lwt

open Tickets Table Transition Multiset

namespace Pool

/-! ## Where the members are -/

def replaced : Option (ℕ × ℕ) → Multiset ℕ
  | some (_, c) => {c}
  | none => 0

/-- The elements that a call of `clear` has not come to. -/
def uncleared (elements : List ℕ) : Multiset ℕ := elements.tail

/-- The members in the pool, when `h` are those of a use and `k` those of a call of `clear`. -/
def account (h : UseState → Multiset ℕ) (k : List ℕ → Multiset ℕ) (p : Pool) : Multiset ℕ :=
  p.list + total h p.uses + total replaced p.replacing + total k p.clearing

/-- All places of members, with the disposals that have been started. -/
def places (p : Pool) : Multiset ℕ := p.account UseState.held uncleared + p.disposed

variable {p p' : Pool} {u c : ℕ} {st t : UseState} {h : UseState → Multiset ℕ}
  {k : List ℕ → Multiset ℕ}

theorem account_setUse (hu : p.uses[u]? = some st) :
    (p.setUse u t).account h k + h st = p.account h k + h t := by
  have htotal := total_set (f := h) (b := t) hu
  simp only [account, setUse]
  rw [show ∀ a x y z : Multiset ℕ, a + x + y + z + h st = a + (x + h st) + y + z
    from fun a x y z => by abel, htotal]
  abel

theorem account_setClearing {i : ℕ} {old l : List ℕ} (hi : p.clearing[i]? = some old) :
    account h k { p with clearing := p.clearing.set i l } + k old = p.account h k + k l := by
  have htotal := total_set (f := k) (b := l) hi
  simp only [account]
  rw [add_assoc, htotal]
  abel

theorem account_endReplace {i : ℕ} (hi : p.replacing[i]? = some (some (u, c))) :
    c ::ₘ account h k { p with replacing := p.replacing.set i none } = p.account h k := by
  have htotal := total_set (f := replaced) (b := none) hi
  simp only [account, replaced, add_zero] at htotal ⊢
  rw [← htotal, ← singleton_add]
  abel

theorem places_setUse (hu : p.uses[u]? = some st) :
    (p.setUse u t).places + st.held = p.places + t.held := by
  have haccount := account_setUse (h := UseState.held) (k := uncleared) (t := t) hu
  simp only [places]
  rw [add_right_comm, haccount, add_right_comm]
  rfl

theorem places_setUse_le (hu : p.uses[u]? = some st) (hle : t.held ≤ st.held) :
    (p.setUse u t).places ≤ p.places := by
  have h := places_setUse (t := t) hu
  refine le_of_add_le_add_right (a := st.held) ?_
  rw [h]
  exact add_le_add_right hle _

@[simp] theorem places_dispose : (p.dispose c).places = c ::ₘ p.places := by
  simp [places, account, dispose, ← cons_coe]

theorem places_wakeupLater (hle : st.held ≤ {c}) :
    (p.wakeupLater u st).places ≤ c ::ₘ p.places := by
  unfold wakeupLater
  split
  · rename_i hu
    have h := places_setUse (t := st) hu
    rw [show UseState.held .waiting = 0 from rfl, add_zero] at h
    rw [h, ← singleton_add, add_comm]
    exact add_le_add_left hle _
  · exact le_cons_self _ _

theorem places_release : (p.release c).places ≤ c ::ₘ p.places := by
  unfold release
  split
  · rename_i v waiters _
    exact places_wakeupLater (p := { p with waiters := waiters }) le_rfl
  · refine le_of_eq ?_
    simp only [places, account, ← coe_add, ← singleton_add,
      coe_singleton]
    abel

/-- The next element of a call of `clear`: its disposal is started. -/
theorem places_disposeNext {i : ℕ} {old r : List ℕ} (hi : p.clearing[i]? = some old) :
    (p.disposeNext i r).places + uncleared old = p.places + r := by
  unfold disposeNext
  split
  · have h := total_set (f := uncleared) (b := []) hi
    simp only [places, account]
    rw [show ∀ a b x y z : Multiset ℕ, a + x + y + z + b + uncleared old =
      a + x + y + (z + uncleared old) + b from fun a b x y z => by abel, h]
    simp [uncleared]
  · rename_i c rest
    have h := total_set (f := uncleared) (b := c :: rest) hi
    simp only [places, account, dispose]
    rw [show ∀ a b x y z : Multiset ℕ, a + x + y + z + b + uncleared old =
      a + x + y + (z + uncleared old) + b from fun a b x y z => by abel, h]
    simp only [uncleared, List.tail_cons, ← cons_coe, ← singleton_add]
    abel

theorem places_clear : p.clear.places = p.places := by
  have hi : ({ p with list := [], cleared := p.cleared + 1, clearing := p.clearing ++ [[]] } :
      Pool).clearing[p.clearing.length]? = some [] := by simp
  have h := places_disposeNext (r := p.list.reverse) hi
  have huncleared : uncleared [] = 0 := rfl
  rw [huncleared, add_zero] at h
  refine h.trans ?_
  simp only [places, account, total_append, total_cons, total_nil, huncleared, coe_reverse,
    coe_nil]
  abel

theorem places_reject (u : ℕ) : (p.reject u).places ≤ p.places := by
  unfold reject
  split
  · rename_i hu
    exact places_setUse_le hu le_rfl
  · exact le_rfl

theorem places_cancel (us : List ℕ) : (p.cancel us).places ≤ p.places := by
  induction us generalizing p with
  | nil => exact le_rfl
  | cons u us ih => exact ih.trans (places_reject u)

/-- No member appears in a second place, and only new members appear. -/
def Moves (p p' : Pool) : Prop :=
  (p'.places ≤ p.places ∧ p'.created = p.created) ∨
    (p'.places ≤ p.created ::ₘ p.places ∧ p'.created = p.created + 1)

theorem created_wakeupLater : (p.wakeupLater u st).created = p.created := by
  unfold wakeupLater
  split <;> rfl

theorem created_release : (p.release c).created = p.created := by
  unfold release
  split
  · exact created_wakeupLater
  · rfl

theorem created_disposeNext {i : ℕ} {l : List ℕ} : (p.disposeNext i l).created = p.created := by
  unfold disposeNext
  split <;> rfl

theorem created_cancel (us : List ℕ) : (p.cancel us).created = p.created := by
  induction us generalizing p with
  | nil => rfl
  | cons u us ih =>
    refine ih.trans ?_
    unfold reject
    split <;> rfl

theorem moves_giveBack {keep : Bool} (hu : p.uses[u]? = some st) (hst : st.held = {c}) :
    Moves p (p.giveBack u c keep) := by
  unfold giveBack
  split
  · have h := places_setUse (t := .ended) hu
    rw [hst, show UseState.held .ended = 0 from rfl, add_zero] at h
    refine .inl ⟨places_release.trans (le_of_eq ?_), created_release⟩
    rw [← singleton_add, add_comm, h]
  · have hu' : (p.dispose c).uses[u]? = some st := hu
    have h := places_setUse (t := .disposing c .endUse) hu'
    rw [hst, show UseState.held (.disposing c .endUse) = 0 from rfl, add_zero, places_dispose,
      ← singleton_add, add_comm] at h
    exact .inl ⟨le_of_eq (add_left_cancel h), rfl⟩

theorem moves_dispose {k : AfterDispose} (hu : p.uses[u]? = some st) (hst : st.held = {c}) :
    Moves p ((p.dispose c).setUse u (.disposing c k)) := by
  have hu' : (p.dispose c).uses[u]? = some st := hu
  have h := places_setUse (t := .disposing c k) hu'
  rw [hst, show UseState.held (.disposing c k) = 0 from rfl, add_zero, places_dispose,
    ← singleton_add, add_comm] at h
  exact .inl ⟨le_of_eq (add_left_cancel h), rfl⟩

theorem use_cases (p : Pool) :
    (p.list = [] ∧ p.count < p.max ∧
      p.use = { p with
        count := p.count + 1, created := p.created + 1, alive := p.created :: p.alive
        uses := p.uses ++ [.creating p.created] }) ∨
    (p.list = [] ∧ ¬ p.count < p.max ∧
      p.use = { p with
        waiters := p.waiters ++ [p.uses.length], uses := p.uses ++ [.waiting] }) ∨
    ∃ c list, p.list = c :: list ∧
      p.use = { p with list := list, uses := p.uses ++ [.validating c] } := by
  cases hlist : p.list with
  | nil =>
    by_cases hcount : p.count < p.max
    · exact .inl ⟨rfl, hcount, by simp [use, acquire, hlist, hcount, createMember, newMember]⟩
    · exact .inr (.inl ⟨rfl, hcount, by simp [use, acquire, hlist, hcount]⟩)
  | cons c list => exact .inr (.inr ⟨c, list, rfl, by simp [use, acquire, hlist]⟩)

theorem moves_use : Moves p p.use := by
  rcases use_cases p with ⟨-, -, huse⟩ | ⟨-, -, huse⟩ | ⟨c, list, hlist, huse⟩
  · refine .inr ⟨le_of_eq ?_, by rw [huse]⟩
    rw [huse]
    simp only [places, account, total_append, total_cons, total_nil, UseState.held,
      ← singleton_add]
    abel
  · refine .inl ⟨le_of_eq ?_, by rw [huse]⟩
    rw [huse]
    simp only [places, account, total_append, total_cons, total_nil, UseState.held, add_zero]
  · refine .inl ⟨le_of_eq ?_, by rw [huse]⟩
    rw [huse]
    simp only [places, account, hlist, total_append, total_cons, total_nil, UseState.held,
      ← cons_coe, ← singleton_add]
    abel

theorem moves_disposeEnds {k : AfterDispose} {ok : Bool}
    (hu : p.uses[u]? = some (.disposing c k)) : Moves p (p.disposeEnds u c k ok) := by
  unfold disposeEnds
  split
  · cases k with
    | createMember =>
      refine .inr ⟨?_, rfl⟩
      have h := places_setUse (p := (p.disposeDone c).createMember.1) (u := u)
        (t := .creating p.created) hu
      rw [show UseState.held (.disposing c .createMember) = 0 from rfl, add_zero] at h
      refine le_of_eq (h.trans ?_)
      rw [add_comm]
      rfl
    | replaceDisposed =>
      dsimp only
      unfold replaceDisposed
      split
      · exact .inl ⟨places_setUse_le (p := p.disposeDone c) hu (by simp [UseState.held]), rfl⟩
      · refine .inr ⟨?_, rfl⟩
        rename_i v waiters _
        have h := places_setUse_le (p := Pool.newMember { p.disposeDone c with
          waiters := waiters, replacing := p.replacing ++ [some (v, p.created)] })
          (t := .ended) hu (by simp [UseState.held])
        refine h.trans (le_of_eq ?_)
        simp only [newMember, places, account, disposeDone, total_append, total_cons, total_nil,
          replaced, ← singleton_add]
        abel
    | endUse =>
      exact .inl ⟨places_setUse_le (p := p.disposeDone c) hu (by simp [UseState.held]), rfl⟩
  · exact .inl ⟨places_setUse_le hu (by simp [UseState.held]), rfl⟩

theorem moves_replaceEnds {i : ℕ} {ok : Bool} (hi : p.replacing[i]? = some (some (u, c))) :
    Moves p (p.replaceEnds i u c ok) := by
  have h := total_set (f := replaced) (b := none) hi
  have hplaces :
      c ::ₘ ({ p with replacing := p.replacing.set i none } : Pool).places = p.places := by
    simp only [places, account, replaced, add_zero] at h ⊢
    rw [← h, ← singleton_add]
    abel
  unfold replaceEnds
  split
  · exact .inl ⟨(places_wakeupLater le_rfl).trans (le_of_eq hplaces), created_wakeupLater⟩
  · exact .inl ⟨(places_wakeupLater (c := c) (by simp [UseState.held])).trans (le_of_eq hplaces),
      created_wakeupLater⟩

theorem step_moves {a : Step} (hstep : p.step a = some p') : Moves p p' := by
  cases step_cases hstep with
  | use => exact moves_use
  | createEnds u c ok hu =>
    unfold createEnds
    split
    · exact .inl ⟨places_setUse_le hu le_rfl, rfl⟩
    · exact .inl ⟨places_setUse_le (p := { p with count := _, alive := _ }) hu
        (by simp [UseState.held]), rfl⟩
  | validateEnds u c r hu =>
    cases r with
    | valid => exact .inl ⟨places_setUse_le hu le_rfl, rfl⟩
    | invalid => exact moves_dispose hu rfl
    | fails => exact moves_dispose hu rfl
  | bodyEnds u c cleared r hu =>
    cases r with
    | ok => exact moves_giveBack hu rfl
    | fails => exact .inl ⟨places_setUse_le hu le_rfl, rfl⟩
  | checkEnds u c cleared r hu =>
    cases r with
    | gives ok => exact moves_giveBack hu rfl
    | raises => exact .inl ⟨places_setUse_le hu (by simp [UseState.held]), rfl⟩
  | disposeEnds u c k ok hu => exact moves_disposeEnds hu
  | replaceEnds i u c ok hi => exact moves_replaceEnds hi
  | clear => exact .inl ⟨le_of_eq places_clear, created_disposeNext⟩
  | clearDisposed i c rest hi =>
    have h := places_disposeNext (p := p.disposeDone c) (r := rest) hi
    exact .inl ⟨le_of_eq (add_right_cancel (b := uncleared (c :: rest)) h), created_disposeNext⟩
  | clearFails i c rest hi =>
    have h := places_disposeNext (r := []) hi
    refine .inl ⟨?_, rfl⟩
    rw [coe_nil, add_zero] at h
    rw [← h]
    exact Multiset.le_add_right _ _
  | cancel us => exact .inl ⟨places_cancel us, created_cancel us⟩
  | runCancelCallbacks u hu => exact .inl ⟨places_setUse_le hu le_rfl, rfl⟩
  | runHanded u c hu => exact .inl ⟨places_setUse_le hu le_rfl, rfl⟩
  | runEnded u st hu _ => exact .inl ⟨places_setUse_le hu (Multiset.zero_le _), rfl⟩

/-- Each member is in one place. -/
structure Placed (p : Pool) : Prop where
  nodup : p.places.Nodup
  lt : ∀ c ∈ p.places, c < p.created

theorem placed_create (max : ℕ) : Placed (create max) :=
  ⟨by simp [places, account, create], by simp [places, account, create]⟩

theorem Placed.step {a : Step} (hp : Placed p) (hstep : p.step a = some p') : Placed p' := by
  rcases step_moves hstep with ⟨hle, hcreated⟩ | ⟨hle, hcreated⟩
  · exact ⟨nodup_of_le hle hp.nodup,
      fun c hc => hcreated ▸ hp.lt c (mem_of_le hle hc)⟩
  · have hnew : p.created ∉ p.places := fun h => Nat.lt_irrefl _ (hp.lt _ h)
    refine ⟨nodup_of_le hle (nodup_cons.mpr ⟨hnew, hp.nodup⟩), fun c hc => ?_⟩
    rcases mem_cons.mp (mem_of_le hle hc) with rfl | hc
    · omega
    · have := hp.lt c hc
      omega

theorem reach_placed {ok : Pool → Step → Prop} {max : ℕ} (hreach : Reach step ok (create max) p) :
    Placed p :=
  hreach.invariant (placed_create max) fun _ _ _ hp _ hstep => hp.step hstep

/-- In every run: a free member is in the queue once, with no use and not disposed of; a
member in the hands of a use is with no other use, and its disposal has not been started;
and no member is disposed of twice. -/
theorem member_in_one_place {max : ℕ} {p : Pool}
    (hreach : Reach step (fun _ _ => True) (create max) p) :
    p.list.Nodup ∧ p.disposed.Nodup ∧
    (∀ c ∈ p.list, c ∉ p.disposed ∧
      ∀ (u : ℕ) (st : UseState), p.uses[u]? = some st → c ∉ st.held) ∧
    ∀ (u c : ℕ) (st : UseState), p.uses[u]? = some st → c ∈ st.held →
      c ∉ p.disposed ∧
        ∀ (u' : ℕ) (t : UseState), p.uses[u']? = some t → c ∈ t.held → u' = u := by
  have hnodup := (reach_placed hreach).nodup
  simp only [places, account, nodup_add, disjoint_left, mem_add]
    at hnodup
  obtain ⟨⟨⟨⟨hlist, huses, hfree⟩, -, -⟩, -, -⟩, hdisposed, hapart⟩ := hnodup
  refine ⟨hlist, hdisposed, fun c hc => ⟨fun h => ?_, fun u st hu h => ?_⟩,
    fun u c st hu hc => ⟨fun h => ?_, fun u' t hu' hc' => ?_⟩⟩
  · exact hapart (.inl (.inl (.inl hc))) h
  · exact hfree hc (mem_total.mpr ⟨u, st, hu, h⟩)
  · exact hapart (.inl (.inl (.inr (mem_total.mpr ⟨u, st, hu, hc⟩)))) h
  · exact eq_of_mem_total huses hu' hu hc' hc

/-- A member is validated, found invalid and replaced while another use waits. -/
def recreateSteps : List Step :=
  [.use, .createEnds 0 true, .use, .bodyEnds 0 .ok, .runCallbacks 1, .use,
    .validateEnds 1 .invalid, .disposeEnds 1 true]

theorem member_in_one_place_recreate : ∃ p, Reach step (fun _ _ => True) (create 1) p ∧
    p.disposed = [0] ∧ p.uses[1]? = some (.creating 1) ∧ 1 ∉ p.disposed := by
  have hreach : Reach step (fun _ _ => True) (create 1)
      ⟨1, 1, [], [2], 0, [.ended, .creating 1, .waiting], [], [], 2, [1], [0]⟩ :=
    reach_of_replay recreateSteps (by decide)
  exact ⟨_, hreach, rfl, rfl,
    ((member_in_one_place hreach).2.2.2 1 1 (.creating 1) rfl (by simp [UseState.held])).1⟩

end Pool

end Lwt
