import Lwt.Promise.Safety

/-!
# What the heap keeps for ever

In every run, with any functions of the user: each chain of `Proxy _` links ends in a promise
that is fulfilled, rejected or pending; the path compression of `underlying` is not observable; and
later in the run a promise that has been resolved has the same result and is represented by the same
promise, and two promises that are proxies of each other stay so.
-/

namespace Lwt

open Heap Table Transition

variable {U : Type} {main hook : U} {c c' : Config U} {h h' h'' : Heap U}

namespace Heap

/-- `h'` is a heap that `h` has become. -/
structure Later (h h' : Heap U) : Prop where
  length_le : h.length ≤ h'.length
  resolved : ∀ p r, h.IsResolved (h.root p) r →
    h'.root p = h.root p ∧ h'.IsResolved (h'.root p) r
  proxies : ∀ p q, h.root p = h.root q → h'.root p = h'.root q

/-- What `underlying p` returns and leaves: the chain of `p` ends, and no promise looks different
afterwards. -/
def Finds (h : Heap U) (p : Pid) : Prop :=
  ∃ h' s, h.underlying (h.length + 1) p = some (h.root p, h') ∧ h.stateOf p = some s ∧
    s.IsUnderlying ∧ h'.length = h.length ∧
    ∀ q, h'.root q = h.root q ∧ h'.stateOf q = h.stateOf q

theorem Later.refl (h : Heap U) : h.Later h :=
  ⟨Nat.le_refl _, fun _ _ hr => ⟨rfl, hr⟩, fun _ _ => id⟩

theorem Later.trans (hl : h.Later h') (hl' : h'.Later h'') : h.Later h'' := by
  refine ⟨hl.length_le.trans hl'.length_le, fun p r hr => ?_, fun p q hpq => ?_⟩
  · obtain ⟨hroot, hr'⟩ := hl.resolved p r hr
    obtain ⟨hroot', hr''⟩ := hl'.resolved p r hr'
    exact ⟨hroot'.trans hroot, hr''⟩
  · exact hl'.proxies p q (hl.proxies p q hpq)

theorem Later.isPending (hl : h.Later h') (hwf : h.WellFormed) {p : Pid} (hp : p < h.length)
    (hpending : h'.IsPending (h'.root p)) : h.IsPending (h.root p) := by
  obtain ⟨s, hs, hunderlying⟩ := exists_stateOf hwf hp
  cases s with
  | pending callbacks => exact ⟨callbacks, hs⟩
  | proxy q => exact hunderlying.elim
  | resolved r =>
    obtain ⟨-, hr⟩ := hl.resolved p r hs
    obtain ⟨callbacks, hcb⟩ := hpending
    cases hcb.symm.trans hr

theorem WellFormed.finds (hwf : h.WellFormed) {p : Pid} (hp : p < h.length) : h.Finds p := by
  obtain ⟨hunder, -, hc⟩ := underlying_eq hwf p
  obtain ⟨s, hs, hunderlying⟩ := exists_stateOf hwf hp
  exact ⟨h.compress p, s, hunder, hs, hunderlying, hc.length_eq, fun q =>
    ⟨hc.root_eq hwf q, hc.stateOf_eq hwf q⟩⟩

end Heap

theorem Effect.later {L : Pid → Pid → Prop} (hwf : h.WellFormed) (he : Effect L h h') :
    h.Later h' := by
  refine ⟨he.length_le, fun p r hr => ⟨?_, he.isResolved_root hwf hr⟩, fun p q hpq => ?_⟩
  · rcases he.root_cases hwf with hsame | ⟨outer, inner, -, -, ⟨callbacks, hinner⟩, -, hroot⟩
    · exact hsame p
    · have hne : h.root p ≠ inner := by
        rintro rfl
        cases hinner.symm.trans hr
      rw [hroot, if_neg hne]
  · rcases he.root_cases hwf with hsame | ⟨outer, inner, -, -, -, -, hroot⟩
    · rw [hsame, hsame, hpq]
    · rw [hroot, hroot, hpq]

theorem alive_of_reach {ok : Config U → Label U → Prop} (h : Reach step ok c c')
    (halive : c'.control ≠ .crash) : c.control ≠ .crash := by
  induction h with
  | refl => exact halive
  | tail a _ _ hstep ih => exact ih (control_ne_crash_of_step hstep)

theorem later_of_reach (hreach : Reach step (fun _ _ => True) (initial main hook) c)
    (hlater : Reach step (fun _ _ => True) c c') (halive : c'.control ≠ .crash) :
    c'.heap.WellFormed ∧ c.heap.WellFormed ∧ c.heap.Later c'.heap := by
  have hok : ∀ (c : Config U) (a : Label U), True → c.Permits (fun _ _ => True) a :=
    fun c a _ => permits_true c a
  obtain ⟨hs, -⟩ := reach_store (P := fun _ => True) hok (fun _ _ _ _ _ => trivial) trivial hreach
    (alive_of_reach hlater halive)
  obtain ⟨hs', hl⟩ := reach_store_from (P := fun s => c.heap.Later s.heap) hok
    (fun s s' hs hl hact => hl.trans ((hact.effect hs.wellFormed).later hs.wellFormed))
    ⟨hs, .refl _⟩ hlater halive
  exact ⟨hs'.wellFormed, hs.wellFormed, hl⟩

/-- Chains of proxies end at every moment of every run, `underlying` changes nothing that can be
observed, and results and proxies are kept for ever. -/
theorem results_are_final (hreach : Reach step (fun _ _ => True) (initial main hook) c)
    (hlater : Reach step (fun _ _ => True) c c') (halive : c'.control ≠ .crash) :
    (∀ p < c'.heap.length, c'.heap.Finds p) ∧ c.heap.Later c'.heap ∧
      ∀ p < c.heap.length, c'.heap.IsPending (c'.heap.root p) →
      c.heap.IsPending (c.heap.root p) := by
  obtain ⟨hwf', hwf, hl⟩ := later_of_reach hreach hlater halive
  exact ⟨fun p hp => hwf'.finds hp, hl, fun p hp => hl.isPending hwf hp⟩

/-- `bind` on a task, and another task that its function is going to return. -/
def bindMoves : List (Move ℕ) :=
  [.call .task 0, .call .task 0, .call (.attach (.bind 0) 0) 0]

/-- The first task is fulfilled, the function returns the second one, and that is fulfilled. -/
def returnMoves : List (Move ℕ) :=
  [.call (.wakeupGeneral "wakeup" 0 (.fulfilled .unit)) 0, .ret (.promise 1),
    .call (.wakeupGeneral "wakeup" 1 (.fulfilled .unit)) 0]

/-- The second task becomes a proxy of the promise of `bind`. -/
theorem results_are_final_proxy : ∃ c c' : Config ℕ,
    Reach step (fun _ _ => True) (initial 0 0) c ∧ Reach step (fun _ _ => True) c c' ∧
    c.heap.root 1 ≠ c.heap.root 2 ∧ c'.heap.root 1 = c'.heap.root 2 ∧ c.heap.Later c'.heap := by
  obtain ⟨c, hc, hP⟩ := exists_reach (fun _ _ => true) (c := initial 0 0)
    (P := fun c => c.heap.root 1 ≠ c.heap.root 2 ∧
      (script (fun _ _ => true) 40 c returnMoves).any fun c' =>
        !c'.control.isCrash && decide (c'.heap.root 1 = c'.heap.root 2))
    (show (script _ 40 (initial 0 0) bindMoves).any _ = true by decide)
  obtain ⟨hne, hP⟩ := of_decide_eq_true hP
  obtain ⟨c', hc', hP'⟩ := exists_reach _ hP
  obtain ⟨hcrash, heq⟩ := (Bool.and_eq_true _ _).mp hP'
  have halive : c'.control ≠ .crash := fun h => by simp [h, Control.isCrash] at hcrash
  have hreach := hc.mono fun _ _ _ => trivial
  have hlater := hc'.mono fun _ _ _ => trivial
  exact ⟨c, c', hreach, hlater, hne, of_decide_eq_true heq,
    (results_are_final hreach hlater halive).2.1⟩

end Lwt
