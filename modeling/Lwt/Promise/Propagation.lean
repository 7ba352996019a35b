import Lwt.Library.Exploring
import Lwt.Promise.Cancel

/-!
# Whom a cancellation reaches

`cancel p` follows the links of `how_to_cancel` with a stack, and marks what it finds.  The links do
not change on the way: the promises that are marked have none.  So the propagation is an exploration
of the links in the heap at the time of the call.  It ends exactly when no infinite chain of links
starts at `p`; then the promises that it has rejected are the pending ones that are cancelable
themselves and can be reached from `p`, each once, along how many ways ever; and no other promise
looks different.
-/

namespace Lwt

open Heap Transition Exploring

variable {U : Type} {main hook : U} {c c₁ c₂ : Config U} {h h' : Heap U} {p q : Pid}
  {collected : List (Pid × Callbacks U)} {below : List (Frame U)}

/-! ## Links -/

/-- The promises that `how_to_cancel` names. -/
def HowToCancel.links : HowToCancel → List Pid
  | .notCancelable | .cancelThisPromise => []
  | .propagateCancelToOne p => [p]
  | .propagateCancelToSeveral ps => ps

/-- The promises that a cancellation of `p` goes on to. -/
def Heap.links (h : Heap U) (p : Pid) : List Pid :=
  match h.stateOf p with
  | some (.pending callbacks) => callbacks.howToCancel.links
  | _ => []

theorem Heap.links_of_pending {callbacks : Callbacks U}
    (hcb : h.stateOf p = some (.pending callbacks)) : h.links p = callbacks.howToCancel.links := by
  rw [Heap.links, hcb]

theorem Heap.links_of_not_pending (hnot : ∀ callbacks, h.stateOf p ≠ some (.pending callbacks)) :
    h.links p = [] := by
  rw [Heap.links]
  split
  · rename_i callbacks hcb
    exact absurd hcb (hnot callbacks)
  · rfl

/-- `u` is pending with the record `callbacks`, and is cancelable itself. -/
def Heap.IsCancelable (h : Heap U) (u : Pid) (callbacks : Callbacks U) : Prop :=
  h[u]? = some (.pending callbacks) ∧ callbacks.howToCancel = .cancelThisPromise

/-- How a heap looks after the records `collected` have been taken from it: their promises are
rejected, each is in the list once, and everything else is as it was in `h`. -/
structure Taken (h : Heap U) (visited : List Pid) (collected : List (Pid × Callbacks U))
    (h' : Heap U) : Prop where
  wellFormed : h'.WellFormed
  root_eq : ∀ q, h'.root q = h.root q
  stateOf_eq : ∀ q, h'.stateOf q =
    if h.root q ∈ collected.map Prod.fst then some (.resolved (.rejected .canceled))
    else h.stateOf q
  nodup : (collected.map Prod.fst).Nodup
  mem_iff : ∀ u callbacks, (u, callbacks) ∈ collected ↔
    h.IsCancelable u callbacks ∧ ∃ q ∈ visited, h.root q = u

theorem Taken.refl (hwf : h.WellFormed) : Taken h [] [] h :=
  ⟨hwf, fun _ => rfl, fun q => by simp, List.nodup_nil, by simp⟩

/-- Promises that were marked have no links. -/
theorem Taken.links_eq {visited : List Pid} (hc : Taken h visited collected h') (p : Pid) :
    h'.links p = h.links p := by
  rw [Heap.links, Heap.links, hc.stateOf_eq]
  split_ifs with hmem
  · obtain ⟨⟨u, callbacks⟩, hin, hu⟩ := List.mem_map.mp hmem
    obtain ⟨⟨hcb, hhow⟩, -⟩ := (hc.mem_iff u callbacks).mp hin
    have hstate : h.stateOf p = some (.pending callbacks) := by
      rw [Heap.stateOf, ← hu]
      exact hcb
    simp [hstate, hhow, HowToCancel.links]
  · rfl

namespace Taken

variable {visited : List Pid} {h'' : Heap U} {callbacks : Callbacks U}

theorem pass (hc : Taken h visited collected h') (hcomp : Compressed h' h'')
    (hnot : ∀ callbacks, h'.stateOf p = some (.pending callbacks) →
      callbacks.howToCancel ≠ .cancelThisPromise) :
    Taken h (visited ++ [p]) collected h'' := by
  refine ⟨hcomp.wellFormed hc.wellFormed, fun q => ?_, fun q => ?_, hc.nodup, fun u callbacks => ?_⟩
  · rw [hcomp.root_eq hc.wellFormed, hc.root_eq]
  · rw [hcomp.stateOf_eq hc.wellFormed, hc.stateOf_eq]
  · rw [hc.mem_iff]
    refine and_congr_right fun hu =>
      ⟨fun ⟨q, hq, hroot⟩ => ⟨q, List.mem_append_left _ hq, hroot⟩, ?_⟩
    rintro ⟨q, hq, hroot⟩
    rcases List.mem_append.mp hq with hq | hq
    · exact ⟨q, hq, hroot⟩
    obtain rfl := List.mem_singleton.mp hq
    by_cases hmem : u ∈ collected.map Prod.fst
    · -- it was marked before, on another way
      obtain ⟨⟨u', callbacks'⟩, hin, heq⟩ := List.mem_map.mp hmem
      obtain rfl : u' = u := heq
      exact ((hc.mem_iff u' callbacks').mp hin).2
    · have hold : h.stateOf q = some (.pending callbacks) := by
        rw [Heap.stateOf, hroot]
        exact hu.1
      have hstate := hc.stateOf_eq q
      rw [hroot, if_neg hmem, hold] at hstate
      exact absurd hu.2 (hnot callbacks hstate)

/-- A pending promise is visited that is cancelable itself: it is rejected, and its record is taken
from it. -/
theorem take (hc : Taken h visited collected h') (hcomp : Compressed h' h'')
    (hcb : h''[h'.root p]? = some (.pending callbacks))
    (hhow : callbacks.howToCancel = .cancelThisPromise) :
    Taken h (visited ++ [p]) ((h'.root p, callbacks) :: collected)
      (h''.set (h'.root p) (.resolved (.rejected .canceled))) := by
  have hwf'' := hcomp.wellFormed hc.wellFormed
  have hroots : ∀ q, h''.root q = h.root q := fun q => by
    rw [hcomp.root_eq hc.wellFormed, hc.root_eq]
  have hp : h'.root p = h.root p := hc.root_eq p
  -- a promise that was collected is rejected by now
  have hnot : h.root p ∉ collected.map Prod.fst := by
    intro hmem
    have hstate := hc.stateOf_eq p
    rw [if_pos hmem, ← hcomp.stateOf_eq hc.wellFormed, Heap.stateOf,
      hcomp.root_eq hc.wellFormed, hcb] at hstate
    cases hstate
  have hold : h[h.root p]? = some (.pending callbacks) := by
    have hstate := hc.stateOf_eq p
    rw [if_neg hnot, ← hcomp.stateOf_eq hc.wellFormed, Heap.stateOf,
      hcomp.root_eq hc.wellFormed, hcb] at hstate
    exact hstate.symm
  have hmark : (.resolved (.rejected .canceled) : State U).IsUnderlying := trivial
  have hset : ∀ q, Heap.root (h''.set (h'.root p) (.resolved (.rejected .canceled))) q =
    h.root q := by
    intro q
    rw [root_set hwf'' hcb trivial hmark, hroots]
  refine ⟨wellFormed_set hwf'' hcb trivial hmark, hset, fun q => ?_, ?_, fun u callbacks' => ?_⟩
  · rw [Heap.stateOf, hset, List.map_cons, hp]
    by_cases hq : h.root q = h.root p
    · rw [hq, List.getElem?_set_self (hp ▸ lt_length_of_getElem? hcb)]
      simp
    · have hstate := hc.stateOf_eq q
      rw [← hcomp.stateOf_eq hc.wellFormed, Heap.stateOf, hroots] at hstate
      rw [List.getElem?_set_ne (Ne.symm hq), hstate]
      simp only [List.mem_cons, hq, false_or]
  · rw [List.map_cons, List.nodup_cons, hp]
    exact ⟨hnot, hc.nodup⟩
  · rw [List.mem_cons, hc.mem_iff, Prod.mk.injEq, hp]
    constructor
    · rintro (⟨rfl, rfl⟩ | ⟨hu, q, hq, hroot⟩)
      · exact ⟨⟨hold, hhow⟩, p, by simp, rfl⟩
      · exact ⟨hu, q, List.mem_append_left _ hq, hroot⟩
    · rintro ⟨hu, q, hq, hroot⟩
      rcases List.mem_append.mp hq with hq | hq
      · exact .inr ⟨hu, q, hq, hroot⟩
      · obtain rfl := List.mem_singleton.mp hq
        obtain rfl : h.root q = u := hroot
        have heq := hu.1.symm.trans hold
        simp only [Option.some.injEq, State.pending.injEq] at heq
        exact .inl ⟨rfl, heq⟩

end Taken

/-- One call of `cancel_and_collect_callbacks` visits its promise and puts the links of it on the
stack. -/
theorem taken_visit {visited : List Pid} (hc : Taken h visited collected c.heap) (p : Pid)
    (todo : List Pid) : ∃ collected',
      (cancelAndCollectCallbacks c p todo collected).stack =
        .propagateCancel (h.links p ++ todo) collected' :: c.stack ∧
      (cancelAndCollectCallbacks c p todo collected).control = .ret .unit ∧
      Taken h (visited ++ [p]) collected' (cancelAndCollectCallbacks c p todo collected).heap := by
  have hcomp : Compressed c.heap (c.heap.compress p) := compressed_compress hc.wellFormed p
  have hstate : (c.heap.compress p)[c.heap.root p]? = c.heap.stateOf p :=
    hcomp.getElem?_root hc.wellFormed p
  rw [← hc.links_eq, cancelAndCollectCallbacks]
  simp only [Config.follow, hstate]
  split
  · rename_i callbacks hcb
    rw [Heap.links_of_pending hcb]
    have hpass : callbacks.howToCancel ≠ .cancelThisPromise →
        Taken h (visited ++ [p]) collected (c.heap.compress p) := fun hhow =>
      hc.pass hcomp fun callbacks' hcb' => by
        rw [hcb] at hcb'
        cases hcb'
        exact hhow
    cases hhow : callbacks.howToCancel with
    | notCancelable => exact ⟨collected, rfl, rfl, hpass (by simp [hhow])⟩
    | cancelThisPromise => exact ⟨_, rfl, rfl, hc.take hcomp (hstate.trans hcb) hhow⟩
    | propagateCancelToOne p' => exact ⟨collected, rfl, rfl, hpass (by simp [hhow])⟩
    | propagateCancelToSeveral ps => exact ⟨collected, rfl, rfl, hpass (by simp [hhow])⟩
  · rename_i hnot
    rw [Heap.links_of_not_pending hnot]
    exact ⟨collected, rfl, rfl, hc.pass hcomp fun callbacks hcb => absurd hcb (hnot callbacks)⟩

/-! ## Runs -/

/-- The next step of the propagation visits a promise. -/
def Config.visits (c : Config U) : Bool :=
  match c.stack with
  | .propagateCancel (_ :: _) _ :: _ => true
  | _ => false

/-- The propagation has visited `visited`, and `todo` is left. -/
structure Propagating (h : Heap U) (p : Pid) (below : List (Frame U)) (visited todo : List Pid)
    (collected : List (Pid × Callbacks U)) (c : Config U) : Prop where
  stack_eq : c.stack = .propagateCancel todo collected :: below
  control_eq : c.control = .ret .unit
  taken : Taken h visited collected c.heap
  explores : ∀ us, Explores h.links todo us → Explores h.links [p] (visited ++ us)

theorem Propagating.next {visited todo : List Pid}
    (hp : Propagating h p below visited (q :: todo) collected c) :
    ∃ c' collected', step c .tau = some c' ∧
      Propagating h p below (visited ++ [q]) (h.links q ++ todo) collected' c' := by
  obtain ⟨collected', hstack, hcontrol, hc⟩ :=
    taken_visit (c := { c with stack := below }) hp.taken q todo
  refine ⟨_, collected', ?_, hstack, hcontrol, hc, fun us hus => ?_⟩
  · simp only [Lwt.step, hp.control_eq, hp.stack_eq]
    rfl
  · rw [List.append_assoc]
    exact hp.explores _ (.cons hus)

theorem Propagating.step {visited todo : List Pid} {a : Label U} {c' : Config U}
    (hp : Propagating h p below visited todo collected c) (hvisits : c.visits = true)
    (hstep : Lwt.step c a = some c') :
    ∃ visited todo collected, Propagating h p below visited todo collected c' := by
  cases todo with
  | nil => simp [Config.visits, hp.stack_eq] at hvisits
  | cons q todo =>
    obtain ⟨c'', collected', hnext, hp'⟩ := hp.next
    rcases step_cases hstep with ⟨s, m, hcontrol, -⟩ | ⟨v, frame, stack, -, -, rfl, -⟩ |
      ⟨e, frame, stack, hcontrol, -⟩
    · simp [hp.control_eq] at hcontrol
    · rw [hnext] at hstep
      cases hstep
      exact ⟨_, _, _, hp'⟩
    · simp [hp.control_eq] at hcontrol

theorem Propagating.ends {visited todo us : List Pid}
    (hp : Propagating h p below visited todo collected c) (hus : Explores h.links todo us) :
    ∃ c' collected' visited', Reach Lwt.step (fun c _ => c.visits = true) c c' ∧
      Propagating h p below visited' [] collected' c' := by
  induction hus generalizing c visited collected with
  | nil => exact ⟨c, collected, visited, .refl, hp⟩
  | cons hus ih =>
    obtain ⟨c', collected', hstep, hp'⟩ := hp.next
    obtain ⟨c'', collected'', visited'', hreach, hend⟩ := ih hp'
    exact ⟨c'', collected'', visited'', hreach.head _
      (by simp [Config.visits, hp.stack_eq]) hstep,
      hend⟩

theorem Propagating.explored {visited : List Pid}
    (hp : Propagating h p below visited [] collected c) : Explores h.links [p] visited := by
  have hus := hp.explores [] .nil
  rwa [List.append_nil] at hus

theorem propagating_call {u : U} (hwf : c.heap.WellFormed)
    (hcall : step c (.move (.call (.cancel p) u)) = some c₁) :
    Propagating c.heap p (.user u :: c.stack) [] [p] [] c₁ := by
  rcases step_cases hcall with ⟨s, m, hcontrol, heq, huser⟩ | ⟨v, frame, stack, -, -, heq, -⟩ |
    ⟨e, frame, stack, -, -, heq, -⟩
  · cases heq
    simp only [userStep] at huser
    split at huser
    · cases huser
      exact ⟨rfl, rfl, .refl hwf, fun us hus => hus⟩
    · simp at huser
  · cases heq
  · cases heq

theorem Propagating.of_reach {visited todo : List Pid}
    (hp : Propagating h p below visited todo collected c₁)
    (hreach : Reach Lwt.step (fun c _ => c.visits = true) c₁ c₂) :
    ∃ visited todo collected, Propagating h p below visited todo collected c₂ := by
  refine hreach.invariant (P := fun c => ∃ visited todo collected,
    Propagating h p below visited todo collected c) ⟨_, _, _, hp⟩ ?_
  rintro c a c' ⟨visited, todo, collected, hp⟩ hvisits hstep
  exact hp.step hvisits hstep

/-- From any call of `cancel` in any run: until the propagation is over nothing but the propagation
is run; it gets there exactly when no infinite chain of links starts at `p`; and then the promises
rejected are the pending ones that are cancelable themselves and can be reached from `p`. -/
theorem cancel_rejects_what_it_reaches {u : U}
    (hreach : Reach step (fun _ _ => True) (initial main hook) c)
    (hcall : step c (.move (.call (.cancel p) u)) = some c₁) :
    (∀ c₂, Reach step (fun c _ => c.visits = true) c₁ c₂ → ∃ todo collected,
      c₂.stack = .propagateCancel todo collected :: .user u :: c.stack ∧ c₂.control = .ret .unit ∧
      (todo = [] → ∃ visited, Taken c.heap visited collected c₂.heap ∧
        ∀ q, q ∈ visited ↔ Relation.ReflTransGen (Follows c.heap.links) p q)) ∧
    ((∃ c₂ collected, Reach step (fun c _ => c.visits = true) c₁ c₂ ∧
      c₂.stack = .propagateCancel [] collected :: .user u :: c.stack) ↔
      Bounded c.heap.links p) := by
  have hwf : c.heap.WellFormed := (reach_sound hreach (control_ne_crash_of_step hcall)).wellFormed
  have hinit := propagating_call hwf hcall
  refine ⟨fun c₂ hc₂ => ?_, ?_, fun hbounded => ?_⟩
  · obtain ⟨visited, todo, collected, hp⟩ := hinit.of_reach hc₂
    refine ⟨todo, collected, hp.stack_eq, hp.control_eq, ?_⟩
    rintro rfl
    exact ⟨visited, hp.taken, fun q => by simp [hp.explored.mem_iff]⟩
  · rintro ⟨c₂, collected, hc₂, hstack⟩
    obtain ⟨visited, todo, collected', hp⟩ := hinit.of_reach hc₂
    obtain rfl : todo = [] := by
      have heq := hp.stack_eq.symm.trans hstack
      simp_all
    exact hp.explored.bounded p List.mem_cons_self
  · obtain ⟨us, hus⟩ := exists_explores_of_bounded hbounded
    obtain ⟨c₂, collected, visited, hc₂, hp⟩ := hinit.ends hus
    exact ⟨c₂, collected, hc₂, hp.stack_eq⟩

/-- Two tasks, and a promise that leads to the first of them in two ways. -/
def sharedMoves : List (Move ℕ) :=
  [.call .task 0, .call .task 0, .call (.join [0, 1]) 0, .call (.join [2, 0]) 0]

/-- The propagation is over, and these promises were rejected. -/
def Config.rejects (c : Config U) (ps : List Pid) : Bool :=
  match c.stack with
  | .propagateCancel [] collected :: _ => collected.map Prod.fst = ps
  | _ => false

/-- Each of the two tasks is rejected once. -/
theorem cancel_rejects_what_it_reaches_shared : ∃ c c₁ c₂ : Config ℕ, ∃ collected,
    Reach step (fun _ _ => True) (initial 0 0) c ∧
    step c (.move (.call (.cancel 3) 0)) = some c₁ ∧
    Reach step (fun c _ => c.visits = true) c₁ c₂ ∧
    c₂.stack = .propagateCancel [] collected :: .user 0 :: c.stack ∧
    collected.map Prod.fst = [1, 0] ∧ Bounded c.heap.links 3 ∧
    ∃ visited, Taken c.heap visited collected c₂.heap := by
  obtain ⟨c, hc, hP⟩ := exists_reach (fun _ _ => true) (c := initial 0 0)
    (P := fun c => (step c (.move (.call (.cancel 3) 0))).any fun c₁ =>
      (script (fun c _ => c.visits) 10 c₁ []).any fun c₂ => c₂.rejects [1, 0])
    (show (script _ 10 (initial 0 0) sharedMoves).any _ = true by decide)
  obtain ⟨c₁, hcall, hP⟩ := (Option.any_eq_true _ _).mp hP
  obtain ⟨c₂, hc₂, hP⟩ := exists_reach _ hP
  have hreach := hc.mono fun _ _ _ => trivial
  obtain ⟨hall, hends⟩ := cancel_rejects_what_it_reaches hreach hcall
  obtain ⟨todo, collected, hstack, -, htaken⟩ := hall c₂ hc₂
  simp only [Config.rejects, hstack] at hP
  cases todo with
  | cons p todo => simp at hP
  | nil =>
    obtain ⟨visited, hvisited, -⟩ := htaken rfl
    exact ⟨c, c₁, c₂, collected, hreach, hcall, hc₂, hstack, of_decide_eq_true hP,
      hends.mp ⟨c₂, collected, hc₂, hstack⟩, visited, hvisited⟩

end Lwt
