import Lwt.Unix.Descriptor

/-!
# The hooks of a file descriptor

What the steps keep, as long as `abort` is called with an exception that makes the actions fail:
each pending action has one hook, in the sequence of the event that it has last asked for, the other
hooks are those of canceled actions, and `clear_events` passes over no hook of an action that was
there when it was called.
-/

namespace Lwt.Descriptor

open Transition FileDescr

variable {filter : ExceptionFilter} {ch ch' : FileDescr} {links links' : Sequences Hook}
  {d : Deques Hook} {actions : List Action} {lost : Option ℕ} {event event' : IoEvent}
  {l : List ℕ} {i x since curr : ℕ} {a : Action} {called : Bool} {w : Waiter} {frame : Frame}

/-- Neither an exception that requeues an action nor one that the exception filter refuses. -/
def plain (filter : ExceptionFilter) (e : Exn) : Bool := outcome filter .read (.error e) = .exn e

theorem outcome_of_plain {e : Exn} (h : plain filter e = true) (event : IoEvent) :
    outcome filter event (.error e) = .exn e := by
  have h' : outcome filter .read (.error e) = .exn e := of_decide_eq_true h
  cases e <;> first | exact h' | cases h'

theorem check_error {state : State} (h : state ≠ .opened) :
    ∃ e, checkDescriptor state = .error e := by
  cases state with
  | opened => exact absurd rfl h
  | closed => exact ⟨_, rfl⟩
  | aborted e => exact ⟨e, rfl⟩

theorem retrySyscall_error {e : Exn} (hstate : ch'.state = ch.state)
    (he : checkDescriptor ch.state = .error e) (hook : Hook) (result : Except Exn Unit) :
    ch'.retrySyscall filter hook result =
      ch'.retry hook (outcome filter hook.event (.error e)) := by
  unfold FileDescr.retrySyscall
  rw [hstate, he]

theorem header_injective (h : header event = header event') : event = event' := by
  cases event <;> cases event' <;> first | rfl | cases h

/-! ## Hooks and actions -/

/-- The action `i` has its hook in the sequence of its event. -/
structure Hooked (links : Sequences Hook) (d : Deques Hook) (actions : List Action) (i : ℕ)
    (a : Action) : Prop where
  action : actions[i]? = some a
  live : a.live = true
  data : links.data a.node = some ⟨i, a.event⟩
  list : ∃ l, d.lists (header a.event) = some l ∧ a.node ∈ l

/-- Each pending action has one hook, but for the action `lost`, that has none; an action that has
been canceled may have one. -/
structure Linked (links : Sequences Hook) (d : Deques Hook) (actions : List Action)
    (lost : Option ℕ) : Prop where
  represents : Represents links d
  lists : ∀ event, ∃ l, d.lists (header event) = some l
  only : ∀ seq l, d.lists seq = some l → ∃ event, seq = header event
  hook : ∀ event l x, d.lists (header event) = some l → x ∈ l → ∃ i a,
    Hooked links d actions i a ∧ a.node = x ∧ a.event = event ∧ lost ≠ some i
  node : ∀ (i : ℕ) a, actions[i]? = some a → a.node = header .read ∨
    ∃ event, links.data a.node = some ⟨i, event⟩
  pending : ∀ i a, actions[i]? = some a → a.waiter = .pending → lost ≠ some i →
    Hooked links d actions i a

def added (d : Deques Hook) (seq : ℕ) (l : List ℕ) (hook : Hook) : Deques Hook :=
  ⟨d.size + 1, Function.update d.lists seq (some (l ++ [d.size])),
    Function.update d.value d.size (some hook)⟩

theorem waiter_of_live (h : a.live = true) : a.waiter = .pending ∨ a.waiter = .canceled := by
  simp only [Action.live, Bool.or_eq_true, Bool.and_eq_true, decide_eq_true_eq] at h
  exact h.imp_right And.left

namespace Linked

theorem of_active (h : Linked links d actions none) (hactive : links.active x = true) :
    ∃ i a, Hooked links d actions i a ∧ a.node = x := by
  obtain ⟨seq, l, hl, hx⟩ := (h.represents.active x).mp hactive
  obtain ⟨event, rfl⟩ := h.only seq l hl
  obtain ⟨i, a, hhooked, hnode, -⟩ := h.hook event l x hl hx
  exact ⟨i, a, hhooked, hnode⟩

theorem hooked_of_active (h : Linked links d actions none) (ha : actions[i]? = some a)
    (hactive : links.active a.node = true) : Hooked links d actions i a := by
  obtain ⟨j, b, hb, hnode⟩ := h.of_active hactive
  have hdata := hb.data
  rw [hnode] at hdata
  rcases h.node i a ha with hheader | ⟨event, hdata'⟩
  · obtain ⟨l, hl⟩ := h.lists .read
    have hnone := ((h.represents.header (header .read)).mp ⟨l, hl⟩).2
    rw [hheader, hnone] at hdata
    cases hdata
  · obtain rfl : j = i := congrArg Hook.action (Option.some.inj (hdata.symm.trans hdata'))
    cases hb.action.symm.trans ha
    exact hb

theorem removed (h : Linked links d actions none) (ha : Hooked links d actions i a) :
    Linked (links.remove a.node) (d.remove a.node) actions (some i) := by
  have hkeep : ∀ j b, Hooked links d actions j b → j ≠ i →
      Hooked (links.remove a.node) (d.remove a.node) actions j b := by
    intro j b hb hji
    obtain ⟨l, hl, hmem⟩ := hb.list
    refine ⟨hb.action, hb.live, (Sequences.data_remove ..).trans hb.data, _,
      congrArg (Option.map _) hl, (List.mem_erase_of_ne fun heq => hji ?_).mpr hmem⟩
    have hdata := hb.data
    rw [heq, ha.data] at hdata
    exact (congrArg Hook.action (Option.some.inj hdata)).symm
  refine ⟨h.represents.remove a.node, fun event => ?_, fun seq l' hl' => ?_,
    fun event l' x hl' hx => ?_, fun j b hj => ?_, fun j b hj hb hji => ?_⟩
  · obtain ⟨l', hl'⟩ := h.lists event
    exact ⟨_, congrArg (Option.map _) hl'⟩
  · obtain ⟨l'', hl'', -⟩ := Option.map_eq_some_iff.mp hl'
    exact h.only seq l'' hl''
  · obtain ⟨l'', hl'', rfl⟩ := Option.map_eq_some_iff.mp hl'
    have hnodup := (List.nodup_cons.mp (h.represents.ring hl'').nodup).2
    obtain ⟨hxa, hx⟩ := (hnodup.mem_erase_iff).mp hx
    obtain ⟨j, b, hb, hnode, hevent, -⟩ := h.hook event l'' x hl'' hx
    have hji : j ≠ i := by
      rintro rfl
      rw [Option.some.inj (hb.action.symm.trans ha.action)] at hnode
      exact hxa hnode.symm
    exact ⟨j, b, hkeep j b hb hji, hnode, hevent, fun heq => hji (Option.some.inj heq).symm⟩
  · rcases h.node j b hj with hheader | ⟨event, hdata⟩
    · exact .inl hheader
    · exact .inr ⟨event, (Sequences.data_remove ..).trans hdata⟩
  · exact hkeep j b (h.pending j b hj hb nofun) fun heq => hji (congrArg some heq.symm)

/-- The action that has no hook is changed, but neither its node nor, if it is pending, its
waiter. -/
theorem settled (h : Linked links d actions (some i)) (f : Action → Action)
    (hnode : ∀ a, (f a).node = a.node)
    (hf : ∀ a, actions[i]? = some a → (f a).waiter ≠ .pending) :
    Linked links d (actions.modify i f) none := by
  have hkeep : ∀ j b, Hooked links d actions j b → some i ≠ some j →
      Hooked links d (actions.modify i f) j b := by
    intro j b hb hij
    refine ⟨?_, hb.live, hb.data, hb.list⟩
    rw [List.getElem?_modify_ne _ _ fun heq => hij (congrArg some heq), hb.action]
  refine ⟨h.represents, h.lists, h.only, fun event l x hl hx => ?_, fun j b hj => ?_,
    fun j b hj hb _ => ?_⟩
  · obtain ⟨j, b, hb, hx, hevent, hij⟩ := h.hook event l x hl hx
    exact ⟨j, b, hkeep j b hb hij, hx, hevent, by simp⟩
  · by_cases hij : i = j
    · subst hij
      rw [List.getElem?_modify_eq] at hj
      obtain ⟨a, ha, rfl⟩ := Option.map_eq_some_iff.mp hj
      rw [hnode]
      exact h.node i a ha
    · rw [List.getElem?_modify_ne _ _ hij] at hj
      exact h.node j b hj
  · by_cases hij : i = j
    · subst hij
      rw [List.getElem?_modify_eq] at hj
      obtain ⟨a, ha, rfl⟩ := Option.map_eq_some_iff.mp hj
      exact absurd hb (hf a ha)
    · rw [List.getElem?_modify_ne _ _ hij] at hj
      exact hkeep j b (h.pending j b hj hb fun heq => hij (Option.some.inj heq))
        fun heq => hij (Option.some.inj heq)

theorem forget (h : Linked links d actions (some i)) (ha : actions[i]? = some a)
    (hpending : a.waiter ≠ .pending) : Linked links d actions none := by
  have hsame : actions.modify i id = actions := by simp
  have hsettled := h.settled id (fun _ => rfl) fun b hb => by
    rw [← Option.some.inj (ha.symm.trans hb)]
    exact hpending
  rwa [hsame] at hsettled

theorem rehooked (h : Linked links d actions (some i)) (ha : actions[i]? = some a)
    (hlive : a.live = true) (hl : d.lists (header event) = some l) :
    Linked (links.addR ⟨i, event⟩ (header event)) (added d (header event) l ⟨i, event⟩)
      (actions.modify i fun a => { a with node := links.length, event := event }) none := by
  have hsize := h.represents.size
  have hlist : ∀ event' l', Function.update d.lists (header event) (some (l ++ [d.size]))
      (header event') = some l' → (event' = event ∧ l' = l ++ [d.size]) ∨
        (event' ≠ event ∧ d.lists (header event') = some l') := by
    intro event' l' hl'
    by_cases heq : event' = event
    · rw [heq, Function.update_self] at hl'
      exact .inl ⟨heq, (Option.some.inj hl').symm⟩
    · rw [Function.update_of_ne fun h => heq (header_injective h)] at hl'
      exact .inr ⟨heq, hl'⟩
  have hlt : ∀ {x hook}, links.data x = some hook → x < links.length := by
    intro x hook hdata
    by_contra hge
    simp [Sequences.data, List.getElem?_eq_none (Nat.not_lt.mp hge)] at hdata
  have hmem : ∀ event' l' x, d.lists (header event') = some l' → x ∈ l' →
      ∃ l₁, (added d (header event) l ⟨i, event⟩).lists (header event') = some l₁ ∧ x ∈ l₁ := by
    intro event' l' x hl' hx
    by_cases heq : event' = event
    · subst heq
      cases hl.symm.trans hl'
      exact ⟨l ++ [d.size], Function.update_self .., List.mem_append_left _ hx⟩
    · refine ⟨l', ?_, hx⟩
      change Function.update d.lists _ _ _ = _
      rw [Function.update_of_ne fun h => heq (header_injective h), hl']
  -- the other actions keep their hooks
  have hkeep : ∀ j b, Hooked links d actions j b → some i ≠ some j →
      Hooked (links.addR ⟨i, event⟩ (header event)) (added d (header event) l ⟨i, event⟩)
        (actions.modify i fun a => { a with node := links.length, event := event }) j b := by
    intro j b hb hij
    obtain ⟨l', hl', hmem'⟩ := hb.list
    refine ⟨?_, hb.live, (Sequences.data_addR_lt (hlt hb.data)).trans hb.data,
      hmem b.event l' b.node hl' hmem'⟩
    rw [List.getElem?_modify_ne _ _ fun heq => hij (congrArg some heq), hb.action]
  -- the action `i` has the new hook
  have hnew : Hooked (links.addR ⟨i, event⟩ (header event))
      (added d (header event) l ⟨i, event⟩)
      (actions.modify i fun a => { a with node := links.length, event := event }) i
      { a with node := links.length, event := event } := by
    refine ⟨?_, hlive, Sequences.data_addR_self .., l ++ [d.size], Function.update_self .., ?_⟩
    · rw [List.getElem?_modify_eq, ha]
      rfl
    · rw [hsize]
      simp
  refine ⟨h.represents.addR hl, fun event' => ?_, fun seq l' hl' => ?_,
    fun event' l' x hl' hx => ?_, fun j b hj => ?_, fun j b hj hb _ => ?_⟩
  · obtain ⟨l', hl'⟩ := h.lists event'
    by_cases heq : event' = event
    · rw [heq]
      exact ⟨_, Function.update_self ..⟩
    · refine ⟨l', ?_⟩
      change Function.update d.lists _ _ _ = _
      rw [Function.update_of_ne fun h => heq (header_injective h), hl']
  · by_cases heq : seq = header event
    · exact ⟨event, heq⟩
    · change Function.update d.lists _ _ _ = _ at hl'
      rw [Function.update_of_ne heq] at hl'
      exact h.only seq l' hl'
  · rcases hlist event' l' hl' with ⟨rfl, rfl⟩ | ⟨-, hl'⟩
    · rcases List.mem_append.mp hx with hx | hx
      · obtain ⟨j, b, hb, hnode, hevent, hij⟩ := h.hook event' l x hl hx
        exact ⟨j, b, hkeep j b hb hij, hnode, hevent, by simp⟩
      · rw [List.mem_singleton.mp hx, hsize]
        exact ⟨i, _, hnew, rfl, rfl, by simp⟩
    · obtain ⟨j, b, hb, hnode, hevent, hij⟩ := h.hook event' l' x hl' hx
      exact ⟨j, b, hkeep j b hb hij, hnode, hevent, by simp⟩
  · by_cases hij : i = j
    · subst hij
      cases hnew.action.symm.trans hj
      exact .inr ⟨event, hnew.data⟩
    · rw [List.getElem?_modify_ne _ _ hij] at hj
      rcases h.node j b hj with hheader | ⟨event', hdata⟩
      · exact .inl hheader
      · exact .inr ⟨event', (Sequences.data_addR_lt (hlt hdata)).trans hdata⟩
  · by_cases hij : i = j
    · subst hij
      cases hnew.action.symm.trans hj
      exact hnew
    · rw [List.getElem?_modify_ne _ _ hij] at hj
      have hne : some i ≠ some j := fun heq => hij (Option.some.inj heq)
      exact hkeep j b (h.pending j b hj hb hne) hne

theorem registered (h : Linked links d actions none) (event : IoEvent) :
    Linked links d (actions ++ [⟨0, .pending, event, false⟩]) (some actions.length) := by
  have hkeep : ∀ j b, Hooked links d actions j b →
      Hooked links d (actions ++ [⟨0, .pending, event, false⟩]) j b ∧ actions.length ≠ j := by
    intro j b hb
    have hlt := (List.getElem?_eq_some_iff.mp hb.action).1
    refine ⟨⟨?_, hb.live, hb.data, hb.list⟩, Nat.ne_of_gt hlt⟩
    rw [List.getElem?_append_left hlt, hb.action]
  have hold : ∀ (j : ℕ) b, (actions ++ [⟨0, .pending, event, false⟩])[j]? = some b →
      actions.length ≠ j → actions[j]? = some b := by
    intro j b hj hne
    have hlt := (List.getElem?_eq_some_iff.mp hj).1
    rw [List.length_append, List.length_singleton] at hlt
    rwa [List.getElem?_append_left (Nat.lt_of_le_of_ne (Nat.le_of_lt_succ hlt) hne.symm)] at hj
  refine ⟨h.represents, h.lists, h.only, fun event' l x hl hx => ?_, fun j b hj => ?_,
    fun j b hj hb hlost => ?_⟩
  · obtain ⟨j, b, hb, hnode, hevent, -⟩ := h.hook event' l x hl hx
    exact ⟨j, b, (hkeep j b hb).1, hnode, hevent,
      fun heq => (hkeep j b hb).2 (Option.some.inj heq)⟩
  · by_cases hne : actions.length = j
    · subst hne
      rw [List.getElem?_concat_length] at hj
      cases hj
      exact .inl rfl
    · exact h.node j b (hold j b hj hne)
  · have hne : actions.length ≠ j := fun heq => hlost (congrArg some heq)
    exact (hkeep j b (h.pending j b (hold j b hj hne) hb nofun)).1

theorem lose (h : Linked links d actions none) (hno : ∀ a, ¬Hooked links d actions i a) :
    Linked links d actions (some i) := by
  refine ⟨h.represents, h.lists, h.only, fun event l x hl hx => ?_, h.node,
    fun j b hj hb _ => h.pending j b hj hb nofun⟩
  obtain ⟨j, b, hb, hnode, hevent, -⟩ := h.hook event l x hl hx
  refine ⟨j, b, hb, hnode, hevent, fun heq => hno b ?_⟩
  rwa [Option.some.inj heq]

theorem reject (h : Linked links d actions none) (ha : actions[i]? = some a) :
    Linked links d (actions.modify i fun a => { a with waiter := .canceled, canceling := true })
      none := by
  have hkeep : ∀ j b, Hooked links d actions j b → ∃ b',
      Hooked links d (actions.modify i fun a => { a with waiter := .canceled, canceling := true })
        j b' ∧ b'.node = b.node ∧ b'.event = b.event := by
    intro j b hb
    by_cases hij : i = j
    · subst hij
      refine ⟨{ b with waiter := .canceled, canceling := true }, ⟨?_, rfl, hb.data, hb.list⟩, rfl,
        rfl⟩
      rw [List.getElem?_modify_eq, hb.action]
      rfl
    · refine ⟨b, ⟨?_, hb.live, hb.data, hb.list⟩, rfl, rfl⟩
      rw [List.getElem?_modify_ne _ _ hij, hb.action]
  refine ⟨h.represents, h.lists, h.only, fun event l x hl hx => ?_, fun j b hj => ?_,
    fun j b hj hb _ => ?_⟩
  · obtain ⟨j, b, hb, hnode, hevent, -⟩ := h.hook event l x hl hx
    obtain ⟨b', hb', hnode', hevent'⟩ := hkeep j b hb
    exact ⟨j, b', hb', hnode'.trans hnode, hevent'.trans hevent, nofun⟩
  · by_cases hij : i = j
    · subst hij
      rw [List.getElem?_modify_eq, ha] at hj
      cases hj
      exact h.node i a ha
    · rw [List.getElem?_modify_ne _ _ hij] at hj
      exact h.node j b hj
  · by_cases hij : i = j
    · subst hij
      rw [List.getElem?_modify_eq, ha] at hj
      cases hj
      cases hb
    · rw [List.getElem?_modify_ne _ _ hij] at hj
      have hb' := h.pending j b hj hb nofun
      refine ⟨?_, hb'.live, hb'.data, hb'.list⟩
      rw [List.getElem?_modify_ne _ _ hij, hj]

end Linked

/-! ## `clear_events` -/

/-- The hook of an action that was registered before. -/
def Old (links : Sequences Hook) (since x : ℕ) : Prop :=
  ∃ hook, links.data x = some hook ∧ hook.action < since

/-- `clear_events` is at the node `curr`: the old hooks of the sequence were there when its
iteration started, and none is left in a sequence whose iteration is over. -/
structure Clearing (links : Sequences Hook) (d : Deques Hook) (since : ℕ) (event : IoEvent)
    (curr : ℕ) (called : Bool) : Prop where
  passes : ∃ start all, links.Passes d (header event) start all curr called ∧
    ∀ l x, d.lists (header event) = some l → x ∈ l → Old links since x → x ∈ start
  passed : event = .write → ∀ l x, d.lists (header .read) = some l → x ∈ l → ¬ Old links since x

namespace Clearing

theorem removed {node seq : ℕ} {l' : List ℕ} (h : Clearing links d since event curr called)
    (hrep : Represents links d) (hl' : d.lists seq = some l') (hnode : node ∈ l') :
    Clearing (links.remove node) (d.remove node) since event curr called := by
  obtain ⟨start, all, hpasses, hstart⟩ := h.passes
  have hold : ∀ x, Old (links.remove node) since x → Old links since x := by
    rintro x ⟨hook, hdata, hlt⟩
    exact ⟨hook, (Sequences.data_remove ..).symm.trans hdata, hlt⟩
  refine ⟨⟨start, all, hpasses.remove hrep hl' hnode, fun l x hl hx hxold => ?_⟩,
    fun hwrite l x hl hx hxold => ?_⟩
  · obtain ⟨l₀, hl₀, rfl⟩ := Option.map_eq_some_iff.mp hl
    exact hstart l₀ x hl₀ (List.mem_of_mem_erase hx) (hold x hxold)
  · obtain ⟨l₀, hl₀, rfl⟩ := Option.map_eq_some_iff.mp hl
    exact h.passed hwrite l₀ x hl₀ (List.mem_of_mem_erase hx) (hold x hxold)

theorem added {hook : Hook} (h : Clearing links d since event curr called)
    (hrep : Represents links d) (hl : d.lists (header event') = some l)
    (hhook : since ≤ hook.action) :
    Clearing (links.addR hook (header event')) (added d (header event') l hook) since event curr
      called := by
  obtain ⟨start, all, hpasses, hstart⟩ := h.passes
  have hnew : ∀ x l₁ event₁, (Descriptor.added d (header event') l hook).lists (header event₁) =
    some l₁ →
      x ∈ l₁ → Old (links.addR hook (header event')) since x →
      ∃ l₀, d.lists (header event₁) = some l₀ ∧ x ∈ l₀ ∧ Old links since x := by
    rintro x l₁ event₁ hl₁ hx ⟨hook', hdata, hlt⟩
    have hx' : ∃ l₀, d.lists (header event₁) = some l₀ ∧ (x ∈ l₀ ∨ x = links.length) := by
      change Function.update d.lists _ _ _ = _ at hl₁
      by_cases heq : event₁ = event'
      · rw [heq, Function.update_self] at hl₁
        cases hl₁
        refine ⟨l, heq ▸ hl, ?_⟩
        rw [← hrep.size]
        simpa using hx
      · rw [Function.update_of_ne fun h => heq (header_injective h)] at hl₁
        exact ⟨l₁, hl₁, .inl hx⟩
    obtain ⟨l₀, hl₀, hx | rfl⟩ := hx'
    · have hlt' := (hrep.ring hl₀).within x (List.mem_cons_of_mem _ hx)
      rw [Sequences.data_addR_lt hlt'] at hdata
      exact ⟨l₀, hl₀, hx, hook', hdata, hlt⟩
    · rw [Sequences.data_addR_self] at hdata
      cases hdata
      exact absurd hlt (Nat.not_lt.mpr hhook)
  refine ⟨?_, fun hwrite l₁ x hl₁ hx hxold => ?_⟩
  · by_cases heq : event' = event
    · subst heq
      have hall := hpasses.walked.list
      cases hall.symm.trans hl
      refine ⟨start, _, hpasses.addR hrep hook, fun l₁ x hl₁ hx hxold => ?_⟩
      obtain ⟨l₀, hl₀, hx₀, hxold₀⟩ := hnew x l₁ event' hl₁ hx hxold
      exact hstart l₀ x hl₀ hx₀ hxold₀
    · refine ⟨start, all, hpasses.addR_other hrep (fun h => heq (header_injective h)) hl hook,
        fun l₁ x hl₁ hx hxold => ?_⟩
      obtain ⟨l₀, hl₀, hx₀, hxold₀⟩ := hnew x l₁ event hl₁ hx hxold
      exact hstart l₀ x hl₀ hx₀ hxold₀
  · obtain ⟨l₀, hl₀, hx₀, hxold₀⟩ := hnew x l₁ .read hl₁ hx hxold
    exact h.passed hwrite l₀ x hl₀ hx₀ hxold₀

theorem next (h : Clearing links d since event curr true) :
    Clearing links d since event (links.next curr) false := by
  obtain ⟨start, all, hpasses, hstart⟩ := h.passes
  exact ⟨⟨start, all, hpasses.next, hstart⟩, h.passed⟩

theorem call (h : Clearing links d since event curr false) (hcurr : curr ≠ header event)
    (hactive : links.active curr = false) : Clearing links d since event curr true := by
  obtain ⟨start, all, hpasses, hstart⟩ := h.passes
  exact ⟨⟨start, all, hpasses.call hcurr hactive, hstart⟩, h.passed⟩

end Clearing

/-! ## All of it -/

theorem finish_eq (ha : ch.actions[i]? = some a) (hpending : a.waiter = .pending) :
    ch.finish i w = { ch with
      hooks := ch.hooks.remove a.node
      actions := ch.actions.modify i fun a => { a with waiter := w }
      pauses := ch.pauses + 1
      stack := .user :: ch.stack } := by
  unfold FileDescr.finish removeHook
  simp only [ha, stopEvents, Option.map_some, hpending]
  rfl

theorem finish_canceled (ha : ch.actions[i]? = some a) (hcanceled : a.waiter = .canceled) :
    ch.finish i w = { ch with hooks := ch.hooks.remove a.node, pauses := ch.pauses + 1 } := by
  unfold FileDescr.finish removeHook
  simp only [ha, stopEvents, Option.map_some, hcanceled]

theorem finish_push (ch : FileDescr) (frame : Frame) (i : ℕ) (w : Waiter) :
    ((ch.push frame).finish i w).hooks = (ch.finish i w).hooks ∧
      ((ch.push frame).finish i w).actions = (ch.finish i w).actions ∧
      ((ch.push frame).finish i w).state = (ch.finish i w).state ∧
      (((ch.push frame).finish i w).stack = frame :: ch.stack ∨
        ((ch.push frame).finish i w).stack = .user :: frame :: ch.stack) := by
  unfold FileDescr.finish removeHook
  cases ha : ch.actions[i]? with
  | none => simp [FileDescr.push, stopEvents, ha]
  | some a =>
    cases hw : a.waiter with
    | pending => simp [FileDescr.push, stopEvents, setWaiter, ha, hw]
    | _ => simp [FileDescr.push, stopEvents, ha, hw]

/-- What each step keeps. -/
structure Inv (filter : ExceptionFilter) (ch : FileDescr) (d : Deques Hook) : Prop where
  linked : Linked ch.hooks d ch.actions none
  aborted : ∀ e, ch.state = .aborted e → plain filter e = true
  clearing : ∀ since event curr called, .clear since event curr called ∈ ch.stack →
    ch.state ≠ .opened ∧ since ≤ ch.actions.length ∧ Clearing ch.hooks d since event curr called

namespace Inv

/-- The fields that the invariant is about, and a stack whose new calls of `clear_events` are as
they should be. -/
theorem of_stack (h : Inv filter ch d) (hhooks : ch'.hooks = ch.hooks)
    (hactions : ch'.actions = ch.actions) (hstate : ch'.state = ch.state)
    (hstack : ∀ since event curr called, .clear since event curr called ∈ ch'.stack →
      .clear since event curr called ∈ ch.stack ∨ ch.state ≠ .opened ∧ since ≤ ch.actions.length ∧
        Clearing ch.hooks d since event curr called) : Inv filter ch' d := by
  refine ⟨?_, ?_, fun since event curr called hmem => ?_⟩
  · rw [hhooks, hactions]
    exact h.linked
  · rw [hstate]
    exact h.aborted
  · rw [hstate, hhooks, hactions]
    rcases hstack since event curr called hmem with hmem | hclearing
    · exact h.clearing since event curr called hmem
    · exact hclearing

theorem congr (h : Inv filter ch d) (hhooks : ch'.hooks = ch.hooks)
    (hactions : ch'.actions = ch.actions) (hstate : ch'.state = ch.state)
    (hstack : ch'.stack ⊆ ch.stack) : Inv filter ch' d :=
  h.of_stack hhooks hactions hstate fun _ _ _ _ hmem => .inl (hstack hmem)

theorem push (h : Inv filter ch d) (hframe : ∀ since event curr called,
      frame = .clear since event curr called → ch.state ≠ .opened ∧ since ≤ ch.actions.length ∧
        Clearing ch.hooks d since event curr called) : Inv filter (ch.push frame) d := by
  refine h.of_stack rfl rfl rfl fun since event curr called hmem => ?_
  rcases List.mem_cons.mp hmem with heq | hmem
  · exact .inr (hframe since event curr called heq.symm)
  · exact .inl hmem

theorem rest (h : Inv filter ch d) {stack : List Frame} (hstack : ch.stack = frame :: stack) :
    Inv filter { ch with stack := stack } d :=
  h.congr rfl rfl rfl fun _ hmem => hstack ▸ List.mem_cons_of_mem _ hmem

theorem finish (h : Inv filter ch d) (ha : Hooked ch.hooks d ch.actions i a) (hw : w ≠ .pending) :
    Inv filter (ch.finish i w) (d.remove a.node) := by
  obtain ⟨l, hl, hmem⟩ := ha.list
  have hremoved := h.linked.removed ha
  have hclear : ∀ since event curr called, .clear since event curr called ∈ ch.stack →
      ch.state ≠ .opened ∧ since ≤ ch.actions.length ∧
        Clearing (ch.hooks.remove a.node) (d.remove a.node) since event curr called := by
    intro since event curr called hframe
    obtain ⟨hstate, hsince, hclearing⟩ := h.clearing since event curr called hframe
    exact ⟨hstate, hsince, hclearing.removed h.linked.represents hl hmem⟩
  rcases waiter_of_live ha.live with hpending | hcanceled
  · rw [finish_eq ha.action hpending]
    refine ⟨hremoved.settled _ (fun _ => rfl) fun _ _ => hw, h.aborted,
      fun since event curr called hframe => ?_⟩
    obtain ⟨hstate, hsince, hclearing⟩ := hclear since event curr called (by simpa using hframe)
    refine ⟨hstate, ?_, hclearing⟩
    change since ≤ (ch.actions.modify i _).length
    rwa [List.length_modify]
  · rw [finish_canceled ha.action hcanceled]
    exact ⟨hremoved.forget ha.action (by rw [hcanceled]; exact nofun), h.aborted, hclear⟩

theorem register (h : Inv filter ch d) (event : IoEvent) : Inv filter (ch.register event) d := by
  unfold FileDescr.register
  split
  · exact h.congr rfl rfl rfl fun _ => id
  · exact h

theorem requeue (h : Inv filter ch d) (ha : Hooked ch.hooks d ch.actions i a)
    (hopened : ch.state = .opened) (event : IoEvent) :
    ∃ d', Inv filter ((((ch.removeHook i).stopEvents).addHook i event).register event) d' := by
  have hremoved := h.linked.removed ha
  obtain ⟨l, hl⟩ := hremoved.lists event
  have heq : ((ch.removeHook i).stopEvents).addHook i event = { ch with
      hooks := (ch.hooks.remove a.node).addR ⟨i, event⟩ (header event)
      actions := ch.actions.modify i fun b =>
        { b with node := (ch.hooks.remove a.node).length, event := event }
      pauses := ch.pauses + 1 } := by
    unfold removeHook
    rw [ha.action]
    rfl
  obtain ⟨d', hinv⟩ : ∃ d', Inv filter (((ch.removeHook i).stopEvents).addHook i event) d' := by
    rw [heq]
    refine ⟨_, hremoved.rehooked ha.action ha.live hl, h.aborted,
      fun since event curr called hframe => ?_⟩
    exact absurd hopened (h.clearing since event curr called hframe).1
  exact ⟨d', hinv.register event⟩

theorem registerAction (h : Inv filter ch d) (event : IoEvent) :
    ∃ d', Inv filter (ch.registerAction event) d' := by
  have hnew := h.linked.registered event
  obtain ⟨l, hl⟩ := hnew.lists event
  have hget : (ch.actions ++ [⟨0, .pending, event, false⟩])[ch.actions.length]? =
      some ⟨0, .pending, event, false⟩ := List.getElem?_concat_length
  obtain ⟨d', hinv⟩ : ∃ d', Inv filter (FileDescr.addHook
      { ch with actions := ch.actions ++ [⟨0, .pending, event, false⟩] } ch.actions.length event)
      d' := by
    refine ⟨_, hnew.rehooked hget rfl hl, h.aborted, fun since event' curr called hframe => ?_⟩
    obtain ⟨hstate, hsince, hclearing⟩ := h.clearing since event' curr called hframe
    refine ⟨hstate, ?_, hclearing.added h.linked.represents hl hsince⟩
    change since ≤ (List.modify _ _ _).length
    rw [List.length_modify, List.length_append]
    exact Nat.le_add_right_of_le hsince
  exact ⟨d', hinv.register event⟩

theorem outcome_error (h : Inv filter ch d) {e : Exn} (he : checkDescriptor ch.state = .error e)
    (event : IoEvent) : outcome filter event (.error e) = .exn e := by
  cases hstate : ch.state with
  | opened =>
    rw [hstate] at he
    cases he
  | closed =>
    rw [hstate] at he
    cases he
    cases filter <;> rfl
  | aborted e' =>
    rw [hstate] at he
    cases he
    exact outcome_of_plain (h.aborted e hstate) event

theorem retrySyscall (h : Inv filter ch d) (hook : Hook)
    (ha : Hooked ch.hooks d ch.actions hook.action a) (result : Except Exn Unit) :
    ∃ d', Inv filter (ch.retrySyscall filter hook result) d' := by
  cases hcheck : checkDescriptor ch.state with
  | error e =>
    rw [retrySyscall_error rfl hcheck, h.outcome_error hcheck]
    exact ⟨_, h.finish (w := .rejected e) ha nofun⟩
  | ok u =>
    have hopened : ch.state = .opened := by
      cases hstate : ch.state <;> rw [hstate] at hcheck <;> first | rfl | cases hcheck
    have hexecute : Inv filter ch.execute d := h.congr rfl rfl rfl fun _ => id
    unfold FileDescr.retrySyscall
    rw [hcheck]
    simp only
    cases outcome filter hook.event result with
    | success => exact ⟨_, hexecute.finish (w := .fulfilled) ha nofun⟩
    | exn e => exact ⟨_, hexecute.finish (w := .rejected e) ha nofun⟩
    | requeued event =>
      unfold retry
      simp only
      split
      · exact hexecute.requeue ha hopened event
      · exact ⟨d, hexecute⟩
    | escapes => exact ⟨d, hexecute.push nofun⟩

theorem stopEvent (h : Inv filter ch d) (event : IoEvent) : Inv filter (ch.stopEvent event) d := by
  unfold FileDescr.stopEvent
  split
  · exact h.congr rfl rfl rfl fun _ => id
  · exact h

theorem stopUnused (h : Inv filter ch d) (event : IoEvent) :
    Inv filter (ch.stopUnused event) d := by
  unfold FileDescr.stopUnused
  split
  · exact h.stopEvent event
  · exact h

theorem syscall (h : Inv filter ch d) (event : IoEvent) (attempt : Option (Except Exn Unit)) :
    ∃ d', Inv filter (ch.syscall filter event attempt) d' := by
  unfold FileDescr.syscall
  cases attempt with
  | none => exact h.registerAction event
  | some result =>
    have hexecute : Inv filter ch.execute d := h.congr rfl rfl rfl fun _ => id
    simp only
    cases outcome filter event result with
    | success => exact ⟨d, hexecute⟩
    | exn e => exact ⟨d, hexecute⟩
    | requeued event => exact hexecute.registerAction event
    | escapes => exact ⟨d, hexecute.push nofun⟩

theorem reject (h : Inv filter ch d) (i : ℕ) : Inv filter (ch.reject i) d := by
  unfold FileDescr.reject
  split
  · rename_i hpending
    obtain ⟨a, ha, -⟩ := Option.map_eq_some_iff.mp hpending
    refine ⟨h.linked.reject ha, h.aborted, fun since event curr called hframe => ?_⟩
    obtain ⟨hstate, hsince, hclearing⟩ := h.clearing since event curr called hframe
    refine ⟨hstate, ?_, hclearing⟩
    change since ≤ (ch.actions.modify i _).length
    rwa [List.length_modify]
  · exact h

theorem cancel (h : Inv filter ch d) (is : List ℕ) : Inv filter (ch.cancel is) d := by
  have hrejected : ∀ ch : FileDescr, Inv filter ch d →
    Inv filter (is.foldl FileDescr.reject ch) d := by
    induction is with
    | nil => exact fun _ => id
    | cons i is ih => exact fun ch h => ih _ (h.reject i)
  exact (hrejected ch h).push nofun

theorem cancelCallback (h : Inv filter ch d) (ha : ch.actions[i]? = some a)
    (hcanceled : a.waiter = .canceled) : ∃ d', Inv filter (ch.cancelCallback i) d' := by
  have heq : ch.cancelCallback i = { ch with
      hooks := ch.hooks.remove a.node
      actions := ch.actions.modify i fun a => { a with canceling := false }
      pauses := ch.pauses + 1 } := by
    unfold FileDescr.cancelCallback removeHook
    rw [ha]
    rfl
  have hsettles : ∀ b, ch.actions[i]? = some b → b.waiter ≠ .pending := by
    intro b hb
    rw [← Option.some.inj (ha.symm.trans hb), hcanceled]
    exact nofun
  have hsince : ∀ {since : ℕ}, since ≤ ch.actions.length →
      since ≤ (ch.actions.modify i fun a => { a with canceling := false }).length := by
    intro since hle
    rwa [List.length_modify]
  rw [heq]
  by_cases hactive : ch.hooks.active a.node = true
  · have hhooked := h.linked.hooked_of_active ha hactive
    obtain ⟨l, hl, hmem⟩ := hhooked.list
    refine ⟨d.remove a.node, (h.linked.removed hhooked).settled _ (fun _ => rfl) hsettles,
      h.aborted,
      fun since event curr called hframe => ?_⟩
    obtain ⟨hstate, hle, hclearing⟩ := h.clearing since event curr called hframe
    exact ⟨hstate, hsince hle, hclearing.removed h.linked.represents hl hmem⟩
  · have hsame : ch.hooks.remove a.node = ch.hooks := by rw [Sequences.remove, if_neg hactive]
    have hno : ∀ b, ¬Hooked ch.hooks d ch.actions i b := by
      intro b hb
      obtain rfl := Option.some.inj (hb.action.symm.trans ha)
      obtain ⟨l, hl, hmem⟩ := hb.list
      exact hactive ((h.linked.represents.active b.node).mpr ⟨_, l, hl, hmem⟩)
    rw [hsame]
    refine ⟨d, (h.linked.lose hno).settled _ (fun _ => rfl) hsettles, h.aborted,
      fun since event curr called hframe => ?_⟩
    obtain ⟨hstate, hle, hclearing⟩ := h.clearing since event curr called hframe
    exact ⟨hstate, hsince hle, hclearing⟩

theorem clearEvents (h : Inv filter ch d) {state : State} (hstate : state ≠ .opened)
    (hplain : ∀ e, state = .aborted e → plain filter e = true) :
    Inv filter { ch with state := state }.clearEvents d := by
  have hinv : Inv filter { ch with state := state } d :=
    ⟨h.linked, hplain, fun since event curr called hmem =>
      ⟨hstate, (h.clearing since event curr called hmem).2⟩⟩
  obtain ⟨l, hl⟩ := h.linked.lists .read
  refine hinv.push fun since event curr called hframe => ⟨hstate, ?_⟩
  cases hframe
  refine ⟨Nat.le_refl _, ⟨l, l, Sequences.Passes.starts h.linked.represents hl, ?_⟩, nofun⟩
  intro l' x hl' hx _
  rwa [Option.some.inj (hl.symm.trans hl')]

theorem iterate (h : Inv filter ch d) (event : IoEvent) (curr : ℕ) (called : Bool)
    (result : Except Exn Unit) :
    ∃ d', Inv filter (ch.iterate filter event curr called result) d' := by
  have hpush : ∀ curr called, Inv filter (ch.push (.iterate event curr called)) d :=
    fun curr called => h.push nofun
  unfold FileDescr.iterate
  split
  · exact ⟨d, hpush _ _⟩
  split
  · exact ⟨d, h⟩
  split
  · rename_i hactive
    obtain ⟨i, a, ha, rfl⟩ := h.linked.of_active hactive
    rw [ha.data]
    exact (hpush a.node true).retrySyscall ⟨i, a.event⟩ ha result
  · exact ⟨d, hpush _ _⟩

theorem not_old (h : Inv filter ch d) (hclearing : Clearing ch.hooks d since event
    (header event) false)
    (hl : d.lists (header event) = some l) (hx : x ∈ l) : ¬ Old ch.hooks since x := by
  intro hold
  obtain ⟨start, all, hpasses, hstart⟩ := hclearing.passes
  have hactive : ch.hooks.active x = true := (h.linked.represents.active x).mpr ⟨_, l, hl, hx⟩
  rw [hpasses.finished x (hstart l x hl hx hold)] at hactive
  cases hactive

theorem turn_over (h : Inv filter ch d)
    (hclearing : Clearing ch.hooks d since .read (header .read) false) :
    Clearing ch.hooks d since .write (ch.hooks.next (header .write)) false := by
  obtain ⟨l, hl⟩ := h.linked.lists .write
  refine ⟨⟨l, l, Sequences.Passes.starts h.linked.represents hl, fun l' x hl' hx _ => ?_⟩, ?_⟩
  · rwa [Option.some.inj (hl.symm.trans hl')]
  · exact fun _ l x hl hx => h.not_old hclearing hl hx

theorem clear_active (h : Inv filter ch d) {e : Exn} (he : checkDescriptor ch.state = .error e)
    (ha : Hooked ch.hooks d ch.actions i a) (frame : Frame) (result : Except Exn Unit) :
    ({ ch with hooks := ch.hooks.remove a.node }.push frame).retrySyscall filter ⟨i,
    a.event⟩ result =
      (ch.push frame).finish i (.rejected e) := by
  have hstate : ({ ch with hooks := ch.hooks.remove a.node }.push frame).state = ch.state := rfl
  rw [retrySyscall_error hstate he, h.outcome_error he]
  unfold retry FileDescr.finish removeHook
  simp only [FileDescr.push, ha.action, Sequences.remove_remove]

theorem clear_hook (h : Inv filter ch d) (hstate : ch.state ≠ .opened)
    (hsince : since ≤ ch.actions.length) (ha : Hooked ch.hooks d ch.actions i a)
    (hclearing : Clearing ch.hooks d since event a.node false) (hcurr : a.node ≠ header event)
    (e : Exn) :
    Inv filter ((ch.push (.clear since event a.node true)).finish i (.rejected e))
      (d.remove a.node) := by
  obtain ⟨l, hl, hmem⟩ := ha.list
  have hfinish := h.finish (w := .rejected e) ha nofun
  obtain ⟨hhooks, hactions, hstate', hstack⟩ :=
    finish_push ch (.clear since event a.node true) i (.rejected e)
  have hremoved : (ch.finish i (.rejected e)).hooks = ch.hooks.remove a.node ∧
      (ch.finish i (.rejected e)).state = ch.state ∧
      (ch.finish i (.rejected e)).actions.length = ch.actions.length ∧
      ch.stack ⊆ (ch.finish i (.rejected e)).stack := by
    rcases waiter_of_live ha.live with hpending | hcanceled
    · rw [finish_eq ha.action hpending]
      exact ⟨rfl, rfl, List.length_modify .., List.subset_cons_self _ _⟩
    · rw [finish_canceled ha.action hcanceled]
      exact ⟨rfl, rfl, rfl, List.Subset.refl _⟩
  refine hfinish.of_stack hhooks hactions hstate' fun since' event₁ curr' called' hframe => ?_
  have hframe' : Frame.clear since' event₁ curr' called' = .clear since event a.node true ∨
      .clear since' event₁ curr' called' ∈ ch.stack := by
    rcases hstack with hstack | hstack <;> rw [hstack] at hframe <;> simpa using hframe
  rcases hframe' with heq | hmem'
  · cases heq
    obtain ⟨hhooks', hstate'', hlength, -⟩ := hremoved
    refine .inr ⟨hstate'' ▸ hstate, hlength ▸ hsince, ?_⟩
    rw [hhooks']
    refine (hclearing.removed h.linked.represents hl hmem).call hcurr ?_
    rw [Sequences.active_remove]
    simp
  · exact .inl (hremoved.2.2.2 hmem')

theorem clear (h : Inv filter ch d) (hstate : ch.state ≠ .opened)
    (hsince : since ≤ ch.actions.length) (hclearing : Clearing ch.hooks d since event curr called)
    (result : Except Exn Unit) :
    ∃ d', Inv filter (ch.clear filter since event curr called result) d' := by
  have hpush : ∀ curr called, Clearing ch.hooks d since event curr called →
      Inv filter (ch.push (.clear since event curr called)) d := by
    intro curr called hclearing
    refine h.push fun since' event' curr' called' hframe => ?_
    cases hframe
    exact ⟨hstate, hsince, hclearing⟩
  unfold FileDescr.clear
  cases called with
  | true => exact ⟨d, hpush _ _ hclearing.next⟩
  | false =>
    rw [if_neg (by simp)]
    split
    · rename_i hcurr
      subst hcurr
      cases event with
      | read =>
        refine ⟨d, h.push fun since' event' curr' called' hframe => ?_⟩
        cases hframe
        exact ⟨hstate, hsince, h.turn_over hclearing⟩
      | write => exact ⟨d, (h.stopEvent .read).stopEvent .write⟩
    · rename_i hcurr
      split
      · rename_i hactive
        obtain ⟨i, a, ha, rfl⟩ := h.linked.of_active hactive
        rw [ha.data]
        obtain ⟨e, he⟩ := check_error hstate
        simp only [h.clear_active he ha]
        exact ⟨_, h.clear_hook hstate hsince ha hclearing hcurr e⟩
      · rename_i hactive
        have hinactive : ch.hooks.active curr = false := by simpa using hactive
        exact ⟨d, hpush _ _ (hclearing.call hcurr hinactive)⟩

theorem step {op : Op} (h : Inv filter ch d) (hstep : step filter ch op = some ch')
    (hop : ∀ e, op = .abort e → ch.state ≠ .closed → plain filter e = true) :
    ∃ d', Inv filter ch' d' := by
  cases step_cases hstep with
  | refused => exact ⟨d, h⟩
  | waits => exact ⟨d, h.congr rfl rfl rfl fun _ => id⟩
  | syscall event attempt => exact h.syscall event attempt
  | resume i event attempt =>
    have hwaiting : Inv filter { ch with waiting := ch.waiting.eraseIdx i } d :=
      h.congr rfl rfl rfl fun _ => id
    exact hwaiting.syscall event attempt
  | registerAction event => exact h.registerAction event
  | cancel is => exact ⟨d, h.cancel is⟩
  | cancelCallback i a _ ha hcanceled => exact h.cancelCallback ha hcanceled
  | close =>
    unfold close
    split
    · exact ⟨d, h⟩
    · exact ⟨d, h.clearEvents nofun nofun⟩
  | abort e =>
    unfold abort
    split
    · exact ⟨d, h⟩
    · rename_i hclosed
      refine ⟨d, h.clearEvents nofun fun e' he' => ?_⟩
      rw [← State.aborted.inj he']
      exact hop e rfl hclosed
  | ready => exact ⟨d, h.push nofun⟩
  | unpause =>
    have hpauses : Inv filter { ch with pauses := ch.pauses - 1 } d :=
      h.congr rfl rfl rfl fun _ => id
    exact ⟨d, (hpauses.stopUnused .read).stopUnused .write⟩
  | iterate event curr called stack result hstack =>
    exact (h.rest hstack).iterate event curr called result
  | clear since event curr called stack result hstack =>
    obtain ⟨hstate, hsince, hclearing⟩ := h.clearing since event curr called (by simp [hstack])
    exact (h.rest hstack).clear hstate hsince hclearing result
  | leave stack hstack => exact ⟨d, h.rest hstack⟩
  | escape n => exact ⟨d, h.congr rfl rfl rfl (List.drop_subset n ch.stack)⟩

theorem cleared (h : Inv filter ch d)
    (hclearing : Clearing ch.hooks d since .write (header .write) false) (hi : i < since)
    (ha : ch.actions[i]? = some a) : a.waiter ≠ .pending := by
  intro hpending
  obtain ⟨-, -, hdata, l, hl, hmem⟩ := h.linked.pending i a ha hpending nofun
  have hold : Old ch.hooks since a.node := ⟨_, hdata, hi⟩
  cases hevent : a.event with
  | read =>
    rw [hevent] at hl
    exact hclearing.passed rfl l a.node hl hmem hold
  | write =>
    rw [hevent] at hl
    exact h.not_old hclearing hl hmem hold

end Inv

theorem inv_mkCh (filter : ExceptionFilter) : ∃ d, Inv filter mkCh d := by
  have hrep := (represents_initial (α := Hook)).create.create
  refine ⟨_, ⟨hrep, fun event => ?_, fun seq l hl => ?_, fun event l x hl hx => ?_,
    by simp [mkCh], by simp [mkCh]⟩, by simp [mkCh], by simp [mkCh]⟩
  · cases event with
    | read => exact ⟨[], rfl⟩
    | write => exact ⟨[], rfl⟩
  · by_cases hwrite : seq = 1
    · exact ⟨.write, hwrite⟩
    · by_cases hread : seq = 0
      · exact ⟨.read, hread⟩
      · change Function.update (Function.update _ 0 _) 1 _ seq = _ at hl
        rw [Function.update_of_ne hwrite, Function.update_of_ne hread] at hl
        cases hl
  · cases event with
    | read =>
      obtain rfl : [] = l := Option.some.inj hl
      cases hx
    | write =>
      obtain rfl : [] = l := Option.some.inj hl
      cases hx

end Lwt.Descriptor
