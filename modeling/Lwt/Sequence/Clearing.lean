import Lwt.Library.Transition
import Lwt.Sequence.Iter

/-!
# Sequences that have been cleared

`clear` assigns the links of the header only: the nodes stay active, with the links that they had.
A sequence that is transferred to itself loses its nodes in the same way.  A `remove` of such a node
unlinks it from its neighbours of then, which may be the header of a sequence that has other nodes
by now.  It does no harm as long as `Unlinks` holds.

With the nodes that have been left behind marked as removed (`retire`), the links are those of a
sequence that nothing but the other operations has changed, and represent the lists of the same
calls on double-ended queues (`Held`).  So the iterations visit what they should.
-/

namespace Lwt

open Function Transition Sequences

variable {α σ : Type} {s s' : Sequences α} {d : Deques α} {seq node x : ℕ} {l nodes : List ℕ}

/-! ## Calls that leave nodes behind -/

/-- The calls; a transfer is one of `SequenceOp` when its two sequences differ. -/
inductive ClearingOp (α : Type)
  | call (o : SequenceOp α)
  | clear (seq : ℕ)
  | transferLSelf (seq : ℕ)
  | transferRSelf (seq : ℕ)

/-- All headers and nodes, the double-ended queues that the same calls give, and the nodes that have
been left behind. -/
structure Clearing (α : Type) where
  links : Sequences α
  deques : Deques α
  cleared : List ℕ

namespace Clearing

def initial : Clearing α := ⟨[], Deques.initial, []⟩

/-- The sequence has no nodes any more. -/
def empty (c : Clearing α) (seq : ℕ) (links : Sequences α) : Clearing α :=
  ⟨links, { c.deques with lists := update c.deques.lists seq (some []) },
    (c.deques.lists seq).getD [] ++ c.cleared⟩

/-- A call; the links decide which calls can be made. -/
def step (c : Clearing α) : ClearingOp α → Option (Clearing α)
  | .call o => (c.links.step o).map fun r =>
    { c with links := r.1, deques := ((c.deques.step o).map Prod.fst).getD c.deques }
  | .clear seq =>
    if c.links.isSeq seq then some (c.empty seq (c.links.clear seq)) else none
  | .transferLSelf seq =>
    if c.links.isSeq seq then some (c.empty seq (c.links.transferL seq seq)) else none
  | .transferRSelf seq =>
    if c.links.isSeq seq then some (c.empty seq (c.links.transferR seq seq)) else none

/-- The condition on a call: a node that has been left behind is removed only when its neighbours
link to it or are linked to each other. -/
def harmless (c : Clearing α) : ClearingOp α → Bool
  | .call (.remove node) =>
    decide (node ∉ c.cleared) || !c.links.active node || decide (c.links.Unlinks node)
  | _ => true

end Clearing

namespace Sequences

/-! ## Nodes marked as removed -/

/-- The nodes are marked as removed. -/
def retire (s : Sequences α) (nodes : List ℕ) : Sequences α :=
  s.mapIdx fun i link => { link with active := link.active && decide (i ∉ nodes) }

section Retire

variable (s) (nodes) (i j : ℕ)

theorem getElem?_retire : (s.retire nodes)[i]? =
    s[i]?.map fun link => { link with active := link.active && decide (i ∉ nodes) } :=
  List.getElem?_mapIdx

@[simp] theorem length_retire : (s.retire nodes).length = s.length := by simp [retire]

@[simp] theorem next_retire : (s.retire nodes).next i = s.next i := by
  rw [next, next, getElem?_retire]
  cases s[i]? <;> rfl

@[simp] theorem prev_retire : (s.retire nodes).prev i = s.prev i := by
  rw [prev, prev, getElem?_retire]
  cases s[i]? <;> rfl

@[simp] theorem data_retire : (s.retire nodes).data i = s.data i := by
  rw [data, data, getElem?_retire]
  cases s[i]? <;> rfl

@[simp] theorem active_retire :
    (s.retire nodes).active i = (s.active i && decide (i ∉ nodes)) := by
  rw [active, active, getElem?_retire]
  cases s[i]? <;> simp

/-- An assignment to an entry does not depend on which nodes are marked as removed. -/
theorem retire_modify (f : Link α → Link α)
    (hf : ∀ link b, { f link with active := (f link).active && b } =
      f { link with active := link.active && b }) :
    retire (s.modify i f) nodes = (s.retire nodes).modify i f := by
  refine List.ext_getElem? fun x => ?_
  rw [getElem?_retire, List.getElem?_modify, List.getElem?_modify, getElem?_retire]
  cases s[x]? with
  | none => rfl
  | some link =>
    by_cases hx : i = x
    · simp [hx, hf]
    · simp [hx]

theorem retire_setPrev : (s.setPrev i j).retire nodes = (s.retire nodes).setPrev i j :=
  retire_modify s nodes i _ fun _ _ => rfl

theorem retire_setNext : (s.setNext i j).retire nodes = (s.retire nodes).setNext i j :=
  retire_modify s nodes i _ fun _ _ => rfl

theorem retire_setData (a : α) : (s.setData i a).retire nodes = (s.retire nodes).setData i a :=
  retire_modify s nodes i _ fun _ _ => rfl

theorem retire_transferR : (s.transferR i j).retire nodes = (s.retire nodes).transferR i j := by
  simp only [transferR, next_retire, prev_retire, ← retire_setPrev, ← retire_setNext]

theorem retire_transferL : (s.transferL i j).retire nodes = (s.retire nodes).transferL i j := by
  simp only [transferL, next_retire, prev_retire, ← retire_setPrev, ← retire_setNext]

end Retire

theorem retire_append (hnodes : s.length ∉ nodes) (link : Link α) :
    retire (s ++ [link]) nodes = s.retire nodes ++ [link] := by
  simp [retire, List.mapIdx_append, hnodes]

theorem retire_create (hnodes : s.length ∉ nodes) :
    s.create.retire nodes = (s.retire nodes).create := by
  rw [create, retire_append hnodes, create, length_retire]

theorem retire_addL (hnodes : s.length ∉ nodes) (a : α) :
    (s.addL a seq).retire nodes = (s.retire nodes).addL a seq := by
  simp only [addL, length_retire, next_retire, ← retire_append hnodes, ← retire_setPrev,
    ← retire_setNext]

theorem retire_addR (hnodes : s.length ∉ nodes) (a : α) :
    (s.addR a seq).retire nodes = (s.retire nodes).addR a seq := by
  simp only [addR, length_retire, prev_retire, ← retire_append hnodes, ← retire_setPrev,
    ← retire_setNext]

theorem retire_remove (hnode : node ∉ nodes) :
    (s.remove node).retire nodes = (s.retire nodes).remove node := by
  have hdeactivate : retire (s.modify node fun link => { link with active := false }) nodes =
      (s.retire nodes).modify node fun link => { link with active := false } :=
    retire_modify s nodes node _ fun _ _ => rfl
  unfold remove
  rw [active_retire, decide_eq_true hnode, Bool.and_true]
  split
  · simp only [← hdeactivate, next_retire, prev_retire, ← retire_setPrev, ← retire_setNext]
  · rfl

@[simp] theorem isSeq_retire (s : Sequences α) (nodes : List ℕ) (seq : ℕ) :
    (s.retire nodes).isSeq seq = s.isSeq seq := by
  simp [isSeq]

@[simp] theorem isNode_retire (s : Sequences α) (nodes : List ℕ) (node : ℕ) :
    (s.retire nodes).isNode node = s.isNode node := by
  simp [isNode]

@[simp] theorem isEmpty_retire (s : Sequences α) (nodes : List ℕ) (seq : ℕ) :
    (s.retire nodes).isEmpty seq = s.isEmpty seq := by
  simp [isEmpty]

theorem retire_takeOptL (hfirst : s.isEmpty seq = false → s.next seq ∉ nodes) :
    (s.retire nodes).takeOptL seq = ((s.takeOptL seq).1, (s.takeOptL seq).2.retire nodes) := by
  unfold takeOptL
  rw [isEmpty_retire, next_retire, data_retire]
  split
  · rfl
  · rename_i hempty
    rw [retire_remove (hfirst (Bool.eq_false_iff.mpr hempty))]

theorem retire_takeOptR (hlast : s.isEmpty seq = false → s.prev seq ∉ nodes) :
    (s.retire nodes).takeOptR seq = ((s.takeOptR seq).1, (s.takeOptR seq).2.retire nodes) := by
  unfold takeOptR
  rw [isEmpty_retire, prev_retire, data_retire]
  split
  · rfl
  · rename_i hempty
    rw [retire_remove (hlast (Bool.eq_false_iff.mpr hempty))]

theorem retire_takeL (hfirst : s.isEmpty seq = false → s.next seq ∉ nodes) :
    (s.retire nodes).takeL seq = (s.takeL seq).map fun r => (r.1, r.2.retire nodes) := by
  unfold takeL
  rw [isEmpty_retire, next_retire, data_retire]
  split
  · rfl
  · rename_i hempty
    rw [← retire_remove (hfirst (Bool.eq_false_iff.mpr hempty)), Option.map_map]
    rfl

theorem retire_takeR (hlast : s.isEmpty seq = false → s.prev seq ∉ nodes) :
    (s.retire nodes).takeR seq = (s.takeR seq).map fun r => (r.1, r.2.retire nodes) := by
  unfold takeR
  rw [isEmpty_retire, prev_retire, data_retire]
  split
  · rfl
  · rename_i hempty
    rw [← retire_remove (hlast (Bool.eq_false_iff.mpr hempty)), Option.map_map]
    rfl

theorem step_retire {o : SequenceOp α} (hlength : s.length ∉ nodes)
    (hends : ∀ seq, s.isSeq seq = true → s.isEmpty seq = false →
      s.next seq ∉ nodes ∧ s.prev seq ∉ nodes)
    (hnode : ∀ node, o = .remove node → node ∉ nodes) :
    (s.retire nodes).step o = (s.step o).map fun r => (r.1.retire nodes, r.2) := by
  cases o with
  | create => simp only [step, retire_create hlength, length_retire, Option.map_some]
  | addL a seq =>
    simp only [step, isSeq_retire, length_retire, ← retire_addL hlength]
    split <;> rfl
  | addR a seq =>
    simp only [step, isSeq_retire, length_retire, ← retire_addR hlength]
    split <;> rfl
  | takeL seq =>
    simp only [step, isSeq_retire]
    split
    · rename_i hseq
      rw [retire_takeL fun hempty => (hends seq hseq hempty).1]
      cases s.takeL seq <;> rfl
    · rfl
  | takeR seq =>
    simp only [step, isSeq_retire]
    split
    · rename_i hseq
      rw [retire_takeR fun hempty => (hends seq hseq hempty).2]
      cases s.takeR seq <;> rfl
    · rfl
  | takeOptL seq =>
    simp only [step, isSeq_retire]
    split
    · rename_i hseq
      rw [retire_takeOptL fun hempty => (hends seq hseq hempty).1]
      rfl
    · rfl
  | takeOptR seq =>
    simp only [step, isSeq_retire]
    split
    · rename_i hseq
      rw [retire_takeOptR fun hempty => (hends seq hseq hempty).2]
      rfl
    · rfl
  | transferL s1 s2 =>
    simp only [step, isSeq_retire, ← retire_transferL]
    split <;> rfl
  | transferR s1 s2 =>
    simp only [step, isSeq_retire, ← retire_transferR]
    split <;> rfl
  | remove node =>
    simp only [step, isNode_retire, ← retire_remove (hnode node rfl)]
    split <;> rfl
  | set node a =>
    simp only [step, isNode_retire, ← retire_setData]
    split <;> rfl

theorem ring_retire : (s.retire nodes).Ring seq l ↔ s.Ring seq l :=
  ⟨fun h => h.congr (length_retire s nodes).le (fun x _ => (next_retire s nodes x).symm)
      fun x _ => (prev_retire s nodes x).symm,
    fun h => h.congr (length_retire s nodes).ge (fun x _ => next_retire s nodes x)
      fun x _ => prev_retire s nodes x⟩

/-! ## Emptied sequences -/

/-- The sequence `seq` of the nodes `l` has lost them, and nothing else has changed. -/
structure Emptied (s : Sequences α) (seq : ℕ) (l : List ℕ) (s' : Sequences α) : Prop where
  length : s'.length = s.length
  next_self : s'.next seq = seq
  prev_self : s'.prev seq = seq
  next : ∀ x, x ∉ seq :: l → s'.next x = s.next x
  prev : ∀ x, x ∉ seq :: l → s'.prev x = s.prev x
  active : ∀ x, s'.active x = s.active x
  data : ∀ x, s'.data x = s.data x

theorem Ring.emptied_clear (h : s.Ring seq l) : s.Emptied seq l (s.clear seq) := by
  have hseq : seq < s.length := h.within seq (by simp)
  refine ⟨length_clear s seq, next_setNext_self (by simpa using hseq) _, ?_, fun x hx => ?_,
    fun x hx => ?_, active_clear s seq, data_clear s seq⟩
  · rw [Sequences.clear, prev_setNext]
    exact prev_setPrev_self hseq _
  · rw [Sequences.clear, next_setNext_ne (List.ne_of_not_mem_cons hx), next_setPrev]
  · rw [Sequences.clear, prev_setNext, prev_setPrev_ne (List.ne_of_not_mem_cons hx)]

theorem Ring.emptied_transferR (h : s.Ring seq l) : s.Emptied seq l (s.transferR seq seq) := by
  have hseq : seq < s.length := h.within seq (by simp)
  have hfirst := (h.next (x := seq) (by simp)).2
  have hlast := (h.prev (x := seq) (by simp)).2
  -- The links of the header are what they were when they are read.
  have hnext : (s.setNext (s.prev seq) (s.next seq)).next seq = s.next seq := by
    by_cases heq : seq = s.prev seq
    · rw [← heq]
      exact next_setNext_self hseq _
    · exact next_setNext_ne heq _
  have hprev : ((s.setNext (s.prev seq) (s.next seq)).setPrev (s.next seq) (s.prev seq)).prev seq =
      s.prev seq := by
    by_cases heq : seq = s.next seq
    · rw [← heq]
      exact prev_setPrev_self (by simpa using hseq) _
    · rw [prev_setPrev_ne heq, prev_setNext]
  have hprev' : (((s.setNext (s.prev seq) (s.next seq)).setPrev (s.next seq) (s.prev seq)).setPrev
      seq (s.prev seq)).prev seq = s.prev seq := prev_setPrev_self (by simpa using hseq) _
  have htransfer : s.transferR seq seq =
      (((((s.setNext (s.prev seq) (s.next seq)).setPrev (s.next seq) (s.prev seq)).setPrev seq
        (s.prev seq)).setNext (s.prev seq) seq).setPrev seq seq).setNext seq seq := by
    simp only [Sequences.transferR, hnext, prev_setNext, hprev, hprev']
  refine ⟨length_transferR s seq seq, ?_, ?_, fun x hx => ?_, fun x hx => ?_,
    active_transferR s seq seq, data_transferR s seq seq⟩
  · rw [htransfer]
    exact next_setNext_self (by simpa using hseq) _
  · rw [htransfer, prev_setNext]
    exact prev_setPrev_self (by simpa using hseq) _
  · have hxseq : x ≠ seq := List.ne_of_not_mem_cons hx
    have hxlast : x ≠ s.prev seq := fun heq => hx (heq ▸ hlast)
    rw [htransfer, next_setNext_ne hxseq, next_setPrev, next_setNext_ne hxlast, next_setPrev,
      next_setPrev, next_setNext_ne hxlast]
  · have hxseq : x ≠ seq := List.ne_of_not_mem_cons hx
    have hxfirst : x ≠ s.next seq := fun heq => hx (heq ▸ hfirst)
    rw [htransfer, prev_setNext, prev_setPrev_ne hxseq, prev_setNext, prev_setPrev_ne hxseq,
      prev_setPrev_ne hxfirst, prev_setNext]

theorem Ring.emptied_transferL (h : s.Ring seq l) : s.Emptied seq l (s.transferL seq seq) := by
  have hmirror := h.mirror.emptied_transferR
  have hnot : ∀ x, x ∉ seq :: l → x ∉ seq :: l.reverse := fun x hx => by simpa using hx
  rw [transferL_eq]
  refine ⟨?_, ?_, ?_, fun x hx => ?_, fun x hx => ?_, fun x => ?_, fun x => ?_⟩
  · simp
  · simpa using hmirror.prev_self
  · simpa using hmirror.next_self
  · simpa using hmirror.prev x (hnot x hx)
  · simpa using hmirror.next x (hnot x hx)
  · simp
  · simp

end Sequences

/-! ## What the links represent -/

namespace Represents

/-- The node has been left behind, and is removed without harm. -/
theorem remove_left (h : Represents (s.retire nodes) d) (hnode : node ∈ nodes)
    (hdata : s.data node ≠ none) (hunlinks : s.active node = true → s.Unlinks node) :
    Represents ((s.remove node).retire nodes) (d.remove node) := by
  have hnotin : ∀ {seq l}, d.lists seq = some l → node ∉ l := by
    intro seq l hseq hmem
    have hactive := (h.active node).mpr ⟨seq, l, hseq, hmem⟩
    simp [hnode] at hactive
  have hlists : (d.remove node).lists = d.lists := by
    funext seq
    cases hseq : d.lists seq with
    | none => simp [Deques.remove, hseq]
    | some l => simp [Deques.remove, hseq, List.erase_of_not_mem (hnotin hseq)]
  refine ⟨?_, fun {seq l} hseq => ?_, fun seq => ?_, fun {seq l x} hseq hx => ?_,
    fun {seq seq' l l' x} hseq hseq' => ?_, fun x => ?_, fun x => ?_⟩
  · simpa [Sequences.length_remove, Deques.remove] using h.size
  · rw [hlists] at hseq
    have hring := Sequences.ring_retire.mp (h.ring hseq)
    refine Sequences.ring_retire.mpr (hring.remove_other (fun hmem => ?_) hunlinks)
    rcases List.mem_cons.mp hmem with rfl | hmem
    · have hnone := ((h.header node).mp ⟨l, hseq⟩).2
      rw [Sequences.data_retire] at hnone
      exact hdata hnone
    · exact hnotin hseq hmem
  · rw [hlists]
    simpa [Sequences.length_remove] using h.header seq
  · rw [hlists] at hseq
    simpa using h.node hseq hx
  · rw [hlists] at hseq hseq'
    exact h.disjoint hseq hseq'
  · rw [hlists, ← h.active x]
    simp only [Sequences.active_retire, Sequences.active_remove, Bool.and_eq_true, bne_iff_ne,
      decide_eq_true_eq]
    constructor
    · rintro ⟨⟨hactive, -⟩, hx⟩
      exact ⟨hactive, hx⟩
    · rintro ⟨hactive, hx⟩
      exact ⟨⟨hactive, fun heq => hx (heq ▸ hnode)⟩, hx⟩
  · simpa [Deques.remove] using h.value x

theorem emptied (h : Represents (s.retire nodes) d) (hseq : d.lists seq = some l)
    (hs : s.Emptied seq l s') : Represents (s'.retire (l ++ nodes))
      { d with lists := update d.lists seq (some []) } := by
  have hlists : ∀ {seq' l'}, update d.lists seq (some []) seq' = some l' →
      (seq' = seq ∧ l' = []) ∨ (seq' ≠ seq ∧ d.lists seq' = some l') := by
    intro seq' l' hseq'
    by_cases heq : seq' = seq
    · rw [heq, update_self] at hseq'
      exact .inl ⟨heq, (Option.some.inj hseq').symm⟩
    · rw [update_of_ne heq] at hseq'
      exact .inr ⟨heq, hseq'⟩
  refine ⟨?_, fun {seq' l'} hseq' => ?_, fun seq' => ?_, fun {seq' l' x} hseq' hx => ?_,
    fun {seq₁ seq₂ l₁ l₂ x} hseq₁ hseq₂ hx₁ hx₂ => ?_, fun x => ?_, fun x => ?_⟩
  · simpa [hs.length] using h.size
  -- the emptied header stands alone; no node of the others was among the cleared
  · refine Sequences.ring_retire.mpr ?_
    rcases hlists hseq' with ⟨rfl, rfl⟩ | ⟨hne, hseq'⟩
    · have hlt := (h.ring hseq).within seq' (by simp)
      exact Sequences.ring_nil (by simpa [hs.length] using hlt) hs.next_self hs.prev_self
    · have hapart := h.apart hne hseq' hseq
      exact (Sequences.ring_retire.mp (h.ring hseq')).congr hs.length.ge
        (fun x hx => hs.next x (hapart x hx)) fun x hx => hs.prev x (hapart x hx)
  · rw [Sequences.length_retire, Sequences.data_retire, hs.length, hs.data]
    have hheader := h.header seq'
    rw [Sequences.length_retire, Sequences.data_retire] at hheader
    rw [← hheader]
    by_cases heq : seq' = seq
    · subst heq
      simp [hseq]
    · simp [update_of_ne heq]
  · rcases hlists hseq' with ⟨-, rfl⟩ | ⟨-, hseq'⟩
    · simp at hx
    · simpa [hs.data] using h.node hseq' hx
  · rcases hlists hseq₁ with ⟨-, rfl⟩ | ⟨-, hseq₁⟩
    · simp at hx₁
    · rcases hlists hseq₂ with ⟨-, rfl⟩ | ⟨-, hseq₂⟩
      · simp at hx₂
      · exact h.disjoint hseq₁ hseq₂ hx₁ hx₂
  · have hactive := h.active x
    simp only [Sequences.active_retire, Bool.and_eq_true, decide_eq_true_eq, hs.active,
      List.mem_append, not_or] at hactive ⊢
    -- an active node that has not been cleared is in another sequence
    constructor
    · rintro ⟨hx, hxl, hxnodes⟩
      obtain ⟨seq', l', hseq', hx'⟩ := hactive.mp ⟨hx, hxnodes⟩
      have hne : seq' ≠ seq := by
        rintro rfl
        exact hxl (Option.some.inj (hseq'.symm.trans hseq) ▸ hx')
      exact ⟨seq', l', by rwa [update_of_ne hne], hx'⟩
    · rintro ⟨seq', l', hseq', hx'⟩
      rcases hlists hseq' with ⟨-, rfl⟩ | ⟨hne, hseq'⟩
      · simp at hx'
      · obtain ⟨hx, hxnodes⟩ := hactive.mpr ⟨seq', l', hseq', hx'⟩
        exact ⟨hx, fun hxl => hne (h.disjoint hseq' hseq hx' hxl), hxnodes⟩
  · simpa [hs.data] using h.value x

end Represents

/-! ## Runs -/

theorem Deques.size_le_step {d' : Deques α} {o : SequenceOp α} {r : SequenceResult α}
    (hstep : d.step o = some (d', r)) : d.size ≤ d'.size := by
  have htake : ∀ (node? : Option ℕ) (seq : ℕ) (l : List ℕ),
      (d.take node? seq l).2.size = d.size := by
    intro node? seq l
    cases node? <;> rfl
  cases o with
  | create =>
    obtain ⟨rfl, -⟩ := Prod.mk.inj (Option.some.inj hstep)
    exact Nat.le_succ _
  | addL a seq | addR a seq =>
    obtain ⟨l, -, hl⟩ := Option.map_eq_some_iff.mp hstep
    obtain ⟨rfl, -⟩ := Prod.mk.inj hl
    exact Nat.le_succ _
  | takeL seq | takeR seq | takeOptL seq | takeOptR seq =>
    obtain ⟨l, -, hl⟩ := Option.map_eq_some_iff.mp hstep
    obtain ⟨rfl, -⟩ := Prod.mk.inj hl
    exact (htake _ _ _).ge
  | transferL s1 s2 | transferR s1 s2 =>
    simp only [Deques.step] at hstep
    split at hstep
    · cases hstep
    · obtain ⟨l1, -, hl1⟩ := Option.bind_eq_some_iff.mp hstep
      obtain ⟨l2, -, hl2⟩ := Option.map_eq_some_iff.mp hl1
      obtain ⟨rfl, -⟩ := Prod.mk.inj hl2
      exact Nat.le_refl _
  | remove node | set node a =>
    obtain ⟨b, -, hb⟩ := Option.map_eq_some_iff.mp hstep
    obtain ⟨rfl, -⟩ := Prod.mk.inj hb
    exact Nat.le_refl _

/-- With the nodes that have been left behind marked as removed, the links represent the lists. -/
structure Clearing.Held (c : Clearing α) : Prop where
  represents : Represents (c.links.retire c.cleared) c.deques
  within : ∀ x ∈ c.cleared, x < c.links.length

theorem Clearing.held_initial : Held (initial : Clearing α) :=
  ⟨represents_initial, by simp [initial]⟩

namespace Clearing.Held

variable {c c' : Clearing α} (h : Held c)

include h

theorem empty (hl : c.deques.lists seq = some l) (hs : c.links.Emptied seq l s') :
    Held (c.empty seq s') := by
  refine ⟨?_, fun x hx => ?_⟩
  · rw [Clearing.empty, hl, Option.getD_some]
    exact h.represents.emptied hl hs
  · simp only [Clearing.empty, hl, Option.getD_some, List.mem_append] at hx
    rw [Clearing.empty, hs.length]
    rcases hx with hx | hx
    · have hlt := (h.represents.ring hl).within x (List.mem_cons_of_mem _ hx)
      simpa using hlt
    · exact h.within x hx

theorem exists_of_isSeq (hseq : c.links.isSeq seq = true) : ∃ l, c.deques.lists seq = some l :=
  h.represents.exists_of_isSeq (by simpa using hseq)

theorem ends_notMem (hseq : c.links.isSeq seq = true) (hempty : c.links.isEmpty seq = false) :
    c.links.next seq ∉ c.cleared ∧ c.links.prev seq ∉ c.cleared := by
  obtain ⟨l, hl⟩ := h.exists_of_isSeq hseq
  have hring := Sequences.ring_retire.mp (h.represents.ring hl)
  have hne : l ≠ [] := fun hnil => by simp [hring.isEmpty_iff.mpr hnil] at hempty
  have hactive : ∀ x ∈ l, x ∉ c.cleared := fun x hx => by
    have h := (h.represents.active x).mpr ⟨seq, l, hl, hx⟩
    simp only [Sequences.active_retire, Bool.and_eq_true, decide_eq_true_eq] at h
    exact h.2
  exact ⟨hactive _ (hring.ends hne).1, hactive _ (hring.ends hne).2⟩

theorem remove_left (hnode : node ∈ c.cleared) (hok : c.harmless (.call (.remove node)) = true)
    (hstep : c.step (.call (.remove node)) = some c') : Held c' := by
  obtain ⟨⟨links, result⟩, hlinks, rfl⟩ := Option.map_eq_some_iff.mp hstep
  simp only [Sequences.step, Option.ite_none_right_eq_some, Option.some.injEq, Prod.mk.injEq]
    at hlinks
  obtain ⟨hdata, rfl, rfl⟩ := hlinks
  have hdata' : c.links.data node ≠ none := Option.isSome_iff_ne_none.mp hdata
  have hunlinks : c.links.active node = true → c.links.Unlinks node := by
    intro hactive
    simpa [Clearing.harmless, hnode, hactive] using hok
  have hdeques : (c.deques.step (.remove node)).map Prod.fst = some (c.deques.remove node) := by
    have hvalue := h.represents.value node
    rw [Sequences.data_retire] at hvalue
    obtain ⟨a, ha⟩ := Option.ne_none_iff_exists'.mp hdata'
    simp [Deques.step, hvalue, ha]
  refine ⟨?_, fun x hx => ?_⟩
  · rw [hdeques, Option.getD_some]
    exact h.represents.remove_left hnode hdata' hunlinks
  · simpa [Sequences.length_remove] using h.within x hx

theorem call {o : SequenceOp α} (hnode : ∀ node, o = .remove node → node ∉ c.cleared)
    (hstep : c.step (.call o) = some c') : Held c' := by
  have hlength : c.links.length ∉ c.cleared := fun hmem => Nat.lt_irrefl _ (h.within _ hmem)
  obtain ⟨⟨links, result⟩, hlinks, rfl⟩ := Option.map_eq_some_iff.mp hstep
  have hretire : (c.links.retire c.cleared).step o = some (links.retire c.cleared, result) := by
    rw [Sequences.step_retire hlength (fun seq => h.ends_notMem) hnode, hlinks]
    rfl
  obtain ⟨d', hd', hrepresents⟩ := step_represents h.represents hretire
  refine ⟨?_, fun x hx => ?_⟩
  · rw [hd']
    exact hrepresents
  · have hle := Deques.size_le_step hd'
    rw [h.represents.size, hrepresents.size, Sequences.length_retire,
      Sequences.length_retire] at hle
    exact (h.within x hx).trans_le hle

theorem step {o : ClearingOp α} (hok : c.harmless o = true) (hstep : c.step o = some c') :
    Held c' := by
  cases o with
  | call o =>
    by_cases hleft : ∃ node, o = .remove node ∧ node ∈ c.cleared
    · obtain ⟨node, rfl, hnode⟩ := hleft
      exact h.remove_left hnode hok hstep
    · exact h.call (fun node ho hnode => hleft ⟨node, ho, hnode⟩) hstep
  | clear seq =>
    simp only [Clearing.step, Option.ite_none_right_eq_some, Option.some.injEq] at hstep
    obtain ⟨hseq, rfl⟩ := hstep
    obtain ⟨l, hl⟩ := h.exists_of_isSeq hseq
    exact h.empty hl (Sequences.ring_retire.mp (h.represents.ring hl)).emptied_clear
  | transferLSelf seq =>
    simp only [Clearing.step, Option.ite_none_right_eq_some, Option.some.injEq] at hstep
    obtain ⟨hseq, rfl⟩ := hstep
    obtain ⟨l, hl⟩ := h.exists_of_isSeq hseq
    exact h.empty hl (Sequences.ring_retire.mp (h.represents.ring hl)).emptied_transferL
  | transferRSelf seq =>
    simp only [Clearing.step, Option.ite_none_right_eq_some, Option.some.injEq] at hstep
    obtain ⟨hseq, rfl⟩ := hstep
    obtain ⟨l, hl⟩ := h.exists_of_isSeq hseq
    exact h.empty hl (Sequences.ring_retire.mp (h.represents.ring hl)).emptied_transferR

end Clearing.Held

theorem Clearing.reach_held {c : Clearing α}
    (hreach : Reach step (fun c o => c.harmless o = true) initial c) : Held c :=
  hreach.invariant held_initial fun _ _ _ h hok hstep => h.step hok hstep

/-- After any calls in which no node that `clear`, or a transfer of a sequence to itself, has left
behind is removed with harm, every sequence has some nodes `l`.  Let the callbacks remove any of
them and take from either end.  The nodes still in the sequence are always those of `l` that are
active, in their order.  Each iteration ends, and it calls the callback on the nodes of `l` one
after the other, from the left or from the right, leaving out those removed before their turn. -/
theorem iterations_visit_what_is_left {c : Clearing α}
    (hreach : Reach Clearing.step (fun c o => c.harmless o = true) Clearing.initial c)
    (hseq : c.links.isSeq seq = true) :
    ∃ l, c.deques.lists seq = some l ∧
      (l.Nodup ∧ (∀ x ∈ l, c.links.active x = true) ∧
        ∀ s', Removes seq l c.links s' → s'.Ring seq (l.filter s'.active)) ∧
      ∀ (st : σ) (f : ℕ → σ × Sequences α → σ × Sequences α)
        (g : α → σ × Sequences α → σ × Sequences α),
        (∀ x r, Removes seq l r.2 (f x r).2) → (∀ a r, Removes seq l r.2 (g a r).2) →
        c.links.iterNodeL seq st f = some (visitAll f l (st, c.links)) ∧
        c.links.iterNodeR seq st f = some (visitAll f l.reverse (st, c.links)) ∧
        c.links.iterL seq st g = some (visitAll (onData g) l (st, c.links)) ∧
        c.links.iterR seq st g = some (visitAll (onData g) l.reverse (st, c.links)) := by
  have hheld := Clearing.reach_held hreach
  obtain ⟨l, hl⟩ := hheld.exists_of_isSeq hseq
  have hactive : ∀ x ∈ l, c.links.active x = true := fun x hx => by
    have h := (hheld.represents.active x).mpr ⟨seq, l, hl, hx⟩
    simp only [active_retire, Bool.and_eq_true] at h
    exact h.1
  have h : c.links.Threads seq l := (ring_retire.mp (hheld.represents.ring hl)).threads hactive
  refine ⟨l, hl, ⟨(List.nodup_cons.mp h.nodup).2, hactive, fun s' hs' => (h.removes hs').ring⟩,
    fun st f g hf hg => ?_⟩
  obtain ⟨hnodeL, hnodeR⟩ := h.iterNode st hf
  obtain ⟨hdataL, hdataR⟩ := h.iterNode st (removes_onData hg)
  exact ⟨hnodeL, hnodeR, hdataL, hdataR⟩

/-- The first node removes itself and the two that follow, the last one takes the first. -/
def removesNeighbours (x : ℕ) (c : List ℕ × Sequences ℕ) : List ℕ × Sequences ℕ :=
  if x = 2 then (c.1 ++ [x], ((c.2.remove 2).remove 3).remove 4)
  else (c.1 ++ [x], (c.2.takeOptL 0).2)

theorem removes_removesNeighbours (x : ℕ) (c : List ℕ × Sequences ℕ) :
    Removes 0 [2, 3, 4, 5] c.2 (removesNeighbours x c).2 := by
  unfold removesNeighbours
  split
  · exact .remove (by simp) (.remove (by simp) (.remove (by simp) (.refl _)))
  · exact .takeOptL (.refl _)

/-- Each call takes the last node. -/
def takesLast (a : ℕ) (c : List ℕ × Sequences ℕ) : List ℕ × Sequences ℕ :=
  (c.1 ++ [a], (c.2.takeOptR 0).2)

/-- Four nodes, in a sequence that has been cleared, and whose node of then has been removed. -/
def fourNodes : List (ClearingOp ℕ) :=
  [.call .create, .call (.addR 5 0), .clear 0, .call (.remove 1), .call (.addR 10 0),
    .call (.addR 20 0), .call (.addR 30 0), .call (.addR 40 0)]

theorem iterations_visit_what_is_left_of_four :
    ∃ c, replay (checked Clearing.step Clearing.harmless) Clearing.initial fourNodes = some c ∧
      (c.links.iterNodeL 0 [] removesNeighbours).map Prod.fst = some [2, 5] ∧
      (c.links.iterNodeR 0 [] removesNeighbours).map Prod.fst = some [5, 4] ∧
      (c.links.iterL 0 [] takesLast).map Prod.fst = some [10, 20] ∧
      (c.links.iterR 0 [] takesLast).map Prod.fst = some [40, 30, 20, 10] := by
  let links : Sequences ℕ := [⟨5, 2, none, false⟩, ⟨0, 0, some 5, false⟩, ⟨0, 3, some 10, true⟩,
    ⟨2, 4, some 20, true⟩, ⟨3, 5, some 30, true⟩, ⟨4, 0, some 40, true⟩]
  obtain ⟨c, hrun, hlinks, hlists⟩ : ∃ c,
      replay (checked Clearing.step Clearing.harmless) Clearing.initial fourNodes = some c ∧
        c.links = links ∧ c.deques.lists 0 = some [2, 3, 4, 5] := ⟨_, rfl, rfl, rfl⟩
  have hseq : c.links.isSeq 0 = true := by rw [hlinks]; rfl
  obtain ⟨l, hl, -, hvisits⟩ :=
    iterations_visit_what_is_left (σ := List ℕ) (reach_of_checked _ hrun) hseq
  obtain rfl : [2, 3, 4, 5] = l := Option.some.inj (hlists.symm.trans hl)
  obtain ⟨hnodeL, hnodeR, hdataL, hdataR⟩ :=
    hvisits [] removesNeighbours takesLast removes_removesNeighbours fun a c => .takeOptR (.refl _)
  refine ⟨c, hrun, ?_⟩
  rw [hnodeL, hnodeR, hdataL, hdataR, hlinks]
  exact ⟨by decide, by decide, by decide, by decide⟩

/-- A sequence of two nodes is cleared, a third is added, and the first is removed. -/
def removesCleared : List (ClearingOp ℕ) :=
  [.call .create, .call (.addR 10 0), .call (.addR 20 0), .clear 0, .call (.addR 30 0),
    .call (.remove 1)]

/-- The sequence should have the third node, and the iteration visits the second one only. -/
theorem cleared_node_is_visited : ∃ c,
    replay Clearing.step Clearing.initial removesCleared = some c ∧
      c.links.isSeq 0 = true ∧ c.deques.lists 0 = some [3] ∧ c.links.active 3 = true ∧
      (c.links.iterNodeL 0 [] fun x r => (r.1 ++ [x], r.2)).map Prod.fst = some [2] :=
  ⟨_, rfl, rfl, rfl, rfl, rfl⟩

end Lwt
