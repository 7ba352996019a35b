import Lwt.Sequence.Deque

/-!
# Iterating over a sequence while nodes are removed

`iter_l`, `iter_r`, `iter_node_l` and `iter_node_r` follow the links of a node after the callback
has returned, so they may stand on a node that the callback has removed, and the links of such a
node stay as they were when it was removed.

Between a node and the one its link leads to there are only removed nodes (`Skips`).  Removing a
node keeps this (`Skips.unlink`): the only link that is assigned now leads to where the link of the
removed node leads.  So the loop passes over the nodes that were there at the start in their order,
and leaves out removed ones only (`iterLoop_eq`).
-/

namespace Lwt

variable {α σ : Type} {seq x y back : ℕ} {l l₁ l₂ : List ℕ}

namespace Sequences

/-! ## The loops -/

/-- The loop of the four functions, which follow `next` or `prev`; the callback has a state of its
own and may change the links. -/
def iterLoop (follow : Sequences α → ℕ → ℕ) (seq : ℕ)
    (f : ℕ → σ × Sequences α → σ × Sequences α) :
    ℕ → ℕ → σ × Sequences α → Option (σ × Sequences α)
  | 0, _, _ => none
  | turns + 1, curr, c =>
    if curr ≠ seq then
      let c := if c.2.active curr then f curr c else c
      iterLoop follow seq f turns (follow c.2 curr) c
    else some c

/-- `f node.node_data`. -/
def onData (f : α → σ × Sequences α → σ × Sequences α) (node : ℕ) (c : σ × Sequences α) :
    σ × Sequences α :=
  (c.2.data node).elim c fun data => f data c

section Functions

variable (s : Sequences α) (seq : ℕ) (st : σ)

def iterL (f : α → σ × Sequences α → σ × Sequences α) : Option (σ × Sequences α) :=
  iterLoop next seq (onData f) (s.length + 1) (s.next seq) (st, s)

def iterR (f : α → σ × Sequences α → σ × Sequences α) : Option (σ × Sequences α) :=
  iterLoop prev seq (onData f) (s.length + 1) (s.prev seq) (st, s)

def iterNodeL (f : ℕ → σ × Sequences α → σ × Sequences α) : Option (σ × Sequences α) :=
  iterLoop next seq f (s.length + 1) (s.next seq) (st, s)

def iterNodeR (f : ℕ → σ × Sequences α → σ × Sequences α) : Option (σ × Sequences α) :=
  iterLoop prev seq f (s.length + 1) (s.prev seq) (st, s)

end Functions

/-- One turn for each of the nodes `l`, in this order: the callback is called if the node has not
been removed by then. -/
def visitAll (f : ℕ → σ × Sequences α → σ × Sequences α) :
    List ℕ → σ × Sequences α → σ × Sequences α
  | [], c => c
  | x :: l, c => visitAll f l (if c.2.active x then f x c else c)

/-- What a callback may do with the sequence `seq` of the nodes `l`: remove any of the nodes, and
take from either end. -/
inductive Removes (seq : ℕ) (l : List ℕ) : Sequences α → Sequences α → Prop
  | refl (s : Sequences α) : Removes seq l s s
  | remove {s s' : Sequences α} {node : ℕ} (hnode : node ∈ l) (h : Removes seq l s s') :
      Removes seq l s (s'.remove node)
  | takeL {s s' s'' : Sequences α} {a : α} (htake : s'.takeL seq = some (a, s''))
      (h : Removes seq l s s') : Removes seq l s s''
  | takeR {s s' s'' : Sequences α} {a : α} (htake : s'.takeR seq = some (a, s''))
      (h : Removes seq l s s') : Removes seq l s s''
  | takeOptL {s s' : Sequences α} (h : Removes seq l s s') : Removes seq l s (s'.takeOptL seq).2
  | takeOptR {s s' : Sequences α} (h : Removes seq l s s') : Removes seq l s (s'.takeOptR seq).2

/-! ## Links over removed nodes -/

/-- Between a node, or the header `seq`, and the one its link leads to there are only removed nodes
of `l`. -/
def Skips (link : ℕ → ℕ) (active : ℕ → Bool) (seq : ℕ) (l : List ℕ) : Prop :=
  ∀ l₁ x l₂, seq :: l = l₁ ++ x :: l₂ →
    ∃ skipped rest, l₂ ++ [seq] = skipped ++ link x :: rest ∧ ∀ y ∈ skipped, active y = false

/-- A link that does not lead to the header leads to a node. -/
theorem exists_of_append_eq {skipped rest : List ℕ}
    (h : l ++ [seq] = skipped ++ x :: rest) (hx : x ≠ seq) :
    ∃ l', rest = l' ++ [seq] ∧ l = skipped ++ x :: l' := by
  rcases List.eq_nil_or_concat rest with rfl | ⟨l', z, rfl⟩
  · have hlast := (List.append_inj' h rfl).2
    exact absurd (List.cons.inj hlast).1.symm hx
  · rw [List.concat_eq_append, ← List.cons_append, ← List.append_assoc] at h
    obtain ⟨hl, hz⟩ := List.append_inj' h rfl
    obtain rfl : seq = z := (List.cons.inj hz).1
    exact ⟨l', List.concat_eq_append .., hl⟩

theorem Skips.unlink {link link' : ℕ → ℕ} {active active' : ℕ → Bool}
    (h : Skips link active seq l) (hx : x ≠ seq) (hback : link back = x)
    (hlink : ∀ y ∈ seq :: l, link' y = if y = back then link x else link y)
    (hactive : ∀ y, active' y = (active y && y != x)) : Skips link' active' seq l := by
  have hgone : ∀ y, active y = false → active' y = false := by
    intro y hy
    rw [hactive, hy, Bool.false_and]
  intro l₁ y l₂ hl
  obtain ⟨skipped, rest, hrest, hskipped⟩ := h l₁ y l₂ hl
  have hy : y ∈ seq :: l := by simp [hl]
  by_cases hyback : y = back
  · subst hyback
    rw [hback] at hrest
    obtain ⟨l', rfl, hl₂⟩ := exists_of_append_eq hrest hx
    -- The nodes that the link of `x` passes over follow those that the link to `x` passes over.
    obtain ⟨skipped', rest', hrest', hskipped'⟩ :=
      h (l₁ ++ y :: skipped) x l' (by rw [hl, hl₂, List.append_assoc, List.cons_append])
    refine ⟨skipped ++ x :: skipped', rest', ?_, fun z hz => ?_⟩
    · rw [hrest, hrest', hlink y hy, if_pos rfl, List.append_assoc, List.cons_append]
    · rcases List.mem_append.mp hz with hz | hz
      · exact hgone z (hskipped z hz)
      · rcases List.mem_cons.mp hz with rfl | hz
        · rw [hactive, bne_self_eq_false, Bool.and_false]
        · exact hgone z (hskipped' z hz)
  · refine ⟨skipped, rest, ?_, fun z hz => hgone z (hskipped z hz)⟩
    rw [hrest, hlink y hy, if_neg hyback]

variable {s s' : Sequences α}

/-- The links of the nodes `l` that were there at the start, some of which have been removed. -/
structure Threads (s : Sequences α) (seq : ℕ) (l : List ℕ) : Prop where
  ring : s.Ring seq (l.filter s.active)
  nodup : (seq :: l).Nodup
  within : ∀ x ∈ seq :: l, x < s.length
  skipsL : Skips s.next s.active seq l
  skipsR : Skips s.prev s.active seq l.reverse

theorem Ring.skips (h : s.Ring seq l) (active : ℕ → Bool) : Skips s.next active seq l := by
  intro l₁ x l₂ hl
  have hhead : (l₂ ++ [seq]).head? = some (s.next x) := by
    cases l₁ with
    | nil =>
      cases hl
      exact h.head?_self
    | cons z l₁ =>
      cases hl
      exact h.head?_eq
  obtain ⟨rest, hrest⟩ := List.head?_eq_some_iff.mp hhead
  exact ⟨[], rest, hrest, by simp⟩

theorem Ring.threads (h : s.Ring seq l) (hactive : ∀ x ∈ l, s.active x = true) :
    s.Threads seq l := by
  have hprev : s.mirror.next = s.prev := funext s.next_mirror
  refine ⟨?_, h.nodup, h.within, h.skips _, hprev ▸ h.mirror.skips _⟩
  rwa [List.filter_eq_self.mpr hactive]

/-- `remove node` on one of the nodes, some of which have been removed. -/
theorem Ring.remove_filter {node : ℕ} (h : s.Ring seq (l.filter s.active)) (hnode : node ∈ l)
    (hactive : s.active node = true) :
    (s.remove node).Ring seq (l.filter (s.remove node).active) := by
  have hlive : node ∈ l.filter s.active := List.mem_filter.mpr ⟨hnode, hactive⟩
  obtain ⟨live₁, live₂, hsplit⟩ := List.append_of_mem hlive
  have hnodup : (l.filter s.active).Nodup := (List.nodup_cons.mp h.nodup).2
  have hfilter : l.filter (s.remove node).active = live₁ ++ live₂ := by
    calc l.filter (s.remove node).active
        = (l.filter s.active).filter (· != node) := by
          rw [List.filter_filter]
          refine List.filter_congr fun x _ => ?_
          rw [active_remove, Bool.and_comm]
      _ = (l.filter s.active).erase node := (hnodup.erase_eq_filter node).symm
      _ = live₁ ++ live₂ := by
          have hnot : node ∉ live₁ := fun hmem =>
            (List.nodup_append.mp (hsplit ▸ hnodup)).2.2 node hmem node (by simp) rfl
          rw [hsplit, List.erase_append_right _ hnot, List.erase_cons_head]
  rw [hfilter]
  exact (hsplit ▸ h).remove hactive

namespace Threads

theorem remove {node : ℕ} (h : s.Threads seq l) (hnode : node ∈ l) :
    (s.remove node).Threads seq l := by
  by_cases hactive : s.active node = true
  · have hne : node ≠ seq := fun heq => (List.nodup_cons.mp h.nodup).1 (heq ▸ hnode)
    have hlive : node ∈ l.filter s.active := List.mem_filter.mpr ⟨hnode, hactive⟩
    obtain ⟨⟨hprev, -⟩, -⟩ := h.ring.prev (List.mem_cons_of_mem _ hlive)
    obtain ⟨⟨-, hnext⟩, -⟩ := h.ring.next (List.mem_cons_of_mem _ hlive)
    refine ⟨?_, h.nodup, fun x hx => (length_remove s node).symm ▸ h.within x hx, ?_, ?_⟩
    · exact h.ring.remove_filter hnode hactive
    · exact h.skipsL.unlink hne hprev (fun y hy => next_remove hactive (h.within y hy))
        (active_remove s node)
    · refine h.skipsR.unlink hne hnext (fun y hy => prev_remove hactive (h.within y ?_))
        (active_remove s node)
      simpa using hy
  · rwa [Sequences.remove, if_neg hactive]

theorem ends (h : s.Threads seq l) (hempty : ¬ s.isEmpty seq = true) :
    s.next seq ∈ l ∧ s.prev seq ∈ l := by
  obtain ⟨hnext, hprev⟩ := h.ring.ends fun hnil => hempty (h.ring.isEmpty_iff.mpr hnil)
  exact ⟨List.mem_of_mem_filter hnext, List.mem_of_mem_filter hprev⟩

theorem takeOptL (h : s.Threads seq l) : (s.takeOptL seq).2.Threads seq l := by
  unfold Sequences.takeOptL
  split
  · exact h
  · rename_i hempty
    exact h.remove (h.ends hempty).1

theorem takeOptR (h : s.Threads seq l) : (s.takeOptR seq).2.Threads seq l := by
  unfold Sequences.takeOptR
  split
  · exact h
  · rename_i hempty
    exact h.remove (h.ends hempty).2

theorem takeL {a : α} (h : s.Threads seq l) (htake : s.takeL seq = some (a, s')) :
    s'.Threads seq l := by
  unfold Sequences.takeL at htake
  split at htake
  · simp at htake
  · rename_i hempty
    obtain ⟨b, -, hb⟩ := Option.map_eq_some_iff.mp htake
    obtain ⟨-, rfl⟩ := Prod.mk.inj hb
    exact h.remove (h.ends hempty).1

theorem takeR {a : α} (h : s.Threads seq l) (htake : s.takeR seq = some (a, s')) :
    s'.Threads seq l := by
  unfold Sequences.takeR at htake
  split at htake
  · simp at htake
  · rename_i hempty
    obtain ⟨b, -, hb⟩ := Option.map_eq_some_iff.mp htake
    obtain ⟨-, rfl⟩ := Prod.mk.inj hb
    exact h.remove (h.ends hempty).2

theorem removes (h : s.Threads seq l) (hremoves : Removes seq l s s') : s'.Threads seq l := by
  induction hremoves with
  | refl => exact h
  | remove hnode _ ih => exact ih.remove hnode
  | takeL htake _ ih => exact ih.takeL htake
  | takeR htake _ ih => exact ih.takeR htake
  | takeOptL _ ih => exact ih.takeOptL
  | takeOptR _ ih => exact ih.takeOptR

end Threads

/-! ## The loop visits what is left -/

section Visits

variable {f : ℕ → σ × Sequences α → σ × Sequences α} {c : σ × Sequences α}

theorem visitAll_skip {skipped : List ℕ} (hskipped : ∀ y ∈ skipped, c.2.active y = false) :
    visitAll f (skipped ++ l) c = visitAll f l c := by
  induction skipped with
  | nil => rfl
  | cons y skipped ih =>
    rw [List.cons_append, visitAll, hskipped y (by simp), if_neg (by simp)]
    exact ih fun z hz => hskipped z (List.mem_cons_of_mem _ hz)

theorem turn_of {P : Sequences α → Prop} (hf : ∀ x c, P c.2 → P (f x c).2) (hc : P c.2) (x : ℕ) :
    P (if c.2.active x then f x c else c).2 := by
  split
  · exact hf x c hc
  · exact hc

/-- The loop on the node or the header `curr`, with the nodes `l₂` still to come of which those
before `curr` have been removed. -/
theorem iterLoop_eq {follow : Sequences α → ℕ → ℕ} {P : Sequences α → Prop}
    (hskips : ∀ s, P s → Skips (follow s) s.active seq l)
    (hf : ∀ x c, P c.2 → P (f x c).2) (hl : l = l₁ ++ l₂) {turns curr : ℕ}
    (hturns : l₂.length < turns) {skipped rest : List ℕ}
    (hcurr : l₂ ++ [seq] = skipped ++ curr :: rest) (hseq : seq ∉ l) (hc : P c.2)
    (hskipped : ∀ y ∈ skipped, c.2.active y = false) :
    iterLoop follow seq f turns curr c = some (visitAll f l₂ c) := by
  induction turns generalizing l₁ l₂ curr c skipped rest with
  | zero => exact absurd hturns (Nat.not_lt_zero _)
  | succ turns ih =>
    rw [iterLoop]
    split
    · rename_i hne
      obtain ⟨l', -, rfl⟩ := exists_of_append_eq hcurr hne
      have hc' := turn_of hf hc curr
      obtain ⟨skipped', rest', hcurr', hskipped'⟩ :=
        hskips _ hc' (seq :: (l₁ ++ skipped)) curr l' (by simp [hl])
      have hl' : l = l₁ ++ skipped ++ [curr] ++ l' := by simp [hl]
      rw [visitAll_skip hskipped, visitAll]
      refine ih hl' ?_ hcurr' hc' hskipped'
      simp only [List.length_append, List.length_cons] at hturns
      omega
    · rename_i heq
      obtain rfl : curr = seq := not_not.mp heq
      -- All nodes that were still to come have been removed.
      have hall : ∀ y ∈ l₂, c.2.active y = false := by
        rcases List.eq_nil_or_concat rest with rfl | ⟨l', z, rfl⟩
        · exact (List.append_inj' hcurr rfl).1 ▸ hskipped
        · rw [List.concat_eq_append, ← List.cons_append, ← List.append_assoc] at hcurr
          refine absurd ?_ hseq
          simp [hl, (List.append_inj' hcurr rfl).1]
      rw [← List.append_nil l₂, visitAll_skip hall, visitAll]

end Visits

theorem removes_onData {f : α → σ × Sequences α → σ × Sequences α}
    (hf : ∀ a c, Removes seq l c.2 (f a c).2) (x : ℕ) (c : σ × Sequences α) :
    Removes seq l c.2 (onData f x c).2 := by
  unfold onData
  cases c.2.data x with
  | none => exact .refl _
  | some a => exact hf a c

theorem Threads.iterNode (h : s.Threads seq l) (st : σ)
    {f : ℕ → σ × Sequences α → σ × Sequences α} (hf : ∀ x c, Removes seq l c.2 (f x c).2) :
    s.iterNodeL seq st f = some (visitAll f l (st, s)) ∧
      s.iterNodeR seq st f = some (visitAll f l.reverse (st, s)) := by
  have hkeeps : ∀ x (c : σ × Sequences α), c.2.Threads seq l → (f x c).2.Threads seq l :=
    fun x c hc => hc.removes (hf x c)
  have hseq : seq ∉ l := (List.nodup_cons.mp h.nodup).1
  have hlength : l.length < s.length + 1 := by
    have hsub : seq :: l ⊆ List.range s.length := fun x hx => List.mem_range.mpr (h.within x hx)
    have hle := List.Nodup.length_le_of_subset h.nodup hsub
    simp only [List.length_cons, List.length_range] at hle
    omega
  constructor
  · obtain ⟨skipped, rest, hcurr, hskipped⟩ := h.skipsL [] seq l rfl
    exact iterLoop_eq (P := fun s => s.Threads seq l) (fun _ hs => hs.skipsL) hkeeps
      (List.nil_append l).symm hlength hcurr hseq h hskipped
  · obtain ⟨skipped, rest, hcurr, hskipped⟩ := h.skipsR [] seq l.reverse rfl
    exact iterLoop_eq (P := fun s => s.Threads seq l) (fun _ hs => hs.skipsR) hkeeps
      (List.nil_append l.reverse).symm (by simpa using hlength) hcurr (by simpa using hseq) h
      hskipped

end Sequences

end Lwt
