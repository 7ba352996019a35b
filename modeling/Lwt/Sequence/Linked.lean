import Mathlib.Data.List.Chain
import Mathlib.Data.List.Nodup
import Lwt.Sequence.Ring

/-!
# Well-formed rings

`Ring s seq l` says that the header `seq` and the nodes `l` are linked in this order, both ways
round.  Each operation of `lwt_sequence.ml` on one sequence gives a ring again and leaves the
rings it does not touch as they are.  The exception is `remove`: a node that is still active
but that no ring holds (`clear` leaves such nodes behind) overwrites the links of its former
neighbours, and `Unlinks` says when this does no harm.
-/

namespace Lwt.Sequences

variable {α : Type*} {s s' : Sequences α} {seq seq' x y : ℕ} {l l' : List ℕ} {a : α}

/-! ## Reading the links after an assignment -/

section Links

variable (s : Sequences α) (i j x : ℕ)

@[simp] theorem length_setPrev : (s.setPrev i j).length = s.length := List.length_modify ..

@[simp] theorem length_setNext : (s.setNext i j).length = s.length := List.length_modify ..

@[simp] theorem next_setPrev : (s.setPrev i j).next x = s.next x := by
  unfold next setPrev
  rw [List.getElem?_modify]
  cases s[x]? <;> by_cases h : i = x <;> simp [h]

@[simp] theorem prev_setNext : (s.setNext i j).prev x = s.prev x := by
  unfold prev setNext
  rw [List.getElem?_modify]
  cases s[x]? <;> by_cases h : i = x <;> simp [h]

@[simp] theorem active_setPrev : (s.setPrev i j).active x = s.active x := by
  unfold active setPrev
  rw [List.getElem?_modify]
  cases s[x]? <;> by_cases h : i = x <;> simp [h]

@[simp] theorem active_setNext : (s.setNext i j).active x = s.active x := by
  unfold active setNext
  rw [List.getElem?_modify]
  cases s[x]? <;> by_cases h : i = x <;> simp [h]

end Links

theorem next_setNext_self {i : ℕ} (hi : i < s.length) (j : ℕ) : (s.setNext i j).next i = j := by
  simp [next, setNext, hi]

theorem next_setNext_ne {i : ℕ} (hx : x ≠ i) (j : ℕ) : (s.setNext i j).next x = s.next x := by
  simp [next, setNext, Ne.symm hx]

theorem prev_setPrev_self {i : ℕ} (hi : i < s.length) (j : ℕ) : (s.setPrev i j).prev i = j := by
  simp [prev, setPrev, hi]

theorem prev_setPrev_ne {i : ℕ} (hx : x ≠ i) (j : ℕ) : (s.setPrev i j).prev x = s.prev x := by
  simp [prev, setPrev, Ne.symm hx]

section Append

variable (link : Link α)

theorem next_append (hx : x < s.length) : next (s ++ [link]) x = s.next x := by
  simp [next, List.getElem?_append_left hx]

theorem prev_append (hx : x < s.length) : prev (s ++ [link]) x = s.prev x := by
  simp [prev, List.getElem?_append_left hx]

theorem active_append (hx : x < s.length) : active (s ++ [link]) x = s.active x := by
  simp [active, List.getElem?_append_left hx]

end Append

/-! ## Rings -/

/-- The link from `x` to `y` can be followed both ways. -/
def Follows (s : Sequences α) (x y : ℕ) : Prop := s.next x = y ∧ s.prev y = x

/-- The nodes of the sequence `seq` are `l`, from left to right. -/
structure Ring (s : Sequences α) (seq : ℕ) (l : List ℕ) : Prop where
  chain : List.IsChain s.Follows (seq :: (l ++ [seq]))
  nodup : (seq :: l).Nodup
  within : ∀ x ∈ seq :: l, x < s.length

/-- A sequence keeps its nodes when their links stay as they are. -/
theorem Ring.congr (h : Ring s seq l) (hlen : s.length ≤ s'.length)
    (hnext : ∀ x ∈ seq :: l, s'.next x = s.next x)
    (hprev : ∀ x ∈ seq :: l, s'.prev x = s.prev x) : Ring s' seq l := by
  refine ⟨h.chain.imp_of_mem_imp ?_, h.nodup, fun x hx => (h.within x hx).trans_le hlen⟩
  have hmem : ∀ x ∈ seq :: (l ++ [seq]), x ∈ seq :: l := by
    intro x hx
    simpa [or_comm, or_assoc] using hx
  intro x y hx hy hfollows
  exact ⟨(hnext x (hmem x hx)).trans hfollows.1, (hprev y (hmem y hy)).trans hfollows.2⟩

theorem Ring.split {l₁ l₂ : List ℕ} (h : Ring s seq (l₁ ++ x :: l₂)) :
    List.IsChain s.Follows (seq :: (l₁ ++ [x])) ∧ List.IsChain s.Follows (x :: (l₂ ++ [seq])) := by
  have hchain := h.chain
  rw [List.append_assoc, List.cons_append] at hchain
  exact List.isChain_cons_split.mp hchain

private theorem follows_head {l : List ℕ} (h : List.IsChain s.Follows (x :: (l ++ [y]))) :
    s.Follows x (s.next x) ∧ s.next x ∈ l ++ [y] := by
  cases l with
  | nil =>
    obtain ⟨hnext, hprev⟩ := List.isChain_pair.mp h
    exact ⟨⟨rfl, hnext ▸ hprev⟩, by simp [hnext]⟩
  | cons z l =>
    rw [List.cons_append, List.isChain_cons_cons] at h
    obtain ⟨⟨hnext, hprev⟩, -⟩ := h
    exact ⟨⟨rfl, hnext ▸ hprev⟩, by simp [hnext]⟩

private theorem follows_last {l : List ℕ} (h : List.IsChain s.Follows (x :: (l ++ [y]))) :
    s.Follows (s.prev y) y ∧ s.prev y ∈ x :: l := by
  induction l generalizing x with
  | nil =>
    obtain ⟨hnext, hprev⟩ := List.isChain_pair.mp h
    exact ⟨⟨hprev ▸ hnext, rfl⟩, by simp [hprev]⟩
  | cons z l ih =>
    rw [List.cons_append, List.isChain_cons_cons] at h
    obtain ⟨hfollows, hmem⟩ := ih h.2
    exact ⟨hfollows, List.mem_cons_of_mem _ hmem⟩

theorem Ring.next (h : Ring s seq l) (hx : x ∈ seq :: l) :
    s.Follows x (s.next x) ∧ s.next x ∈ seq :: l := by
  rcases List.mem_cons.mp hx with rfl | hx
  · obtain ⟨hfollows, hmem⟩ := follows_head h.chain
    exact ⟨hfollows, by simpa [or_comm] using hmem⟩
  · obtain ⟨l₁, l₂, rfl⟩ := List.append_of_mem hx
    obtain ⟨hfollows, hmem⟩ := follows_head h.split.2
    simp only [List.mem_append, List.mem_singleton] at hmem
    rcases hmem with hmem | hmem
    · exact ⟨hfollows, by simp [hmem]⟩
    · exact ⟨hfollows, by simp [hmem]⟩

theorem Ring.prev (h : Ring s seq l) (hx : x ∈ seq :: l) :
    s.Follows (s.prev x) x ∧ s.prev x ∈ seq :: l := by
  rcases List.mem_cons.mp hx with rfl | hx
  · exact follows_last h.chain
  · obtain ⟨l₁, l₂, rfl⟩ := List.append_of_mem hx
    obtain ⟨hfollows, hmem⟩ := follows_last h.split.1
    rcases List.mem_cons.mp hmem with hmem | hmem
    · exact ⟨hfollows, by simp [hmem]⟩
    · exact ⟨hfollows, by simp [hmem]⟩

theorem Ring.head?_eq {l₁ l₂ : List ℕ} (h : Ring s seq (l₁ ++ x :: l₂)) :
    (l₂ ++ [seq]).head? = some (s.next x) := by
  have hchain := h.split.2
  rw [List.isChain_cons] at hchain
  cases hhead : (l₂ ++ [seq]).head? with
  | none => simp at hhead
  | some y => rw [(hchain.1 y hhead).1]

theorem Ring.head?_self (h : Ring s seq l) : (l ++ [seq]).head? = some (s.next seq) := by
  have hchain := h.chain
  rw [List.isChain_cons] at hchain
  cases hhead : (l ++ [seq]).head? with
  | none => simp at hhead
  | some y => rw [(hchain.1 y hhead).1]

theorem ring_nil (hseq : seq < s.length) (hnext : s.next seq = seq) (hprev : s.prev seq = seq) :
    Ring s seq [] :=
  ⟨List.isChain_pair.mpr ⟨hnext, hprev⟩, by simp, by simpa using hseq⟩

theorem Ring.isEmpty_iff (h : Ring s seq l) : s.isEmpty seq = true ↔ l = [] := by
  rw [isEmpty, decide_eq_true_iff]
  refine ⟨fun hnext => ?_, fun hl => ?_⟩
  · cases l with
    | nil => rfl
    | cons x l =>
      have hchain := h.chain
      rw [List.cons_append, List.isChain_cons_cons] at hchain
      have hx : x = seq := hchain.1.1.symm.trans hnext
      exact absurd (List.nodup_cons.mp h.nodup).1 (by simp [hx])
  · subst hl
    exact (List.isChain_pair.mp h.chain).1

/-! ## New sequences and new nodes -/

@[simp] theorem length_create (s : Sequences α) : s.create.length = s.length + 1 := by
  simp [create]

@[simp] theorem length_addR (s : Sequences α) (a : α) (seq : ℕ) :
    (s.addR a seq).length = s.length + 1 := by
  simp [addR]

theorem ring_create (s : Sequences α) : Ring s.create s.length [] :=
  ring_nil (by simp) (by simp [create, Sequences.next]) (by simp [create, Sequences.prev])

theorem Ring.create (h : Ring s seq l) : Ring s.create seq l :=
  h.congr (by simp) (fun x hx => next_append _ (h.within x hx))
    fun x hx => prev_append _ (h.within x hx)

theorem active_create (hx : x < s.length) : s.create.active x = s.active x := active_append _ hx

theorem active_addR (hx : x < s.length) : (s.addR a seq).active x = s.active x := by
  rw [addR, active_setPrev, active_setNext, active_append _ hx]

theorem active_addR_self (s : Sequences α) (a : α) (seq : ℕ) :
    (s.addR a seq).active s.length = true := by
  rw [addR, active_setPrev, active_setNext]
  simp [active]

theorem data_addR_self (s : Sequences α) (a : α) (seq : ℕ) :
    (s.addR a seq).data s.length = some a := by
  rw [addR, data_setPrev, data_setNext]
  simp [data]

theorem data_append_lt (hx : x < s.length) (link : Link α) : data (s ++ [link]) x = s.data x := by
  simp [data, List.getElem?_append_left hx]

theorem data_create_eq (s : Sequences α) (x : ℕ) : s.create.data x = s.data x := by
  by_cases hx : x < s.length
  · exact data_append_lt hx _
  · rcases (not_lt.mp hx).eq_or_lt with rfl | hx
    · simp [create, data]
    · simp [create, data, List.getElem?_eq_none hx.le, List.getElem?_append_right hx.le,
        Nat.sub_ne_zero_of_lt hx]

theorem data_addR_lt (hx : x < s.length) : (s.addR a seq).data x = s.data x := by
  rw [addR, data_setPrev, data_setNext, data_append_lt hx]

theorem next_addR (hx : x < s.length) (hseq : seq < s.length) :
    (s.addR a seq).next x = if x = s.prev seq then s.length else s.next x := by
  rw [addR, next_setPrev, prev_append _ hseq]
  split
  · rename_i heq
    subst heq
    exact next_setNext_self (by simpa using hx.trans (Nat.lt_succ_self _)) _
  · rename_i hne
    rw [next_setNext_ne hne, next_append _ hx]

theorem prev_addR (hx : x < s.length) :
    (s.addR a seq).prev x = if x = seq then s.length else s.prev x := by
  rw [addR]
  split
  · rename_i heq
    subst heq
    exact prev_setPrev_self (by simpa using hx.trans (Nat.lt_succ_self _)) _
  · rename_i hne
    rw [prev_setPrev_ne hne, prev_setNext, prev_append _ hx]

theorem Ring.addR (h : Ring s seq l) : Ring (s.addR a seq) seq (l ++ [s.length]) := by
  have hseq : seq < s.length := h.within seq (by simp)
  obtain ⟨hlast, hmem⟩ := h.prev (x := seq) (by simp)
  have hnotin : ∀ x ∈ seq :: l, x ≠ s.length := fun x hx => (h.within x hx).ne
  have hsplit := h.chain
  rw [← List.cons_append, List.isChain_append] at hsplit
  obtain ⟨hchain, -, hends⟩ := hsplit
  refine ⟨?_, ?_, ?_⟩
  · rw [List.append_assoc, ← List.cons_append, List.isChain_append]
    refine ⟨hchain.imp_of_mem_tail_imp ?_, ?_, ?_⟩
    · -- A link between old elements is kept: only the last node and the header change.
      intro x y hx hy hfollows
      have hyseq : y ≠ seq := fun heq => (List.nodup_cons.mp h.nodup).1 (heq ▸ hy)
      have hxlast : x ≠ s.prev seq := by
        intro heq
        rw [heq] at hfollows
        exact hyseq (hfollows.1.symm.trans hlast.1)
      refine ⟨?_, ?_⟩
      · rw [next_addR (h.within x hx) hseq, if_neg hxlast, hfollows.1]
      · rw [prev_addR (h.within y (List.mem_cons_of_mem _ hy)), if_neg hyseq, hfollows.2]
    · refine List.isChain_pair.mpr ⟨?_, ?_⟩
      · have hne : s.length ≠ s.prev seq := (h.within _ hmem).ne'
        rw [Sequences.addR, next_setPrev, prev_append _ hseq, next_setNext_ne hne]
        simp [Sequences.next]
      · rw [prev_addR hseq, if_pos rfl]
    · intro x hx y hy
      have hxlast : x = s.prev seq := (hends x hx seq (by simp)).2.symm
      obtain rfl : s.length = y := by simpa using hy
      refine ⟨?_, ?_⟩
      · rw [hxlast, next_addR (h.within _ hmem) hseq, if_pos rfl]
      · rw [Sequences.addR, prev_setPrev_ne hseq.ne', prev_setNext, hxlast]
        simp [Sequences.prev]
  · rw [← List.cons_append]
    refine List.nodup_append'.mpr ⟨h.nodup, by simp, ?_⟩
    intro x hx hx'
    exact hnotin x hx (by simpa using hx')
  · intro x hx
    rw [length_addR]
    rcases List.mem_cons.mp hx with rfl | hx
    · exact hseq.trans (Nat.lt_succ_self _)
    · rcases List.mem_append.mp hx with hx | hx
      · exact (h.within x (List.mem_cons_of_mem _ hx)).trans (Nat.lt_succ_self _)
      · simp [List.mem_singleton.mp hx]

theorem Ring.addR_other (h : Ring s seq' l') (hring : Ring s seq l)
    (hdisj : ∀ x ∈ seq' :: l', x ∉ seq :: l) : Ring (s.addR a seq) seq' l' := by
  have hseq : seq < s.length := hring.within seq (by simp)
  refine h.congr (by simp) (fun x hx => ?_) fun x hx => ?_
  · have hne : x ≠ s.prev seq := fun heq =>
      hdisj x hx (heq ▸ (hring.prev (x := seq) (by simp)).2)
    rw [next_addR (h.within x hx) hseq, if_neg hne]
  · have hne : x ≠ seq := fun heq => hdisj x hx (by simp [heq])
    rw [prev_addR (h.within x hx), if_neg hne]

/-! ## Removing a node -/

/-- Unlinking the node spoils no ring: its neighbours still link to it, or they are linked to each
other already. -/
def Unlinks (s : Sequences α) (node : ℕ) : Prop :=
  (s.next (s.prev node) = node ∧ s.prev (s.next node) = node) ∨
    (s.next (s.prev node) = s.next node ∧ s.prev (s.next node) = s.prev node)

instance (s : Sequences α) (node : ℕ) : Decidable (s.Unlinks node) := by
  unfold Unlinks
  infer_instance

section Remove

variable {node : ℕ}

theorem length_remove (s : Sequences α) (node : ℕ) : (s.remove node).length = s.length := by
  unfold remove
  split <;> simp

theorem active_remove (s : Sequences α) (node x : ℕ) :
    (s.remove node).active x = (s.active x && x != node) := by
  unfold remove
  split
  · rw [active_setPrev, active_setNext, active, active, List.getElem?_modify]
    by_cases hx : node = x
    · cases s[x]? <;> simp [hx]
    · cases s[x]? <;> simp [hx, Ne.symm hx]
  · rename_i hactive
    by_cases hx : x = node
    · simp [hx, hactive]
    · simp [hx]

private theorem next_deactivate (s : Sequences α) (node x : ℕ) :
    Sequences.next (s.modify node fun link => { link with active := false }) x = s.next x := by
  unfold Sequences.next
  rw [List.getElem?_modify]
  cases s[x]? <;> by_cases h : node = x <;> simp [h]

private theorem prev_deactivate (s : Sequences α) (node x : ℕ) :
    Sequences.prev (s.modify node fun link => { link with active := false }) x = s.prev x := by
  unfold Sequences.prev
  rw [List.getElem?_modify]
  cases s[x]? <;> by_cases h : node = x <;> simp [h]

theorem next_remove (hactive : s.active node = true) (hx : x < s.length) :
    (s.remove node).next x = if x = s.prev node then s.next node else s.next x := by
  simp only [remove, hactive, if_true, next_setPrev, prev_deactivate, next_deactivate]
  split
  · rename_i heq
    subst heq
    exact next_setNext_self (by simpa using hx) _
  · rename_i hne
    rw [next_setNext_ne hne, next_deactivate]

theorem prev_remove (hactive : s.active node = true) (hx : x < s.length) :
    (s.remove node).prev x = if x = s.next node then s.prev node else s.prev x := by
  -- The assignment to the previous node leaves the successor of `node` as it was.
  have hkept : (setNext (s.modify node fun link => { link with active := false }) (s.prev node)
      (s.next node)).next node = s.next node := by
    by_cases hself : node = s.prev node
    · rw [← hself]
      by_cases hlt : node < s.length
      · exact next_setNext_self (by simpa using hlt) _
      · simp [Sequences.next, Sequences.setNext, hlt]
    · rw [next_setNext_ne hself, next_deactivate]
  simp only [remove, hactive, if_true, prev_setNext, prev_deactivate, next_deactivate, hkept]
  split
  · rename_i heq
    subst heq
    exact prev_setPrev_self (by simpa using hx) _
  · rename_i hne
    rw [prev_setPrev_ne hne, prev_setNext, prev_deactivate]

theorem Ring.remove {l₁ l₂ : List ℕ} (h : Ring s seq (l₁ ++ node :: l₂))
    (hactive : s.active node = true) : Ring (s.remove node) seq (l₁ ++ l₂) := by
  have hmem : node ∈ seq :: (l₁ ++ node :: l₂) := by simp
  obtain ⟨⟨hprev, -⟩, hprevmem⟩ := h.prev hmem
  obtain ⟨⟨-, hnext⟩, hnextmem⟩ := h.next hmem
  have hnodup : (seq :: (l₁ ++ l₂)).Nodup ∧ node ∉ seq :: (l₁ ++ l₂) := by
    have hperm : (seq :: (l₁ ++ node :: l₂)).Perm (node :: seq :: (l₁ ++ l₂)) :=
      (List.Perm.cons seq List.perm_middle).trans (List.Perm.swap node seq _)
    have hcons := List.nodup_cons.mp (hperm.nodup_iff.mp h.nodup)
    exact ⟨hcons.2, hcons.1⟩
  have hwithin : ∀ x ∈ seq :: (l₁ ++ l₂), x < s.length := fun x hx =>
    h.within x (by simp only [List.mem_cons, List.mem_append] at hx ⊢; tauto)
  -- A link that does not end in the node is kept.
  have hkeep : ∀ x y, x ∈ seq :: (l₁ ++ l₂) → y ∈ seq :: (l₁ ++ l₂) → s.Follows x y →
      (s.remove node).Follows x y := by
    intro x y hx hy hfollows
    have hxprev : x ≠ s.prev node := by
      intro heq
      rw [heq, Follows, hprev] at hfollows
      exact hnodup.2 (hfollows.1 ▸ hy)
    have hynext : y ≠ s.next node := by
      intro heq
      rw [heq, Follows, hnext] at hfollows
      exact hnodup.2 (hfollows.2 ▸ hx)
    exact ⟨by rw [next_remove hactive (hwithin x hx), if_neg hxprev, hfollows.1],
      by rw [prev_remove hactive (hwithin y hy), if_neg hynext, hfollows.2]⟩
  have hsplit := h.chain
  rw [List.append_assoc, ← List.cons_append, List.isChain_append] at hsplit
  obtain ⟨hleft, hright, hends⟩ := hsplit
  rw [List.cons_append, List.isChain_cons] at hright
  refine ⟨?_, hnodup.1, fun x hx => (length_remove s node).symm ▸ hwithin x hx⟩
  rw [List.append_assoc, ← List.cons_append, List.isChain_append]
  refine ⟨hleft.imp_of_mem_imp fun x y hx hy => ?_, hright.2.imp_of_mem_imp fun x y hx hy => ?_,
    fun x hx y hy => ?_⟩
  · refine hkeep x y ?_ ?_
    · simp only [List.mem_cons, List.mem_append] at hx ⊢
      tauto
    · simp only [List.mem_cons, List.mem_append] at hy ⊢
      tauto
  · refine hkeep x y ?_ ?_
    · simp only [List.mem_cons, List.mem_append, List.not_mem_nil] at hx ⊢
      tauto
    · simp only [List.mem_cons, List.mem_append, List.not_mem_nil] at hy ⊢
      tauto
  · -- The two neighbours of the node are linked to each other.
    have hxprev : x = s.prev node := (hends x hx node (by simp)).2.symm
    have hynext : y = s.next node := (hright.1 y hy).1.symm
    subst hxprev hynext
    exact ⟨by rw [next_remove hactive (h.within _ hprevmem), if_pos rfl],
      by rw [prev_remove hactive (h.within _ hnextmem), if_pos rfl]⟩

theorem Ring.remove_other (h : Ring s seq l) (hnode : node ∉ seq :: l)
    (hunlinks : s.active node = true → s.Unlinks node) : Ring (s.remove node) seq l := by
  by_cases hactive : s.active node = true
  · refine h.congr (length_remove s node).ge (fun x hx => ?_) fun x hx => ?_
    · rw [next_remove hactive (h.within x hx)]
      split
      · rename_i heq
        rcases hunlinks hactive with ⟨hback, -⟩ | ⟨hlinked, -⟩
        · exact absurd (hback ▸ heq ▸ (h.next hx).2) hnode
        · rw [heq, hlinked]
      · rfl
    · rw [prev_remove hactive (h.within x hx)]
      split
      · rename_i heq
        rcases hunlinks hactive with ⟨-, hback⟩ | ⟨-, hlinked⟩
        · exact absurd (hback ▸ heq ▸ (h.prev hx).2) hnode
        · rw [heq, hlinked]
      · rfl
  · simpa [Sequences.remove, hactive] using h

end Remove

/-! ## Emptying a sequence -/

@[simp] theorem length_clear (s : Sequences α) (seq : ℕ) : (s.clear seq).length = s.length := by
  simp [clear]

@[simp] theorem active_clear (s : Sequences α) (seq x : ℕ) :
    (s.clear seq).active x = s.active x := by
  simp [clear]

theorem Ring.clear (h : Ring s seq l) : Ring (s.clear seq) seq [] := by
  have hseq : seq < s.length := h.within seq (by simp)
  refine ring_nil (by simpa using hseq) ?_ ?_
  · exact next_setNext_self (by simpa using hseq) _
  · rw [Sequences.clear, prev_setNext]
    exact prev_setPrev_self hseq _

theorem Ring.clear_other (h : Ring s seq' l') (hseq : seq ∉ seq' :: l') :
    Ring (s.clear seq) seq' l' := by
  have hne : ∀ x ∈ seq' :: l', x ≠ seq := fun x hx heq => hseq (heq ▸ hx)
  refine h.congr (by simp) (fun x hx => ?_) fun x hx => ?_
  · rw [Sequences.clear, next_setNext_ne (hne x hx), next_setPrev]
  · rw [Sequences.clear, prev_setNext, prev_setPrev_ne (hne x hx)]

@[simp] theorem length_transferR (s : Sequences α) (s1 s2 : ℕ) :
    (s.transferR s1 s2).length = s.length := by
  simp [transferR]

@[simp] theorem active_transferR (s : Sequences α) (s1 s2 x : ℕ) :
    (s.transferR s1 s2).active x = s.active x := by
  simp [transferR]

theorem Ring.ends (h : Ring s seq l) (hl : l ≠ []) : s.next seq ∈ l ∧ s.prev seq ∈ l := by
  obtain ⟨⟨-, hnext⟩, hnextmem⟩ := h.next (x := seq) (by simp)
  obtain ⟨⟨hprev, -⟩, hprevmem⟩ := h.prev (x := seq) (by simp)
  have hempty : s.next seq ≠ seq := by
    intro heq
    exact hl (h.isEmpty_iff.mp (by simpa [isEmpty] using heq))
  refine ⟨(List.mem_cons.mp hnextmem).resolve_left hempty,
    (List.mem_cons.mp hprevmem).resolve_left fun heq => hempty ?_⟩
  rw [heq] at hprev
  exact hprev

section Transfer

variable {s1 s2 : ℕ} {l₂ : List ℕ}

theorem next_transferR (h1 : Ring s s1 l) (hl : l ≠ []) (h2 : Ring s s2 l₂)
    (hdisj : ∀ x ∈ s2 :: l₂, x ∉ s1 :: l) (hx : x < s.length) :
    (s.transferR s1 s2).next x =
      if x = s1 then s1 else if x = s.prev s1 then s2 else if x = s.prev s2 then s.next s1
      else s.next x := by
  obtain ⟨hfirst, hlast⟩ := h1.ends hl
  have hend : s.prev s2 ∉ s1 :: l := hdisj _ (h2.prev (x := s2) (by simp)).2
  have hs : s1 ≠ s2 := fun heq => hdisj s2 (by simp) (by simp [heq])
  have hend1 : s1 ≠ s.prev s2 := fun heq => hend (by simp [heq])
  have hfirst1 : s1 ≠ s.next s1 := fun heq => (List.nodup_cons.mp h1.nodup).1 (heq ▸ hfirst)
  have hkept : (s.setNext (s.prev s2) (s.next s1)).next s1 = s.next s1 := next_setNext_ne hend1 _
  simp only [transferR, hkept, prev_setNext, prev_setPrev_ne hs, prev_setPrev_ne hfirst1]
  split_ifs with hx1 hx2 hx3
  · subst hx1
    exact next_setNext_self (by simpa using hx) _
  · rw [next_setNext_ne hx1, next_setPrev, hx2]
    exact next_setNext_self (by simpa using hx2 ▸ hx) _
  · rw [next_setNext_ne hx1, next_setPrev, next_setNext_ne hx2, next_setPrev, next_setPrev, hx3]
    exact next_setNext_self (hx3 ▸ hx) _
  · rw [next_setNext_ne hx1, next_setPrev, next_setNext_ne hx2, next_setPrev, next_setPrev,
      next_setNext_ne hx3]

theorem prev_transferR (h1 : Ring s s1 l) (hl : l ≠ []) (h2 : Ring s s2 l₂)
    (hdisj : ∀ x ∈ s2 :: l₂, x ∉ s1 :: l) (hx : x < s.length) :
    (s.transferR s1 s2).prev x =
      if x = s1 then s1 else if x = s2 then s.prev s1 else if x = s.next s1 then s.prev s2
      else s.prev x := by
  obtain ⟨hfirst, hlast⟩ := h1.ends hl
  have hend : s.prev s2 ∉ s1 :: l := hdisj _ (h2.prev (x := s2) (by simp)).2
  have hs : s1 ≠ s2 := fun heq => hdisj s2 (by simp) (by simp [heq])
  have hend1 : s1 ≠ s.prev s2 := fun heq => hend (by simp [heq])
  have hfirst1 : s1 ≠ s.next s1 := fun heq => (List.nodup_cons.mp h1.nodup).1 (heq ▸ hfirst)
  have hkept : (s.setNext (s.prev s2) (s.next s1)).next s1 = s.next s1 := next_setNext_ne hend1 _
  simp only [transferR, hkept, prev_setNext, prev_setPrev_ne hs, prev_setPrev_ne hfirst1]
  split_ifs with hx1 hx2 hx3
  · subst hx1
    exact prev_setPrev_self (by simpa using hx) _
  · rw [prev_setPrev_ne hx1, prev_setNext, hx2]
    exact prev_setPrev_self (by simpa using hx2 ▸ hx) _
  · rw [prev_setPrev_ne hx1, prev_setNext, prev_setPrev_ne hx2, hx3]
    exact prev_setPrev_self (by simpa using hx3 ▸ hx) _
  · rw [prev_setPrev_ne hx1, prev_setNext, prev_setPrev_ne hx2, prev_setPrev_ne hx3, prev_setNext]

theorem Ring.transferR (h1 : Ring s s1 l) (hl : l ≠ []) (h2 : Ring s s2 l₂)
    (hdisj : ∀ x ∈ s2 :: l₂, x ∉ s1 :: l) : Ring (s.transferR s1 s2) s2 (l₂ ++ l) := by
  obtain ⟨hfirst, hlast⟩ := h1.ends hl
  have hs1 : s1 ∉ l := (List.nodup_cons.mp h1.nodup).1
  have hs2 : s2 ∉ l₂ := (List.nodup_cons.mp h2.nodup).1
  -- The nodes of `s1`, and the ring of `s2`.
  have hmem1 : ∀ x ∈ l, x < s.length ∧ x ≠ s1 ∧ x ∉ s2 :: l₂ := fun x hx =>
    ⟨h1.within x (List.mem_cons_of_mem _ hx), fun heq => hs1 (heq ▸ hx),
      fun hx2 => hdisj x hx2 (List.mem_cons_of_mem _ hx)⟩
  have hmem2 : ∀ x ∈ s2 :: l₂, x < s.length ∧ x ≠ s1 ∧ x ∉ l := fun x hx =>
    ⟨h2.within x hx, fun heq => hdisj x hx (by simp [heq]),
      fun hx1 => hdisj x hx (List.mem_cons_of_mem _ hx1)⟩
  obtain ⟨hend, hendmem⟩ := h2.prev (x := s2) (by simp)
  have hlast' := (h1.prev (x := s1) (by simp)).1.1
  have hfirst' := (h1.next (x := s1) (by simp)).1.2
  have hsplit1 := h1.chain
  rw [List.isChain_cons, List.isChain_append] at hsplit1
  obtain ⟨hhead, hchain1, -, hends1⟩ := hsplit1
  have hsplit2 := h2.chain
  rw [← List.cons_append, List.isChain_append] at hsplit2
  obtain ⟨hchain2, -, hends2⟩ := hsplit2
  refine ⟨?_, ?_, ?_⟩
  · rw [List.append_assoc, ← List.cons_append, List.isChain_append]
    refine ⟨hchain2.imp_of_mem_tail_imp fun x y hx hy hfollows => ?_, ?_, fun x hx y hy => ?_⟩
    · -- Inside of `s2` only the links of its last node and of the header change.
      obtain ⟨hxlt, hx1, hxl⟩ := hmem2 x hx
      obtain ⟨hylt, hy1, hyl⟩ := hmem2 y (List.mem_cons_of_mem _ hy)
      have hy2 : y ≠ s2 := fun heq => hs2 (heq ▸ hy)
      have hxlast : x ≠ s.prev s1 := fun heq => hxl (heq ▸ hlast)
      have hyfirst : y ≠ s.next s1 := fun heq => hyl (heq ▸ hfirst)
      have hxend : x ≠ s.prev s2 := by
        intro heq
        rw [heq] at hfollows
        exact hy2 (hfollows.1.symm.trans hend.1)
      refine ⟨?_, ?_⟩
      · rw [next_transferR h1 hl h2 hdisj hxlt, if_neg hx1, if_neg hxlast, if_neg hxend, hfollows.1]
      · rw [prev_transferR h1 hl h2 hdisj hylt, if_neg hy1, if_neg hy2, if_neg hyfirst, hfollows.2]
    · rw [List.isChain_append]
      refine ⟨hchain1.imp_of_mem_imp fun x y hx hy hfollows => ?_, List.isChain_singleton _,
        fun x hx y hy => ?_⟩
      · obtain ⟨hxlt, hx1, hx2⟩ := hmem1 x hx
        obtain ⟨hylt, hy1, hy2⟩ := hmem1 y hy
        have hxlast : x ≠ s.prev s1 := by
          intro heq
          rw [heq] at hfollows
          exact hy1 (hfollows.1.symm.trans hlast')
        have hyfirst : y ≠ s.next s1 := by
          intro heq
          rw [heq] at hfollows
          exact hx1 (hfollows.2.symm.trans hfirst')
        have hxend : x ≠ s.prev s2 := fun heq => hx2 (heq ▸ hendmem)
        have hys2 : y ≠ s2 := fun heq => hy2 (by simp [heq])
        refine ⟨?_, ?_⟩
        · rw [next_transferR h1 hl h2 hdisj hxlt, if_neg hx1, if_neg hxlast, if_neg hxend,
            hfollows.1]
        · rw [prev_transferR h1 hl h2 hdisj hylt, if_neg hy1, if_neg hys2, if_neg hyfirst,
            hfollows.2]
      · -- from the last node to the new header
        have hxlast : x = s.prev s1 := (hends1 x hx s1 (by simp)).2.symm
        obtain ⟨hxlt, hx1, -⟩ := hmem1 x (List.mem_of_getLast? hx)
        obtain rfl : s2 = y := by simpa using hy
        obtain ⟨hylt, hy1, -⟩ := hmem2 s2 (by simp)
        refine ⟨?_, ?_⟩
        · rw [next_transferR h1 hl h2 hdisj hxlt, if_neg hx1, if_pos hxlast]
        · rw [prev_transferR h1 hl h2 hdisj hylt, if_neg hy1, if_pos rfl, hxlast]
    · -- from the last node of `s2`, or its header, to the first node
      have hxend : x = s.prev s2 := (hends2 x hx s2 (by simp)).2.symm
      obtain ⟨z, l, rfl⟩ := List.exists_cons_of_ne_nil hl
      obtain rfl : z = y := by simpa using hy
      have hz : s.next s1 = z := (hhead z (by simp)).1
      obtain ⟨hzlt, hz1, hz2⟩ := hmem1 z (by simp)
      obtain ⟨hxlt, hx1, hxl⟩ := hmem2 x (hxend ▸ hendmem)
      have hxlast : x ≠ s.prev s1 := fun heq => hxl (heq ▸ hlast)
      have hzs2 : z ≠ s2 := fun heq => hz2 (by simp [heq])
      refine ⟨?_, ?_⟩
      · rw [next_transferR h1 hl h2 hdisj hxlt, if_neg hx1, if_neg hxlast, if_pos hxend, hz]
      · rw [prev_transferR h1 hl h2 hdisj hzlt, if_neg hz1, if_neg hzs2, if_pos hz.symm, hxend]
  · rw [← List.cons_append]
    exact List.nodup_append'.mpr ⟨h2.nodup, (List.nodup_cons.mp h1.nodup).2,
      fun x hx2 hx1 => (hmem2 x hx2).2.2 hx1⟩
  · intro x hx
    rw [length_transferR]
    rw [← List.cons_append] at hx
    rcases List.mem_append.mp hx with hx | hx
    · exact (hmem2 x hx).1
    · exact (hmem1 x hx).1

theorem Ring.transferR_self (h1 : Ring s s1 l) (hl : l ≠ []) (h2 : Ring s s2 l₂)
    (hdisj : ∀ x ∈ s2 :: l₂, x ∉ s1 :: l) : Ring (s.transferR s1 s2) s1 [] := by
  have hlt : s1 < s.length := h1.within s1 (by simp)
  refine ring_nil (by simpa using hlt) ?_ ?_
  · rw [next_transferR h1 hl h2 hdisj hlt, if_pos rfl]
  · rw [prev_transferR h1 hl h2 hdisj hlt, if_pos rfl]

theorem Ring.transferR_other (h : Ring s seq' l') (h1 : Ring s s1 l) (hl : l ≠ [])
    (h2 : Ring s s2 l₂) (hdisj : ∀ x ∈ s2 :: l₂, x ∉ s1 :: l)
    (hother : ∀ x ∈ seq' :: l', x ∉ s2 :: l₂ ∧ x ∉ s1 :: l) : Ring (s.transferR s1 s2) seq' l' := by
  obtain ⟨hfirst, hlast⟩ := h1.ends hl
  refine h.congr (by simp) (fun x hx => ?_) fun x hx => ?_
  all_goals
    obtain ⟨hx2, hx1⟩ := hother x hx
    have hxs1 : x ≠ s1 := fun heq => hx1 (by simp [heq])
  · have hxlast : x ≠ s.prev s1 := fun heq => hx1 (heq ▸ List.mem_cons_of_mem _ hlast)
    have hxend : x ≠ s.prev s2 := fun heq => hx2 (heq ▸ (h2.prev (x := s2) (by simp)).2)
    rw [next_transferR h1 hl h2 hdisj (h.within x hx), if_neg hxs1, if_neg hxlast, if_neg hxend]
  · have hxfirst : x ≠ s.next s1 := fun heq => hx1 (heq ▸ List.mem_cons_of_mem _ hfirst)
    have hxs2 : x ≠ s2 := fun heq => hx2 (by simp [heq])
    rw [prev_transferR h1 hl h2 hdisj (h.within x hx), if_neg hxs1, if_neg hxs2, if_neg hxfirst]

theorem links_transferR_nil (h1 : Ring s s1 []) (h2 : Ring s s2 l₂) (hs : s1 ∉ s2 :: l₂)
    (hx : x < s.length) :
    (s.transferR s1 s2).next x = s.next x ∧ (s.transferR s1 s2).prev x = s.prev x := by
  obtain ⟨hnext1, hprev1⟩ := List.isChain_pair.mp h1.chain
  obtain ⟨hend, hendmem⟩ := h2.prev (x := s2) (by simp)
  have hlt1 : s1 < s.length := h1.within s1 (by simp)
  have hend1 : s1 ≠ s.prev s2 := fun heq => hs (heq ▸ hendmem)
  have hne : s1 ≠ s2 := fun heq => hs (by simp [heq])
  have hkept : (s.setNext (s.prev s2) s1).next s1 = s1 := by rw [next_setNext_ne hend1, hnext1]
  have hprev2 : ((s.setNext (s.prev s2) s1).setPrev s1 (s.prev s2)).prev s1 = s.prev s2 :=
    prev_setPrev_self (by simpa using hlt1) _
  simp only [transferR, hnext1, hkept, prev_setNext, prev_setPrev_ne hne, hprev2]
  constructor
  · by_cases hx1 : x = s1
    · rw [hx1, hnext1]
      exact next_setNext_self (by simpa using hlt1) _
    · rw [next_setNext_ne hx1, next_setPrev]
      by_cases hxend : x = s.prev s2
      · rw [hxend, hend.1]
        exact next_setNext_self (by simpa using hxend ▸ hx) _
      · rw [next_setNext_ne hxend, next_setPrev, next_setPrev, next_setNext_ne hxend]
  · by_cases hx1 : x = s1
    · rw [hx1, hprev1]
      exact prev_setPrev_self (by simpa using hlt1) _
    · rw [prev_setPrev_ne hx1, prev_setNext]
      by_cases hx2 : x = s2
      · rw [hx2]
        exact prev_setPrev_self (by simpa using hx2 ▸ hx) _
      · rw [prev_setPrev_ne hx2, prev_setPrev_ne hx1, prev_setNext]

theorem Ring.transferR_nil (h : Ring s seq' l') (h1 : Ring s s1 []) (h2 : Ring s s2 l₂)
    (hs : s1 ∉ s2 :: l₂) : Ring (s.transferR s1 s2) seq' l' :=
  h.congr (by simp) (fun x hx => (links_transferR_nil h1 h2 hs (h.within x hx)).1)
    fun x hx => (links_transferR_nil h1 h2 hs (h.within x hx)).2

end Transfer

end Lwt.Sequences
