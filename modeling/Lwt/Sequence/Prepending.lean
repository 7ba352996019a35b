import Lwt.Sequence.Deque

/-!
# Iterating over a sequence while nodes are added on the left

A loop that goes from the left to the right does not come to the nodes that `add_l` adds in the
meantime.  It comes to all the others that are not removed before: from the node it stands on, which
may have been removed, the links lead over removed nodes to the first of them.
-/

namespace Lwt.Sequences

variable {α : Type} {s s' : Sequences α} {seq x node : ℕ} {l left rest : List ℕ} {a : α}

/-! ## `add_l` -/

theorem Ring.addL (h : s.Ring seq l) : (s.addL a seq).Ring seq (s.length :: l) := by
  have hring := h.mirror.addR (a := a) |>.mirror
  rw [← addL_eq, length_mirror, List.reverse_append, List.reverse_reverse] at hring
  exact hring

@[simp] theorem length_addL (s : Sequences α) (a : α) (seq : ℕ) :
    (s.addL a seq).length = s.length + 1 := by
  rw [addL_eq, length_mirror, length_addR, length_mirror]

theorem active_addL (hx : x < s.length) : (s.addL a seq).active x = s.active x := by
  rw [addL_eq, active_mirror, active_addR (by simpa using hx), active_mirror]

theorem active_addL_self (s : Sequences α) (a : α) (seq : ℕ) :
    (s.addL a seq).active s.length = true := by
  have hself := active_addR_self s.mirror a seq
  rwa [length_mirror, ← active_mirror, ← addL_eq] at hself

theorem data_addL_lt (hx : x < s.length) : (s.addL a seq).data x = s.data x := by
  rw [addL_eq, data_mirror, data_addR_lt (by simpa using hx), data_mirror]

theorem data_addL_self (s : Sequences α) (a : α) (seq : ℕ) :
    (s.addL a seq).data s.length = some a := by
  have hself := data_addR_self s.mirror a seq
  rwa [length_mirror, ← data_mirror, ← addL_eq] at hself

theorem next_addL (hx : x < s.length) (hne : x ≠ seq) : (s.addL a seq).next x = s.next x := by
  rw [addL_eq, next_mirror, prev_addR (by simpa using hx), if_neg hne, prev_mirror]

theorem Ring.remove_erase (h : s.Ring seq l) (hnode : node ∈ l) (hactive : s.active node = true) :
    (s.remove node).Ring seq (l.erase node) := by
  obtain ⟨l₁, l₂, rfl⟩ := List.append_of_mem hnode
  have hnodup := List.nodup_middle.mp (List.nodup_cons.mp h.nodup).2
  have hnotin : node ∉ l₁ := fun hmem => hnodup.notMem (List.mem_append_left _ hmem)
  rw [List.erase_append_right _ hnotin, List.erase_cons_head]
  exact h.remove hactive

/-! ## What a loop comes to -/

/-- From `x`, the links lead over removed nodes to the first of `rest`, or to the header. -/
inductive Leads (s : Sequences α) (seq : ℕ) (rest : List ℕ) : ℕ → Prop
  | here {x : ℕ} (hnext : (rest ++ [seq]).head? = some (s.next x)) : Leads s seq rest x
  | skip {x : ℕ} (hactive : s.active (s.next x) = false) (hne : s.next x ≠ seq)
      (hlt : s.next x < s.length) (hdata : s.data (s.next x) ≠ none)
      (h : Leads s seq rest (s.next x)) : Leads s seq rest x

namespace Leads

theorem start (h : s.Ring seq l) : Leads s seq l seq := .here h.head?_self

/-- A loop that is not at its end goes to the next node, which has been removed or is the first of
those it has still to come to. -/
theorem next (h : Leads s seq rest x) (hne : s.next x ≠ seq) :
    (s.active (s.next x) = false ∧ s.next x < s.length ∧ s.data (s.next x) ≠ none ∧
        Leads s seq rest (s.next x)) ∨
      ∃ rest', rest = s.next x :: rest' := by
  cases h with
  | here hnext =>
    cases rest with
    | nil => exact absurd (Option.some.inj hnext).symm hne
    | cons y rest' => exact .inr ⟨rest', by rw [← Option.some.inj hnext]⟩
  | skip hactive _ hlt hdata h => exact .inl ⟨hactive, hlt, hdata, h⟩

theorem nil_of_end (h : Leads s seq rest x) (hring : s.Ring seq (left ++ rest))
    (hend : s.next x = seq) : rest = [] := by
  cases h with
  | here hnext =>
    cases rest with
    | nil => rfl
    | cons y rest' =>
      have hy : y = seq := (Option.some.inj hnext).trans hend
      have hnodup := (List.nodup_cons.mp hring.nodup).1
      exact absurd (by simp [hy]) hnodup
  | skip _ hne => exact absurd hend hne

theorem step (hring : s.Ring seq (left ++ x :: rest)) : Leads s seq rest x :=
  .here hring.head?_eq

theorem congr (h : Leads s seq rest x) (hlen : s.length ≤ s'.length)
    (hnext : s'.next x = s.next x)
    (hkeep : ∀ y, y ≠ seq → y < s.length → s.active y = false → s.data y ≠ none →
      s'.next y = s.next y ∧ s'.active y = false ∧ s'.data y ≠ none) : Leads s' seq rest x := by
  induction h with
  | here hhead => exact .here (by rw [hnext]; exact hhead)
  | @skip x hactive hne hlt hdata h ih =>
    obtain ⟨hnext', hactive', hdata'⟩ := hkeep _ hne hlt hactive hdata
    refine .skip ?_ ?_ ?_ ?_ ?_
    · rw [hnext, hactive']
    · rwa [hnext]
    · rw [hnext]
      exact hlt.trans_le hlen
    · rwa [hnext]
    · rw [hnext]
      exact ih hnext'

theorem remove (h : Leads s seq rest x) (hring : s.Ring seq (left ++ rest))
    (hmem : node ∈ left ++ rest) (hnode : s.active node = true) (hdata : s.data node ≠ none)
    (hx : x < s.length) (hxseq : x ≠ seq) : Leads (s.remove node) seq (rest.erase node) x := by
  have hnodeseq : node ≠ seq := by
    rintro rfl
    exact (List.nodup_cons.mp hring.nodup).1 hmem
  have hmem' : node ∈ seq :: (left ++ rest) := List.mem_cons_of_mem _ hmem
  obtain ⟨⟨hprev, -⟩, -⟩ := hring.prev hmem'
  induction h with
  | @here x hnext =>
    -- the cursor stands before the removed node, or its next node is another one
    by_cases hfirst : s.next x = node
    · obtain ⟨rest', rfl⟩ : ∃ rest', rest = node :: rest' := by
        cases rest with
        | nil => exact absurd (hfirst.symm.trans (Option.some.inj hnext).symm) hnodeseq
        | cons y rest' => exact ⟨rest', by rw [← hfirst, ← Option.some.inj hnext]⟩
      have hself : node ≠ s.prev node := by
        intro heq
        obtain ⟨⟨-, hback⟩, -⟩ := hring.next hmem'
        have hloop : s.next node = node := (congrArg s.next heq).trans hprev
        have hhead := hring.head?_eq
        rw [hloop] at hhead
        cases rest' with
        | nil => exact hnodeseq (Option.some.inj hhead).symm
        | cons y rest'' =>
          have hy : y = node := Option.some.inj hhead
          have hnodup := (List.nodup_cons.mp hring.nodup).2
          rw [hy] at hnodup
          exact absurd (List.nodup_append.mp hnodup).2.1 (by simp)
      have hnodelt : node < s.length := hring.within node hmem'
      rw [List.erase_cons_head]
      -- linked as its predecessor, the cursor is repaired; else it skips the node
      by_cases hxprev : x = s.prev node
      · refine .here ?_
        rw [next_remove hnode hx, if_pos hxprev]
        exact hring.head?_eq
      · have hnext' : (s.remove node).next x = node := by
          rw [next_remove hnode hx, if_neg hxprev, hfirst]
        have hgone : (s.remove node).active node = false := by
          rw [active_remove]
          simp
        refine .skip (by rw [hnext', hgone]) (by rwa [hnext']) (by rwa [hnext', length_remove])
          (by rwa [hnext', data_remove]) ?_
        rw [hnext']
        refine .here ?_
        rw [next_remove hnode hnodelt, if_neg hself]
        exact hring.head?_eq
    · have hxprev : x ≠ s.prev node := by
        rintro rfl
        exact hfirst hprev
      refine .here ?_
      rw [next_remove hnode hx, if_neg hxprev]
      cases rest with
      | nil => exact hnext
      | cons y rest' =>
        have hy : y ≠ node := fun heq => hfirst ((Option.some.inj hnext).symm.trans heq)
        rw [List.erase_cons_tail (by simpa using hy)]
        exact hnext
  | @skip x hactive hne hlt hskipped h ih =>
    -- the cursor is not active, so that it is not the predecessor
    have hxprev : x ≠ s.prev node := by
      rintro rfl
      rw [hprev, hnode] at hactive
      cases hactive
    have hnext' : (s.remove node).next x = s.next x := by
      rw [next_remove hnode hx, if_neg hxprev]
    refine .skip ?_ (by rwa [hnext']) (by rwa [hnext', length_remove])
      (by rwa [hnext', data_remove]) ?_
    · rw [hnext', active_remove, hactive, Bool.false_and]
    · rw [hnext']
      exact ih hlt hne

theorem addL (h : Leads s seq rest x) (hx : x < s.length) (hxseq : x ≠ seq) :
    Leads (s.addL a seq) seq rest x :=
  h.congr (by simp) (next_addL hx hxseq) fun _ hyseq hy hactive hdata =>
    ⟨next_addL hy hyseq, (active_addL hy).trans hactive, by rwa [data_addL_lt hy]⟩

/-! ## Among other sequences -/

variable {d : Deques α} {seq' : ℕ} {l' : List ℕ}

theorem remove_other (h : Leads s seq rest x) (hrep : Represents s d)
    (hseq' : d.lists seq' = some l') (hnode : node ∈ l') (hx : x < s.length)
    (hxl : x ∉ seq' :: l') : Leads (s.remove node) seq rest x := by
  have hactive : s.active node = true := (hrep.active node).mpr ⟨seq', l', hseq', hnode⟩
  obtain ⟨-, hprev⟩ := (hrep.ring hseq').prev (List.mem_cons_of_mem _ hnode)
  have hnext : ∀ y, y < s.length → y ∉ seq' :: l' → (s.remove node).next y = s.next y := by
    intro y hy hyl
    rw [next_remove hactive hy, if_neg fun heq => hyl (by rwa [heq])]
  refine h.congr (length_remove s node).ge (hnext x hx hxl) fun y _ hy hyactive hdata => ?_
  have hyl : y ∉ seq' :: l' := by
    intro hmem
    rcases List.mem_cons.mp hmem with rfl | hmem
    · exact hdata ((hrep.header y).mp ⟨l', hseq'⟩).2
    · rw [(hrep.active y).mpr ⟨seq', l', hseq', hmem⟩] at hyactive
      cases hyactive
  refine ⟨hnext y hy hyl, ?_, by rwa [data_remove]⟩
  rw [active_remove, hyactive, Bool.false_and]

theorem addL_other (h : Leads s seq rest x) (hrep : Represents s d) (hseq' : d.lists seq' = some l')
    (hx : x < s.length) (hxseq : x ≠ seq') : Leads (s.addL a seq') seq rest x := by
  refine h.congr (by simp) (next_addL hx hxseq) fun y _ hy hactive hdata => ?_
  have hyseq : y ≠ seq' := by
    rintro rfl
    exact hdata ((hrep.header y).mp ⟨l', hseq'⟩).2
  exact ⟨next_addL hy hyseq, (active_addL hy).trans hactive, by rwa [data_addL_lt hy]⟩

theorem create (h : Leads s seq rest x) (hx : x < s.length) : Leads s.create seq rest x :=
  h.congr (by simp) (next_append _ hx) fun _ _ hy hactive hdata =>
    ⟨next_append _ hy, (active_create hy).trans hactive, by rwa [data_create_eq]⟩

end Leads

end Lwt.Sequences
