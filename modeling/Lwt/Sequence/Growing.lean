import Lwt.Sequence.Iter

/-!
# Iterating over a sequence while nodes are added

`add_r` may be called by the callback of an iteration, too.  The new node is linked from the last
one, but a node that has been removed keeps its link, to the header perhaps, so a loop that stands
on it passes over the new node.  It never passes over an active node that was there at the start.
-/

namespace Lwt.Sequences

variable {α : Type} {s s' : Sequences α} {seq seq' x y back : ℕ} {l l' start all done rest : List ℕ}
  {link link' : ℕ → ℕ} {active active' : ℕ → Bool} {a : α}

theorem subset_of_append_eq {skipped : List ℕ} (h : l ++ [seq] = skipped ++ x :: rest) :
    skipped ⊆ l := by
  rcases List.eq_nil_or_concat rest with rfl | ⟨rest, z, rfl⟩
  · rw [(List.append_inj' h rfl).1]
    exact fun _ => id
  · rw [List.concat_eq_append, ← List.cons_append, ← List.append_assoc] at h
    rw [(List.append_inj' h rfl).1]
    exact List.subset_append_left _ _

theorem eq_of_append_header {skipped : List ℕ} (hseq : seq ∉ l)
    (h : l ++ [seq] = skipped ++ seq :: rest) : skipped = l := by
  rcases List.eq_nil_or_concat rest with rfl | ⟨rest, z, rfl⟩
  · exact (List.append_inj' h rfl).1.symm
  · rw [List.concat_eq_append, ← List.cons_append, ← List.append_assoc] at h
    refine absurd ?_ hseq
    rw [(List.append_inj' h rfl).1]
    simp

theorem subset_of_cons_eq {l₁ l₂ : List ℕ} (h : seq :: l = l₁ ++ x :: l₂) : l₂ ⊆ l := by
  cases l₁ with
  | nil =>
    obtain ⟨-, rfl⟩ := List.cons.inj h
    exact fun _ => id
  | cons z l₁ =>
    obtain ⟨-, rfl⟩ := List.cons.inj h
    simp

theorem Skips.congr (h : Skips link active seq l) (hlink : ∀ x ∈ seq :: l, link' x = link x)
    (hactive : ∀ x ∈ l, active x = false → active' x = false) : Skips link' active' seq l := by
  intro l₁ x l₂ hl
  obtain ⟨skipped, rest, hrest, hskipped⟩ := h l₁ x l₂ hl
  refine ⟨skipped, rest, ?_, fun z hz => hactive z
    (subset_of_cons_eq hl (subset_of_append_eq hrest hz))
    (hskipped z hz)⟩
  rw [hrest, hlink x (by simp [hl])]

theorem Skips.append (h : Skips link active seq l) (hseq : seq ∉ l) (hback : link back = seq)
    (hlink : ∀ x ∈ seq :: l, link' x = if x = back then y else link x) (hy : link' y = seq)
    (hactive : ∀ x ∈ l, active x = false → active' x = false) (hnew : active' y = false) :
    Skips link' active' seq (l ++ [y]) := by
  intro l₁ x l₂ hl
  rcases List.eq_nil_or_concat l₂ with rfl | ⟨l₂, z, rfl⟩
  · rw [← List.cons_append] at hl
    obtain ⟨-, hx⟩ := List.append_inj' hl rfl
    obtain rfl : y = x := List.head_eq_of_cons_eq hx
    refine ⟨[], [], ?_, nofun⟩
    rw [hy]
  · rw [List.concat_eq_append, ← List.cons_append, ← List.cons_append, ← List.append_assoc] at hl
    obtain ⟨hsplit, hz⟩ := List.append_inj' hl rfl
    obtain rfl : y = z := List.head_eq_of_cons_eq hz
    obtain ⟨skipped, rest, hrest, hskipped⟩ := h l₁ x l₂ hsplit
    have hx : x ∈ seq :: l := by simp [hsplit]
    have hsub := subset_of_cons_eq hsplit
    have hskipped' : ∀ w ∈ skipped, active' w = false := fun w hw =>
      hactive w (hsub (subset_of_append_eq hrest hw)) (hskipped w hw)
    by_cases hheader : link x = seq
    · rw [hheader] at hrest
      obtain rfl := eq_of_append_header (fun hmem => hseq (hsub hmem)) hrest
      by_cases hxback : x = back
      · refine ⟨skipped, [seq], ?_, hskipped'⟩
        rw [hlink x hx, if_pos hxback, List.concat_eq_append, List.append_assoc]
        rfl
      · -- a node that was removed when it was the last one
        refine ⟨skipped ++ [y], [], ?_, fun w hw => ?_⟩
        · rw [hlink x hx, if_neg hxback, hheader, List.concat_eq_append]
        · rcases List.mem_append.mp hw with hw | hw
          · exact hskipped' w hw
          · rw [List.mem_singleton.mp hw]
            exact hnew
    · have hxback : x ≠ back := fun heq => hheader (heq ▸ hback)
      obtain ⟨l', -, rfl⟩ := exists_of_append_eq hrest hheader
      refine ⟨skipped, l' ++ [y] ++ [seq], ?_, hskipped'⟩
      rw [hlink x hx, if_neg hxback, List.concat_eq_append]
      simp

/-- The nodes of a sequence since an iteration has started: those that were there at the start, and
those that have been added. -/
structure Walk (s : Sequences α) (seq : ℕ) (start all : List ℕ) : Prop where
  start_prefix : start <+: all
  ring : s.Ring seq (all.filter s.active)
  nodup : (seq :: all).Nodup
  within : ∀ x ∈ seq :: all, x < s.length
  skips : Skips s.next (fun x => decide (x ∈ start) && s.active x) seq all

theorem Ring.walk (h : s.Ring seq l) (hactive : ∀ x ∈ l, s.active x = true) : s.Walk seq l l := by
  refine ⟨List.prefix_rfl, ?_, h.nodup, h.within, h.skips _⟩
  rwa [List.filter_eq_self.mpr hactive]

namespace Walk

variable (h : s.Walk seq start all)

include h

theorem congr (hlen : s.length ≤ s'.length) (hnext : ∀ x ∈ seq :: all, s'.next x = s.next x)
    (hactive : ∀ x ∈ all, s'.active x = s.active x) (hring : s'.Ring seq (all.filter s.active)) :
    s'.Walk seq start all := by
  refine ⟨h.start_prefix, ?_, h.nodup, fun x hx => (h.within x hx).trans_le hlen,
    h.skips.congr hnext fun x hx hfalse => ?_⟩
  · rwa [List.filter_congr hactive]
  · rwa [hactive x hx]

theorem remove {node : ℕ} (hnode : node ∈ all) (hactive : s.active node = true) :
    (s.remove node).Walk seq start all := by
  have hne : node ≠ seq := fun heq => (List.nodup_cons.mp h.nodup).1 (heq ▸ hnode)
  have hlive : node ∈ all.filter s.active := List.mem_filter.mpr ⟨hnode, hactive⟩
  obtain ⟨⟨hprev, -⟩, -⟩ := h.ring.prev (List.mem_cons_of_mem _ hlive)
  refine ⟨h.start_prefix, h.ring.remove_filter hnode hactive, h.nodup,
    fun x hx => (length_remove s node).symm ▸ h.within x hx, ?_⟩
  refine h.skips.unlink hne hprev (fun y hy => next_remove hactive (h.within y hy)) fun y => ?_
  rw [active_remove, Bool.and_assoc]

theorem addR : (s.addR a seq).Walk seq start (all ++ [s.length]) := by
  have hseq : seq < s.length := h.within seq (by simp)
  have hlt : ∀ x ∈ all, x < s.length := fun x hx => h.within x (List.mem_cons_of_mem _ hx)
  have hactive : ∀ x ∈ all, (s.addR a seq).active x = s.active x := fun x hx =>
    active_addR (hlt x hx)
  have hring := h.ring.addR (a := a)
  have hnext : (s.addR a seq).next s.length = seq := by
    have hhead : [seq].head? = some ((s.addR a seq).next s.length) := hring.head?_eq
    exact (Option.some.inj hhead).symm
  obtain ⟨⟨hlast, -⟩, -⟩ := h.ring.prev (x := seq) (by simp)
  refine ⟨h.start_prefix.trans (List.prefix_append _ _), ?_, ?_, ?_, ?_⟩
  · rw [List.filter_append, List.filter_congr hactive]
    simpa [active_addR_self] using hring
  · rw [← List.cons_append]
    refine List.nodup_append'.mpr ⟨h.nodup, List.nodup_singleton _, ?_⟩
    intro x hx hx'
    exact Nat.lt_irrefl _ (List.mem_singleton.mp hx' ▸ h.within x hx)
  · intro x hx
    rw [length_addR]
    rcases List.mem_cons.mp hx with rfl | hx
    · exact Nat.lt_succ_of_lt hseq
    · rcases List.mem_append.mp hx with hx | hx
      · exact Nat.lt_succ_of_lt (hlt x hx)
      · rw [List.mem_singleton.mp hx]
        exact Nat.lt_succ_self _
  · refine h.skips.append (List.nodup_cons.mp h.nodup).1 hlast
      (fun x hx => next_addR (h.within x hx) hseq) hnext (fun x hx hfalse => ?_) ?_
    · rwa [hactive x hx]
    · have hnot : s.length ∉ start := fun hmem =>
        Nat.lt_irrefl _ (hlt _ (h.start_prefix.subset hmem))
      simp [hnot]

theorem next (hall : all = done ++ x :: rest) :
    ∃ skipped rest', rest ++ [seq] = skipped ++ s.next x :: rest' ∧
      ∀ y ∈ skipped, y ∈ start → s.active y = false := by
  obtain ⟨skipped, rest', hrest, hskipped⟩ := h.skips (seq :: done) x rest (by rw [hall]; rfl)
  exact ⟨skipped, rest', hrest, fun y hy hstart => by simpa [hstart] using hskipped y hy⟩

theorem first : ∃ skipped rest', all ++ [seq] = skipped ++ s.next seq :: rest' ∧
    ∀ y ∈ skipped, y ∈ start → s.active y = false := by
  obtain ⟨skipped, rest', hrest, hskipped⟩ := h.skips [] seq all rfl
  exact ⟨skipped, rest', hrest, fun y hy hstart => by simpa [hstart] using hskipped y hy⟩

end Walk

/-! ## Among other sequences -/

/-- An iteration over one of the sequences that `s` holds. -/
structure Walked (s : Sequences α) (d : Deques α) (seq : ℕ) (start all : List ℕ) : Prop where
  walk : s.Walk seq start all
  list : d.lists seq = some (all.filter s.active)
  nodes : ∀ x ∈ all, s.data x ≠ none

namespace Walked

variable {d : Deques α} {node : ℕ}

theorem apart (h : Walked s d seq start all) (hrep : Represents s d) (hne : seq' ≠ seq)
    (hseq' : d.lists seq' = some l') : ∀ x ∈ seq :: all, x ∉ seq' :: l' := by
  intro x hx hx'
  rcases List.mem_cons.mp hx' with rfl | hx'
  · rcases List.mem_cons.mp hx with heq | hx
    · exact hne heq
    · exact h.nodes x hx ((hrep.header x).mp ⟨l', hseq'⟩).2
  · rcases List.mem_cons.mp hx with rfl | hx
    · exact hrep.header_notMem h.list hseq' hx'
    · have hactive : s.active x = true := (hrep.active x).mpr ⟨seq', l', hseq', hx'⟩
      exact hne (hrep.disjoint hseq' h.list hx' (List.mem_filter.mpr ⟨hx, hactive⟩))

theorem lt (h : Walked s d seq start all) : ∀ x ∈ all, x < s.length := fun x hx =>
  h.walk.within x (List.mem_cons_of_mem _ hx)

theorem create (h : Walked s d seq start all) (hrep : Represents s d) :
    Walked s.create { d with size := d.size + 1, lists := Function.update d.lists d.size (some []) }
      seq start all := by
  have hactive : ∀ x ∈ all, s.create.active x = s.active x := fun x hx =>
    active_create (h.lt x hx)
  have hseq : seq ≠ d.size := by
    rw [hrep.size]
    exact (h.walk.within seq (by simp)).ne
  have hlist : Function.update d.lists d.size (some []) seq = some (all.filter s.active) := by
    rw [Function.update_of_ne hseq]
    exact h.list
  refine ⟨h.walk.congr (by simp) (fun x hx => next_append _ (h.walk.within x hx)) hactive
    (hrep.create.ring hlist), ?_, fun x hx => ?_⟩
  · rw [List.filter_congr hactive]
    exact hlist
  · rw [data_create_eq]
    exact h.nodes x hx

theorem addR (h : Walked s d seq start all) (hrep : Represents s d) (a : α) :
    Walked (s.addR a seq)
      ⟨d.size + 1, Function.update d.lists seq (some (all.filter s.active ++ [d.size])),
        Function.update d.value d.size (some a)⟩ seq start (all ++ [s.length]) := by
  refine ⟨h.walk.addR, ?_, fun x hx => ?_⟩
  · change Function.update d.lists seq _ seq = _
    rw [Function.update_self, List.filter_append, hrep.size,
      List.filter_congr fun x hx => active_addR (h.lt x hx)]
    simp [active_addR_self]
  · rcases List.mem_append.mp hx with hx | hx
    · rw [data_addR_lt (h.lt x hx)]
      exact h.nodes x hx
    · rw [List.mem_singleton.mp hx, data_addR_self]
      simp

theorem addR_other (h : Walked s d seq start all) (hrep : Represents s d) (hne : seq' ≠ seq)
    (hseq' : d.lists seq' = some l') (a : α) :
    Walked (s.addR a seq')
      ⟨d.size + 1, Function.update d.lists seq' (some (l' ++ [d.size])),
        Function.update d.value d.size (some a)⟩ seq start all := by
  have hapart := h.apart hrep hne hseq'
  have hring := hrep.ring hseq'
  have hheader : seq' < s.length := hring.within seq' (by simp)
  have hactive : ∀ x ∈ all, (s.addR a seq').active x = s.active x := fun x hx =>
    active_addR (h.lt x hx)
  have hlist : Function.update d.lists seq' (some (l' ++ [d.size])) seq =
      some (all.filter s.active) := by
    rw [Function.update_of_ne hne.symm]
    exact h.list
  refine ⟨h.walk.congr (by simp) (fun x hx => ?_) hactive ((hrep.addR hseq').ring hlist), ?_,
    fun x hx => ?_⟩
  · have hlast : x ≠ s.prev seq' := fun heq =>
      hapart x hx (heq ▸ (hring.prev (x := seq') (by simp)).2)
    rw [next_addR (h.walk.within x hx) hheader, if_neg hlast]
  · rw [List.filter_congr hactive]
    exact hlist
  · rw [data_addR_lt (h.lt x hx)]
    exact h.nodes x hx

theorem remove (h : Walked s d seq start all) (hrep : Represents s d)
    (hseq' : d.lists seq' = some l') (hnode : node ∈ l') :
    Walked (s.remove node) (d.remove node) seq start all := by
  have hactive : s.active node = true := (hrep.active node).mpr ⟨seq', l', hseq', hnode⟩
  have hnodup : (all.filter s.active).Nodup := (List.nodup_cons.mp h.walk.ring.nodup).2
  have hlist : (d.remove node).lists seq = some (all.filter (s.remove node).active) := by
    change (d.lists seq).map _ = _
    rw [h.list, Option.map_some, hnodup.erase_eq_filter, List.filter_filter]
    congr 1
    refine List.filter_congr fun x _ => ?_
    rw [active_remove, Bool.and_comm]
  refine ⟨?_, hlist, fun x hx => ?_⟩
  · by_cases hne : seq' = seq
    · subst hne
      cases h.list.symm.trans hseq'
      exact h.walk.remove (List.mem_of_mem_filter hnode) hactive
    · have hapart := h.apart hrep hne hseq'
      have hring := hrep.ring hseq'
      have hkeep : ∀ x ∈ all, (s.remove node).active x = s.active x := by
        intro x hx
        have hx' : x ≠ node := fun heq =>
          hapart x (List.mem_cons_of_mem _ hx) (List.mem_cons_of_mem _ (heq ▸ hnode))
        rw [active_remove]
        simp [hx']
      refine h.walk.congr (length_remove s node).ge (fun x hx => ?_) hkeep ?_
      · have hprev : x ≠ s.prev node := fun heq =>
          hapart x hx (heq ▸ (hring.prev (List.mem_cons_of_mem _ hnode)).2)
        rw [next_remove hactive (h.walk.within x hx), if_neg hprev]
      · rw [List.filter_congr hkeep] at hlist
        exact (hrep.remove node).ring hlist
  · rw [data_remove]
    exact h.nodes x hx

end Walked

/-! ## An iteration that removes the nodes -/

/-- An iteration each of whose turns removes its node, if it is still there, and then calls a
function: the nodes of the start that it has passed are removed.  `called` tells that the function
has been called for `curr`. -/
structure Passes (s : Sequences α) (d : Deques α) (seq : ℕ) (start all : List ℕ) (curr : ℕ)
    (called : Bool) : Prop where
  walked : Walked s d seq start all
  cursor : ∃ done rest,
    (if called then all = done ++ curr :: rest else all ++ [seq] = done ++ curr :: rest) ∧
    (∀ x ∈ done, x ∈ start → s.active x = false) ∧ (called = true → s.active curr = false)

namespace Passes

variable {d : Deques α} {curr node : ℕ} {called : Bool}

theorem starts (hrep : Represents s d) (hlist : d.lists seq = some l) :
    Passes s d seq l l (s.next seq) false := by
  have hactive : ∀ x ∈ l, s.active x = true := fun x hx =>
    (hrep.active x).mpr ⟨seq, l, hlist, hx⟩
  have hwalk := (hrep.ring hlist).walk hactive
  obtain ⟨skipped, rest, hl, hskipped⟩ := hwalk.first
  refine ⟨⟨hwalk, ?_, fun x hx => hrep.node hlist hx⟩, skipped, rest, ?_, hskipped, nofun⟩
  · rw [hlist, List.filter_eq_self.mpr hactive]
  · rw [if_neg (by simp)]
    exact hl

theorem at_node (h : Passes s d seq start all curr false) (hcurr : curr ≠ seq) :
    ∃ done rest, all = done ++ curr :: rest ∧ ∀ x ∈ done, x ∈ start → s.active x = false := by
  obtain ⟨done, rest, hall, hdone, -⟩ := h.cursor
  rw [if_neg (by simp)] at hall
  obtain ⟨rest', -, hall⟩ := exists_of_append_eq hall hcurr
  exact ⟨done, rest', hall, hdone⟩

theorem call (h : Passes s d seq start all curr false) (hcurr : curr ≠ seq)
    (hactive : s.active curr = false) : Passes s d seq start all curr true := by
  obtain ⟨done, rest, hall, hdone⟩ := h.at_node hcurr
  exact ⟨h.walked, done, rest, by rwa [if_pos rfl], hdone, fun _ => hactive⟩

theorem next (h : Passes s d seq start all curr true) :
    Passes s d seq start all (s.next curr) false := by
  obtain ⟨done, rest, hall, hdone, hactive⟩ := h.cursor
  rw [if_pos rfl] at hall
  obtain ⟨skipped, rest', hrest, hskipped⟩ := h.walked.walk.next hall
  refine ⟨h.walked, done ++ [curr] ++ skipped, rest', ?_, fun x hx hstart => ?_, nofun⟩
  · rw [if_neg (by simp), hall, List.append_assoc, List.cons_append, hrest]
    simp
  · rcases List.mem_append.mp hx with hx | hx
    · rcases List.mem_append.mp hx with hx | hx
      · exact hdone x hx hstart
      · rw [List.mem_singleton.mp hx]
        exact hactive rfl
    · exact hskipped x hx hstart

theorem shrinks (h : Passes s d seq start all curr true) :
    (all ++ [seq]).idxOf curr < (all ++ [seq]).idxOf (s.next curr) := by
  obtain ⟨done, rest, hall, -⟩ := h.cursor
  rw [if_pos rfl] at hall
  obtain ⟨skipped, rest', hrest, -⟩ := h.walked.walk.next hall
  have hsplit : all ++ [seq] = done ++ curr :: (skipped ++ s.next curr :: rest') := by
    rw [← hrest, hall, List.append_assoc, List.cons_append]
  have hnodup : (all ++ [seq]).Nodup :=
    List.perm_append_singleton seq all |>.nodup_iff.mpr h.walked.walk.nodup
  rw [hsplit] at hnodup ⊢
  have hdone : curr ∉ done := fun hmem =>
    (List.disjoint_of_nodup_append hnodup) hmem (List.mem_cons_self ..)
  have hnext : s.next curr ∉ done ++ curr :: skipped := by
    rw [← List.cons_append, ← List.append_assoc] at hnodup
    exact fun hmem => (List.disjoint_of_nodup_append hnodup) hmem (List.mem_cons_self ..)
  have hcurr : (done ++ curr :: (skipped ++ s.next curr :: rest')).idxOf curr = done.length := by
    rw [List.idxOf_append_of_notMem hdone, List.idxOf_cons_self, Nat.add_zero]
  rw [hcurr, ← List.cons_append, ← List.append_assoc, List.idxOf_append_of_notMem hnext,
    List.idxOf_cons_self, List.length_append, List.length_cons]
  omega

theorem finished (h : Passes s d seq start all seq false) : ∀ x ∈ start, s.active x = false := by
  obtain ⟨done, rest, hall, hdone, -⟩ := h.cursor
  rw [if_neg (by simp)] at hall
  obtain rfl := eq_of_append_header (List.nodup_cons.mp h.walked.walk.nodup).1 hall
  exact fun x hx => hdone x (h.walked.walk.start_prefix.subset hx) hx

theorem remove (h : Passes s d seq start all curr called) (hrep : Represents s d)
    (hseq' : d.lists seq' = some l') (hnode : node ∈ l') :
    Passes (s.remove node) (d.remove node) seq start all curr called := by
  obtain ⟨done, rest, hall, hdone, hactive⟩ := h.cursor
  refine ⟨h.walked.remove hrep hseq' hnode, done, rest, hall, fun x hx hstart => ?_,
    fun hcalled => ?_⟩
  · rw [active_remove, hdone x hx hstart, Bool.false_and]
  · rw [active_remove, hactive hcalled, Bool.false_and]

theorem addR (h : Passes s d seq start all curr called) (hrep : Represents s d) (a : α) :
    Passes (s.addR a seq)
      ⟨d.size + 1, Function.update d.lists seq (some (all.filter s.active ++ [d.size])),
        Function.update d.value d.size (some a)⟩ seq start (all ++ [s.length]) curr called := by
  obtain ⟨done, rest, hall, hdone, hactive⟩ := h.cursor
  have hnew : s.length ∉ start := fun hmem =>
    Nat.lt_irrefl _ (h.walked.lt _ (h.walked.walk.start_prefix.subset hmem))
  have hkeep : ∀ x ∈ all, s.active x = false → (s.addR a seq).active x = false := fun x hx hx' => by
    rwa [active_addR (h.walked.lt x hx)]
  cases called with
  | true =>
    rw [if_pos rfl] at hall
    refine ⟨h.walked.addR hrep a, done, rest ++ [s.length], ?_, fun x hx hstart =>
      ?_, fun _ => ?_⟩
    · rw [if_pos rfl, hall, List.append_assoc, List.cons_append]
    · exact hkeep x (by simp [hall, hx]) (hdone x hx hstart)
    · exact hkeep curr (by simp [hall]) (hactive rfl)
  | false =>
    rw [if_neg (by simp)] at hall
    by_cases hcurr : curr = seq
    · subst hcurr
      obtain rfl := eq_of_append_header (List.nodup_cons.mp h.walked.walk.nodup).1 hall
      refine ⟨h.walked.addR hrep a, done ++ [s.length], [], by simp, fun x hx hstart => ?_, nofun⟩
      rcases List.mem_append.mp hx with hx | hx
      · exact hkeep x hx (hdone x hx hstart)
      · exact absurd (List.mem_singleton.mp hx ▸ hstart) hnew
    · obtain ⟨rest', -, hall⟩ := exists_of_append_eq hall hcurr
      refine ⟨h.walked.addR hrep a, done, rest' ++ [s.length, seq], ?_,
        fun x hx hstart => ?_, nofun⟩
      · rw [if_neg (by simp), hall]
        simp
      · exact hkeep x (by simp [hall, hx]) (hdone x hx hstart)

theorem addR_other (h : Passes s d seq start all curr called) (hrep : Represents s d)
    (hne : seq' ≠ seq) (hseq' : d.lists seq' = some l') (a : α) :
    Passes (s.addR a seq')
      ⟨d.size + 1, Function.update d.lists seq' (some (l' ++ [d.size])),
        Function.update d.value d.size (some a)⟩ seq start all curr called := by
  obtain ⟨done, rest, hall, hdone, hactive⟩ := h.cursor
  have hkeep : ∀ x ∈ all, s.active x = false → (s.addR a seq').active x = false :=
    fun x hx hx' => by
    rwa [active_addR (h.walked.lt x hx)]
  have hmem : ∀ x, x ∈ done → x ∈ start → x ∈ all := fun x _ hstart =>
    h.walked.walk.start_prefix.subset hstart
  refine ⟨h.walked.addR_other hrep hne hseq' a, done, rest, hall, fun x hx hstart => ?_,
    fun hcalled => ?_⟩
  · exact hkeep x (hmem x hx hstart) (hdone x hx hstart)
  · subst hcalled
    rw [if_pos rfl] at hall
    exact hkeep curr (by simp [hall]) (hactive rfl)

end Passes

end Lwt.Sequences
