import Mathlib.Data.List.Sort

/-!
# Queues of tickets

Calls are numbered in the order they are made, and a table gives the state each call is
in.  Some calls wait in a queue.  `Queued` says that the queue is in the order of the
calls, that it holds only calls whose state is `linked`, and that every call whose state
`waits` is in it.  A call can be in the queue without waiting any more, when it has been
called off and is yet to be taken out.
-/

namespace Tickets

variable {σ : Type*} {linked waits : σ → Prop} {table : List σ} {queue rest : List ℕ} {n : ℕ}
  {st t : σ}

structure Queued (linked waits : σ → Prop) (table : List σ) (queue : List ℕ) : Prop where
  sorted : queue.Pairwise (· < ·)
  linked : ∀ n ∈ queue, ∃ st, table[n]? = some st ∧ linked st
  waits : ∀ (n : ℕ) st, table[n]? = some st → waits st → n ∈ queue

theorem getElem?_set_cases {m : ℕ} (h : (table.set m st)[n]? = some t) :
    n = m ∧ t = st ∨ n ≠ m ∧ table[n]? = some t := by
  by_cases hn : n = m
  · subst hn
    rw [List.getElem?_set_self'] at h
    cases htable : table[n]? with
    | none => simp [htable] at h
    | some old =>
      rw [htable] at h
      exact .inl ⟨rfl, by simpa using h.symm⟩
  · rw [List.getElem?_set_ne (Ne.symm hn)] at h
    exact .inr ⟨hn, h⟩

theorem getElem?_set_iff {x : σ} (hn : table[n]? = some st) (hst : st ≠ x) (hst' : t ≠ x)
    (k : ℕ) : (table.set n t)[k]? = some x ↔ table[k]? = some x := by
  by_cases hk : n = k
  · subst hk
    rw [List.getElem?_set_self (List.getElem?_eq_some_iff.mp hn).1, hn]
    simp [hst, hst']
  · rw [List.getElem?_set_ne hk]

theorem getElem?_append_cases (h : (table ++ [st])[n]? = some t) :
    table[n]? = some t ∨ n = table.length ∧ t = st := by
  rcases Nat.lt_trichotomy n table.length with hlt | rfl | hgt
  · rw [List.getElem?_append_left hlt] at h
    exact .inl h
  · exact .inr ⟨rfl, by simpa using h.symm⟩
  · rw [List.getElem?_eq_none (by simp; omega)] at h
    simp at h

/-- The call `n` has been made, and its state is one with `p`. -/
def holds (p : σ → Bool) (table : List σ) (n : ℕ) : Bool := table[n]?.any p

section holds

variable {p : σ → Bool} {m : ℕ}

theorem holds_of_getElem? (hn : table[n]? = some st) : holds p table n = p st := by
  simp [holds, hn]

theorem getElem?_of_holds (h : holds p table n = true) :
    ∃ st, table[n]? = some st ∧ p st = true := by
  simpa [holds, Option.any_eq_true] using h

theorem holds_set_of_ne (hm : m ≠ n) : holds p (table.set n st) m = holds p table m := by
  simp [holds, List.getElem?_set_ne (Ne.symm hm)]

theorem holds_set_self (hn : n < table.length) : holds p (table.set n st) n = p st := by
  simp [holds, hn]

theorem holds_set_of_eq (hn : table[n]? = some st) (h : p t = p st) :
    holds p (table.set n t) m = holds p table m := by
  by_cases hm : m = n
  · subst hm
    rw [holds_set_self (List.getElem?_eq_some_iff.mp hn).1, holds_of_getElem? hn, h]
  · exact holds_set_of_ne hm

theorem holds_append (hn : n < table.length) : holds p (table ++ [st]) n = holds p table n := by
  simp [holds, List.getElem?_append_left hn]

end holds

namespace Queued

theorem empty (linked waits : σ → Prop) : Queued linked waits [] [] :=
  ⟨.nil, by simp, by simp⟩

theorem lt_length (hq : Queued linked waits table queue) (hn : n ∈ queue) : n < table.length := by
  obtain ⟨st, hst, -⟩ := hq.linked n hn
  exact (List.getElem?_eq_some_iff.mp hst).1

theorem enqueue (hq : Queued linked waits table queue) (hst : linked st) :
    Queued linked waits (table ++ [st]) (queue ++ [table.length]) where
  sorted := by
    rw [List.pairwise_append]
    refine ⟨hq.sorted, by simp, fun m hm k hk => ?_⟩
    obtain rfl : k = table.length := by simpa using hk
    exact hq.lt_length hm
  linked m hm := by
    rcases List.mem_append.mp hm with hm | hm
    · obtain ⟨t, hst', hlinked⟩ := hq.linked m hm
      exact ⟨t, by rw [List.getElem?_append_left (hq.lt_length hm)]; exact hst', hlinked⟩
    · obtain rfl : m = table.length := by simpa using hm
      exact ⟨st, by simp, hst⟩
  waits m t hm hwaits := by
    rcases getElem?_append_cases hm with hm | ⟨rfl, -⟩
    · exact List.mem_append_left _ (hq.waits m t hm hwaits)
    · simp

theorem append (hq : Queued linked waits table queue) (hst : ¬ waits st) :
    Queued linked waits (table ++ [st]) queue where
  sorted := hq.sorted
  linked m hm := by
    obtain ⟨t, hst', hlinked⟩ := hq.linked m hm
    exact ⟨t, by rw [List.getElem?_append_left (hq.lt_length hm)]; exact hst', hlinked⟩
  waits m t hm hwaits := by
    rcases getElem?_append_cases hm with hm | ⟨-, rfl⟩
    · exact hq.waits m t hm hwaits
    · exact absurd hwaits hst

theorem set (hq : Queued linked waits table queue) (hlinked : n ∈ queue → linked st)
    (hwaits : waits st → n ∈ queue) : Queued linked waits (table.set n st) queue where
  sorted := hq.sorted
  linked m hm := by
    obtain ⟨t, hst', hm'⟩ := hq.linked m hm
    by_cases hmn : m = n
    · subst hmn
      exact ⟨st, by simp [hq.lt_length hm], hlinked hm⟩
    · exact ⟨t, by rw [List.getElem?_set_ne (Ne.symm hmn)]; exact hst', hm'⟩
  waits m t hm hst' := by
    rcases getElem?_set_cases hm with ⟨rfl, rfl⟩ | ⟨-, hm⟩
    · exact hwaits hst'
    · exact hq.waits m t hm hst'

theorem not_mem_rest (hq : Queued linked waits table (n :: rest)) : n ∉ rest :=
  fun hn => Nat.lt_irrefl n ((List.pairwise_cons.mp hq.sorted).1 n hn)

theorem dequeue (hq : Queued linked waits table (n :: rest)) (hst : ¬ waits st) :
    Queued linked waits (table.set n st) rest where
  sorted := (List.pairwise_cons.mp hq.sorted).2
  linked m hm := by
    obtain ⟨t, hst', hlinked⟩ := hq.linked m (List.mem_cons_of_mem _ hm)
    have hmn : n ≠ m := by
      rintro rfl
      exact hq.not_mem_rest hm
    exact ⟨t, by rw [List.getElem?_set_ne hmn]; exact hst', hlinked⟩
  waits m t hm hst' := by
    rcases getElem?_set_cases hm with ⟨-, rfl⟩ | ⟨hmn, hm⟩
    · exact absurd hst' hst
    · exact (List.mem_cons.mp (hq.waits m t hm hst')).resolve_left hmn

theorem tail (hq : Queued linked waits table (n :: rest)) (hn : table[n]? = some st)
    (hst : ¬ waits st) : Queued linked waits table rest where
  sorted := (List.pairwise_cons.mp hq.sorted).2
  linked m hm := hq.linked m (List.mem_cons_of_mem _ hm)
  waits m t hm hst' := by
    refine (List.mem_cons.mp (hq.waits m t hm hst')).resolve_left ?_
    rintro rfl
    obtain rfl : st = t := Option.some.inj (hn.symm.trans hm)
    exact hst hst'

theorem remove (hq : Queued linked waits table queue) (hst : ¬ waits st) :
    Queued linked waits (table.set n st) (queue.filter (· ≠ n)) where
  sorted := hq.sorted.filter _
  linked m hm := by
    obtain ⟨hm, hmn⟩ := List.mem_filter.mp hm
    obtain ⟨t, hst', hlinked⟩ := hq.linked m hm
    have hne : n ≠ m := by
      rintro rfl
      simp at hmn
    exact ⟨t, by rw [List.getElem?_set_ne hne]; exact hst', hlinked⟩
  waits m t hm hst' := by
    rcases getElem?_set_cases hm with ⟨-, rfl⟩ | ⟨hmn, hm⟩
    · exact absurd hst' hst
    · exact List.mem_filter.mpr ⟨hq.waits m t hm hst', by simpa using hmn⟩

theorem shrink {queue' : List ℕ} (hq : Queued linked waits table queue)
    (hsub : queue'.Sublist queue) (hmem : ∀ m ∈ queue, m ≠ n → m ∈ queue') (hst : ¬ waits st)
    (hlinked : n ∈ queue' → linked st) : Queued linked waits (table.set n st) queue' where
  sorted := hq.sorted.sublist hsub
  linked m hm := by
    obtain ⟨t, ht, hm'⟩ := hq.linked m (hsub.subset hm)
    by_cases hmn : m = n
    · subst hmn
      exact ⟨st, by simp [hq.lt_length (hsub.subset hm)], hlinked hm⟩
    · exact ⟨t, by rw [List.getElem?_set_ne (Ne.symm hmn)]; exact ht, hm'⟩
  waits m t hm hst' := by
    rcases getElem?_set_cases hm with ⟨-, rfl⟩ | ⟨hmn, hm⟩
    · exact absurd hst' hst
    · exact hmem m (hq.waits m t hm hst') hmn

theorem first_le {m : ℕ} (hq : Queued linked waits table (n :: rest)) (hm : table[m]? = some st)
    (hst : waits st) : n ≤ m := by
  rcases List.mem_cons.mp (hq.waits m st hm hst) with rfl | hmem
  · exact Nat.le_refl _
  · exact Nat.le_of_lt ((List.pairwise_cons.mp hq.sorted).1 m hmem)

end Queued

end Tickets
