import Lwt.Promise.Effect

/-!
# Looking at a list of promises

What the first pass of `choose`, `pick` and the others over their list of promises says
about the promises in it: when it finds none that is resolved, all are pending, and the
callback can then be added to each of them.
-/

namespace Lwt

open Heap

variable {U : Type} {h h' : Heap U}

theorem stateOf_cases (hwf : h.WellFormed) {p : Pid} (hp : p < h.length) :
    (∃ callbacks, h.stateOf p = some (.pending callbacks)) ∨
      (∃ v, h.stateOf p = some (.resolved (.fulfilled v))) ∨
      ∃ e, h.stateOf p = some (.resolved (.rejected e)) := by
  obtain ⟨st, hst, hu⟩ := exists_stateOf hwf hp
  cases st with
  | proxy q => exact hu.elim
  | pending callbacks => exact .inl ⟨callbacks, hst⟩
  | resolved r =>
    cases r with
    | fulfilled v => exact .inr (.inl ⟨v, hst⟩)
    | rejected e => exact .inr (.inr ⟨e, hst⟩)

theorem le_of_countFulfilled_eq_ok {total n : ℕ} {ps : List Pid}
    (hcount : countFulfilled h total ps = .ok n) : total ≤ n := by
  induction ps generalizing total with
  | nil =>
    obtain rfl : total = n := by simpa [countFulfilled] using hcount
    exact le_refl _
  | cons p ps ih =>
    rw [countFulfilled] at hcount
    split at hcount
    · exact (Nat.le_succ total).trans (ih hcount)
    · simp at hcount
    · exact ih hcount

theorem isPending_of_countFulfilled (hwf : h.WellFormed) {total : ℕ} {ps : List Pid}
    (hps : ∀ p ∈ ps, p < h.length) (hcount : countFulfilled h total ps = .ok total) :
    ∀ p ∈ ps, h.IsPending (h.root p) := by
  induction ps with
  | nil => simp
  | cons p ps ih =>
    have hrest := ih fun q hq => hps q (List.mem_cons_of_mem _ hq)
    rw [countFulfilled] at hcount
    rcases stateOf_cases hwf (hps p List.mem_cons_self) with
      ⟨callbacks, hst⟩ | ⟨v, hst⟩ | ⟨e, hst⟩ <;> rw [hst] at hcount
    · intro q hq
      rcases List.mem_cons.mp hq with rfl | hq
      · exact ⟨callbacks, hst⟩
      · exact hrest hcount q hq
    · have := le_of_countFulfilled_eq_ok hcount
      omega
    · simp at hcount

theorem isPending_of_checkForAlreadyResolvedPromises (hwf : h.WellFormed) {ps : List Pid}
    (hps : ∀ p ∈ ps, p < h.length) (hcheck : checkForAlreadyResolvedPromises h ps = none) :
    ∀ p ∈ ps, h.IsPending (h.root p) := by
  induction ps with
  | nil => simp
  | cons p ps ih =>
    have hrest := ih fun q hq => hps q (List.mem_cons_of_mem _ hq)
    rw [checkForAlreadyResolvedPromises] at hcheck
    rcases stateOf_cases hwf (hps p List.mem_cons_self) with
      ⟨callbacks, hst⟩ | ⟨v, hst⟩ | ⟨e, hst⟩ <;> rw [hst] at hcheck
    · intro q hq
      rcases List.mem_cons.mp hq with rfl | hq
      · exact ⟨callbacks, hst⟩
      · exact hrest hcheck q hq
    · simp at hcheck
    · simp at hcheck

theorem isPending_of_checkForAlreadyResolvedSplit (hwf : h.WellFormed) {pending ps : List Pid}
    (hps : ∀ p ∈ ps, p < h.length) (hcheck : checkForAlreadyResolvedSplit h pending ps = none) :
    ∀ p ∈ ps, h.IsPending (h.root p) := by
  induction ps generalizing pending with
  | nil => simp
  | cons p ps ih =>
    have hrest : checkForAlreadyResolvedSplit h (p :: pending) ps = none →
        ∀ q ∈ ps, h.IsPending (h.root q) :=
      fun hcheck => ih (fun q hq => hps q (List.mem_cons_of_mem _ hq)) hcheck
    rw [checkForAlreadyResolvedSplit] at hcheck
    rcases stateOf_cases hwf (hps p List.mem_cons_self) with
      ⟨callbacks, hst⟩ | ⟨v, hst⟩ | ⟨e, hst⟩ <;> rw [hst] at hcheck
    · intro q hq
      rcases List.mem_cons.mp hq with rfl | hq
      · exact ⟨callbacks, hst⟩
      · exact hrest hcheck q hq
    · simp at hcheck
    · simp at hcheck

theorem exists_addCellToEach (c : ℕ) (hwf : h.WellFormed) (ps : List Pid)
    (hps : ∀ p ∈ ps, h.IsPending (h.root p)) : ∃ h', addCellToEach c h ps = some h' := by
  induction ps generalizing h with
  | nil => exact ⟨h, rfl⟩
  | cons p ps ih =>
    obtain ⟨callbacks, hcb⟩ := hps p List.mem_cons_self
    have hcomp := compressed_compress hwf p
    have hone : Similar h ((h.compress p).set (h.root p)
        (.pending (addRegularCallbackListNode (.explicitlyRemovable c) callbacks))) :=
      hcomp.similar.trans
        (similar_set_pending ((hcomp.getElem?_root hwf p).trans hcb) rfl)
    obtain ⟨h', hadd⟩ := ih (hone.wellFormed hwf) fun q hq => by
      rw [hone.root_eq hwf]
      exact hone.isPending (hps q (List.mem_cons_of_mem _ hq))
    refine ⟨h', ?_⟩
    rw [addCellToEach, show h.stateOf p = some (.pending callbacks) from hcb]
    exact hadd

theorem isPending_of_addCellToEach {c : ℕ} {ps : List Pid} (hwf : h.WellFormed)
    (hadd : addCellToEach c h ps = some h') : ∀ p ∈ ps, h.IsPending (h.root p) := by
  induction ps generalizing h with
  | nil => simp
  | cons p ps ih =>
    obtain ⟨callbacks, hcb, -, hone, hrest⟩ := addCellToEach_cons hwf hadd
    intro q hq
    rcases List.mem_cons.mp hq with rfl | hq
    · exact ⟨callbacks, hcb⟩
    · exact (hone.isPending_own_root_iff hwf q).mp (ih (hone.wellFormed hwf) hrest q hq)

/-! ## Counting -/

/-- `p` is resolved. -/
def Heap.isResolved (h : Heap U) (p : Pid) : Bool :=
  match h.stateOf p with
  | some (.resolved _) => true
  | _ => false

/-- `p` is rejected. -/
def Heap.isRejected (h : Heap U) (p : Pid) : Bool :=
  match h.stateOf p with
  | some (.resolved (.rejected _)) => true
  | _ => false

theorem Heap.isResolved_iff {p : Pid} :
    h.isResolved p = true ↔ ∃ r, h.IsResolved (h.root p) r := by
  show h.isResolved p = true ↔ ∃ r, h.stateOf p = some (.resolved r)
  unfold Heap.isResolved
  split
  · rename_i r hst
    simp [hst]
  · rename_i hst
    simpa using hst

theorem Heap.isResolved_of_isRejected {p : Pid} (hp : h.isRejected p = true) :
    h.isResolved p = true := by
  unfold Heap.isRejected at hp
  split at hp
  · rename_i e hst
    simp [Heap.isResolved, hst]
  · simp at hp

/-- A count without an error has met no rejected promise. -/
theorem countFulfilled_eq_ok {total n : ℕ} {ps : List Pid}
    (hcount : countFulfilled h total ps = .ok n) :
    n = total + ps.countP h.isResolved ∧ ∀ q ∈ ps, h.isRejected q = false := by
  induction ps generalizing total with
  | nil =>
    obtain rfl : total = n := by simpa [countFulfilled] using hcount
    simp
  | cons p ps ih =>
    rw [countFulfilled] at hcount
    split at hcount
    · rename_i v hst
      obtain ⟨rfl, hrest⟩ := ih hcount
      refine ⟨?_, List.forall_mem_cons.mpr ⟨by simp [Heap.isRejected, hst], hrest⟩⟩
      rw [List.countP_cons_of_pos (by simp [Heap.isResolved, hst])]
      omega
    · simp at hcount
    · rename_i hful hrej
      obtain ⟨rfl, hrest⟩ := ih hcount
      have hnot : h.isResolved p = false := by
        unfold Heap.isResolved
        split
        · rename_i r hst
          cases r with
          | fulfilled v => exact absurd hst (hful v)
          | rejected e => exact absurd hst (hrej e)
        · rfl
      refine ⟨?_, List.forall_mem_cons.mpr ⟨?_, hrest⟩⟩
      · rw [List.countP_cons_of_neg (by simp [hnot])]
      · by_contra hrejected
        simp [Heap.isResolved_of_isRejected (by simpa using hrejected)] at hnot

theorem countAndGatherRejected_spec {total n : ℕ} {rejected ps qs : List Pid}
    (hcount : countAndGatherRejected h total rejected ps = (n, qs))
    (htotal : total = rejected.length) :
    n = qs.length ∧ total ≤ n ∧ ∀ q ∈ qs, q ∈ rejected ∨ q ∈ ps ∧ h.isRejected q = true := by
  induction ps generalizing total rejected with
  | nil =>
    obtain ⟨rfl, rfl⟩ : total = n ∧ rejected = qs := by
      simpa [countAndGatherRejected] using hcount
    exact ⟨htotal, le_refl _, fun q hq => .inl hq⟩
  | cons p ps ih =>
    rw [countAndGatherRejected] at hcount
    split at hcount
    · rename_i e hst
      obtain ⟨hn, hle, hmem⟩ := ih hcount (by simp [htotal])
      refine ⟨hn, by omega, fun q hq => ?_⟩
      rcases hmem q hq with hold | ⟨hq, hrej⟩
      · rcases List.mem_cons.mp hold with rfl | hold
        · exact .inr ⟨List.mem_cons_self, by simp [Heap.isRejected, hst]⟩
        · exact .inl hold
      · exact .inr ⟨List.mem_cons_of_mem _ hq, hrej⟩
    · obtain ⟨hn, hle, hmem⟩ := ih hcount htotal
      exact ⟨hn, hle, fun q hq => (hmem q hq).imp_right fun h =>
        ⟨List.mem_cons_of_mem _ h.1, h.2⟩⟩

theorem countFulfilled_eq_error {total n : ℕ} {ps qs : List Pid}
    (hcount : countFulfilled h total ps = .error (n, qs)) :
    n = qs.length ∧ 0 < n ∧ ∀ q ∈ qs, q ∈ ps ∧ h.isRejected q = true := by
  induction ps generalizing total with
  | nil => simp [countFulfilled] at hcount
  | cons p ps ih =>
    have hrest : ∀ {total}, countFulfilled h total ps = .error (n, qs) →
        n = qs.length ∧ 0 < n ∧ ∀ q ∈ qs, q ∈ p :: ps ∧ h.isRejected q = true := fun hcount => by
      obtain ⟨hn, hpos, hmem⟩ := ih hcount
      exact ⟨hn, hpos, fun q hq => ⟨List.mem_cons_of_mem _ (hmem q hq).1, (hmem q hq).2⟩⟩
    rw [countFulfilled] at hcount
    split at hcount
    · exact hrest hcount
    · rename_i e hst
      obtain ⟨hn, hle, hmem⟩ := countAndGatherRejected_spec (Except.error.inj hcount) rfl
      refine ⟨hn, by omega, fun q hq => ?_⟩
      rcases hmem q hq with hq | ⟨hq, hrej⟩
      · obtain rfl : q = p := by simpa using hq
        exact ⟨List.mem_cons_self, by simp [Heap.isRejected, hst]⟩
      · exact ⟨List.mem_cons_of_mem _ hq, hrej⟩
    · exact hrest hcount

theorem nthResolved_of_resolved {qs : List Pid} (hqs : ∀ q ∈ qs, h.isResolved q = true) (n : ℕ) :
    nthResolved h qs n = qs[n]? := by
  induction qs generalizing n with
  | nil => rfl
  | cons q qs ih =>
    obtain ⟨r, hr⟩ := Heap.isResolved_iff.mp (hqs q List.mem_cons_self)
    have hst : h.stateOf q = some (.resolved r) := hr
    cases n with
    | zero => simp [nthResolved, hst]
    | succ n =>
      simp only [nthResolved, hst, List.getElem?_cons_succ]
      exact ih (fun q hq => hqs q (List.mem_cons_of_mem _ hq)) n

end Lwt
