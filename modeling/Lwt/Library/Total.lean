import Mathlib.Algebra.BigOperators.Group.List.Basic
import Mathlib.Algebra.Order.Group.Multiset
import Mathlib.Algebra.BigOperators.Group.Multiset.Basic
import Mathlib.Tactic.Abel

/-!
# Sums over a table

A table is a list that is read and written by index.  `total f l` adds up what `f`
gives for its entries; with multisets for values it collects resources that are spread
over the table.  `total_set` says what writing one entry does to the sum.
-/

namespace Table

variable {α β M : Type*} [AddCancelCommMonoid M] {f g : α → M} {l l' : List α} {i : ℕ} {a b : α}

theorem getElem?_append_singleton {x : α} (hi : (l ++ [a])[i]? = some x) :
    l[i]? = some x ∨ i = l.length ∧ x = a := by
  rw [List.getElem?_append] at hi
  split at hi
  · exact .inl hi
  · cases hk : i - l.length with
    | zero =>
      rw [hk] at hi
      exact .inr ⟨by omega, by simpa using hi.symm⟩
    | succ n =>
      rw [hk] at hi
      simp at hi

/-- The sum of `f` over the entries of `l`. -/
def total (f : α → M) (l : List α) : M := (l.map f).sum

@[simp] theorem total_nil : total f [] = 0 := rfl

@[simp] theorem total_cons : total f (a :: l) = f a + total f l := by simp [total]

@[simp] theorem total_append : total f (l ++ l') = total f l + total f l' := by simp [total]

theorem total_set (hi : l[i]? = some a) : total f (l.set i b) + f a = total f l + f b := by
  induction l generalizing i with
  | nil => simp at hi
  | cons x l ih =>
    cases i with
    | zero =>
      obtain rfl : x = a := by simpa using hi
      simp only [List.set_cons_zero, total_cons]
      abel
    | succ i =>
      have hrest := ih (i := i) (by simpa using hi)
      simp only [List.set_cons_succ, total_cons]
      rw [add_assoc, hrest, add_assoc]

/-- Writing an entry with the same contribution leaves the sum. -/
theorem total_set_of_eq (hi : l[i]? = some a) (hab : f b = f a) :
    total f (l.set i b) = total f l := by
  have h := total_set (f := f) (b := b) hi
  rw [hab] at h
  exact add_right_cancel h

theorem total_congr (hlen : l'.length = l.length)
    (h : ∀ (i : ℕ) a b, l[i]? = some a → l'[i]? = some b → f b = f a) : total f l' = total f l := by
  induction l generalizing l' with
  | nil => simp [List.length_eq_zero_iff.mp (by simpa using hlen)]
  | cons x l ih =>
    cases l' with
    | nil => simp at hlen
    | cons y l' =>
      have hhead : f y = f x := h 0 x y (by simp) (by simp)
      have hlen' : l'.length = l.length := by simpa using hlen
      have htail := ih hlen'
        fun i a b ha hb => h (i + 1) a b (by simpa using ha) (by simpa using hb)
      simp [hhead, htail]

theorem exists_of_total_ne_zero (h : total f l ≠ 0) :
    ∃ (i : ℕ) (a : α), l[i]? = some a ∧ f a ≠ 0 := by
  induction l with
  | nil => exact absurd total_nil h
  | cons x l ih =>
    by_cases hx : f x = 0
    · rw [total_cons, hx, zero_add] at h
      obtain ⟨i, a, hi, ha⟩ := ih h
      exact ⟨i + 1, a, by simpa using hi, ha⟩
    · exact ⟨0, x, by simp, hx⟩

theorem mem_total {x : β} {f : α → Multiset β} :
    x ∈ total f l ↔ ∃ (i : ℕ) (a : α), l[i]? = some a ∧ x ∈ f a := by
  induction l with
  | nil => simp
  | cons y l ih =>
    rw [total_cons, Multiset.mem_add, ih]
    constructor
    · rintro (hx | ⟨i, a, hi, hx⟩)
      · exact ⟨0, y, by simp, hx⟩
      · exact ⟨i + 1, a, by simpa using hi, hx⟩
    · rintro ⟨i, a, hi, hx⟩
      cases i with
      | zero =>
        obtain rfl : y = a := by simpa using hi
        exact .inl hx
      | succ i => exact .inr ⟨i, a, by simpa using hi, hx⟩

theorem eq_of_mem_total {x : β} {f : α → Multiset β} {i j : ℕ} {a b : α}
    (hnodup : (total f l).Nodup) (hi : l[i]? = some a) (hj : l[j]? = some b) (ha : x ∈ f a)
    (hb : x ∈ f b) : i = j := by
  induction l generalizing i j with
  | nil => simp at hi
  | cons y l ih =>
    rw [total_cons, Multiset.nodup_add] at hnodup
    obtain ⟨-, hrest, hdisjoint⟩ := hnodup
    have hapart : ∀ {k : ℕ} {b : α}, l[k]? = some b → x ∈ f b → x ∉ f y := fun hk hxb hxy =>
      Multiset.disjoint_left.mp hdisjoint hxy (mem_total.mpr ⟨_, _, hk, hxb⟩)
    cases i with
    | zero =>
      obtain rfl : y = a := by simpa using hi
      cases j with
      | zero => rfl
      | succ j => exact absurd ha (hapart (by simpa using hj) hb)
    | succ i =>
      cases j with
      | zero =>
        obtain rfl : y = b := by simpa using hj
        exact absurd hb (hapart (by simpa using hi) ha)
      | succ j => exact congrArg Nat.succ (ih hrest (by simpa using hi) (by simpa using hj))

end Table
