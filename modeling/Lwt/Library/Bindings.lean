import Mathlib.Algebra.GroupWithZero.Nat
import Mathlib.Algebra.BigOperators.Group.List.Basic
import Mathlib.Data.List.Nodup

/-!
# Tables of bindings

A table with a binding for each of its keys is a list of bindings without an order of its own:
`find` does not depend on it.
-/

namespace Bindings

variable {κ β γ : Type*} [DecidableEq κ] {table order : List (κ × β)} {k k' : κ} {b : β}

def keys (table : List (κ × β)) : List κ := table.map (·.1)

def find : List (κ × β) → κ → Option β
  | [], _ => none
  | (k, b) :: table, k' => if k = k' then some b else find table k'

theorem find_nil (k : κ) : find ([] : List (κ × β)) k = none := rfl

theorem find_cons (binding : κ × β) (table : List (κ × β)) (k : κ) :
    find (binding :: table) k = if binding.1 = k then some binding.2 else find table k := rfl

/-- The binding of `k` is replaced. -/
def modify (k : κ) (f : β → β) (table : List (κ × β)) : List (κ × β) :=
  table.map fun binding => if binding.1 = k then (k, f binding.2) else binding

theorem keys_modify (f : β → β) : keys (modify k f table) = keys table := by
  unfold keys modify
  rw [List.map_map]
  refine List.map_congr_left fun binding _ => ?_
  rw [Function.comp_apply]
  split
  case isTrue hk => exact hk.symm
  case isFalse => rfl

theorem find_eq_none : find table k = none ↔ k ∉ keys table := by
  induction table with
  | nil => simp [find_nil, keys]
  | cons binding table ih =>
    simp only [find_cons, keys, List.map_cons, List.mem_cons, not_or] at ih ⊢
    split
    case isTrue hk => simp [hk]
    case isFalse hk => exact ⟨fun h => ⟨fun heq => hk heq.symm, ih.mp h⟩, fun h => ih.mpr h.2⟩

theorem mem_of_find (h : find table k = some b) : (k, b) ∈ table := by
  induction table with
  | nil => cases h
  | cons binding table ih =>
    rw [find_cons] at h
    split at h
    case isTrue hk =>
      cases h
      exact hk ▸ List.mem_cons_self
    case isFalse => exact List.mem_cons_of_mem _ (ih h)

theorem find_of_mem (hnodup : (keys table).Nodup) (h : (k, b) ∈ table) : find table k = some b := by
  induction table with
  | nil => cases h
  | cons binding table ih =>
    obtain ⟨hnew, hnodup⟩ := List.nodup_cons.mp hnodup
    rw [find_cons]
    rcases List.mem_cons.mp h with rfl | h
    · rw [if_pos rfl]
    · rw [if_neg, ih hnodup h]
      intro hk
      exact hnew (List.mem_map.mpr ⟨_, h, hk.symm⟩)

theorem find_append_new {binding : κ × β} (hnew : binding.1 ∉ keys table) :
    find (table ++ [binding]) k = if binding.1 = k then some binding.2 else find table k := by
  induction table with
  | nil => simp [find_cons, find_nil]
  | cons first table ih =>
    simp only [keys, List.map_cons, List.mem_cons, not_or] at hnew ih
    simp only [List.cons_append, find_cons, ih hnew.2]
    by_cases hfirst : first.1 = k
    · have hne : binding.1 ≠ k := fun heq => hnew.1 (heq.trans hfirst.symm)
      simp [hfirst, hne]
    · simp [hfirst]

theorem find_modify (f : β → β) :
    find (modify k f table) k' = if k = k' then (find table k).map f else find table k' := by
  induction table with
  | nil => simp [modify, find_nil]
  | cons binding table ih =>
    simp only [modify, List.map_cons] at ih ⊢
    by_cases hk : binding.1 = k
    · by_cases hk' : k = k'
      · simp [find_cons, hk, hk']
      · simp [find_cons, hk, ih, hk']
    · by_cases hk' : k = k'
      · subst hk'
        simp [find_cons, hk, ih]
      · simp [find_cons, hk, ih, hk']

theorem find_perm (hperm : order.Perm table) (hnodup : (keys table).Nodup) :
    find order k = find table k := by
  have hnodup' : (keys order).Nodup := (hperm.map _).nodup_iff.mpr hnodup
  cases h : find table k with
  | none =>
    rw [find_eq_none] at h ⊢
    exact fun hmem => h ((hperm.map (·.1)).mem_iff.mp hmem)
  | some b => exact find_of_mem hnodup' (hperm.mem_iff.mpr (mem_of_find h))

/-- The binding of `k` is dropped. -/
def remove (k : κ) (table : List (κ × β)) :
    List (κ × β) := table.filter fun binding => binding.1 ≠ k

theorem find_remove :
    find (remove k table) k' = if k = k' then none else find table k' := by
  induction table with
  | nil => simp [remove, find_nil]
  | cons binding table ih =>
    unfold remove at ih ⊢
    by_cases hk : binding.1 = k
    · rw [List.filter_cons_of_neg (by simpa using hk), ih]
      split
      case isTrue => rfl
      case isFalse hk' => rw [find_cons, if_neg fun heq => hk' (hk.symm.trans heq)]
    · rw [List.filter_cons_of_pos (by simpa using hk), find_cons, ih, find_cons]
      by_cases hk' : k = k'
      · rw [if_neg fun heq => hk (heq.trans hk'.symm)]
        simp [hk']
      · simp [hk']

/-- Every binding is replaced or dropped. -/
def update (f : β → Option β) (table : List (κ × β)) : List (κ × β) :=
  table.filterMap fun binding => (f binding.2).map fun b => (binding.1, b)

omit [DecidableEq κ] in
theorem keys_update_sublist (f : β → Option β) : (keys (update f table)).Sublist (keys table) := by
  induction table with
  | nil => exact List.Sublist.slnil
  | cons binding table ih =>
    unfold update keys at ih ⊢
    cases hf : f binding.2 with
    | none => simpa [hf] using ih.cons binding.1
    | some b => simpa [hf] using ih.cons_cons binding.1

theorem find_update (f : β → Option β) (hnodup : (keys table).Nodup) :
    find (update f table) k = (find table k).bind f := by
  induction table with
  | nil => rfl
  | cons binding table ih =>
    obtain ⟨hnew, hnodup⟩ := List.nodup_cons.mp hnodup
    have hrest := ih hnodup
    unfold update at hrest ⊢
    by_cases hk : binding.1 = k
    · have hnone : find table k = none := find_eq_none.mpr (hk ▸ hnew)
      rw [hnone] at hrest
      cases hf : f binding.2 with
      | none => simp [find_cons, hk, hf, hrest]
      | some b => simp [find_cons, hk, hf]
    · cases hf : f binding.2 with
      | none => simp [find_cons, hk, hf, hrest]
      | some b => simp [find_cons, hk, hf, hrest]

/-- A total over the table after the change of a binding. -/
theorem sum_modify (f : β → β) (size : β → ℕ) (hnodup : (keys table).Nodup)
    (hk : find table k = some b) :
    ((modify k f table).map fun binding => size binding.2).sum + size b =
      (table.map fun binding => size binding.2).sum + size (f b) := by
  induction table with
  | nil => cases hk
  | cons binding table ih =>
    obtain ⟨hnew, hnodup⟩ := List.nodup_cons.mp hnodup
    rw [find_cons] at hk
    split at hk
    case isTrue heq =>
      cases hk
      have hrest : modify k f table = table := by
        refine (List.map_congr_left fun other hother => ?_).trans (List.map_id table)
        rw [if_neg, id]
        exact fun hk => hnew (List.mem_map.mpr ⟨other, hother, hk.trans heq.symm⟩)
      have hcons : modify k f (binding :: table) = (k, f binding.2) :: modify k f table := by
        simp [modify, heq]
      rw [hrest] at hcons
      rw [hcons]
      simp only [List.map_cons, List.sum_cons]
      omega
    case isFalse hne =>
      have hcons : modify k f (binding :: table) = binding :: modify k f table := by
        simp [modify, hne]
      have hsum := ih hnodup hk
      rw [hcons]
      simp only [List.map_cons, List.sum_cons]
      omega

end Bindings
