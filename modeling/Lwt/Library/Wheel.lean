import Mathlib.Data.List.Rotate
import Mathlib.Data.List.Nodup
import Mathlib.Data.Nat.ModEq

/-!
# Wheels of buckets

A circular array of buckets, read from its current position on, is a list of buckets: what is `k`
buckets ahead is in the `k`th of them.
-/

namespace Wheel

variable {α : Type*} {buckets : List (List α)} {x y : α} {k d n : ℕ}

/-- `x` is `k` buckets ahead. -/
def Ahead (buckets : List (List α)) (x : α) (k : ℕ) : Prop := ∃ b, buckets[k]? = some b ∧ x ∈ b

theorem exists_ahead : (∃ k, Ahead buckets x k) ↔ x ∈ buckets.flatten := by
  rw [List.mem_flatten]
  constructor
  · rintro ⟨k, b, hb, hx⟩
    exact ⟨b, List.mem_of_getElem? hb, hx⟩
  · rintro ⟨b, hb, hx⟩
    obtain ⟨k, hk⟩ := List.mem_iff_getElem?.mp hb
    exact ⟨k, b, hk, hx⟩

theorem Ahead.mem (h : Ahead buckets x k) : x ∈ buckets.flatten := exists_ahead.mp ⟨k, h⟩

theorem Ahead.lt (h : Ahead buckets x k) : k < buckets.length := by
  obtain ⟨b, hb, -⟩ := h
  exact (List.getElem?_eq_some_iff.mp hb).1

@[simp] theorem ahead_cons_zero {b : List α} : Ahead (b :: buckets) x 0 ↔ x ∈ b := by
  simp [Ahead]

@[simp] theorem ahead_cons_succ {b : List α} :
    Ahead (b :: buckets) x (k + 1) ↔ Ahead buckets x k := by
  simp [Ahead]

theorem Ahead.unique (hnodup : buckets.flatten.Nodup) (h : Ahead buckets x k)
    (h' : Ahead buckets x n) : k = n := by
  induction buckets generalizing k n with
  | nil => exact absurd h.lt (Nat.not_lt_zero k)
  | cons b buckets ih =>
    rw [List.flatten_cons, List.nodup_append] at hnodup
    obtain ⟨-, hrest, hdisjoint⟩ := hnodup
    cases k with
    | zero =>
      cases n with
      | zero => rfl
      | succ n =>
        have hx := ahead_cons_zero.mp h
        have hx' := (ahead_cons_succ.mp h').mem
        exact absurd rfl (hdisjoint x hx x hx')
    | succ k =>
      cases n with
      | zero =>
        have hx := ahead_cons_zero.mp h'
        have hx' := (ahead_cons_succ.mp h).mem
        exact absurd rfl (hdisjoint x hx x hx')
      | succ n => rw [ih hrest (ahead_cons_succ.mp h) (ahead_cons_succ.mp h')]

/-! ## Operations -/

theorem flatten_replicate_nil (n : ℕ) : (List.replicate n ([] : List α)).flatten = [] := by
  simp

theorem ahead_append_replicate :
    Ahead (buckets ++ List.replicate n []) x k ↔ Ahead buckets x k := by
  unfold Ahead
  constructor
  · rintro ⟨b, hb, hx⟩
    rw [List.getElem?_append] at hb
    split at hb
    case isTrue => exact ⟨b, hb, hx⟩
    case isFalse =>
      rw [List.eq_of_mem_replicate (List.mem_of_getElem? hb)] at hx
      cases hx
  · rintro ⟨b, hb, hx⟩
    have hlt := (List.getElem?_eq_some_iff.mp hb).1
    exact ⟨b, by rwa [List.getElem?_append_left hlt], hx⟩

section Remove

variable [DecidableEq α]

/-- Without `y`. -/
def remove (y : α) (buckets : List (List α)) : List (List α) :=
  buckets.map fun b => b.filter (· ≠ y)

theorem flatten_remove (y : α) (buckets : List (List α)) :
    (remove y buckets).flatten = buckets.flatten.filter (· ≠ y) := by
  rw [List.filter_flatten]
  rfl

theorem length_remove (y : α) (buckets : List (List α)) :
    (remove y buckets).length = buckets.length := List.length_map _

theorem remove_of_notMem (h : y ∉ buckets.flatten) : remove y buckets = buckets := by
  refine (List.map_congr_left fun b hb => ?_).trans (List.map_id buckets)
  refine List.filter_eq_self.mpr fun x hx => decide_eq_true ?_
  rintro rfl
  exact h (List.mem_flatten.mpr ⟨b, hb, hx⟩)

theorem ahead_remove : Ahead (remove y buckets) x k ↔ x ≠ y ∧ Ahead buckets x k := by
  unfold Ahead remove
  rw [List.getElem?_map]
  cases hb : buckets[k]? with
  | none => simp
  | some b => simp [and_comm]

theorem length_flatten_remove (hnodup : buckets.flatten.Nodup) (hy : y ∈ buckets.flatten) :
    (remove y buckets).flatten.length + 1 = buckets.flatten.length := by
  have herase : buckets.flatten.filter (· ≠ y) = buckets.flatten.erase y := by
    rw [hnodup.erase_eq_filter]
    exact List.filter_congr fun x _ => by by_cases hx : x = y <;> simp [hx]
  have hpos := List.length_pos_of_mem hy
  rw [flatten_remove, herase, List.length_erase_of_mem hy]
  omega

end Remove

/-- `y` goes into the `d`th bucket. -/
def insert (d : ℕ) (y : α) (buckets : List (List α)) : List (List α) :=
  buckets.modify d fun b => y :: b

theorem flatten_insert (hd : d < buckets.length) :
    (insert d y buckets).flatten.Perm (y :: buckets.flatten) := by
  unfold insert
  induction buckets generalizing d with
  | nil => cases hd
  | cons b buckets ih =>
    cases d with
    | zero => simp
    | succ d =>
      have hrest := ih (Nat.lt_of_succ_lt_succ hd)
      rw [List.modify_succ_cons, List.flatten_cons, List.flatten_cons]
      exact (hrest.append_left b).trans List.perm_middle

theorem ahead_insert (hd : d < buckets.length) :
    Ahead (insert d y buckets) x k ↔ x = y ∧ k = d ∨ Ahead buckets x k := by
  unfold Ahead insert
  rw [List.getElem?_modify]
  by_cases hk : d = k
  · subst hk
    simp [hd]
  · have hne : k ≠ d := Ne.symm hk
    simp [hk, hne]

/-! ## The circular array -/

theorem rotate_insert (hd : d < buckets.length) (curr : ℕ) (y : α) :
    (insert ((curr + d) % buckets.length) y buckets).rotate curr =
      insert d y (buckets.rotate curr) := by
  unfold insert
  refine List.ext_getElem? fun k => ?_
  by_cases hk : k < buckets.length
  · have hslot : (curr + d) % buckets.length = (k + curr) % buckets.length ↔ d = k := by
      rw [Nat.add_comm k curr]
      constructor
      · intro h
        have hmod : Nat.ModEq buckets.length d k := Nat.ModEq.add_left_cancel' curr h
        rwa [Nat.ModEq, Nat.mod_eq_of_lt hd, Nat.mod_eq_of_lt hk] at hmod
      · rintro rfl
        rfl
    rw [List.getElem?_rotate (by rwa [List.length_modify]), List.length_modify,
      List.getElem?_modify, List.getElem?_modify, List.getElem?_rotate hk]
    simp only [hslot]
  · rw [List.getElem?_eq_none (by simpa using hk), List.getElem?_eq_none (by simpa using hk)]

theorem rotate_remove [DecidableEq α] (y : α) (buckets : List (List α)) (curr : ℕ) :
    (remove y buckets).rotate curr = remove y (buckets.rotate curr) :=
  (List.map_rotate _ _ _).symm

theorem flatten_rotate (buckets : List (List α)) (curr : ℕ) :
    (buckets.rotate curr).flatten.Perm buckets.flatten :=
  (List.rotate_perm buckets curr).flatten

/-- The bucket at the current position is the first. -/
theorem rotate_eq_cons {curr : ℕ} {b : List α} (h : buckets[curr]? = some b) :
    buckets.rotate curr = b :: (buckets.drop (curr + 1) ++ buckets.take curr) := by
  obtain ⟨hlt, rfl⟩ := List.getElem?_eq_some_iff.mp h
  rw [List.rotate_eq_drop_append_take hlt.le, List.drop_eq_getElem_cons hlt, List.cons_append]

end Wheel
