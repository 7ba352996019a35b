import Mathlib.Data.List.Perm.Subperm
import Mathlib.Logic.Function.Basic

/-!
# Forests of parent pointers

`par : ι → Option ι` gives every node at most one parent.  `Root par p u` says that
the chain of parents of `p` ends in `u`.  The two updates a union–find structure
makes are covered: pointing a root at another root (`Root.link`), and pointing a
node directly at its own root (`Root.shortcut`, path compression).  `Depth` counts the
links of a chain; when only finitely many nodes have a parent it is bounded by their
number (`Depth.le_length`), which is the fuel a search for the root needs.
-/

namespace Forest

variable {ι : Type*} {par : ι → Option ι}

/-- The parent chain of `p` ends in `u`. -/
inductive Root (par : ι → Option ι) : ι → ι → Prop
  | here {p : ι} : par p = none → Root par p p
  | up {p q u : ι} : par p = some q → Root par q u → Root par p u

theorem Root.parent_eq_none {p u : ι} (h : Root par p u) : par u = none := by
  induction h with
  | here hp => exact hp
  | up _ _ ih => exact ih

theorem Root.unique {p u v : ι} (h : Root par p u) (h' : Root par p v) : u = v := by
  induction h with
  | here hp =>
    cases h' with
    | here _ => rfl
    | up hq _ => simp [hp] at hq
  | up hp _ ih =>
    cases h' with
    | here hq => simp [hp] at hq
    | up hq hrest =>
      obtain rfl : _ = _ := Option.some.inj (hp.symm.trans hq)
      exact ih hrest

theorem Root.of_parent {p q u : ι} (hp : par p = some q) (h : Root par p u) : Root par q u := by
  cases h with
  | here hn => simp [hn] at hp
  | up hq hrest =>
    obtain rfl : _ = _ := Option.some.inj (hp.symm.trans hq)
    exact hrest

/-- The parent chain of `p` has `n` links. -/
inductive Depth (par : ι → Option ι) : ι → ℕ → Prop
  | zero {p : ι} : par p = none → Depth par p 0
  | succ {p q : ι} {n : ℕ} : par p = some q → Depth par q n → Depth par p (n + 1)

theorem Root.exists_depth {p u : ι} (h : Root par p u) : ∃ n, Depth par p n := by
  induction h with
  | here hp => exact ⟨0, .zero hp⟩
  | up hp _ ih => exact ih.imp' Nat.succ fun _ hn => .succ hp hn

theorem Depth.unique {p : ι} {n m : ℕ} (h : Depth par p n) (h' : Depth par p m) : n = m := by
  induction h generalizing m with
  | zero hp =>
    cases h' with
    | zero _ => rfl
    | succ hq _ => simp [hp] at hq
  | succ hp _ ih =>
    cases h' with
    | zero hq => simp [hp] at hq
    | succ hq hrest =>
      obtain rfl : _ = _ := Option.some.inj (hp.symm.trans hq)
      rw [ih hrest]

/-- The non-root nodes of a chain, without repetition: their depths all differ. -/
theorem Depth.exists_chain {p : ι} {n : ℕ} (h : Depth par p n) :
    ∃ chain : List ι, chain.Nodup ∧ chain.length = n ∧
      ∀ x ∈ chain, (par x).isSome ∧ ∃ k ≤ n, Depth par x k := by
  induction h with
  | zero _ => exact ⟨[], by simp⟩
  | @succ p q n hp hq ih =>
    obtain ⟨chain, hnodup, hlen, hmem⟩ := ih
    refine ⟨p :: chain, List.nodup_cons.mpr ⟨fun hp' => ?_, hnodup⟩, by simp [hlen], ?_⟩
    · obtain ⟨_, k, hk, hdepth⟩ := hmem p hp'
      have := hdepth.unique (.succ hp hq)
      omega
    · intro x hx
      rcases List.mem_cons.mp hx with rfl | hx
      · exact ⟨by simp [hp], n + 1, Nat.le_refl _, .succ hp hq⟩
      · obtain ⟨hsome, k, hk, hdepth⟩ := hmem x hx
        exact ⟨hsome, k, Nat.le_succ_of_le hk, hdepth⟩

theorem Depth.le_length {p : ι} {n : ℕ} (h : Depth par p n) {nodes : List ι}
    (hnodes : ∀ x, (par x).isSome → x ∈ nodes) : n ≤ nodes.length := by
  obtain ⟨chain, hnodup, rfl, hmem⟩ := h.exists_chain
  exact (hnodup.subperm fun x hx => hnodes x (hmem x hx).1).length_le

variable [DecidableEq ι]

theorem Root.link {a b p u : ι} (ha : par a = none) (hb : par b = none) (hab : a ≠ b)
    (h : Root par p u) :
    Root (Function.update par a (some b)) p (if u = a then b else u) := by
  induction h with
  | @here p hp =>
    by_cases hpa : p = a
    · subst hpa
      rw [if_pos rfl]
      refine .up (Function.update_self ..) (.here ?_)
      rw [Function.update_of_ne hab.symm, hb]
    · rw [if_neg hpa]
      exact .here (by rw [Function.update_of_ne hpa, hp])
  | @up p q u hp _ ih =>
    have hpa : p ≠ a := by
      rintro rfl
      simp [ha] at hp
    exact .up (by rw [Function.update_of_ne hpa, hp]) ih

theorem Root.shortcut {p q u x v : ι} (hp : par p = some q) (hu : Root par p u)
    (h : Root par x v) : Root (Function.update par p (some u)) x v := by
  have hup : u ≠ p := by
    rintro rfl
    simp [hu.parent_eq_none] at hp
  induction h with
  | @here x hx =>
    have hxp : x ≠ p := by
      rintro rfl
      simp [hx] at hp
    exact .here (by rw [Function.update_of_ne hxp, hx])
  | @up x y v hx hrest ih =>
    by_cases hxp : x = p
    · subst hxp
      obtain rfl := hu.unique (.up hx hrest)
      refine .up (Function.update_self ..) (.here ?_)
      rw [Function.update_of_ne hup, hu.parent_eq_none]
    · exact .up (by rw [Function.update_of_ne hxp, hx]) ih

end Forest
