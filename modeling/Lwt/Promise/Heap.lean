import Lwt.Library.Forest
import Lwt.Promise.Types
import Mathlib.Data.List.Range

/-!
# The promise heap and `underlying`

`underlying p` follows the `Proxy _` links of `p` to their end and, on its way back,
points every proxy it went through directly at the promise it found.  A promise heap is
`WellFormed` when every chain of links ends; `underlying` then returns, within as many
calls as there are promises, the root of the chain (`underlying_eq`), and the heap it
leaves has the same roots (`root_compress`) and the same states at them
(`compress_getElem?`).
-/

namespace Lwt

open Forest

variable {U : Type}

/-- The state of a promise that is no proxy. -/
def State.IsUnderlying : State U → Prop
  | .proxy _ => False
  | _ => True

namespace Heap

/-- The promise that the proxy `p` points to. -/
def parent (h : Heap U) (p : Pid) : Option Pid :=
  match h[p]? with
  | some (.proxy q) => some q
  | _ => none

/-- `underlying p`, with the heap after its path compression.  `none`: more than `fuel`
links, which is an endless loop when `fuel` is the number of promises. -/
def underlying (h : Heap U) : ℕ → Pid → Option (Pid × Heap U)
  | 0, _ => none
  | fuel + 1, p =>
    match h[p]? with
    | some (.proxy p') =>
      (underlying h fuel p').map fun (p'', h') =>
        (p'', if p'' = p' then h' else h'.set p (.proxy p''))
    | _ => some (p, h)

/-- The promise `underlying p` evaluates to. -/
def root (h : Heap U) (p : Pid) : Pid :=
  ((underlying h (h.length + 1) p).map Prod.fst).getD p

/-- The heap that `underlying p` leaves. -/
def compress (h : Heap U) (p : Pid) : Heap U :=
  ((underlying h (h.length + 1) p).map Prod.snd).getD h

/-- The heap after `underlying` of each promise of a list. -/
def compressAll (h : Heap U) (ps : List Pid) : Heap U :=
  ps.foldl compress h

/-- `(underlying p).state`. -/
def stateOf (h : Heap U) (p : Pid) : Option (State U) :=
  h[h.root p]?

/-- Every chain of proxy links ends, and none leaves the heap. -/
structure WellFormed (h : Heap U) : Prop where
  exists_root : ∀ p, ∃ u, Root h.parent p u
  parent_lt : ∀ p q, h.parent p = some q → q < h.length

/-! ## Parents after an update -/

variable {h h' : Heap U} {p q u : Pid}

theorem parent_eq_some_iff : h.parent p = some q ↔ h[p]? = some (.proxy q) := by
  unfold parent
  split <;> simp_all

theorem parent_eq_none_of_getElem? {s : State U} (hs : h[p]? = some s) (hu : s.IsUnderlying) :
    h.parent p = none := by
  cases s with
  | proxy q => exact hu.elim
  | _ => simp [parent, hs]

theorem lt_length_of_getElem? {s : State U} (hs : h[p]? = some s) : p < h.length :=
  (List.getElem?_eq_some_iff.mp hs).1

theorem parent_set_proxy (hp : p < h.length) :
    Heap.parent (h.set p (.proxy q)) = Function.update h.parent p (some q) := by
  funext x
  by_cases hx : x = p
  · subst hx
    simp [parent, hp]
  · rw [Function.update_of_ne hx]
    simp [parent, List.getElem?_set_ne (Ne.symm hx)]

theorem parent_set_underlying {s s' : State U} (hs : h[p]? = some s) (hu : s.IsUnderlying)
    (hu' : s'.IsUnderlying) : Heap.parent (h.set p s') = h.parent := by
  funext x
  by_cases hx : x = p
  · subst hx
    rw [parent_eq_none_of_getElem? hs hu, parent_eq_none_of_getElem? (s := s') _ hu']
    simp [lt_length_of_getElem? hs]
  · simp [parent, List.getElem?_set_ne (Ne.symm hx)]

theorem parent_append {s : State U} (hu : s.IsUnderlying) :
    Heap.parent (h ++ [s]) = h.parent := by
  funext x
  rcases Nat.lt_trichotomy x h.length with hlt | rfl | hgt
  · simp [parent, List.getElem?_append_left hlt]
  · rw [parent_eq_none_of_getElem? (s := s) (by simp) hu]
    simp [parent]
  · have hlen : (h ++ [s]).length ≤ x := by
      simp only [List.length_append, List.length_singleton]
      omega
    rw [parent, parent, List.getElem?_eq_none hlen, List.getElem?_eq_none (Nat.le_of_lt hgt)]

/-! ## Heaps that differ only by path compression -/

/-- `h'` is `h` with some proxies pointing further along their chains. -/
structure Compressed (h h' : Heap U) : Prop where
  length_eq : h'.length = h.length
  getElem?_eq : ∀ x, h.parent x = none → h'[x]? = h[x]?
  root : ∀ x u, Root h.parent x u → Root h'.parent x u
  parent_lt : (∀ p q, h.parent p = some q → q < h.length) →
    ∀ p q, h'.parent p = some q → q < h'.length

theorem Compressed.refl (h : Heap U) : Compressed h h :=
  ⟨rfl, fun _ _ => rfl, fun _ _ hx => hx, fun hlt => hlt⟩

theorem Compressed.parent_eq_none (hc : Compressed h h') (hx : h.parent p = none) :
    h'.parent p = none :=
  (hc.root p p (.here hx)).parent_eq_none

theorem Compressed.trans {h'' : Heap U} (hc : Compressed h h') (hc' : Compressed h' h'') :
    Compressed h h'' where
  length_eq := hc'.length_eq.trans hc.length_eq
  getElem?_eq x hx :=
    (hc'.getElem?_eq x (hc.parent_eq_none hx)).trans (hc.getElem?_eq x hx)
  root x u hx := hc'.root x u (hc.root x u hx)
  parent_lt hlt := hc'.parent_lt (hc.parent_lt hlt)

theorem Compressed.wellFormed (hc : Compressed h h') (hwf : h.WellFormed) : h'.WellFormed :=
  ⟨fun p => (hwf.exists_root p).imp fun u hu => hc.root p u hu, hc.parent_lt hwf.parent_lt⟩

/-- A chain that starts inside a heap whose links stay inside ends inside. -/
theorem root_lt (hlt : ∀ p q, h.parent p = some q → q < h.length) (hu : Root h.parent p u)
    (hp : p < h.length) : u < h.length := by
  induction hu with
  | here _ => exact hp
  | up hq _ ih => exact ih (hlt _ _ hq)

theorem Compressed.set (hc : Compressed h h') (hp : h.parent p = some q)
    (hu : Root h.parent p u) : Compressed h (h'.set p (.proxy u)) where
  length_eq := by simp [hc.length_eq]
  getElem?_eq x hx := by
    have hxp : p ≠ x := by
      rintro rfl
      simp [hp] at hx
    rw [List.getElem?_set_ne hxp]
    exact hc.getElem?_eq x hx
  root x v hx := by
    have hlt : p < h'.length := by
      rw [hc.length_eq]
      exact lt_length_of_getElem? (parent_eq_some_iff.mp hp)
    rw [parent_set_proxy hlt]
    cases hq : h'.parent p with
    | none =>
      have hroot := (hc.root p u hu).unique (.here hq)
      have := hu.parent_eq_none
      simp [hroot, hp] at this
    | some q' => exact Root.shortcut hq (hc.root p u hu) (hc.root x v hx)
  parent_lt hlt x y hx := by
    have hp' : p < h.length := lt_length_of_getElem? (parent_eq_some_iff.mp hp)
    rw [parent_set_proxy (by rw [hc.length_eq]; exact hp')] at hx
    by_cases hxp : x = p
    · subst hxp
      rw [Function.update_self] at hx
      obtain rfl : u = y := Option.some.inj hx
      simpa [hc.length_eq] using root_lt hlt hu hp'
    · rw [Function.update_of_ne hxp] at hx
      simpa using hc.parent_lt hlt x y hx

theorem underlying_of_depth {n fuel : ℕ} (hdepth : Depth h.parent p n) (hfuel : n < fuel)
    (hu : Root h.parent p u) :
    ∃ h', underlying h fuel p = some (u, h') ∧ Compressed h h' := by
  induction hdepth generalizing fuel with
  | @zero p hp =>
    obtain ⟨fuel, rfl⟩ : ∃ m, fuel = m + 1 := ⟨fuel - 1, by omega⟩
    obtain rfl := hu.unique (.here hp)
    refine ⟨h, ?_, .refl h⟩
    cases hs : h[u]? with
    | none => simp [underlying, hs]
    | some s =>
      cases s with
      | proxy q => simp [parent, hs] at hp
      | _ => simp [underlying, hs]
  | @succ p q n hp _ ih =>
    obtain ⟨fuel, rfl⟩ : ∃ m, fuel = m + 1 := ⟨fuel - 1, by omega⟩
    have hfuel' : n < fuel := by omega
    obtain ⟨h', hunder, hc⟩ := ih hfuel' (hu.of_parent hp)
    refine ⟨if u = q then h' else h'.set p (.proxy u),
      by simp [underlying, parent_eq_some_iff.mp hp, hunder], ?_⟩
    split
    · exact hc
    · exact hc.set hp hu

theorem depth_le_length {n : ℕ} (hdepth : Depth h.parent p n) : n ≤ h.length := by
  have hrange : ∀ x, (h.parent x).isSome → x ∈ List.range h.length := by
    intro x hx
    obtain ⟨y, hy⟩ := Option.isSome_iff_exists.mp hx
    exact List.mem_range.mpr (lt_length_of_getElem? (parent_eq_some_iff.mp hy))
  simpa using hdepth.le_length hrange

theorem underlying_eq (hwf : h.WellFormed) (p : Pid) :
    underlying h (h.length + 1) p = some (h.root p, h.compress p) ∧
      Root h.parent p (h.root p) ∧ Compressed h (h.compress p) := by
  obtain ⟨u, hu⟩ := hwf.exists_root p
  obtain ⟨n, hn⟩ := hu.exists_depth
  obtain ⟨h', hunder, hc⟩ :=
    underlying_of_depth hn (Nat.lt_succ_of_le (depth_le_length hn)) hu
  have hroot : h.root p = u := by simp [root, hunder]
  have hcomp : h.compress p = h' := by simp [compress, hunder]
  rw [hroot, hcomp]
  exact ⟨hunder, hu, hc⟩

theorem root_spec (hwf : h.WellFormed) (p : Pid) : Root h.parent p (h.root p) :=
  (underlying_eq hwf p).2.1

theorem root_eq_of_root (hwf : h.WellFormed) (hu : Root h.parent p u) : h.root p = u :=
  (root_spec hwf p).unique hu

theorem compressed_compress (hwf : h.WellFormed) (p : Pid) : Compressed h (h.compress p) :=
  (underlying_eq hwf p).2.2

theorem compressed_compressAll (hwf : h.WellFormed) (ps : List Pid) :
    Compressed h (h.compressAll ps) := by
  induction ps generalizing h with
  | nil => exact .refl h
  | cons p ps ih =>
    have hc := compressed_compress hwf p
    exact hc.trans (ih (hc.wellFormed hwf))

/-! ## Roots after an update -/

theorem parent_root (hwf : h.WellFormed) (p : Pid) : h.parent (h.root p) = none :=
  (root_spec hwf p).parent_eq_none

theorem root_of_parent_eq_none (hwf : h.WellFormed) (hp : h.parent p = none) : h.root p = p :=
  root_eq_of_root hwf (.here hp)

theorem root_of_getElem? (hwf : h.WellFormed) {s : State U} (hs : h[p]? = some s)
    (hu : s.IsUnderlying) : h.root p = p :=
  root_of_parent_eq_none hwf (parent_eq_none_of_getElem? hs hu)

theorem root_root (hwf : h.WellFormed) (p : Pid) : h.root (h.root p) = h.root p :=
  root_of_parent_eq_none hwf (parent_root hwf p)

theorem Compressed.root_eq (hc : Compressed h h') (hwf : h.WellFormed) (p : Pid) :
    h'.root p = h.root p :=
  root_eq_of_root (hc.wellFormed hwf) (hc.root p _ (root_spec hwf p))

theorem Compressed.getElem?_root (hc : Compressed h h') (hwf : h.WellFormed) (p : Pid) :
    h'[h.root p]? = h[h.root p]? :=
  hc.getElem?_eq _ (parent_root hwf p)

theorem Compressed.stateOf_eq (hc : Compressed h h') (hwf : h.WellFormed) (p : Pid) :
    h'.stateOf p = h.stateOf p := by
  rw [stateOf, stateOf, hc.root_eq hwf, hc.getElem?_root hwf]

theorem wellFormed_of_parent_eq (hpar : h'.parent = h.parent) (hlen : h.length ≤ h'.length)
    (hwf : h.WellFormed) : h'.WellFormed := by
  constructor
  · rw [hpar]
    exact hwf.exists_root
  · intro p q hq
    rw [hpar] at hq
    exact (hwf.parent_lt p q hq).trans_le hlen

theorem root_of_parent_eq (hpar : h'.parent = h.parent) (hlen : h.length ≤ h'.length)
    (hwf : h.WellFormed) (p : Pid) : h'.root p = h.root p := by
  refine root_eq_of_root (wellFormed_of_parent_eq hpar hlen hwf) ?_
  rw [hpar]
  exact root_spec hwf p

theorem root_lt_length (hwf : h.WellFormed) (hp : p < h.length) : h.root p < h.length :=
  root_lt hwf.parent_lt (root_spec hwf p) hp

theorem exists_stateOf (hwf : h.WellFormed) (hp : p < h.length) :
    ∃ s, h.stateOf p = some s ∧ s.IsUnderlying := by
  have hlt := root_lt_length hwf hp
  refine ⟨h[h.root p], by rw [stateOf, List.getElem?_eq_getElem hlt], ?_⟩
  cases hs : h[h.root p] with
  | proxy q =>
    have := parent_root hwf p
    rw [parent, List.getElem?_eq_getElem hlt, hs] at this
    simp at this
  | _ => trivial

theorem link {v : Pid} {su sv : State U} (hwf : h.WellFormed) (hu : h[u]? = some su)
    (hsu : su.IsUnderlying) (hv : h[v]? = some sv) (hsv : sv.IsUnderlying) (huv : u ≠ v) :
    Heap.WellFormed (h.set u (.proxy v)) ∧
      ∀ p, Heap.root (h.set u (.proxy v)) p = if h.root p = u then v else h.root p := by
  have hroot : ∀ p, Root (Heap.parent (h.set u (.proxy v))) p
      (if h.root p = u then v else h.root p) := by
    intro p
    rw [parent_set_proxy (lt_length_of_getElem? hu)]
    exact Root.link (parent_eq_none_of_getElem? hu hsu) (parent_eq_none_of_getElem? hv hsv) huv
      (root_spec hwf p)
  have hwf' : Heap.WellFormed (h.set u (.proxy v)) := by
    refine ⟨fun p => ⟨_, hroot p⟩, fun p q hq => ?_⟩
    rw [parent_set_proxy (lt_length_of_getElem? hu)] at hq
    rw [List.length_set]
    by_cases hp : p = u
    · subst hp
      obtain rfl : v = q := by simpa using hq
      exact lt_length_of_getElem? hv
    · rw [Function.update_of_ne hp] at hq
      exact hwf.parent_lt p q hq
  exact ⟨hwf', fun p => root_eq_of_root hwf' (hroot p)⟩

end Heap

end Lwt
