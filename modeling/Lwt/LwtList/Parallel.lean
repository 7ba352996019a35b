import Mathlib.Data.List.Forall2
import Lwt.Library.Instants

/-!
# The parallel functions of `Lwt_list`

The functions `_p` call their function for all elements at once, and get the list of the promises
in the reverse order, which they bind one after the other from the last one on.  The functions
`_s` make each call when the promise of the one before is fulfilled.

Two calls on the same element have different promises, so the function of the user has the number
of the call as an argument.  Its promises are fulfilled at arbitrary instants.  The results do not
depend on these instants, and are those of the functions on lists (`parallel_agrees`).
-/

namespace Lwt.LwtList

open Instants Promise

variable {ε α β A R : Type}

/-- What the call of a function does: it returns a promise or raises. -/
abbrev Call (ε β : Type) := Except ε (Promise ε β)

/-- `Lwt.apply` -/
def apply : Call ε β → Promise ε β
  | .ok p => p
  | .error exn => resolved (.error exn)

def return_ (a : α) : Promise ε α := resolved (.ok a)

/-! ## The calls that are made at once -/

/-- `List.rev_map (Lwt.apply f)`, with the arguments of the calls so far. -/
def revMapApply (f : ℕ → α → Call ε β) (calls : List α) (acc : List (Promise ε β)) :
    List α → List α × List (Promise ε β)
  | [] => (calls, acc)
  | x :: l => revMapApply f (calls ++ [x]) (apply (f calls.length x) :: acc) l

/-- `tail_recursive_mapi_rev (fun i -> Lwt.apply (f i))` -/
def mapiRevApply (f : ℕ → ℕ → α → Call ε β) (calls : List (ℕ × α)) (acc : List (Promise ε β))
    (i : ℕ) : List α → List (ℕ × α) × List (Promise ε β)
  | [] => (calls, acc)
  | x :: l => mapiRevApply f (calls ++ [(i, x)]) (apply (f calls.length i x) :: acc) (i + 1) l

/-! ## Iteration -/

/-- `n` is the number of the calls before. -/
def iterSFrom (f : ℕ → α → Call ε Unit) (n : ℕ) : List α → Promise ε Unit
  | [] => return_ ()
  | x :: l => (apply (f n x)).bind fun _ => iterSFrom f (n + 1) l

def iterS (f : ℕ → α → Call ε Unit) (l : List α) : Promise ε Unit := iterSFrom f 0 l

/-- The arguments of the calls, and the promise. -/
def iterP (f : ℕ → α → Call ε Unit) (l : List α) : List α × Promise ε Unit :=
  let (calls, ts) := revMapApply f [] [] l
  (calls, join ts)

def iteriSFrom (f : ℕ → ℕ → α → Call ε Unit) (n i : ℕ) : List α → Promise ε Unit
  | [] => return_ ()
  | x :: l => (apply (f n i x)).bind fun _ => iteriSFrom f (n + 1) (i + 1) l

def iteriS (f : ℕ → ℕ → α → Call ε Unit) (l : List α) : Promise ε Unit := iteriSFrom f 0 0 l

def iteriP (f : ℕ → ℕ → α → Call ε Unit) (l : List α) : List (ℕ × α) × Promise ε Unit :=
  let (calls, ts) := mapiRevApply f [] [] 0 l
  (calls, join ts)

/-! ## Maps -/

def mapSInner (f : ℕ → α → Call ε β) (n : ℕ) (acc : List β) : List α → Promise ε (List β)
  | [] => return_ acc.reverse
  | hd :: tl => (apply (f n hd)).bind fun r => mapSInner f (n + 1) (r :: acc) tl

def mapS (f : ℕ → α → Call ε β) (l : List α) : Promise ε (List β) := mapSInner f 0 [] l

/-- `_collect_rev` -/
def collectRev (acc : List β) : List (Promise ε β) → Promise ε (List β)
  | [] => return_ acc
  | t :: ts => t.bind fun i => collectRev (i :: acc) ts

def mapP (f : ℕ → α → Call ε β) (l : List α) : Promise ε (List β) :=
  collectRev [] (revMapApply f [] [] l).2

def filterMapSInner (f : ℕ → α → Call ε (Option β)) (n : ℕ) (acc : List β) :
    List α → Promise ε (List β)
  | [] => return_ acc.reverse
  | hd :: tl => (apply (f n hd)).bind fun
    | some v => filterMapSInner f (n + 1) (v :: acc) tl
    | none => filterMapSInner f (n + 1) acc tl

def filterMapS (f : ℕ → α → Call ε (Option β)) (l : List α) : Promise ε (List β) :=
  filterMapSInner f 0 [] l

/-- `_collect_optional_rev` -/
def collectOptionalRev (acc : List β) : List (Promise ε (Option β)) → Promise ε (List β)
  | [] => return_ acc
  | t :: ts => t.bind fun
    | some v => collectOptionalRev (v :: acc) ts
    | none => collectOptionalRev acc ts

def filterMapP (f : ℕ → α → Call ε (Option β)) (l : List α) : Promise ε (List β) :=
  collectOptionalRev [] (revMapApply f [] [] l).2

def mapiSInner (f : ℕ → ℕ → α → Call ε β) (n : ℕ) (acc : List β) (i : ℕ) :
    List α → Promise ε (List β)
  | [] => return_ acc.reverse
  | hd :: tl => (apply (f n i hd)).bind fun v => mapiSInner f (n + 1) (v :: acc) (i + 1) tl

def mapiS (f : ℕ → ℕ → α → Call ε β) (l : List α) : Promise ε (List β) := mapiSInner f 0 [] 0 l

def mapiP (f : ℕ → ℕ → α → Call ε β) (l : List α) : Promise ε (List β) :=
  collectRev [] (mapiRevApply f [] [] 0 l).2

def revMapAppendS (f : ℕ → α → Call ε β) (n : ℕ) (acc : List β) : List α → Promise ε (List β)
  | [] => return_ acc
  | x :: l => (apply (f n x)).bind fun x => revMapAppendS f (n + 1) (x :: acc) l

def revMapS (f : ℕ → α → Call ε β) (l : List α) : Promise ε (List β) := revMapAppendS f 0 [] l

/-- The calls are made at once, and the promise `acc` of the elements before is under way. -/
def revMapAppendP (f : ℕ → α → Call ε β) (n : ℕ) (acc : Promise ε (List β)) :
    List α → Promise ε (List β)
  | [] => acc
  | x :: l =>
    revMapAppendP f (n + 1)
      ((apply (f n x)).bind fun x => acc.bind fun l => return_ (x :: l)) l

def revMapP (f : ℕ → α → Call ε β) (l : List α) : Promise ε (List β) :=
  revMapAppendP f 0 (return_ []) l

/-! ## Searching -/

def forAllSFrom (f : ℕ → α → Call ε Bool) (n : ℕ) : List α → Promise ε Bool
  | [] => return_ true
  | x :: l => (apply (f n x)).bind fun
    | true => forAllSFrom f (n + 1) l
    | false => return_ false

def forAllS (f : ℕ → α → Call ε Bool) (l : List α) : Promise ε Bool := forAllSFrom f 0 l

def forAllP (f : ℕ → α → Call ε Bool) (l : List α) : Promise ε Bool :=
  (mapP f l).bind fun bl => return_ (bl.all id)

def existsSFrom (f : ℕ → α → Call ε Bool) (n : ℕ) : List α → Promise ε Bool
  | [] => return_ false
  | x :: l => (apply (f n x)).bind fun
    | true => return_ true
    | false => existsSFrom f (n + 1) l

def existsS (f : ℕ → α → Call ε Bool) (l : List α) : Promise ε Bool := existsSFrom f 0 l

def existsP (f : ℕ → α → Call ε Bool) (l : List α) : Promise ε Bool :=
  (mapP f l).bind fun bl => return_ (bl.any id)

/-- `_optionalize` does not guard the call. -/
def optionalize (f : ℕ → α → Call ε Bool) (n : ℕ) (x : α) : Call ε (Option α) :=
  match f n x with
  | .error exn => .error exn
  | .ok p => .ok (p.bind fun b => if b then return_ (some x) else return_ none)

def filterS (f : ℕ → α → Call ε Bool) (l : List α) : Promise ε (List α) :=
  filterMapS (optionalize f) l

def filterP (f : ℕ → α → Call ε Bool) (l : List α) : Promise ε (List α) :=
  filterMapP (optionalize f) l

def partitionSInner (f : ℕ → α → Call ε Bool) (n : ℕ) (acc1 acc2 : List α) :
    List α → Promise ε (List α × List α)
  | [] => return_ (acc1.reverse, acc2.reverse)
  | hd :: tl => (apply (f n hd)).bind fun b =>
    if b then partitionSInner f (n + 1) (hd :: acc1) acc2 tl
    else partitionSInner f (n + 1) acc1 (hd :: acc2) tl

def partitionS (f : ℕ → α → Call ε Bool) (l : List α) : Promise ε (List α × List α) :=
  partitionSInner f 0 [] [] l

def partitionP (f : ℕ → α → Call ε Bool) (l : List α) : Promise ε (List α × List α) :=
  let g := fun n x => Except.ok ((apply (f n x)).bind fun b => return_ (b, x))
  (mapP g l).bind fun tl =>
    let group1 := (tl.filter fun x => x.1).map fun x => x.2
    let group2 := (tl.filter fun x => !x.1).map fun x => x.2
    return_ (group1, group2)

/-! ## The promises of the calls -/

/-- The promises of the calls of `f` are fulfilled, at some instants, with the values of `g`. -/
def Gives (f : ℕ → α → Call ε β) (g : α → β) : Prop :=
  ∀ n x, ∃ p, f n x = .ok p ∧ p.Becomes (g x)

variable {f : ℕ → α → Call ε β} {g : α → β} {n : ℕ}

/-- The promises in the order of the list. -/
def promises (f : ℕ → α → Call ε β) (n : ℕ) : List α → List (Promise ε β)
  | [] => []
  | x :: l => apply (f n x) :: promises f (n + 1) l

theorem Gives.apply (h : Gives f g) (n : ℕ) (x : α) : (apply (f n x)).Becomes (g x) := by
  obtain ⟨p, hp, hbecomes⟩ := h n x
  rw [hp]
  exact hbecomes

theorem Gives.promises (h : Gives f g) (l : List α) :
    ∀ n, List.Forall₂ Becomes (promises f n l) (l.map g) := by
  induction l with
  | nil => exact fun n => .nil
  | cons x l ih => exact fun n => .cons (h.apply n x) (ih (n + 1))

theorem revMapApply_eq (l : List α) : ∀ calls acc,
    revMapApply f calls acc l = (calls ++ l, (promises f calls.length l).reverse ++ acc) := by
  induction l with
  | nil => exact fun calls acc => by simp [revMapApply, LwtList.promises]
  | cons x l ih =>
    intro calls acc
    rw [revMapApply, ih, List.length_append, List.length_singleton, LwtList.promises,
      List.reverse_cons, List.append_assoc, List.append_assoc]
    rfl

/-- The elements with their indices, from `i` on. -/
def indexed (i : ℕ) (l : List α) : List (ℕ × α) := l.mapIdx fun j x => (i + j, x)

theorem indexed_cons (i : ℕ) (x : α) (l : List α) :
    indexed i (x :: l) = (i, x) :: indexed (i + 1) l := by
  unfold indexed
  rw [List.mapIdx_cons]
  simp only [Nat.add_zero, Nat.add_assoc, Nat.add_comm 1]

theorem map_indexed (g : ℕ → α → β) (l : List α) : ∀ i,
    (indexed i l).map (fun x => g x.1 x.2) = l.mapIdx fun j => g (i + j) := by
  induction l with
  | nil => exact fun i => rfl
  | cons x l ih =>
    intro i
    rw [indexed_cons, List.map_cons, ih, List.mapIdx_cons]
    simp only [Nat.add_zero, Nat.add_assoc, Nat.add_comm 1]

/-- A function of the index is one of the pair of the index and the element. -/
theorem mapiRevApply_eq {f : ℕ → ℕ → α → Call ε β} (l : List α) : ∀ calls acc i,
    mapiRevApply f calls acc i l =
      revMapApply (fun n (x : ℕ × α) => f n x.1 x.2) calls acc (indexed i l) := by
  induction l with
  | nil => exact fun calls acc i => rfl
  | cons x l ih =>
    intro calls acc i
    rw [mapiRevApply, ih, indexed_cons, revMapApply]

theorem mem_promises {p : Promise ε β} {l : List α} :
    ∀ n, p ∈ promises f n l ↔ ∃ i x, l[i]? = some x ∧ p = LwtList.apply (f (n + i) x) := by
  induction l with
  | nil => exact fun n => by simp [LwtList.promises]
  | cons x l ih =>
    intro n
    rw [LwtList.promises, List.mem_cons, ih]
    constructor
    · rintro (rfl | ⟨i, y, hi, rfl⟩)
      · exact ⟨0, x, rfl, rfl⟩
      · exact ⟨i + 1, y, hi, by rw [Nat.add_assoc, Nat.add_comm 1]⟩
    · rintro ⟨i, y, hi, rfl⟩
      cases i with
      | zero =>
        cases hi
        exact .inl rfl
      | succ i => exact .inr ⟨i, y, hi, by rw [Nat.add_assoc, Nat.add_comm 1]⟩

/-! ## The collections -/

theorem becomes_return (a : α) : (return_ a : Promise ε α).Becomes a := becomes_resolved a

theorem collectRev_becomes {ts : List (Promise ε β)} {vs : List β}
    (h : List.Forall₂ Becomes ts vs) :
    ∀ acc, (collectRev acc ts).Becomes (vs.reverse ++ acc) := by
  induction h with
  | nil => exact fun acc => becomes_return acc
  | cons ht _ ih =>
    intro acc
    rw [List.reverse_cons, List.append_assoc]
    exact ht.bind (ih _)

theorem collectOptionalRev_becomes {ts : List (Promise ε (Option β))} {vs : List (Option β)}
    (h : List.Forall₂ Becomes ts vs) :
    ∀ acc, (collectOptionalRev acc ts).Becomes (vs.reverse.filterMap id ++ acc) := by
  induction h with
  | nil => exact fun acc => becomes_return acc
  | @cons t v ts vs ht _ ih =>
    intro acc
    rw [List.reverse_cons, List.filterMap_append, List.append_assoc]
    refine ht.bind ?_
    cases v with
    | none => exact ih acc
    | some v => exact ih (v :: acc)

theorem revMapApply_becomes (h : Gives f g) (l : List α) :
    List.Forall₂ Becomes (revMapApply f [] [] l).2 (l.map g).reverse := by
  rw [revMapApply_eq, List.append_nil]
  exact List.rel_reverse (h.promises l 0)

theorem mapP_becomes (h : Gives f g) (l : List α) : (mapP f l).Becomes (l.map g) := by
  have hcollect := collectRev_becomes (revMapApply_becomes h l) []
  rw [List.reverse_reverse, List.append_nil] at hcollect
  exact hcollect

theorem filterMapP_becomes {f : ℕ → α → Call ε (Option β)} {g : α → Option β} (h : Gives f g)
    (l : List α) : (filterMapP f l).Becomes (l.filterMap g) := by
  have hcollect := collectOptionalRev_becomes (revMapApply_becomes h l) []
  rw [List.reverse_reverse, List.append_nil, List.filterMap_map] at hcollect
  exact hcollect

theorem mapiP_becomes {f : ℕ → ℕ → α → Call ε β} {g : ℕ → α → β} (h : ∀ i, Gives (f · i) (g i))
    (l : List α) : (mapiP f l).Becomes (l.mapIdx g) := by
  have hpairs : Gives (fun n (x : ℕ × α) => f n x.1 x.2) fun x => g x.1 x.2 :=
    fun n x => h x.1 n x.2
  have hmap := mapP_becomes hpairs (indexed 0 l)
  rw [map_indexed] at hmap
  simp only [Nat.zero_add] at hmap
  unfold mapiP
  rw [mapiRevApply_eq]
  exact hmap

theorem revMapAppendP_becomes (h : Gives f g) (l : List α) :
    ∀ n {acc : Promise ε (List β)} {as : List β}, acc.Becomes as →
      (revMapAppendP f n acc l).Becomes ((l.map g).reverse ++ as) := by
  induction l with
  | nil => exact fun n acc as hacc => hacc
  | cons x l ih =>
    intro n acc as hacc
    rw [List.map_cons, List.reverse_cons, List.append_assoc]
    exact ih (n + 1) ((h.apply n x).bind (hacc.bind (becomes_return _)))

/-! ## The calls one after the other -/

theorem iterSFrom_becomes {f : ℕ → α → Call ε Unit} {g : α → Unit} (h : Gives f g) (l : List α) :
    ∀ n, (iterSFrom f n l).Becomes () := by
  induction l with
  | nil => exact fun n => becomes_return ()
  | cons x l ih => exact fun n => (h.apply n x).bind (ih (n + 1))

theorem iteriSFrom_becomes {f : ℕ → ℕ → α → Call ε Unit} {g : ℕ → α → Unit}
    (h : ∀ i, Gives (f · i) (g i)) (l : List α) : ∀ n i, (iteriSFrom f n i l).Becomes () := by
  induction l with
  | nil => exact fun n i => becomes_return ()
  | cons x l ih => exact fun n i => ((h i).apply n x).bind (ih (n + 1) (i + 1))

theorem mapSInner_becomes (h : Gives f g) (l : List α) :
    ∀ n acc, (mapSInner f n acc l).Becomes (acc.reverse ++ l.map g) := by
  induction l with
  | nil =>
    intro n acc
    rw [List.map_nil, List.append_nil]
    exact becomes_return _
  | cons x l ih =>
    intro n acc
    have hrest := ih (n + 1) (g x :: acc)
    rw [List.reverse_cons, List.append_assoc] at hrest
    exact (h.apply n x).bind hrest

theorem mapiSInner_becomes {f : ℕ → ℕ → α → Call ε β} {g : ℕ → α → β}
    (h : ∀ i, Gives (f · i) (g i)) (l : List α) : ∀ n acc i,
      (mapiSInner f n acc i l).Becomes (acc.reverse ++ (indexed i l).map fun x => g x.1 x.2) := by
  induction l with
  | nil =>
    intro n acc i
    have hnil : (indexed i ([] : List α)).map (fun x => g x.1 x.2) = [] := rfl
    rw [hnil, List.append_nil]
    exact becomes_return _
  | cons x l ih =>
    intro n acc i
    have hrest := ih (n + 1) (g i x :: acc) (i + 1)
    rw [List.reverse_cons, List.append_assoc] at hrest
    rw [indexed_cons, List.map_cons]
    exact ((h i).apply n x).bind hrest

theorem filterMapSInner_becomes {f : ℕ → α → Call ε (Option β)} {g : α → Option β} (h : Gives f g)
    (l : List α) : ∀ n acc, (filterMapSInner f n acc l).Becomes (acc.reverse ++ l.filterMap g) := by
  induction l with
  | nil =>
    intro n acc
    rw [List.filterMap_nil, List.append_nil]
    exact becomes_return _
  | cons x l ih =>
    intro n acc
    refine (h.apply n x).bind ?_
    cases hg : g x with
    | none =>
      rw [List.filterMap_cons_none hg]
      exact ih (n + 1) acc
    | some v =>
      have hrest := ih (n + 1) (v :: acc)
      rw [List.reverse_cons, List.append_assoc] at hrest
      rw [List.filterMap_cons_some hg]
      exact hrest

theorem revMapAppendS_becomes (h : Gives f g) (l : List α) :
    ∀ n acc, (revMapAppendS f n acc l).Becomes ((l.map g).reverse ++ acc) := by
  induction l with
  | nil => exact fun n acc => becomes_return acc
  | cons x l ih =>
    intro n acc
    rw [List.map_cons, List.reverse_cons, List.append_assoc]
    exact (h.apply n x).bind (ih (n + 1) (g x :: acc))

theorem forAllSFrom_becomes {f : ℕ → α → Call ε Bool} {g : α → Bool} (h : Gives f g)
    (l : List α) : ∀ n, (forAllSFrom f n l).Becomes (l.all g) := by
  induction l with
  | nil => exact fun n => becomes_return true
  | cons x l ih =>
    intro n
    rw [List.all_cons]
    refine (h.apply n x).bind ?_
    cases g x with
    | true => exact ih (n + 1)
    | false => exact becomes_return false

theorem existsSFrom_becomes {f : ℕ → α → Call ε Bool} {g : α → Bool} (h : Gives f g)
    (l : List α) : ∀ n, (existsSFrom f n l).Becomes (l.any g) := by
  induction l with
  | nil => exact fun n => becomes_return false
  | cons x l ih =>
    intro n
    rw [List.any_cons]
    refine (h.apply n x).bind ?_
    cases g x with
    | true => exact becomes_return true
    | false => exact ih (n + 1)

theorem Gives.optionalize {f : ℕ → α → Call ε Bool} {g : α → Bool} (h : Gives f g) :
    Gives (optionalize f) fun x => if g x then some x else none := by
  intro n x
  obtain ⟨p, hp, hbecomes⟩ := h n x
  refine ⟨p.bind fun b => if b then return_ (some x) else return_ none, ?_, hbecomes.bind ?_⟩
  · unfold LwtList.optionalize
    rw [hp]
  · dsimp only
    cases g x <;> exact becomes_return _

theorem filterMap_optionalize (g : α → Bool) (l : List α) :
    l.filterMap (fun x => if g x then some x else none) = l.filter g := by
  rw [← List.filterMap_eq_filter]
  rfl

theorem partitionSInner_becomes {f : ℕ → α → Call ε Bool} {g : α → Bool} (h : Gives f g)
    (l : List α) : ∀ n acc1 acc2, (partitionSInner f n acc1 acc2 l).Becomes
      (acc1.reverse ++ l.filter g, acc2.reverse ++ l.filter fun x => !g x) := by
  induction l with
  | nil =>
    intro n acc1 acc2
    rw [List.filter_nil, List.filter_nil, List.append_nil, List.append_nil]
    exact becomes_return _
  | cons x l ih =>
    intro n acc1 acc2
    refine (h.apply n x).bind ?_
    cases hg : g x with
    | true =>
      have hrest := ih (n + 1) (x :: acc1) acc2
      rw [List.reverse_cons, List.append_assoc] at hrest
      rw [List.filter_cons_of_pos hg, List.filter_cons_of_neg (by simp [hg])]
      exact hrest
    | false =>
      have hrest := ih (n + 1) acc1 (x :: acc2)
      rw [List.reverse_cons, List.append_assoc] at hrest
      rw [List.filter_cons_of_neg (by simp [hg]), List.filter_cons_of_pos (by simp [hg])]
      exact hrest

theorem partitionP_becomes {f : ℕ → α → Call ε Bool} {g : α → Bool} (h : Gives f g)
    (l : List α) : (partitionP f l).Becomes (l.partition g) := by
  have hpairs : Gives (fun n x => Except.ok ((apply (f n x)).bind fun b => return_ (b, x)))
      fun x => (g x, x) :=
    fun n x => ⟨_, rfl, (h.apply n x).bind (becomes_return _)⟩
  refine (mapP_becomes hpairs l).bind ?_
  rw [List.filter_map, List.filter_map, List.map_map, List.map_map, List.partition_eq_filter_filter]
  have hid : ((fun x : Bool × α => x.2) ∘ fun x => (g x, x)) = id := rfl
  rw [hid, List.map_id, List.map_id]
  exact becomes_return _

/-! ## All functions -/

theorem iterP_eq (f : ℕ → α → Call ε Unit) (l : List α) :
    iterP f l = (l, join (promises f 0 l).reverse) := by
  unfold iterP
  rw [revMapApply_eq, List.append_nil]
  rfl

theorem iteriP_eq (f : ℕ → ℕ → α → Call ε Unit) (l : List α) :
    iteriP f l = (indexed 0 l,
      join (promises (fun n (x : ℕ × α) => f n x.1 x.2) 0 (indexed 0 l)).reverse) := by
  unfold iteriP
  rw [mapiRevApply_eq, revMapApply_eq, List.append_nil]
  rfl

theorem join_promises_resolvedAt (f : ℕ → α → Call ε Unit) (l : List α) (t : ℕ) :
    (join (promises f 0 l).reverse).ResolvedAt t ↔
      ∀ i x, l[i]? = some x → (apply (f i x)).ResolvedAt t := by
  rw [join_resolvedAt]
  simp only [List.mem_reverse, mem_promises]
  constructor
  · intro h i x hi
    exact h _ ⟨i, x, hi, by rw [Nat.zero_add]⟩
  · rintro h p ⟨i, x, hi, rfl⟩
    rw [Nat.zero_add]
    exact h i x hi

theorem join_promises_becomes {f : ℕ → α → Call ε Unit} {g : α → Unit} (h : Gives f g)
    (l : List α) : (join (promises f 0 l).reverse).Becomes () := by
  refine join_becomes fun p hp => ?_
  rw [List.mem_reverse, mem_promises] at hp
  obtain ⟨i, x, _, rfl⟩ := hp
  exact h.apply _ x

theorem indexed_getElem? {l : List α} {i : ℕ} {x : ℕ × α} :
    (indexed 0 l)[i]? = some x ↔ x.1 = i ∧ l[i]? = some x.2 := by
  unfold indexed
  rw [List.getElem?_mapIdx, Option.map_eq_some_iff, Nat.zero_add]
  constructor
  · rintro ⟨y, hy, rfl⟩
    exact ⟨rfl, hy⟩
  · rintro ⟨rfl, hx⟩
    exact ⟨x.2, hx, rfl⟩

/-- Whatever the instants are at which the promises of the calls are fulfilled, the parallel and
the sequential functions give what the functions on lists give.  `iter_p` and `iteri_p` make their
calls in the order of the list, and are resolved at the instant at which all promises are. -/
theorem parallel_agrees (l : List α) :
    (∀ (f : ℕ → α → Call ε β) g, Gives f g →
      (mapS f l).Becomes (l.map g) ∧ (mapP f l).Becomes (l.map g) ∧
      (revMapS f l).Becomes (l.map g).reverse ∧ (revMapP f l).Becomes (l.map g).reverse) ∧
    (∀ (f : ℕ → ℕ → α → Call ε β) g, (∀ i, Gives (f · i) (g i)) →
      (mapiS f l).Becomes (l.mapIdx g) ∧ (mapiP f l).Becomes (l.mapIdx g)) ∧
    (∀ (f : ℕ → α → Call ε (Option β)) g, Gives f g →
      (filterMapS f l).Becomes (l.filterMap g) ∧ (filterMapP f l).Becomes (l.filterMap g)) ∧
    (∀ (f : ℕ → α → Call ε Bool) g, Gives f g →
      (filterS f l).Becomes (l.filter g) ∧ (filterP f l).Becomes (l.filter g) ∧
      (partitionS f l).Becomes (l.partition g) ∧ (partitionP f l).Becomes (l.partition g) ∧
      (forAllS f l).Becomes (l.all g) ∧ (forAllP f l).Becomes (l.all g) ∧
      (existsS f l).Becomes (l.any g) ∧ (existsP f l).Becomes (l.any g)) ∧
    (∀ f : ℕ → α → Call ε Unit,
      (iterP f l).1 = l ∧
      (∀ t, (iterP f l).2.ResolvedAt t ↔
        ∀ i x, l[i]? = some x → (apply (f i x)).ResolvedAt t) ∧
      (Gives f (fun _ => ()) → (iterS f l).Becomes () ∧ (iterP f l).2.Becomes ())) ∧
    ∀ f : ℕ → ℕ → α → Call ε Unit,
      (iteriP f l).1 = l.mapIdx Prod.mk ∧
      (∀ t, (iteriP f l).2.ResolvedAt t ↔
        ∀ i x, l[i]? = some x → (apply (f i i x)).ResolvedAt t) ∧
      ((∀ i, Gives (f · i) fun _ => ()) →
        (iteriS f l).Becomes () ∧ (iteriP f l).2.Becomes ()) := by
  refine ⟨fun f g h => ⟨?_, mapP_becomes h l, ?_, ?_⟩, fun f g h => ⟨?_, mapiP_becomes h l⟩,
    fun f g h => ⟨filterMapSInner_becomes h l 0 [], filterMapP_becomes h l⟩,
    fun f g h => ⟨?_, ?_, ?_, partitionP_becomes h l, forAllSFrom_becomes h l 0, ?_,
      existsSFrom_becomes h l 0, ?_⟩,
    fun f => ?_, fun f => ?_⟩
  · exact mapSInner_becomes h l 0 []
  · have hrev := revMapAppendS_becomes h l 0 []
    rw [List.append_nil] at hrev
    exact hrev
  · have hrev := revMapAppendP_becomes h l 0 (becomes_return [])
    rw [List.append_nil] at hrev
    exact hrev
  · have hmap := mapiSInner_becomes h l 0 [] 0
    rw [map_indexed] at hmap
    simp only [Nat.zero_add] at hmap
    exact hmap
  -- `filter` is `filterMap` with the function of `optionalize`
  · rw [← filterMap_optionalize]
    exact filterMapSInner_becomes h.optionalize l 0 []
  · rw [← filterMap_optionalize]
    exact filterMapP_becomes h.optionalize l
  · rw [List.partition_eq_filter_filter]
    exact partitionSInner_becomes h l 0 [] []
  · refine (mapP_becomes h l).bind ?_
    rw [List.all_map]
    exact becomes_return _
  · refine (mapP_becomes h l).bind ?_
    rw [List.any_map]
    exact becomes_return _
  · rw [iterP_eq]
    exact ⟨rfl, join_promises_resolvedAt f l,
      fun h => ⟨iterSFrom_becomes h l 0, join_promises_becomes h l⟩⟩
  · rw [iteriP_eq]
    refine ⟨?_, fun t => ?_, fun h => ⟨iteriSFrom_becomes h l 0 0, ?_⟩⟩
    · unfold indexed
      simp only [Nat.zero_add]
    · refine (join_promises_resolvedAt _ _ t).trans ?_
      simp only [indexed_getElem?]
      constructor
      · exact fun h i x hi => h i (i, x) ⟨rfl, hi⟩
      · rintro h i x ⟨rfl, hi⟩
        exact h x.1 x.2 hi
    · have hpairs : Gives (fun n (x : ℕ × α) => f n x.1 x.2) fun _ => () := fun n x => h x.1 n x.2
      exact join_promises_becomes hpairs _

/-- The promises of three calls are fulfilled in the reverse order. -/
theorem parallel_agrees_reversed :
    (mapP (fun n x => (.ok (fulfilledAt (5 - n) (10 * x)) : Call Unit ℕ)) [1, 2, 3]).Becomes
      [10, 20, 30] :=
  ((parallel_agrees [1, 2, 3]).1 _ (10 * ·) fun _ _ => ⟨_, rfl, becomes_fulfilledAt _ _⟩).2.1

end Lwt.LwtList
