import Mathlib.Data.Multiset.AddSub
import Mathlib.Data.List.Sort
import Mathlib.Algebra.Ring.Nat

/-!
# `Lwt_pqueue`

Binomial heaps, as in `lwt_pqueue.ml`: a heap is a list of trees with increasing ranks, and
`ins` and `union` link two trees without looking whether their ranks agree.  They do:
`Binomial o r t` says that `t` is the tree of rank `r` that linking builds, and `Increasing`
that the ranks of a heap grow by at least one from tree to tree.  Both are kept by every
operation, and what a heap means is the multiset of its elements.
-/

namespace Lwt

namespace Pqueue

/-- `OrderedType`: `compare x y` is negative, zero or positive. -/
structure OrderedType (α : Type*) where
  compare : α → α → ℤ
  neg_iff : ∀ x y, compare x y < 0 ↔ 0 < compare y x
  trans : ∀ x y z, compare x y ≤ 0 → compare y z ≤ 0 → compare x z ≤ 0

variable {α : Type*}

/-- `x` is not after `y`. -/
def OrderedType.Le (o : OrderedType α) (x y : α) : Prop := o.compare x y ≤ 0

variable (o : OrderedType α)

theorem OrderedType.le_refl (x : α) : o.Le x x := by
  have h := o.neg_iff x x
  unfold OrderedType.Le
  omega

theorem OrderedType.le_of_not_le {x y : α} (h : ¬ o.Le x y) : o.Le y x := by
  have hneg := o.neg_iff y x
  unfold OrderedType.Le at *
  omega

theorem OrderedType.le_trans {x y z : α} (h : o.Le x y) (h' : o.Le y z) : o.Le x z :=
  o.trans x y z h h'

/-! ## The operations -/

variable (α) in
inductive Tree
  | node (x : α) (rank : ℕ) (children : List Tree)

def Tree.root : Tree α → α
  | .node x _ _ => x

def Tree.rank : Tree α → ℕ
  | .node _ r _ => r

def Tree.children : Tree α → List (Tree α)
  | .node _ _ c => c

/-- What the functions raise. -/
inductive Failure
  | notFound
  /-- `assert false` -/
  | assertFalse

def link : Tree α → Tree α → Tree α
  | .node x1 r1 c1, .node x2 r2 c2 =>
    if o.compare x1 x2 ≤ 0 then .node x1 (r1 + 1) (.node x2 r2 c2 :: c1)
    else .node x2 (r2 + 1) (.node x1 r1 c1 :: c2)

def ins (t : Tree α) : List (Tree α) → List (Tree α)
  | [] => [t]
  | t' :: ts => if t.rank < t'.rank then t :: t' :: ts else ins (link o t t') ts

def empty : List (Tree α) := []

def isEmpty (ts : List (Tree α)) : Bool := ts.isEmpty

def add (x : α) (ts : List (Tree α)) : List (Tree α) := ins o (.node x 0 []) ts

def union (ts ts' : List (Tree α)) : List (Tree α) :=
  match ts, ts' with
  | [], ts' => ts'
  | ts, [] => ts
  | t1 :: ts1, t2 :: ts2 =>
    if t1.rank < t2.rank then t1 :: union ts1 (t2 :: ts2)
    else if t2.rank < t1.rank then t2 :: union (t1 :: ts1) ts2
    else ins o (link o t1 t2) (union ts1 ts2)
  termination_by ts.length + ts'.length

def findMin : List (Tree α) → Except Failure α
  | [] => .error .notFound
  | [t] => .ok t.root
  | t :: ts => do
      let x ← findMin ts
      if o.compare t.root x < 0 then .ok t.root else .ok x

def lookupMin : List (Tree α) → Option α
  | [] => none
  | [t] => some t.root
  | t :: ts =>
    match lookupMin ts with
    | none => none
    | some x => if o.compare t.root x < 0 then some t.root else some x

def getMin : List (Tree α) → Except Failure (Tree α × List (Tree α))
  | [] => .error .assertFalse
  | [t] => .ok (t, [])
  | t :: ts => do
      let (t', ts') ← getMin ts
      if o.compare t.root t'.root < 0 then .ok (t, ts) else .ok (t', t :: ts')

def removeMin : List (Tree α) → Except Failure (List (Tree α))
  | [] => .error .notFound
  | ts => do
      let (t, ts) ← getMin o ts
      .ok (union o t.children.reverse ts)

mutual

def sizetree : Tree α → ℕ
  | .node _ _ tl => 1 + sizeFrom 0 tl

/-- The `List.fold_left` of `size`, from `s`. -/
def sizeFrom (s : ℕ) : List (Tree α) → ℕ
  | [] => s
  | t :: l => sizeFrom (s + sizetree t) l

end

def size (l : List (Tree α)) : ℕ := sizeFrom 0 l

/-- The heaps that sequences of operations produce. -/
inductive Made : List (Tree α) → Prop
  | empty : Made empty
  | add (x : α) {h : List (Tree α)} : Made h → Made (add o x h)
  | union {h h' : List (Tree α)} : Made h → Made h' → Made (union o h h')
  | removeMin {h h' : List (Tree α)} : Made h → removeMin o h = .ok h' → Made h'

/-! ## Elements -/

mutual

def Tree.elements : Tree α → Multiset α
  | .node x _ children => x ::ₘ elements children

/-- The elements of a heap. -/
def elements : List (Tree α) → Multiset α
  | [] => 0
  | t :: ts => t.elements + elements ts

end

@[simp] theorem elements_nil : elements ([] : List (Tree α)) = 0 := by simp [elements]

@[simp] theorem elements_cons (t : Tree α) (ts : List (Tree α)) :
    elements (t :: ts) = t.elements + elements ts := by simp [elements]

@[simp] theorem Tree.elements_node (x : α) (r : ℕ) (c : List (Tree α)) :
    (Tree.node x r c).elements = x ::ₘ Pqueue.elements c := by simp [Tree.elements]

theorem elements_perm {ts ts' : List (Tree α)} (h : ts.Perm ts') : elements ts = elements ts' := by
  induction h with
  | nil => rfl
  | cons t _ ih => rw [elements_cons, elements_cons, ih]
  | swap t t' ts => simp only [elements_cons, ← Multiset.add_assoc, Multiset.add_comm t'.elements]
  | trans _ _ ih ih' => exact ih.trans ih'

theorem mem_elements {ts : List (Tree α)} {y : α} :
    y ∈ elements ts ↔ ∃ t ∈ ts, y ∈ t.elements := by
  induction ts with
  | nil => simp
  | cons t ts ih => simp [ih]

theorem Tree.root_mem_elements (t : Tree α) : t.root ∈ t.elements := by
  cases t with
  | node x r c => simp [Tree.root]

theorem elements_eq_zero {ts : List (Tree α)} : elements ts = 0 ↔ ts = [] := by
  cases ts with
  | nil => simp
  | cons t ts =>
    have hroot : t.root ∈ elements (t :: ts) :=
      mem_elements.mpr ⟨t, List.mem_cons_self, t.root_mem_elements⟩
    have hne : elements (t :: ts) ≠ 0 := fun h => by simp [h] at hroot
    simp only [hne, reduceCtorEq]

mutual

theorem sizetree_eq : ∀ t : Tree α, sizetree t = t.elements.card
  | .node x r c => by
      rw [sizetree, sizeFrom_eq, Tree.elements_node, Multiset.card_cons]
      omega

theorem sizeFrom_eq : ∀ (s : ℕ) (ts : List (Tree α)), sizeFrom s ts = s + (elements ts).card
  | s, [] => by simp [sizeFrom]
  | s, t :: ts => by
      rw [sizeFrom, sizeFrom_eq, sizetree_eq, elements_cons, Multiset.card_add]
      omega

end

theorem size_eq (ts : List (Tree α)) : size ts = (elements ts).card := by
  rw [size, sizeFrom_eq, Nat.zero_add]

/-! ## Trees -/

/-- A tree of rank `r`, heap-ordered: two trees of rank `r - 1` linked. -/
inductive Binomial : ℕ → Tree α → Prop
  | leaf (x : α) : Binomial 0 (.node x 0 [])
  | link {r : ℕ} {x : α} {c : List (Tree α)} {t : Tree α} : Binomial r (.node x r c) →
      Binomial r t → o.Le x t.root → Binomial (r + 1) (.node x (r + 1) (t :: c))

variable {o} {r : ℕ} {t t' : Tree α} {ts ts' : List (Tree α)}

theorem Binomial.rank_eq (h : Binomial o r t) : t.rank = r := by
  cases h with
  | leaf x => rfl
  | link _ _ _ => rfl

theorem Binomial.card_elements (h : Binomial o r t) : t.elements.card = 2 ^ r := by
  induction h with
  | leaf x => simp
  | link _ _ _ ih ih' =>
    simp only [Tree.elements_node, elements_cons, Multiset.card_cons, Multiset.card_add] at *
    rw [Nat.pow_succ]
    omega

theorem Binomial.root_le (h : Binomial o r t) {y : α} (hy : y ∈ t.elements) : o.Le t.root y := by
  induction h with
  | leaf x =>
    obtain rfl : y = x := by simpa using hy
    exact o.le_refl _
  | @link r x c t _ _ hle ih ih' =>
    simp only [Tree.elements_node, elements_cons, Multiset.mem_cons, Multiset.mem_add] at *
    rcases hy with rfl | hy | hy
    · exact o.le_refl _
    · exact o.le_trans hle (ih' hy)
    · exact ih (.inr hy)

theorem Binomial.rank_children (h : Binomial o r t) :
    t.children.map Tree.rank = (List.range r).reverse := by
  induction h with
  | leaf x => rfl
  | @link r x c t _ ht _ ih _ =>
    simp only [Tree.children, List.map_cons, ht.rank_eq, List.range_succ,
      List.reverse_append] at *
    simp [ih]

theorem Binomial.child (h : Binomial o r t) {s : Tree α} (hs : s ∈ t.children) :
    Binomial o s.rank s := by
  induction h with
  | leaf x => simp [Tree.children] at hs
  | link _ ht _ ih _ =>
    rcases List.mem_cons.mp hs with rfl | hs
    · exact ht.rank_eq ▸ ht
    · exact ih hs

theorem binomial_link (h : Binomial o r t) (h' : Binomial o r t') :
    Binomial o (r + 1) (Pqueue.link o t t') := by
  obtain ⟨x, r₁, c⟩ := t
  obtain ⟨x', r₂, c'⟩ := t'
  obtain rfl : r₁ = r := h.rank_eq
  obtain rfl : r₂ = r₁ := h'.rank_eq
  simp only [Pqueue.link]
  split
  · rename_i hle
    exact .link h h' hle
  · rename_i hle
    exact .link h' h (o.le_of_not_le hle)

theorem elements_link (t t' : Tree α) :
    (Pqueue.link o t t').elements = t.elements + t'.elements := by
  obtain ⟨x, r, c⟩ := t
  obtain ⟨x', r', c'⟩ := t'
  simp only [Pqueue.link]
  split
  · simp only [Tree.elements_node, elements_cons, Multiset.cons_add, Multiset.add_cons]
    rw [Multiset.cons_swap, Multiset.add_comm]
  · simp only [Tree.elements_node, elements_cons, Multiset.cons_add, Multiset.add_cons]

/-! ## Heaps -/

/-- What every operation keeps: binomial trees whose ranks increase from `r` on. -/
structure Increasing (o : OrderedType α) (r : ℕ) (ts : List (Tree α)) : Prop where
  pairwise : ts.Pairwise fun t t' => t.rank < t'.rank
  binomial : ∀ t ∈ ts, Binomial o t.rank t
  le : ∀ t ∈ ts, r ≤ t.rank

theorem increasing_nil : Increasing o r [] := ⟨.nil, by simp, by simp⟩

theorem increasing_cons : Increasing o r (t :: ts) ↔
    Binomial o t.rank t ∧ r ≤ t.rank ∧ Increasing o (t.rank + 1) ts := by
  constructor
  · intro h
    obtain ⟨hlt, hpairwise⟩ := List.pairwise_cons.mp h.pairwise
    exact ⟨h.binomial t List.mem_cons_self, h.le t List.mem_cons_self, hpairwise,
      fun t' ht' => h.binomial t' (List.mem_cons_of_mem _ ht'), hlt⟩
  · rintro ⟨hbinomial, hle, hpairwise, hbinomials, hlt⟩
    refine ⟨List.pairwise_cons.mpr ⟨hlt, hpairwise⟩, ?_, ?_⟩
    · rintro t' ht'
      rcases List.mem_cons.mp ht' with rfl | ht'
      · exact hbinomial
      · exact hbinomials t' ht'
    · rintro t' ht'
      rcases List.mem_cons.mp ht' with rfl | ht'
      · exact hle
      · exact (hle.trans (Nat.le_succ _)).trans (hlt t' ht')

theorem Increasing.mono {r' : ℕ} (h : Increasing o r ts) (hle : r' ≤ r) : Increasing o r' ts :=
  ⟨h.pairwise, h.binomial, fun t ht => hle.trans (h.le t ht)⟩

theorem Increasing.sublist (h : Increasing o r ts) (hsub : ts'.Sublist ts) : Increasing o r ts' :=
  ⟨h.pairwise.sublist hsub, fun t ht => h.binomial t (hsub.subset ht),
    fun t ht => h.le t (hsub.subset ht)⟩

/-- `ins` is given a tree whose rank is at most that of the first tree of the heap. -/
theorem Increasing.ins (ht : Binomial o t.rank t) (h : Increasing o t.rank ts) :
    Increasing o t.rank (Pqueue.ins o t ts) := by
  induction ts generalizing t with
  | nil => exact increasing_cons.mpr ⟨ht, le_rfl, increasing_nil⟩
  | cons t' ts ih =>
    obtain ⟨ht', hle, hrest⟩ := increasing_cons.mp h
    rw [Pqueue.ins]
    split
    · rename_i hlt
      exact increasing_cons.mpr ⟨ht, le_rfl, increasing_cons.mpr ⟨ht', hlt, hrest⟩⟩
    · rename_i hlt
      have heq : t'.rank = t.rank := by omega
      have hlink := binomial_link ht (heq ▸ ht')
      have hrank := hlink.rank_eq
      rw [← hrank] at hlink
      rw [heq, ← hrank] at hrest
      exact (ih hlink hrest).mono (by omega)

theorem elements_ins (t : Tree α) (ts : List (Tree α)) :
    elements (Pqueue.ins o t ts) = t.elements + elements ts := by
  induction ts generalizing t with
  | nil => simp [Pqueue.ins]
  | cons t' ts ih =>
    rw [Pqueue.ins]
    split
    · simp
    · rw [ih, elements_link, elements_cons, Multiset.add_assoc]

theorem Increasing.union (h : Increasing o r ts) (h' : Increasing o r ts') :
    Increasing o r (Pqueue.union o ts ts') := by
  induction ts, ts' using Pqueue.union.induct generalizing r with
  | case1 ts' => simpa [Pqueue.union] using h'
  | case2 ts hne =>
    cases ts with
    | nil => exact absurd rfl hne
    | cons t ts => simpa [Pqueue.union] using h
  | case3 t1 ts1 t2 ts2 hlt ih =>
    obtain ⟨ht1, hle1, h1⟩ := increasing_cons.mp h
    obtain ⟨ht2, hle2, h2⟩ := increasing_cons.mp h'
    rw [Pqueue.union, if_pos hlt]
    exact increasing_cons.mpr ⟨ht1, hle1, ih h1 (increasing_cons.mpr ⟨ht2, hlt, h2⟩)⟩
  | case4 t1 ts1 t2 ts2 hge hlt ih =>
    obtain ⟨ht1, hle1, h1⟩ := increasing_cons.mp h
    obtain ⟨ht2, hle2, h2⟩ := increasing_cons.mp h'
    rw [Pqueue.union, if_neg hge, if_pos hlt]
    exact increasing_cons.mpr ⟨ht2, hle2, ih (increasing_cons.mpr ⟨ht1, hlt, h1⟩) h2⟩
  | case5 t1 ts1 t2 ts2 hge hge' ih =>
    obtain ⟨ht1, hle1, h1⟩ := increasing_cons.mp h
    obtain ⟨ht2, hle2, h2⟩ := increasing_cons.mp h'
    have heq : t2.rank = t1.rank := by omega
    rw [Pqueue.union, if_neg hge, if_neg hge']
    rw [heq] at h2
    have hlink := binomial_link ht1 (heq ▸ ht2)
    have hrank := hlink.rank_eq
    have hunion := ih h1 h2
    rw [← hrank] at hlink hunion
    exact (Increasing.ins hlink hunion).mono (by omega)

theorem elements_union (ts ts' : List (Tree α)) :
    elements (Pqueue.union o ts ts') = elements ts + elements ts' := by
  induction ts, ts' using Pqueue.union.induct with
  | case1 ts' => simp [Pqueue.union]
  | case2 ts hne =>
    cases ts with
    | nil => simp [Pqueue.union]
    | cons t ts => simp [Pqueue.union]
  | case3 t1 ts1 t2 ts2 hlt ih =>
    rw [Pqueue.union, if_pos hlt, elements_cons, ih, elements_cons t1, Multiset.add_assoc]
  | case4 t1 ts1 t2 ts2 hge hlt ih =>
    rw [Pqueue.union, if_neg hge, if_pos hlt, elements_cons, ih, elements_cons t2,
      ← Multiset.add_assoc, ← Multiset.add_assoc, Multiset.add_comm t2.elements]
  | case5 t1 ts1 t2 ts2 hge hge' ih =>
    rw [Pqueue.union, if_neg hge, if_neg hge', elements_ins, elements_link, ih, elements_cons,
      elements_cons, Multiset.add_assoc, Multiset.add_assoc,
      ← Multiset.add_assoc t2.elements, Multiset.add_comm t2.elements, Multiset.add_assoc]

/-! ## The minimum -/

/-- `t` is the tree that `get_min` finds and `ts'` what it leaves of the heap `ts`; its root is
what `find_min` and `lookup_min` return. -/
structure Extracts (o : OrderedType α) (ts : List (Tree α)) (t : Tree α) (ts' : List (Tree α)) :
    Prop where
  getMin : getMin o ts = .ok (t, ts')
  findMin : findMin o ts = .ok t.root
  lookupMin : lookupMin o ts = some t.root
  perm : ts.Perm (t :: ts')
  sublist : ts'.Sublist ts
  le : ∀ t' ∈ ts, o.Le t.root t'.root

theorem exists_extracts (hts : ts ≠ []) : ∃ t ts', Extracts o ts t ts' := by
  induction ts with
  | nil => exact absurd rfl hts
  | cons t ts ih =>
    cases ts with
    | nil =>
      refine ⟨t, [], rfl, rfl, rfl, List.Perm.refl _, List.nil_sublist _, fun t' ht' => ?_⟩
      obtain rfl : t' = t := by simpa using ht'
      exact o.le_refl _
    | cons t₁ ts₁ =>
      obtain ⟨t', ts', h⟩ := ih (by simp)
      by_cases hlt : o.compare t.root t'.root < 0
      · refine ⟨t, t₁ :: ts₁, ?_, ?_, ?_, List.Perm.refl _, List.sublist_cons_self _ _, ?_⟩
        · simp [Pqueue.getMin, h.getMin, bind, Except.bind, hlt]
        · simp [Pqueue.findMin, h.findMin, bind, Except.bind, hlt]
        · simp [Pqueue.lookupMin, h.lookupMin, hlt]
        · intro s hs
          rcases List.mem_cons.mp hs with rfl | hs
          · exact o.le_refl _
          · exact o.le_trans (le_of_lt hlt) (h.le s hs)
      · refine ⟨t', t :: ts', ?_, ?_, ?_, ?_, h.sublist.cons_cons t, ?_⟩
        · simp [Pqueue.getMin, h.getMin, bind, Except.bind, hlt]
        · simp [Pqueue.findMin, h.findMin, bind, Except.bind, hlt]
        · simp [Pqueue.lookupMin, h.lookupMin, hlt]
        · exact (h.perm.cons t).trans (List.Perm.swap t' t ts')
        · intro s hs
          rcases List.mem_cons.mp hs with rfl | hs
          · have hneg := o.neg_iff s.root t'.root
            unfold OrderedType.Le
            omega
          · exact h.le s hs

namespace Extracts

variable (h : Extracts o ts t ts')

include h

theorem elements_eq : elements ts = t.elements + elements ts' := by
  rw [elements_perm h.perm, elements_cons]

theorem mem : t ∈ ts := h.perm.mem_iff.mpr List.mem_cons_self

theorem root_le (hts : Increasing o r ts) {y : α} (hy : y ∈ elements ts) : o.Le t.root y := by
  obtain ⟨t', ht', hy⟩ := mem_elements.mp hy
  exact o.le_trans (h.le t' ht') ((hts.binomial t' ht').root_le hy)

theorem removeMin : removeMin o ts = .ok (Pqueue.union o t.children.reverse ts') := by
  cases ts with
  | nil => simpa using h.perm
  | cons t₁ ts₁ => simp [Pqueue.removeMin, h.getMin, bind, Except.bind]

end Extracts

theorem Binomial.increasing_reverse (h : Binomial o r t) : Increasing o 0 t.children.reverse := by
  have hranks : t.children.reverse.map Tree.rank = List.range r := by
    rw [List.map_reverse, h.rank_children, List.reverse_reverse]
  refine ⟨?_, fun s hs => h.child (List.mem_reverse.mp hs), fun _ _ => Nat.zero_le _⟩
  have hpairwise : (t.children.reverse.map Tree.rank).Pairwise (· < ·) := by
    rw [hranks]
    exact List.pairwise_lt_range
  exact List.pairwise_map.mp hpairwise

theorem elements_children_reverse (t : Tree α) :
    t.elements = t.root ::ₘ elements t.children.reverse := by
  rw [elements_perm (List.reverse_perm _)]
  cases t with
  | node x r c => rw [Tree.elements_node, Tree.root, Tree.children]

theorem Increasing.pop (h : Increasing o 0 ts) (hts : ts ≠ []) :
    ∃ x ts', lookupMin o ts = some x ∧ removeMin o ts = .ok ts' ∧ Increasing o 0 ts' ∧
      elements ts = x ::ₘ elements ts' ∧ ∀ y ∈ elements ts, o.Le x y := by
  obtain ⟨t, ts', hextracts⟩ := exists_extracts (o := o) hts
  refine ⟨t.root, _, hextracts.lookupMin, hextracts.removeMin, ?_, ?_,
    fun y hy => hextracts.root_le h hy⟩
  · exact (h.binomial t hextracts.mem).increasing_reverse.union (h.sublist hextracts.sublist)
  · rw [hextracts.elements_eq, elements_union, elements_children_reverse t, Multiset.cons_add]

theorem Increasing.add (h : Increasing o 0 ts) (x : α) : Increasing o 0 (Pqueue.add o x ts) :=
  Increasing.ins (t := .node x 0 []) (.leaf x) h

theorem elements_add (x : α) (ts : List (Tree α)) :
    elements (add o x ts) = x ::ₘ elements ts := by
  rw [add, elements_ins, Tree.elements_node, elements_nil, Multiset.cons_add, Multiset.zero_add]

theorem Binomial.congr {o' : OrderedType α} (h : Binomial o r t)
    (hle : ∀ x ∈ t.elements, ∀ y ∈ t.elements, o.Le x y → o'.Le x y) : Binomial o' r t := by
  induction h with
  | leaf x => exact .leaf x
  | @link r x c t _ _ hroot ih ih' =>
    simp only [Tree.elements_node, elements_cons, Multiset.mem_cons, Multiset.mem_add] at hle ih
    refine .link (ih fun y hy z hz => hle y ?_ z ?_)
      (ih' fun y hy z hz => hle y (.inr (.inl hy)) z (.inr (.inl hz)))
      (hle x (.inl rfl) t.root (.inr (.inl t.root_mem_elements)) hroot)
    · exact hy.imp id .inr
    · exact hz.imp id .inr

theorem Increasing.congr {o' : OrderedType α} (h : Increasing o r ts)
    (hle : ∀ x ∈ elements ts, ∀ y ∈ elements ts, o.Le x y → o'.Le x y) : Increasing o' r ts :=
  ⟨h.pairwise, fun t ht => (h.binomial t ht).congr fun x hx y hy =>
    hle x (mem_elements.mpr ⟨t, ht, hx⟩) y (mem_elements.mpr ⟨t, ht, hy⟩), h.le⟩

/-! ## Sequences of operations -/

theorem Made.increasing (h : Made o ts) : Increasing o 0 ts := by
  induction h with
  | empty => exact increasing_nil
  | add x _ ih => exact ih.add x
  | union _ _ ih ih' => exact ih.union ih'
  | @removeMin h h' _ hremove ih =>
    cases h with
    | nil => simp [Pqueue.removeMin] at hremove
    | cons t₁ ts₁ =>
      obtain ⟨x, ts', -, hpop, hts', -, -⟩ := ih.pop (List.cons_ne_nil t₁ ts₁)
      cases hpop.symm.trans hremove
      exact hts'

/-- `s` is a tree inside `t`. -/
inductive Subtree (s : Tree α) : Tree α → Prop
  | refl : Subtree s s
  | child {t t' : Tree α} : t' ∈ t.children → Subtree s t' → Subtree s t

theorem Binomial.subtree {s : Tree α} (h : Binomial o r t) (hs : Subtree s t) :
    Binomial o s.rank s := by
  induction hs generalizing r with
  | refl => exact h.rank_eq ▸ h
  | child hmem _ ih => exact ih (h.child hmem)

/-- Every heap that sequences of operations produce is a list of binomial trees with strictly
increasing ranks, and behaves as the multiset of its elements. -/
theorem made_heap (h : Made o ts) :
    (ts.Pairwise fun t t' => t.rank < t'.rank) ∧
    (∀ t ∈ ts, ∀ s, Subtree s t → s.children.map Tree.rank = (List.range s.rank).reverse ∧
      s.elements.card = 2 ^ s.rank ∧ ∀ y ∈ s.elements, o.Le s.root y) ∧
    (findMin o ts = .error .notFound ↔ elements ts = 0) ∧
    (lookupMin o ts = none ↔ elements ts = 0) ∧
    (removeMin o ts = .error .notFound ↔ elements ts = 0) ∧
    (elements ts ≠ 0 → ∃ x ts', findMin o ts = .ok x ∧ lookupMin o ts = some x ∧
      x ∈ elements ts ∧ (∀ y ∈ elements ts, o.Le x y) ∧
      removeMin o ts = .ok ts' ∧ elements ts = x ::ₘ elements ts') ∧
    (ts ≠ [] → getMin o ts ≠ .error .assertFalse) ∧ removeMin o ts ≠ .error .assertFalse ∧
    (∀ x, elements (add o x ts) = x ::ₘ elements ts) ∧
    (∀ ts', elements (union o ts ts') = elements ts + elements ts') ∧
    size ts = (elements ts).card ∧ (isEmpty ts = true ↔ elements ts = 0) := by
  have hts := h.increasing
  refine ⟨hts.pairwise, fun t ht s hs => ?_, ?_⟩
  · have hsub := (hts.binomial t ht).subtree hs
    exact ⟨hsub.rank_children, hsub.card_elements, fun y hy => hsub.root_le hy⟩
  have hadd : ∀ x, elements (add o x ts) = x ::ₘ elements ts := fun x => elements_add x ts
  by_cases hnil : ts = []
  · subst hnil
    exact ⟨by simp [findMin], by simp [lookupMin], by simp [removeMin], by simp, by simp,
      by simp [removeMin], hadd, elements_union [], size_eq [], by simp [isEmpty]⟩
  · obtain ⟨t, ts', hextracts⟩ := exists_extracts (o := o) hnil
    have hne : elements ts ≠ 0 := fun h => hnil (elements_eq_zero.mp h)
    have hremove := hextracts.removeMin
    have hroot : t.root ∈ elements ts :=
      mem_elements.mpr ⟨t, hextracts.mem, t.root_mem_elements⟩
    refine ⟨by simp [hextracts.findMin, hne], by simp [hextracts.lookupMin, hne],
      by simp [hremove, hne], fun _ => ⟨t.root, _, hextracts.findMin, hextracts.lookupMin, hroot,
        fun y hy => hextracts.root_le hts hy, hremove, ?_⟩, by simp [hextracts.getMin],
      by simp [hremove], hadd, elements_union ts, size_eq ts, by simp [isEmpty, hne, hnil]⟩
    rw [hextracts.elements_eq, elements_union, elements_children_reverse t, Multiset.cons_add]

/-- The order of the integers. -/
def intOrder : OrderedType ℤ where
  compare x y := x - y
  neg_iff := by intros; omega
  trans := by intros; omega

theorem made_heap_two : Made intOrder (add intOrder 1 (add intOrder 2 empty)) ∧
    elements (add intOrder 1 (add intOrder 2 empty)) = {1, 2} ∧
    size (add intOrder 1 (add intOrder 2 empty)) = 2 := by
  have hmade : Made intOrder (add intOrder 2 empty) := .add 2 .empty
  have hadd := (made_heap hmade).2.2.2.2.2.2.2.2.1 1
  have hsize := (made_heap (Made.add 1 hmade)).2.2.2.2.2.2.2.2.2.2.1
  have helements : elements (add intOrder 1 (add intOrder 2 empty)) = {1, 2} := by
    rw [hadd, (made_heap (Made.empty (o := intOrder))).2.2.2.2.2.2.2.2.1 2]
    rfl
  exact ⟨.add 1 hmade, helements, by rw [hsize, helements]; rfl⟩

end Pqueue

end Lwt
