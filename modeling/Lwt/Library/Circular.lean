import Mathlib.Data.List.Nodup
import Mathlib.Logic.Function.Basic

/-!
# Circular queues

A queue of nodes that are linked by a `next` pointer each, the last one to the first, with one
pointer to the last node.  `Holds` relates it to the list of its nodes; `push` adds one at the end
and `pop` takes the first.
-/

/-- The last node, and the links. -/
structure Circular (α : Type*) where
  last : Option α
  next : α → α

namespace Circular

variable {α : Type*} {q : Circular α} {l : List α} {x : α}

/-- Every node of the list is linked to the following one. -/
def Linked (next : α → α) : List α → Prop
  | [] => True
  | [_] => True
  | x :: y :: l => next x = y ∧ Linked next (y :: l)

/-- The queue consists of the nodes of `l`, in this order. -/
structure Holds (q : Circular α) (l : List α) : Prop where
  last : q.last = l.getLast?
  first : ∀ x ∈ l.getLast?, l.head? = some (q.next x)
  linked : Linked q.next l
  nodup : l.Nodup

theorem Linked.congr {next next' : α → α} (h : Linked next l)
    (heq : ∀ x ∈ l.dropLast, next' x = next x) : Linked next' l := by
  induction l with
  | nil => trivial
  | cons x l ih =>
    cases l with
    | nil => trivial
    | cons y l =>
      refine ⟨?_, ih h.2 fun z hz => heq z (List.mem_cons_of_mem x hz)⟩
      rw [heq x List.mem_cons_self, h.1]

theorem Linked.append {next : α → α} (h : Linked next l) (hx : ∀ y ∈ l.getLast?, next y = x) :
    Linked next (l ++ [x]) := by
  induction l with
  | nil => trivial
  | cons y l ih =>
    cases l with
    | nil => exact ⟨hx y rfl, trivial⟩
    | cons z l => exact ⟨h.1, ih h.2 hx⟩

theorem holds_nil (next : α → α) : Holds ⟨none, next⟩ [] := ⟨rfl, by simp, trivial, .nil⟩

theorem Holds.eq_nil_iff (h : Holds q l) : q.last = none ↔ l = [] := by
  rw [h.last, List.getLast?_eq_none_iff]

/-- The last of a list without repetitions is not among the others. -/
theorem not_mem_dropLast {y : α} (hnodup : l.Nodup) (hy : l.getLast? = some y) :
    y ∉ l.dropLast := by
  intro hmem
  have hsplit := List.dropLast_append_getLast? y hy
  rw [← hsplit, List.nodup_append] at hnodup
  exact hnodup.2.2 y hmem y (by simp) rfl

/-! ## Adding at the end and taking the first -/

variable [DecidableEq α]

def push (q : Circular α) (x : α) : Circular α :=
  match q.last with
  | none => ⟨some x, Function.update q.next x x⟩
  | some last => ⟨some x, Function.update (Function.update q.next x (q.next last)) last x⟩

/-- The first node, and the queue without it. -/
def pop (q : Circular α) : Option (α × Circular α) :=
  match q.last with
  | none => none
  | some last =>
    let x := q.next last
    if q.next x = x then some (x, ⟨none, q.next⟩)
    else some (x, ⟨some last, Function.update q.next last (q.next x)⟩)

theorem Holds.push (h : Holds q l) (hx : x ∉ l) : Holds (q.push x) (l ++ [x]) := by
  have hnodup : (l ++ [x]).Nodup :=
    List.nodup_append_comm.mp (List.nodup_cons.mpr ⟨hx, h.nodup⟩)
  cases hlast : l.getLast? with
  | none =>
    obtain rfl := List.getLast?_eq_none_iff.mp hlast
    have hpush : q.push x = ⟨some x, Function.update q.next x x⟩ := by
      simp [Circular.push, h.last]
    rw [hpush]
    exact ⟨rfl, by simp, trivial, hnodup⟩
  | some y =>
    have hpush : q.push x =
        ⟨some x, Function.update (Function.update q.next x (q.next y)) y x⟩ := by
      simp [Circular.push, h.last, hlast]
    have hyl : y ∈ l := List.mem_of_getLast? hlast
    have hne : x ≠ y := by
      rintro rfl
      exact hx hyl
    rw [hpush]
    refine ⟨by simp, ?_, ?_, hnodup⟩
    · -- the new last node is linked to the first one, as `y` was
      intro z hz
      obtain rfl : x = z := by simpa using hz
      have hfirst := h.first y (by simp [hlast])
      simp [hne, List.head?_append, hfirst]
    · refine Linked.append (h.linked.congr fun z hz => ?_) fun z hz => ?_
      · have hzy : z ≠ y := by
          rintro rfl
          exact not_mem_dropLast h.nodup hlast hz
        have hzx : z ≠ x := by
          rintro rfl
          exact hx (List.dropLast_subset l hz)
        simp [hzy, hzx]
      · obtain rfl : y = z := by simpa [hlast] using hz
        simp

theorem Holds.pop (h : Holds q (x :: l)) : ∃ q', q.pop = some (x, q') ∧ Holds q' l := by
  obtain ⟨y, hlast⟩ : ∃ y, (x :: l).getLast? = some y :=
    ⟨_, List.getLast?_eq_some_getLast (by simp)⟩
  have hfirst : q.next y = x := by
    have hhead := h.first y (by simp [hlast])
    simpa using hhead.symm
  have hnodup := List.nodup_cons.mp h.nodup
  cases l with
  | nil =>
    obtain rfl : x = y := by simpa using hlast
    exact ⟨⟨none, q.next⟩, by simp [Circular.pop, h.last, hfirst], holds_nil _⟩
  | cons z l =>
    have hlast' : (z :: l).getLast? = some y := by simpa [List.getLast?_cons_cons] using hlast
    have hlink : q.next x = z := h.linked.1
    have hne : z ≠ x := by
      rintro rfl
      exact hnodup.1 List.mem_cons_self
    refine ⟨⟨some y, Function.update q.next y z⟩, ?_, ?_⟩
    · simp [Circular.pop, h.last, hlast', List.getLast?_cons_cons, hfirst, hlink, hne]
    · refine ⟨hlast'.symm, ?_, h.linked.2.congr fun w hw => ?_, hnodup.2⟩
      · intro w hw
        obtain rfl : y = w := by simpa [hlast'] using hw
        simp
      · have hwy : w ≠ y := by
          rintro rfl
          exact not_mem_dropLast hnodup.2 hlast' hw
        simp [hwy]

end Circular
