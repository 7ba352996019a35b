import Mathlib.Data.List.Basic

/-!
# `Lwt_sequence`: doubly linked rings

The nodes and headers of all sequences, by reference, with the assignments of
`lwt_sequence.ml` in their order.  A header is an entry without data.
-/

namespace Lwt

variable {α : Type*}

/-- A header or a node: `prev`, `next`, `node_data` and `node_active`. -/
structure Link (α : Type*) where
  prev : ℕ
  next : ℕ
  data : Option α
  active : Bool

/-- All headers and nodes. -/
abbrev Sequences (α : Type*) := List (Link α)

namespace Sequences

def prev (s : Sequences α) (i : ℕ) : ℕ := (s[i]?.map Link.prev).getD i

def next (s : Sequences α) (i : ℕ) : ℕ := (s[i]?.map Link.next).getD i

def active (s : Sequences α) (i : ℕ) : Bool := (s[i]?.map Link.active).getD false

def data (s : Sequences α) (i : ℕ) : Option α := s[i]?.bind Link.data

def setPrev (s : Sequences α) (i j : ℕ) : Sequences α :=
  s.modify i fun link => { link with prev := j }

def setNext (s : Sequences α) (i j : ℕ) : Sequences α :=
  s.modify i fun link => { link with next := j }

/-- `create ()`: the new header is the last entry. -/
def create (s : Sequences α) : Sequences α :=
  s ++ [{ prev := s.length, next := s.length, data := none, active := false }]

/-- `remove node`. -/
def remove (s : Sequences α) (node : ℕ) : Sequences α :=
  if s.active node then
    let s : Sequences α := s.modify node fun link => { link with active := false }
    let s : Sequences α := s.setNext (s.prev node) (s.next node)
    s.setPrev (s.next node) (s.prev node)
  else s

/-- `clear seq`. -/
def clear (s : Sequences α) (seq : ℕ) : Sequences α :=
  (s.setPrev seq seq).setNext seq seq

def isEmpty (s : Sequences α) (seq : ℕ) : Bool := s.next seq = seq

/-- `add_l data seq`: the new node is the last entry. -/
def addL (s : Sequences α) (data : α) (seq : ℕ) : Sequences α :=
  let node := s.length
  let s : Sequences α :=
    s ++ [{ prev := seq, next := s.next seq, data := some data, active := true }]
  (s.setPrev (s.next seq) node).setNext seq node

/-- `add_r data seq`: the new node is the last entry. -/
def addR (s : Sequences α) (data : α) (seq : ℕ) : Sequences α :=
  let node := s.length
  let s : Sequences α :=
    s ++ [{ prev := s.prev seq, next := seq, data := some data, active := true }]
  (s.setNext (s.prev seq) node).setPrev seq node

/-- `take_l seq`; `none` is `raise Empty`. -/
def takeL (s : Sequences α) (seq : ℕ) : Option (α × Sequences α) :=
  if s.isEmpty seq then none
  else (s.data (s.next seq)).map fun data => (data, s.remove (s.next seq))

/-- `take_r seq`. -/
def takeR (s : Sequences α) (seq : ℕ) : Option (α × Sequences α) :=
  if s.isEmpty seq then none
  else (s.data (s.prev seq)).map fun data => (data, s.remove (s.prev seq))

/-- `take_opt_l seq`. -/
def takeOptL (s : Sequences α) (seq : ℕ) : Option α × Sequences α :=
  if s.isEmpty seq then (none, s) else (s.data (s.next seq), s.remove (s.next seq))

/-- `take_opt_r seq`. -/
def takeOptR (s : Sequences α) (seq : ℕ) : Option α × Sequences α :=
  if s.isEmpty seq then (none, s) else (s.data (s.prev seq), s.remove (s.prev seq))

/-- `set node data`. -/
def setData (s : Sequences α) (node : ℕ) (data : α) : Sequences α :=
  s.modify node fun link => { link with data := some data }

/-- `transfer_l s1 s2`. -/
def transferL (s : Sequences α) (s1 s2 : ℕ) : Sequences α :=
  let s := s.setPrev (s.next s2) (s.prev s1)
  let s := s.setNext (s.prev s1) (s.next s2)
  let s := s.setNext s2 (s.next s1)
  let s := s.setPrev (s.next s1) s2
  let s := s.setPrev s1 s1
  s.setNext s1 s1

/-- `transfer_r s1 s2`. -/
def transferR (s : Sequences α) (s1 s2 : ℕ) : Sequences α :=
  let s := s.setNext (s.prev s2) (s.next s1)
  let s := s.setPrev (s.next s1) (s.prev s2)
  let s := s.setPrev s2 (s.prev s1)
  let s := s.setNext (s.prev s1) s2
  let s := s.setPrev s1 s1
  s.setNext s1 s1

/-! ## Loops

The loops over a sequence go on until they are back at the header; the first argument bounds
the number of turns, and `none` means that it was not enough. -/

section Loops

variable {β : Type*} (s : Sequences α) (follow : ℕ → ℕ) (seq : ℕ)

/-- The loop of `length`. -/
def lengthLoop : ℕ → ℕ → ℕ → Option ℕ
  | 0, _, _ => none
  | turns + 1, curr, len =>
    if curr = seq then some len else lengthLoop turns (s.next curr) (len + 1)

def lengthOf : Option ℕ := s.lengthLoop seq (s.length + 1) (s.next seq) 0

/-- The loop of `fold_l` and `fold_r`, which follow `next` and `prev`. -/
def foldLoop (f : α → β → β) : ℕ → ℕ → β → Option β
  | 0, _, _ => none
  | turns + 1, curr, acc =>
    if curr = seq then some acc
    else if s.active curr then
      foldLoop f turns (follow curr) ((s.data curr).elim acc fun data => f data acc)
    else foldLoop f turns (follow curr) acc

def foldL (f : α → β → β) (acc : β) : Option β :=
  s.foldLoop s.next seq f (s.length + 1) (s.next seq) acc

def foldR (f : α → β → β) (acc : β) : Option β :=
  s.foldLoop s.prev seq f (s.length + 1) (s.prev seq) acc

/-- The loop of `find_node_l` and `find_node_r`; `some none` is `raise Not_found`. -/
def findLoop (f : α → Bool) : ℕ → ℕ → Option (Option ℕ)
  | 0, _ => none
  | turns + 1, curr =>
    if curr ≠ seq then
      if s.active curr then
        if (s.data curr).any f then some (some curr) else findLoop f turns (follow curr)
      else findLoop f turns (follow curr)
    else some none

def findNodeL (f : α → Bool) : Option (Option ℕ) :=
  s.findLoop s.next seq f (s.length + 1) (s.next seq)

def findNodeR (f : α → Bool) : Option (Option ℕ) :=
  s.findLoop s.prev seq f (s.length + 1) (s.prev seq)

end Loops

/-! ## Data

Only adding a node changes the data; linking and unlinking nodes keeps it. -/

theorem data_modify (s : Sequences α) (i : ℕ) {f : Link α → Link α}
    (hf : ∀ link, (f link).data = link.data) (x : ℕ) : data (s.modify i f) x = s.data x := by
  unfold data
  rw [List.getElem?_modify]
  cases s[x]? with
  | none => rfl
  | some link =>
    by_cases hi : i = x
    · simp [hi, hf]
    · simp [hi]

@[simp] theorem data_setPrev (s : Sequences α) (i j x : ℕ) : (s.setPrev i j).data x = s.data x :=
  data_modify s i (f := fun link => { link with prev := j }) (fun _ => rfl) x

@[simp] theorem data_setNext (s : Sequences α) (i j x : ℕ) : (s.setNext i j).data x = s.data x :=
  data_modify s i (f := fun link => { link with next := j }) (fun _ => rfl) x

@[simp] theorem data_remove (s : Sequences α) (node x : ℕ) : (s.remove node).data x = s.data x := by
  unfold remove
  split
  · simp only [data_setPrev, data_setNext]
    exact data_modify s node (f := fun link => { link with active := false }) (fun _ => rfl) x
  · rfl

@[simp] theorem data_clear (s : Sequences α) (seq x : ℕ) : (s.clear seq).data x = s.data x := by
  simp [clear]

@[simp] theorem data_transferR (s : Sequences α) (s1 s2 x : ℕ) :
    (s.transferR s1 s2).data x = s.data x := by
  simp [transferR]

theorem data_append {s : Sequences α} {link : Link α} {x : ℕ} {a : α}
    (h : data (s ++ [link]) x = some a) : s.data x = some a ∨ link.data = some a := by
  unfold data at h
  rw [List.getElem?_append] at h
  split at h
  · exact .inl h
  · cases hx : x - s.length with
    | zero =>
      rw [hx] at h
      exact .inr (by simpa using h)
    | succ n =>
      rw [hx] at h
      simp at h

theorem data_create {s : Sequences α} {x : ℕ} {a : α} (h : s.create.data x = some a) :
    s.data x = some a := by
  rcases data_append h with hold | hnew
  · exact hold
  · simp at hnew

theorem data_addL {s : Sequences α} {seq x : ℕ} {a b : α} (h : (s.addL b seq).data x = some a) :
    s.data x = some a ∨ a = b := by
  simp only [addL, data_setNext, data_setPrev] at h
  rcases data_append h with hold | hnew
  · exact .inl hold
  · exact .inr (by simpa using hnew.symm)

theorem data_addR {s : Sequences α} {seq x : ℕ} {a b : α} (h : (s.addR b seq).data x = some a) :
    s.data x = some a ∨ a = b := by
  simp only [addR, data_setNext, data_setPrev] at h
  rcases data_append h with hold | hnew
  · exact .inl hold
  · exact .inr (by simpa using hnew.symm)

end Sequences

end Lwt
