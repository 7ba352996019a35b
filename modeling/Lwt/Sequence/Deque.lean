import Mathlib.Logic.Function.Basic
import Lwt.Sequence.Linked

/-!
# Sequences are double-ended queues

What the operations of `lwt_sequence.ml` do, on any number of sequences, is said by `Deques`:
each header has the list of its nodes and each node its data.  `Represents s d` relates the
links to such lists: each header is linked to its nodes both ways round, no node is in two
sequences, and the active nodes are exactly those in the lists.  Every operation keeps this
relation and returns what the operation on lists returns (`step_represents`), so a whole run
does (`run_represents`), and the loops over a sequence compute the functions on its list.

The operations on the left are those on the right with the links exchanged (`mirror`).
-/

namespace Lwt

open Function

variable {α : Type} {s s' : Sequences α} {seq seq' s1 s2 node x : ℕ} {l l' l₂ : List ℕ} {a : α}

namespace Sequences

/-! ## Exchanging the links -/

/-- All links exchanged. -/
def mirror (s : Sequences α) : Sequences α :=
  s.map fun link => { link with prev := link.next, next := link.prev }

section Mirror

variable (s) (i j : ℕ)

@[simp] theorem length_mirror : s.mirror.length = s.length := by simp [mirror]

@[simp] theorem next_mirror : s.mirror.next i = s.prev i := by
  unfold next prev mirror
  rw [List.getElem?_map]
  cases s[i]? <;> rfl

@[simp] theorem prev_mirror : s.mirror.prev i = s.next i := by
  unfold next prev mirror
  rw [List.getElem?_map]
  cases s[i]? <;> rfl

@[simp] theorem active_mirror : s.mirror.active i = s.active i := by
  unfold active mirror
  rw [List.getElem?_map]
  cases s[i]? <;> rfl

@[simp] theorem data_mirror : s.mirror.data i = s.data i := by
  unfold data mirror
  rw [List.getElem?_map]
  cases s[i]? <;> rfl

@[simp] theorem mirror_mirror : s.mirror.mirror = s := by
  unfold mirror
  rw [List.map_map]
  exact List.map_id s

theorem mirror_setPrev : (s.setPrev i j).mirror = s.mirror.setNext i j := by
  refine List.ext_getElem? fun x => ?_
  simp only [mirror, setPrev, setNext, List.getElem?_map, List.getElem?_modify]
  cases s[x]? <;> by_cases h : i = x <;> simp [h]

theorem mirror_setNext : (s.setNext i j).mirror = s.mirror.setPrev i j := by
  refine List.ext_getElem? fun x => ?_
  simp only [mirror, setPrev, setNext, List.getElem?_map, List.getElem?_modify]
  cases s[x]? <;> by_cases h : i = x <;> simp [h]

theorem setPrev_setNext (i' j' : ℕ) :
    (s.setPrev i j).setNext i' j' = (s.setNext i' j').setPrev i j := by
  refine List.ext_getElem? fun x => ?_
  simp only [setPrev, setNext, List.getElem?_modify]
  cases s[x]? <;> by_cases h : i = x <;> by_cases h' : i' = x <;> simp [h, h']

/-- `add_l` is `add_r` with the links exchanged. -/
theorem addL_eq (a : α) (seq : ℕ) : s.addL a seq = (s.mirror.addR a seq).mirror := by
  simp only [addL, addR, mirror_setPrev, mirror_setNext, length_mirror, prev_mirror]
  have happend : (mirror (s.mirror ++ [⟨s.next seq, seq, some a, true⟩])) =
      s ++ [⟨seq, s.next seq, some a, true⟩] := by
    refine Eq.trans ?_ (congrArg (· ++ [_]) s.mirror_mirror)
    simp [mirror]
  have hnext : prev (s.mirror ++ [⟨s.next seq, seq, some a, true⟩]) seq =
      next (s ++ [⟨seq, s.next seq, some a, true⟩]) seq := by
    rw [← happend, next_mirror]
  rw [happend, hnext]

theorem transferL_eq (s1 s2 : ℕ) : s.transferL s1 s2 = (s.mirror.transferR s1 s2).mirror := by
  simp only [transferL, transferR, mirror_mirror, prev_mirror, next_mirror, ← mirror_setPrev,
    ← mirror_setNext]
  rw [setPrev_setNext]

end Mirror

theorem Ring.mirror (h : Ring s seq l) : Ring s.mirror seq l.reverse := by
  refine ⟨?_, ?_, ?_⟩
  · have hchain := List.isChain_reverse.mpr h.chain
    have hlist : (seq :: (l ++ [seq])).reverse = seq :: (l.reverse ++ [seq]) := by simp
    rw [hlist] at hchain
    refine hchain.imp fun x y hfollows => ?_
    exact ⟨(next_mirror s x).trans hfollows.2, (prev_mirror s y).trans hfollows.1⟩
  · obtain ⟨hseq, hl⟩ := List.nodup_cons.mp h.nodup
    exact List.nodup_cons.mpr ⟨by simpa using hseq, List.nodup_reverse.mpr hl⟩
  · intro x hx
    rw [length_mirror]
    exact h.within x (by simpa using hx)

end Sequences

/-! ## Double-ended queues -/

/-- The nodes of each header and the data of each node, the entries numbered as they were made. -/
structure Deques (α : Type) where
  size : ℕ
  lists : ℕ → Option (List ℕ)
  value : ℕ → Option α

/-- The calls.  `create` gives a new header, `add_l` and `add_r` a new node. -/
inductive SequenceOp (α : Type)
  | create
  | addL (a : α) (seq : ℕ)
  | addR (a : α) (seq : ℕ)
  | takeL (seq : ℕ)
  | takeR (seq : ℕ)
  | takeOptL (seq : ℕ)
  | takeOptR (seq : ℕ)
  | transferL (s1 s2 : ℕ)
  | transferR (s1 s2 : ℕ)
  | remove (node : ℕ)
  | set (node : ℕ) (a : α)

inductive SequenceResult (α : Type)
  | entry (i : ℕ)
  | value (a : α)
  | option (x : Option α)
  | unit
  /-- `raise Empty` -/
  | empty

namespace Deques

def initial : Deques α := ⟨0, fun _ => none, fun _ => none⟩

def remove (d : Deques α) (node : ℕ) : Deques α :=
  { d with lists := fun seq => (d.lists seq).map (·.erase node) }

/-- The first or the last node, if there is one, is taken off the list `l` of `seq`. -/
def take (d : Deques α) (node? : Option ℕ) (seq : ℕ) (l : List ℕ) : Option α × Deques α :=
  match node? with
  | none => (none, d)
  | some node => (d.value node, { d with lists := update d.lists seq (some l) })

def step (d : Deques α) : SequenceOp α → Option (Deques α × SequenceResult α)
  | .create => some ({ d with size := d.size + 1, lists := update d.lists d.size (some []) },
      .entry d.size)
  | .addL a seq => (d.lists seq).map fun l =>
    (⟨d.size + 1, update d.lists seq (some (d.size :: l)), update d.value d.size (some a)⟩,
      .entry d.size)
  | .addR a seq => (d.lists seq).map fun l =>
    (⟨d.size + 1, update d.lists seq (some (l ++ [d.size])), update d.value d.size (some a)⟩,
      .entry d.size)
  | .takeL seq => (d.lists seq).map fun l =>
    ((d.take l.head? seq l.tail).2, (d.take l.head? seq l.tail).1.elim .empty .value)
  | .takeR seq => (d.lists seq).map fun l =>
    ((d.take l.getLast? seq l.dropLast).2, (d.take l.getLast? seq l.dropLast).1.elim
    .empty .value)
  | .takeOptL seq => (d.lists seq).map fun l =>
    ((d.take l.head? seq l.tail).2, .option (d.take l.head? seq l.tail).1)
  | .takeOptR seq => (d.lists seq).map fun l =>
    ((d.take l.getLast? seq l.dropLast).2, .option (d.take l.getLast? seq l.dropLast).1)
  | .transferL s1 s2 =>
    if s1 = s2 then none
    else (d.lists s1).bind fun l1 => (d.lists s2).map fun l2 =>
      ({ d with lists := update (update d.lists s2 (some (l1 ++ l2))) s1 (some []) }, .unit)
  | .transferR s1 s2 =>
    if s1 = s2 then none
    else (d.lists s1).bind fun l1 => (d.lists s2).map fun l2 =>
      ({ d with lists := update (update d.lists s2 (some (l2 ++ l1))) s1 (some []) }, .unit)
  | .remove node => (d.value node).map fun _ => (d.remove node, .unit)
  | .set node a => (d.value node).map fun _ =>
    ({ d with value := update d.value node (some a) }, .unit)

end Deques

namespace Sequences

/-- An entry of the type `t`, and one of the type `node`. -/
def isSeq (s : Sequences α) (i : ℕ) : Bool := decide (i < s.length) && (s.data i).isNone

def isNode (s : Sequences α) (i : ℕ) : Bool := (s.data i).isSome

/-- A call; `none` if an argument has not the right type, or if a sequence is transferred to
itself. -/
def step (s : Sequences α) : SequenceOp α → Option (Sequences α × SequenceResult α)
  | .create => some (s.create, .entry s.length)
  | .addL a seq => if s.isSeq seq then some (s.addL a seq, .entry s.length) else none
  | .addR a seq => if s.isSeq seq then some (s.addR a seq, .entry s.length) else none
  | .takeL seq =>
    if s.isSeq seq then
      some (match s.takeL seq with
        | some (a, s) => (s, .value a)
        | none => (s, .empty))
    else none
  | .takeR seq =>
    if s.isSeq seq then
      some (match s.takeR seq with
        | some (a, s) => (s, .value a)
        | none => (s, .empty))
    else none
  | .takeOptL seq =>
    if s.isSeq seq then some ((s.takeOptL seq).2, .option (s.takeOptL seq).1) else none
  | .takeOptR seq =>
    if s.isSeq seq then some ((s.takeOptR seq).2, .option (s.takeOptR seq).1) else none
  | .transferL s1 s2 =>
    if s.isSeq s1 && s.isSeq s2 && s1 != s2 then some (s.transferL s1 s2, .unit) else none
  | .transferR s1 s2 =>
    if s.isSeq s1 && s.isSeq s2 && s1 != s2 then some (s.transferR s1 s2, .unit) else none
  | .remove node => if s.isNode node then some (s.remove node, .unit) else none
  | .set node a => if s.isNode node then some (s.setData node a, .unit) else none

/-- The calls one after the other, with what they return. -/
def run (s : Sequences α) : List (SequenceOp α) → Option (Sequences α × List (SequenceResult α))
  | [] => some (s, [])
  | o :: ops => (s.step o).bind fun r => (run r.1 ops).map fun rs => (rs.1, r.2 :: rs.2)

end Sequences

def Deques.run (d : Deques α) : List (SequenceOp α) → Option (Deques α × List (SequenceResult α))
  | [] => some (d, [])
  | o :: ops => (d.step o).bind fun r => (Deques.run r.1 ops).map fun rs => (rs.1, r.2 :: rs.2)

/-! ## The relation -/

/-- The links `s` hold the lists `d`. -/
structure Represents (s : Sequences α) (d : Deques α) : Prop where
  size : d.size = s.length
  ring : ∀ {seq l}, d.lists seq = some l → s.Ring seq l
  header : ∀ seq, (∃ l, d.lists seq = some l) ↔ seq < s.length ∧ s.data seq = none
  node : ∀ {seq l x}, d.lists seq = some l → x ∈ l → s.data x ≠ none
  disjoint : ∀ {seq seq' l l' x}, d.lists seq = some l → d.lists seq' = some l' → x ∈ l → x ∈ l' →
    seq = seq'
  active : ∀ x, s.active x = true ↔ ∃ seq l, d.lists seq = some l ∧ x ∈ l
  value : ∀ x, d.value x = s.data x

theorem represents_initial : Represents ([] : Sequences α) Deques.initial :=
  ⟨rfl, by simp [Deques.initial], by simp [Deques.initial], by simp [Deques.initial],
    by simp [Deques.initial], by simp [Deques.initial, Sequences.active],
    by simp [Deques.initial, Sequences.data]⟩

namespace Represents

variable {d : Deques α} (h : Represents s d)

include h

theorem isSeq (hseq : d.lists seq = some l) : s.isSeq seq = true := by
  obtain ⟨hlt, hdata⟩ := (h.header seq).mp ⟨l, hseq⟩
  simp [Sequences.isSeq, hlt, hdata]

theorem exists_of_isSeq (hseq : s.isSeq seq = true) : ∃ l, d.lists seq = some l := by
  simp only [Sequences.isSeq, Bool.and_eq_true, decide_eq_true_eq,
    Option.isNone_iff_eq_none] at hseq
  exact (h.header seq).mpr hseq

/-- A header is in no list. -/
theorem header_notMem (hseq : d.lists seq = some l) (hseq' : d.lists seq' = some l') :
    seq ∉ l' := fun hmem => h.node hseq' hmem ((h.header seq).mp ⟨l, hseq⟩).2

theorem apart (hne : seq ≠ seq') (hseq : d.lists seq = some l) (hseq' : d.lists seq' = some l') :
    ∀ x ∈ seq :: l, x ∉ seq' :: l' := by
  intro x hx hx'
  rcases List.mem_cons.mp hx with rfl | hx
  · rcases List.mem_cons.mp hx' with rfl | hx'
    · exact hne rfl
    · exact h.header_notMem hseq hseq' hx'
  · rcases List.mem_cons.mp hx' with rfl | hx'
    · exact h.header_notMem hseq' hseq hx
    · exact hne (h.disjoint hseq hseq' hx hx')

/-! ### New entries -/

theorem create : Represents s.create
    { d with size := d.size + 1, lists := update d.lists d.size (some []) } := by
  have hsize := h.size
  -- the new list is empty, the others are as before
  have hlists : ∀ {seq l}, update d.lists d.size (some []) seq = some l →
      (seq = s.length ∧ l = []) ∨ (seq < s.length ∧ d.lists seq = some l) := by
    intro seq l hseq
    by_cases heq : seq = d.size
    · rw [heq, update_self] at hseq
      exact .inl ⟨heq.trans hsize, (Option.some.inj hseq).symm⟩
    · rw [update_of_ne heq] at hseq
      exact .inr ⟨((h.header seq).mp ⟨l, hseq⟩).1, hseq⟩
  have hold : ∀ {seq l}, d.lists seq = some l → update d.lists d.size (some []) seq = some l := by
    intro seq l hseq
    have hlt := ((h.header seq).mp ⟨l, hseq⟩).1
    rw [update_of_ne (by omega)]
    exact hseq
  refine ⟨by simp [hsize], fun hseq => ?_, fun seq => ?_, fun hseq hx => ?_,
    fun hseq hseq' hx hx' => ?_, fun x => ?_, fun x => ?_⟩
  · rcases hlists hseq with ⟨rfl, rfl⟩ | ⟨-, hseq⟩
    · exact Sequences.ring_create s
    · exact (h.ring hseq).create
  · rw [Sequences.data_create_eq, Sequences.length_create]
    constructor
    · rintro ⟨l, hseq⟩
      rcases hlists hseq with ⟨rfl, -⟩ | ⟨hlt, hseq⟩
      · exact ⟨Nat.lt_succ_self _, by simp [Sequences.data]⟩
      · exact ⟨by omega, ((h.header seq).mp ⟨l, hseq⟩).2⟩
    · rintro ⟨hlt, hdata⟩
      rcases (Nat.lt_succ_iff.mp hlt).eq_or_lt with rfl | hlt
      · exact ⟨[], by rw [← hsize]; exact update_self ..⟩
      · obtain ⟨l, hseq⟩ := (h.header seq).mpr ⟨hlt, hdata⟩
        exact ⟨l, hold hseq⟩
  · rw [Sequences.data_create_eq]
    rcases hlists hseq with ⟨-, rfl⟩ | ⟨-, hseq⟩
    · simp at hx
    · exact h.node hseq hx
  · rcases hlists hseq with ⟨-, rfl⟩ | ⟨-, hseq⟩
    · simp at hx
    · rcases hlists hseq' with ⟨-, rfl⟩ | ⟨-, hseq'⟩
      · simp at hx'
      · exact h.disjoint hseq hseq' hx hx'
  -- a header is not active
  · have hactive : s.create.active x = s.active x := by
      by_cases hx : x < s.length
      · exact Sequences.active_create hx
      · rcases (not_lt.mp hx).eq_or_lt with rfl | hx
        · simp [Sequences.create, Sequences.active]
        · have hold : s[x]? = none := List.getElem?_eq_none hx.le
          have hnew : s.create[x]? = none :=
            List.getElem?_eq_none (Sequences.length_create (s := s) ▸ Nat.succ_le_of_lt hx)
          simp [Sequences.active, hold, hnew]
    rw [hactive, h.active]
    constructor
    · rintro ⟨seq, l, hseq, hx⟩
      exact ⟨seq, l, hold hseq, hx⟩
    · rintro ⟨seq, l, hseq, hx⟩
      rcases hlists hseq with ⟨-, rfl⟩ | ⟨-, hseq⟩
      · simp at hx
      · exact ⟨seq, l, hseq, hx⟩
  · rw [Sequences.data_create_eq]
    exact h.value x

theorem addR (hseq : d.lists seq = some l) : Represents (s.addR a seq)
    ⟨d.size + 1, update d.lists seq (some (l ++ [d.size])), update d.value d.size (some a)⟩ := by
  have hsize := h.size
  have hring := h.ring hseq
  have hdata : ∀ {x}, x < s.length → (s.addR a seq).data x = s.data x := fun hx =>
    Sequences.data_addR_lt hx
  have hlt : ∀ {seq' l'}, d.lists seq' = some l' → ∀ x ∈ seq' :: l', x < s.length :=
    fun hseq' => (h.ring hseq').within
  -- the list of `seq` has the new node at its end, the others are as before
  have hlists : ∀ {seq' l'}, update d.lists seq (some (l ++ [d.size])) seq' = some l' →
      (seq' = seq ∧ l' = l ++ [s.length]) ∨ (seq' ≠ seq ∧ d.lists seq' = some l') := by
    intro seq' l' hseq'
    by_cases heq : seq' = seq
    · rw [heq, update_self, hsize] at hseq'
      exact .inl ⟨heq, (Option.some.inj hseq').symm⟩
    · rw [update_of_ne heq] at hseq'
      exact .inr ⟨heq, hseq'⟩
  have hmem : ∀ {seq' l' x}, update d.lists seq (some (l ++ [d.size])) seq' = some l' → x ∈ l' →
      (x = s.length ∧ seq' = seq) ∨ (x < s.length ∧ ∃ l₁, d.lists seq' = some l₁ ∧ x ∈ l₁) := by
    intro seq' l' x hseq' hx
    rcases hlists hseq' with ⟨rfl, rfl⟩ | ⟨-, hseq'⟩
    · rcases List.mem_append.mp hx with hx | hx
      · exact .inr ⟨hlt hseq x (List.mem_cons_of_mem _ hx), l, hseq, hx⟩
      · exact .inl ⟨by simpa using hx, rfl⟩
    · exact .inr ⟨hlt hseq' x (List.mem_cons_of_mem _ hx), l', hseq', hx⟩
  refine ⟨by simp [hsize], fun {seq' l'} hseq' => ?_, fun seq' => ?_,
    fun {seq' l' x} hseq' hx => ?_,
    fun {seq₁ seq₂ l₁ l₂ x} hseq₁ hseq₂ hx₁ hx₂ => ?_, fun x => ?_, fun x => ?_⟩
  · rcases hlists hseq' with ⟨rfl, rfl⟩ | ⟨hne, hseq'⟩
    · exact hring.addR
    · exact (h.ring hseq').addR_other hring (h.apart hne hseq' hseq)
  · rw [Sequences.length_addR]
    constructor
    · rintro ⟨l', hseq'⟩
      have hold : ∃ l', d.lists seq' = some l' := by
        rcases hlists hseq' with ⟨rfl, -⟩ | ⟨-, hseq'⟩
        · exact ⟨l, hseq⟩
        · exact ⟨l', hseq'⟩
      obtain ⟨hlt', hnone⟩ := (h.header seq').mp hold
      exact ⟨by omega, (hdata hlt').trans hnone⟩
    · rintro ⟨hlt', hnone⟩
      rcases (Nat.lt_succ_iff.mp hlt').eq_or_lt with rfl | hlt'
      · rw [Sequences.data_addR_self] at hnone
        simp at hnone
      · obtain ⟨l', hseq'⟩ := (h.header seq').mpr ⟨hlt', (hdata hlt').symm.trans hnone⟩
        by_cases heq : seq' = seq
        · exact ⟨l ++ [d.size], by rw [heq]; exact update_self ..⟩
        · exact ⟨l', (update_of_ne heq ..).trans hseq'⟩
  · rcases hmem hseq' hx with ⟨rfl, -⟩ | ⟨hxlt, l₁, hl₁, hx₁⟩
    · rw [Sequences.data_addR_self]
      simp
    · rw [hdata hxlt]
      exact h.node hl₁ hx₁
  · rcases hmem hseq₁ hx₁ with ⟨hx, rfl⟩ | ⟨hxlt, l₁', hl₁, hx₁⟩
    · rcases hmem hseq₂ hx₂ with ⟨-, rfl⟩ | ⟨hxlt, -⟩
      · rfl
      · omega
    · rcases hmem hseq₂ hx₂ with ⟨hx, -⟩ | ⟨-, l₂', hl₂, hx₂⟩
      · omega
      · exact h.disjoint hl₁ hl₂ hx₁ hx₂
  · by_cases hxlt : x < s.length
    · rw [Sequences.active_addR hxlt, h.active]
      constructor
      · rintro ⟨seq', l', hseq', hx⟩
        by_cases heq : seq' = seq
        · cases (heq ▸ hseq').symm.trans hseq
          exact ⟨seq, _, update_self .., List.mem_append_left _ hx⟩
        · exact ⟨seq', l', (update_of_ne heq ..).trans hseq', hx⟩
      · rintro ⟨seq', l', hseq', hx⟩
        rcases hmem hseq' hx with ⟨rfl, -⟩ | ⟨-, l₁, hl₁, hx₁⟩
        · omega
        · exact ⟨seq', l₁, hl₁, hx₁⟩
    · rcases (not_lt.mp hxlt).eq_or_lt with rfl | hxlt'
      · rw [Sequences.active_addR_self]
        exact ⟨fun _ => ⟨seq, _, update_self .., by simp [hsize]⟩, fun _ => rfl⟩
      · have hinactive : (s.addR a seq).active x = false := by
          have hlen : (s.addR a seq).length ≤ x := (s.length_addR a seq).le.trans hxlt'
          simp [Sequences.active, List.getElem?_eq_none hlen]
        rw [hinactive]
        refine ⟨fun hfalse => absurd hfalse (by simp), ?_⟩
        rintro ⟨seq', l', hseq', hx⟩
        rcases hmem hseq' hx with ⟨rfl, -⟩ | ⟨hlt', -⟩ <;> omega
  · by_cases hxlt : x < s.length
    · have hne : x ≠ d.size := by omega
      simp only [update_of_ne hne]
      rw [hdata hxlt, h.value]
    · rcases (not_lt.mp hxlt).eq_or_lt with rfl | hxlt'
      · rw [Sequences.data_addR_self]
        simp [← hsize]
      · have hlen : (s.addR a seq).length ≤ x := (s.length_addR a seq).le.trans hxlt'
        have hne : x ≠ d.size := by omega
        simp only [update_of_ne hne]
        rw [h.value]
        simp [Sequences.data, List.getElem?_eq_none hlen, List.getElem?_eq_none hxlt'.le]

/-! ### Removing a node -/

theorem erase_of_ne (hseq : d.lists seq = some l) (hx : x ∈ l) (hne : seq' ≠ seq)
    (hseq' : d.lists seq' = some l') : l'.erase x = l' :=
  List.erase_of_not_mem fun hx' => hne (h.disjoint hseq' hseq hx' hx)

theorem remove (node : ℕ) : Represents (s.remove node) (d.remove node) := by
  have hlists : ∀ {seq l}, (d.remove node).lists seq = some l →
      ∃ l', d.lists seq = some l' ∧ l = l'.erase node := by
    intro seq l hseq
    obtain ⟨l', hseq', hl⟩ := Option.map_eq_some_iff.mp hseq
    exact ⟨l', hseq', hl.symm⟩
  refine ⟨?_, fun {seq l} hseq => ?_, fun seq => ?_, fun {seq l x} hseq hx => ?_,
    fun {seq seq' l l' x} hseq hseq' hx hx' => ?_, fun x => ?_, fun x => ?_⟩
  · rw [Sequences.length_remove]
    exact h.size
  · obtain ⟨l', hseq', rfl⟩ := hlists hseq
    have hring := h.ring hseq'
    by_cases hnode : node ∈ l'
    · obtain ⟨l₁, l₂, rfl⟩ := List.append_of_mem hnode
      have hnodup : node ∉ l₁ := by
        have hl := (List.nodup_cons.mp hring.nodup).2
        exact fun hmem => (List.nodup_append'.mp hl).2.2 hmem List.mem_cons_self
      have herase : (l₁ ++ node :: l₂).erase node = l₁ ++ l₂ := by
        rw [List.erase_append_right _ hnodup, List.erase_cons_head]
      rw [herase]
      exact hring.remove ((h.active node).mpr ⟨seq, _, hseq', hnode⟩)
    -- the node is in another sequence, or in none
    · rw [List.erase_of_not_mem hnode]
      by_cases hactive : s.active node = true
      · obtain ⟨seq₁, l₁, hseq₁, hmem⟩ := (h.active node).mp hactive
        have hne : seq₁ ≠ seq := by
          rintro rfl
          exact hnode (Option.some.inj (hseq₁.symm.trans hseq') ▸ hmem)
        have hmem' : node ∈ seq₁ :: l₁ := List.mem_cons_of_mem _ hmem
        have hring₁ := h.ring hseq₁
        exact hring.remove_other (h.apart hne hseq₁ hseq' node hmem') fun _ =>
          .inl ⟨(hring₁.prev hmem').1.1, (hring₁.next hmem').1.2⟩
      · simpa [Sequences.remove, hactive] using hring
  · rw [Sequences.length_remove, Sequences.data_remove, ← h.header]
    constructor
    · rintro ⟨l, hseq⟩
      obtain ⟨l', hseq', -⟩ := hlists hseq
      exact ⟨l', hseq'⟩
    · rintro ⟨l, hseq⟩
      exact ⟨l.erase node, by simp [Deques.remove, hseq]⟩
  · obtain ⟨l', hseq', rfl⟩ := hlists hseq
    rw [Sequences.data_remove]
    exact h.node hseq' (List.mem_of_mem_erase hx)
  · obtain ⟨l₁, hseq₁, rfl⟩ := hlists hseq
    obtain ⟨l₂, hseq₂, rfl⟩ := hlists hseq'
    exact h.disjoint hseq₁ hseq₂ (List.mem_of_mem_erase hx) (List.mem_of_mem_erase hx')
  -- removing makes this node inactive and no other
  · rw [Sequences.active_remove, Bool.and_eq_true, h.active, bne_iff_ne]
    constructor
    · rintro ⟨⟨seq, l, hseq, hx⟩, hne⟩
      exact ⟨seq, l.erase node, by simp [Deques.remove, hseq], (List.mem_erase_of_ne hne).mpr hx⟩
    · rintro ⟨seq, l, hseq, hx⟩
      obtain ⟨l', hseq', rfl⟩ := hlists hseq
      have hnodup := (List.nodup_cons.mp (h.ring hseq').nodup).2
      obtain ⟨hne, hx⟩ := hnodup.mem_erase_iff.mp hx
      exact ⟨⟨seq, l', hseq', hx⟩, hne⟩
  · rw [Sequences.data_remove]
    exact h.value x

theorem update_eq_remove (hseq : d.lists seq = some l) (hx : x ∈ l) (herase : l.erase x = l') :
    { d with lists := update d.lists seq (some l') } = d.remove x := by
  have hlists : update d.lists seq (some l') = fun seq' => (d.lists seq').map (·.erase x) := by
    funext seq'
    by_cases heq : seq' = seq
    · rw [heq, update_self, hseq, Option.map_some, herase]
    · rw [update_of_ne heq]
      cases hseq' : d.lists seq' with
      | none => rfl
      | some l₁ => rw [Option.map_some, h.erase_of_ne hseq hx heq hseq']
  rw [hlists, Deques.remove]

/-! ### Other operations -/

theorem setData (hnode : s.data node ≠ none) :
    Represents (s.setData node a) { d with value := update d.value node (some a) } := by
  have hlt : node < s.length := by
    by_contra hge
    exact hnode (by simp [Sequences.data, List.getElem?_eq_none (not_lt.mp hge)])
  -- only the value changes: the links and the flags stay
  have hnext : ∀ x, (s.setData node a).next x = s.next x := by
    intro x
    unfold Sequences.next Sequences.setData
    rw [List.getElem?_modify]
    cases s[x]? <;> by_cases hx : node = x <;> simp [hx]
  have hprev : ∀ x, (s.setData node a).prev x = s.prev x := by
    intro x
    unfold Sequences.prev Sequences.setData
    rw [List.getElem?_modify]
    cases s[x]? <;> by_cases hx : node = x <;> simp [hx]
  have hactive : ∀ x, (s.setData node a).active x = s.active x := by
    intro x
    unfold Sequences.active Sequences.setData
    rw [List.getElem?_modify]
    cases s[x]? <;> by_cases hx : node = x <;> simp [hx]
  have hlen : (s.setData node a).length = s.length := List.length_modify ..
  have hdata : ∀ x, (s.setData node a).data x = if x = node then some a else s.data x := by
    intro x
    unfold Sequences.data Sequences.setData
    rw [List.getElem?_modify]
    by_cases hx : node = x
    · subst hx
      simp [hlt]
    · simp [hx, Ne.symm hx]
  refine ⟨h.size.trans hlen.symm, fun hseq => ?_, fun seq => ?_, fun {seq l x} hseq hx => ?_,
    h.disjoint, fun x => ?_, fun x => ?_⟩
  · exact (h.ring hseq).congr hlen.ge (fun x _ => hnext x) fun x _ => hprev x
  · rw [hlen, hdata]
    split
    -- a header has no value, and the node has one
    · rename_i heq
      subst heq
      simp only [reduceCtorEq, and_false, iff_false]
      exact fun hheader => hnode ((h.header seq).mp hheader).2
    · exact h.header seq
  · rw [hdata]
    split
    · simp
    · exact h.node hseq hx
  · rw [hactive]
    exact h.active x
  · rw [hdata, ← h.value]
    exact update_apply ..

theorem transferR (hne : s1 ≠ s2) (h1 : d.lists s1 = some l) (h2 : d.lists s2 = some l₂) :
    Represents (s.transferR s1 s2)
      { d with lists := update (update d.lists s2 (some (l₂ ++ l))) s1 (some []) } := by
  have hdisj := h.apart hne.symm h2 h1
  have hring1 := h.ring h1
  have hring2 := h.ring h2
  have hlists : ∀ {seq l'}, update (update d.lists s2 (some (l₂ ++ l))) s1 (some []) seq = some l' →
      (seq = s1 ∧ l' = []) ∨ (seq = s2 ∧ l' = l₂ ++ l) ∨
        (seq ≠ s1 ∧ seq ≠ s2 ∧ d.lists seq = some l') := by
    intro seq l' hseq
    by_cases heq1 : seq = s1
    · rw [heq1, update_self] at hseq
      exact .inl ⟨heq1, (Option.some.inj hseq).symm⟩
    · rw [update_of_ne heq1] at hseq
      by_cases heq2 : seq = s2
      · rw [heq2, update_self] at hseq
        exact .inr (.inl ⟨heq2, (Option.some.inj hseq).symm⟩)
      · rw [update_of_ne heq2] at hseq
        exact .inr (.inr ⟨heq1, heq2, hseq⟩)
  -- Where a node that is in a list now was before.
  have hmem : ∀ {seq l' x}, update (update d.lists s2 (some (l₂ ++ l))) s1 (some []) seq = some l' →
      x ∈ l' → ∃ seq₁ l₁, d.lists seq₁ = some l₁ ∧ x ∈ l₁ ∧
        seq = if seq₁ = s1 then s2 else seq₁ := by
    intro seq l' x hseq hx
    rcases hlists hseq with ⟨-, rfl⟩ | ⟨rfl, rfl⟩ | ⟨hne1, -, hseq⟩
    · simp at hx
    · rcases List.mem_append.mp hx with hx | hx
      · exact ⟨seq, l₂, h2, hx, by rw [if_neg hne.symm]⟩
      · exact ⟨s1, l, h1, hx, by rw [if_pos rfl]⟩
    · exact ⟨seq, l', hseq, hx, by rw [if_neg hne1]⟩
  refine ⟨by simp [h.size], fun {seq l'} hseq => ?_, fun seq => ?_, fun {seq l' x} hseq hx => ?_,
    fun {seq seq' l₁ l₁' x} hseq hseq' hx hx' => ?_, fun x => ?_, fun x => ?_⟩
  · by_cases hl : l = []
    · subst hl
      have hs1 : s1 ∉ s2 :: l₂ := fun hmem => hdisj s1 hmem (by simp)
      rcases hlists hseq with ⟨rfl, rfl⟩ | ⟨rfl, rfl⟩ | ⟨-, -, hseq⟩
      · exact hring1.transferR_nil hring1 hring2 hs1
      · rw [List.append_nil]
        exact hring2.transferR_nil hring1 hring2 hs1
      · exact (h.ring hseq).transferR_nil hring1 hring2 hs1
    · rcases hlists hseq with ⟨rfl, rfl⟩ | ⟨rfl, rfl⟩ | ⟨hne1, hne2, hseq⟩
      · exact hring1.transferR_self hl hring2 hdisj
      · exact hring1.transferR hl hring2 hdisj
      · exact (h.ring hseq).transferR_other hring1 hl hring2 hdisj fun x hx =>
          ⟨h.apart hne2 hseq h2 x hx, h.apart hne1 hseq h1 x hx⟩
  · rw [Sequences.length_transferR, Sequences.data_transferR, ← h.header]
    constructor
    · rintro ⟨l', hseq⟩
      rcases hlists hseq with ⟨rfl, -⟩ | ⟨rfl, -⟩ | ⟨-, -, hseq⟩
      · exact ⟨l, h1⟩
      · exact ⟨l₂, h2⟩
      · exact ⟨l', hseq⟩
    · rintro ⟨l', hseq⟩
      by_cases heq1 : seq = s1
      · exact ⟨[], by rw [heq1]; exact update_self ..⟩
      · by_cases heq2 : seq = s2
        · exact ⟨l₂ ++ l, (update_of_ne heq1 ..).trans (by rw [heq2]; exact update_self ..)⟩
        · exact ⟨l', (update_of_ne heq1 ..).trans ((update_of_ne heq2 ..).trans hseq)⟩
  · obtain ⟨seq₁, l₁, hseq₁, hx, -⟩ := hmem hseq hx
    rw [Sequences.data_transferR]
    exact h.node hseq₁ hx
  · obtain ⟨seq₁, l₁, hseq₁, hx₁, rfl⟩ := hmem hseq hx
    obtain ⟨seq₂, l₂, hseq₂, hx₂, rfl⟩ := hmem hseq' hx'
    rw [h.disjoint hseq₁ hseq₂ hx₁ hx₂]
  · rw [Sequences.active_transferR, h.active]
    constructor
    · rintro ⟨seq, l', hseq, hx⟩
      by_cases heq1 : seq = s1
      · obtain rfl := Option.some.inj ((heq1 ▸ hseq).symm.trans h1)
        exact ⟨s2, l₂ ++ l', (update_of_ne hne.symm ..).trans (update_self ..),
          List.mem_append_right _ hx⟩
      · by_cases heq2 : seq = s2
        · obtain rfl := Option.some.inj ((heq2 ▸ hseq).symm.trans h2)
          exact ⟨s2, l' ++ l, (update_of_ne hne.symm ..).trans (update_self ..),
            List.mem_append_left _ hx⟩
        · exact ⟨seq, l', (update_of_ne heq1 ..).trans ((update_of_ne heq2 ..).trans hseq), hx⟩
    · rintro ⟨seq, l', hseq, hx⟩
      obtain ⟨seq₁, l₁, hseq₁, hx, -⟩ := hmem hseq hx
      exact ⟨seq₁, l₁, hseq₁, hx⟩
  · rw [Sequences.data_transferR]
    exact h.value x

/-! ### The left side -/

theorem mirror :
    Represents s.mirror { d with lists := fun seq => (d.lists seq).map List.reverse } := by
  have hlists : ∀ {seq l}, (d.lists seq).map List.reverse = some l →
    d.lists seq = some l.reverse := by
    intro seq l hseq
    obtain ⟨l', hseq', rfl⟩ := Option.map_eq_some_iff.mp hseq
    rw [hseq', List.reverse_reverse]
  refine ⟨by simp [h.size], fun {seq l} hseq => ?_, fun seq => ?_, fun {seq l x} hseq hx => ?_,
    fun {seq seq' l l' x} hseq hseq' hx hx' => ?_, fun x => ?_, fun x => ?_⟩
  · have hring := (h.ring (hlists hseq)).mirror
    rwa [List.reverse_reverse] at hring
  · rw [Sequences.length_mirror, Sequences.data_mirror, ← h.header]
    simp only [Option.map_eq_some_iff]
    exact ⟨fun hl => hl.elim fun _ hl => hl.elim fun l' hl' => ⟨l', hl'.1⟩,
      fun hl => hl.elim fun l' hl' => ⟨l'.reverse, l', hl', rfl⟩⟩
  · rw [Sequences.data_mirror]
    exact h.node (hlists hseq) (List.mem_reverse.mpr hx)
  · exact h.disjoint (hlists hseq) (hlists hseq') (List.mem_reverse.mpr hx)
      (List.mem_reverse.mpr hx')
  · rw [Sequences.active_mirror, h.active]
    constructor
    · rintro ⟨seq, l, hseq, hx⟩
      exact ⟨seq, l.reverse, by simp [hseq], List.mem_reverse.mpr hx⟩
    · rintro ⟨seq, l, hseq, hx⟩
      exact ⟨seq, l.reverse, hlists hseq, List.mem_reverse.mpr hx⟩
  · rw [Sequences.data_mirror]
    exact h.value x

end Represents

theorem map_reverse_reverse (lists : ℕ → Option (List ℕ)) :
    (fun seq => ((lists seq).map List.reverse).map List.reverse) = lists := by
  funext seq
  cases lists seq <;> simp

theorem map_reverse_update (lists : ℕ → Option (List ℕ)) (seq : ℕ) (l : List ℕ) :
    (fun seq' => (update lists seq (some l) seq').map List.reverse) =
      update (fun seq' => (lists seq').map List.reverse) seq (some l.reverse) := by
  funext seq'
  by_cases heq : seq' = seq
  · rw [heq, update_self, update_self, Option.map_some]
  · rw [update_of_ne heq, update_of_ne heq]

theorem Represents.addL {d : Deques α} (h : Represents s d) (hseq : d.lists seq = some l) :
    Represents (s.addL a seq)
      ⟨d.size + 1, update d.lists seq (some (d.size :: l)), update d.value d.size (some a)⟩ := by
  have hreverse : (d.lists seq).map List.reverse = some l.reverse := by simp [hseq]
  have hmirror := (h.mirror.addR (a := a) hreverse).mirror
  rw [← Sequences.addL_eq] at hmirror
  simp only [map_reverse_update, map_reverse_reverse, List.reverse_append, List.reverse_reverse]
    at hmirror
  exact hmirror

theorem Represents.transferL {d : Deques α} (h : Represents s d) (hne : s1 ≠ s2)
    (h1 : d.lists s1 = some l) (h2 : d.lists s2 = some l₂) :
    Represents (s.transferL s1 s2)
      { d with lists := update (update d.lists s2 (some (l ++ l₂))) s1 (some []) } := by
  have h1' : (d.lists s1).map List.reverse = some l.reverse := by simp [h1]
  have h2' : (d.lists s2).map List.reverse = some l₂.reverse := by simp [h2]
  have hmirror := (h.mirror.transferR hne h1' h2').mirror
  rw [← Sequences.transferL_eq] at hmirror
  simp only [map_reverse_update, map_reverse_reverse, List.reverse_append, List.reverse_reverse,
    List.reverse_nil] at hmirror
  exact hmirror

/-! ### Taking a node -/

namespace Represents

variable {d : Deques α} (h : Represents s d)

include h

theorem next_eq (hseq : d.lists seq = some (x :: l)) : s.next seq = x := by
  have hhead := (h.ring hseq).head?_self
  exact (Option.some.inj hhead).symm

theorem prev_eq (hseq : d.lists seq = some l) (hx : l.getLast? = some x) : s.prev seq = x := by
  have hhead := (h.ring hseq).mirror.head?_self
  rw [Sequences.next_mirror, List.head?_append, List.head?_reverse, hx] at hhead
  exact (Option.some.inj hhead).symm

theorem takeOptL (hseq : d.lists seq = some l) :
    Represents (s.takeOptL seq).2 (d.take l.head? seq l.tail).2 ∧
      (s.takeOptL seq).1 = (d.take l.head? seq l.tail).1 := by
  have hempty := (h.ring hseq).isEmpty_iff
  cases l with
  | nil =>
    rw [Sequences.takeOptL, if_pos (hempty.mpr rfl)]
    exact ⟨h, rfl⟩
  | cons x l =>
    have hne : ¬ s.isEmpty seq = true := fun he => by simpa using hempty.mp he
    rw [Sequences.takeOptL, if_neg hne, h.next_eq hseq]
    have herase : (x :: l).erase x = l := List.erase_cons_head x l
    refine ⟨?_, (h.value x).symm⟩
    simp only [Deques.take, List.head?_cons, List.tail_cons]
    rw [h.update_eq_remove hseq List.mem_cons_self herase]
    exact h.remove x

theorem takeOptR (hseq : d.lists seq = some l) :
    Represents (s.takeOptR seq).2 (d.take l.getLast? seq l.dropLast).2 ∧
      (s.takeOptR seq).1 = (d.take l.getLast? seq l.dropLast).1 := by
  have hempty := (h.ring hseq).isEmpty_iff
  cases hlast : l.getLast? with
  | none =>
    rw [Sequences.takeOptR, if_pos (hempty.mpr (List.getLast?_eq_none_iff.mp hlast))]
    exact ⟨h, rfl⟩
  | some x =>
    have hmem : x ∈ l := List.mem_of_getLast? hlast
    have hne : ¬ s.isEmpty seq = true := fun he => by
      rw [hempty.mp he] at hmem
      simp at hmem
    have hl : l.dropLast ++ [x] = l := List.dropLast_append_getLast? x hlast
    have hnodup : (l.dropLast ++ [x]).Nodup := by
      rw [hl]
      exact (List.nodup_cons.mp (h.ring hseq).nodup).2
    have hnotin : x ∉ l.dropLast := fun hx =>
      (List.nodup_append'.mp hnodup).2.2 hx (List.mem_singleton_self x)
    have herase : l.erase x = l.dropLast := by
      conv_lhs => rw [← hl]
      rw [List.erase_append_right _ hnotin, List.erase_cons_head, List.append_nil]
    rw [Sequences.takeOptR, if_neg hne, h.prev_eq hseq hlast]
    refine ⟨?_, (h.value x).symm⟩
    simp only [Deques.take]
    rw [h.update_eq_remove hseq hmem herase]
    exact h.remove x

theorem takeL (hseq : d.lists seq = some l) :
    (match s.takeL seq with
      | some (a, s) => (s, SequenceResult.value a)
      | none => (s, .empty)) =
    ((s.takeOptL seq).2, (s.takeOptL seq).1.elim .empty .value) := by
  have hempty := (h.ring hseq).isEmpty_iff
  unfold Sequences.takeL Sequences.takeOptL
  split_ifs with he
  · rfl
  · cases l with
    | nil => exact absurd (hempty.mpr rfl) he
    | cons x l =>
      obtain ⟨a, ha⟩ := Option.ne_none_iff_exists'.mp (h.node hseq List.mem_cons_self)
      rw [h.next_eq hseq, ha]
      rfl

theorem takeR (hseq : d.lists seq = some l) :
    (match s.takeR seq with
      | some (a, s) => (s, SequenceResult.value a)
      | none => (s, .empty)) =
    ((s.takeOptR seq).2, (s.takeOptR seq).1.elim .empty .value) := by
  have hempty := (h.ring hseq).isEmpty_iff
  unfold Sequences.takeR Sequences.takeOptR
  split_ifs with he
  · rfl
  · cases hlast : l.getLast? with
    | none => exact absurd (hempty.mpr (List.getLast?_eq_none_iff.mp hlast)) he
    | some x =>
      obtain ⟨a, ha⟩ := Option.ne_none_iff_exists'.mp (h.node hseq (List.mem_of_getLast? hlast))
      rw [h.prev_eq hseq hlast, ha]
      rfl

end Represents

/-! ## Runs -/

theorem step_represents {d : Deques α} {o : SequenceOp α} {r : SequenceResult α}
    (h : Represents s d) (hstep : s.step o = some (s', r)) :
    ∃ d', d.step o = some (d', r) ∧ Represents s' d' := by
  -- each case: what the step demands is what the lemma of the operation demands
  cases o with
  | create =>
    obtain ⟨rfl, rfl⟩ : s.create = s' ∧ .entry s.length = r := by
      simpa [Sequences.step] using hstep
    exact ⟨_, by rw [Deques.step, h.size], h.size ▸ h.create⟩
  | addL a seq =>
    simp only [Sequences.step, Option.ite_none_right_eq_some, Option.some.injEq,
      Prod.mk.injEq] at hstep
    obtain ⟨hseq, rfl, rfl⟩ := hstep
    obtain ⟨l, hl⟩ := h.exists_of_isSeq hseq
    exact ⟨_, by rw [Deques.step, hl, Option.map_some, h.size], h.size ▸ h.addL hl⟩
  | addR a seq =>
    simp only [Sequences.step, Option.ite_none_right_eq_some, Option.some.injEq,
      Prod.mk.injEq] at hstep
    obtain ⟨hseq, rfl, rfl⟩ := hstep
    obtain ⟨l, hl⟩ := h.exists_of_isSeq hseq
    exact ⟨_, by rw [Deques.step, hl, Option.map_some, h.size], h.size ▸ h.addR hl⟩
  | takeL seq =>
    simp only [Sequences.step, Option.ite_none_right_eq_some, Option.some.injEq] at hstep
    obtain ⟨hseq, hresult⟩ := hstep
    obtain ⟨l, hl⟩ := h.exists_of_isSeq hseq
    obtain ⟨hrepresents, hvalue⟩ := h.takeOptL hl
    rw [h.takeL hl, Prod.mk.injEq] at hresult
    obtain ⟨rfl, rfl⟩ := hresult
    exact ⟨_, by rw [Deques.step, hl, Option.map_some, hvalue], hrepresents⟩
  | takeR seq =>
    simp only [Sequences.step, Option.ite_none_right_eq_some, Option.some.injEq] at hstep
    obtain ⟨hseq, hresult⟩ := hstep
    obtain ⟨l, hl⟩ := h.exists_of_isSeq hseq
    obtain ⟨hrepresents, hvalue⟩ := h.takeOptR hl
    rw [h.takeR hl, Prod.mk.injEq] at hresult
    obtain ⟨rfl, rfl⟩ := hresult
    exact ⟨_, by rw [Deques.step, hl, Option.map_some, hvalue], hrepresents⟩
  | takeOptL seq =>
    simp only [Sequences.step, Option.ite_none_right_eq_some, Option.some.injEq,
      Prod.mk.injEq] at hstep
    obtain ⟨hseq, rfl, rfl⟩ := hstep
    obtain ⟨l, hl⟩ := h.exists_of_isSeq hseq
    obtain ⟨hrepresents, hvalue⟩ := h.takeOptL hl
    exact ⟨_, by rw [Deques.step, hl, Option.map_some, hvalue], hrepresents⟩
  | takeOptR seq =>
    simp only [Sequences.step, Option.ite_none_right_eq_some, Option.some.injEq,
      Prod.mk.injEq] at hstep
    obtain ⟨hseq, rfl, rfl⟩ := hstep
    obtain ⟨l, hl⟩ := h.exists_of_isSeq hseq
    obtain ⟨hrepresents, hvalue⟩ := h.takeOptR hl
    exact ⟨_, by rw [Deques.step, hl, Option.map_some, hvalue], hrepresents⟩
  | transferL s1 s2 =>
    simp only [Sequences.step, Option.ite_none_right_eq_some, Option.some.injEq, Prod.mk.injEq,
      Bool.and_eq_true, bne_iff_ne] at hstep
    obtain ⟨⟨⟨h1, h2⟩, hne⟩, rfl, rfl⟩ := hstep
    obtain ⟨l1, hl1⟩ := h.exists_of_isSeq h1
    obtain ⟨l2, hl2⟩ := h.exists_of_isSeq h2
    exact ⟨_, by rw [Deques.step, if_neg hne, hl1, Option.bind_some, hl2, Option.map_some],
      h.transferL hne hl1 hl2⟩
  | transferR s1 s2 =>
    simp only [Sequences.step, Option.ite_none_right_eq_some, Option.some.injEq, Prod.mk.injEq,
      Bool.and_eq_true, bne_iff_ne] at hstep
    obtain ⟨⟨⟨h1, h2⟩, hne⟩, rfl, rfl⟩ := hstep
    obtain ⟨l1, hl1⟩ := h.exists_of_isSeq h1
    obtain ⟨l2, hl2⟩ := h.exists_of_isSeq h2
    exact ⟨_, by rw [Deques.step, if_neg hne, hl1, Option.bind_some, hl2, Option.map_some],
      h.transferR hne hl1 hl2⟩
  | remove node =>
    simp only [Sequences.step, Option.ite_none_right_eq_some, Option.some.injEq,
      Prod.mk.injEq] at hstep
    obtain ⟨hnode, rfl, rfl⟩ := hstep
    obtain ⟨a, ha⟩ := Option.isSome_iff_exists.mp hnode
    exact ⟨_, by rw [Deques.step, h.value, ha, Option.map_some], h.remove node⟩
  | set node a =>
    simp only [Sequences.step, Option.ite_none_right_eq_some, Option.some.injEq,
      Prod.mk.injEq] at hstep
    obtain ⟨hnode, rfl, rfl⟩ := hstep
    obtain ⟨b, hb⟩ := Option.isSome_iff_exists.mp hnode
    exact ⟨_, by rw [Deques.step, h.value, hb, Option.map_some], h.setData (by simp [hb])⟩

theorem step_isSome {d : Deques α} (h : Represents s d) (o : SequenceOp α) :
    (s.step o).isSome = (d.step o).isSome := by
  have hseq : ∀ seq, s.isSeq seq = (d.lists seq).isSome := by
    intro seq
    cases hl : d.lists seq with
    | some l => exact h.isSeq hl
    | none =>
      refine Bool.eq_false_iff.mpr fun hseq => ?_
      obtain ⟨l, hl'⟩ := h.exists_of_isSeq hseq
      simp [hl] at hl'
  have hnode : ∀ node, s.isNode node = (d.value node).isSome := fun node => by
    rw [Sequences.isNode, h.value]
  cases o with
  | create => rfl
  | addL a seq | addR a seq | takeL seq | takeR seq | takeOptL seq | takeOptR seq =>
    simp only [Sequences.step, Deques.step, Option.isSome_map, ← hseq]
    split <;> simp_all
  | transferL s1 s2 | transferR s1 s2 =>
    simp only [Sequences.step, Deques.step, hseq]
    by_cases hne : s1 = s2
    · simp [hne]
    · cases h1 : d.lists s1 with
      | none => simp [hne]
      | some l1 => cases h2 : d.lists s2 <;> simp [hne]
  | remove node | set node a =>
    simp only [Sequences.step, Deques.step, Option.isSome_map, ← hnode]
    split <;> simp_all

theorem run_represents {d : Deques α} (h : Represents s d) (ops : List (SequenceOp α)) :
    (s.run ops = none ∧ d.run ops = none) ∨
      ∃ s' d' results, s.run ops = some (s', results) ∧ d.run ops = some (d', results) ∧
        Represents s' d' := by
  induction ops generalizing s d with
  | nil => exact .inr ⟨s, d, [], rfl, rfl, h⟩
  | cons o ops ih =>
    have hsome := step_isSome h o
    cases hstep : s.step o with
    | none =>
      have hstep' : d.step o = none := by simpa [hstep] using hsome
      exact .inl ⟨by simp [Sequences.run, hstep], by simp [Deques.run, hstep']⟩
    | some r =>
      obtain ⟨s₁, result⟩ := r
      obtain ⟨d₁, hstep', h₁⟩ := step_represents h hstep
      rcases ih h₁ with ⟨hrun, hrun'⟩ | ⟨s', d', results, hrun, hrun', h'⟩
      · exact .inl ⟨by simp [Sequences.run, hstep, hrun], by simp [Deques.run, hstep', hrun']⟩
      · exact .inr ⟨s', d', result :: results, by simp [Sequences.run, hstep, hrun],
          by simp [Deques.run, hstep', hrun'], h'⟩

/-! ## Loops -/

theorem Sequences.Ring.length_lt (h : s.Ring seq l) : l.length < s.length + 1 := by
  have hsub : seq :: l ⊆ List.range s.length := fun x hx => List.mem_range.mpr (h.within x hx)
  have hle := List.Nodup.length_le_of_subset h.nodup hsub
  simp only [List.length_cons, List.length_range] at hle
  omega

/-- What the loops over the nodes from `curr` on do, turn by turn. -/
theorem Sequences.Ring.loops {β : Type} (h : s.Ring seq l) (f : α → β → β) (p : α → Bool)
    (hactive : ∀ x ∈ l, s.active x = true) {l₁ l₂ : List ℕ} (hl : l = l₁ ++ l₂) {turns curr : ℕ}
    (hcurr : (l₂ ++ [seq]).head? = some curr) (hturns : l₂.length < turns) (len : ℕ) (acc : β) :
    s.lengthLoop seq turns curr len = some (len + l₂.length) ∧
    s.foldLoop s.next seq f turns curr acc =
      some ((l₂.filterMap s.data).foldl (fun acc a => f a acc) acc) ∧
    s.findLoop s.next seq p turns curr = some (l₂.find? fun x => (s.data x).any p) := by
  induction l₂ generalizing l₁ turns curr len acc with
  | nil =>
    obtain ⟨turns, rfl⟩ := Nat.exists_eq_add_of_lt hturns
    obtain rfl : seq = curr := by simpa using hcurr
    simp [Sequences.lengthLoop, Sequences.foldLoop, Sequences.findLoop]
  | cons x l₂ ih =>
    obtain ⟨turns, rfl⟩ : ∃ n, turns = n + 1 := ⟨turns - 1, by simp at hturns; omega⟩
    obtain rfl : x = curr := by simpa using hcurr
    have hx : x ∈ l := by simp [hl]
    have hne : x ≠ seq := fun heq => (List.nodup_cons.mp h.nodup).1 (heq ▸ hx)
    have hnext : (l₂ ++ [seq]).head? = some (s.next x) := (hl ▸ h).head?_eq
    have hl' : l = l₁ ++ [x] ++ l₂ := by simp [hl]
    have hlt : l₂.length < turns := by simpa using hturns
    have hrest := fun len acc => ih hl' hnext hlt len acc
    refine ⟨?_, ?_, ?_⟩
    · rw [Sequences.lengthLoop, if_neg hne, (hrest (len + 1) acc).1, List.length_cons]
      congr 1
      omega
    · rw [Sequences.foldLoop, if_neg hne, if_pos (hactive x hx), (hrest len _).2.1]
      cases hdata : s.data x with
      | none => rw [List.filterMap_cons_none hdata]; rfl
      | some a => rw [List.filterMap_cons_some hdata]; rfl
    · rw [Sequences.findLoop, if_pos hne, if_pos (hactive x hx), List.find?_cons]
      cases hany : (s.data x).any p with
      | true => simp
      | false => simpa using (hrest len acc).2.2

namespace Sequences

theorem foldLoop_mirror {β : Type} (s : Sequences α) (follow : ℕ → ℕ) (seq : ℕ) (f : α → β → β)
    (turns curr : ℕ) (acc : β) :
    s.mirror.foldLoop follow seq f turns curr acc = s.foldLoop follow seq f turns curr acc := by
  induction turns generalizing curr acc with
  | zero => rfl
  | succ turns ih => simp only [foldLoop, active_mirror, data_mirror, ih]

theorem findLoop_mirror (s : Sequences α) (follow : ℕ → ℕ) (seq : ℕ) (p : α → Bool)
    (turns curr : ℕ) :
    s.mirror.findLoop follow seq p turns curr = s.findLoop follow seq p turns curr := by
  induction turns generalizing curr with
  | zero => rfl
  | succ turns ih => simp only [findLoop, active_mirror, data_mirror, ih]

theorem remove_remove (s : Sequences α) (node : ℕ) :
    (s.remove node).remove node = s.remove node := by
  have hactive : (s.remove node).active node = false := by simp [active_remove]
  rw [Sequences.remove.eq_def (s.remove node), hactive, if_neg (by simp)]

end Sequences

/-- The functions that read a sequence agree with its list. -/
structure Reads (s : Sequences α) (seq : ℕ) (l : List ℕ) (value : ℕ → Option α) : Prop where
  isEmpty : s.isEmpty seq = l.isEmpty
  length : s.lengthOf seq = some l.length
  foldL : ∀ {β : Type} (f : α → β → β) (acc : β),
    s.foldL seq f acc = some ((l.filterMap value).foldl (fun acc a => f a acc) acc)
  foldR : ∀ {β : Type} (f : α → β → β) (acc : β),
    s.foldR seq f acc = some ((l.filterMap value).foldr f acc)
  findNodeL : ∀ p : α → Bool, s.findNodeL seq p = some (l.find? fun x => (value x).any p)
  findNodeR : ∀ p : α → Bool, s.findNodeR seq p = some (l.reverse.find? fun x => (value x).any p)

theorem Represents.reads {d : Deques α} (h : Represents s d) (hseq : d.lists seq = some l) :
    Reads s seq l d.value := by
  have hring := h.ring hseq
  have hactive : ∀ x ∈ l, s.active x = true := fun x hx => (h.active x).mpr ⟨seq, l, hseq, hx⟩
  have hvalue : d.value = s.data := funext h.value
  have hmirror := hring.mirror
  have hprev : s.mirror.next = s.prev := funext s.next_mirror
  have hdata : s.mirror.data = s.data := funext s.data_mirror
  -- from the left
  have hleft := fun {β : Type} (f : α → β → β) (p : α → Bool) (acc : β) =>
    hring.loops f p hactive (List.nil_append l).symm hring.head?_self hring.length_lt 0 acc
  -- from the right
  have hright := fun {β : Type} (f : α → β → β) (p : α → Bool) (acc : β) =>
    hmirror.loops f p (fun x hx => (s.active_mirror x).trans (hactive x (List.mem_reverse.mp hx)))
      (List.nil_append l.reverse).symm hmirror.head?_self hmirror.length_lt 0 acc
  rw [hvalue]
  refine ⟨?_, ?_, fun f acc => ?_, fun f acc => ?_, fun p => ?_, fun p => ?_⟩
  · rw [Bool.eq_iff_iff, hring.isEmpty_iff, List.isEmpty_iff]
  · have h0 := (hleft (fun _ (n : ℕ) => n) (fun _ => true) 0).1
    rwa [Nat.zero_add] at h0
  · exact (hleft f (fun _ => true) acc).2.1
  · have hfold := (hright f (fun _ => true) acc).2.1
    rw [Sequences.foldLoop_mirror, hprev, hdata, s.length_mirror, List.filterMap_reverse,
      List.foldl_reverse] at hfold
    exact hfold
  · exact (hleft (fun _ (n : ℕ) => n) p 0).2.2
  · have hfind := (hright (fun _ (n : ℕ) => n) p 0).2.2
    rw [Sequences.findLoop_mirror, hprev, hdata, s.length_mirror] at hfind
    exact hfind

/-- In every run of calls, the links hold the lists of the same calls on double-ended queues, with
the same results; the functions that read a sequence agree with its list, and a second `remove`
of a node changes nothing. -/
theorem sequences_refine_deques (ops : List (SequenceOp α)) :
    (Sequences.run [] ops = none ∧ Deques.initial.run ops = none) ∨
      ∃ (s : Sequences α) (d : Deques α) (results : List (SequenceResult α)),
        Sequences.run [] ops = some (s, results) ∧ Deques.initial.run ops = some (d, results) ∧
        Represents s d ∧ (∀ seq l, d.lists seq = some l → Reads s seq l d.value) ∧
        ∀ node, (s.remove node).remove node = s.remove node := by
  rcases run_represents (represents_initial (α := α)) ops with hnone | ⟨s, d, results,
    hrun, hrun', h⟩
  · exact .inl hnone
  · exact .inr ⟨s, d, results, hrun, hrun', h, fun seq l hseq => h.reads hseq, s.remove_remove⟩

end Lwt
