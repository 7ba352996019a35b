import Mathlib.Data.List.Infix
import Lwt.Stream.Reads

/-!
# What the reads return

The elements of a stream are those before the first end marker.  A read passes elements at
consecutive indices from the head it began at (`ReadSound`), whatever other reads do, as long as
`nget_rec` and `get_available_up_to_rec` find in `s.node` what their own node holds (`ReadsOwn`).
-/

namespace Lwt

variable {α : Type}

/-- The elements before the first end marker. -/
def elements : List (Option α) → List α
  | some x :: data => x :: elements data
  | _ => []

theorem length_elements_le (data : List (Option α)) : (elements data).length ≤ data.length := by
  induction data using elements.induct with
  | case1 x data ih => simpa [elements] using ih
  | case2 data h => simp [elements]

theorem elements_append (data data' : List (Option α)) :
    elements data <+: elements (data ++ data') := by
  induction data using elements.induct with
  | case1 x data ih => simpa [elements] using ih
  | case2 data h => simp [elements]

/-- Behind an end marker nothing is an element. -/
theorem elements_append_of_ended {data : List (Option α)} (data' : List (Option α))
    (h : (elements data).length < data.length) : elements (data ++ data') = elements data := by
  induction data using elements.induct with
  | case1 x data ih =>
    have h' : (elements data).length < data.length := by simpa [elements] using h
    simp [elements, ih h']
  | case2 data hdata =>
    cases data with
    | nil => simp [elements] at h
    | cons x data =>
      cases x with
      | none => simp [elements]
      | some x => exact absurd rfl (hdata x data)

theorem getElem?_elements {data : List (Option α)} {i : ℕ} {x : α}
    (hi : i ≤ (elements data).length) (hx : data[i]? = some (some x)) :
    (elements data)[i]? = some x := by
  induction data using elements.induct generalizing i with
  | case1 y data ih =>
    cases i with
    | zero => simpa [elements] using hx
    | succ i => simpa [elements] using ih (by simpa [elements] using hi) (by simpa using hx)
  | case2 data hdata =>
    cases data with
    | nil => simp at hx
    | cons y data =>
      cases y with
      | some y => exact absurd rfl (hdata y data)
      | none =>
        obtain rfl : i = 0 := by simpa [elements] using hi
        simp at hx

theorem eq_length_elements {data : List (Option α)} {i : ℕ} (hi : i ≤ (elements data).length)
    (hx : data[i]? = some none) : i = (elements data).length := by
  induction data using elements.induct generalizing i with
  | case1 y data ih =>
    cases i with
    | zero => simp at hx
    | succ i => simpa [elements] using ih (by simpa [elements] using hi) (by simpa using hx)
  | case2 data hdata => simpa [elements] using hi

/-- The read asks the user's predicate about each element. -/
def ReadOp.tests : ReadOp α → Bool
  | .getWhile _ | .getWhileS _ => true
  | _ => false

namespace Streams

variable {m m' : Streams α}

/-- The element sequence of the stream, as far as it is known. -/
def elements (m : Streams α) : List α := Lwt.elements m.data

/-- The stream has ended, and its end has the index `i`. -/
def EndsAt (m : Streams α) (i : ℕ) : Prop := i = m.elements.length ∧ i < m.data.length

theorem nodeData_eq_some {i : ℕ} {x : α} (hi : i ≤ m.elements.length)
    (hx : m.nodeData i = some x) : m.elements[i]? = some x :=
  getElem?_elements hi (Option.join_eq_some_iff.mp hx)

theorem nodeData_eq_none {i : ℕ} (hi : i ≤ m.elements.length) (hlast : i ≠ m.last)
    (hx : m.nodeData i = none) : m.EndsAt i := by
  have hlt : i < m.data.length :=
    (hi.trans (length_elements_le m.data)).lt_of_ne hlast
  refine ⟨eq_length_elements hi ?_, hlt⟩
  rw [nodeData, List.getElem?_eq_getElem hlt, Option.join_some] at hx
  rw [List.getElem?_eq_getElem hlt, hx]

/-! ## What a read knows -/

/-- The answer of a read that has passed the elements `taken`, from the index `start` on. -/
def Answered (m : Streams α) (start : ℕ) (taken : List α) : ReadOp α → Answer α → Prop
  | .peek, .option none => taken = [] ∧ m.EndsAt start
  | .peek, .option (some x) => taken = [] ∧ m.elements[start]? = some x
  | .isEmpty, .bool b => taken = [] ∧
      ∃ i, (b = true → m.EndsAt i) ∧ (b = false → i < m.elements.length)
  | .get, .option none => taken = [] ∧ m.EndsAt start
  | .get, .option (some x) => taken = [x]
  | .next, .value x => taken = [x]
  | .nget n, .list l | .npeek n, .list l => l = taken ∧ taken.length ≤ n.toNat ∧
      (taken.length < n.toNat → m.EndsAt (start + taken.length))
  | .getWhile f, .list l | .getWhileS f, .list l => l = taken ∧ (∀ x ∈ taken, f x = true) ∧
      (m.EndsAt (start + taken.length) ∨
        ∃ x, m.elements[start + taken.length]? = some x ∧ f x = false)
  | .toList, .list l => l = taken ∧ m.EndsAt (start + taken.length)
  | .junk, .unit => taken.length ≤ 1
  | .njunk n, .unit => taken.length ≤ n.toNat ∧
      (taken.length < n.toNat → m.EndsAt (start + taken.length))
  | .getAvailable, .list l => l = taken
  | .getAvailableUpTo n, .list l => l = taken ∧ taken.length ≤ n.toNat
  | _, _ => False

/-- The call of a read that has passed the elements `taken`. -/
def Going (start : ℕ) (taken : List α) (call : Call α) : ReadOp α → Prop
  | .peek => taken = [] ∧ call = .peekRec start
  | .isEmpty => taken = [] ∧ call = .isEmpty
  | .get => taken = [] ∧ call = .getRec start
  | .next => taken = [] ∧ call = .nextRec start
  | .nget n => taken.length ≤ n.toNat ∧
      call = .ngetRec (start + taken.length) taken.reverse (n - taken.length)
  | .npeek n => taken.length ≤ n.toNat ∧
      call = .npeekRec (start + taken.length) taken.reverse (n - taken.length)
  | .getWhile f => (∀ x ∈ taken, f x = true) ∧
      call = .getWhileRec (start + taken.length) taken.reverse f
  | .getWhileS f => (∀ x ∈ taken, f x = true) ∧
      call = .getWhileSRec (start + taken.length) taken.reverse f
  | .toList => call = .toListRec (start + taken.length) taken.reverse
  | .junk => taken = [] ∧ (call = .junk start ∨ call = .junkFed start)
  | .njunk n => taken.length ≤ n.toNat ∧
      call = .njunkRec (start + taken.length) (n - taken.length)
  | .getAvailable => call = .getAvailableRec (start + taken.length) taken.reverse
  | .getAvailableUpTo n => taken.length ≤ n.toNat ∧
      call = .getAvailableUpToRec (start + taken.length) taken.reverse (n - taken.length)

/-- What a turn does is right for a read that has passed the elements `taken`. -/
def TurnSound (m : Streams α) (op : ReadOp α) (start : ℕ) (taken : List α) : Turn α → Prop
  | .feed next => Going start taken next op
  | .feedAvailable next acc => Going start taken next op ∧ m.Answered start taken op (.list acc)
  | .test x => op.tests = true ∧ m.elements[start + taken.length]? = some x
  | .pass node x removes next => node = start + taken.length ∧ removes = op.removes ∧
      m.elements[node]? = some x ∧ (∀ call, next = .inl call → Going start (taken ++ [x]) call op) ∧
      ∀ a, next = .inr a → m.Answered start (taken ++ [x]) op a
  | .return a => m.Answered start taken op a
  | .empty => op = .next ∧ m.EndsAt start

/-- The call finds in the head of its clone what its own node holds. -/
def OwnData (m : Streams α) (reader : ℕ) : Call α → Prop
  | .ngetRec node _ n | .getAvailableUpToRec node _ n =>
    0 < n → node ≠ m.last → m.nodeData (m.node reader) = m.nodeData node
  | _ => True

/-! ## One turn -/

section Turn

variable {reader start : ℕ} {taken : List α} {op : ReadOp α} {call : Call α}

private theorem toNat_eq {n : ℤ} {k : ℕ} (hle : k ≤ n.toNat) (hn : n - k ≤ 0) : k = n.toNat := by
  omega

private theorem succ_le_toNat {n : ℤ} {k : ℕ} (hn : ¬ n - k ≤ 0) : k + 1 ≤ n.toNat := by
  omega

private theorem sub_succ (n : ℤ) (k : ℕ) : n - k - 1 = n - (k + 1 : ℕ) := by
  omega

theorem turn_sound (hgoing : Going start taken call op)
    (hle : start + taken.length ≤ m.elements.length) (hhead : m.node reader ≤ m.elements.length)
    (hown : m.OwnData reader call) : m.TurnSound op start taken (m.turnOf reader call) := by
  have hdata : ∀ {x}, m.nodeData (start + taken.length) = some x →
      m.elements[start + taken.length]? = some x := nodeData_eq_some hle
  have hend : start + taken.length ≠ m.last → m.nodeData (start + taken.length) = none →
      m.EndsAt (start + taken.length) := nodeData_eq_none hle
  cases op with
  | peek =>
    obtain ⟨rfl, rfl⟩ := hgoing
    simp only [List.length_nil, Nat.add_zero] at hdata hend
    simp only [turnOf, peekRec]
    split
    · exact ⟨rfl, rfl⟩
    · rename_i hlast
      cases hx : m.nodeData start with
      | none => exact ⟨rfl, hend hlast hx⟩
      | some x => exact ⟨rfl, hdata hx⟩
  | isEmpty =>
    obtain ⟨rfl, rfl⟩ := hgoing
    simp only [turnOf, isEmpty]
    split
    · exact ⟨rfl, rfl⟩
    · rename_i hlast
      refine ⟨rfl, m.node reader, fun hnone => ?_, fun hsome => ?_⟩
      · exact nodeData_eq_none hhead hlast (Option.isNone_iff_eq_none.mp hnone)
      · obtain ⟨x, hx⟩ := Option.isSome_iff_exists.mp (Option.isNone_eq_false_iff.mp hsome)
        exact (List.getElem?_eq_some_iff.mp (nodeData_eq_some hhead hx)).1
  | get =>
    obtain ⟨rfl, rfl⟩ := hgoing
    simp only [List.length_nil, Nat.add_zero] at hdata hend
    simp only [turnOf, getRec]
    split
    · exact ⟨rfl, rfl⟩
    · rename_i hlast
      split
      · rename_i x hx
        exact ⟨by simp, rfl, hdata hx, by simp, by rintro a ⟨rfl⟩; rfl⟩
      · rename_i hx
        exact ⟨rfl, hend hlast hx⟩
  | next =>
    obtain ⟨rfl, rfl⟩ := hgoing
    simp only [List.length_nil, Nat.add_zero] at hdata hend
    simp only [turnOf, nextRec]
    split
    · exact ⟨rfl, rfl⟩
    · rename_i hlast
      split
      · rename_i x hx
        exact ⟨by simp, rfl, hdata hx, by simp, by rintro a ⟨rfl⟩; rfl⟩
      · rename_i hx
        exact ⟨rfl, hend hlast hx⟩
  | nget n =>
    obtain ⟨hlen, rfl⟩ := hgoing
    simp only [turnOf, ngetRec]
    split
    -- the counter has come to zero
    · rename_i hn
      have heq := toNat_eq hlen hn
      exact ⟨by simp, hlen, fun hlt => absurd heq hlt.ne⟩
    rename_i hn
    split
    -- at the last node the call waits for an element
    · exact ⟨hlen, rfl⟩
    rename_i hlast
    rw [hown (by omega) hlast]
    split
    · rename_i x hx
      refine ⟨rfl, rfl, hdata hx, ?_, by simp⟩
      rintro c ⟨rfl⟩
      exact ⟨by simpa using succ_le_toNat hn, by simp [sub_succ, Nat.add_assoc]⟩
    · rename_i hx
      exact ⟨by simp, hlen, fun _ => hend hlast hx⟩
  | npeek n =>
    obtain ⟨hlen, rfl⟩ := hgoing
    simp only [turnOf, npeekRec]
    split
    · rename_i hn
      have heq := toNat_eq hlen hn
      exact ⟨by simp, hlen, fun hlt => absurd heq hlt.ne⟩
    rename_i hn
    split
    · exact ⟨hlen, rfl⟩
    rename_i hlast
    split
    · rename_i x hx
      refine ⟨rfl, rfl, hdata hx, ?_, by simp⟩
      rintro c ⟨rfl⟩
      exact ⟨by simpa using succ_le_toNat hn, by simp [sub_succ, Nat.add_assoc]⟩
    · rename_i hx
      exact ⟨by simp, hlen, fun _ => hend hlast hx⟩
  | getWhile f =>
    obtain ⟨hall, rfl⟩ := hgoing
    simp only [turnOf, getWhileRec]
    split
    · exact ⟨hall, rfl⟩
    rename_i hlast
    split
    · rename_i x hx
      exact ⟨rfl, hdata hx⟩
    · rename_i hx
      exact ⟨by simp, hall, .inl (hend hlast hx)⟩
  | getWhileS f =>
    obtain ⟨hall, rfl⟩ := hgoing
    simp only [turnOf, getWhileSRec]
    split
    · exact ⟨hall, rfl⟩
    rename_i hlast
    split
    · rename_i x hx
      exact ⟨rfl, hdata hx⟩
    · rename_i hx
      exact ⟨by simp, hall, .inl (hend hlast hx)⟩
  | toList =>
    obtain rfl := hgoing
    simp only [turnOf, toListRec]
    split
    · rfl
    rename_i hlast
    split
    · rename_i x hx
      refine ⟨rfl, rfl, hdata hx, ?_, by simp⟩
      rintro c ⟨rfl⟩
      simp [Going, Nat.add_assoc]
    · rename_i hx
      exact ⟨by simp, hend hlast hx⟩
  | junk =>
    -- when the feed has answered, the last node is not looked at again
    have hfed : m.TurnSound .junk start [] (m.junkFed start) := by
      unfold junkFed
      split
      · rename_i x hx
        obtain ⟨rfl, -⟩ := hgoing
        exact ⟨by simp, rfl, hdata hx, by simp, by rintro a ⟨rfl⟩; exact Nat.le_refl 1⟩
      · exact Nat.zero_le 1
    obtain ⟨rfl, rfl | rfl⟩ := hgoing
    · simp only [turnOf, junk]
      split
      · exact ⟨rfl, .inr rfl⟩
      · exact hfed
    · exact hfed
  | njunk n =>
    obtain ⟨hlen, rfl⟩ := hgoing
    simp only [turnOf, njunkRec]
    split
    · rename_i hn
      have heq := toNat_eq hlen hn
      exact ⟨hlen, fun hlt => absurd heq hlt.ne⟩
    rename_i hn
    split
    · exact ⟨hlen, rfl⟩
    rename_i hlast
    split
    · rename_i x hx
      refine ⟨rfl, rfl, hdata hx, ?_, by simp⟩
      rintro c ⟨rfl⟩
      exact ⟨by simpa using succ_le_toNat hn, by simp [sub_succ, Nat.add_assoc]⟩
    · rename_i hx
      exact ⟨hlen, fun _ => hend hlast hx⟩
  | getAvailable =>
    obtain rfl := hgoing
    simp only [turnOf, getAvailableRec]
    split
    -- `get_available` ends at the last node, it never waits
    · exact ⟨rfl, by simp [Answered]⟩
    split
    · rename_i x hx
      refine ⟨rfl, rfl, hdata hx, ?_, by simp⟩
      rintro c ⟨rfl⟩
      simp [Going, Nat.add_assoc]
    · simp [TurnSound, Answered]
  | getAvailableUpTo n =>
    obtain ⟨hlen, rfl⟩ := hgoing
    simp only [turnOf, getAvailableUpToRec]
    split
    · exact ⟨by simp, hlen⟩
    rename_i hn
    split
    · exact ⟨⟨hlen, rfl⟩, by simp, hlen⟩
    rename_i hlast
    rw [hown (by omega) hlast]
    split
    · rename_i x hx
      refine ⟨rfl, rfl, hdata hx, ?_, by simp⟩
      rintro c ⟨rfl⟩
      exact ⟨by simpa using succ_le_toNat hn, by simp [sub_succ, Nat.add_assoc]⟩
    · exact ⟨by simp, hlen⟩

theorem tested_sound {x : α} (hgoing : Going start taken call op) (htests : op.tests = true)
    (hx : m.elements[start + taken.length]? = some x) :
    m.TurnSound op start taken (call.tested x) := by
  have hall : ∀ {f : α → Bool}, (∀ y ∈ taken, f y = true) → f x = true →
      ∀ y ∈ taken ++ [x], f y = true := by
    intro f h hfx y hy
    rcases List.mem_append.mp hy with hy | hy
    · exact h y hy
    · exact List.mem_singleton.mp hy ▸ hfx
  cases op with
  | getWhile f =>
    obtain ⟨htaken, rfl⟩ := hgoing
    simp only [Call.tested]
    split
    · rename_i hfx
      refine ⟨rfl, rfl, hx, ?_, by simp⟩
      rintro c ⟨rfl⟩
      exact ⟨hall htaken hfx, by simp [Nat.add_assoc]⟩
    · rename_i hfx
      exact ⟨by simp, htaken, .inr ⟨x, hx, by simpa using hfx⟩⟩
  | getWhileS f =>
    obtain ⟨htaken, rfl⟩ := hgoing
    simp only [Call.tested]
    split
    · rename_i hfx
      refine ⟨rfl, rfl, hx, ?_, by simp⟩
      rintro c ⟨rfl⟩
      exact ⟨hall htaken hfx, by simp [Nat.add_assoc]⟩
    · rename_i hfx
      exact ⟨by simp, htaken, .inr ⟨x, hx, by simpa using hfx⟩⟩
  | _ => cases htests

end Turn

/-! ## The reads of a state -/

def StatusSound (m : Streams α) (op : ReadOp α) (start : ℕ) (taken : List α) :
    ReadStatus α → Prop
  | .running call | .waiting _ call => Going start taken call op
  | .testing x call => Going start taken call op ∧ op.tests = true ∧
      m.elements[start + taken.length]? = some x
  | .returned a => m.Answered start taken op a
  | .empty => op = .next ∧ m.EndsAt start
  | .failed => True

/-- The read has passed the elements `taken`, from its start on, and it is not ahead of the head
of its clone if it removes them. -/
structure ReadSound (m : Streams α) (r : Read α) : Prop where
  reader_lt : r.reader < m.nodes.length
  start_le : r.start ≤ m.elements.length
  taken : r.taken <+: m.elements.drop r.start
  behind : r.op.removes = true → r.start + r.taken.length ≤ m.node r.reader
  status : m.StatusSound r.op r.start r.taken r.status

structure Sound (m : Streams α) : Prop where
  heads : ∀ i ∈ m.nodes, i ≤ m.elements.length
  reads : ∀ r ∈ m.reads, m.ReadSound r

theorem ReadSound.le {r : Read α} (h : m.ReadSound r) :
    r.start + r.taken.length ≤ m.elements.length := by
  have hlen := h.taken.length_le
  have hstart := h.start_le
  rw [List.length_drop] at hlen
  omega

theorem Sound.node_le (hs : Sound m) {reader : ℕ} (hlt : reader < m.nodes.length) :
    m.node reader ≤ m.elements.length := by
  rw [node, List.getElem?_eq_getElem hlt, Option.getD_some]
  exact hs.heads _ (List.getElem_mem hlt)

/-! ## Growth -/

/-- The queue and the heads only move forward. -/
structure Grows (m m' : Streams α) : Prop where
  elements : m.elements <+: m'.elements
  ends : ∀ i, m.EndsAt i → m'.EndsAt i
  readers : m.nodes.length ≤ m'.nodes.length
  nodes : ∀ i < m.nodes.length, m.node i ≤ m'.node i

theorem Grows.trans {q : Streams α} (h : Grows m q) (h' : Grows q m') : Grows m m' where
  elements := h.elements.trans h'.elements
  ends i hi := h'.ends i (h.ends i hi)
  readers := h.readers.trans h'.readers
  nodes i hi := (h.nodes i hi).trans (h'.nodes i (hi.trans_le h.readers))

theorem Grows.getElem? (h : Grows m m') {i : ℕ} {x : α} (hx : m.elements[i]? = some x) :
    m'.elements[i]? = some x := by
  obtain ⟨l, hl⟩ := h.elements
  rw [← hl, List.getElem?_append_left (List.getElem?_eq_some_iff.mp hx).1, hx]

theorem Grows.answered (h : Grows m m') {start : ℕ} {taken : List α} {op : ReadOp α}
    {a : Answer α} (ha : m.Answered start taken op a) : m'.Answered start taken op a := by
  have hbound : ∀ {n : ℕ}, (taken.length < n → m.EndsAt (start + taken.length)) →
      taken.length < n → m'.EndsAt (start + taken.length) := fun hn hlt => h.ends _ (hn hlt)
  have htest : ∀ {f : α → Bool}, (m.EndsAt (start + taken.length) ∨
      ∃ x, m.elements[start + taken.length]? = some x ∧ f x = false) →
      (m'.EndsAt (start + taken.length) ∨
        ∃ x, m'.elements[start + taken.length]? = some x ∧ f x = false) := fun hf =>
    hf.imp (h.ends _) fun ⟨x, hx, hfx⟩ => ⟨x, h.getElem? hx, hfx⟩
  cases op with
  | peek =>
    cases a with
    | option x =>
      cases x with
      | none => exact ⟨ha.1, h.ends _ ha.2⟩
      | some x => exact ⟨ha.1, h.getElem? ha.2⟩
    | _ => exact ha.elim
  | isEmpty =>
    cases a with
    | bool b =>
      obtain ⟨htaken, i, htrue, hfalse⟩ := ha
      exact ⟨htaken, i, fun hb => h.ends _ (htrue hb),
        fun hb => (hfalse hb).trans_le h.elements.length_le⟩
    | _ => exact ha.elim
  | get =>
    cases a with
    | option x =>
      cases x with
      | none => exact ⟨ha.1, h.ends _ ha.2⟩
      | some x => exact ha
    | _ => exact ha.elim
  | nget n | npeek n =>
    cases a with
    | list l => exact ⟨ha.1, ha.2.1, hbound ha.2.2⟩
    | _ => exact ha.elim
  | getWhile f | getWhileS f =>
    cases a with
    | list l => exact ⟨ha.1, ha.2.1, htest ha.2.2⟩
    | _ => exact ha.elim
  | toList =>
    cases a with
    | list l => exact ⟨ha.1, h.ends _ ha.2⟩
    | _ => exact ha.elim
  | njunk n =>
    cases a with
    | unit => exact ⟨ha.1, hbound ha.2⟩
    | _ => exact ha.elim
  | next | junk | getAvailable | getAvailableUpTo n =>
    cases a <;> exact ha

theorem Grows.readSound (h : Grows m m') {r : Read α} (hr : m.ReadSound r) : m'.ReadSound r where
  reader_lt := hr.reader_lt.trans_le h.readers
  start_le := hr.start_le.trans h.elements.length_le
  taken := hr.taken.trans (h.elements.drop _)
  behind hremoves := (hr.behind hremoves).trans (h.nodes _ hr.reader_lt)
  status := by
    have hstatus := hr.status
    cases hst : r.status with
    | running call | waiting k call =>
      rw [hst] at hstatus
      exact hstatus
    | testing x call =>
      rw [hst] at hstatus
      exact ⟨hstatus.1, hstatus.2.1, h.getElem? hstatus.2.2⟩
    | returned a =>
      rw [hst] at hstatus
      exact h.answered hstatus
    | empty =>
      rw [hst] at hstatus
      exact ⟨hstatus.1, h.ends _ hstatus.2⟩
    | failed => trivial

/-- What the sources do: nodes are added to the queue, the heads and the reads stay. -/
structure Appends (m m' : Streams α) : Prop where
  data : m.data <+: m'.data
  nodes : m'.nodes = m.nodes
  reads : m'.reads = m.reads

theorem Appends.grows (h : Appends m m') : Grows m m' := by
  obtain ⟨data, hdata⟩ := h.data
  have hnode : ∀ i < m.nodes.length, m.node i ≤ m'.node i := by
    intro i hi
    rw [node, node, h.nodes, List.getElem?_eq_getElem hi]
    exact le_rfl
  refine ⟨?_, ?_, h.nodes ▸ le_rfl, hnode⟩
  · rw [elements, elements, ← hdata]
    exact elements_append m.data data
  · rintro i ⟨rfl, hlt⟩
    refine ⟨?_, hlt.trans_le h.data.length_le⟩
    rw [elements, elements, ← hdata, elements_append_of_ended data hlt]

theorem Appends.sound (h : Appends m m') (hs : Sound m) : Sound m' where
  heads i hi := (hs.heads i (h.nodes ▸ hi)).trans h.grows.elements.length_le
  reads r hr := h.grows.readSound (hs.reads r (h.reads ▸ hr))

theorem Appends.refl (m : Streams α) : Appends m m := ⟨List.prefix_refl _, rfl, rfl⟩

/-! ## The sources -/

theorem appends_of_data (hdata : m.data <+: m'.data) (hnodes : m'.nodes = m.nodes)
    (hreads : m'.reads = m.reads) : Appends m m' := ⟨hdata, hnodes, hreads⟩

theorem appends_feed {reply : Reply α} {fed : Fed} (h : m.feed reply = some (m', fed)) :
    Appends m m' := by
  unfold feed at h
  split at h
  · split at h
    · obtain ⟨rfl, -⟩ := Prod.mk.inj (Option.some.inj h)
      exact appends_of_data (List.prefix_refl _) rfl rfl
    · split at h
      · obtain ⟨rfl, -⟩ := Prod.mk.inj (Option.some.inj h)
        exact appends_of_data (List.prefix_refl _) rfl rfl
      · obtain ⟨rfl, -⟩ := Prod.mk.inj (Option.some.inj h)
        exact appends_of_data (List.prefix_append _ _) rfl rfl
      · obtain ⟨rfl, -⟩ := Prod.mk.inj (Option.some.inj h)
        exact appends_of_data (List.prefix_refl _) rfl rfl
  · split at h
    · cases h
    · obtain ⟨rfl, -⟩ := Prod.mk.inj (Option.some.inj h)
      exact appends_of_data (List.prefix_append _ _) rfl rfl
    · obtain ⟨rfl, -⟩ := Prod.mk.inj (Option.some.inj h)
      exact appends_of_data (List.prefix_refl _) rfl rfl
  · obtain ⟨rfl, -⟩ := Prod.mk.inj (Option.some.inj h)
    exact appends_of_data (List.prefix_refl _) rfl rfl
  · obtain ⟨rfl, -⟩ := Prod.mk.inj (Option.some.inj h)
    exact appends_of_data (List.prefix_refl _) rfl rfl

theorem appends_result {k : ℕ} {reply : Reply α} (h : m.result k reply = some m') :
    Appends m m' := by
  unfold result at h
  split at h
  · split at h
    · cases h
    · cases h
      exact appends_of_data (List.prefix_append _ _) rfl rfl
    · cases h
      exact appends_of_data (List.prefix_refl _) rfl rfl
  · cases h

theorem appends_push {x : Option α} (h : m.push x = some m') : Appends m m' := by
  unfold push at h
  split at h
  · split at h
    · cases h
    · cases h
      split
      · exact appends_of_data (List.prefix_append _ _) rfl rfl
      · exact appends_of_data (List.prefix_append _ _) rfl rfl
  · cases h

theorem appends_wakeupClose (h : m.wakeupClose = some m') : Appends m m' := by
  unfold wakeupClose at h
  split at h
  · cases h
  · cases h
    exact appends_of_data (List.prefix_refl _) rfl rfl

theorem appends_pushBounded {x : α} (h : m.pushBounded x = some m') : Appends m m' := by
  unfold pushBounded at h
  split at h
  · split at h
    · cases h
    · split at h
      · cases h
        exact appends_of_data (List.prefix_refl _) rfl rfl
      · dsimp only at h
        split at h
        · cases h
          exact appends_of_data (List.prefix_append _ _) rfl rfl
        · cases h
          exact appends_of_data (List.prefix_append _ _) rfl rfl
  · cases h

theorem appends_resize {size : ℤ} (h : m.resize size = some m') : Appends m m' := by
  unfold resize at h
  split at h
  · dsimp only at h
    split at h
    · cases h
      exact appends_of_data (List.prefix_append _ _) rfl rfl
    · cases h
      exact appends_of_data (List.prefix_refl _) rfl rfl
  · cases h

theorem appends_closeBounded (h : m.closeBounded = some m') : Appends m m' := by
  unfold closeBounded at h
  split at h
  · split at h
    · cases h
      exact appends_of_data (List.prefix_refl _) rfl rfl
    · cases h
      dsimp only
      split
      · exact appends_of_data (List.prefix_append _ _) rfl rfl
      · exact appends_of_data (List.prefix_append _ _) rfl rfl
  · cases h

theorem appends_cancelPush {j : ℕ} (h : m.cancelPush j = some m') : Appends m m' := by
  unfold cancelPush at h
  split at h
  · cases h
    exact appends_of_data (List.prefix_refl _) rfl rfl
  · cases h

theorem appends_runPushCallbacks {j : ℕ} (h : m.runPushCallbacks j = some m') : Appends m m' := by
  unfold runPushCallbacks at h
  split at h
  · split at h
    · cases h
      exact appends_of_data (List.prefix_refl _) rfl rfl
    · cases h
  · cases h

/-! ## The steps -/

/-- The steps of the source and of those who push. -/
def Step.isSource : Step α → Bool
  | .result _ _ | .push _ | .wakeupClose | .pushBounded _ | .resize _ | .closeBounded
  | .cancelPush _ | .runPushCallbacks _ => true
  | _ => false

/-- Everything that a step can do. -/
inductive Stepped (m : Streams α) (a : Step α) (m' : Streams α) : Prop
  | clone (reader : ℕ) : a = .clone reader → reader < m.nodes.length →
      m.source.isPushBounded = false → m' = { m with nodes := m.nodes ++ [m.node reader] } →
      Stepped m a m'
  | start (reader : ℕ) (op : ReadOp α) : a = .start reader op → reader < m.nodes.length →
      m' = { m with reads := m.reads ++
        [⟨reader, op, m.node reader, [], .running (op.call (m.node reader))⟩] } → Stepped m a m'
  | turn (i : ℕ) (reply : Reply α) (r : Read α) (call : Call α) : a = .turn i reply →
      m.reads[i]? = some r → r.status = .running call →
      m.doTurn i r.reader call reply (m.turnOf r.reader call) = some m' → Stepped m a m'
  | tested (i : ℕ) (r : Read α) (x : α) (call : Call α) : a = .answer i false →
      m.reads[i]? = some r → r.status = .testing x call →
      m.doTurn i r.reader call .later (call.tested x) = some m' → Stepped m a m'
  | resumed (i : ℕ) (r : Read α) (k : ℕ) (call : Call α) : a = .resume i →
      m.reads[i]? = some r → r.status = .waiting k call → m' = m.setStatus i (.running call) →
      Stepped m a m'
  | fails (i : ℕ) (r : Read α) : a = .resume i ∨ a = .answer i true ∨ a = .cancel i →
      m.reads[i]? = some r →
      (∃ k call, r.status = .waiting k call) ∨ (∃ x call, r.status = .testing x call) →
      m' = m.setStatus i .failed → Stepped m a m'
  | source : a.isSource = true → Appends m m' → Stepped m a m'

theorem step_cases {a : Step α} (hstep : m.step a = some m') : Stepped m a m' := by
  cases a with
  | clone reader =>
    simp only [Streams.step, Streams.clone] at hstep
    split at hstep
    · rename_i hlt
      split at hstep
      · cases hstep
      · rename_i hbounded
        exact .clone reader rfl hlt (by simpa using hbounded) (Option.some.inj hstep).symm
    · cases hstep
  | start reader op =>
    simp only [Streams.step] at hstep
    split at hstep
    · rename_i hlt
      exact .start reader op rfl hlt (Option.some.inj hstep).symm
    · cases hstep
  | turn i reply =>
    simp only [Streams.step] at hstep
    split at hstep
    · rename_i call hr
      exact .turn i reply _ call rfl hr rfl hstep
    · cases hstep
  | resume i =>
    simp only [Streams.step] at hstep
    split at hstep
    · rename_i k call hr
      split at hstep
      · exact .resumed i _ k call rfl hr rfl (Option.some.inj hstep).symm
      · exact .fails i _ (.inl rfl) hr (.inl ⟨k, call, rfl⟩) (Option.some.inj hstep).symm
      · cases hstep
    · cases hstep
  | answer i raises =>
    simp only [Streams.step] at hstep
    split at hstep
    · rename_i x call hr
      cases raises with
      | true =>
        exact .fails i _ (.inr (.inl rfl)) hr (.inr ⟨x, call, rfl⟩) (Option.some.inj hstep).symm
      | false => exact .tested i _ x call rfl hr rfl hstep
    · cases hstep
  | cancel i =>
    simp only [Streams.step] at hstep
    split at hstep
    · rename_i k call hr
      exact .fails i _ (.inr (.inr rfl)) hr (.inl ⟨k, call, rfl⟩) (Option.some.inj hstep).symm
    · cases hstep
  | result k reply => exact .source rfl (appends_result hstep)
  | push x => exact .source rfl (appends_push hstep)
  | wakeupClose => exact .source rfl (appends_wakeupClose hstep)
  | pushBounded x => exact .source rfl (appends_pushBounded hstep)
  | resize size => exact .source rfl (appends_resize hstep)
  | closeBounded => exact .source rfl (appends_closeBounded hstep)
  | cancelPush j => exact .source rfl (appends_cancelPush hstep)
  | runPushCallbacks j => exact .source rfl (appends_runPushCallbacks hstep)

theorem grows_clone (m : Streams α) (reader : ℕ) :
    Grows m { m with nodes := m.nodes ++ [m.node reader] } := by
  refine ⟨List.prefix_refl _, fun i hi => hi, by simp, fun i hi => ?_⟩
  simp [Streams.node, List.getElem?_append_left hi, List.getElem?_eq_getElem hi]

theorem Sound.setStatus (hs : Sound m) {i : ℕ} {r : Read α} (hr : m.reads[i]? = some r)
    {status : ReadStatus α} (hstatus : m.StatusSound r.op r.start r.taken status) :
    Sound (m.setStatus i status) := by
  refine ⟨hs.heads, fun r' hr' => ?_⟩
  obtain ⟨j, hj⟩ := List.getElem?_of_mem hr'
  rw [Streams.setStatus, List.getElem?_modify] at hj
  obtain ⟨r₀, hr₀, rfl⟩ := Option.map_eq_some_iff.mp hj
  have hsound := hs.reads r₀ (List.mem_of_getElem? hr₀)
  by_cases hij : i = j
  · subst hij
    cases hr.symm.trans hr₀
    rw [if_pos rfl]
    exact ⟨hsound.reader_lt, hsound.start_le, hsound.taken, hsound.behind, hstatus⟩
  · rw [if_neg hij]
    exact ⟨hsound.reader_lt, hsound.start_le, hsound.taken, hsound.behind, hsound.status⟩

theorem node_set_self {reader node : ℕ} (hlt : reader < m.nodes.length) :
    Streams.node { m with nodes := m.nodes.set reader node } reader = node := by
  simp [Streams.node, hlt]

theorem node_set_ne {reader node i : ℕ} (hi : reader ≠ i) :
    Streams.node { m with nodes := m.nodes.set reader node } i = m.node i := by
  simp [Streams.node, last, hi]

/-- `consume` moves the head past an element, if the node is the head. -/
theorem consume_spec {reader node : ℕ} {x : α} (hs : Sound m) (hlt : reader < m.nodes.length)
    (hx : m.elements[node]? = some x) :
    Sound (m.consume reader node) ∧ Grows m (m.consume reader node) ∧
      (m.consume reader node).reads = m.reads ∧
      (node ≤ m.node reader → node + 1 ≤ (m.consume reader node).node reader) := by
  have hnode : node < m.elements.length := (List.getElem?_eq_some_iff.mp hx).1
  unfold consume
  split
  · rename_i heq
    set m₁ : Streams α := { m with nodes := m.nodes.set reader (node + 1) } with hm₁
    have hself : m₁.node reader = node + 1 := node_set_self hlt
    have hgrows : Grows m m₁ := by
      refine ⟨List.prefix_refl _, fun i hi => hi, by simp [hm₁], fun i hi => ?_⟩
      by_cases hi' : reader = i
      · subst hi'
        rw [hself, heq]
        exact Nat.le_succ _
      · exact (node_set_ne hi').ge
    have hsound : Sound m₁ := by
      refine ⟨fun i hi => ?_, fun r hr => hgrows.readSound (hs.reads r hr)⟩
      rcases List.mem_or_eq_of_mem_set hi with hi | rfl
      · exact hs.heads i hi
      · exact hnode
    have happends : ∀ q : Streams α, Appends m₁ q → Sound q ∧ Grows m q ∧ q.reads = m.reads ∧
        (node ≤ m.node reader → node + 1 ≤ q.node reader) := fun q hq =>
      ⟨hq.sound hsound, hgrows.trans hq.grows, hq.reads, fun _ => hself ▸
        hq.grows.nodes reader (hlt.trans_le hgrows.readers)⟩
    dsimp only
    split
    · split
      · exact happends _ (appends_of_data (List.prefix_refl _) rfl rfl)
      · exact happends _ (appends_of_data (List.prefix_append _ _) rfl rfl)
    · exact happends _ (.refl _)
  · rename_i hne
    exact ⟨hs, (Appends.refl m).grows, rfl, fun hle => lt_of_le_of_ne hle hne⟩

theorem prefix_append_singleton {l₁ l₂ : List α} {x : α} (h : l₁ <+: l₂)
    (hx : l₂[l₁.length]? = some x) : l₁ ++ [x] <+: l₂ := by
  obtain ⟨l, rfl⟩ := h
  rw [List.getElem?_append_right le_rfl, Nat.sub_self] at hx
  cases l with
  | nil => simp at hx
  | cons y l =>
    obtain rfl : y = x := by simpa using hx
    exact ⟨l, by simp⟩

theorem doTurn_sound {i : ℕ} {r : Read α} {call : Call α} {reply : Reply α} {t : Turn α}
    (hs : Sound m) (hr : m.reads[i]? = some r) (hgoing : Going r.start r.taken call r.op)
    (ht : m.TurnSound r.op r.start r.taken t) (h : m.doTurn i r.reader call reply t = some m') :
    Sound m' := by
  have hread := hs.reads r (List.mem_of_getElem? hr)
  have hfed : ∀ {q : Streams α} {fed : Fed}, m.feed reply = some (q, fed) →
      Sound q ∧ Grows m q ∧ q.reads[i]? = some r := fun hq =>
    have happends := appends_feed hq
    ⟨happends.sound hs, happends.grows, happends.reads ▸ hr⟩
  cases t with
  | feed next =>
    obtain ⟨⟨q, fed⟩, hq, rfl⟩ := Option.map_eq_some_iff.mp h
    obtain ⟨hsq, -, hrq⟩ := hfed hq
    cases fed with
    | waits k => exact hsq.setStatus hrq ht
    | ready => exact hsq.setStatus hrq ht
    | fails => exact hsq.setStatus hrq trivial
  | feedAvailable next acc =>
    obtain ⟨⟨q, fed⟩, hq, rfl⟩ := Option.map_eq_some_iff.mp h
    obtain ⟨hsq, hgrows, hrq⟩ := hfed hq
    cases fed with
    | waits k => exact hsq.setStatus hrq (hgrows.answered ht.2)
    | ready => exact hsq.setStatus hrq ht.1
    | fails => exact hsq.setStatus hrq trivial
  | test x =>
    cases h
    exact hs.setStatus hr ⟨hgoing, ht⟩
  | pass node x removes next =>
    cases h
    obtain ⟨rfl, rfl, hx, hnext, hanswer⟩ := ht
    -- a read that removes moves the head past the element first
    set q := if r.op.removes = true then m.consume r.reader (r.start + r.taken.length) else m
      with hq
    obtain ⟨hsq, hgrows, hreads, hhead⟩ : Sound q ∧ Grows m q ∧ q.reads = m.reads ∧
        (r.op.removes = true → r.start + r.taken.length + 1 ≤ q.node r.reader) := by
      rw [hq]
      split
      · rename_i hremoves
        obtain ⟨hsq, hgrows, hreads, hhead⟩ := consume_spec hs hread.reader_lt hx
        exact ⟨hsq, hgrows, hreads, fun _ => hhead (hread.behind hremoves)⟩
      · rename_i hremoves
        exact ⟨hs, (Appends.refl m).grows, rfl, fun h => absurd h hremoves⟩
    refine ⟨hsq.heads, fun r' hr' => ?_⟩
    obtain ⟨j, hj⟩ := List.getElem?_of_mem hr'
    rw [List.getElem?_modify] at hj
    obtain ⟨r₀, hr₀, rfl⟩ := Option.map_eq_some_iff.mp hj
    have hsound := hsq.reads r₀ (List.mem_of_getElem? hr₀)
    -- the read of the turn has one element more, the other reads are as before
    by_cases hij : i = j
    · subst hij
      cases hr.symm.trans (hreads ▸ hr₀)
      rw [if_pos rfl]
      refine ⟨hsound.reader_lt, hsound.start_le, ?_, fun hremoves => ?_, ?_⟩
      · refine prefix_append_singleton hsound.taken ?_
        rw [List.getElem?_drop]
        exact hgrows.getElem? hx
      · rw [List.length_append, List.length_singleton]
        exact hhead hremoves
      · cases next with
        | inl c => exact hnext c rfl
        | inr a => exact hgrows.answered (hanswer a rfl)
    · rw [if_neg hij]
      exact ⟨hsound.reader_lt, hsound.start_le, hsound.taken, hsound.behind, hsound.status⟩
  | «return» a =>
    cases h
    exact hs.setStatus hr ht
  | empty =>
    cases h
    exact hs.setStatus hr ht

/-- The turn of a `nget` or `get_available_up_to` finds in the head of its clone what its own node
holds. -/
def ReadsOwn (m : Streams α) : Step α → Prop
  | .turn i _ => ∀ r call, m.reads[i]? = some r → r.status = .running call → m.OwnData r.reader call
  | _ => True

theorem Sound.step {a : Step α} (hs : Sound m) (hown : m.ReadsOwn a) (hstep : m.step a = some m') :
    Sound m' := by
  cases step_cases hstep with
  | clone reader _ hlt _ heq =>
    subst heq
    refine ⟨fun i hi => ?_, fun r hr => (grows_clone m reader).readSound (hs.reads r hr)⟩
    rcases List.mem_append.mp hi with hi | hi
    · exact hs.heads i hi
    · exact List.mem_singleton.mp hi ▸ hs.node_le hlt
  | start reader op _ hlt heq =>
    subst heq
    have hgrows : Grows m { m with reads := m.reads ++ [⟨reader, op, m.node reader, [],
        .running (op.call (m.node reader))⟩] } :=
      ⟨List.prefix_refl _, fun i hi => hi, le_rfl, fun i _ => le_rfl⟩
    refine ⟨hs.heads, fun r hr => ?_⟩
    rcases List.mem_append.mp hr with hr | hr
    · exact hgrows.readSound (hs.reads r hr)
    · obtain rfl := List.mem_singleton.mp hr
      refine ⟨hlt, hs.node_le hlt, List.nil_prefix, fun _ => le_rfl, ?_⟩
      cases op <;> simp [StatusSound, Going, ReadOp.call]
  | turn i reply r call ha hr hst hturn =>
    subst ha
    have hread := hs.reads _ (List.mem_of_getElem? hr)
    have hgoing := hread.status
    rw [hst] at hgoing
    exact doTurn_sound hs hr hgoing
      (turn_sound hgoing hread.le (hs.node_le hread.reader_lt) (hown r call hr hst)) hturn
  | tested i r x call _ hr hst hturn =>
    have hstatus := (hs.reads _ (List.mem_of_getElem? hr)).status
    rw [hst] at hstatus
    obtain ⟨hgoing, htests, hx⟩ := hstatus
    exact doTurn_sound hs hr hgoing (tested_sound hgoing htests hx) hturn
  | resumed i r k call _ hr hst heq =>
    subst heq
    have hstatus := (hs.reads _ (List.mem_of_getElem? hr)).status
    rw [hst] at hstatus
    exact hs.setStatus hr hstatus
  | fails i r _ hr _ heq =>
    subst heq
    exact hs.setStatus hr trivial
  | source _ happends => exact happends.sound hs

end Streams

end Lwt
