import Mathlib.Data.Int.Notation
import Mathlib.Data.List.Basic

/-!
# Windows on lists

Reading and replacing a range of a list, given by an offset and a length as a program has them.  A
range need not be inside the list; the lemmas say which need it.
-/

namespace Window

variable {α : Type} {l data : List α} {ofs len a b : ℤ}

/-- The range `ofs`, `len` is inside. -/
def Inside (l : List α) (ofs len : ℤ) : Prop :=
  0 ≤ ofs ∧ 0 ≤ len ∧ ofs + len ≤ l.length
  deriving Decidable

def slice (l : List α) (ofs len : ℤ) : List α := (l.drop ofs.toNat).take len.toNat

def splice (l : List α) (ofs : ℤ) (data : List α) : List α :=
  l.take ofs.toNat ++ data ++ l.drop (ofs.toNat + data.length)

theorem length_slice (h : Inside l ofs len) : ((slice l ofs len).length : ℤ) = len := by
  obtain ⟨hofs, hlen, hle⟩ := h
  simp only [slice, List.length_take, List.length_drop]
  omega

theorem length_splice (h : Inside l ofs data.length) : (splice l ofs data).length = l.length := by
  obtain ⟨hofs, -, hle⟩ := h
  simp only [splice, List.length_append, List.length_take, List.length_drop]
  omega

@[simp] theorem splice_nil : splice l ofs [] = l := by simp [splice]

@[simp] theorem slice_zero_length : slice l ofs 0 = [] := by simp [slice]

@[simp] theorem slice_zero : slice l 0 l.length = l := by simp [slice]

theorem slice_append (hofs : 0 ≤ ofs) (ha : 0 ≤ a) (hb : 0 ≤ b) :
    slice l ofs (a + b) = slice l ofs a ++ slice l (ofs + a) b := by
  simp only [slice]
  rw [Int.toNat_add ha hb, Int.toNat_add hofs ha, List.take_add, List.drop_drop]

theorem slice_extend (hofs : 0 ≤ ofs) (ha : ofs ≤ a) (hb : 0 ≤ b) :
    slice l ofs (a - ofs) ++ slice l a b = slice l ofs (a + b - ofs) := by
  have happend := slice_append (l := l) hofs (show 0 ≤ a - ofs by omega) hb
  rw [show ofs + (a - ofs) = a by omega, show a - ofs + b = a + b - ofs by omega] at happend
  exact happend.symm

theorem slice_initial (hofs : 0 ≤ ofs) (ha : 0 ≤ a) (hle : a ≤ b) :
    slice l ofs a <+: slice l ofs b := by
  have happend := slice_append (l := l) (b := b - a) hofs ha (by omega)
  rw [show a + (b - a) = b by omega] at happend
  rw [happend]
  exact List.prefix_append _ _

theorem splice_slice : splice l 0 (slice l 0 len) = l := by
  simp only [splice, slice, Int.toNat_zero, List.take_zero, List.nil_append, List.drop_zero,
    Nat.zero_add, List.length_take]
  rcases Nat.le_total len.toNat l.length with hle | hle
  · rw [Nat.min_eq_left hle, List.take_append_drop]
  · rw [Nat.min_eq_right hle, List.take_of_length_le hle, List.drop_length, List.append_nil]

theorem slice_splice (h : Inside l ofs data.length) (hlen : len = data.length) :
    slice (splice l ofs data) ofs len = data := by
  obtain ⟨hofs, -, hle⟩ := h
  have htake : (l.take ofs.toNat).length = ofs.toNat := by
    rw [List.length_take]
    omega
  have hdata : len.toNat = data.length := by omega
  rw [slice, splice, hdata, List.append_assoc, List.drop_append_of_le_length (by omega),
    List.drop_eq_nil_of_le (by omega), List.nil_append, List.take_left']
  rfl

theorem slice_splice_before (h : Inside l ofs data.length) (hle : a + len ≤ ofs) (ha : 0 ≤ a)
    (hlen : 0 ≤ len) : slice (splice l ofs data) a len = slice l a len := by
  obtain ⟨hofs, -, hin⟩ := h
  have htake : (l.take ofs.toNat).length = ofs.toNat := by
    rw [List.length_take]
    omega
  rw [slice, slice, splice, List.append_assoc, List.drop_append_of_le_length (by omega),
    List.take_append_of_le_length (by rw [List.length_drop]; omega), List.drop_take,
    List.take_take]
  congr 1
  omega

theorem slice_splice_append (h : Inside l ofs data.length) (ha : 0 ≤ a) (hle : a ≤ ofs) :
    slice (splice l ofs data) a (ofs - a + data.length) = slice l a (ofs - a) ++ data := by
  rw [slice_append ha (by omega) (by omega), slice_splice_before h (by omega) ha (by omega),
    show a + (ofs - a) = ofs by omega, slice_splice h rfl]

theorem splice_all (h : data.length = l.length) : splice l 0 data = data := by
  simp [splice, h]

theorem drop_splice (h : Inside l ofs data.length) :
    (splice l ofs data).drop ofs.toNat = data ++ l.drop (ofs.toNat + data.length) := by
  obtain ⟨hofs, -, hle⟩ := h
  rw [splice, List.append_assoc, List.drop_left' (by rw [List.length_take]; omega)]

theorem splice_splice {more : List α} (hofs : 0 ≤ ofs) (hle : ofs + data.length ≤ l.length)
    (ha : a = ofs + data.length) :
    splice (splice l ofs data) a more = splice l ofs (data ++ more) := by
  have htake : (l.take ofs.toNat ++ data).length = a.toNat := by
    rw [List.length_append, List.length_take]
    omega
  simp only [splice, List.length_append]
  rw [List.take_append_of_le_length (Nat.le_of_eq htake.symm), List.take_of_length_le
    (Nat.le_of_eq htake), ← htake, List.drop_length_add_append, List.drop_drop, List.append_assoc,
    List.append_assoc, List.append_assoc]
  rw [Nat.add_assoc, List.append_assoc data]

theorem slice_one (h : Inside l ofs 1) (d : α) : slice l ofs 1 = [l.getD ofs.toNat d] := by
  obtain ⟨hofs, -, hle⟩ := h
  have hlt : ofs.toNat < l.length := by omega
  simp only [slice, Int.toNat_one]
  rw [List.drop_eq_getElem_cons hlt, List.take_succ_cons, List.take_zero]
  simp [hlt]

end Window
