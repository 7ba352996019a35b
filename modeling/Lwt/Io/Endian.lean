import Mathlib.Algebra.Group.Int.Defs
import Mathlib.Algebra.Group.Nat.Defs

/-!
# Numbers as bytes

What `EndianBigstring` promises: a byte order writes a number of 16, 32 or 64 bits as so many
bytes, and reads it back.  The two byte orders keep the promise.
-/

namespace Lwt.Io.Data

/-- A byte order. -/
structure Endian where
  bytes16 : BitVec 16 → List UInt8
  bytes32 : BitVec 32 → List UInt8
  bytes64 : BitVec 64 → List UInt8
  value16 : List UInt8 → BitVec 16
  value32 : List UInt8 → BitVec 32
  value64 : List UInt8 → BitVec 64
  length16 : ∀ v, (bytes16 v).length = 2
  length32 : ∀ v, (bytes32 v).length = 4
  length64 : ∀ v, (bytes64 v).length = 8
  inverse16 : ∀ v, value16 (bytes16 v) = v
  inverse32 : ∀ v, value32 (bytes32 v) = v
  inverse64 : ∀ v, value64 (bytes64 v) = v

/-- `Int32.bits_of_float` and `Int32.float_of_bits`, where a float is its 64 bits. -/
structure Floats where
  bitsOfFloat : BitVec 64 → BitVec 32
  floatOfBits : BitVec 32 → BitVec 64

/-- The conversions at `0.`, for runs without other floats. -/
def zeroFloats : Floats := ⟨fun _ => 0, fun _ => 0⟩

/-- The low `n` bytes of a number, the lowest first. -/
def lowBytes : ℕ → ℕ → List UInt8
  | 0, _ => []
  | n + 1, v => UInt8.ofNat v :: lowBytes n (v / 256)

def valueOf : List UInt8 → ℕ
  | [] => 0
  | b :: bytes => b.toNat + 256 * valueOf bytes

theorem length_lowBytes (n v : ℕ) : (lowBytes n v).length = n := by
  induction n generalizing v with
  | zero => rfl
  | succ n ih => rw [lowBytes, List.length_cons, ih]

theorem valueOf_lowBytes (n v : ℕ) : valueOf (lowBytes n v) = v % 256 ^ n := by
  induction n generalizing v with
  | zero => rw [Nat.pow_zero, Nat.mod_one, lowBytes, valueOf]
  | succ n ih =>
    have hlow : (UInt8.ofNat v).toNat = v % 256 := UInt8.toNat_ofNat'
    rw [lowBytes, valueOf, ih, hlow, Nat.pow_succ']
    exact Nat.mod_mul.symm

theorem ofNat_valueOf {n w : ℕ} (hw : 2 ^ w = 256 ^ n) (v : BitVec w) :
    BitVec.ofNat w (valueOf (lowBytes n v.toNat)) = v := by
  rw [valueOf_lowBytes, ← hw, Nat.mod_eq_of_lt v.isLt, BitVec.ofNat_toNat, BitVec.setWidth_eq]

def littleEndian : Endian where
  bytes16 v := lowBytes 2 v.toNat
  bytes32 v := lowBytes 4 v.toNat
  bytes64 v := lowBytes 8 v.toNat
  value16 bytes := BitVec.ofNat 16 (valueOf bytes)
  value32 bytes := BitVec.ofNat 32 (valueOf bytes)
  value64 bytes := BitVec.ofNat 64 (valueOf bytes)
  length16 _ := length_lowBytes 2 _
  length32 _ := length_lowBytes 4 _
  length64 _ := length_lowBytes 8 _
  inverse16 v := ofNat_valueOf (by rfl) v
  inverse32 v := ofNat_valueOf (by rfl) v
  inverse64 v := ofNat_valueOf (by rfl) v

def bigEndian : Endian where
  bytes16 v := (lowBytes 2 v.toNat).reverse
  bytes32 v := (lowBytes 4 v.toNat).reverse
  bytes64 v := (lowBytes 8 v.toNat).reverse
  value16 bytes := BitVec.ofNat 16 (valueOf bytes.reverse)
  value32 bytes := BitVec.ofNat 32 (valueOf bytes.reverse)
  value64 bytes := BitVec.ofNat 64 (valueOf bytes.reverse)
  length16 _ := by rw [List.length_reverse, length_lowBytes]
  length32 _ := by rw [List.length_reverse, length_lowBytes]
  length64 _ := by rw [List.length_reverse, length_lowBytes]
  inverse16 v := by rw [List.reverse_reverse, ofNat_valueOf (by rfl)]
  inverse32 v := by rw [List.reverse_reverse, ofNat_valueOf (by rfl)]
  inverse64 v := by rw [List.reverse_reverse, ofNat_valueOf (by rfl)]

example : bigEndian.bytes32 258 = [0, 0, 1, 2] := by decide

end Lwt.Io.Data
