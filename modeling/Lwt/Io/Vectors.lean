import Mathlib.Algebra.BigOperators.Group.List.Basic
import Lwt.Io.Slices

/-!
# `IO_vectors` as a queue of bytes

A value of `IO_vectors` describes the bytes of its slices: those of the vectors of the prefix, then
those of the suffix, which is kept in reverse.  A byte is given by its buffer and its index there,
since the bounds of the slices are not checked when they are appended.

Whatever the lengths are, the operations are those of a queue of bytes (`queue_step`).  The number
of the bytes is computed in the type `int` and is right as long as it fits (`toInt_byteCount`).
-/

namespace Lwt.Io.Slices

/-! ## The operations -/

/-- The loop of `drop`, with `io_vectors.count`. -/
def dropLoop : List IoVector → Int63 → ℕ → List IoVector × ℕ
  | [], _, vectorCount => ([], vectorCount)
  | first :: rest, count, vectorCount =>
    if count.sle 0 then (first :: rest, vectorCount)
    else if first.length.sle count then dropLoop rest (count - first.length) (vectorCount - 1)
    else ({ first with offset := first.offset + count, length := first.length - count } :: rest,
      vectorCount)

/-- The loop of `is_empty`. -/
def emptyLoop : List IoVector → Bool
  | [] => true
  | v :: rest => if v.length = 0 then emptyLoop rest else false

namespace IoVectors

def create : IoVectors := ⟨[], [], 0⟩

def countBuff (vs : List IoVector) : Int63 := vs.foldl (fun acc v => acc + v.length) 0

def byteCount (v : IoVectors) : Int63 := countBuff v.vectors + countBuff v.reversedSuffix

def append (v : IoVectors) (x : IoVector) : IoVectors :=
  { v with reversedSuffix := x :: v.reversedSuffix, count := v.count + 1 }

def appendBytes (v : IoVectors) (buffer : Buffer) (offset length : Int63) : IoVectors :=
  v.append ⟨buffer, offset, length⟩

def appendBigarray (v : IoVectors) (buffer : Buffer) (offset length : Int63) : IoVectors :=
  v.append ⟨buffer, offset, length⟩

def drop (v : IoVectors) (count : Int63) : IoVectors :=
  let v := flatten v
  let r := dropLoop v.vectors count v.count
  { v with vectors := r.1, count := r.2 }

/-- The vectors are flattened. -/
def isEmpty (v : IoVectors) : Bool × IoVectors :=
  let v := flatten v
  (emptyLoop v.vectors, v)

end IoVectors

inductive VectorsOp
  | appendBytes (buffer : Buffer) (offset length : Int63)
  | appendBigarray (buffer : Buffer) (offset length : Int63)
  | flatten
  | drop (count : Int63)
  | isEmpty
  | byteCount

namespace VectorsOp

def step (v : IoVectors) : VectorsOp → IoVectors
  | .appendBytes buffer offset length => v.appendBytes buffer offset length
  | .appendBigarray buffer offset length => v.appendBigarray buffer offset length
  | .flatten => Slices.flatten v
  | .drop count => v.drop count
  | .isEmpty => v.isEmpty.2
  | .byteCount => v

/-- A slice that is appended has not a negative length. -/
def NonNegative : VectorsOp → Prop
  | .appendBytes _ _ length | .appendBigarray _ _ length => 0 ≤ length.toInt
  | _ => True

instance : DecidablePred NonNegative := fun op =>
  match op with
  | .appendBytes _ _ length => inferInstanceAs (Decidable (0 ≤ length.toInt))
  | .appendBigarray _ _ length => inferInstanceAs (Decidable (0 ≤ length.toInt))
  | .flatten | .drop _ | .isEmpty | .byteCount => inferInstanceAs (Decidable True)

end VectorsOp

/-- The calls one after the other on a new value. -/
def runVectors (ops : List VectorsOp) : IoVectors := ops.foldl VectorsOp.step IoVectors.create

/-! ## Queues of bytes -/

/-- The bytes of a slice, each by its buffer and its index. -/
def sliceBytes (buffer : Buffer) (offset length : Int63) : List (Buffer × Int63) :=
  (List.range length.toInt.toNat).map fun i => (buffer, offset + BitVec.ofNat 63 i)

def IoVector.bytes (v : IoVector) : List (Buffer × Int63) := sliceBytes v.buffer v.offset v.length

/-- The bytes that the vectors describe, in order. -/
def IoVectors.bytes (v : IoVectors) : List (Buffer × Int63) :=
  (v.vectors ++ v.reversedSuffix.reverse).flatMap IoVector.bytes

/-- What the calls do to a queue of bytes. -/
def VectorsOp.queueStep (queue : List (Buffer × Int63)) : VectorsOp → List (Buffer × Int63)
  | .appendBytes buffer offset length => queue ++ sliceBytes buffer offset length
  | .appendBigarray buffer offset length => queue ++ sliceBytes buffer offset length
  | .drop count => queue.drop (max count.toInt 0).toNat
  | .flatten | .isEmpty | .byteCount => queue

def runQueue (ops : List VectorsOp) : List (Buffer × Int63) := ops.foldl VectorsOp.queueStep []

/-- The number of vectors is right, and no length is negative. -/
structure Counted (v : IoVectors) : Prop where
  count : v.count = v.vectors.length + v.reversedSuffix.length
  nonneg : ∀ x, x ∈ v.vectors ∨ x ∈ v.reversedSuffix → 0 ≤ x.length.toInt

variable {v : IoVectors} {k : Int63}

@[simp] theorem length_bytes (x : IoVector) : x.bytes.length = x.length.toInt.toNat := by
  simp [IoVector.bytes, sliceBytes]

/-! ## Flattening -/

@[simp] theorem bytes_flatten (v : IoVectors) : (flatten v).bytes = v.bytes := by
  unfold flatten
  split
  · rfl
  · simp [IoVectors.bytes]

theorem flatten_suffix (v : IoVectors) : (flatten v).reversedSuffix = [] := by
  unfold flatten
  split
  · assumption
  · rfl

theorem Counted.flatten (h : Counted v) : Counted (flatten v) := by
  refine ⟨?_, fun x hx => h.nonneg x ((mem_flatten v x).mp ?_)⟩
  · have hcount := h.count
    unfold Slices.flatten
    split
    · exact hcount
    · simpa using hcount
  · rcases hx with hx | hx
    · exact hx
    · rw [flatten_suffix] at hx
      exact absurd hx List.not_mem_nil

theorem bytes_of_flat (h : v.reversedSuffix = []) : v.bytes = v.vectors.flatMap IoVector.bytes := by
  simp [IoVectors.bytes, h]

/-! ## Appending -/

theorem bytes_append (v : IoVectors) (x : IoVector) : (v.append x).bytes = v.bytes ++ x.bytes := by
  simp [IoVectors.bytes, IoVectors.append]

theorem Counted.append {x : IoVector} (h : Counted v) (hx : 0 ≤ x.length.toInt) :
    Counted (v.append x) := by
  refine ⟨?_, fun y hy => ?_⟩
  · have hcount := h.count
    simp only [IoVectors.append, List.length_cons]
    omega
  · simp only [IoVectors.append, List.mem_cons] at hy
    rcases hy with hy | rfl | hy
    · exact h.nonneg y (.inl hy)
    · exact hx
    · exact h.nonneg y (.inr hy)

/-! ## Dropping -/

theorem sle_zero_iff : k.sle 0 = true ↔ k.toInt ≤ 0 := by
  simp [BitVec.sle]

theorem toInt_sub_of_le {x y : Int63} (hx : 0 ≤ x.toInt) (hle : x.toInt ≤ y.toInt) :
    (y - x).toInt = y.toInt - x.toInt := by
  have hy := (toInt_bounds y).2
  rw [BitVec.toInt_sub]
  exact Int.bmod_eq_of_le (by omega) (by omega)

theorem bytes_shorten (x : IoVector) (hk : 0 ≤ k.toInt) (hle : k.toInt ≤ x.length.toInt) :
    IoVector.bytes { x with offset := x.offset + k, length := x.length - k } =
      x.bytes.drop k.toInt.toNat := by
  unfold IoVector.bytes sliceBytes
  rw [toInt_sub_of_le hk hle]
  refine List.ext_getElem (by simp; omega) fun i hi hi' => ?_
  simp only [List.getElem_map, List.getElem_range, List.getElem_drop, Prod.mk.injEq, true_and]
  have hk' : BitVec.ofNat 63 k.toInt.toNat = k := by
    rw [← BitVec.ofInt_natCast, Int.toNat_of_nonneg hk, BitVec.ofInt_toInt]
  rw [BitVec.ofNat_add, hk', BitVec.add_assoc]

theorem dropLoop_spec (vs : List IoVector) (hnonneg : ∀ x ∈ vs, 0 ≤ x.length.toInt) (k : Int63)
    (vectorCount : ℕ) (hcount : vs.length ≤ vectorCount) :
    (dropLoop vs k vectorCount).1.flatMap IoVector.bytes =
      (vs.flatMap IoVector.bytes).drop (max k.toInt 0).toNat ∧
    (dropLoop vs k vectorCount).2 + vs.length = vectorCount + (dropLoop vs k vectorCount).1.length ∧
    ∀ x ∈ (dropLoop vs k vectorCount).1, 0 ≤ x.length.toInt := by
  induction vs generalizing k vectorCount with
  | nil => simp [dropLoop]
  | cons first rest ih =>
    have hfirst := hnonneg first (by simp)
    rw [dropLoop]
    split
    · rename_i hk
      have hzero : (max k.toInt 0).toNat = 0 := by
        have hle := sle_zero_iff.mp hk
        omega
      exact ⟨by rw [hzero, List.drop_zero], rfl, hnonneg⟩
    · rename_i hk
      have hpos : 0 < k.toInt := by
        rw [sle_zero_iff] at hk
        omega
      have hmax : max k.toInt 0 = k.toInt := by omega
      rw [hmax, List.flatMap_cons, List.drop_append, length_bytes]
      split
      · rename_i hle
        have hle : first.length.toInt ≤ k.toInt := by simpa [BitVec.sle] using hle
        have hsub := toInt_sub_of_le hfirst hle
        obtain ⟨hbytes, hlength, hrest⟩ := ih (fun x hx => hnonneg x (List.mem_cons_of_mem _ hx))
          (k - first.length) (vectorCount - 1) (by simp only [List.length_cons] at hcount; omega)
        refine ⟨?_, ?_, hrest⟩
        · have hnone : first.bytes.drop k.toInt.toNat = [] := by
            rw [List.drop_eq_nil_iff, length_bytes]
            omega
          have hrest : (max (k.toInt - first.length.toInt) 0).toNat =
              k.toInt.toNat - first.length.toInt.toNat := by omega
          rw [hbytes, hsub, hnone, List.nil_append, hrest]
        · simp only [List.length_cons] at hcount ⊢
          omega
      · rename_i hlt
        have hlt : k.toInt < first.length.toInt := by simpa [BitVec.sle] using hlt
        refine ⟨?_, by simp, fun x hx => ?_⟩
        · have hnone : k.toInt.toNat - first.length.toInt.toNat = 0 := by omega
          rw [List.flatMap_cons, bytes_shorten first hpos.le hlt.le, hnone, List.drop_zero]
        · rcases List.mem_cons.mp hx with rfl | hx
          · rw [toInt_sub_of_le hpos.le hlt.le]
            omega
          · exact hnonneg x (List.mem_cons_of_mem _ hx)

theorem drop_spec (h : Counted v) (k : Int63) :
    (v.drop k).bytes = v.bytes.drop (max k.toInt 0).toNat ∧ Counted (v.drop k) := by
  have hflat := h.flatten
  have hsuffix := flatten_suffix v
  have hcount := hflat.count
  rw [hsuffix, List.length_nil, Nat.add_zero] at hcount
  obtain ⟨hbytes, hlength, hnonneg⟩ := dropLoop_spec (flatten v).vectors
    (fun x hx => hflat.nonneg x (.inl hx)) k (flatten v).count hcount.ge
  refine ⟨?_, ?_, ?_⟩
  · rw [← bytes_flatten v, bytes_of_flat hsuffix, bytes_of_flat (v := v.drop k) hsuffix]
    exact hbytes
  · simp only [IoVectors.drop, hsuffix, List.length_nil]
    omega
  · intro x hx
    simp only [IoVectors.drop, hsuffix, List.not_mem_nil, or_false] at hx
    exact hnonneg x hx

/-! ## Counting -/

theorem emptyLoop_iff (vs : List IoVector) (hnonneg : ∀ x ∈ vs, 0 ≤ x.length.toInt) :
    emptyLoop vs = true ↔ vs.flatMap IoVector.bytes = [] := by
  induction vs with
  | nil => simp [emptyLoop]
  | cons x rest ih =>
    have hx := hnonneg x (by simp)
    have hbytes : x.bytes = [] ↔ x.length = 0 := by
      rw [← List.length_eq_zero_iff, length_bytes, ← BitVec.toInt_inj]
      simp
      omega
    rw [emptyLoop, List.flatMap_cons, List.append_eq_nil_iff, hbytes,
      ← ih fun y hy => hnonneg y (List.mem_cons_of_mem _ hy)]
    split
    · rename_i hzero
      exact (and_iff_right hzero).symm
    · rename_i hzero
      exact iff_of_false Bool.false_ne_true fun h => hzero h.1

theorem isEmpty_iff (h : Counted v) : v.isEmpty.1 = true ↔ v.bytes = [] := by
  rw [← bytes_flatten v, bytes_of_flat (flatten_suffix v)]
  exact emptyLoop_iff _ fun x hx => h.flatten.nonneg x (.inl hx)

theorem countBuff_eq (vs : List IoVector) (hnonneg : ∀ x ∈ vs, 0 ≤ x.length.toInt) :
    IoVectors.countBuff vs = BitVec.ofNat 63 (vs.flatMap IoVector.bytes).length := by
  have hfold : ∀ acc : Int63, vs.foldl (fun acc x => acc + x.length) acc =
      acc + BitVec.ofNat 63 (vs.flatMap IoVector.bytes).length := by
    induction vs with
    | nil => simp
    | cons x rest ih =>
      intro acc
      have hx := hnonneg x (by simp)
      have hlength : BitVec.ofNat 63 x.length.toInt.toNat = x.length := by
        rw [← BitVec.ofInt_natCast, Int.toNat_of_nonneg hx, BitVec.ofInt_toInt]
      rw [List.foldl_cons, ih fun y hy => hnonneg y (List.mem_cons_of_mem _ hy),
        List.flatMap_cons, List.length_append, BitVec.ofNat_add, length_bytes, hlength,
        BitVec.add_assoc]
  rw [IoVectors.countBuff, hfold]
  exact BitVec.zero_add _

theorem byteCount_eq (h : Counted v) : v.byteCount = BitVec.ofNat 63 v.bytes.length := by
  have hsuffix : ∀ vs : List IoVector, (vs.reverse.flatMap IoVector.bytes).length =
      (vs.flatMap IoVector.bytes).length := by
    intro vs
    simp only [List.length_flatMap, List.map_reverse, List.sum_reverse]
  rw [IoVectors.byteCount, countBuff_eq _ fun x hx => h.nonneg x (.inl hx),
    countBuff_eq _ fun x hx => h.nonneg x (.inr hx), ← BitVec.ofNat_add, IoVectors.bytes,
    List.flatMap_append, List.length_append, hsuffix]

theorem toInt_ofNat_eq_iff (n : ℕ) : (BitVec.ofNat 63 n).toInt = n ↔ n < 2 ^ 62 := by
  constructor
  · intro h
    have hlt := (toInt_bounds (BitVec.ofNat 63 n)).2
    omega
  · intro hlt
    rw [BitVec.toInt_ofNat']
    exact Int.bmod_eq_of_le (by omega) (by omega)

/-! ## Runs -/

theorem queue_step (h : Counted v) (op : VectorsOp) (hop : op.NonNegative) :
    (op.step v).bytes = op.queueStep v.bytes ∧ Counted (op.step v) := by
  cases op with
  | appendBytes buffer offset length => exact ⟨bytes_append v _, h.append hop⟩
  | appendBigarray buffer offset length => exact ⟨bytes_append v _, h.append hop⟩
  | flatten => exact ⟨bytes_flatten v, h.flatten⟩
  | drop count => exact drop_spec h count
  | isEmpty => exact ⟨bytes_flatten v, h.flatten⟩
  | byteCount => exact ⟨rfl, h⟩

theorem queue_run (ops : List VectorsOp) (hops : ∀ op ∈ ops, op.NonNegative) :
    (runVectors ops).bytes = runQueue ops ∧ Counted (runVectors ops) := by
  have hfold : ∀ v, Counted v → (ops.foldl VectorsOp.step v).bytes =
      ops.foldl VectorsOp.queueStep v.bytes ∧ Counted (ops.foldl VectorsOp.step v) := by
    induction ops with
    | nil => exact fun v h => ⟨rfl, h⟩
    | cons op ops ih =>
      intro v h
      obtain ⟨hbytes, hcounted⟩ := queue_step h op (hops op (by simp))
      rw [List.foldl_cons, List.foldl_cons, ← hbytes]
      exact ih (fun op hop => hops op (List.mem_cons_of_mem _ hop)) _ hcounted
  exact hfold IoVectors.create ⟨rfl, by simp [IoVectors.create]⟩

/-- A `writev` loop: each call of `writev` has written some of the bytes that are left, and as many
are dropped. -/
def writeLoop : List Int63 → IoVectors → List (Buffer × Int63) × IoVectors
  | [], v => ([], v)
  | written :: rest, v =>
    let r := writeLoop rest (v.drop written)
    (v.bytes.take written.toInt.toNat ++ r.1, r.2)

theorem writeLoop_spec (written : List Int63) (hwritten : ∀ n ∈ written, 0 ≤ n.toInt)
    (h : Counted v) :
    (writeLoop written v).1 ++ (writeLoop written v).2.bytes = v.bytes ∧
      Counted (writeLoop written v).2 := by
  induction written generalizing v with
  | nil => exact ⟨rfl, h⟩
  | cons n rest ih =>
    have hn := hwritten n (by simp)
    obtain ⟨hbytes, hcounted⟩ := drop_spec h n
    obtain ⟨hsent, hcounted'⟩ := ih (fun m hm => hwritten m (List.mem_cons_of_mem _ hm)) hcounted
    refine ⟨?_, hcounted'⟩
    rw [writeLoop, List.append_assoc, hsent, hbytes, max_eq_left hn, List.take_append_drop]

/-- After any calls, and whatever is appended, the vectors describe the bytes of the queue, their
number is `count`, `is_empty` tells whether the queue is empty, and a `writev` loop that finds
the vectors empty in the end has sent each byte of the queue once.  `byte_count` is the length of
the queue if and only if this length is at most `max_int`. -/
theorem vectors_are_byte_queue (ops : List VectorsOp) (hops : ∀ op ∈ ops, op.NonNegative)
    (written : List Int63) (hwritten : ∀ n ∈ written, 0 ≤ n.toInt) :
    (runVectors ops).bytes = runQueue ops ∧
    (runVectors ops).count =
      (runVectors ops).vectors.length + (runVectors ops).reversedSuffix.length ∧
    ((runVectors ops).isEmpty.1 = true ↔ (runQueue ops).length = 0) ∧
    ((writeLoop written (runVectors ops)).1 ++ (writeLoop written (runVectors ops)).2.bytes =
        runQueue ops ∧
      ((writeLoop written (runVectors ops)).2.isEmpty.1 = true →
        (writeLoop written (runVectors ops)).1 = runQueue ops)) ∧
    ((runVectors ops).byteCount.toInt = (runQueue ops).length ↔
    (runQueue ops).length < 2 ^ 62) := by
  obtain ⟨hbytes, hcounted⟩ := queue_run ops hops
  obtain ⟨hsent, hcounted'⟩ := writeLoop_spec written hwritten hcounted
  rw [hbytes] at hsent
  refine ⟨hbytes, hcounted.count, ?_, ⟨hsent, fun hempty => ?_⟩, ?_⟩
  · rw [isEmpty_iff hcounted, hbytes, List.length_eq_zero_iff]
  · rw [(isEmpty_iff hcounted').mp hempty, List.append_nil] at hsent
    exact hsent
  · rw [byteCount_eq hcounted, hbytes]
    exact toInt_ofNat_eq_iff _

/-- Two vectors. -/
def twoVectors : List VectorsOp :=
  [.appendBytes ⟨[1, 2], by decide⟩ 0 2, .drop 1, .appendBigarray ⟨[3], by decide⟩ 0 1]

theorem vectors_are_byte_queue_two :
    (runVectors twoVectors).byteCount.toInt = (runQueue twoVectors).length := by
  have hlength : (runQueue twoVectors).length = 2 := by decide
  have hall := vectors_are_byte_queue twoVectors (by decide) [] (by simp)
  refine hall.2.2.2.2.mpr ?_
  rw [hlength]
  omega

/-- A vector of `max_int` bytes, and one more byte. -/
def overfull : List VectorsOp :=
  [.appendBytes ⟨[], by decide⟩ 0 (BitVec.ofInt 63 (2 ^ 62 - 1)), .appendBytes ⟨[1], by decide⟩ 0 1]

/-- The sum of the lengths wraps around. -/
theorem byteCount_overfull : (∀ op ∈ overfull, op.NonNegative) ∧
    (runVectors overfull).byteCount.toInt ≠ (runQueue overfull).length := by
  have hcount : (runVectors overfull).byteCount.toInt = -2 ^ 62 := by decide
  exact ⟨by decide, by omega⟩

end Lwt.Io.Slices
