import Mathlib.Data.BitVec

/-!
# The bounds of slices

The functions that read into a slice of a buffer or write from one check its bounds and then
access the buffer without checks.  `Lwt_io` and `IO_vectors` add the offset and the length,
`Lwt_bytes` subtracts the length of the slice from that of the buffer.  The difference does not
leave the range of `int` (`byDifference_iff`); the sum does from `2 ^ 62` on, and the slice is
accepted then (`bySum_iff`).
-/

namespace Lwt.Io.Slices

/-- The type `int` of a 64-bit machine. -/
abbrev Int63 := BitVec 63

/-- A `bytes`, a `string` or a bigarray of bytes.  Its length is an `int`. -/
structure Buffer where
  bytes : List UInt8
  length_lt : bytes.length < 2 ^ 62

namespace Buffer

def length (buf : Buffer) : Int63 := BitVec.ofNat 63 buf.bytes.length

/-- `Lwt_bytes.create len` for a `len` that is not negative. -/
def create (len : Int63) : Buffer where
  bytes := List.replicate len.toInt.toNat 0
  length_lt := by
    have hlt := BitVec.two_mul_toInt_lt (x := len)
    rw [List.length_replicate]
    omega

end Buffer

/-- The slice lies in the buffer. -/
def Within (ofs len : Int63) (buf : Buffer) : Prop :=
  0 ≤ ofs.toInt ∧ 0 ≤ len.toInt ∧ ofs.toInt + len.toInt ≤ buf.bytes.length

/-- The sum of the offset and the length is not an `int`. -/
def Wraps (ofs len : Int63) : Prop :=
  0 ≤ ofs.toInt ∧ 0 ≤ len.toInt ∧ 2 ^ 62 ≤ ofs.toInt + len.toInt

instance (ofs len : Int63) (buf : Buffer) : Decidable (Within ofs len buf) :=
  inferInstanceAs (Decidable (_ ∧ _ ∧ _))

/-- What a call does with its slice: it raises `Invalid_argument`, returns at once, or goes on
to access the slice, without checks or by `Lwt_bytes.blit`, which checks each piece again. -/
inductive Access
  | invalidArgument (message : String)
  | nothing
  | unchecked
  | byBlit
  deriving DecidableEq

def Access.accepted : Access → Bool
  | .invalidArgument _ => false
  | .nothing | .unchecked | .byBlit => true

/-! ## The two checks -/

/-- `ofs < 0 || len < 0 || ofs + len > length` -/
def bySum (ofs len length : Int63) : Bool :=
  ofs.slt 0 || len.slt 0 || length.slt (ofs + len)

/-- `ofs < 0 || len < 0 || ofs > length - len` -/
def byDifference (ofs len length : Int63) : Bool :=
  ofs.slt 0 || len.slt 0 || (length - len).slt ofs

theorem toInt_length (buf : Buffer) : buf.length.toInt = buf.bytes.length := by
  have hlt := buf.length_lt
  rw [Buffer.length, BitVec.toInt_ofNat']
  exact Int.bmod_eq_of_le (by omega) (by omega)

theorem toInt_bounds (x : Int63) : -(2 ^ 62) ≤ x.toInt ∧ x.toInt < 2 ^ 62 := by
  have hlt := BitVec.two_mul_toInt_lt (x := x)
  have hle := BitVec.le_two_mul_toInt (x := x)
  omega

/-- The sum of two numbers that are not negative: too large a sum becomes negative. -/
theorem toInt_add_cases {ofs len : Int63} (hofs : 0 ≤ ofs.toInt) (hlen : 0 ≤ len.toInt) :
    (ofs + len).toInt = ofs.toInt + len.toInt ∧ ofs.toInt + len.toInt < 2 ^ 62 ∨
    (ofs + len).toInt = ofs.toInt + len.toInt - 2 ^ 63 ∧ 2 ^ 62 ≤ ofs.toInt + len.toInt := by
  obtain ⟨-, hofs'⟩ := toInt_bounds ofs
  obtain ⟨-, hlen'⟩ := toInt_bounds len
  rw [BitVec.toInt_add]
  rcases lt_or_ge (ofs.toInt + len.toInt) (2 ^ 62) with hlt | hge
  · exact .inl ⟨Int.bmod_eq_of_le (by omega) (by omega), hlt⟩
  · refine .inr ⟨?_, hge⟩
    rw [← Int.sub_bmod_right]
    exact Int.bmod_eq_of_le (by omega) (by omega)

theorem bySum_iff (ofs len : Int63) (buf : Buffer) :
    bySum ofs len buf.length = false ↔ Within ofs len buf ∨ Wraps ofs len := by
  have hlength := toInt_length buf
  have hlt := buf.length_lt
  have hsplit : bySum ofs len buf.length = false ↔
      0 ≤ ofs.toInt ∧ 0 ≤ len.toInt ∧ (ofs + len).toInt ≤ buf.bytes.length := by
    simp [bySum, BitVec.slt, hlength, and_assoc]
  rw [hsplit, Within, Wraps]
  constructor
  · rintro ⟨hofs, hlen, hsum⟩
    rcases toInt_add_cases hofs hlen with ⟨heq, -⟩ | ⟨-, hge⟩
    · exact .inl ⟨hofs, hlen, heq ▸ hsum⟩
    · exact .inr ⟨hofs, hlen, hge⟩
  · rintro (⟨hofs, hlen, hsum⟩ | ⟨hofs, hlen, hsum⟩)
    · refine ⟨hofs, hlen, ?_⟩
      rcases toInt_add_cases hofs hlen with ⟨heq, -⟩ | ⟨heq, hge⟩ <;> omega
    · refine ⟨hofs, hlen, ?_⟩
      have hofs' := (toInt_bounds ofs).2
      have hlen' := (toInt_bounds len).2
      rcases toInt_add_cases hofs hlen with ⟨heq, hlt'⟩ | ⟨heq, -⟩ <;> omega

theorem byDifference_iff (ofs len : Int63) (buf : Buffer) :
    byDifference ofs len buf.length = false ↔ Within ofs len buf := by
  have hlength := toInt_length buf
  have hlt := buf.length_lt
  have hsub : 0 ≤ len.toInt → (buf.length - len).toInt = buf.bytes.length - len.toInt := by
    intro hlen
    have hlen' := (toInt_bounds len).2
    rw [BitVec.toInt_sub, hlength]
    exact Int.bmod_eq_of_le (by omega) (by omega)
  have hsplit : byDifference ofs len buf.length = false ↔
      0 ≤ ofs.toInt ∧ 0 ≤ len.toInt ∧ ofs.toInt ≤ (buf.length - len).toInt := by
    simp [byDifference, BitVec.slt, and_assoc]
  rw [hsplit, Within]
  refine and_congr_right fun _ => and_congr_right fun hlen => ?_
  rw [hsub hlen]
  omega

/-! ## The functions of `Lwt_io` -/

/-- The common shape of the functions below. -/
def checkedBySum (access : Access) (name : String) (ofs len : Int63) (buf : Buffer) : Access :=
  if bySum ofs len buf.length then .invalidArgument name
  else if len = 0 then .nothing
  else access

def readInto := checkedBySum .unchecked "Lwt_io.read_into"
def readIntoBigstring := checkedBySum .unchecked "Lwt_io.read_into_bigstring"
def readIntoExactly := checkedBySum .unchecked "Lwt_io.read_into_exactly"
def readIntoExactlyBigstring := checkedBySum .unchecked "Lwt_io.read_into_exactly_bigstring"
def writeFrom := checkedBySum .unchecked "Lwt_io.write_from"
def writeFromBigstring := checkedBySum .byBlit "Lwt_io.write_from_bigstring"
def writeFromExactly := checkedBySum .unchecked "Lwt_io.write_from_exactly"
def writeFromExactlyBigstring := checkedBySum .byBlit "Lwt_io.write_from_exactly_bigstring"
def writeFromString := writeFrom
def writeFromStringExactly := writeFromExactly

theorem accepted_checkedBySum {access : Access} (haccess : access.accepted = true) (name : String)
    (ofs len : Int63) (buf : Buffer) :
    (checkedBySum access name ofs len buf).accepted = true ↔
      Within ofs len buf ∨ Wraps ofs len := by
  rw [← bySum_iff, checkedBySum]
  cases bySum ofs len buf.length
  · simp only [Bool.false_eq_true, if_false, iff_true]
    split
    · rfl
    · exact haccess
  · simp [Access.accepted]

/-! ## `IO_vectors` -/

structure IoVector where
  buffer : Buffer
  offset : Int63
  length : Int63

structure IoVectors where
  vectors : List IoVector
  reversedSuffix : List IoVector
  count : ℕ

/-- `IO_vectors.check`; the error is the message of `Invalid_argument`. -/
def check (tag : String) (v : IoVector) : Except String Unit :=
  if v.length.slt 0 || v.offset.slt 0 || v.buffer.length.slt (v.offset + v.length) then .error tag
  else .ok ()

def flatten (v : IoVectors) : IoVectors :=
  match v.reversedSuffix with
  | [] => v
  | _ => { v with vectors := v.vectors ++ v.reversedSuffix.reverse, reversedSuffix := [] }

/-- `List.iter (IO_vectors.check tag)` -/
def checkEach (tag : String) : List IoVector → Except String Unit
  | [] => .ok ()
  | v :: vs =>
    match check tag v with
    | .ok () => checkEach tag vs
    | .error message => .error message

/-- `check_io_vectors`: the number of vectors to pass, at most `system_limit`. -/
def checkIoVectors (systemLimit : Option ℕ) (functionName : String) (v : IoVectors) :
    Except String ℕ :=
  let v := flatten v
  match checkEach functionName v.vectors with
  | .ok () =>
    match systemLimit with
    | some limit => .ok (if v.count > limit then limit else v.count)
    | none => .ok v.count
  | .error message => .error message

theorem check_eq_ok_iff (tag : String) (v : IoVector) :
    check tag v = .ok () ↔ Within v.offset v.length v.buffer ∨ Wraps v.offset v.length := by
  have hsum : (v.length.slt 0 || v.offset.slt 0 || v.buffer.length.slt (v.offset + v.length)) =
      bySum v.offset v.length v.buffer.length := by
    rw [bySum, Bool.or_comm (v.length.slt 0)]
  rw [← bySum_iff, check, hsum]
  cases bySum v.offset v.length v.buffer.length <;> simp

theorem checkEach_eq_ok_iff (tag : String) (vs : List IoVector) :
    checkEach tag vs = .ok () ↔ ∀ v ∈ vs, check tag v = .ok () := by
  induction vs with
  | nil => simp [checkEach]
  | cons v vs ih =>
    rw [List.forall_mem_cons, ← ih, checkEach]
    cases check tag v with
    | error message => simp
    | ok u => simp

theorem mem_flatten (v : IoVectors) (x : IoVector) :
    x ∈ (flatten v).vectors ↔ x ∈ v.vectors ∨ x ∈ v.reversedSuffix := by
  unfold flatten
  split
  · rename_i hsuffix
    simp [hsuffix]
  · simp

/-- `readv` and `writev` go on if every vector passes the check. -/
theorem checkIoVectors_isOk_iff (systemLimit : Option ℕ) (functionName : String) (v : IoVectors) :
    (checkIoVectors systemLimit functionName v).isOk = true ↔
      ∀ x, x ∈ v.vectors ∨ x ∈ v.reversedSuffix → check functionName x = .ok () := by
  simp only [← mem_flatten]
  rw [← checkEach_eq_ok_iff]
  unfold checkIoVectors
  dsimp only
  cases checkEach functionName (flatten v).vectors with
  | error message => simp [Except.isOk, Except.toBool]
  | ok u => cases systemLimit <;> simp [Except.isOk, Except.toBool]

/-! ## The functions of `Lwt_bytes` -/

/-- The common shape of the functions with one slice. -/
def checkedByDifference (name : String) (ofs len : Int63) (buf : Buffer) : Access :=
  if byDifference ofs len buf.length then .invalidArgument name else .unchecked

def fill := checkedByDifference "Lwt_bytes.fill"
def recv := checkedByDifference "Lwt_bytes.recv"
def send := checkedByDifference "Lwt_bytes.send"
def recvfrom := checkedByDifference "Lwt_bytes.recvfrom"
def sendto := checkedByDifference "Lwt_bytes.sendto"
def madvise := checkedByDifference "Lwt_bytes.madvise"

/-- The common shape of the functions that copy. -/
def checkedBlit (name : String) (src : Buffer) (srcOfs : Int63) (dst : Buffer)
    (dstOfs len : Int63) : Access :=
  if len.slt 0 || (srcOfs.slt 0 || (src.length - len).slt srcOfs ||
      dstOfs.slt 0 || (dst.length - len).slt dstOfs) then .invalidArgument name
  else .unchecked

def blitFromString := checkedBlit "Lwt_bytes.blit_from_string"
def blitFromBytes := checkedBlit "Lwt_bytes.blit_from_bytes"
def blitToBytes := checkedBlit "Lwt_bytes.blit_to_bytes"
def blit := checkedBlit "Lwt_bytes.blit"

def extract (buf : Buffer) (ofs len : Int63) : Access :=
  if byDifference ofs len buf.length then .invalidArgument "Lwt_bytes.extract"
  else blit buf ofs (.create len) 0 len

theorem accepted_checkedByDifference (name : String) (ofs len : Int63) (buf : Buffer) :
    (checkedByDifference name ofs len buf).accepted = true ↔ Within ofs len buf := by
  rw [← byDifference_iff, checkedByDifference]
  cases byDifference ofs len buf.length <;> simp [Access.accepted]

theorem accepted_checkedBlit (name : String) (src : Buffer) (srcOfs : Int63) (dst : Buffer)
    (dstOfs len : Int63) : (checkedBlit name src srcOfs dst dstOfs len).accepted = true ↔
      Within srcOfs len src ∧ Within dstOfs len dst := by
  have hsplit : (len.slt 0 || (srcOfs.slt 0 || (src.length - len).slt srcOfs ||
      dstOfs.slt 0 || (dst.length - len).slt dstOfs)) =
        (byDifference srcOfs len src.length || byDifference dstOfs len dst.length) := by
    unfold byDifference
    cases len.slt 0 <;> cases srcOfs.slt 0 <;> cases dstOfs.slt 0 <;> simp
  rw [← byDifference_iff, ← byDifference_iff, checkedBlit, hsplit]
  cases byDifference srcOfs len src.length <;> cases byDifference dstOfs len dst.length <;>
    simp [Access.accepted]

theorem accepted_extract (buf : Buffer) (ofs len : Int63) :
    (extract buf ofs len).accepted = true ↔ Within ofs len buf := by
  have hcreate : 0 ≤ len.toInt → Within 0 len (.create len) := by
    intro hlen
    refine ⟨by simp, hlen, ?_⟩
    simp [Buffer.create, hlen]
  unfold extract
  cases hcheck : byDifference ofs len buf.length with
  | false =>
    have hwithin := (byDifference_iff ofs len buf).mp hcheck
    have hblit := (accepted_checkedBlit "Lwt_bytes.blit" buf ofs (.create len) 0 len).mpr
      ⟨hwithin, hcreate hwithin.2.1⟩
    exact iff_of_true hblit hwithin
  | true =>
    have hnot : ¬ Within ofs len buf := fun h => by
      simp [(byDifference_iff ofs len buf).mpr h] at hcheck
    simp [Access.accepted, hnot]

/-! ## What is accepted -/

/-- The functions of `Lwt_io` with a slice. -/
inductive IoFunction
  | readInto
  | readIntoBigstring
  | readIntoExactly
  | readIntoExactlyBigstring
  | writeFrom
  | writeFromBigstring
  | writeFromExactly
  | writeFromExactlyBigstring
  | writeFromString
  | writeFromStringExactly

def IoFunction.call : IoFunction → Int63 → Int63 → Buffer → Access
  | readInto => Slices.readInto
  | readIntoBigstring => Slices.readIntoBigstring
  | readIntoExactly => Slices.readIntoExactly
  | readIntoExactlyBigstring => Slices.readIntoExactlyBigstring
  | writeFrom => Slices.writeFrom
  | writeFromBigstring => Slices.writeFromBigstring
  | writeFromExactly => Slices.writeFromExactly
  | writeFromExactlyBigstring => Slices.writeFromExactlyBigstring
  | writeFromString => Slices.writeFromString
  | writeFromStringExactly => Slices.writeFromStringExactly

/-- The functions of `Lwt_bytes` with one slice. -/
inductive BytesFunction
  | fill
  | extract
  | recv
  | send
  | recvfrom
  | sendto
  | madvise

def BytesFunction.call : BytesFunction → Int63 → Int63 → Buffer → Access
  | fill => Slices.fill
  | extract => fun ofs len buf => Slices.extract buf ofs len
  | recv => Slices.recv
  | send => Slices.send
  | recvfrom => Slices.recvfrom
  | sendto => Slices.sendto
  | madvise => Slices.madvise

/-- The functions of `Lwt_bytes` that copy. -/
inductive BlitFunction
  | blitFromString
  | blitFromBytes
  | blitToBytes
  | blit

def BlitFunction.call : BlitFunction → Buffer → Int63 → Buffer → Int63 → Int63 → Access
  | blitFromString => Slices.blitFromString
  | blitFromBytes => Slices.blitFromBytes
  | blitToBytes => Slices.blitToBytes
  | blit => Slices.blit

theorem IoFunction.accepted_iff (f : IoFunction) (ofs len : Int63) (buf : Buffer) :
    (f.call ofs len buf).accepted = true ↔ Within ofs len buf ∨ Wraps ofs len := by
  cases f <;> exact accepted_checkedBySum rfl _ ofs len buf

theorem BytesFunction.accepted_iff (f : BytesFunction) (ofs len : Int63) (buf : Buffer) :
    (f.call ofs len buf).accepted = true ↔ Within ofs len buf := by
  cases f
  case extract => exact accepted_extract buf ofs len
  all_goals exact accepted_checkedByDifference _ ofs len buf

theorem Wraps.not_within {ofs len : Int63} {buf : Buffer} (h : Wraps ofs len) :
    ¬ Within ofs len buf := by
  rintro ⟨-, -, hsum⟩
  obtain ⟨-, -, hge⟩ := h
  have hlt := buf.length_lt
  omega

/-- The checks of `Lwt_bytes` accept the slices that lie in the buffer; those of `Lwt_io` and
`IO_vectors` do for the slices whose bounds do not wrap around, and for no others. -/
theorem accepted_iff_within_iff (f : IoFunction) (functionName : String) (v : IoVector)
    (systemLimit : Option ℕ) (vectors : IoVectors) (bytes : BytesFunction) (copy : BlitFunction)
    (ofs len : Int63) (buf : Buffer) (dstOfs : Int63) (dst : Buffer) :
    (((f.call ofs len buf).accepted = true ↔ Within ofs len buf) ↔ ¬ Wraps ofs len) ∧
    ((check functionName v = .ok () ↔ Within v.offset v.length v.buffer) ↔
        ¬ Wraps v.offset v.length) ∧
    ((checkIoVectors systemLimit functionName vectors).isOk = true ↔
        ∀ x, x ∈ vectors.vectors ∨ x ∈ vectors.reversedSuffix → check functionName x = .ok ()) ∧
    ((bytes.call ofs len buf).accepted = true ↔ Within ofs len buf) ∧
    ((copy.call buf ofs dst dstOfs len).accepted = true ↔
        Within ofs len buf ∧ Within dstOfs len dst) := by
  have hwraps : ∀ {P : Prop} {ofs len : Int63} {buf : Buffer},
      (P ↔ Within ofs len buf ∨ Wraps ofs len) →
        ((P ↔ Within ofs len buf) ↔ ¬ Wraps ofs len) := by
    intro P ofs len buf hP
    rw [hP]
    constructor
    · intro h hw
      exact hw.not_within (h.mp (.inr hw))
    · intro hnot
      exact or_iff_left hnot
  refine ⟨hwraps (f.accepted_iff ofs len buf), hwraps (check_eq_ok_iff functionName v),
    checkIoVectors_isOk_iff .., BytesFunction.accepted_iff .., ?_⟩
  cases copy <;> exact accepted_checkedBlit _ buf ofs dst dstOfs len

/-- A slice of one byte at the greatest offset, in an empty buffer. -/
theorem readInto_accepts_wrapped : ∃ (ofs len : Int63) (buf : Buffer),
    readInto ofs len buf = .unchecked ∧ ¬ Within ofs len buf :=
  ⟨BitVec.ofInt 63 (2 ^ 62 - 1), 1, ⟨[], by decide⟩, by decide, by decide⟩

end Lwt.Io.Slices
