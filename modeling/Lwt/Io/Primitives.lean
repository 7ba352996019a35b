import Lwt.Library.Dialogue
import Lwt.Library.Window
import Lwt.Io.Channel
import Lwt.Io.Endian

/-!
# The bytes of `Lwt_io` channels

The buffer of a channel, the functions that fill and empty it, and the module `Primitives`, as the
code computes them.  The refill, flush and seek functions given to `make` are the environment:
each of their calls takes the next answer.  The bytes that a refill function will give are in
`source`, those that a flush function has accepted are in `sink`.  Accesses without a bounds check
end in a fault when they are outside.

Operations run one at a time: an operation that would have to wait for another one just waits.
The auto-flusher is an operation like the others (`autoFlush`).
-/

namespace Lwt.Io.Data

open Dialogue Window

/-- The exceptions that the code raises or looks at, and others of the user's functions. -/
inductive Exn
  | endOfFile
  | failure (msg : String)
  | invalidArgument (msg : String)
  | channelClosed (name : String)
  | assertFailure
  | outOfMemory
  /-- `Unix_error (EPIPE, _, _)` -/
  | epipe
  | other (n : ℕ)
  deriving DecidableEq

/-- An access outside the buffer of the channel, or outside the bytes of the caller. -/
inductive Fault
  | channelBuffer
  | userBuffer
  deriving DecidableEq

/-- What a function given to `make` does at a call. -/
inductive Answer
  /-- it transfers as many bytes as it can, at most `n`, and returns their number -/
  | moves (n : ℕ)
  /-- it returns `n`, after a transfer of `n` bytes where this number is possible -/
  | returns (n : ℤ)
  /-- `seek` returns `n`, and `data` comes next -/
  | seeks (n : Int64) (data : List UInt8)
  | raises (e : Exn)

/-- A `_channel`, with the state of its main wrapper. -/
structure RealChannel where
  buffer : List UInt8
  length : ℤ
  ptr : ℤ
  max : ℤ
  mode : Mode
  typ : Typ
  offset : Int64
  state : State

def maxInt : ℤ := 2 ^ 62 - 1

/-- `Sys.win32`, and the size of the largest bigarray for which there is memory. -/
structure Platform where
  win32 : Bool
  memory : ℤ
  memory_le : memory ≤ maxInt

/-- Not Windows, with memory for every bigarray. -/
def Platform.unlimited : Platform := ⟨false, maxInt, Int.le_refl _⟩

structure World where
  ch : RealChannel
  source : List UInt8
  sink : List UInt8
  platform : Platform
  /-- Not part of the program: the number of bytes that `direct_access` has been made to pass. -/
  passed : ℕ

abbrev Prim (α : Type) : Type := Dialogue World Answer Exn Fault α

def update (f : RealChannel → RealChannel) : Prim Unit := modify fun w => { w with ch := f w.ch }

def setPtr (ptr : ℤ) : Prim Unit := update fun ch => { ch with ptr := ptr }

/-- Turns of a loop that ends when the answers are used up. -/
def loopAsking {α β : Type} (body : β → Prim (β ⊕ α)) (b : β) : Prim α :=
  loop (fun _ s => s.answers.length) body b

/-! ## Integers and bytes -/

/-- The addition of `int`. -/
def addInt (a b : ℤ) : ℤ := (a + b).bmod (2 ^ 63)

/-- `Sys.max_string_length` -/
def maxStringLength : ℤ := 2 ^ 57 - 9

/-- `Bytes.create`, filled with zeros. -/
def bytesCreate (len : ℤ) : Prim (List UInt8) :=
  if len < 0 ∨ len > maxStringLength then raise (.invalidArgument "Bytes.create")
  else pure (List.replicate len.toNat 0)

/-- `Lwt_bytes.create`, filled with zeros. -/
def lwtBytesCreate (len : ℤ) : Prim (List UInt8) := do
  let w ← get
  if len > w.platform.memory then raise .outOfMemory else pure (List.replicate len.toNat 0)

def unsafeGet (i : ℤ) : Prim UInt8 := do
  let w ← get
  if Inside w.ch.buffer i 1 then pure (w.ch.buffer.getD i.toNat 0) else fault .channelBuffer

def unsafeSet (i : ℤ) (c : UInt8) : Prim Unit := do
  let w ← get
  if Inside w.ch.buffer i 1 then update fun ch => { ch with buffer := splice ch.buffer i [c] }
  else fault .channelBuffer

/-- `Lwt_bytes.unsafe_blit ch.buffer src ch.buffer dst len` -/
def unsafeBlitWithin (src dst len : ℤ) : Prim Unit := do
  let w ← get
  if Inside w.ch.buffer src len ∧ Inside w.ch.buffer dst len then
    update fun ch => { ch with buffer := splice ch.buffer dst (slice ch.buffer src len) }
  else fault .channelBuffer

/-- `Lwt_bytes.unsafe_blit ch.buffer src buf ofs len` and `Lwt_bytes.unsafe_blit_to_bytes`: the
bytes `buf` after the copy. -/
def unsafeBlitTo (src : ℤ) (buf : List UInt8) (ofs len : ℤ) : Prim (List UInt8) := do
  let w ← get
  if ¬ Inside w.ch.buffer src len then fault .channelBuffer
  else if ¬ Inside buf ofs len then fault .userBuffer
  else pure (splice buf ofs (slice w.ch.buffer src len))

/-- `Lwt_bytes.unsafe_blit_from_bytes buf ofs ch.buffer dst len` -/
def unsafeBlitFromBytes (buf : List UInt8) (ofs dst len : ℤ) : Prim Unit := do
  let w ← get
  if ¬ Inside w.ch.buffer dst len then fault .channelBuffer
  else if ¬ Inside buf ofs len then fault .userBuffer
  else update fun ch => { ch with buffer := splice ch.buffer dst (slice buf ofs len) }

/-- `Lwt_bytes.blit buf ofs ch.buffer dst len` -/
def blit (buf : List UInt8) (ofs dst len : ℤ) : Prim Unit := do
  let w ← get
  if Inside buf ofs len ∧ Inside w.ch.buffer dst len then
    update fun ch => { ch with buffer := splice ch.buffer dst (slice buf ofs len) }
  else raise (.invalidArgument "Lwt_bytes.blit")

/-- `get_int16` and so on of `LittleEndian_unsafe` and `BigEndian_unsafe`, as bytes. -/
def getBytes (ptr size : ℤ) : Prim (List UInt8) := do
  let w ← get
  if Inside w.ch.buffer ptr size then pure (slice w.ch.buffer ptr size) else fault .channelBuffer

def setBytes (ptr : ℤ) (data : List UInt8) : Prim Unit := do
  let w ← get
  if Inside w.ch.buffer ptr data.length then
    update fun ch => { ch with buffer := splice ch.buffer ptr data }
  else fault .channelBuffer

/-! ## Creation and positions -/

def minBufferSize : ℤ := 16

def checkBufferSize (funName : String) (bufferSize : ℤ) : Except Exn Unit :=
  if bufferSize < minBufferSize then
    .error (.invalidArgument ("Lwt_io." ++ funName ++ ": too small buffer size"))
  else if bufferSize > maxStringLength then
    .error (.invalidArgument ("Lwt_io." ++ funName ++ ": too big buffer size"))
  else .ok ()

def checkBuffer (funName : String) (buffer : List UInt8) : Except Exn Unit :=
  checkBufferSize funName buffer.length

/-- The part of `make` after the choice of the buffer. -/
def makeWith (mode : Mode) (buffer : List UInt8) : RealChannel where
  buffer := buffer
  length := buffer.length
  ptr := 0
  max := match mode with
    | .input => 0
    | .output => buffer.length
  mode := mode
  typ := .normal
  offset := 0
  state := .idle

/-- `make ?buffer ~mode perform_io`.  `default_buffer_size` has gone through
`check_buffer_size`. -/
def make (defaultBufferSize : { n : ℤ // checkBufferSize "set_default_buffer_size" n = .ok () })
    (mode : Mode) (buffer : Option (List UInt8)) : Except Exn RealChannel :=
  match buffer with
  | some buffer => do
    checkBuffer "Lwt_io.make" buffer
    pure (makeWith mode buffer)
  | none => pure (makeWith mode (List.replicate defaultBufferSize.1.toNat 0))

def ofBytes (mode : Mode) (bytes : List UInt8) : RealChannel where
  buffer := bytes
  length := bytes.length
  ptr := 0
  max := bytes.length
  mode := mode
  typ := .bytes
  offset := match mode with
    | .output => 0
    | .input => Int64.ofInt bytes.length
  state := .idle

def position (ch : RealChannel) : Int64 :=
  match ch.mode with
  | .input => ch.offset - Int64.ofInt (ch.max - ch.ptr)
  | .output => ch.offset + Int64.ofInt ch.ptr

def name (ch : RealChannel) : String :=
  match ch.mode with
  | .input => "input"
  | .output => "output"

def closedChannel (ch : RealChannel) : Exn := .channelClosed (name ch)

def invalidChannel (ch : RealChannel) : Exn :=
  .failure ("temporary atomic channel " ++ name ch ++ " no more valid")

/-! ## Refilling and flushing -/

/-- A refill or flush function copies at most `n` bytes from or to the `len` bytes at `ptr`. -/
def transfer (ptr len : ℤ) (n : ℕ) : Prim ℤ := do
  let w ← get
  if ¬ Inside w.ch.buffer ptr len then fault .channelBuffer
  else
    match w.ch.mode with
    | .input => do
      let data := w.source.take (min n len.toNat)
      modify fun w =>
        { w with
          ch := { w.ch with buffer := splice w.ch.buffer ptr data }
          source := w.source.drop data.length }
      pure data.length
    | .output => do
      let data := slice w.ch.buffer ptr (min n len)
      modify fun w => { w with sink := w.sink ++ data }
      pure data.length

def transferExactly (ptr len n : ℤ) : Prim ℤ :=
  if 0 ≤ n ∧ n ≤ len then transfer ptr len n.toNat else pure n

/-- A call of the refill or flush function. -/
def perform (ptr len : ℤ) : Prim ℤ := do
  let answer ← ask
  match answer with
  | .moves n => transfer ptr len n
  | .returns n => transferExactly ptr len n
  | .seeks n _ => transferExactly ptr len n.toInt
  | .raises e => raise e

/-- On Windows, a broken pipe is the end. -/
def performOnSystem (ptr len : ℤ) : Prim ℤ := do
  let w ← get
  if w.platform.win32 then
    catch' (perform ptr len) fun e =>
      match e with
      | .epipe => pure 0
      | exn => raise exn
  else perform ptr len

/-- The data that is still in the buffer is moved to its front. -/
def keepUnread (ptr size : ℤ) : Prim Unit := do
  if size > 0 then unsafeBlitWithin ptr 0 size else pure ()
  update fun ch => { ch with ptr := 0, max := size }

/-- What `perform_io` does with the result of the function. -/
def updatePositions (len n : ℤ) : Prim ℤ := do
  let w ← get
  if n < 0 ∨ n > len then
    raise (.failure ("Lwt_io.perform_io: invalid result of the [" ++
      (match w.ch.mode with
        | .input => "read"
        | .output => "write") ++ "] function"))
  else do
    update fun ch => { ch with offset := ch.offset + Int64.ofInt n }
    match w.ch.mode with
    | .input => do
      update fun ch => { ch with max := ch.max + n }
      pure n
    | .output => do
      -- shift remaining data
      unsafeBlitWithin n 0 (len - n)
      setPtr (len - n)
      pure n

def performIo : Prim ℤ := do
  let w ← get
  match w.ch.state with
  | .closed => raise (closedChannel w.ch)
  | .invalid => raise (invalidChannel w.ch)
  | .idle | .waitingForBusy => raise .assertFailure
  | .busyPrimitive | .busyAtomic _ =>
    match w.ch.typ, w.ch.mode with
    | .normal, .input => do
      let size := w.ch.max - w.ch.ptr
      keepUnread w.ch.ptr size
      let n ← performOnSystem size (w.ch.length - size)
      updatePositions (w.ch.length - size) n
    | .normal, .output => do
      let n ← performOnSystem 0 w.ch.ptr
      updatePositions w.ch.ptr n
    | .bytes, .input => pure 0
    | .bytes, .output =>
      raise (.failure "cannot flush a channel created with Lwt_io.of_string")

def refill : Prim ℤ := performIo

def flushPartial : Prim ℤ := performIo

def flushTotal : Prim Unit :=
  loopAsking (fun _ => do
    let w ← get
    if w.ch.ptr > 0 then do
      let _ ← flushPartial
      pure (.inl ())
    else pure (.inr ())) ()

def safeFlushTotal : Prim Unit := catch' flushTotal fun _ => pure ()

/-! ## Locking -/

def unlock : Prim Unit := do
  let w ← get
  match w.ch.state with
  | .busyPrimitive | .busyAtomic _ => update fun ch => { ch with state := .idle }
  | .closed | .invalid => pure ()
  | .idle | .waitingForBusy => raise .assertFailure

def primitive {α : Type} (f : Prim α) : Prim α := do
  let w ← get
  match w.ch.state with
  | .idle => do
    update fun ch => { ch with state := .busyPrimitive }
    finalize f unlock
  | .busyPrimitive | .busyAtomic _ | .waitingForBusy => wait
  | .closed => raise (closedChannel w.ch)
  | .invalid => raise (invalidChannel w.ch)

/-- What an auto-flusher does after its pause. -/
def autoFlush : Prim Unit := do
  let w ← get
  match w.ch.state with
  | .idle => do
    update fun ch => { ch with state := .busyPrimitive }
    safeFlushTotal
    update fun ch => { ch with state := if ch.state = .busyPrimitive then .idle else ch.state }
  | .busyPrimitive | .waitingForBusy | .busyAtomic _ | .closed | .invalid => pure ()

/-- `resize_buffer` without the check of the size and without the lock. -/
def resizeChannel (len : ℤ) : Prim Unit := do
  let w ← get
  match w.ch.mode with
  | .input => do
    let unreadCount := w.ch.max - w.ch.ptr
    if len < unreadCount then
      raise (.failure
        "Lwt_io.resize_buffer: cannot decrease buffer size, too much unread data")
    else do
      let buffer ← lwtBytesCreate len
      if ¬ (Inside w.ch.buffer w.ch.ptr unreadCount ∧ Inside buffer 0 unreadCount) then
        fault .channelBuffer
      else
        update fun ch =>
          { ch with
            buffer := splice buffer 0 (slice ch.buffer ch.ptr unreadCount)
            length := len
            ptr := 0
            max := unreadCount }
  | .output => do
    loopAsking (fun _ => do
      let w ← get
      if w.ch.ptr > len then do
        let _ ← flushPartial
        pure (.inl ())
      else pure (.inr ())) ()
    let w ← get
    let buffer ← lwtBytesCreate len
    if ¬ (Inside w.ch.buffer 0 w.ch.ptr ∧ Inside buffer 0 w.ch.ptr) then fault .channelBuffer
    else
      update fun ch =>
        { ch with
          buffer := splice buffer 0 (slice ch.buffer 0 ch.ptr)
          length := len
          max := len }

def resizeBuffer (len : ℤ) : Prim Unit :=
  if len < minBufferSize then
    raise (.invalidArgument "Lwt_io.resize_buffer: buffer size too small")
  else do
    let w ← get
    match w.ch.typ with
    | .bytes =>
      raise (.failure ("Lwt_io.resize_buffer: cannot resize the buffer of a channel " ++
        "created with Lwt_io.of_string"))
    | .normal => primitive (resizeChannel len)

/-- `Marshal`: the size of the data after a header, and the failures of `from_bytes`. -/
structure Marshal where
  headerSize : ℕ
  dataSize : List UInt8 → Except Exn ℕ
  fromBytes : List UInt8 → Except Exn Unit

namespace Primitives

/-! ## Reading -/

def readChar : Prim UInt8 :=
  loopAsking (fun _ => do
    let w ← get
    if w.ch.ptr = w.ch.max then do
      let n ← refill
      if n = 0 then raise .endOfFile else pure (.inl ())
    else do
      setPtr (w.ch.ptr + 1)
      let c ← unsafeGet w.ch.ptr
      pure (.inr c)) ()

/-- `End_of_file` gives `None`. -/
def orEndOfFile {α : Type} (f : Prim α) : Prim (Option α) :=
  catch' (f >>= fun a => pure (some a)) fun e =>
    match e with
    | .endOfFile => pure none
    | exn => raise exn

def readCharOpt : Prim (Option UInt8) := orEndOfFile readChar

/-- A `'\r'` that has been read and does not belong to the end of the line. -/
def addCr (crRead : Bool) (buf : List UInt8) : List UInt8 := if crRead then buf ++ [13] else buf

/-- One turn of the loop of `read_line`; the characters 10 and 13 are `'\n'` and `'\r'`. -/
def readLineTurn (r : Bool × List UInt8) : Prim (Bool × List UInt8 ⊕ List UInt8) :=
  tryBind readChar
    (fun ch =>
      if ch = 10 then pure (.inr r.2)
      else if ch = 13 then pure (.inl (true, addCr r.1 r.2))
      else pure (.inl (false, addCr r.1 r.2 ++ [ch])))
    (fun e =>
      match e with
      | .endOfFile => pure (.inr (addCr r.1 r.2))
      | exn => raise exn)

def readLineLoop (crRead : Bool) (buf : List UInt8) : Prim (List UInt8) :=
  loop (fun _ s => s.answers.length * (s.state.ch.buffer.length + 1) +
      (s.state.ch.buffer.length - s.state.ch.ptr).toNat) readLineTurn (crRead, buf)

def readLine : Prim (List UInt8) := do
  let ch ← readChar
  if ch = 13 then readLineLoop true []
  else if ch = 10 then pure []
  else readLineLoop false [ch]

def readLineOpt : Prim (Option (List UInt8)) := orEndOfFile readLine

/-- The number of bytes read, and `buf` with these bytes.  `unsafe_blit` and
`unsafe_blit_to_bytes` are the same copy here. -/
def unsafeReadInto' (buf : List UInt8) (ofs len : ℤ) : Prim (ℤ × List UInt8) := do
  let w ← get
  let avail := w.ch.max - w.ch.ptr
  if avail > 0 then do
    let len := min len avail
    let buf ← unsafeBlitTo w.ch.ptr buf ofs len
    setPtr (w.ch.ptr + len)
    pure (len, buf)
  else do
    let n ← refill
    let len := min len n
    let buf ← unsafeBlitTo 0 buf ofs len
    update fun ch => { ch with ptr := len, max := n }
    pure (len, buf)

/-- The check of the arguments `ofs` and `len`. -/
def wrongRange (buf : List UInt8) (ofs len : ℤ) : Prop :=
  ofs < 0 ∨ len < 0 ∨ addInt ofs len > buf.length
  deriving Decidable

def readIntoChecked (name : String) (buf : List UInt8) (ofs len : ℤ) : Prim (ℤ × List UInt8) :=
  if wrongRange buf ofs len then raise (.invalidArgument name)
  else if len = 0 then pure (0, buf)
  else unsafeReadInto' buf ofs len

def readIntoBigstring : List UInt8 → ℤ → ℤ → Prim (ℤ × List UInt8) :=
  readIntoChecked "Lwt_io.read_into_bigstring"

def readInto : List UInt8 → ℤ → ℤ → Prim (ℤ × List UInt8) := readIntoChecked "Lwt_io.read_into"

def unsafeReadIntoExactly' (buf : List UInt8) (ofs len : ℤ) : Prim (List UInt8) :=
  loop (fun r _ => r.2.2.toNat) (fun r => do
    let (buf, ofs, len) := r
    let (n, buf) ← unsafeReadInto' buf ofs len
    if n = 0 then raise .endOfFile
    else if len - n = 0 then pure (.inr buf)
    else pure (.inl (buf, ofs + n, len - n))) (buf, ofs, len)

def readIntoExactlyChecked (name : String) (buf : List UInt8) (ofs len : ℤ) :
    Prim (List UInt8) :=
  if wrongRange buf ofs len then raise (.invalidArgument name)
  else if len = 0 then pure buf
  else unsafeReadIntoExactly' buf ofs len

def readIntoExactlyBigstring : List UInt8 → ℤ → ℤ → Prim (List UInt8) :=
  readIntoExactlyChecked "Lwt_io.read_into_exactly_bigstring"

def readIntoExactly : List UInt8 → ℤ → ℤ → Prim (List UInt8) :=
  readIntoExactlyChecked "Lwt_io.read_into_exactly"

/-- The strings of `l` are put into `buf`, the first one at its end. -/
def revBlit : ℤ → List UInt8 → List (List UInt8) → Prim (List UInt8)
  | _, buf, [] => pure buf
  | ofs, buf, str :: l =>
    let ofs := ofs - str.length
    if Inside buf ofs str.length then revBlit ofs (splice buf ofs str) l else fault .userBuffer

def revConcat (len : ℤ) (l : List (List UInt8)) : Prim (List UInt8) := do
  let buf ← bytesCreate len
  revBlit len buf l

def readAll (totalLen : ℤ) (acc : List (List UInt8)) : Prim (List UInt8) :=
  loopAsking (fun r => do
    let (totalLen, acc) := r
    let w ← get
    let len := w.ch.max - w.ch.ptr
    let buf ← bytesCreate len
    let str ← unsafeBlitTo w.ch.ptr buf 0 len
    setPtr w.ch.max
    let n ← refill
    if n = 0 then do
      let buf ← revConcat (len + totalLen) (str :: acc)
      pure (.inr buf)
    else pure (.inl (len + totalLen, str :: acc))) (totalLen, acc)

def read (count : Option ℤ) : Prim (List UInt8) :=
  match count with
  | none => readAll 0 []
  | some len => do
    let buf ← bytesCreate len
    let (realLen, buf) ← unsafeReadInto' buf 0 len
    if realLen < len then pure (slice buf 0 realLen) else pure buf

/-- The value is given as its bytes. -/
def readValue (marshal : Marshal) : Prim (List UInt8) := do
  let header ← bytesCreate marshal.headerSize
  let header ← unsafeReadIntoExactly' header 0 marshal.headerSize
  match marshal.dataSize header with
  | .error e => raise e
  | .ok bsize => do
    let buffer ← bytesCreate (marshal.headerSize + bsize)
    let buffer := splice buffer 0 header
    let buffer ← unsafeReadIntoExactly' buffer marshal.headerSize bsize
    match marshal.fromBytes buffer with
    | .error e => raise e
    | .ok () => pure buffer

/-! ## Writing -/

def flush : Prim Unit := flushTotal

def writeChar (c : UInt8) : Prim Unit :=
  loopAsking (fun _ => do
    let w ← get
    if w.ch.ptr < w.ch.length then do
      setPtr (w.ch.ptr + 1)
      unsafeSet w.ch.ptr c
      pure (.inr ())
    else do
      let _ ← flushPartial
      pure (.inl ())) ()

/-- The number of bytes that have not been written. -/
def unsafeWriteFrom' (blit : List UInt8 → ℤ → ℤ → ℤ → Prim Unit) (str : List UInt8)
    (ofs len : ℤ) : Prim ℤ :=
  loopAsking (fun r => do
    let (ofs, len) := r
    let w ← get
    let avail := w.ch.length - w.ch.ptr
    if avail ≥ len then do
      blit str ofs w.ch.ptr len
      setPtr (w.ch.ptr + len)
      pure (.inr 0)
    else do
      blit str ofs w.ch.ptr avail
      setPtr w.ch.length
      let _ ← flushPartial
      let w ← get
      if w.ch.ptr = 0 then
        -- everything has been written, try to write more
        if len - avail = 0 then pure (.inr 0) else pure (.inl (ofs + avail, len - avail))
      else pure (.inr (len - avail))) (ofs, len)

def unsafeWriteFromBigstring : List UInt8 → ℤ → ℤ → Prim ℤ := unsafeWriteFrom' blit

def unsafeWriteFrom : List UInt8 → ℤ → ℤ → Prim ℤ := unsafeWriteFrom' unsafeBlitFromBytes

def writeFromChecked (name : String) (unsafeWriteFrom : List UInt8 → ℤ → ℤ → Prim ℤ)
    (buf : List UInt8) (ofs len : ℤ) : Prim ℤ :=
  if wrongRange buf ofs len then raise (.invalidArgument name)
  else if len = 0 then pure 0
  else do
    let remaining ← unsafeWriteFrom buf ofs len
    pure (len - remaining)

def writeFromBigstring : List UInt8 → ℤ → ℤ → Prim ℤ :=
  writeFromChecked "Lwt_io.write_from_bigstring" unsafeWriteFromBigstring

def writeFrom : List UInt8 → ℤ → ℤ → Prim ℤ :=
  writeFromChecked "Lwt_io.write_from" unsafeWriteFrom

def writeFromString : List UInt8 → ℤ → ℤ → Prim ℤ := writeFrom

def unsafeWriteFromExactly' (writeFrom : List UInt8 → ℤ → ℤ → Prim ℤ) (buf : List UInt8)
    (ofs len : ℤ) : Prim Unit :=
  loopAsking (fun r => do
    let (ofs, len) := r
    let n ← writeFrom buf ofs len
    if n = 0 then pure (.inr ()) else pure (.inl (ofs + len - n, n))) (ofs, len)

def unsafeWriteFromExactly : List UInt8 → ℤ → ℤ → Prim Unit :=
  unsafeWriteFromExactly' unsafeWriteFrom

def unsafeWriteFromExactlyBigstring : List UInt8 → ℤ → ℤ → Prim Unit :=
  unsafeWriteFromExactly' unsafeWriteFromBigstring

def writeFromExactlyChecked (name : String)
    (unsafeWriteFromExactly : List UInt8 → ℤ → ℤ → Prim Unit) (buf : List UInt8)
    (ofs len : ℤ) : Prim Unit :=
  if wrongRange buf ofs len then raise (.invalidArgument name)
  else if len = 0 then pure ()
  else unsafeWriteFromExactly buf ofs len

def writeFromExactly : List UInt8 → ℤ → ℤ → Prim Unit :=
  writeFromExactlyChecked "Lwt_io.write_from_exactly" unsafeWriteFromExactly

def writeFromExactlyBigstring : List UInt8 → ℤ → ℤ → Prim Unit :=
  writeFromExactlyChecked "Lwt_io.write_from_exactly_bigstring" unsafeWriteFromExactlyBigstring

def writeFromStringExactly : List UInt8 → ℤ → ℤ → Prim Unit := writeFromExactly

def write (str : List UInt8) : Prim Unit := unsafeWriteFromExactly str 0 str.length

def writeLine (str : List UInt8) : Prim Unit := do
  unsafeWriteFromExactly str 0 str.length
  writeChar 10

/-! ## Low-level access -/

def readBlockUnsafe {α : Type} (size : ℤ) (f : ℤ → Prim α) : Prim α := do
  let ptr ← loopAsking (fun _ => do
    let w ← get
    if w.ch.max - w.ch.ptr < size then do
      let n ← refill
      if n = 0 then raise .endOfFile else pure (.inl ())
    else do
      setPtr (w.ch.ptr + size)
      pure (.inr w.ch.ptr)) ()
  f ptr

def writeBlockUnsafe {α : Type} (size : ℤ) (f : ℤ → Prim α) : Prim α := do
  let ptr ← loopAsking (fun _ => do
    let w ← get
    if w.ch.max - w.ch.ptr < size then do
      let _ ← flushPartial
      pure (.inl ())
    else do
      setPtr (w.ch.ptr + size)
      pure (.inr w.ch.ptr)) ()
  f ptr

def block {α : Type} (size : ℤ) (f : ℤ → Prim α) : Prim α :=
  if size < 0 ∨ size > minBufferSize then raise (.invalidArgument "Lwt_io.block")
  else do
    let w ← get
    if w.ch.max - w.ch.ptr ≥ size then do
      setPtr (w.ch.ptr + size)
      f w.ch.ptr
    else
      match w.ch.mode with
      | .input => readBlockUnsafe size f
      | .output => writeBlockUnsafe size f

/-- What a function of the caller does with the buffer it is given. -/
inductive Touch
  /-- stores with a bounds check -/
  | store (ofs : ℤ) (data : List UInt8)
  | raise (e : Exn)

def touch : Touch → Prim Unit
  | .store ofs data => do
      let w ← get
      if Inside w.ch.buffer ofs data.length then
        update fun ch => { ch with buffer := splice ch.buffer ofs data }
      else Dialogue.raise (.invalidArgument "index out of bounds")
  | .raise e => Dialogue.raise e

/-- A function given to `block`. -/
def touches : List Touch → Prim Unit
  | [] => pure ()
  | t :: f => do
      touch t
      touches f

/-- The fields of the `direct_access` that can be set. -/
structure DirectAccess where
  daPtr : ℤ
  daMax : ℤ

/-- `ch.ptr <- da.da_ptr` -/
def passTo (da : DirectAccess) : Prim Unit :=
  modify fun w =>
    { w with
      ch := { w.ch with ptr := da.daPtr }
      passed := w.passed + (da.daPtr - w.ch.ptr).toNat }

/-- The test of `perform` and `direct_access`. -/
def misplaced (da : DirectAccess) (ch : RealChannel) : Prop :=
  da.daMax ≠ ch.max ∨ da.daPtr < ch.ptr ∨ da.daPtr > ch.max
  deriving Decidable

/-! ## Numbers -/

section MakeNumberIO

variable (endian : Endian) (floats : Floats)

def readInt : Prim ℤ := readBlockUnsafe 4 fun ptr => do
  let bytes ← getBytes ptr 4
  pure (endian.value32 bytes).toInt

def readInt16 : Prim ℤ := readBlockUnsafe 2 fun ptr => do
  let bytes ← getBytes ptr 2
  pure (endian.value16 bytes).toInt

def readInt32 : Prim (BitVec 32) := readBlockUnsafe 4 fun ptr => do
  let bytes ← getBytes ptr 4
  pure (endian.value32 bytes)

def readInt64 : Prim (BitVec 64) := readBlockUnsafe 8 fun ptr => do
  let bytes ← getBytes ptr 8
  pure (endian.value64 bytes)

def readFloat32 : Prim (BitVec 64) := do
  let x ← readInt32 endian
  pure (floats.floatOfBits x)

def readFloat64 : Prim (BitVec 64) := readInt64 endian

def writeInt (v : ℤ) : Prim Unit :=
  writeBlockUnsafe 4 fun ptr => setBytes ptr (endian.bytes32 (BitVec.ofInt 32 v))

def writeInt16 (v : ℤ) : Prim Unit :=
  writeBlockUnsafe 2 fun ptr => setBytes ptr (endian.bytes16 (BitVec.ofInt 16 v))

def writeInt32 (v : BitVec 32) : Prim Unit :=
  writeBlockUnsafe 4 fun ptr => setBytes ptr (endian.bytes32 v)

def writeInt64 (v : BitVec 64) : Prim Unit :=
  writeBlockUnsafe 8 fun ptr => setBytes ptr (endian.bytes64 v)

def writeFloat32 (v : BitVec 64) : Prim Unit := writeInt32 endian (floats.bitsOfFloat v)

def writeFloat64 (v : BitVec 64) : Prim Unit := writeInt64 endian v

end MakeNumberIO

/-! ## Random access -/

/-- A call of the seek function. -/
def seek : Prim Int64 := do
  let answer ← ask
  match answer with
  | .moves n => pure (Int64.ofNat n)
  | .returns n => pure (Int64.ofInt n)
  | .seeks n data => do
      modify fun w => { w with source := data }
      pure n
  | .raises e => raise e

def doSeek (funName : String) (pos : Int64) : Prim Unit := do
  let offset ← seek
  if offset ≠ pos then raise (.failure ("Lwt_io." ++ funName ++ ": seek failed")) else pure ()

def setPosition (pos : Int64) : Prim Unit := do
  let w ← get
  match w.ch.typ, w.ch.mode with
  | .normal, .output => do
    flushTotal
    doSeek "set_position" pos
    update fun ch => { ch with offset := pos }
  | .normal, .input =>
    if pos ≥ w.ch.offset - Int64.ofInt (w.ch.max - w.ch.ptr) ∧ pos ≤ w.ch.offset then
      setPtr (w.ch.max - (w.ch.offset - pos).toInt)
    else do
      doSeek "set_position" pos
      update fun ch => { ch with offset := pos, ptr := 0, max := 0 }
  | .bytes, _ =>
    if pos < 0 ∨ pos > Int64.ofInt w.ch.length then
      raise (.failure "Lwt_io.set_position: out of bounds")
    else setPtr pos.toInt

def length : Prim Int64 := do
  let w ← get
  match w.ch.typ with
  | .normal => do
    let len ← seek
    doSeek "length" w.ch.offset
    pure len
  | .bytes => pure (Int64.ofInt w.ch.length)

end Primitives

/-! ## Operations -/

def readChar : Prim UInt8 := do
  let w ← get
  if w.ch.state = .idle ∧ w.ch.ptr < w.ch.max then do
    setPtr (w.ch.ptr + 1)
    unsafeGet w.ch.ptr
  else primitive Primitives.readChar

def readCharOpt : Prim (Option UInt8) := do
  let w ← get
  if w.ch.state = .idle ∧ w.ch.ptr < w.ch.max then do
    setPtr (w.ch.ptr + 1)
    let c ← unsafeGet w.ch.ptr
    pure (some c)
  else primitive Primitives.readCharOpt

/-- The auto-flusher that is launched here is an operation of its own. -/
def writeChar (c : UInt8) : Prim Unit := do
  let w ← get
  if w.ch.state = .idle ∧ w.ch.ptr < w.ch.max then do
    setPtr (w.ch.ptr + 1)
    unsafeSet w.ch.ptr c
  else primitive (Primitives.writeChar c)

end Lwt.Io.Data
