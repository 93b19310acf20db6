import A64Disassembler.Fault

/-!
# Reading bytes in sequence

A cursor is a position in a sequence of bytes. A read that asks for more than what is left
reports how much it asked for and leaves the cursor where it was. The cursor may be advanced
past the end; from there on, only the number of remaining bytes is undefined.
-/

namespace A64Disassembler

/-- The order of the bytes of a word in memory. -/
inductive Endian
  | little
  | big
  deriving DecidableEq, Repr, Inhabited

/-- Why bytes were not decoded. -/
inductive DecodeError
  /-- More data is needed: `size` bytes were asked for. -/
  | more (size : Nat)
  /-- The next `size` bytes have no meaning. -/
  | failed (size : Nat)
  deriving DecidableEq, Repr

namespace DecodeError

/-- The number of bytes that the error is about. -/
def size : DecodeError → Nat
  | .more n | .failed n => n

/-- The text of the error. -/
def message : DecodeError → String
  | .more _ => "Need more data"
  | .failed _ => "Failed to decode"

end DecodeError

/-- The word whose bytes in memory are `bytes`, for the four bytes of a word. -/
def Endian.word (order : Endian) (bytes : List UInt8) : Word :=
  let significant := match order with
    | .little => bytes.reverse
    | .big => bytes
  significant.foldl (fun value byte => value <<< 8 ||| BitVec.setWidth 32 byte.toBitVec) 0

/-- A position in a sequence of bytes. -/
structure Cursor where
  data : List UInt8
  offset : Nat := 0
  deriving DecidableEq, Repr

namespace Cursor

/-- The number of bytes of the whole sequence. -/
def size (c : Cursor) : Nat :=
  c.data.length

/-- Whether the whole sequence is empty. -/
def isEmpty (c : Cursor) : Bool :=
  c.data.isEmpty

/-- The number of bytes from the cursor to the end. -/
def remaining (c : Cursor) : Except Fault Nat :=
  subSizes c.size c.offset

/-- Moves the cursor on, past the end if need be. -/
def advance (c : Cursor) (count : Nat) : Except Fault Cursor := do
  return { c with offset := ← addSizes c.offset count }

/-- Reads the next `len` bytes. -/
def read (c : Cursor) (len : Nat) : Except Fault (Except DecodeError (List UInt8) × Cursor) := do
  let stop ← addSizes c.offset len
  if stop ≤ c.size then
    return (.ok ((c.data.drop c.offset).take len), { c with offset := stop })
  else
    return (.error (.more len), c)

/-- Reads the next `count` bytes into an array. Copying needs as many bytes as the array has. -/
def readArray (c : Cursor) (count : Nat) :
    Except Fault (Except DecodeError (Vector UInt8 count) × Cursor) := do
  match ← c.read count with
  | (.error e, next) => return (.error e, next)
  | (.ok bytes, next) =>
    if h : bytes.toArray.size = count then return (.ok ⟨bytes.toArray, h⟩, next)
    else throw .outOfBounds

/-- Reads a word of four bytes. -/
def readWord (c : Cursor) (order : Endian) : Except Fault (Except DecodeError Word × Cursor) := do
  let (answer, next) ← c.readArray 4
  return (answer.map fun bytes => order.word bytes.toList, next)

end Cursor

end A64Disassembler
