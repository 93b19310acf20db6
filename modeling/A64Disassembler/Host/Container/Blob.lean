import A64Disassembler.Cursor

/-!
# Structured data in a file

The parts of an object file are numbers, names and tables at given offsets. Reading one fails if
it does not lie inside the file.
-/

namespace A64Disassembler.Host.Container

/-- The `size` bytes at `offset`. -/
def slice? (data : ByteArray) (offset size : Nat) : Option ByteArray :=
  if offset + size ≤ data.size then some (data.extract offset (offset + size)) else none

/-- The unsigned number in the `size` bytes at `offset`. -/
def number? (data : ByteArray) (order : Endian) (offset size : Nat) : Option Nat := do
  let bytes := (← slice? data offset size).toList
  let significant := match order with
    | .little => bytes.reverse
    | .big => bytes
  return significant.foldl (fun value byte => value * 256 + byte.toNat) 0

/-- The `count` records of `size` bytes each at `offset`. -/
def records? (data : ByteArray) (offset count size : Nat) : Option (List ByteArray) := do
  let table ← slice? data offset (count * size)
  return (List.range count).map fun i => table.extract (i * size) (i * size + size)

/-- The text of bytes up to the first zero byte, if it is well formed. -/
def nameOf? (bytes : ByteArray) : Option String :=
  String.fromUTF8? (bytes.toList.takeWhile (· ≠ 0)).toByteArray

/-- A part of a file that holds texts, each of which ends with a zero byte. -/
structure Strings where
  data : ByteArray
  start : Nat
  stop : Nat

/-- No texts. -/
def Strings.empty : Strings where
  data := .empty
  start := 0
  stop := 0

/-- The text at an offset. -/
def Strings.get? (s : Strings) (offset : Nat) : Option String :=
  let part := s.data.extract (s.start + offset) s.stop
  if s.start + offset ≤ s.stop ∧ s.stop ≤ s.data.size ∧ part.toList.contains 0 then nameOf? part
  else none

end A64Disassembler.Host.Container
