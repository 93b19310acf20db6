import A64Disassembler.TestFile.Reader

/-!
# The memory that a test file describes

The bytes of all tests are laid out at their addresses, relative to the first one. Gaps are
filled with zeroes; a test must not start before the end of the one before it.
-/

namespace A64Disassembler.TestFile

/-- A sequence of bytes is shorter than this bound, half of `sizeLimit`. -/
def dataLimit : Nat := 0x8000000000000000

/-- The number of zeroes between the `filled` bytes from `base` on and a test, unless the test
starts before the end of those bytes. The bytes up to the end of the test must be a sequence. -/
def gapBefore (base : Address) (filled : Nat) (t : Test) : Except Fault (Option Nat) :=
  let offset := (t.address - base).toNat
  if base ≤ t.address ∧ filled ≤ offset then
    if offset + t.bytes.length < dataLimit then .ok (some (offset - filled)) else .error .overflow
  else .ok none

/-- The bytes of tests and of the gaps before them, behind the `filled` bytes from `base` on. -/
def placeAll (file : String) (base : Address) (filled : Nat) :
    List Test → Except Fault (Except Error (List UInt8))
  | [] => .ok (.ok [])
  | t :: rest => do
    match ← gapBefore base filled t with
    | none => return .error { file, line := t.line, problem := .backwards t.address }
    | some gap =>
      let later ← placeAll file base (filled + gap + t.bytes.length) rest
      return later.map fun data => List.replicate gap 0 ++ t.bytes ++ data

/-- The address of the first test and the bytes from there on. -/
def layout (file : String) (text : List Char) :
    Except Fault (Except Error (Address × List UInt8)) := do
  let (tests, last) := tests file text
  let base := (tests.head?.map Test.address).getD 0
  match ← placeAll file base 0 tests with
  | .error e => return .error e
  | .ok data =>
    match ← last with
    | .error e => return .error e
    | .ok () => return .ok (base, data)

end A64Disassembler.TestFile
