import A64Disassembler.Host.Container.Image

/-!
# COFF and PE files

A COFF file starts with a file header, after which the sections are listed. A PE file is an
executable: an old header leads to the file header, and the addresses of sections are relative
to the base of the image. Both formats are in little-endian order.
-/

namespace A64Disassembler.Host.Container.Coff

/-- The unsigned number of `size` bytes at `offset`. -/
def int (data : ByteArray) (offset size : Nat) : Option Nat :=
  number? data .little offset size

/-- Whether the instructions for a machine are those that the disassembler knows. -/
def isA64 (machine : Nat) : Bool :=
  machine == 0xaa64 || machine == 0xa641

/-- What a section is for, by its characteristics. -/
def kindOf (flags : Nat) : SectionKind :=
  if flags.testBit 5 || flags.testBit 29 then .text
  else if flags.testBit 6 then .other
  else if flags.testBit 7 then .uninitialized
  else .other

/-- The value of a decimal digit. -/
def decimalDigit? (c : UInt8) : Option Nat :=
  if 0x30 ≤ c ∧ c ≤ 0x39 then some (c.toNat - 0x30) else none

/-- The value of a digit to the base 64: capital letters, small letters, decimal digits, a plus
sign and a slash. -/
def base64Digit? (c : UInt8) : Option Nat :=
  if 0x41 ≤ c ∧ c ≤ 0x5a then some (c.toNat - 0x41)
  else if 0x61 ≤ c ∧ c ≤ 0x7a then some (c.toNat - 0x61 + 26)
  else if c = 0x2b then some 62
  else if c = 0x2f then some 63
  else (decimalDigit? c).map (· + 52)

/-- The number that digits stand for, the most significant one first. -/
def ofDigits? (base : Nat) (digit? : UInt8 → Option Nat) (digits : List UInt8) : Option Nat :=
  digits.foldlM (fun value c => do return value * base + (← digit? c)) 0

/-- The name of a section. A longer name stands among other names, and its offset is given after
a slash in decimal digits, or after two slashes to the base 64. -/
def sectionName? (names : Strings) (r : ByteArray) : Option String := do
  let field ← slice? r 0 8
  match field.toList with
  | 0x2f :: 0x2f :: digits =>
    let offset ← ofDigits? 64 base64Digit? digits
    if offset < 0x100000000 then names.get? offset else none
  | 0x2f :: digits => names.get? (← ofDigits? 10 decimalDigit? (digits.takeWhile (· ≠ 0)))
  | _ => nameOf? field

/-- A section of a COFF file. -/
def objectSection? (names : Strings) (data r : ByteArray) : Option Section := do
  let address ← int r 12 4
  let size ← int r 16 4
  let offset ← int r 20 4
  let flags ← int r 36 4
  return {
    name := sectionName? names r
    address := BitVec.ofNat 64 address
    kind := kindOf flags
    content := if flags.testBit 7 then some .empty else slice? data offset size }

/-- A section of a PE file: no more of it is in memory than in the file. -/
def imageSection? (names : Strings) (base : Nat) (data r : ByteArray) : Option Section := do
  let memorySize ← int r 8 4
  let address ← int r 12 4
  let size ← int r 16 4
  let offset ← int r 20 4
  let flags ← int r 36 4
  return {
    name := sectionName? names r
    address := BitVec.ofNat 64 (base + address)
    kind := kindOf flags
    content := slice? data offset (min memorySize size) }

/-- The names that follow a table of symbols. They start with their own size. -/
def strings? (data : ByteArray) (symbols count symbolSize : Nat) : Option Strings := do
  if symbols = 0 then return .empty
  else
    let table ← slice? data symbols (count * symbolSize)
    let start := symbols + table.size
    return ⟨data, start, start + (← int data start 4)⟩

/-- Reads a COFF file. -/
def read? (data : ByteArray) : Option Image := do
  let machine ← int data 0 2
  let count ← int data 2 2
  let symbols ← int data 8 4
  let symbolCount ← int data 12 4
  let optionalSize ← int data 16 2
  let _ ← slice? data 0 20
  let names ← strings? data symbols symbolCount 18
  let sections ← (← records? data (20 + optionalSize) count 40).mapM (objectSection? names data)
  return {
    format := .coff
    is64 := false
    endian := .little
    isA64 := isA64 machine
    sections
    symbols := [] }

/-- What tells a COFF file with a large header from other files of this start. -/
def largeClass : List UInt8 :=
  [0xc7, 0xa1, 0xba, 0xd1, 0xee, 0xba, 0xa9, 0x4b, 0xaf, 0x20, 0xfa, 0xf6, 0x6a, 0xa4, 0xdc, 0xb8]

/-- Whether a file is a COFF file with a large header, in view of its start. -/
def isLarge (data : ByteArray) : Bool :=
  (slice? data 0 32).any fun header => (header.extract 12 28).toList == largeClass

/-- Reads a COFF file with a large header, which has room for more sections. -/
def readLarge? (data : ByteArray) : Option Image := do
  let machine ← int data 6 2
  let count ← int data 44 4
  let symbols ← int data 48 4
  let symbolCount ← int data 52 4
  let _ ← slice? data 0 56
  let names ← strings? data symbols symbolCount 20
  let sections ← (← records? data 56 count 40).mapM (objectSection? names data)
  return {
    format := .coff
    is64 := false
    endian := .little
    isA64 := isA64 machine
    sections
    symbols := [] }

/-- The offset of the file header of a PE file, and the kind of its optional header. -/
def imageHeader? (data : ByteArray) : Option (Nat × Nat) := do
  let _ ← slice? data 0 64
  let offset ← int data 60 4
  let _ ← slice? data offset 120
  let signature ← int data offset 4
  let magic ← int data (offset + 24) 2
  if signature = 0x4550 then some (offset + 4, magic) else none

/-- Reads a PE file whose optional header is for 32 or 64 bits. Symbols are left over from
linking, so that a broken table of them does no harm. -/
def readImage? (data : ByteArray) : Option Image := do
  let (header, magic) ← imageHeader? data
  let is64 := magic = 0x20b
  let optional := header + 20
  let fixedSize := if is64 then 112 else 96
  let machine ← int data header 2
  let count ← int data (header + 2) 2
  let symbols ← int data (header + 8) 4
  let symbolCount ← int data (header + 12) 4
  let optionalSize ← int data (header + 16) 2
  let _ ← slice? data optional fixedSize
  let base ← if is64 then int data (optional + 24) 8 else int data (optional + 28) 4
  let directories ← int data (optional + fixedSize - 4) 4
  if optionalSize < fixedSize ∨ optionalSize - fixedSize < directories * 8 then none
  else
    let _ ← slice? data optional optionalSize
    let names := (strings? data symbols symbolCount 18).getD .empty
    let sections ←
      (← records? data (optional + optionalSize) count 40).mapM (imageSection? names base data)
    return {
      format := .pe
      is64
      endian := .little
      isA64 := isA64 machine
      sections
      symbols := [] }

end A64Disassembler.Host.Container.Coff
