import A64Disassembler.Host.Container.Image

/-!
# Mach-O files

The header is followed by commands. A segment command lists sections, and a symbol table command
tells where symbols and their names are. Commands that are cut off end the list. A fat file
holds several such files for different machines.
-/

namespace A64Disassembler.Host.Container.MachO

/-- The machines whose instructions are those that the disassembler knows. -/
def isA64 (machine : Nat) : Bool :=
  machine == 0x0100000c || machine == 0x0200000c

/-- How numbers are laid out. -/
structure Layout where
  is64 : Bool
  endian : Endian

namespace Layout

variable (l : Layout) (data : ByteArray)

/-- The number of four bytes at `offset`. -/
def int (offset : Nat) : Option Nat :=
  number? data l.endian offset 4

/-- An address or a size in memory. -/
def word (offset : Nat) : Option Nat :=
  number? data l.endian offset (if l.is64 then 8 else 4)

/-- One of two offsets, for files of 32 and of 64 bits. -/
def pick (narrow wide : Nat) : Nat :=
  if l.is64 then wide else narrow

end Layout

/-- The layout that the first number of the file stands for. -/
def layout? (data : ByteArray) : Option Layout := do
  match ← number? data .big 0 4 with
  | 0xfeedface => some ⟨false, .big⟩
  | 0xcefaedfe => some ⟨false, .little⟩
  | 0xfeedfacf => some ⟨true, .big⟩
  | 0xcffaedfe => some ⟨true, .little⟩
  | _ => none

/-- The commands with their numbers, up to the first that is cut off. -/
def commands (l : Layout) : (count : Nat) → ByteArray → List (Nat × ByteArray)
  | 0, _ => []
  | count + 1, data =>
    match l.int data 0, l.int data 4 with
    | some number, some size =>
      match slice? data 0 size with
      | some command =>
        if size < 8 then []
        else (number, command) :: commands l count (data.extract size data.size)
      | none => []
    | _, _ => []

/-- The number of the command for a segment. -/
def segmentCommand (l : Layout) : Nat :=
  if l.is64 then 0x19 else 1

/-- The number of the command for the symbol table. -/
def symbolCommand : Nat := 2

/-- The sections that are known to hold data, by the names of their segments and their own. -/
def dataSections : List (String × String) :=
  [("__TEXT", "__const"), ("__TEXT", "__cstring"), ("__TEXT", "__literal4"),
    ("__TEXT", "__literal8"), ("__TEXT", "__literal16"), ("__TEXT", "__eh_frame"),
    ("__TEXT", "__gcc_except_tab"), ("__DATA", "__data"), ("__DATA", "__const"),
    ("__DATA", "__common")]

/-- The sections with data of which every thread has its own. -/
def threadSections : List (String × String) :=
  [("__DATA", "__thread_data"), ("__DATA", "__thread_bss"), ("__DATA", "__thread_vars")]

/-- What a section is for, by the names of its segment and its own. -/
def kindOf (segment name : String) : SectionKind :=
  if (segment, name) = ("__TEXT", "__text") then .text
  else if (segment, name) = ("__DATA", "__bss") then .uninitialized
  else if dataSections.contains (segment, name) then .data
  else if threadSections.contains (segment, name) then .threadLocal
  else .other

/-- Whether a section of the given type has no content in the file. -/
def isZeroFilled (flags : Nat) : Bool :=
  [1, 12, 18].contains (flags % 256)

/-- A section of a segment. -/
def section? (l : Layout) (data r : ByteArray) : Option Section := do
  let name := nameOf? (← slice? r 0 16)
  let segment := nameOf? (← slice? r 16 16)
  let address ← l.word r 32
  let size ← l.word r (l.pick 36 40)
  let offset ← l.int r (l.pick 40 48)
  let flags ← l.int r (l.pick 56 64)
  return {
    name
    address := BitVec.ofNat 64 address
    kind := kindOf (segment.getD "") (name.getD "")
    content := if isZeroFilled flags then some .empty else slice? data offset size }

/-- The sections of a segment command. -/
def sections? (l : Layout) (data command : ByteArray) : Option (List Section) := do
  let _ ← slice? command 0 (l.pick 56 72)
  let count ← l.int command (l.pick 48 64)
  (← records? command (l.pick 56 72) count (l.pick 68 80)).mapM (section? l data)

/-- The scope of a symbol, by its type: it is external or not, and may be private. -/
def scopeOf (type : Nat) : Scope :=
  if type.testBit 0 then if type.testBit 4 then .linkage else .dynamic else .compilation

/-- The symbol of a record, if it is defined in a section whose data all threads share, and not
for debugging. -/
def definition? (l : Layout) (sections : List Section) (names : Strings) (r : ByteArray) :
    Option Definition := do
  let name ← l.int r 0
  let type ← number? r l.endian 4 1
  let holder ← number? r l.endian 5 1
  let value ← l.word r 8
  let found := if holder = 0 then none else sections[holder - 1]?
  let kind := (found.map Section.kind).getD .other
  if type / 32 = 0 ∧ type / 2 % 8 = 7 ∧ kind ≠ .threadLocal then
    return {
      symbol := { address := BitVec.ofNat 64 value, name := ← names.get? name }
      isTyped := kind ≠ .other
      scope := scopeOf type }
  else none

/-- The symbol records of a symbol table command, and where their names are. -/
def symbolRecords? (l : Layout) (data command : ByteArray) :
    Option (List ByteArray × Strings) := do
  let _ ← slice? command 0 24
  let offset ← l.int command 8
  let count ← l.int command 12
  let start ← l.int command 16
  let size ← l.int command 20
  return (← records? data offset count (l.pick 12 16), ⟨data, start, start + size⟩)

/-- Reads a Mach-O file. -/
def read? (data : ByteArray) : Option Image := do
  let l ← layout? data
  let headerSize := l.pick 28 32
  let _ ← slice? data 0 headerSize
  let machine ← l.int data 4
  let count ← l.int data 16
  let size ← l.int data 20
  let commands := ((slice? data headerSize size).map (commands l count)).getD []
  let sections ← (commands.filter fun c => c.1 = segmentCommand l).mapM fun c =>
    sections? l data c.2
  let sections := sections.flatten
  let tables ← (commands.filter fun c => c.1 = symbolCommand).mapM fun c =>
    symbolRecords? l data c.2
  let definitions := match tables.getLast? with
    | none => []
    | some (records, names) => records.filterMap (definition? l sections names)
  return {
    format := .machO
    is64 := l.is64
    endian := l.endian
    isA64 := isA64 machine
    sections
    symbols := Definition.symbols definitions }

/-- An entry of a fat file: the machine, the offset and the size of a file in it. -/
structure Slice where
  machine : Nat
  offset : Nat
  size : Nat
  deriving Repr

/-- The entries of a fat file, with offsets of four or eight bytes. -/
def slices? (data : ByteArray) (is64 : Bool) : Option (List Slice) := do
  let count ← number? data .big 4 4
  let width := if is64 then 8 else 4
  (← records? data 8 count (if is64 then 32 else 20)).mapM fun r => do
    return {
      machine := ← number? r .big 0 4
      offset := ← number? r .big 8 width
      size := ← number? r .big (8 + width) width }

end A64Disassembler.Host.Container.MachO
