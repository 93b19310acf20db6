import A64Disassembler.Host.Container.Image

/-!
# ELF files

The header leads to a table of sections. One section holds the names of all others, and two may
be tables of symbols, one of them for dynamic linking. All of these tables have to lie inside the
file; the content of a section is not looked at before it is needed.
-/

namespace A64Disassembler.Host.Container.Elf

/-- How numbers are laid out. -/
structure Layout where
  is64 : Bool
  endian : Endian

namespace Layout

variable (l : Layout) (data : ByteArray)

/-- The number of `size` bytes at `offset`. -/
def int (offset size : Nat) : Option Nat :=
  number? data l.endian offset size

/-- An address, an offset or a size of the file. -/
def word (offset : Nat) : Option Nat :=
  l.int data offset (if l.is64 then 8 else 4)

/-- One of two offsets, for files of 32 and of 64 bits. -/
def pick (narrow wide : Nat) : Nat :=
  if l.is64 then wide else narrow

end Layout

/-- The header of a section. -/
structure SectionHeader where
  name : Nat
  type : Nat
  flags : Nat
  address : Nat
  offset : Nat
  size : Nat
  link : Nat
  info : Nat
  deriving Repr

/-- The type of a section whose content is up to the program. -/
def programBits : Nat := 1

/-- The type of a table of symbols. -/
def symbolTable : Nat := 2

/-- The type of a section that holds texts. -/
def stringTable : Nat := 3

/-- The type of a section without content in the file. -/
def noBits : Nat := 8

/-- The type of a table of symbols for dynamic linking. -/
def dynamicTable : Nat := 11

/-- The type of a section that extends a table of symbols by indices of sections. -/
def symbolIndices : Nat := 18

/-- The types of tables of relocations, with addends and without. -/
def relocationTypes : List Nat := [4, 9]

/-- A number that stands for one that does not fit in two bytes. -/
def extended : Nat := 0xffff

/-- The layout that the identification at the start of the file describes. -/
def layout? (data : ByteArray) : Option Layout := do
  let wordClass ← number? data .little 4 1
  let order ← number? data .little 5 1
  let version ← number? data .little 6 1
  let endian ← if order = 1 then some Endian.little else if order = 2 then some .big else none
  if version = 1 then
    if wordClass = 1 then some ⟨false, endian⟩
    else if wordClass = 2 then some ⟨true, endian⟩
    else none
  else none

/-- Reads the header of a section. -/
def sectionHeader? (l : Layout) (r : ByteArray) : Option SectionHeader := do
  return {
    name := ← l.int r 0 4
    type := ← l.int r 4 4
    flags := ← l.word r 8
    address := ← l.word r (l.pick 12 16)
    offset := ← l.word r (l.pick 16 24)
    size := ← l.word r (l.pick 20 32)
    link := ← l.int r (l.pick 24 40) 4
    info := ← l.int r (l.pick 28 44) 4 }

/-- The header of the first section, which holds numbers that do not fit in the file header. -/
def firstHeader? (l : Layout) (data : ByteArray) : Option SectionHeader := do
  let offset ← l.word data (l.pick 32 40)
  let entrySize ← l.int data (l.pick 46 58) 2
  if offset ≠ 0 ∧ entrySize = l.pick 40 64 then sectionHeader? l (← slice? data offset entrySize)
  else none

/-- The table of program headers is not used, but has to lie inside the file. -/
def checkPrograms (l : Layout) (data : ByteArray) : Option Unit := do
  let offset ← l.word data (l.pick 28 32)
  let entrySize ← l.int data (l.pick 42 54) 2
  let count ← l.int data (l.pick 44 56) 2
  if offset = 0 then some ()
  else
    let count ←
      if count = extended then (firstHeader? l data).map SectionHeader.info else some count
    if count = 0 then some ()
    else if entrySize = l.pick 32 56 then
      (slice? data offset (count * entrySize)).map fun _ => ()
    else none

/-- The headers of all sections. -/
def sectionHeaders? (l : Layout) (data : ByteArray) : Option (List SectionHeader) := do
  let offset ← l.word data (l.pick 32 40)
  let count ← l.int data (l.pick 48 60) 2
  if offset = 0 then return []
  else
    let first ← firstHeader? l data
    let count := if count = 0 then first.size else count
    (← records? data offset count (l.pick 40 64)).mapM (sectionHeader? l)

namespace SectionHeader

variable (h : SectionHeader) (data : ByteArray)

/-- The content of a section. -/
def content? : Option ByteArray :=
  if h.type = noBits then some .empty else slice? data h.offset h.size

/-- The section as a part of a file that holds texts. -/
def strings? : Option Strings :=
  if h.type = noBits then some .empty
  else if h.offset + h.size < sizeLimit then some ⟨data, h.offset, h.offset + h.size⟩
  else none

/-- What a section is for, by its type and flags: allocated and executable program bits are
instructions. -/
def kind : SectionKind :=
  if h.type = programBits ∧ h.flags.testBit 1 ∧ h.flags.testBit 2 then .text
  else if h.type = noBits then if h.flags.testBit 10 then .threadLocal else .uninitialized
  else .other

/-- Whether a section is a table of relocations. -/
def isRelocations : Bool :=
  relocationTypes.contains h.type

/-- The section of a header. -/
def toSection (names : Strings) : Section where
  name := names.get? h.name
  address := BitVec.ofNat 64 h.address
  kind := h.kind
  content := h.content? data

end SectionHeader

/-- The names of the sections. -/
def sectionNames? (l : Layout) (data : ByteArray) (headers : List SectionHeader) :
    Option Strings := do
  let index ← l.int data (l.pick 50 62) 2
  match headers with
  | [] => return .empty
  | first :: _ =>
    let index := if index = extended then first.link else index
    if index = 0 then none else (← headers[index]?).strings? data

/-- The sections. The first one is reserved. -/
def sections (data : ByteArray) (names : Strings) : List SectionHeader → List Section
  | [] => []
  | first :: rest =>
    { first.toSection data names with isReserved := true } ::
      rest.map fun h => h.toSection data names

/-- A table of symbols. -/
structure SymbolTable where
  /-- The index of the section, 0 if there is no such table. -/
  index : Nat := 0
  records : List ByteArray := []
  /-- The names of the symbols. -/
  names : Strings := .empty

/-- The names in the section that a table of symbols is linked to. -/
def symbolNames? (data : ByteArray) (headers : List SectionHeader) (link : Nat) :
    Option Strings := do
  if link = 0 then return .empty
  else
    let h ← headers[link]?
    if h.type = stringTable then h.strings? data else none

/-- The first table of symbols of the given type. It consists of whole records, and what extends
it, of whole numbers. -/
def SymbolTable.first? (l : Layout) (data : ByteArray) (headers : List SectionHeader)
    (type : Nat) : Option SymbolTable :=
  match headers.findIdx? fun h => h.type = type with
  | none => some {}
  | some index => do
    let h ← headers[index]?
    let content ← h.content? data
    let names ← symbolNames? data headers h.link
    let size := l.pick 16 24
    let isExtensionWhole (x : SectionHeader) : Bool :=
      (x.content? data).any fun indices => indices.size % 4 = 0
    let extensions := headers.filter fun x => x.type = symbolIndices ∧ x.link = index
    if content.size % size = 0 ∧ extensions.all isExtensionWhole then
      return { index, records := ← records? content 0 (content.size / size) size, names }
    else none

/-- Relocations are not used, but a table of them that is linked to the table of symbols at `index`
has to be for a section that exists and is no such table itself. -/
def checkRelocations (headers : List SectionHeader) (index : Nat) : Option Unit :=
  let isForSection (h : SectionHeader) : Bool :=
    h.info = 0 || (headers[h.info]?).any fun target => !target.isRelocations
  if (headers.filter fun h => h.isRelocations && h.link = index).all isForSection then some ()
  else none

/-- The scope of a symbol, by its binding and its visibility. -/
def scopeOf (binding visibility : Nat) : Scope :=
  if binding = 0 then .compilation
  else if binding = 1 ∨ binding = 2 then if visibility = 2 then .linkage else .dynamic
  else .unknown

/-- The symbol of a record, if it is defined in the file and names a function or an object, or
has no type but a size. -/
def definition? (l : Layout) (names : Strings) (r : ByteArray) : Option Definition := do
  let name ← l.int r 0 4
  let info ← l.int r (l.pick 12 4) 1
  let other ← l.int r (l.pick 13 5) 1
  let holder ← l.int r (l.pick 14 6) 2
  let value ← l.word r (l.pick 4 8)
  let size ← l.word r (l.pick 8 16)
  let isDefined := 0 < holder ∧ (holder < 0xff00 ∨ holder = extended)
  let type := info % 16
  if isDefined ∧ (type = 1 ∨ type = 2 ∨ (type = 0 ∧ size ≠ 0)) then
    return {
      symbol := { address := BitVec.ofNat 64 value, name := ← names.get? name }
      isTyped := type ≠ 0
      scope := scopeOf (info / 16) (other % 4) }
  else none

/-- The symbols of a table, whose first record is reserved. -/
def SymbolTable.symbols (t : SymbolTable) (l : Layout) : List Symbol :=
  Definition.symbols (t.records.tail.filterMap (definition? l t.names))

/-- Reads an ELF file. The symbols for dynamic linking count only if there are no others. -/
def read? (data : ByteArray) : Option Image := do
  let l ← layout? data
  let _ ← slice? data 0 (l.pick 52 64)
  let machine ← l.int data 18 2
  checkPrograms l data
  let headers ← sectionHeaders? l data
  let names ← sectionNames? l data headers
  let table ← SymbolTable.first? l data headers symbolTable
  let dynamic ← SymbolTable.first? l data headers dynamicTable
  checkRelocations headers table.index
  return {
    format := .elf
    is64 := l.is64
    endian := l.endian
    isA64 := machine = 183
    sections := sections data names headers
    symbols := (if table.records.isEmpty then dynamic else table).symbols l }

end A64Disassembler.Host.Container.Elf
