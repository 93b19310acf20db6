import A64Disassembler.Host.Container.Blob
import A64Disassembler.Object.File

/-!
# Images of object files

An image has the sections and symbols that were read from an object file of some format. How a
section is found by its name, and which of several symbols at one address counts, does not depend
on how the file was read.
-/

namespace A64Disassembler.Host.Container

open Object (Format)

/-- What a section is for. -/
inductive SectionKind
  /-- Instructions. -/
  | text
  /-- Data that all threads share. -/
  | data
  /-- Data of which every thread has its own. -/
  | threadLocal
  /-- Memory without an initial content. -/
  | uninitialized
  /-- Anything else. -/
  | other
  deriving DecidableEq, Repr

/-- A section of an object file. -/
structure Section where
  /-- The name, if it can be read. -/
  name : Option String
  address : Address
  kind : SectionKind
  /-- The content, if it lies inside the file. -/
  content : Option ByteArray
  /-- Whether the section only holds a place. It is found by its name, but not listed. -/
  isReserved : Bool := false

/-- An object file. -/
structure Image where
  format : Format
  /-- Whether addresses have 64 bits. -/
  is64 : Bool
  endian : Endian
  /-- Whether the instructions are those that the disassembler knows. -/
  isA64 : Bool
  sections : List Section
  /-- The symbols in ascending order of their addresses, which are distinct. -/
  symbols : List Symbol

/-- Whether `asked` means a section with the given name. Where section names start with two
underscores and have room for 14 more bytes, a name that starts with a dot does, too. -/
def finds (f : Format) (asked name : String) : Bool :=
  asked == name ||
    (f == .machO && match asked.toUTF8.toList, name.toUTF8.toList with
      | 0x2e :: a, 0x5f :: 0x5f :: n => a.take 14 == n
      | _, _ => false)

/-- The name of the compressed form of a debugging section. -/
def compressedName? (f : Format) (asked : String) : Option String :=
  if (f == .elf || f == .machO) && asked.startsWith ".debug_" then
    some (".z" ++ String.ofList (asked.toList.drop 1))
  else none

/-- A part of a file that may be missing or broken. -/
def orMalformed {α : Type} : Option α → Except String α
  | some a => .ok a
  | none => .error "malformed file"

/-- What a section is for, as far as it is of use. -/
def SectionKind.toKind : SectionKind → Object.SectionKind
  | text => .text
  | uninitialized => .uninitialized
  | data | threadLocal | other => .other

/-- A section as it is listed. -/
def Section.toSection (s : Section) : Object.Section where
  name := orMalformed s.name
  address := s.address
  kind := s.kind.toKind
  content := orMalformed s.content

namespace Image

variable (i : Image)

/-- The first section that is meant by a name. -/
def sectionNamed? (name : String) : Option Section :=
  i.sections.find? fun s => s.name.any (finds i.format name)

/-- The section to show for a name. A compressed debugging section stands in for one that does
not exist. -/
def findSection? (name : String) : Option Section :=
  (i.sectionNamed? name).or ((compressedName? i.format name).bind i.sectionNamed?)

/-- The image as an object file. -/
def toFile : Object.File where
  format := i.format
  is64 := i.is64
  endian := i.endian
  architecture := if i.isA64 then .aarch64 else .other
  sections := (i.sections.filter fun s => !s.isReserved).map Section.toSection
  sectionNamed? name := (i.findSection? name).map Section.toSection
  symbols := i.symbols

end Image

/-- Where a symbol can be used. -/
inductive Scope
  /-- In every file that is loaded. -/
  | dynamic
  /-- In all that is linked to one file. -/
  | linkage
  /-- In the object that defines it. -/
  | compilation
  | unknown
  deriving DecidableEq, Repr

/-- The place of a scope in the order from the widest to the narrowest. -/
def Scope.rank : Scope → Nat
  | dynamic => 0
  | linkage => 1
  | compilation => 2
  | unknown => 3

/-- A symbol with what decides between several symbols at one address. -/
structure Definition where
  symbol : Symbol
  /-- Whether it is known to be the name of instructions or data. -/
  isTyped : Bool
  scope : Scope
  deriving DecidableEq, Repr

namespace Definition

/-- Of two symbols at one address, the one of lower rank is kept. -/
def rank (d : Definition) : Nat :=
  d.scope.rank + if d.isTyped then 0 else 2

/-- Whether `a` comes before `b`: at a lower address, or at the same address with a rank that is
no higher. -/
def precedes (a b : Definition) : Bool :=
  a.symbol.address < b.symbol.address ||
    (a.symbol.address == b.symbol.address && a.rank ≤ b.rank)

/-- The first symbol at each address other than the previous one. -/
def firstAtEach (previous : Address) : List Definition → List Symbol
  | [] => []
  | d :: rest =>
    if d.symbol.address = previous then firstAtEach previous rest
    else d.symbol :: firstAtEach d.symbol.address rest

/-- The symbols that definitions amount to, in ascending order of their addresses. No address
has two symbols, and the highest one has none. Of symbols of the same rank,
the one defined last is kept. A definition without a name is left out. -/
def symbols (definitions : List Definition) : List Symbol :=
  let named := definitions.filter fun d => !d.symbol.name.isEmpty
  firstAtEach (-1) (named.reverse.mergeSort precedes)

end Definition

end A64Disassembler.Host.Container
