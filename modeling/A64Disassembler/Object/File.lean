import A64Disassembler.Cursor
import A64Disassembler.Text.Markup

/-!
# Object files

An object file consists of sections and symbols. How a file is recognised and read is up to a
library, which gives for each file what is needed of it; what it refuses comes with a message.
-/

namespace A64Disassembler.Object

/-- A family of file formats. -/
inductive Format
  | elf
  | machO
  | pe
  | coff
  | other
  deriving DecidableEq, Repr

/-- The machine that instructions are for. -/
inductive Architecture
  | aarch64
  /-- The same instructions with addresses of 32 bits. -/
  | aarch64Ilp32
  | other
  deriving DecidableEq, Repr

/-- What a section is for. -/
inductive SectionKind
  /-- Instructions. -/
  | text
  /-- Memory without an initial content. -/
  | uninitialized
  | other
  deriving DecidableEq, Repr

/-- A section of an object file. -/
structure Section where
  name : Except String String
  address : Address
  kind : SectionKind
  content : Except String ByteArray

/-- An object file. -/
structure File where
  format : Format
  /-- Whether addresses have 64 bits. -/
  is64 : Bool
  endian : Endian
  architecture : Architecture
  /-- The sections, in the order of the file. -/
  sections : List Section
  /-- The section that is meant by a name. -/
  sectionNamed? : String → Option Section
  symbols : List Symbol

/-- What a file is, by its first bytes. -/
inductive FileKind
  /-- Files for several machines in one, with offsets of 32 or 64 bits. -/
  | fat (is64 : Bool)
  | single
  deriving DecidableEq, Repr

/-- A file in a fat file. -/
structure Slice where
  architecture : Architecture
  content : Except String ByteArray

/-- A library that reads object files. -/
structure Library where
  /-- What a file is, if it is known. -/
  kind? : ByteArray → Option FileKind
  /-- The files in a fat file, with offsets of 32 or 64 bits. -/
  slices : (is64 : Bool) → ByteArray → Except String (List Slice)
  /-- The object file with the given content. -/
  file : ByteArray → Except String File

end A64Disassembler.Object
