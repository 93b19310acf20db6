import A64Disassembler.Host.Container.Coff
import A64Disassembler.Host.Container.Elf
import A64Disassembler.Host.Container.MachO

/-!
# Recognising the format of a file

The format of a file is told by its first bytes. A file without a known start is a sequence of
instruction words, and so is a file that is too short for any format.
-/

namespace A64Disassembler.Host.Container

/-- The kind of a file by its first bytes. -/
inductive Signature
  | elf
  | machO
  | fat (is64 : Bool)
  | pe
  | coff
  /-- A COFF file with a large header. -/
  | largeCoff
  /-- A collection of files, a file that only tells of another one, or one for machines of another
  kind. -/
  | unread
  deriving DecidableEq, Repr

/-- Recognises the start of a file. An executable for an old system is known only if it leads
to a newer one. -/
def signature? (data : ByteArray) : Option Signature :=
  if data.size < 16 then none
  else match (data.extract 0 8).toList with
    | [0x21, 0x3c, 0x61, 0x72, 0x63, 0x68, 0x3e, 0x0a] => some .unread
    | [0x21, 0x3c, 0x74, 0x68, 0x69, 0x6e, 0x3e, 0x0a] => some .unread
    | [0x64, 0x79, 0x6c, 0x64, 0x5f, 0x76, 0x31, 0x20] => some .unread
    | 0x00 :: 0x00 :: 0xff :: 0xff :: 0x00 :: 0x00 :: _ => some .unread
    | 0x00 :: 0x00 :: 0xff :: 0xff :: 0x02 :: 0x00 :: _ =>
      if Coff.isLarge data then some .largeCoff else none
    | 0x7f :: 0x45 :: 0x4c :: 0x46 :: 1 :: _ => some .elf
    | 0x7f :: 0x45 :: 0x4c :: 0x46 :: 2 :: _ => some .elf
    | 0xfe :: 0xed :: 0xfa :: 0xce :: _ => some .machO
    | 0xce :: 0xfa :: 0xed :: 0xfe :: _ => some .machO
    | 0xfe :: 0xed :: 0xfa :: 0xcf :: _ => some .machO
    | 0xcf :: 0xfa :: 0xed :: 0xfe :: _ => some .machO
    | 0xca :: 0xfe :: 0xba :: 0xbe :: _ => some (.fat false)
    | 0xca :: 0xfe :: 0xba :: 0xbf :: _ => some (.fat true)
    | 0x4d :: 0x5a :: _ =>
      match Coff.imageHeader? data with
      | some (_, magic) => if magic = 0x10b ∨ magic = 0x20b then some .pe else none
      | none => none
    | 0x64 :: 0xaa :: _ => some .coff
    | 0x64 :: 0x86 :: _ => some .coff
    | 0x4c :: 0x01 :: _ => some .coff
    | 0xc4 :: 0x01 :: _ => some .coff
    | 0x41 :: 0xa6 :: _ => some .coff
    | 0x01 :: 0xdf :: _ => some .unread
    | 0x01 :: 0xf7 :: _ => some .unread
    | _ => none

/-- Reads an object file that is not fat. -/
def read? (data : ByteArray) : Option Image :=
  match signature? data with
  | some .elf => Elf.read? data
  | some .machO => MachO.read? data
  | some .pe => Coff.readImage? data
  | some .coff => Coff.read? data
  | some .largeCoff => Coff.readLarge? data
  | some (.fat _) | some .unread | none => none

/-- A file in a fat file. -/
def MachO.Slice.toSlice (data : ByteArray) (s : MachO.Slice) : Object.Slice where
  architecture :=
    if s.machine = 0x0100000c then .aarch64
    else if s.machine = 0x0200000c then .aarch64Ilp32
    else .other
  content := orMalformed (slice? data s.offset s.size)

/-- The reader of all these formats. -/
def library : Object.Library where
  kind? data := (signature? data).map fun
    | .fat is64 => .fat is64
    | _ => .single
  slices is64 data := orMalformed ((MachO.slices? data is64).map (·.map (MachO.Slice.toSlice data)))
  file data := orMalformed ((read? data).map Image.toFile)

end A64Disassembler.Host.Container
