import A64Disassembler.Bits.Flags
import A64Disassembler.Encoding.Argument

/-!
# Opcode specs

A spec describes one encoding: its mnemonic, its bits, its arguments and the fields they are
read from. The bits outside of all fields are fixed; a word matches the spec if it agrees with
the spec in them.
-/

namespace A64Disassembler

namespace Feature

/-- Registers and accesses have 32 bits. -/
def narrow : BitVec 32 := 1

/-- Register number 31 is the zero register. -/
def zero31 : BitVec 32 := 2

/-- The last operand is the address of the next instruction, if a condition holds. -/
def branch : BitVec 32 := 4

/-- The following instruction is not reached. -/
def stop : BitVec 32 := 8

/-- The return address is saved. -/
def call : BitVec 32 := 16

/-- The last operand is a distance from the instruction. -/
def relative : BitVec 32 := 32

/-- The last operand is a distance in pages from the page of the instruction. -/
def pageRelative : BitVec 32 := 64

/-- Register number 31 as the first source is the zero register. -/
def zeroSource31 : BitVec 32 := 128

/-- The features that turn the last operand into an address. -/
def fixups : BitVec 32 := branch ||| relative ||| pageRelative

end Feature

/-- The description of an encoding. -/
structure Spec where
  name : String
  bits : Word
  fields : List FieldName
  args : List Arg
  features : Flags := {}
  /-- The number of bytes of a memory access, if it differs from the register width. -/
  accessSize : Option UInt8 := none
  increment : Increment := .none
  deriving DecidableEq, Repr

namespace Spec

/-- `fields` followed by those of `more` that are not in it yet. -/
def addFields (fields more : List FieldName) : List FieldName :=
  more.foldl (fun seen f => if f ∈ seen then seen else seen ++ [f]) fields

/-- The fields that `args` read, each once, in the order of their first use. -/
def fieldsOf (args : List Arg) : List FieldName :=
  addFields [] (args.flatMap Arg.fields)

/-- A spec whose fields are those that its arguments read. -/
def ofArgs (name : String) (bits : Word) (args : List Arg) (features : BitVec 32) : Spec :=
  { name, bits, fields := fieldsOf args, args, features := ⟨features⟩ }

/-- Whether the spec has one of the given features. -/
def has (s : Spec) (features : BitVec 32) : Bool :=
  s.features.any features

/-- The bits of all fields. -/
def fieldMask (s : Spec) : Word :=
  s.fields.foldl (fun mask f => mask ||| f.bits.mask) 0

/-- The fixed bits. -/
def fixedMask (s : Spec) : Word :=
  ~~~s.fieldMask

/-- The bits of the spec with all fields zero. -/
def skeleton (s : Spec) : Word :=
  s.bits &&& s.fixedMask

/-- Whether `word` agrees with the spec in the fixed bits. -/
def accepts (s : Spec) (word : Word) : Bool :=
  s.bits &&& s.fixedMask == word &&& s.fixedMask

/-- The width of the registers. -/
def regWidth (s : Spec) : Width :=
  if s.has Feature.narrow then .w32 else .w64

/-- The number of bytes of a memory access. -/
def memSize (s : Spec) : UInt8 :=
  s.accessSize.getD (if s.has Feature.narrow then 4 else 8)

end Spec

end A64Disassembler
