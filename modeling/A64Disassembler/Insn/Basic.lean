import A64Disassembler.Bits.Flags
import A64Disassembler.Insn.Operand

/-!
# Instructions

A decoded instruction refers to the spec that it matched by the position of the spec in the
opcode table. Its flags say how it takes part in control flow.
-/

namespace A64Disassembler

/-- A decoded instruction. -/
structure Insn where
  /-- The position of the matched spec, none before anything is decoded. -/
  opcode : Option Nat := none
  raw : Word := 0
  address : Address := 0
  length : Nat := 0
  flags : Flags := {}
  operands : List Operand := []
  deriving DecidableEq, Repr

namespace Insn

/-- The flag of instructions that may continue somewhere else. -/
def branch : BitVec 32 := 1

/-- The flag of instructions that leave a return address behind. -/
def call : BitVec 32 := 2

/-- The flag of instructions after which the next one is not reached. -/
def stop : BitVec 32 := 4

/-- No instruction. -/
def blank : Insn := {}

/-- Whether the instruction matched a spec. -/
def isValid (i : Insn) : Bool :=
  i.opcode.isSome

/-- Whether the instruction takes up no bytes. -/
def isEmpty (i : Insn) : Bool :=
  i.length == 0

/-- The address after the instruction. The last one of the address space is followed by the
first. -/
def nextAddress (i : Insn) : Address :=
  i.address + BitVec.ofNat 64 i.length

/-- The operands that are printed. -/
def printedOperands (i : Insn) : List Operand :=
  i.operands.filter fun o => !o.isHidden

end Insn

end A64Disassembler
