import A64Disassembler.Expr.Basic
import A64Disassembler.Insn.Register

/-!
# Operands

An operand is a register, a shifted register, an immediate value or a reference to memory. It
may be left out of the printed instruction, and an immediate may be marked as an address.
-/

namespace A64Disassembler

/-- How a register operand is shifted. -/
inductive Shift
  | lsl
  | lsr
  | asr
  deriving DecidableEq, Repr

/-- The name of the shift. -/
def Shift.name : Shift → String
  | lsl => "lsl"
  | lsr => "lsr"
  | asr => "asr"

/-- Whether an access changes its base register, before or after the access. -/
inductive Increment
  | none
  | pre
  | post
  deriving DecidableEq, Repr, Inhabited

/-- A reference to `size` bytes of memory. -/
structure MemRef where
  base : Reg
  index : Option Reg := none
  /-- The factor of the index register, a power of two. -/
  scale : Option UInt8 := none
  offset : Expr
  size : UInt8
  increment : Increment := .none
  deriving DecidableEq, Repr

/-- What an operand is. -/
inductive OperandKind
  | reg (reg : Reg)
  | shifted (reg : Reg) (shift : Shift) (amount : UInt8)
  | imm (value : Expr)
  | mem (ref : MemRef)
  deriving DecidableEq, Repr

/-- An operand of an instruction. -/
structure Operand where
  kind : OperandKind
  /-- The operand is not printed. -/
  isHidden : Bool := false
  /-- The operand is an address. -/
  isAddress : Bool := false
  deriving DecidableEq, Repr

namespace Operand

/-- A register operand. -/
def reg (r : Reg) : Operand :=
  { kind := .reg r }

/-- An immediate operand. -/
def imm (value : Expr) : Operand :=
  { kind := .imm value }

/-- The register of a plain register operand. -/
def reg? (o : Operand) : Option Reg :=
  match o.kind with
  | .reg r => some r
  | _ => none

/-- The value of an immediate operand. -/
def imm? (o : Operand) : Option Expr :=
  match o.kind with
  | .imm value => some value
  | _ => none

end Operand

/-- The number of zero bits below the lowest one bit; all eight bits of zero. -/
def trailingZeros (n : UInt8) : Nat :=
  ((List.range 8).takeWhile fun i => !n.toNat.testBit i).length

end A64Disassembler
