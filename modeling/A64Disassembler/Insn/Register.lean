import A64Disassembler.Fault

/-!
# Registers

Register number 31 means the stack pointer in some operands and the zero register in others,
so the two are kept apart here. A register is used in its full width of 64 bits or with its low
32 bits; as a part of the machine state it always goes by its 64-bit name.
-/

namespace A64Disassembler

/-- How much of a register is used. -/
inductive Width
  | w32
  | w64
  deriving DecidableEq, Repr, Inhabited

/-- The number of bits. -/
def Width.bits : Width → Nat
  | w32 => 32
  | w64 => 64

/-- A register whatever its width. -/
inductive RegName
  /-- One of the 31 general registers. -/
  | general (number : Fin 31)
  /-- The stack pointer. -/
  | sp
  /-- The register that is always zero. -/
  | zero
  deriving DecidableEq, Repr

namespace RegName

/-- The place of the register in a numbering of all of them. -/
def index : RegName → Nat
  | general n => n
  | sp => 31
  | zero => 32

/-- The register at a place in the numbering. -/
def ofIndex? (index : Nat) : Option RegName :=
  if h : index < 31 then some (general ⟨index, h⟩)
  else if index = 31 then some sp
  else if index = 32 then some zero
  else none

/-- The register that a five-bit number stands for. Number 31 is the zero register if
`zero31` holds, and the stack pointer otherwise. -/
def ofNumber (number : Nat) (zero31 : Bool) : RegName :=
  if h : number < 31 then general ⟨number, h⟩ else if zero31 then zero else sp

/-- The name of all 64 bits. -/
def name64 : RegName → String
  | general n => "x" ++ Nat.repr n
  | sp => "sp"
  | zero => "xzr"

/-- The name of the low 32 bits. -/
def name32 : RegName → String
  | general n => "w" ++ Nat.repr n
  | sp => "wsp"
  | zero => "wzr"

end RegName

/-- A register as an operand uses it. -/
structure Reg where
  name : RegName
  width : Width
  deriving DecidableEq, Repr

namespace Reg

/-- The register with the given index and number of bits, if there is one. -/
def ofNumbers (index bits : Nat) : Except Fault Reg :=
  match RegName.ofIndex? index with
  | some name =>
    if bits = 32 then .ok ⟨name, .w32⟩
    else if bits = 64 then .ok ⟨name, .w64⟩
    else .error .invalid
  | none => .error .invalid

/-- Whether this is the zero register. -/
def isZero (r : Reg) : Bool :=
  r.name == .zero

/-- Whether this is the stack pointer. -/
def isStackPointer (r : Reg) : Bool :=
  r.name == .sp

/-- The name of the register in its width. -/
def text (r : Reg) : String :=
  match r.width with
  | .w32 => r.name.name32
  | .w64 => r.name.name64

end Reg

end A64Disassembler
