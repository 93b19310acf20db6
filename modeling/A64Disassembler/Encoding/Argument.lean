import A64Disassembler.Encoding.Field
import A64Disassembler.Insn.Operand

/-!
# The arguments of the encodings

An argument describes one operand of an encoding: its kind and the fields it is made from.
-/

namespace A64Disassembler

/-- How an operand is made from fields. -/
inductive Arg
  /-- A plain register. -/
  | rn
  | rt
  | rt2
  | rm
  /-- The second source register, shifted by an amount below the given width. -/
  | shifted (shift : Shift) (width : Width)
  /-- An immediate of 16 bits. -/
  | imm16
  /-- An immediate of 16 bits at a multiple of 16 bits. -/
  | imm16Half
  /-- A distance in words. -/
  | distance19
  /-- A long distance in words. -/
  | distance26
  /-- An immediate of twelve bits, possibly shifted by twelve. -/
  | imm12
  /-- A distance in bytes or in pages. -/
  | distance21
  /-- A bitmask immediate as wide as the first operand. -/
  | bitmask
  /-- Memory at a base register plus a signed offset in bytes. -/
  | memOffset9
  /-- Memory at a base register plus an unsigned offset in units of the access. -/
  | memOffset12
  /-- Memory at a base register plus a signed offset in units of the access. -/
  | memOffset7
  deriving DecidableEq, Repr

namespace Arg

/-- The field that holds the amount of a shift of a register of the given width. -/
def amountField : Width → FieldName
  | .w32 => .amount5
  | .w64 => .amount6

/-- The fields that the argument reads. -/
def fields : Arg → List FieldName
  | rn => [.rn]
  | rt => [.rt]
  | rt2 => [.rt2]
  | rm => [.rm]
  | shifted _ width => [.rm, amountField width]
  | imm16 => [.imm16]
  | imm16Half => [.imm16, .half]
  | distance19 => [.imm19]
  | distance26 => [.imm26]
  | imm12 => [.imm13]
  | distance21 => [.imm19, .imm2]
  | bitmask => [.maskN, .maskS, .maskR]
  | memOffset9 => [.rn, .offset9]
  | memOffset12 => [.rn, .offset12]
  | memOffset7 => [.rn, .offset7]

/-- The name of the argument in messages. -/
def text : Arg → String
  | rn => "rn"
  | rt => "rt"
  | rt2 => "rt2"
  | rm => "rm"
  | shifted shift .w32 => "rm_" ++ shift.name ++ "_i5"
  | shifted shift .w64 => "rm_" ++ shift.name ++ "_i6"
  | imm16 => "i16_5"
  | imm16Half => "i16_5_hw"
  | distance19 => "i19_5"
  | distance26 => "i26_0"
  | imm12 => "i12_10_s1"
  | distance21 => "i19_5_2_29"
  | bitmask => "bitmask_imm"
  | memOffset9 => "m_rn_s9"
  | memOffset12 => "m_rn_u12"
  | memOffset7 => "m_rn_s7"

/-- All arguments. -/
def all : List Arg :=
  [rn, rt, rt2, rm, shifted .lsl .w64, shifted .lsr .w64, shifted .asr .w64, shifted .lsl .w32,
    shifted .lsr .w32, shifted .asr .w32, imm16, imm16Half, distance19, distance26, imm12,
    distance21, bitmask, memOffset9, memOffset12, memOffset7]

/-- The argument with the given name. -/
def ofText? (name : String) : Option Arg :=
  all.find? fun a => a.text == name

/-- Whether the operand is a plain register. -/
def isReg : Arg → Bool
  | rn | rt | rt2 | rm => true
  | _ => false

/-- Whether the operand is an immediate. -/
def isImm : Arg → Bool
  | imm16 | imm16Half | distance19 | distance26 | imm12 | distance21 | bitmask => true
  | _ => false

end Arg

end A64Disassembler
