import A64Disassembler.Bits.Field

/-!
# The fields of the encodings

Every variable part of an instruction word is one of the fields named here. Several names may
stand for the same bits where encodings use them differently.
-/

namespace A64Disassembler

/-- A named field of an instruction word. -/
inductive FieldName
  /-- The transfer or destination register. -/
  | rt
  /-- The first source or base register. -/
  | rn
  /-- The second transfer register or the addend. -/
  | rt2
  /-- The second source register. -/
  | rm
  /-- The shift amount of a 32-bit register. -/
  | amount5
  /-- The shift amount of a 64-bit register. -/
  | amount6
  /-- A wide immediate. -/
  | imm16
  /-- The place of a wide immediate, in units of 16 bits. -/
  | half
  /-- A distance in words. -/
  | imm19
  /-- A long distance in words. -/
  | imm26
  /-- An immediate of twelve bits with the bit that shifts it. -/
  | imm13
  /-- The low bits of a distance in bytes. -/
  | imm2
  /-- The part of a bitmask immediate that selects elements of 64 bits. -/
  | maskN
  /-- The number of one bits of a bitmask immediate, and its element size. -/
  | maskS
  /-- The rotation of a bitmask immediate. -/
  | maskR
  /-- A signed offset in bytes. -/
  | offset9
  /-- An unsigned offset in units of the access. -/
  | offset12
  /-- A signed offset in units of the access. -/
  | offset7
  deriving DecidableEq, Repr

namespace FieldName

open Bits (Field)

/-- The bits of the field. -/
def bits : FieldName → Field
  | rt => { start := 0, size := 5 }
  | rn => { start := 5, size := 5 }
  | rt2 => { start := 10, size := 5 }
  | rm => { start := 16, size := 5 }
  | amount5 => { start := 10, size := 5 }
  | amount6 => { start := 10, size := 6 }
  | imm16 => { start := 5, size := 16 }
  | half => { start := 21, size := 2 }
  | imm19 => { start := 5, size := 19 }
  | imm26 => { start := 0, size := 26 }
  | imm13 => { start := 10, size := 13 }
  | imm2 => { start := 29, size := 2 }
  | maskN => { start := 22, size := 1 }
  | maskS => { start := 10, size := 6 }
  | maskR => { start := 16, size := 6 }
  | offset9 => { start := 12, size := 9 }
  | offset12 => { start := 10, size := 12 }
  | offset7 => { start := 15, size := 7 }

/-- The name of the field in messages. -/
def text : FieldName → String
  | rt => "rt"
  | rn => "rn"
  | rt2 => "rt2"
  | rm => "rm"
  | amount5 => "i5_10"
  | amount6 => "i6_10"
  | imm16 => "i16_5"
  | half => "hw"
  | imm19 => "i19_5"
  | imm26 => "i26_0"
  | imm13 => "i12_10_s1"
  | imm2 => "i2_29"
  | maskN => "bitmask_n"
  | maskS => "bitmask_s"
  | maskR => "bitmask_r"
  | offset9 => "s9_12"
  | offset12 => "u12_10"
  | offset7 => "s7_15"

/-- All fields. -/
def all : List FieldName :=
  [rt, rn, rt2, rm, amount5, amount6, imm16, half, imm19, imm26, imm13, imm2, maskN, maskS,
    maskR, offset9, offset12, offset7]

/-- The field with the given name. -/
def ofText? (name : String) : Option FieldName :=
  all.find? fun f => f.text == name

/-- The content of the field in `word`. -/
def extract (f : FieldName) (word : Word) : Word :=
  f.bits.extract word

end FieldName

end A64Disassembler
