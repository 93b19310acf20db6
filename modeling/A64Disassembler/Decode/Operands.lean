import A64Disassembler.Decode.Bitmask
import A64Disassembler.Encoding.Spec
import A64Disassembler.Expr.Reduce

/-!
# Operands of a word

The operands of a word are made from its fields, one for each argument of the spec, in order.
Afterwards the last operand of a branch or of a relative address is made absolute.
-/

namespace A64Disassembler.Spec

variable (s : Spec) (word : Word)

/-- The content of a field as an unsigned value of 64 bits. -/
def unsignedField (f : FieldName) : BitVec 64 :=
  (f.extract word).setWidth 64

/-- The content of a field as a signed value of 64 bits. -/
def signedField (f : FieldName) : BitVec 64 :=
  Bits.signExtend (unsignedField word f) f.bits.size

/-- The register in a field. -/
def regAt (f : FieldName) : Reg :=
  let zero31 := s.has Feature.zero31 || (f == .rn && s.has Feature.zeroSource31)
  ⟨RegName.ofNumber (f.extract word).toNat zero31, s.regWidth⟩

/-- The second source register, shifted. -/
def shiftedOperand (shift : Shift) (amount : FieldName) : Operand :=
  { kind := .shifted (s.regAt word .rm) shift (UInt8.ofNat (amount.extract word).toNat) }

/-- A distance in words as a distance in bytes. -/
def distanceOperand (f : FieldName) : Operand :=
  .imm (.const (signedField word f <<< 2))

/-- A reference to memory at the base register. -/
def memOperand (offset : BitVec 64) : Operand :=
  { kind := .mem
      { base := ⟨RegName.ofNumber (FieldName.rn.extract word).toNat false, .w64⟩
        offset := .const offset
        size := s.memSize
        increment := s.increment } }

/-- An immediate of twelve bits, moved up by twelve bits if the bit above them is set. -/
def shiftedImmediate : BitVec 64 :=
  let content := unsignedField word .imm13
  if content.getLsbD 12 then (content &&& 0xfff) <<< 12 else content

/-- A distance in bytes whose low bits stand apart. -/
def splitDistance : BitVec 64 :=
  Bits.signExtend ((unsignedField word .imm19 <<< 2) ||| unsignedField word .imm2) 21

/-- The number of bytes that an offset counts. -/
def offsetUnit : BitVec 64 :=
  BitVec.ofNat 64 s.memSize.toNat

/-- A bitmask immediate as wide as the first of the operands before it. -/
def bitmaskOperand (before : List Operand) : Except Fault Operand :=
  match before.head?.bind Operand.reg? with
  | some destination => do
    let value ← Bitmask.value (FieldName.maskN.extract word) (FieldName.maskS.extract word)
      (FieldName.maskR.extract word) destination.width.bits
    return .imm (.const value)
  | none =>
    .error (.inconsistent
      (s.name ++ ": " ++ Arg.bitmask.text ++ " without a destination register"))

/-- The operand for an argument, given the operands before it. -/
def operand (before : List Operand) : Arg → Except Fault Operand
  | .rn => .ok (.reg (s.regAt word .rn))
  | .rt => .ok (.reg (s.regAt word .rt))
  | .rt2 => .ok (.reg (s.regAt word .rt2))
  | .rm => .ok (.reg (s.regAt word .rm))
  | .shifted shift width => .ok (s.shiftedOperand word shift (Arg.amountField width))
  | .imm16 => .ok (.imm (.const (unsignedField word .imm16)))
  | .imm16Half =>
    .ok (.imm (.const (unsignedField word .imm16 <<< (16 * (FieldName.half.extract word).toNat))))
  | .distance19 => .ok (distanceOperand word .imm19)
  | .distance26 => .ok (distanceOperand word .imm26)
  | .imm12 => .ok (.imm (.const (shiftedImmediate word)))
  | .distance21 => .ok (.imm (.const (splitDistance word)))
  | .bitmask => s.bitmaskOperand word before
  | .memOffset9 => .ok (s.memOperand word (signedField word .offset9))
  | .memOffset12 => .ok (s.memOperand word (unsignedField word .offset12 * s.offsetUnit))
  | .memOffset7 => .ok (s.memOperand word (signedField word .offset7 * s.offsetUnit))

/-- The operands for a list of arguments, after the operands before them. -/
def operandsFrom (before : List Operand) : List Arg → Except Fault (List Operand)
  | [] => .ok before
  | a :: rest => do
    let o ← s.operand word before a
    operandsFrom (before ++ [o]) rest

/-- The operands of a word, before the last one is made absolute. -/
def operands : Except Fault (List Operand) :=
  s.operandsFrom word [] s.args

/-- The low twelve bits clear. -/
def pageMask : BitVec 64 :=
  ~~~0xfff

/-- The absolute form of the last operand at an address. -/
def absolute (address : Address) (last : Operand) : Except Fault Operand :=
  match last.imm? with
  | some distance =>
    if s.has (Feature.branch ||| Feature.relative) then
      .ok (target (.op .add (.const address) distance))
    else if s.has Feature.pageRelative then
      .ok (target (.op .add (.op .and (.const address) (.const pageMask))
        (.op .shl distance (.const 12))))
    else
      .ok last
  | none =>
    if s.has Feature.branch then .ok last
    else if s.has (Feature.relative ||| Feature.pageRelative) then
      .error (.inconsistent (s.name ++ ": relative operand is not an immediate"))
    else .ok last
where
  /-- The operand that is the address `value`. -/
  target (value : Expr) : Operand :=
    { kind := .imm value.reduce, isAddress := true }

/-- The operands with the last one made absolute. -/
def fixUp (address : Address) : List Operand → Except Fault (List Operand)
  | [] => .ok []
  | [last] => do return [← s.absolute address last]
  | o :: rest => do return o :: (← fixUp address rest)

end A64Disassembler.Spec
