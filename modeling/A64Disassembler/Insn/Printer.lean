import A64Disassembler.Expr.Printer
import A64Disassembler.Insn.Basic
import A64Disassembler.Text.Markup

/-!
# Instructions as text

The mnemonic is followed by the operands that are not hidden. An immediate is written with
`#`; one that is marked as an address is written as a bare hexadecimal number with the name of
the place it refers to. Printing fails only if the markup names an address by a symbol after it,
or if a separator is too wide.
-/

namespace A64Disassembler

/-- How instructions are printed. -/
structure InsnPrinter where
  mnemonic : Insn → Option String
  /-- What stands between the mnemonic and the operands. -/
  insnSeparator : Separator := .tab
  /-- What stands between two operands. -/
  operandSeparator : Separator := .text ", "

namespace InsnPrinter

variable (p : InsnPrinter) (m : Markup)

/-- The name of an address, relative to the symbol at or before it. -/
def addressName (a : Address) : Except Fault String :=
  match m.symbolAt a with
  | none => .ok ""
  | some s => do
    let distance ← a.distanceFrom s.address
    let offset :=
      if distance = 0 then ""
      else "+" ++ m.mark .addressOffset (Numeral.prefixedHex distance.toNat)
    return " <" ++ m.mark .symbol s.name ++ offset ++ ">"

/-- The text of an immediate operand. -/
def immText (isAddress : Bool) (value : Expr) : Except Fault String :=
  match value.const? with
  | some c =>
    if isAddress then do
      return m.mark .address (Numeral.hex c.toNat) ++ (← addressName m c)
    else
      .ok (m.mark .immediate ("#" ++ Numeral.signedHex c))
  | none => .ok (m.mark .immediate value.text)

/-- The text of an offset from a base register. -/
def offsetText (offset : Expr) : String :=
  match offset.const? with
  | some c => "#" ++ Numeral.signedDecimal c
  | none => offset.text

/-- The text of a memory reference. A zero offset is left out unless it is added afterwards. -/
def memText (ref : MemRef) : String :=
  let index := match ref.index with
    | none => ""
    | some r =>
      let scale := match ref.scale with
        | some n => if 1 < n then ", lsl #" ++ Nat.repr (trailingZeros n) else ""
        | none => ""
      ", " ++ m.mark .register r.text ++ scale
  let offset := m.mark .addressOffset (offsetText ref.offset)
  let before := if ref.offset = .const 0 then "" else ", " ++ offset
  let rest := match ref.increment with
    | .post => "], " ++ offset
    | .pre => before ++ "]!"
    | .none => before ++ "]"
  "[" ++ m.mark .register ref.base.text ++ index ++ rest

/-- The text of an operand. -/
def operandText (o : Operand) : Except Fault String :=
  match o.kind with
  | .reg r => .ok (m.mark .register r.text)
  | .shifted r shift amount =>
    let shiftText :=
      if amount = 0 ∧ shift = .lsl then ""
      else ", " ++ shift.name ++ " " ++ m.mark .immediate ("#" ++ Nat.repr amount.toNat)
    .ok (m.mark .register r.text ++ shiftText)
  | .imm value => immText m o.isAddress value
  | .mem ref => .ok (memText m ref)

/-- The text of an instruction. -/
def insnText (i : Insn) : Except Fault String := do
  let mnemonic := (p.mnemonic i).getD "<invalid>"
  let operands ← i.printedOperands.mapM (operandText m)
  let insnSeparator ←
    if operands.isEmpty then .ok "" else p.insnSeparator.after mnemonic.utf8ByteSize
  let operandSeparator ←
    if operands.length ≤ 1 then .ok "" else p.operandSeparator.after 0
  return m.mark .mnemonic mnemonic ++ insnSeparator ++ operandSeparator.intercalate operands

end InsnPrinter

end A64Disassembler
