import A64Disassembler.Expr.Reduce
import A64Disassembler.Insn.Operand

/-!
# The value of an operand

An operand denotes a 64-bit value: a register of 32 bits its low half, a shifted register its
shifted content, a memory reference the cell it refers to.
-/

namespace A64Disassembler

/-- The low 32 bits set. -/
def lowHalf : BitVec 64 := 0xffffffff

/-- The content of a register, zero extended. -/
def Reg.symbolic (r : Reg) : Expr :=
  if r.isZero then .const 0
  else match r.width with
    | .w32 => .op .and (.sym r.name.name64) (.const lowHalf)
    | .w64 => .sym r.name.name64

namespace Expr

/-- The low 32 bits of a value, sign extended. A mask that keeps just these bits is dropped. -/
def signExtend32 (e : Expr) : Expr :=
  let value := match e with
    | op .and x (const mask) => if mask = lowHalf then x else e
    | _ => e
  op .sar (op .shl value (const 32)) (const 32)

end Expr

/-- The operator of a shift. -/
def Shift.op : Shift → Op
  | lsl => .shl
  | lsr => .shr
  | asr => .sar

/-- The address of a memory reference at the time of the access. -/
def MemRef.pointer (ref : MemRef) : Expr :=
  let base := ref.base.symbolic
  let indexed := match ref.index with
    | none => base
    | some r =>
      let amount := (ref.scale.map trailingZeros).getD 0
      .op .add base (.op .shl r.symbolic (.const (BitVec.ofNat 64 amount)))
  match ref.increment with
  | .post => indexed
  | _ => .op .add indexed ref.offset

/-- The cell of a memory reference. -/
def MemRef.symbolic (ref : MemRef) : Expr :=
  .mem ref.pointer.reduce ref.size

/-- The value of an operand. -/
def Operand.symbolic (o : Operand) : Expr :=
  match o.kind with
  | .reg r => r.symbolic
  | .shifted r shift amount =>
    let amount : Expr := .const (BitVec.ofNat 64 amount.toNat)
    if shift = .asr ∧ r.width = .w32 then
      (Expr.op .and (.op .sar r.symbolic.signExtend32 amount) (.const lowHalf)).reduce
    else
      (Expr.op shift.op r.symbolic amount).reduce
  | .imm value => value
  | .mem ref => ref.symbolic

end A64Disassembler
