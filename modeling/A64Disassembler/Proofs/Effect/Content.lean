import A64Disassembler.Effect.Symbolic
import A64Disassembler.Proofs.Bits.Field
import A64Disassembler.Proofs.Expr.Reduction
import Mathlib.Data.Nat.Bitwise

/-!
# The contents of registers and operands

An instruction of width `w` works on words of `w` bits. A register contributes its low `w` bits
and the zero register nothing but zeroes, a shifted register is shifted as a word of `w` bits,
and an immediate is cut down to `w` bits.

The symbolic form of an operand is an expression of 64 bits. For a plain register it has the
content of the operand, zero extended; for a shifted register and an immediate only the low bits
are those of the content, and the bits above them may be anything. That is enough for all
results that are cut down to the width afterwards.
-/

namespace A64Disassembler

/-- The low `w` bits of a register. -/
def Reg.content (v : Valuation) (w : Nat) (r : Reg) : BitVec w :=
  if r.isZero then 0 else (v.reg r.name.name64).setWidth w

/-- A word shifted within its own width. -/
def Shift.apply {w : Nat} : Shift → BitVec w → Nat → BitVec w
  | lsl, x, amount => x <<< amount
  | lsr, x, amount => x >>> amount
  | asr, x, amount => x.sshiftRight amount

/-- The word of `w` bits that an operand contributes, unless it is a cell. -/
def OperandKind.content? (v : Valuation) (w : Nat) : OperandKind → Option (BitVec w)
  | .reg r => some (r.content v w)
  | .shifted r shift amount => some (shift.apply (r.content v w) amount.toNat)
  | .imm value => (value.eval v).map (BitVec.setWidth w)
  | .mem _ => none

/-- The register of an operand that is a register, plain or shifted. -/
def OperandKind.register? : OperandKind → Option Reg
  | reg r | shifted r _ _ => some r
  | _ => none

/-- Whether the low `w` bits of the value of the expression are those of `x`. -/
def Expr.Denotes (v : Valuation) {w : Nat} (e : Expr) (x : BitVec w) : Prop :=
  (e.eval v).map (BitVec.setWidth w) = some x

/-- Masking with the low half keeps the low 32 bits and clears the others. -/
theorem and_lowHalf (x : BitVec 64) : x &&& lowHalf = (x.setWidth 32).setWidth 64 := by
  have hmask : lowHalf = (BitVec.allOnes 32).setWidth 64 := rfl
  apply BitVec.eq_of_getLsbD_eq
  intro i hi
  rw [hmask, BitVec.getLsbD_and, BitVec.getLsbD_setWidth, BitVec.getLsbD_setWidth,
    BitVec.getLsbD_setWidth, BitVec.getLsbD_allOnes]
  by_cases hlow : i < 32 <;> simp [hi, hlow]

/-- A word of 32 bits may be sign extended before it is shifted right with its sign. -/
theorem setWidth_sshiftRight_signExtend (x : BitVec 32) (n : Nat) :
    ((x.signExtend 64).sshiftRight n).setWidth 32 = x.sshiftRight n := by
  apply BitVec.eq_of_getLsbD_eq
  intro i hi
  rw [BitVec.getLsbD_setWidth, BitVec.getLsbD_sshiftRight, BitVec.getLsbD_sshiftRight,
    BitVec.getLsbD_signExtend, BitVec.msb_signExtend]
  by_cases hlow : n + i < 32
  · simp [hi, hlow, show ¬ 64 ≤ i by omega, show ¬ 32 ≤ i by omega, show n + i < 64 by omega]
  · by_cases hmid : n + i < 64
    · simp [hi, hlow, hmid, show ¬ 64 ≤ i by omega, show ¬ 32 ≤ i by omega]
    · simp [hi, hlow, hmid, show ¬ 64 ≤ i by omega, show ¬ 32 ≤ i by omega]

/-- A register is at most 64 bits wide. -/
theorem Width.bits_le (w : Width) : w.bits ≤ 64 := by
  cases w <;> decide

namespace Expr

variable {v : Valuation} {e : Expr}

/-- An expression whose value is a zero extended word denotes that word. -/
theorem denotes_of_eval {w : Nat} (hw : w ≤ 64) {x : BitVec w}
    (h : e.eval v = some (x.setWidth 64)) : e.Denotes v x := by
  rw [Denotes, h, Option.map_some, BitVec.setWidth_setWidth_of_le x hw, BitVec.setWidth_eq]

/-- Reduction keeps the denoted word. -/
theorem denotes_reduce {w : Nat} {x : BitVec w} : e.reduce.Denotes v x ↔ e.Denotes v x := by
  rw [Denotes, Denotes, eval_reduce]

/-- Masking with the low half keeps a denoted word of at most 32 bits. -/
theorem denotes_and_lowHalf {w : Nat} (hw : w ≤ 32) {x : BitVec w} (h : e.Denotes v x) :
    (op .and e (const lowHalf)).Denotes v x := by
  obtain ⟨y, hy, rfl⟩ := Option.map_eq_some_iff.mp h
  simp only [Denotes, eval, hy, Option.bind_some, Option.map_some, Op.eval, and_lowHalf]
  rw [BitVec.setWidth_setWidth_of_le _ (by omega), BitVec.setWidth_setWidth_of_le _ hw]

/-- Masking an expression that denotes a word of 32 bits gives just that word. -/
theorem eval_and_lowHalf {x : BitVec 32} (h : e.Denotes v x) :
    (op .and e (const lowHalf)).eval v = some (x.setWidth 64) := by
  obtain ⟨y, hy, rfl⟩ := Option.map_eq_some_iff.mp h
  simp only [eval, hy, Option.bind_some, Option.map_some, Op.eval, and_lowHalf]

/-- The sign extension of an expression extends the word of 32 bits that it denotes. -/
theorem eval_signExtend32 {x : BitVec 32} (h : e.Denotes v x) :
    e.signExtend32.eval v = some (x.signExtend 64) := by
  have hextend (e' : Expr) (h' : e'.Denotes v x) :
      (op .sar (op .shl e' (const 32)) (const 32)).eval v = some (x.signExtend 64) := by
    obtain ⟨y, hy, rfl⟩ := Option.map_eq_some_iff.mp h'
    have hamount : Op.shiftAmount 32 = 32 := rfl
    have hextended : (y <<< 32).sshiftRight 32 = (y.setWidth 32).signExtend 64 :=
      Bits.signExtend_eq (n := 32) (by decide) (by decide) y
    simp only [eval, hy, Option.bind_some, Option.map_some, Op.eval, hamount]
    exact congrArg some hextended
  unfold signExtend32
  split
  · rename_i x' mask
    split
    · rename_i hmask
      subst hmask
      apply hextend
      obtain ⟨y, hy, hyx⟩ := Option.map_eq_some_iff.mp h
      cases hx' : x'.eval v with
      | none => simp [eval, hx'] at hy
      | some z =>
        simp only [eval, hx', Option.bind_some, Option.map_some, Op.eval, and_lowHalf,
          Option.some.injEq] at hy
        rw [Denotes, hx', Option.map_some, ← hyx, ← hy]
        simp
    · exact hextend _ h
  · exact hextend _ h

/-- A shift by less than the width denotes the shifted word, if its left operand is the zero
extended word; a right shift with sign needs the sign extended one. -/
theorem denotes_shift (shift : Shift) {w : Width} {amount : Expr} {x : BitVec w.bits}
    {n : BitVec 64} (he : e.eval v = some (x.setWidth 64)) (hamount : amount.eval v = some n)
    (hn : n.toNat < w.bits) :
    (op shift.op (if shift = .asr ∧ w = .w32 then e.signExtend32 else e) amount).Denotes v
      (shift.apply x n.toNat) := by
  have hn64 : n.toNat < 64 := Nat.lt_of_lt_of_le hn w.bits_le
  have hshift : Op.shiftAmount n = n.toNat := Op.shiftAmount_eq_toNat hn64
  cases shift with
  | lsl =>
    simp only [reduceCtorEq, false_and, if_false, Denotes, eval, he, hamount, Option.bind_some,
      Option.map_some, Shift.op, Op.eval, hshift, if_pos hn64, Shift.apply]
    rw [BitVec.setWidth_shiftLeft_of_le w.bits_le, BitVec.setWidth_setWidth_of_le x w.bits_le,
      BitVec.setWidth_eq]
  | lsr =>
    simp only [reduceCtorEq, false_and, if_false, Denotes, eval, he, hamount, Option.bind_some,
      Option.map_some, Shift.op, Op.eval, hshift, if_pos hn64, Shift.apply]
    rw [← BitVec.setWidth_ushiftRight w.bits_le, BitVec.setWidth_setWidth_of_le _ w.bits_le,
      BitVec.setWidth_eq]
  | asr =>
    have hmin : min n.toNat 63 = n.toNat := by omega
    cases w with
    | w32 =>
      have hsign := eval_signExtend32 (denotes_of_eval (w := 32) (by decide) he)
      simp only [and_self, if_true, Denotes, eval, hsign, hamount, Option.bind_some,
        Option.map_some, Shift.op, Op.eval, hshift, hmin, Shift.apply]
      exact congrArg some (setWidth_sshiftRight_signExtend x n.toNat)
    | w64 =>
      have he' : e.eval v = some x := he.trans (congrArg some (BitVec.setWidth_eq x))
      simp only [reduceCtorEq, and_false, if_false, Denotes, eval, he', hamount,
        Option.map_some, Shift.op, Op.eval, hshift, hmin, Shift.apply]
      exact congrArg some (BitVec.setWidth_eq _)

end Expr

/-- The symbolic form of a register has the content of the register, zero extended. -/
theorem Reg.eval_symbolic (v : Valuation) (r : Reg) :
    r.symbolic.eval v = some ((r.content v r.width.bits).setWidth 64) := by
  obtain ⟨name, width⟩ := r
  unfold symbolic content
  split
  · simp [Expr.eval]
  · cases width with
    | w32 =>
      simp only [Expr.eval, Option.bind_some, Option.map_some, Op.eval, and_lowHalf, Width.bits]
    | w64 => simp only [Expr.eval, Width.bits, BitVec.setWidth_eq]

/-- The symbolic form of a register denotes the content of the register. -/
theorem Reg.denotes_symbolic (v : Valuation) (r : Reg) :
    r.symbolic.Denotes v (r.content v r.width.bits) :=
  Expr.denotes_of_eval r.width.bits_le (r.eval_symbolic v)

namespace Operand

variable {o : Operand} {r : Reg}

/-- The symbolic form of a register operand is that of its register. -/
theorem symbolic_of_reg (h : o.kind = .reg r) : o.symbolic = r.symbolic := by
  rw [symbolic, h]

/-- The symbolic form of an immediate is its value. -/
theorem symbolic_of_imm {value : Expr} (h : o.kind = .imm value) : o.symbolic = value := by
  rw [symbolic, h]

/-- The amount of a shift is the same number as a constant of an expression. -/
theorem toNat_amount (amount : UInt8) : (BitVec.ofNat 64 amount.toNat).toNat = amount.toNat := by
  have hlt := amount.toNat_lt
  rw [BitVec.toNat_ofNat]
  omega

/-- The shift of a register by less than its width denotes the shifted word, before its value is
masked. -/
theorem denotes_shift_of_register (shift : Shift) {amount : UInt8}
    (hamount : amount.toNat < r.width.bits) (v : Valuation) :
    (Expr.op shift.op
        (if shift = .asr ∧ r.width = .w32 then r.symbolic.signExtend32 else r.symbolic)
        (.const (BitVec.ofNat 64 amount.toNat))).Denotes v
      (shift.apply (r.content v r.width.bits) amount.toNat) := by
  have hconst : (Expr.const (BitVec.ofNat 64 amount.toNat)).eval v =
      some (BitVec.ofNat 64 amount.toNat) := rfl
  have hshift := Expr.denotes_shift shift (r.eval_symbolic v) hconst (by rwa [toNat_amount])
  rwa [toNat_amount] at hshift

/-- The symbolic form of a register shifted by less than its width denotes the shifted word. -/
theorem denotes_of_shifted {shift : Shift} {amount : UInt8} (h : o.kind = .shifted r shift amount)
    (hamount : amount.toNat < r.width.bits) (v : Valuation) :
    o.symbolic.Denotes v (shift.apply (r.content v r.width.bits) amount.toNat) := by
  have hshift := denotes_shift_of_register shift hamount v
  rw [symbolic, h]
  dsimp only
  split
  · rename_i hasr
    have hbits : r.width.bits ≤ 32 := by rw [hasr.2]; decide
    rw [if_pos hasr, hasr.1] at hshift
    rw [hasr.1]
    exact Expr.denotes_reduce.mpr (Expr.denotes_and_lowHalf hbits hshift)
  · rename_i hasr
    rw [if_neg hasr] at hshift
    exact Expr.denotes_reduce.mpr hshift

end Operand

end A64Disassembler
