import A64Disassembler.Expr.Eval
import A64Disassembler.Expr.Reduce

/-!
# Reduction keeps the value

Each rule of the reduction rests on one law of the operators: an identity on either side, the
regrouping of sums and conjunctions, and the merging of two shifts in the same direction. The
last law needs the sum of the amounts below 64; beyond that a shift by the sum would read other
bits of its amount than the two shifts do.

The main statement is that an expression and its reduced form have the same value in every
state, and no value in exactly the same case, when the value of the expression is not known.
-/

namespace A64Disassembler

namespace Op

/-- An amount that fits into 32 bits is taken as it is. -/
theorem shiftAmount_eq_toNat {b : BitVec 64} (h : b.toNat < 64) : shiftAmount b = b.toNat := by
  simp only [shiftAmount, BitVec.toNat_setWidth]
  exact Nat.mod_eq_of_lt (by omega)

/-- The identity of an operator leaves every left operand as it is. -/
theorem eval_identity (o : Op) (a : BitVec 64) : o.eval a o.identity = a := by
  have hzero : shiftAmount 0#64 = 0 := rfl
  cases o with
  | and => exact BitVec.and_allOnes
  | add | sub | or | xor => simp [eval, identity]
  | shl | shr | sar => simp [eval, identity, hzero]

/-- A left identity leaves every right operand as it is. -/
theorem eval_of_isLeftIdentity {o : Op} {a : BitVec 64} (h : o.isLeftIdentity a = true)
    (b : BitVec 64) : o.eval a b = b := by
  cases o with
  | and =>
    obtain rfl : a = -1 := by simpa only [isLeftIdentity, beq_iff_eq] using h
    exact BitVec.allOnes_and
  | add | or | xor =>
    obtain rfl : a = 0 := by simpa only [isLeftIdentity, beq_iff_eq] using h
    simp [eval]
  | sub | shl | shr | sar => simp [isLeftIdentity] at h

/-- Sums and conjunctions may be regrouped. -/
theorem eval_eval_of_isRegrouped {o : Op} (h : o.isRegrouped = true) (x a b : BitVec 64) :
    o.eval (o.eval x a) b = o.eval x (o.eval a b) := by
  cases o with
  | add => exact BitVec.add_assoc x a b
  | and => exact BitVec.and_assoc x a b
  | sub | or | xor | shl | shr | sar => simp [isRegrouped] at h

/-- Two shifts in the same direction are one shift by the sum, as long as it is below 64. -/
theorem eval_eval_of_isShift {o : Op} (h : o.isShift = true) {a b : BitVec 64}
    (hsum : a.toNat + b.toNat < 64) (x : BitVec 64) :
    o.eval (o.eval x a) b = o.eval x (a + b) := by
  have ha : shiftAmount a = a.toNat := shiftAmount_eq_toNat (by omega)
  have hb : shiftAmount b = b.toNat := shiftAmount_eq_toNat (by omega)
  have htotal : (a + b).toNat = a.toNat + b.toNat := by
    rw [BitVec.toNat_add]
    exact Nat.mod_eq_of_lt (by omega)
  have hab : shiftAmount (a + b) = a.toNat + b.toNat := by
    rw [← htotal]
    exact shiftAmount_eq_toNat (by omega)
  have ha' : a.toNat < 64 := by omega
  have hb' : b.toNat < 64 := by omega
  cases o with
  | shl => simp only [eval, ha, hb, hab, if_pos ha', if_pos hb', if_pos hsum, BitVec.shiftLeft_add]
  | shr => simp only [eval, ha, hb, hab, if_pos ha', if_pos hb', if_pos hsum, BitVec.shiftRight_add]
  | sar =>
    simp only [eval, ha, hb, hab, ← BitVec.sshiftRight_add]
    congr 1
    omega
  | add | sub | and | or | xor => simp [isShift] at h

end Op

namespace Expr

variable (v : Valuation)

/-- Whether `unknown` occurs in the expression. -/
def HasUnknown : Expr → Prop
  | const _ | sym _ => False
  | mem ptr _ => ptr.HasUnknown
  | op _ lhs rhs => lhs.HasUnknown ∨ rhs.HasUnknown
  | unknown => True

/-- An expression has no value exactly when `unknown` occurs in it, in whatever state. -/
theorem eval_eq_none_iff (e : Expr) : e.eval v = none ↔ e.HasUnknown := by
  induction e with
  | const | sym => simp [eval, HasUnknown]
  | unknown => simp [eval, HasUnknown]
  | mem ptr size ih => simp [eval, HasUnknown, ih]
  | op o lhs rhs ihl ihr =>
    rw [HasUnknown, ← ihl, ← ihr, eval]
    cases lhs.eval v <;> simp

/-- Reducing an operator with a constant on the right keeps the value. -/
theorem eval_reduceConst (o : Op) (lhs : Expr) (b : BitVec 64) :
    (reduceConst o lhs b).eval v = (op o lhs (const b)).eval v := by
  fun_induction reduceConst o lhs b with
  | case1 => rfl
  | case2 => rfl
  | case3 inner x a =>
    cases hx : x.eval v <;> simp [eval, hx, o.eval_identity]
  | case4 inner x a b hidentity hregroup ih =>
    obtain ⟨rfl, hregroup⟩ := hregroup
    rw [ih]
    cases hx : x.eval v <;> simp [eval, hx, Op.eval_eval_of_isRegrouped hregroup]
  | case5 inner x a b hidentity hregroup hshift =>
    obtain ⟨rfl, hshift, -, -, hsum⟩ := hshift
    cases hx : x.eval v <;> simp [eval, hx, Op.eval_eval_of_isShift hshift hsum]
  | case6 => rfl
  | case7 lhs =>
    cases hlhs : lhs.eval v <;> simp [eval, hlhs, o.eval_identity]
  | case8 => rfl

/-- Reducing an operator keeps the value. -/
theorem eval_reduceOp (o : Op) (lhs rhs : Expr) :
    (reduceOp o lhs rhs).eval v = (op o lhs rhs).eval v := by
  fun_cases reduceOp o lhs rhs with
  | case1 => rfl
  | case2 => cases hlhs : lhs.eval v <;> simp [eval, hlhs]
  | case3 => exact eval_reduceConst v o _ _
  | case4 a rhs _ _ hidentity =>
    cases hrhs : rhs.eval v <;> simp [eval, hrhs, Op.eval_of_isLeftIdentity hidentity]
  | case5 => rfl
  | case6 => rfl

/-- The reduced form has the value of the expression. -/
@[simp] theorem eval_reduce (e : Expr) : e.reduce.eval v = e.eval v := by
  induction e with
  | const | sym | unknown => rfl
  | mem ptr size ih => simp only [reduce, eval, ih]
  | op o lhs rhs ihl ihr =>
    rw [reduce, eval_reduceOp]
    simp only [eval, ihl, ihr]

/-- Reduction preserves meaning: in every state the reduced form has the value of the
expression, and both are without a value exactly if `unknown` occurs in the expression. -/
theorem reduce_preserves_value (e : Expr) :
    e.reduce.eval v = e.eval v ∧ (e.reduce.eval v = none ↔ e.HasUnknown) := by
  constructor
  · exact eval_reduce v e
  · rw [eval_reduce v e]
    exact eval_eq_none_iff v e

end Expr

end A64Disassembler
