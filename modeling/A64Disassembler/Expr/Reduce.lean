import A64Disassembler.Expr.Basic

/-!
# Reduction of expressions

Reduction computes with constants as far as they are known, drops operands that change
nothing, and gathers the constants of nested sums, conjunctions and shifts in one constant. An
operator with an unknown operand reduces to `unknown`. The value of an expression stays the same.
-/

namespace A64Disassembler.Expr

/-- Reduces `lhs op b` for a reduced `lhs` and a constant `b`. -/
def reduceConst (o : Op) : Expr → BitVec 64 → Expr
  | unknown, _ => unknown
  | const a, b => const (o.eval a b)
  | op inner x (const a), b =>
    if b = o.identity then op inner x (const a)
    else if inner = o ∧ o.isRegrouped then reduceConst o x (o.eval a b)
    else if inner = o ∧ o.isShift ∧ a.toNat < 64 ∧ b.toNat < 64 ∧ a.toNat + b.toNat < 64 then
      op o x (const (a + b))
    else op o (op inner x (const a)) (const b)
  | lhs, b => if b = o.identity then lhs else op o lhs (const b)

/-- Reduces `lhs op rhs` for reduced operands. -/
def reduceOp (o : Op) : Expr → Expr → Expr
  | unknown, _ => unknown
  | _, unknown => unknown
  | lhs, const b => reduceConst o lhs b
  | const a, rhs => if o.isLeftIdentity a then rhs else op o (const a) rhs
  | lhs, rhs => op o lhs rhs

/-- The reduced form of an expression. -/
def reduce : Expr → Expr
  | mem ptr size => mem ptr.reduce size
  | op o lhs rhs => reduceOp o lhs.reduce rhs.reduce
  | e => e

end A64Disassembler.Expr
