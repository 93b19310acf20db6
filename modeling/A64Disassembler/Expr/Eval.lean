import A64Disassembler.Expr.Basic

/-!
# Values of expressions

An expression has a value once every register and every memory cell has one. The value is
undefined exactly when `unknown` occurs in the expression.
-/

namespace A64Disassembler

/-- The contents of all registers and of all memory cells, given by address and size. -/
structure Valuation where
  reg : String → BitVec 64
  cell : BitVec 64 → UInt8 → BitVec 64

namespace Expr

/-- The value of the expression under a valuation. -/
def eval (v : Valuation) : Expr → Option (BitVec 64)
  | const value => some value
  | sym name => some (v.reg name)
  | mem ptr size => (ptr.eval v).map fun address => v.cell address size
  | op o lhs rhs => (lhs.eval v).bind fun a => (rhs.eval v).map fun b => o.eval a b
  | unknown => none

end Expr

end A64Disassembler
