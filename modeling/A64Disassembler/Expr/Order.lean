import A64Disassembler.Expr.Basic

/-!
# The order of expressions

Expressions are ordered by their form first (constant, register, memory cell, operator,
unknown), then part by part from the left. Constants are compared as signed numbers, register
names character by character, operators in the order in which they are declared.
-/

namespace A64Disassembler

/-- Operators in the order of their declaration. -/
instance : Ord Op where
  compare a b := compare a.ctorIdx b.ctorIdx

namespace Expr

/-- The place of the form of an expression among all forms. -/
def rank : Expr → Nat
  | const _ => 0
  | sym _ => 1
  | mem _ _ => 2
  | op _ _ _ => 3
  | unknown => 4

/-- The order of expressions. -/
def cmp : Expr → Expr → Ordering
  | const a, const b => compare a.toInt b.toInt
  | sym a, sym b => compare a b
  | mem p m, mem q n => (p.cmp q).then (compare m n)
  | op o a b, op o' a' b' => (compare o o').then ((a.cmp a').then (b.cmp b'))
  | e, e' => compare e.rank e'.rank

instance : Ord Expr where
  compare := cmp

end Expr

end A64Disassembler
