import A64Disassembler.Fault

/-!
# Symbolic expressions

A value that an instruction computes is an expression over constants, the contents of named
registers and memory cells. All values have 64 bits; a constant is read as a signed number
where a sign matters. An expression that contains `unknown` has no value.
-/

namespace A64Disassembler

/-- A binary operator on 64-bit values. -/
inductive Op
  | add
  | sub
  | and
  | or
  | xor
  | shl
  | shr
  | sar
  deriving DecidableEq, Repr

namespace Op

/-- The sign that stands for the operator between its operands. -/
def sign : Op → String
  | add => "+"
  | sub => "-"
  | and => "&"
  | or => "|"
  | xor => "^"
  | shl => "<<"
  | shr => ">>"
  | sar => ">>>"

/-- The amount of a shift by `b`: its low 32 bits. -/
def shiftAmount (b : BitVec 64) : Nat :=
  (b.setWidth 32).toNat

/-- The result of the operator. Sums and differences wrap around. A shift by 64 or more leaves
nothing but copies of the bit that is shifted in. -/
def eval : Op → BitVec 64 → BitVec 64 → BitVec 64
  | add, a, b => a + b
  | sub, a, b => a - b
  | and, a, b => a &&& b
  | or, a, b => a ||| b
  | xor, a, b => a ^^^ b
  | shl, a, b => if shiftAmount b < 64 then a <<< shiftAmount b else 0
  | shr, a, b => if shiftAmount b < 64 then a >>> shiftAmount b else 0
  | sar, a, b => a.sshiftRight (min (shiftAmount b) 63)

/-- The right operand that leaves every left operand as it is. -/
def identity : Op → BitVec 64
  | and => -1
  | _ => 0

/-- Whether the left operand `a` leaves every right operand as it is. -/
def isLeftIdentity : Op → BitVec 64 → Bool
  | add, a | or, a | xor, a => a == 0
  | and, a => a == -1
  | _, _ => false

/-- Whether two applications to constants combine into one by applying it to the constants. -/
def isRegrouped : Op → Bool
  | add | and => true
  | _ => false

/-- Whether the operator is a shift. -/
def isShift : Op → Bool
  | shl | shr | sar => true
  | _ => false

end Op

/-- A symbolic 64-bit value. -/
inductive Expr
  /-- A constant. -/
  | const (value : BitVec 64)
  /-- The content of a register. -/
  | sym (name : String)
  /-- The content of the `size` bytes of memory at `ptr`. -/
  | mem (ptr : Expr) (size : UInt8)
  /-- An operator applied to two values. -/
  | op (op : Op) (lhs rhs : Expr)
  /-- A value about which nothing is known. -/
  | unknown
  deriving DecidableEq, Repr, Inhabited

namespace Expr

/-- The value of a constant. -/
def const? : Expr → Option (BitVec 64)
  | const value => some value
  | _ => none

/-- Whether nothing is known about the value. -/
def isUnknown : Expr → Bool
  | unknown => true
  | _ => false

/-- The register that comes first in the expression. -/
def root : Expr → Option String
  | sym name => some name
  | mem ptr _ => ptr.root
  | op _ lhs rhs => lhs.root.or rhs.root
  | const _ | unknown => none

/-- `seen` followed by the registers of the expression that are not in it, in order. -/
def collectExternals : Expr → List String → List String
  | sym name, seen => if name ∈ seen then seen else seen ++ [name]
  | mem ptr _, seen => ptr.collectExternals seen
  | op _ lhs rhs, seen => rhs.collectExternals (lhs.collectExternals seen)
  | const _, seen | unknown, seen => seen

/-- The registers of the expression, each once, in the order in which they first occur. -/
def externals (e : Expr) : List String :=
  e.collectExternals []

end Expr

end A64Disassembler
