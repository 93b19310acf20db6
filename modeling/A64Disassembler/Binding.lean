import A64Disassembler.Expr.Order
import A64Disassembler.Expr.Printer
import A64Disassembler.Expr.Reduce

/-!
# Bindings

A binding says which locations an instruction changes and to which values, expressed in terms
of the state before the instruction. It is a finite map from locations to reduced expressions,
kept as a list in strictly ascending order of the locations, with a mark for bindings that may
miss an effect.
-/

namespace A64Disassembler

/-- A place that holds a value. -/
inductive Location
  /-- A register. -/
  | reg (name : String)
  /-- The `size` bytes of memory at `ptr`. -/
  | mem (ptr : Expr) (size : UInt8)
  deriving DecidableEq, Repr

namespace Location

/-- The location whose content the expression denotes, if it is one. -/
def ofExpr? : Expr → Option Location
  | .sym name => some (reg name)
  | .mem ptr size => some (mem ptr size)
  | _ => none

/-- The content of the location. -/
def toExpr : Location → Expr
  | reg name => .sym name
  | mem ptr size => .mem ptr size

/-- Registers come before memory cells. -/
def cmp : Location → Location → Ordering
  | reg a, reg b => compare a b
  | reg _, mem _ _ => .lt
  | mem _ _, reg _ => .gt
  | mem p m, mem q n => (compare p q).then (compare m n)

instance : Ord Location where
  compare := cmp

/-- The text of the location. -/
def text (l : Location) : String :=
  l.toExpr.text

end Location

/-- The effects of an instruction. -/
structure Binding where
  effects : List (Location × Expr) := []
  isIncomplete : Bool := false
  deriving DecidableEq, Repr

namespace Binding

/-- No effect. -/
def empty : Binding := {}

/-- Puts `value` at its place among `effects`, instead of an earlier value of `location`. -/
def insert (location : Location) (value : Expr) : List (Location × Expr) → List (Location × Expr)
  | [] => [(location, value)]
  | (l, v) :: rest =>
    match compare location l with
    | .lt => (location, value) :: (l, v) :: rest
    | .eq => (location, value) :: rest
    | .gt => (l, v) :: insert location value rest

/-- Records that `location` gets the value of `value`. -/
def set (b : Binding) (location : Location) (value : Expr) : Binding :=
  { b with effects := insert location value.reduce b.effects }

/-- Records that there may be further effects. -/
def markIncomplete (b : Binding) : Binding :=
  { b with isIncomplete := true }

/-- The value that `location` gets, if it is changed. -/
def get? (b : Binding) (location : Location) : Option Expr :=
  (b.effects.find? fun (l, _) => compare location l == .eq).map Prod.snd

/-- The number of locations that are changed. -/
def size (b : Binding) : Nat :=
  b.effects.length

/-- Whether no location is changed. -/
def isEmpty (b : Binding) : Bool :=
  b.effects.isEmpty

/-- The text of the binding: its effects in order, then the mark of an incomplete one. -/
def text (b : Binding) : String :=
  let effects := b.effects.map fun (l, v) => l.text ++ " = " ++ v.text
  ", ".intercalate (if b.isIncomplete then effects ++ ["incomplete"] else effects)

end Binding

end A64Disassembler
