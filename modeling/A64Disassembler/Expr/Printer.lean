import A64Disassembler.Expr.Basic
import A64Disassembler.Text.Numeral

/-!
# Expressions as text

Constants are written in hexadecimal with their sign, memory cells as `qword ptr [...]`. An
operand that is itself an operator stands in parentheses, so no precedence is needed.
-/

namespace A64Disassembler.Expr

/-- The word for a memory cell of `size` bytes. -/
def cellName (size : UInt8) : String :=
  match size with
  | 1 => "byte"
  | 2 => "word"
  | 4 => "dword"
  | 8 => "qword"
  | 16 => "oword"
  | _ => "mem"

/-- The text of an expression. -/
def text : Expr → String
  | const value => Numeral.signedHex value
  | sym name => name
  | mem ptr size => cellName size ++ " ptr [" ++ ptr.text ++ "]"
  | op o lhs rhs => operandText lhs lhs.text ++ " " ++ o.sign ++ " " ++ operandText rhs rhs.text
  | unknown => "unknown"
where
  /-- The text of an operand, in parentheses if it is an operator. -/
  operandText : Expr → String → String
    | op _ _ _, inner => "(" ++ inner ++ ")"
    | _, inner => inner

end A64Disassembler.Expr
