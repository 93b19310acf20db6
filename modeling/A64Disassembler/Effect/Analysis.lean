import A64Disassembler.Decode.Decoder
import A64Disassembler.Effect.Rule

/-!
# Effects and targets of decoded instructions

The decoder that made an instruction knows its spec, and with it the rule for its effect and
whether its last operand is the place where execution may continue.
-/

namespace A64Disassembler.Decoder

variable (d : Decoder) (i : Insn)

/-- The binding of an instruction. -/
def binding : Except Fault Binding :=
  match d.table.specOf? i with
  | some s => i.bindingFor s.name
  | none => .ok .empty

/-- The warning about an instruction whose binding is not known. -/
def warning? : Option String :=
  (d.table.specOf? i).bind fun s => i.bindingWarning? s.name

/-- The addresses at which execution may continue, apart from the next instruction. -/
def targets : List Expr :=
  match d.table.specOf? i with
  | some s =>
    if s.has Feature.branch then (i.operands.getLast?.map Operand.symbolic).toList else []
  | none => []

end A64Disassembler.Decoder
