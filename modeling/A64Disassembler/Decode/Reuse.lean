import A64Disassembler.Decode.Decoder

/-!
# Decoding into an instruction that is used again

One instruction can take the results of many decodings in a row. A decoding that succeeds clears the
instruction and then fills it in, operand by operand. A decoding that fails does not get as far as
that.
-/

namespace A64Disassembler

/-- The instruction with all of its parts set back. -/
def Insn.clear (i : Insn) : Insn :=
  { i with opcode := none, raw := 0, address := 0, length := 0, flags := {}, operands := [] }

/-- Appends the operands for a list of arguments to those that the instruction has. -/
def Spec.pushOperands (s : Spec) (word : Word) (i : Insn) : List Arg → Except Fault Insn
  | [] => .ok i
  | a :: rest => do
    let o ← s.operand word i.operands a
    s.pushOperands word { i with operands := i.operands ++ [o] } rest

namespace Decoder

variable (d : Decoder)

/-- Makes an instruction the one that a word at an address is by a spec. -/
def fillIn (s : Spec) (position : Nat) (address : Address) (word : Word) (i : Insn) :
    Except Fault Insn := do
  let i := { i.clear with opcode := some position, raw := word, address, length := insnSize }
  let i := { i with
    flags := ((i.flags.setIf Insn.branch (s.has Feature.branch)).setIf Insn.call
      (s.has Feature.call)).setIf Insn.stop (s.has Feature.stop) }
  let i ← s.pushOperands word i s.args
  let i := { i with operands := ← s.fixUp address i.operands }
  return if d.options.showAliases then { i with operands := hideLink s i.operands } else i

/-- Decodes the instruction at the start of `bytes` into `i`. The answer is its length. -/
def decodeInto (address : Address) (bytes : List UInt8) (i : Insn) :
    Except Fault (Except DecodeError Nat × Insn) := do
  match ← ({ data := bytes } : Cursor).readWord d.options.endian with
  | (.error e, _) => return (.error e, i)
  | (.ok word, _) =>
    match d.table.find? word with
    | none => return (.error (.failed insnSize), i)
    | some position =>
      match d.table.spec? position with
      | none => return (.error (.failed insnSize), i)
      | some s => return (.ok insnSize, ← d.fillIn s position address word i)

end Decoder

end A64Disassembler
