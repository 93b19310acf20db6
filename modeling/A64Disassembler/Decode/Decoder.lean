import A64Disassembler.Cursor
import A64Disassembler.Decode.Operands
import A64Disassembler.Encoding.Table
import A64Disassembler.Insn.Printer

/-!
# Decoding a word

A decoder reads one word, finds its spec in a table and makes the instruction. Fewer than four
bytes ask for more data, and a word without a spec fails. Nothing else can go wrong with a table
of consistent specs.
-/

namespace A64Disassembler

/-- The number of bytes of every instruction. -/
def insnSize : Nat := 4

/-- How instructions are decoded and shown. -/
structure Options where
  /-- Leaves out operands that a reader of assembly expects. -/
  showAliases : Bool := true
  /-- Shows runs of zeroes in full. -/
  decodeZeroes : Bool := false
  /-- Shows the binding of every instruction. -/
  showBindings : Bool := false
  /-- The order of the bytes of an instruction word. -/
  endian : Endian := .little
  deriving DecidableEq, Repr, Inhabited

/-- A decoder for the specs of a table. -/
structure Decoder where
  table : Table
  options : Options

namespace Decoder

/-- The decoder for the built-in encodings. -/
def builtin (options : Options) : Decoder :=
  ⟨Table.builtin, options⟩

/-- The flags of the instructions of a spec. -/
def insnFlags (s : Spec) : Flags :=
  (((({} : Flags).setIf Insn.branch (s.has Feature.branch)).setIf Insn.call
    (s.has Feature.call)).setIf Insn.stop (s.has Feature.stop))

/-- Hides the first operand of a return that goes to the link register. -/
def hideLink (s : Spec) : List Operand → List Operand
  | [] => []
  | first :: rest =>
    if s.name = "ret" then
      let toLink := first.reg?.any fun r => r.name.index == 30
      { first with isHidden := toLink } :: rest
    else
      first :: rest

/-- The instruction that a word at an address is by a spec. -/
def insnOf (d : Decoder) (s : Spec) (position : Nat) (address : Address) (word : Word) :
    Except Fault Insn := do
  let operands ← s.fixUp address (← s.operands word)
  return {
    opcode := some position
    raw := word
    address
    length := insnSize
    flags := insnFlags s
    operands := if d.options.showAliases then hideLink s operands else operands }

/-- Decodes the instruction at the start of `bytes`. -/
def decode (d : Decoder) (address : Address) (bytes : List UInt8) :
    Except Fault (Except DecodeError Insn) := do
  match ← ({ data := bytes } : Cursor).readWord d.options.endian with
  | (.error e, _) => return .error e
  | (.ok word, _) =>
    match d.table.find? word with
    | none => return .error (.failed insnSize)
    | some position =>
      match d.table.spec? position with
      | none => return .error (.failed insnSize)
      | some s => return .ok (← d.insnOf s position address word)

/-- The mnemonic of an instruction. -/
def mnemonic? (d : Decoder) (i : Insn) : Option String :=
  d.table.mnemonic? i

/-- The printer for the instructions of the decoder. -/
def printer (d : Decoder) : InsnPrinter where
  mnemonic := d.mnemonic?

end Decoder

end A64Disassembler
