import A64Disassembler.Encoding.Catalogue
import A64Disassembler.Insn.Basic

/-!
# Opcode tables

A table is a list of consistent specs. A word is decoded by the first spec of the list that it
matches. To find that spec quickly the table keeps a bucket for every value of the top byte of
a word; the bucket holds the positions of all specs whose fixed bits agree with that byte, in
the order of the list.
-/

namespace A64Disassembler

/-- Why a spec is inconsistent. -/
inductive SpecError
  /-- A field is listed twice. -/
  | duplicateField (opcode : String) (field : FieldName)
  /-- An argument reads a field that is not listed. -/
  | missingField (opcode : String) (arg : Arg) (field : FieldName)
  /-- A bitmask immediate has no first register to take its width from. -/
  | missingDestination (opcode : String)
  /-- More than one feature turns the last operand into an address. -/
  | conflictingFixup (opcode : String)
  /-- The last operand, which is to become an address, is no immediate. -/
  | nonImmediateFixup (opcode : String)
  deriving DecidableEq, Repr

namespace SpecError

/-- The text of the error. -/
def message : SpecError → String
  | duplicateField opcode field =>
    opcode ++ ": field " ++ field.text ++ " is registered twice"
  | missingField opcode arg field =>
    opcode ++ ": argument " ++ arg.text ++ " reads unregistered field " ++ field.text
  | missingDestination opcode =>
    opcode ++ ": bitmask immediate without destination register"
  | conflictingFixup opcode =>
    opcode ++ ": more than one address fixup"
  | nonImmediateFixup opcode =>
    opcode ++ ": address fixup of a non-immediate operand"

end SpecError

namespace Spec

/-- The first field that occurs a second time. -/
def firstDuplicate? : List FieldName → List FieldName → Option FieldName
  | _, [] => none
  | seen, f :: rest => if f ∈ seen then some f else firstDuplicate? (seen ++ [f]) rest

/-- The first argument that reads a field outside of `fields`, and that field. -/
def firstMissing? (fields : List FieldName) (args : List Arg) : Option (Arg × FieldName) :=
  args.findSome? fun a => (a.fields.find? fun f => !(fields.contains f)).map fun f => (a, f)

/-- Accepts a spec if its operands can be made from its fields. -/
def validate (s : Spec) : Except SpecError Unit :=
  match firstDuplicate? [] s.fields, firstMissing? s.fields s.args with
  | some f, _ => .error (.duplicateField s.name f)
  | none, some (a, f) => .error (.missingField s.name a f)
  | none, none =>
    if s.args.contains .bitmask && !s.args.head?.any Arg.isReg then
      .error (.missingDestination s.name)
    else if 1 < s.features.count Feature.fixups then
      .error (.conflictingFixup s.name)
    else if s.has (Feature.relative ||| Feature.pageRelative) && !s.args.getLast?.any Arg.isImm then
      .error (.nonImmediateFixup s.name)
    else
      .ok ()

end Spec

/-- An indexed list of specs. -/
structure Table where
  specs : Array Spec
  /-- For every top byte, the positions of the specs that may match. -/
  buckets : Array (List Nat)

namespace Table

/-- Adds `position` to the bucket of every byte that agrees with the top byte of `bits` in the
bits of `mask`. Such bytes lie between the fixed bits alone and the fixed bits with all free
bits set. -/
def addToBuckets (buckets : Array (List Nat)) (position : Nat) (bits mask : Word) :
    Array (List Nat) :=
  let fixed := mask.toNat >>> 24
  let low := (bits.toNat >>> 24) &&& fixed
  let high := low ||| (0xff ^^^ fixed)
  (List.range' low (high + 1 - low)).foldl
    (fun buckets byte =>
      if byte &&& fixed = low then buckets.modify byte (· ++ [position]) else buckets)
    buckets

/-- The table of a list of specs. -/
def index (specs : List Spec) : Table where
  specs := specs.toArray
  buckets := specs.zipIdx.foldl
    (fun buckets (s, position) => addToBuckets buckets position s.bits s.fixedMask)
    (Array.replicate 256 [])

/-- The table of a list of specs, if all of them are consistent. -/
def ofSpecs (specs : List Spec) : Except SpecError Table := do
  specs.forM Spec.validate
  return index specs

/-- The table of the built-in encodings. -/
def builtin : Table :=
  index Catalogue.specs

/-- The number of specs. -/
def size (t : Table) : Nat :=
  t.specs.size

/-- The spec at a position. -/
def spec? (t : Table) (position : Nat) : Option Spec :=
  t.specs[position]?

/-- The spec that an instruction matched. -/
def specOf? (t : Table) (i : Insn) : Option Spec :=
  i.opcode.bind t.spec?

/-- The mnemonic of an instruction. -/
def mnemonic? (t : Table) (i : Insn) : Option String :=
  (t.specOf? i).map Spec.name

/-- The positions of the specs that may match a word with the given top byte. -/
def bucket (t : Table) (byte : Nat) : List Nat :=
  t.buckets.getD byte []

/-- The position of the first spec that `word` matches. -/
def find? (t : Table) (word : Word) : Option Nat :=
  (t.bucket (word.toNat >>> 24)).find? fun position => (t.spec? position).any (·.accepts word)

/-- The position of the first spec of a list that `word` matches, found without an index. -/
def scan? (specs : List Spec) (word : Word) : Option Nat :=
  specs.findIdx? fun s => s.accepts word

/-- A line about the size of the table and of its index. -/
def summary (t : Table) : String :=
  let entries := t.buckets.foldl (fun n bucket => n + bucket.length) 0
  let empty := (t.buckets.toList.filter List.isEmpty).length
  "arm64: " ++ Nat.repr t.size ++ " opcodes, " ++ Nat.repr entries ++ " lookaside entries, " ++
    Nat.repr empty ++ " empty buckets"

end Table

end A64Disassembler
