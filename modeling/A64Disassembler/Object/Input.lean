import A64Disassembler.Object.File

/-!
# The input of the command

A file that no library knows is a sequence of instruction words, and so is every file if that is
asked for. Of a fat file the part for the right machine is taken.
-/

namespace A64Disassembler.Object

/-- A file to be disassembled. -/
inductive Input
  /-- Instruction words. -/
  | raw (data : ByteArray)
  | object (file : File)

namespace Library

variable (library : Library)

/-- The content of the first file for the right machine in a fat file. -/
def slice (is64 : Bool) (data : ByteArray) : Except String ByteArray := do
  let slices ← library.slices is64 data
  match slices.find? fun s => s.architecture == .aarch64 with
  | some s => s.content
  | none => throw "\"fat Mach-O without an arm64 slice\""

/-- The input with the given content, which is taken as instruction words if `raw` is set. -/
def input (raw : Bool) (data : ByteArray) : Except String Input :=
  if raw then .ok (.raw data)
  else match library.kind? data with
    | none => .ok (.raw data)
    | some (.fat is64) => do return .object (← library.file (← library.slice is64 data))
    | some .single => do return .object (← library.file data)

end Library

end A64Disassembler.Object
