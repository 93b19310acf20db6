import A64Disassembler.Effect.Analysis
import A64Disassembler.TestFile.Reader
import A64Disassembler.TestFile.Report

/-!
# Running test files

Every test is decoded at its address, and the text of the instruction is compared with the
expected text up to runs of blanks. What a test is decoded with is up to the runner. The built-in
runner goes by the flags in the comment of a test: they choose how it is decoded and whether its
binding is shown, and a flag that is not known ends the run.
-/

namespace A64Disassembler.TestFile

/-- The text that is expected for bytes that do not decode. -/
def badText : String := "(bad)"

/-- The flags of a comment: names after a plus sign, which sets them, or a minus sign. -/
def flagsOf (comment : List Char) : List (List Char × Bool) :=
  (Text.words comment).filterMap fun
    | '+' :: name => some (name, true)
    | '-' :: name => some (name, false)
    | _ => none

/-- What the bytes of a test are decoded with, and how the instruction is shown. -/
structure Target where
  decoder : Decoder
  /-- Whether the binding of the instruction follows its text. -/
  bindings : Bool

namespace Target

/-- Options and whether bindings are shown, after one more flag. There are no flags with other
names. -/
def setFlag : Options × Bool → List Char × Bool → Except Fault (Options × Bool)
  | (options, bindings), (name, state) =>
    if name = "alias".toList then .ok ({ options with showAliases := state }, bindings)
    else if name = "bindings".toList then .ok (options, state)
    else if name = "big".toList then
      .ok ({ options with endian := if state then .big else .little }, bindings)
    else .error (.unexpected ("unexpected flag " ++ String.ofList name))

/-- The target that flags choose. -/
def ofFlags (flags : List (List Char × Bool)) : Except Fault Target := do
  let (options, bindings) ← flags.foldlM setFlag ({}, false)
  return { decoder := .builtin options, bindings }

/-- The target that the comment of a test chooses. -/
def ofTest (t : Test) : Except Fault Target :=
  ofFlags (flagsOf t.comment)

/-- The text of an instruction for a comparison. -/
def insnText (target : Target) (i : Insn) : Except Fault (List Char) := do
  let text ← target.decoder.printer.insnText .plain i
  let text ← if target.bindings then do
      let b ← target.decoder.binding i
      pure (text ++ " ; " ++ b.text)
    else pure text
  return Text.normalize text.toList

/-- The length and the text of the bytes at an address, and the warnings about them. -/
def resultOf (target : Target) (address : Address) (bytes : List UInt8) :
    Except Fault (Nat × List Char × List String) := do
  match ← target.decoder.decode address bytes with
  | .ok i =>
    let text ← target.insnText i
    let warnings := if target.bindings then (target.decoder.warning? i).toList else []
    return (i.length, text, warnings)
  | .error _ => return (bytes.length, badText.toList, [])

end Target

/-- How a file of tests is run. -/
structure Runner where
  /-- The target of a test. -/
  target : Test → Except Fault Target
  /-- The comparison of a result with what is expected. -/
  diff : Text.LineDiff

namespace Runner

/-- The runner that takes the flags from the comments of the tests. -/
def builtin (diff : Text.LineDiff) : Runner where
  target := Target.ofTest
  diff := diff

variable (r : Runner) (file : String)

/-- What is shown for a test if the result is not the expected one. -/
def mismatchText? (t : Test) (length : Nat) (result : List Char) : Except Fault (Option String) :=
  let expected := Text.normalize t.expected
  let place := ", " ++ file ++ ":" ++ Nat.repr t.line ++ "\n"
  let lengthText :=
    if length = t.bytes.length then ""
    else "error: invalid length" ++ place ++ "  expect: " ++ Nat.repr t.bytes.length ++ "\n" ++
      "  result: " ++ Nat.repr length ++ "\n"
  let outputText := if result = expected then "" else "error: invalid output" ++ place
  if length = t.bytes.length ∧ result = expected then .ok none
  else do
    let m : Mismatch := { file, line := t.line, bytes := t.bytes, expected, result }
    let text ← m.render r.diff
    return some (lengthText ++ outputText ++ text ++ "\n")

/-- What is shown for a test, and the warnings about it. -/
def runTest (t : Test) : Except Fault (Option String × List String) := do
  let target ← r.target t
  let (length, result, warnings) ← target.resultOf t.address t.bytes
  let shown ← r.mismatchText? file t length result
  return (shown, warnings)

/-- What is shown for each of the tests that fail, and the warnings about all of them, up to the
first fault. -/
def runTests : List Test → List String × List String × Option Fault
  | [] => ([], [], none)
  | t :: rest =>
    match r.runTest file t with
    | .error f => ([], [], some f)
    | .ok (shown, warnings) =>
      let (later, laterWarnings, fault) := runTests rest
      (shown.toList ++ later, warnings ++ laterWarnings, fault)

/-- Runs all tests of a file. An error in the file ends the run and is its failure. -/
def run (text : List Char) : Report :=
  let (tests, last) := tests file text
  let (shown, warnings, fault) := r.runTests file tests
  let report : Report := { shown := String.join shown, warnings }
  match fault, last with
  | some f, _ => { report with fault := some f }
  | none, .error f => { report with fault := some f }
  | none, .ok (.error e) => { report with failure := some e.message }
  | none, .ok (.ok ()) =>
    if shown.isEmpty then report
    else { report with failure := some ("failed " ++ Nat.repr shown.length ++ " tests") }

end Runner

end A64Disassembler.TestFile
