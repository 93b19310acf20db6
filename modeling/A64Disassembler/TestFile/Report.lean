import A64Disassembler.Text.Blank
import A64Disassembler.Text.Change
import A64Disassembler.Text.Numeral

/-!
# Reports on mismatches

A mismatch is shown as a difference of lines, which a comparison finds. Removed and kept lines are
those of the expected text, kept and added lines those of the result. Tabs and blanks at the end of
a line are made visible.
-/

namespace A64Disassembler.TestFile

/-- The number of columns before the sign of a line. -/
def numberColumns : Nat := 5

/-- A line with arrows for tabs and dots for blanks at its end. -/
def visible (line : List Char) : String :=
  let trimmed := Text.trimEnd line
  let shown := trimmed.map fun c => if c = '\t' then '→' else c
  String.ofList (shown ++ List.replicate (line.length - trimmed.length) '•')

/-- A line of a difference: its number, its sign and its text. -/
structure DiffLine where
  number : Nat
  sign : Char
  text : List Char
  deriving DecidableEq, Repr

/-- The lines of a difference, numbered from `number` on. Only a kept line counts. -/
def diffLinesFrom (number : Nat) : List (Text.Change (List Char)) → List DiffLine
  | [] => []
  | .removed l :: rest => { number, sign := '-', text := l } :: diffLinesFrom number rest
  | .kept l _ :: rest => { number, sign := '|', text := l } :: diffLinesFrom (number + 1) rest
  | .added r :: rest => { number, sign := '+', text := r } :: diffLinesFrom number rest

/-- The text of a line of a difference. -/
def DiffLine.render (l : DiffLine) : String :=
  Numeral.padLeft ' ' numberColumns (Nat.repr l.number) ++ " " ++ String.singleton l.sign ++ " " ++
    visible l.text ++ "\n"

/-- A mismatch between an expected text and a result. -/
structure Mismatch where
  file : String
  line : Nat
  /-- The bytes that the texts stand for, if any. -/
  bytes : List UInt8 := []
  expected : List Char
  result : List Char
  deriving DecidableEq, Repr

namespace Mismatch

variable (diff : Text.LineDiff) (m : Mismatch)

/-- The numbered lines of the difference. -/
def diffLines : List DiffLine :=
  diffLinesFrom (max m.line 1) (diff m.expected m.result)

/-- The number that a line after the last one would have. It has to be a size. -/
def nextNumber : Except Fault Nat :=
  addSizes (max m.line 1) ((m.diffLines diff).countP fun l => l.sign == '|')

/-- The text of the mismatch. -/
def text : String :=
  let place :=
    if m.file.isEmpty then ""
    else Numeral.spaces numberColumns ++ "--> " ++ m.file ++ ":" ++ Nat.repr m.line ++ "\n"
  let raw :=
    if m.bytes.isEmpty then ""
    else Numeral.padLeft ' ' numberColumns "raw" ++ " | " ++
      " ".intercalate (m.bytes.map Numeral.hexByte) ++ "\n"
  place ++ raw ++ String.join ((m.diffLines diff).map DiffLine.render)

/-- The text of the mismatch, if its lines can be numbered. -/
def render : Except Fault String :=
  (m.nextNumber diff).map fun _ => m.text diff

end Mismatch

/-- The outcome of comparisons. -/
structure Report where
  /-- What is shown of the mismatches. -/
  shown : String := ""
  /-- Warnings, in the order in which they were given. -/
  warnings : List String := []
  /-- The message about mismatches or an error in the file. -/
  failure : Option String := none
  /-- Why the comparisons did not come to their end. -/
  fault : Option Fault := none
  deriving DecidableEq, Repr

/-- Compares two texts of several lines. There is no answer if the lines of the difference cannot
be numbered. -/
def check (diff : Text.LineDiff) (file : String) (line : Nat) (expected result : String) :
    Report :=
  if expected = result then {}
  else
    let m : Mismatch := { file, line, expected := expected.toList, result := result.toList }
    match m.render diff with
    | .ok text =>
      { shown := "error: invalid result\n" ++ text ++ "\n"
        failure := some "invalid result" }
    | .error f => { fault := some f }

end A64Disassembler.TestFile
