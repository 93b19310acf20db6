import A64Disassembler.Text.Blank
import A64Disassembler.Text.Lines
import A64Disassembler.Text.Numeral

/-!
# Test files

A test file states what instruction words stand for. A line holds an optional address in
hexadecimal with a colon, words in hexadecimal, after at least two spaces the expected text, and
after `//` a comment. A word is stored with its lowest byte first. A line without an address
continues after the test before it; lines without words or text are skipped.
-/

namespace A64Disassembler.TestFile

/-- One test. -/
structure Test where
  line : Nat := 0
  comment : List Char := []
  address : Address := 0
  bytes : List UInt8 := []
  /-- The expected text. -/
  expected : List Char := []
  deriving DecidableEq, Repr, Inhabited

/-- What is wrong with a line. -/
inductive Problem
  /-- The text before the colon is no address. -/
  | invalidAddress (text : List Char)
  /-- A word has an odd number of digits, other characters, or does not fit in 64 bits. -/
  | invalidWord (text : List Char)
  /-- There is no word. -/
  | noBytes
  /-- The test does not start after the one before it. -/
  | backwards (address : Address)
  deriving DecidableEq, Repr

/-- The description of a problem. -/
def Problem.message : Problem → String
  | invalidAddress text => "invalid address \"" ++ String.ofList text ++ "\""
  | invalidWord text => "invalid instruction word \"" ++ String.ofList text ++ "\""
  | noBytes => "no instruction bytes"
  | backwards address => "address " ++ Numeral.prefixedHex address.toNat ++ " goes backwards"

/-- A problem at a line of a file. -/
structure Error where
  file : String
  line : Nat
  problem : Problem
  deriving DecidableEq, Repr

/-- The text of an error. -/
def Error.message (e : Error) : String :=
  "error: " ++ e.problem.message ++ ", " ++ e.file ++ ":" ++ Nat.repr e.line

/-- The `count` low bytes of a number, lowest first. -/
def lowBytes (count : Nat) (n : Nat) : List UInt8 :=
  (List.range count).map fun i => UInt8.ofNat (n >>> (8 * i))

/-- The bytes of a word, unless it is no word. A number of at most 64 bits that is written with
more than 16 digits has no bytes at all. -/
def wordBytes? (text : List Char) : Except Fault (Option (List UInt8)) :=
  if text.length % 2 = 0 ∧ text.all (fun c => (Numeral.hexDigit? c).isSome) then
    match Numeral.readHex? text with
    | none => .ok none
    | some value =>
      if text.length / 2 ≤ 8 then .ok (some (lowBytes (text.length / 2) value.toNat))
      else .error .outOfBounds
  else .ok none

/-- Appends the bytes of words to `bytes` up to the first that is no word. -/
def readWords (bytes : List UInt8) : List (List Char) →
    Except Fault (List UInt8 × Option Problem)
  | [] => .ok (bytes, none)
  | text :: rest => do
    match ← wordBytes? text with
    | some more => readWords (bytes ++ more) rest
    | none => return (bytes, some (.invalidWord text))

/-- The address at the start of a line and the rest of the line. The text before the first colon
is meant as an address if it is a single word. -/
def splitAddress (text : List Char) : Option (List Char × List Char) :=
  (Text.splitOnce [':'] text).filter fun (head, _) => !(Text.trim head).contains ' '

/-- A position in a test file. -/
structure Reader where
  file : String
  /-- The lines that are still to be read. -/
  rest : List (List Char)
  /-- The number of the last line that was read. -/
  line : Nat := 0
  /-- Where a test without an address starts. -/
  nextAddress : Address := 0
  deriving DecidableEq, Repr

namespace Reader

/-- The start of a file. -/
def start (file : String) (text : List Char) : Reader :=
  { file, rest := Text.lines text }

variable (r : Reader)

/-- Reads the words and the text of a test, for which line, comment and address are known. -/
def readBody (t : Test) (text : List Char) :
    Except Fault (Except Problem Unit × Reader × Test) := do
  let (wordText, expected) := (Text.splitOnce [' ', ' '] text).getD (text, [])
  let (bytes, problem) ← readWords t.bytes (Text.words wordText)
  let t := { t with bytes }
  match problem with
  | some p => return (.error p, r, t)
  | none =>
    if bytes.isEmpty then return (.error .noBytes, r, t)
    else
      let nextAddress ← t.address.advance bytes.length
      return (.ok (), { r with nextAddress }, { t with expected := Text.trim expected })

/-- Reads a line that is not blank; its comment is cut off already. -/
def readLine (t : Test) (text comment : List Char) :
    Except Fault (Except Problem Unit × Reader × Test) :=
  let t := { t with line := r.line, comment := Text.trim comment, address := r.nextAddress }
  match splitAddress text with
  | none => r.readBody t text
  | some (head, tail) =>
    match Numeral.readHex? (Text.trim head) with
    | none => .ok (.error (.invalidAddress head), r, t)
    | some address => r.readBody { t with address } (Text.trimStart tail)

/-- Reads the next test from the given lines. -/
def nextFrom (t : Test) : Reader → List (List Char) →
    Except Fault (Except Error Bool × Reader × Test)
  | r, [] => .ok (.ok false, { r with rest := [] }, t)
  | r, text :: rest =>
    let r := { r with rest, line := r.line + 1 }
    let (text, comment) := (Text.splitOnce ['/', '/'] text).getD (text, [])
    let text := Text.trim text
    if text.isEmpty then nextFrom t r rest
    else do
      let (result, r, t) ← r.readLine t text comment
      match result with
      | .ok () => return (.ok true, r, t)
      | .error problem => return (.error { file := r.file, line := r.line, problem }, r, t)

/-- Reads the next test into `t`. The answer is whether there was one. What a failed reading did
not reach keeps its former content, apart from the bytes. -/
def next (t : Test) : Except Fault (Except Error Bool × Reader × Test) :=
  nextFrom { t with bytes := [] } r r.rest

end Reader

/-- The tests from a reader on, up to the first error, with the reader after each of them; then
whether there was an error or the end. Each test takes at least one line, so `fuel` tests suffice
for fewer lines. -/
def testsFrom : (fuel : Nat) → Reader → Test → List Test × Except Fault (Except Error Unit)
  | 0, _, _ => ([], .ok (.ok ()))
  | fuel + 1, r, t =>
    match r.next t with
    | .error f => ([], .error f)
    | .ok (.error e, _, _) => ([], .ok (.error e))
    | .ok (.ok false, _, _) => ([], .ok (.ok ()))
    | .ok (.ok true, r, t) =>
      let (tests, last) := testsFrom fuel r t
      (t :: tests, last)

/-- All tests of a file up to the first error. -/
def tests (file : String) (text : List Char) : List Test × Except Fault (Except Error Unit) :=
  let r := Reader.start file text
  testsFrom (r.rest.length + 1) r {}

end A64Disassembler.TestFile
