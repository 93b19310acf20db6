import A64Disassembler.Text.Blank
import A64Disassembler.Text.Numeral

/-!
# Settings of the command

The settings are made from the values that are given for the options. An option that is not given
has its default. How options are told from values on the command line is not decided here.
-/

namespace A64Disassembler.Command

/-- Whether listings are colored. -/
inductive Color
  | off
  | on
  | extended
  deriving DecidableEq, Repr

/-- How symbol names are demangled. -/
inductive Demangling
  | none
  | auto
  | gnuV3
  | rust
  deriving DecidableEq, Repr

/-- The style of demangling with the given name. -/
def Demangling.ofName? : String → Option Demangling
  | "none" => some none
  | "auto" => some auto
  | "gnu-v3" => some gnuV3
  | "rust" => some rust
  | _ => Option.none

/-- What the command is asked to do. -/
structure Settings where
  allSections : Bool := false
  decodeZeroes : Bool := false
  /-- The names of the sections to show, all sections of instructions if empty. -/
  sections : List String := []
  /-- The words given as options of the disassembler. -/
  options : List String := []
  color : Color := .off
  demangling : Demangling := .auto
  startAddress : Address := 0
  stopAddress : Address := -1
  raw : Bool := false
  loadAddress : Address := 0
  path : String := "a.out"
  deriving DecidableEq, Repr

/-- The options of a command line with the values that are given for them. -/
structure Given where
  disassembleAll : Bool := false
  disassembleZeroes : Bool := false
  raw : Bool := false
  /-- The values of the options for the disassembler, in order. -/
  options : List String := []
  color : Option String := none
  /-- The styles of demangling, in order. -/
  demanglings : List Demangling := []
  sections : List String := []
  startAddress : Option String := none
  stopAddress : Option String := none
  loadAddress : Option String := none
  path : Option String := none
  deriving DecidableEq, Repr

/-- An address: hexadecimal after `0x`, else decimal. -/
def address? (text : String) : Option Address :=
  match text.toList with
  | '0' :: 'x' :: digits => Numeral.readHex? digits
  | '0' :: 'X' :: digits => Numeral.readHex? digits
  | digits => Numeral.readDecimal? digits

/-- The color mode with the given name. Some modes leave the choice to the terminal, for which
`auto` is the right one. -/
def color? (auto : Color) : String → Option Color
  | "off" => some .off
  | "on" => some .on
  | "auto" => some auto
  | "terminal" => some auto
  | "extended" => some .extended
  | _ => none

/-- The parts of a text between commas. -/
def commaParts (text : List Char) : List (List Char) :=
  text.foldr
    (fun c parts =>
      if c = ',' then [] :: parts
      else match parts with
        | [] => [[c]]
        | part :: rest => (c :: part) :: rest)
    [[]]

/-- The words of disassembler options, which are separated by commas. -/
def optionWords (values : List String) : List String :=
  let joined := [','].intercalate (values.map String.toList)
  (((commaParts joined).map Text.trim).filter (· ≠ [])).map String.ofList

/-- The value of an option that may be left out. -/
def valueOr {α : Type} (default : α) (read? : String → Option α) : Option String → Option α
  | none => some default
  | some text => read? text

/-- The settings that the given options stand for, if their values can be read. The last style of
demangling counts. -/
def Given.settings? (given : Given) (auto : Color) : Option Settings := do
  return {
    allSections := given.disassembleAll
    decodeZeroes := given.disassembleZeroes
    sections := given.sections
    options := optionWords given.options
    color := ← valueOr auto (color? auto) given.color
    demangling := given.demanglings.getLast?.getD .auto
    startAddress := ← valueOr 0 address? given.startAddress
    stopAddress := ← valueOr (-1) address? given.stopAddress
    raw := given.raw
    loadAddress := ← valueOr 0 address? given.loadAddress
    path := given.path.getD "a.out" }

end A64Disassembler.Command
