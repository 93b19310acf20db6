import A64Disassembler.Command.Settings

/-!
# Command-line arguments

Options stand anywhere among the arguments, in a short or a long form. The value of an option is
the next argument, or the rest of its own argument; after an equals sign it may start with a minus
sign. Most options may be given once. What is no option is the name of the file.
-/

namespace A64Disassembler.Host

open Command (Demangling Given)

/-- An option that has no value. -/
inductive Switch
  | disassemble
  | disassembleAll
  | disassembleZeroes
  | raw
  deriving DecidableEq, Repr

/-- An option with a value. -/
inductive Setting
  | options
  | color
  | sectionName
  | startAddress
  | stopAddress
  | loadAddress
  deriving DecidableEq, Repr

/-- What the name of an option means. -/
inductive Meaning
  | switch (s : Switch)
  | setting (s : Setting)
  /-- Demangling, with or without a style. -/
  | demangle
  deriving DecidableEq, Repr

/-- The short names. -/
def shortNames : List (Char × Meaning) :=
  [('d', .switch .disassemble), ('D', .switch .disassembleAll), ('z', .switch .disassembleZeroes),
    ('M', .setting .options), ('C', .demangle), ('j', .setting .sectionName)]

/-- The long names. -/
def longNames : List (String × Meaning) :=
  [("disassemble", .switch .disassemble), ("disassemble-all", .switch .disassembleAll),
    ("disassemble-zeroes", .switch .disassembleZeroes), ("raw", .switch .raw),
    ("disassembler-options", .setting .options), ("disassembler-color", .setting .color),
    ("demangle", .demangle), ("section", .setting .sectionName),
    ("start-address", .setting .startAddress), ("stop-address", .setting .stopAddress),
    ("adjust-vma", .setting .loadAddress)]

/-- A part of the command line. -/
inductive Token
  /-- The name of an option, with the value that belongs to it if there is one. -/
  | option (meaning : Meaning) (value : Option (List Char))
  /-- A value or the name of the file. -/
  | word (text : List Char)
  /-- The name of the file. -/
  | file (text : List Char)
  deriving DecidableEq, Repr

/-- The parts of a block of letters, if all of them are known: any number of switches, at the end
possibly an option that takes a value. What follows such an option is the next word. -/
def blockTokens? : List Char → Option (List Token)
  | [] => some []
  | c :: rest => do
    match ← shortNames.lookup c with
    | .switch s => return .option (.switch s) none :: (← blockTokens? rest)
    | meaning => return .option meaning none :: if rest.isEmpty then [] else [.word rest]

/-- The parts of an argument that starts with a single minus sign, if its option is known. An
equals sign anywhere gives the first letter a value, which is all that follows the letter, less
an equals sign right after it. Otherwise the letters are a block, or a word if they are several
and not all known. -/
def shortTokens? : List Char → Option (List Token)
  | [] => some [.word ['-']]
  | [c] => blockTokens? [c]
  | c :: '=' :: value => do return [.option (← shortNames.lookup c) (some value)]
  | c :: rest =>
    if rest.contains '=' then do return [.option (← shortNames.lookup c) (some rest)]
    else some ((blockTokens? (c :: rest)).getD [.word ('-' :: c :: rest)])

/-- The parts of the command line, if all options are known. After two minus signs, all
arguments are names of files. -/
def tokens? : List (List Char) → Option (List Token)
  | [] => some []
  | ['-', '-'] :: rest => some (rest.map Token.file)
  | ('-' :: '-' :: name) :: rest => do
    let (name, value) := match Text.splitOnce ['='] name with
      | some (name, value) => (name, some value)
      | none => (name, none)
    let meaning ← longNames.lookup (String.ofList name)
    return .option meaning value :: (← tokens? rest)
  | ('-' :: block) :: rest => do return (← shortTokens? block) ++ (← tokens? rest)
  | text :: rest => do return .word text :: (← tokens? rest)

/-- What is given so far, and the options that must not be given again. -/
structure Progress where
  given : Given := {}
  seen : List Meaning := []

namespace Progress

variable (p : Progress)

/-- Marks an option as given, if it has not been given before. -/
def once (meaning : Meaning) : Option Progress :=
  if meaning ∈ p.seen then none else some { p with seen := meaning :: p.seen }

/-- Applies a switch. -/
def switch (s : Switch) : Option Progress := do
  let p ← p.once (.switch s)
  let given := match s with
    | .disassemble => p.given
    | .disassembleAll => { p.given with disassembleAll := true }
    | .disassembleZeroes => { p.given with disassembleZeroes := true }
    | .raw => { p.given with raw := true }
  return { p with given }

/-- Applies an option with its value. -/
def setting (s : Setting) (value : String) : Option Progress :=
  match s with
  | .options => some { p with given := { p.given with options := p.given.options ++ [value] } }
  | .sectionName =>
    some { p with given := { p.given with sections := p.given.sections ++ [value] } }
  | .color => do
    let p ← p.once (.setting s)
    return { p with given := { p.given with color := some value } }
  | .startAddress => do
    let p ← p.once (.setting s)
    return { p with given := { p.given with startAddress := some value } }
  | .stopAddress => do
    let p ← p.once (.setting s)
    return { p with given := { p.given with stopAddress := some value } }
  | .loadAddress => do
    let p ← p.once (.setting s)
    return { p with given := { p.given with loadAddress := some value } }

/-- Applies a style of demangling. -/
def demangling (style : Demangling) : Progress :=
  { p with given := { p.given with demanglings := p.given.demanglings ++ [style] } }

/-- Takes the name of the file, of which there is one. -/
def file (text : List Char) : Option Progress :=
  match p.given.path with
  | some _ => none
  | none => some { p with given := { p.given with path := some (String.ofList text) } }

/-- Goes through the parts of the command line. -/
def run (p : Progress) : List Token → Option Progress
  | [] => some p
  | .option (.switch s) none :: rest => do (← p.switch s).run rest
  | .option (.switch _) (some _) :: _ => none
  | .option (.setting s) (some value) :: rest => do
    (← p.setting s (String.ofList value)).run rest
  | .option (.setting s) none :: .word value :: rest => do
    (← p.setting s (String.ofList value)).run rest
  | .option (.setting _) none :: _ => none
  | .option .demangle (some value) :: rest => do
    (p.demangling (← Demangling.ofName? (String.ofList value))).run rest
  | .option .demangle none :: .word value :: rest =>
    match Demangling.ofName? (String.ofList value) with
    | some style => (p.demangling style).run rest
    | none => do (← (p.demangling .auto).file value).run rest
  | .option .demangle none :: rest => (p.demangling .auto).run rest
  | .word text :: rest => do (← p.file text).run rest
  | .file text :: rest => do (← p.file text).run rest

end Progress

/-- The options that are given by the arguments, if these are well formed. -/
def given? (arguments : List String) : Option Given := do
  let tokens ← tokens? (arguments.map String.toList)
  let p ← ({} : Progress).run tokens
  return p.given

end A64Disassembler.Host
