import A64Disassembler.Command.Settings
import A64Disassembler.Listing.Printer
import A64Disassembler.Object.Input

/-!
# Running the command

The command reads a file, writes a banner, and lists the chosen sections one after the other, as
far as they lie in the window of addresses that is asked for. What it does is given as a value:
the text on the standard output, messages on the standard error, and an exit code. Object files,
mangled names and colors are left to libraries.
-/

namespace A64Disassembler.Command

open Object (Input Section)

/-- What the command leaves behind. -/
structure Outcome where
  code : Nat := 0
  stdout : String := ""
  stderr : List String := []
  deriving DecidableEq, Repr

/-- The exit code after a fault. -/
def faultCode : Nat := 101

/-- The texts of the available disassembler options. -/
def optionHelp : String :=
  "Available options:\n" ++
  "little      Read instruction words in little endian\n" ++
  "  big         Read instruction words in big endian\n" ++
  "  no-aliases  Print the return register of \x60ret x30\x60\n" ++
  "  bindings    Print the backtrace binding of every instruction\n"

/-- How a text stands out. -/
inductive Ink
  | yellow
  | blue
  | magenta
  | green
  | dimmed
  deriving DecidableEq, Repr

/-- How the texts of a style stand out. -/
def Ink.ofStyle : Style → Ink
  | .mnemonic => yellow
  | .register => blue
  | .immediate => magenta
  | .address => magenta
  | .addressOffset => magenta
  | .symbol => green
  | .comment => dimmed

/-- What the command leaves to libraries. -/
structure Libraries where
  /-- The reader of object files. -/
  object : Object.Library
  /-- What a name stands for that is mangled in the style `rust`. -/
  rustName? : String → Option String
  /-- What a name stands for that is mangled in the style `gnu-v3`. -/
  cppName? : String → Option String
  /-- A text that stands out on a terminal. -/
  paint : Ink → String → String

variable (libraries : Libraries)

/-- The name to show for a symbol. -/
def Libraries.demangle (style : Demangling) (name : String) : String :=
  let found := match style with
    | .none => none
    | .auto => (libraries.rustName? name).or (libraries.cppName? name)
    | .gnuV3 => libraries.cppName? name
    | .rust => libraries.rustName? name
  found.getD name

/-- The symbols of an input with the names to show, in ascending order of addresses. -/
def symbols (s : Settings) : Input → List Symbol
  | .raw _ => []
  | .object file =>
    let named := file.symbols.map fun x =>
      { x with name := libraries.demangle s.demangling x.name }
    named.mergeSort fun a b => a.address ≤ b.address

/-- A text in its style. -/
def styled (s : Settings) (style : Style) (text : String) : String :=
  match s.color with
  | .off => text
  | .on | .extended => libraries.paint (.ofStyle style) text

/-- The markup of a listing. -/
def markup (s : Settings) (input : Input) : Markup :=
  Markup.ofSymbols (symbols libraries s input) (styled libraries s)

/-- What the options of the disassembler come to. -/
inductive Choice
  /-- The list of options is asked for. -/
  | help
  /-- Instructions are read in the given order. -/
  | order (endian : Endian)

/-- Goes through the options of the disassembler. Options that are not known give a warning. -/
def choose (endian : Endian) : List String → List String × Choice
  | [] => ([], .order endian)
  | "help" :: _ => ([], .help)
  | "little" :: rest => choose .little rest
  | "big" :: rest => choose .big rest
  | "no-aliases" :: rest => choose endian rest
  | "bindings" :: rest => choose endian rest
  | name :: rest =>
    let (warnings, choice) := choose endian rest
    (("warning: unsupported option \x60" ++ name ++ "\x60") :: warnings, choice)

/-- How the instructions of a file are decoded and shown. -/
def decodeOptions (s : Settings) (endian : Endian) : Options where
  showAliases := !s.options.contains "no-aliases"
  decodeZeroes := s.decodeZeroes
  showBindings := s.options.contains "bindings"
  endian := endian

/-- The name of the format of a file whose instructions are read in the given order. -/
def formatName (input : Input) (endian : Endian) : String :=
  match input with
  | .raw _ => "binary"
  | .object file =>
    let container := match file.format, file.is64 with
      | .elf, false => "elf32"
      | .elf, true => "elf64"
      | .machO, _ => "mach-o"
      | .pe, _ => "pei"
      | .coff, _ => "coff"
      | .other, _ => "unknown"
    let order := match endian with
      | .little => "little"
      | .big => "big"
    container ++ "-" ++ order ++ "aarch64"

/-- The lines before the first section. -/
def banner (s : Settings) (input : Input) (endian : Endian) : String :=
  "\n" ++ s.path ++ ":     file format " ++ formatName input endian ++ "\n\n"

/-- The part of `data`, which lies at `address`, between the start and the stop address, and the
address of that part; nothing if the data lies outside. -/
def window (s : Settings) (address : Address) (data : List UInt8) :
    Except Fault (Option (Address × List UInt8)) := do
  let stop ← address.advance data.length
  if s.stopAddress ≤ address ∨ stop ≤ s.startAddress then return none
  else
    let data :=
      if s.stopAddress < stop then data.take (s.stopAddress - address).toNat else data
    if address < s.startAddress then
      let skipped := (s.startAddress - address).toNat
      if skipped ≤ data.length then return some (s.startAddress, data.drop skipped)
      else throw .outOfBounds
    else return some (address, data)

/-- The listing of a section. -/
def sectionOutput (s : Settings) (m : Markup) (options : Options) (name : String)
    (address : Address) (data : List UInt8) : Listing.Output :=
  match window s address data with
  | .error f => { fault := some f }
  | .ok none => {}
  | .ok (some (address, data)) =>
    let title : Listing.Output := { text := "\nDisassembly of section " ++ name ++ ":\n" }
    title.append (Listing.print m (Session.start options address) name data true).1

/-- The sections to show, with the names to show them by. A section that is asked for but does
not exist is left out. -/
def chosenSections (s : Settings) (file : Object.File) : List (Except String String × Section) :=
  if s.sections.isEmpty then
    (file.sections.filter fun x =>
      x.kind == .text || (s.allSections && x.kind != .uninitialized)).map fun x => (x.name, x)
  else
    s.sections.filterMap fun name => (file.sectionNamed? name).map fun x => (.ok name, x)

/-- The listings of sections after the output `done`, up to a fault, and the message about the first
section that cannot be read. -/
def sectionsOutput (s : Settings) (m : Markup) (options : Options) (done : Listing.Output) :
    List (Except String String × Section) → Listing.Output × Option String
  | [] => (done, none)
  | (name, x) :: rest =>
    match done.fault, name, x.content with
    | some _, _, _ => (done, none)
    | none, .error message, _ => (done, some message)
    | none, .ok _, .error message => (done, some message)
    | none, .ok name, .ok content =>
      let output := sectionOutput s m options name x.address content.toList
      sectionsOutput s m options (done.append output) rest

/-- The outcome of an error with the given message. -/
def failure (message : String) : Outcome :=
  { code := 1, stderr := ["Error: " ++ message] }

/-- The listing of a file whose instructions are read in the given order. -/
def listing (s : Settings) (input : Input) (endian : Endian) : Outcome :=
  let m := markup libraries s input
  let options := decodeOptions s endian
  let start : Listing.Output := { text := banner s input endian }
  let (output, error) := match input with
    | .raw data =>
      (start.append (sectionOutput s m options "raw" s.loadAddress data.toList), none)
    | .object file => sectionsOutput s m options start (chosenSections s file)
  match output.fault, error with
  | some _, _ => { code := faultCode, stdout := output.text }
  | none, none => { stdout := output.text }
  | none, some message => { failure message with stdout := output.text }

/-- The order in which the instructions of a file are stored, if it is for the right machine. -/
def inputOrder? : Input → Option Endian
  | .raw _ => some .little
  | .object file =>
    match file.architecture with
    | .aarch64 | .aarch64Ilp32 => some file.endian
    | .other => none

/-- Runs the command on the content of its file. -/
def runOn (s : Settings) (data : ByteArray) : Outcome :=
  match libraries.object.input s.raw data with
  | .error message => failure message
  | .ok input =>
    match inputOrder? input with
    | none => { code := 1, stderr := ["error: unsupported architecture"] }
    | some endian =>
      match choose endian s.options with
      | (warnings, .help) => { stdout := optionHelp, stderr := warnings }
      | (warnings, .order endian) =>
        let outcome := listing libraries s input endian
        { outcome with stderr := warnings ++ outcome.stderr }

/-- The outcome for arguments that are not well formed. -/
def usageError : Outcome :=
  failure "invalid arguments"

/-- The outcome for a file that cannot be read. -/
def readError : Outcome :=
  failure "the file cannot be read"

end A64Disassembler.Command
