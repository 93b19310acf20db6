import A64Disassembler.Listing.Line

/-!
# Listings as text

A line shows its address, its bytes as one number, and the instruction with its binding. The
bytes are reversed in little-endian order, so that the number is the instruction word.
-/

namespace A64Disassembler.Listing

/-- A text that was printed before an operation failed or came to its end. -/
structure Output where
  text : String := ""
  /-- Warnings, in the order in which they were given. -/
  warnings : List String := []
  /-- Why the operation did not come to its end. -/
  fault : Option Fault := none
  deriving DecidableEq, Repr

variable (m : Markup) (d : Decoder)

/-- The line of a header, after an empty line. -/
def Header.text (h : Header) : String :=
  let address := Numeral.padLeft '0' (addressBits / 4) (Numeral.hex h.address.toNat)
  let distance := if h.distance = 0 then "" else "-" ++ Numeral.prefixedHex h.distance.toNat
  "\n" ++ address ++ " <" ++ h.name ++ distance ++ ">:\n"

/-- The raw column. -/
def rawText (order : Endian) (bytes : List UInt8) : String :=
  let shown := match order with
    | .little => bytes.reverse
    | .big => bytes
  String.join (shown.map Numeral.hexByte) ++
    Numeral.spaces ((bytesPerLine - bytes.length) * 2 + 1)

/-- The address column. -/
def addressText (address : Address) : String :=
  let columns := if 0x1000 ≤ address then 8 else 4
  Numeral.padLeft ' ' columns (Numeral.hex address.toNat) ++ ":\t"

/-- The comment column of an instruction. -/
def commentText (b : Binding) : String :=
  if b.isEmpty && !b.isIncomplete then ""
  else "\t" ++ m.mark .comment ("; " ++ b.text)

/-- The output for a line without its header. -/
def Line.bodyOutput (l : Line) : Output :=
  let columns := addressText l.address ++ rawText d.options.endian l.bytes
  match l.body with
  | .folded => { text := "\t...\n" }
  | .undecoded => { text := columns ++ "\tfailed to decode\n" }
  | .insn i =>
    match d.printer.insnText m i with
    | .error f => { text := columns, fault := some f }
    | .ok text =>
      if d.options.showBindings then
        let warnings := (d.warning? i).toList
        match d.binding i with
        | .error f => { text := columns ++ "\t" ++ text, warnings, fault := some f }
        | .ok b => { text := columns ++ "\t" ++ text ++ commentText m b ++ "\n", warnings }
      else
        { text := columns ++ "\t" ++ text ++ "\n" }

/-- The output for a line. -/
def Line.output (l : Line) : Output :=
  let body := l.bodyOutput m d
  match l.header with
  | none => body
  | some h => { body with text := h.text ++ body.text }

/-- Appends the output of a later operation, which does not take place after a fault. -/
def Output.append (o later : Output) : Output :=
  match o.fault with
  | some _ => o
  | none =>
    { text := o.text ++ later.text
      warnings := o.warnings ++ later.warnings
      fault := later.fault }

/-- The output for a sequence of lines. -/
def linesOutput (lines : List Line) : Output :=
  lines.foldl (fun done l => done.append (l.output m d)) {}

/-- Prints the listing of `data` at the current address of a session. -/
def print (s : Session) (sectionName : String) (data : List UInt8) (isFirst : Bool) :
    Output × Session :=
  let (lines, final) := lines m s sectionName data isFirst
  let output := linesOutput m s.decoder lines
  match final with
  | .ok next => (output, next)
  | .error f => (output.append { fault := some f }, s)

end A64Disassembler.Listing
