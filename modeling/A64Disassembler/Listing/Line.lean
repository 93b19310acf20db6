import A64Disassembler.Session

/-!
# The lines of a listing

A listing divides a sequence of bytes into segments: one for each decoded instruction, for each
word or rest that cannot be decoded, and for each folded run of zeroes. Every segment is a line;
a line may be preceded by the header of a symbol. The lines are data here, and made into text
elsewhere.
-/

namespace A64Disassembler.Listing

/-- The number of bytes that fill the raw column of a line. -/
def bytesPerLine : Nat := 4

/-- The length of the shortest run of zeroes that may be folded. -/
def foldSize : Nat := 4

/-- The number of bits of an address. -/
def addressBits : Nat := 64

/-- A line that names an address. -/
structure Header where
  address : Address
  name : String
  /-- How far the address lies before the symbol. -/
  distance : Address := 0
  deriving DecidableEq, Repr

/-- What a line shows of its bytes. -/
inductive Body
  /-- A run of zeroes, which is not shown. -/
  | folded
  /-- A decoded instruction. -/
  | insn (insn : Insn)
  /-- Bytes that do not decode. -/
  | undecoded
  deriving DecidableEq, Repr

/-- A line for a segment of the data, with the header before it. -/
structure Line where
  header : Option Header
  address : Address
  bytes : List UInt8
  body : Body
  deriving DecidableEq, Repr

/-- The part of the listing state that decides about headers. -/
structure Headers where
  /-- The name for the first line and its distance from that line, until it is used. -/
  first : Option (String × Address)
  /-- The next symbol to be named. -/
  next : Option Symbol
  deriving DecidableEq, Repr

variable (m : Markup)

/-- The headers at the start of a listing. Without a symbol at its first address a listing that
is not a continuation starts with the distance to the next symbol or with the section. -/
def Headers.start (sectionName : String) (address : Address) (isFirst : Bool) :
    Except Fault Headers := do
  let next := m.symbolAfter address
  let first ← match m.symbolAt address with
    | some s =>
      if address = s.address then pure (some (s.name, 0)) else leading next
    | none => leading next
  return { first, next }
where
  /-- The name for a first line without a symbol of its own. -/
  leading (next : Option Symbol) : Except Fault (Option (String × Address)) :=
    if isFirst then
      match next with
      | some s => do return some (s.name, ← s.address.distanceFrom address)
      | none => .ok (some (sectionName, 0))
    else .ok none

/-- The header of the line at an address, and the headers after it. -/
def Headers.take (h : Headers) (address : Address) : Option Header × Headers :=
  match h.first, h.next with
  | some (name, distance), _ => (some { address, name, distance }, { h with first := none })
  | none, some s =>
    if s.address = address then
      (some { address, name := s.name }, { h with next := m.symbolAfter address })
    else
      (none, h)
  | none, none => (none, h)

/-- The length of the run of zeroes to fold at the start of `data`, which lies at `address`. A
run ends at the next symbol. It is folded in whole words, if it reaches the symbol or the end of
the data or is nearly two words long. -/
def foldedZeroes (options : Options) (address : Address) (data : List UInt8) :
    Except Fault (Option Nat) :=
  if options.decodeZeroes ∨ data.take foldSize ≠ List.replicate foldSize 0 then .ok none
  else do
    let zeroes := (data.takeWhile (· == 0)).length
    let toSymbol ← match m.symbolAfter address with
      | some s => do pure (some (← s.address.distanceFrom address).toNat)
      | none => pure none
    let run := min (toSymbol.getD zeroes) zeroes
    let isCut := toSymbol = some run ∨ (data.drop run).isEmpty
    if (run ≠ 0 ∧ isCut) ∨ 2 * foldSize - 1 ≤ run then
      let folded := run - run % foldSize
      return if folded = 0 then none else some folded
    else
      return none

/-- The body of the line at the start of `data`, the number of its bytes, and the session after
it. A rest that is too short for an instruction is shown as a whole. -/
def nextBody (s : Session) (data : List UInt8) : Except Fault (Body × Nat × Session) := do
  match ← foldedZeroes m s.decoder.options s.address data with
  | some count => return (.folded, count, ← s.skip count)
  | none =>
    match ← s.decode (data.take insnSize) with
    | .ok (insn, next) => return (.insn insn, insn.length, next)
    | .error (.more _) => return (.undecoded, data.length, ← s.skip data.length)
    | .error (.failed count) => return (.undecoded, count, ← s.skip count)

/-- The lines for `data` after those in `done`, which are in reverse order, the session after
them, and the fault that ended the listing early. Each line takes at least one byte, so `fuel`
lines suffice for as many bytes. -/
def linesFrom : (fuel : Nat) → Session → Headers → List UInt8 → (done : List Line) →
    List Line × Except Fault Session
  | 0, s, _, data, done =>
    (done.reverse, if data.isEmpty then .ok s else .error .outOfBounds)
  | fuel + 1, s, h, data, done =>
    if data.isEmpty then (done.reverse, .ok s)
    else
      match nextBody m s data with
      | .error f => (done.reverse, .error f)
      | .ok (body, count, next) =>
        let (header, h) := h.take m s.address
        let line := { header, address := s.address, bytes := data.take count, body }
        linesFrom fuel next h (data.drop count) (line :: done)

/-- The lines for `data` at the current address of a session. -/
def lines (s : Session) (sectionName : String) (data : List UInt8) (isFirst : Bool) :
    List Line × Except Fault Session :=
  match Headers.start m sectionName s.address isFirst with
  | .error f => ([], .error f)
  | .ok h => linesFrom m data.length s h data []

end A64Disassembler.Listing
