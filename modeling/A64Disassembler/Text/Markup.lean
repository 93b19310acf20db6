import A64Disassembler.Text.Numeral

/-!
# Symbols and styles

Printed text depends on two things that are not part of an instruction: the names of addresses
and how each kind of text is made visible. Both are given by a markup.
-/

namespace A64Disassembler

/-- A kind of text. -/
inductive Style
  | mnemonic
  | register
  | immediate
  | address
  | addressOffset
  | symbol
  | comment
  deriving DecidableEq, Repr

/-- A named address. -/
structure Symbol where
  address : Address
  name : String
  deriving DecidableEq, Repr

/-- What a printer needs to know beside the instruction. -/
structure Markup where
  /-- The symbol at or before an address. -/
  symbolAt : Address → Option Symbol
  /-- The first symbol after an address. -/
  symbolAfter : Address → Option Symbol
  /-- A text in its style. -/
  mark : Style → String → String

namespace Markup

/-- No symbols and no styles. -/
def plain : Markup where
  symbolAt _ := none
  symbolAfter _ := none
  mark _ text := text

/-- The symbols of a list in ascending order of addresses. -/
def ofSymbols (symbols : List Symbol) (mark : Style → String → String) : Markup where
  symbolAt a := (symbols.filter fun s => s.address ≤ a).getLast?
  symbolAfter a := symbols.find? fun s => a < s.address
  mark := mark

end Markup

/-- What stands between two parts of a line. -/
inductive Separator
  | tab
  | char (c : Char)
  | text (s : String)
  /-- As many spaces as fill a column of the given width, at least one. -/
  | width (columns : Nat)
  deriving DecidableEq, Repr

/-- The number of spaces in a separator is at most this. -/
def Separator.maxGap : Nat := 0xffff

/-- The separator after a text of `used` bytes, unless a column leaves too wide a gap. -/
def Separator.after (used : Nat) : Separator → Except Fault String
  | tab => .ok "\t"
  | char c => .ok (String.singleton c)
  | text s => .ok s
  | width columns =>
    if columns - used ≤ maxGap then .ok (Numeral.spaces (max 1 (columns - used)))
    else .error .invalid

end A64Disassembler
