import A64Disassembler.Fault

/-!
# Numbers as text

Hexadecimal text in lower case, fields padded on the left, and numbers read from text. A
number is read from digits only, with an optional plus sign in front, and has to fit in 64 bits.
-/

namespace A64Disassembler.Numeral

/-- The hexadecimal digits of `n`. -/
def hex (n : Nat) : String :=
  String.ofList (Nat.toDigits 16 n)

/-- The hexadecimal digits of `n` after `0x`. -/
def prefixedHex (n : Nat) : String :=
  "0x" ++ hex n

/-- `value` as a signed number: a minus sign, if any, stands before `0x`. -/
def signedHex (value : BitVec 64) : String :=
  if value.toInt < 0 then "-" ++ prefixedHex value.toInt.natAbs else prefixedHex value.toNat

/-- `value` as a signed decimal number. -/
def signedDecimal (value : BitVec 64) : String :=
  if value.toInt < 0 then "-" ++ Nat.repr value.toInt.natAbs else Nat.repr value.toNat

/-- `text` filled up to `width` characters with copies of `fill` in front. -/
def padLeft (fill : Char) (width : Nat) (text : String) : String :=
  String.ofList (List.replicate (width - text.length) fill) ++ text

/-- A run of `count` spaces. -/
def spaces (count : Nat) : String :=
  String.ofList (List.replicate count ' ')

/-- The two hexadecimal digits of a byte. -/
def hexByte (byte : UInt8) : String :=
  padLeft '0' 2 (hex byte.toNat)

/-- The value of a hexadecimal digit in upper or lower case. -/
def hexDigit? (c : Char) : Option Nat :=
  if '0' ≤ c ∧ c ≤ '9' then some (c.toNat - '0'.toNat)
  else if 'a' ≤ c ∧ c ≤ 'f' then some (c.toNat - 'a'.toNat + 10)
  else if 'A' ≤ c ∧ c ≤ 'F' then some (c.toNat - 'A'.toNat + 10)
  else none

/-- The value of a decimal digit. -/
def decimalDigit? (c : Char) : Option Nat :=
  if '0' ≤ c ∧ c ≤ '9' then some (c.toNat - '0'.toNat) else none

/-- The number that `digits` stand for in the given base, if each of them is a digit. -/
def ofDigits? (base : Nat) (digit? : Char → Option Nat) (digits : List Char) : Option Nat :=
  digits.foldl (fun value c => do return (← value) * base + (← digit? c)) (some 0)

/-- Reads an unsigned number of 64 bits: at least one digit, after an optional plus sign. -/
def read? (base : Nat) (digit? : Char → Option Nat) (text : List Char) : Option Address :=
  let digits := match text with
    | '+' :: rest => rest
    | _ => text
  if digits.isEmpty then none
  else match ofDigits? base digit? digits with
    | some n => if n < sizeLimit then some (BitVec.ofNat 64 n) else none
    | none => none

/-- Reads an unsigned hexadecimal number of 64 bits. -/
def readHex? (text : List Char) : Option Address :=
  read? 16 hexDigit? text

/-- Reads an unsigned decimal number of 64 bits. -/
def readDecimal? (text : List Char) : Option Address :=
  read? 10 decimalDigit? text

end A64Disassembler.Numeral
