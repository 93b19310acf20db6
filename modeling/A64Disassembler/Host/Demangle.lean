import A64Disassembler.Text.Numeral

/-!
# Mangled names

A compiler writes the path of a function into one name: every part of the path after the number
of its characters. What such a name stands for can be read off again. Names of any other form
are not known here.
-/

namespace A64Disassembler.Host.Demangle

/-- A part of a path after its length, and what follows it. -/
def part? (text : List Char) : Option (List Char × List Char) :=
  let isDigit (c : Char) := (Numeral.decimalDigit? c).isSome
  let digits := text.takeWhile isDigit
  let rest := text.dropWhile isDigit
  match Numeral.readDecimal? digits with
  | some n =>
    if digits.head? ≠ some '+' ∧ 0 < n.toNat ∧ n.toNat ≤ rest.length then
      some (rest.take n.toNat, rest.drop n.toNat)
    else none
  | none => none

/-- The parts of a path up to its end, and what follows the end. -/
def partsFrom : (fuel : Nat) → List Char → Option (List (List Char) × List Char)
  | 0, _ => none
  | _, 'E' :: rest => some ([], rest)
  | fuel + 1, text =>
    match part? text with
    | some (part, rest) => (partsFrom fuel rest).map fun (parts, rest) => (part :: parts, rest)
    | none => none

/-- The path in a mangled name, and what follows it. -/
def path? (name : List Char) : Option (List (List Char) × List Char) :=
  match name with
  | '_' :: 'Z' :: 'N' :: rest => partsFrom (rest.length + 1) rest
  | _ => none

/-- The text of a path. -/
def pathText (parts : List (List Char)) : List Char :=
  [':', ':'].intercalate parts

/-- Whether the last part of a path tells versions of one function apart: `h` and 16 digits. -/
def isHash : List Char → Bool
  | 'h' :: digits => digits.length == 16 && digits.all fun c => (Numeral.hexDigit? c).isSome
  | _ => false

/-- What a path stands for that ends with a hash. -/
def rust? (name : List Char) : Option (List Char) :=
  match path? name with
  | some (parts, []) =>
    some (pathText (if parts.getLast?.any isHash then parts.dropLast else parts))
  | _ => none

/-- The text of the parameters of a function: none at all, or the name is no function. -/
def parameters? : List Char → Option (List Char)
  | [] => some []
  | ['v'] => some ['(', ')']
  | _ => none

/-- What a function name stands for, which may be a path. -/
def gnuV3? (name : List Char) : Option (List Char) :=
  match path? name with
  | some (parts, rest) =>
    if parts.isEmpty then none else (parameters? rest).map (pathText parts ++ ·)
  | none =>
    match name with
    | '_' :: 'Z' :: text =>
      match part? text with
      | some (part, rest) => (parameters? rest).map (part ++ ·)
      | none => none
    | _ => none

end A64Disassembler.Host.Demangle
