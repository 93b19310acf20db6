/-!
# Lines of a text

A line ends with a line feed, and a carriage return right before it belongs to the end of the
line. What follows the last line feed is a line only if it is not empty.
-/

namespace A64Disassembler.Text

/-- A line that is given in reverse order, without the carriage return at its end. -/
def finishLine : List Char → List Char
  | '\r' :: rest => rest.reverse
  | current => current.reverse

/-- The lines of a text after the line that has just begun, which is in reverse order. -/
def linesFrom : (current : List Char) → List Char → List (List Char)
  | current, [] => if current.isEmpty then [] else [current.reverse]
  | current, '\n' :: rest => finishLine current :: linesFrom [] rest
  | current, c :: rest => linesFrom (c :: current) rest

/-- The lines of a text. -/
def lines (text : List Char) : List (List Char) :=
  linesFrom [] text

end A64Disassembler.Text
