/-!
# Blank characters and words

Texts are divided into words at blanks. Every character with the White_Space property is a
blank, so also the wide spaces and the line separators outside of ASCII.
-/

namespace A64Disassembler.Text

/-- The code points of all blanks. -/
def blankCodes : List Nat :=
  [0x09, 0x0a, 0x0b, 0x0c, 0x0d, 0x20, 0x85, 0xa0, 0x1680, 0x2000, 0x2001, 0x2002, 0x2003,
    0x2004, 0x2005, 0x2006, 0x2007, 0x2008, 0x2009, 0x200a, 0x2028, 0x2029, 0x202f, 0x205f,
    0x3000]

/-- Whether a character is a blank. -/
def isBlank (c : Char) : Bool :=
  blankCodes.contains c.toNat

/-- The text without blanks at its start. -/
def trimStart (text : List Char) : List Char :=
  text.dropWhile isBlank

/-- The text without blanks at its end. -/
def trimEnd (text : List Char) : List Char :=
  (text.reverse.dropWhile isBlank).reverse

/-- The text without blanks at either end. -/
def trim (text : List Char) : List Char :=
  trimEnd (trimStart text)

/-- The words of a text after the word that has just begun, which is in reverse order. -/
def wordsFrom : (current : List Char) → List Char → List (List Char)
  | current, [] => if current.isEmpty then [] else [current.reverse]
  | current, c :: rest =>
    if isBlank c then
      if current.isEmpty then wordsFrom [] rest else current.reverse :: wordsFrom [] rest
    else
      wordsFrom (c :: current) rest

/-- The maximal runs of characters that are not blanks. -/
def words (text : List Char) : List (List Char) :=
  wordsFrom [] text

/-- The words of a text with single spaces between them. -/
def normalize (text : List Char) : List Char :=
  [' '].intercalate (words text)

/-- The parts of a text before and after the first occurrence of a separator. -/
def splitOnce (separator : List Char) : List Char → Option (List Char × List Char)
  | [] => if separator.isEmpty then some ([], []) else none
  | c :: rest =>
    if separator.isPrefixOf (c :: rest) then some ([], (c :: rest).drop separator.length)
    else (splitOnce separator rest).map fun (before, after) => (c :: before, after)

end A64Disassembler.Text
