import A64Disassembler.Text.Lines

/-!
# Differences of two texts

A difference tells, line by line, how one text becomes another one. Which lines the two texts have
in common is not decided here: a comparison is a function that its user supplies. What can be
expected of it is that it leaves out no line of the first text and adds none.
-/

namespace A64Disassembler.Text

/-- One step from the left sequence to the right one. -/
inductive Change (α : Type)
  | removed (left : α)
  | kept (left right : α)
  | added (right : α)
  deriving DecidableEq, Repr

/-- The item of the left sequence. -/
def Change.left? {α : Type} : Change α → Option α
  | removed l | kept l _ => some l
  | added _ => none

/-- A removed item is a left item. -/
theorem filterMap_left?_removed {α : Type} (l : α) (rest : List (Change α)) :
    (Change.removed l :: rest).filterMap Change.left? = l :: rest.filterMap Change.left? :=
  rfl

/-- A kept item is a left item. -/
theorem filterMap_left?_kept {α : Type} (l r : α) (rest : List (Change α)) :
    (Change.kept l r :: rest).filterMap Change.left? = l :: rest.filterMap Change.left? :=
  rfl

/-- A comparison of the lines of two texts. -/
abbrev LineDiff : Type :=
  (left right : List Char) → List (Change (List Char))

/-- The lines of a text as a comparison has them: behind a line feed at the end stands one more,
which is empty. -/
def allLines (text : List Char) : List (List Char) :=
  lines text ++ if text.getLast? = some '\n' then [[]] else []

/-- Whether the removed and the kept lines of a difference are the lines of the left text, in
order. -/
def ListsLeft (changes : List (Change (List Char))) (left : List Char) : Prop :=
  changes.filterMap Change.left? = allLines left

instance (changes : List (Change (List Char))) (left : List Char) :
    Decidable (ListsLeft changes left) :=
  inferInstanceAs (Decidable (_ = _))

end A64Disassembler.Text
