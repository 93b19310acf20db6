import A64Disassembler.Text.Change

/-!
# Differences by a longest common subsequence

A comparison of lines for the use of the test runner. Items that both sequences have in common are
kept, the other items of the left sequence are removed, those of the right one added.
-/

namespace A64Disassembler.Host

namespace Diff

variable {α : Type} [DecidableEq α]

/-- The lengths of the common subsequences of the left items up to and including `l` with each
initial part of the right items, from those without `l`. -/
def nextRow (l : α) : (diagonal : Nat) → (above : List Nat) → (beside : Nat) → List α → List Nat
  | diagonal, up :: above, beside, r :: rest =>
    let entry := if l = r then diagonal + 1 else max beside up
    entry :: nextRow l up above entry rest
  | _, _, _, _ => []

/-- The lengths of the longest common subsequences of all initial parts: a row for each initial
part of the left items, a column for each one of the right items. -/
def table (left right : List α) : Array (Array Nat) :=
  let start := List.replicate (right.length + 1) 0
  let rows := left.foldl
    (fun (rows, last) l =>
      let row := 0 :: nextRow l 0 last.tail 0 right
      (row :: rows, row))
    ([start], start)
  (rows.1.reverse.map List.toArray).toArray

/-- The length of the longest common subsequence of the first `i` left and `j` right items. -/
def common (t : Array (Array Nat)) (i j : Nat) : Nat :=
  (t.getD i #[]).getD j 0

/-- The changes for the items that are left, in reverse order, before the changes `done`. An
item of the right sequence is added if that loses no common item, else one of the left sequence
is removed if that loses none. -/
def walk (t : Array (Array Nat)) :
    (left right : List α) → List (Text.Change α) → List (Text.Change α)
  | [], [], done => done
  | [], r :: right, done => walk t [] right (.added r :: done)
  | l :: left, [], done => walk t left [] (.removed l :: done)
  | l :: left, r :: right, done =>
    let here := common t (left.length + 1) (right.length + 1)
    if here = common t (left.length + 1) right.length then
      walk t (l :: left) right (.added r :: done)
    else if here = common t left.length (right.length + 1) then
      walk t left (r :: right) (.removed l :: done)
    else
      walk t left right (.kept l r :: done)
termination_by left right => left.length + right.length

/-- The items that two sequences have in common at their start. -/
def commonStart : List α → List α → List (α × α)
  | l :: left, r :: right => if l = r then (l, r) :: commonStart left right else []
  | _, _ => []

/-- The changes between two sequences. What they have in common at the start, and of the rest
at the end, is kept. -/
def changes (left right : List α) : List (Text.Change α) :=
  let start := commonStart left right
  let left := left.drop start.length
  let right := right.drop start.length
  let stop := (commonStart left.reverse right.reverse).reverse
  let left := left.take (left.length - stop.length)
  let right := right.take (right.length - stop.length)
  let keep := List.map fun ((l, r) : α × α) => Text.Change.kept l r
  keep start ++ walk (table left right) left.reverse right.reverse [] ++ keep stop

end Diff

/-- The changes between the lines of two texts. A text that ends with a line feed has an empty
line after it. -/
def lineChanges : Text.LineDiff := fun left right =>
  let last := match left.getLast? == some '\n', right.getLast? == some '\n' with
    | true, true => [.kept [] []]
    | true, false => [.removed []]
    | false, true => [.added []]
    | false, false => []
  Diff.changes (Text.lines left) (Text.lines right) ++ last

end A64Disassembler.Host
