import A64Disassembler.Host.LineDiff

/-!
# The left items of a difference

The changes from one sequence to another one are found by walking back through a table, between the
items that both have in common at the start and at the end. Whatever the table says, every step
takes the next item of the left sequence, or of the right one, or of both, and none is left at the
end. So the removed and the kept items are the left sequence, in order, as is expected of a
comparison.
-/

namespace A64Disassembler.Host

namespace Diff

variable {α : Type}

/-- The left items of the changes that a walk finds are those that it starts with. -/
theorem filterMap_left?_walk (t : Array (Array Nat)) (left right : List α)
    (done : List (Text.Change α)) :
    (walk t left right done).filterMap Text.Change.left? =
      left.reverse ++ done.filterMap Text.Change.left? := by
  fun_induction walk t left right done with
  | case1 done => rfl
  | case2 r right done ih => rw [ih, List.filterMap_cons_none rfl]
  | case3 l left done ih =>
    rw [ih, Text.filterMap_left?_removed, List.reverse_cons, List.append_assoc,
      List.singleton_append]
  | case4 l left r right done here hadd ih => rw [ih, List.filterMap_cons_none rfl]
  | case5 l left r right done here hadd hremove ih =>
    rw [ih, Text.filterMap_left?_removed, List.reverse_cons, List.append_assoc,
      List.singleton_append]
  | case6 l left r right done here hadd hremove ih =>
    rw [ih, Text.filterMap_left?_kept, List.reverse_cons, List.append_assoc,
      List.singleton_append]

/-- The left items of pairs that are kept are the left parts of the pairs. -/
theorem filterMap_left?_keep (pairs : List (α × α)) :
    (pairs.map fun ((l, r) : α × α) => Text.Change.kept l r).filterMap Text.Change.left? =
      pairs.map Prod.fst := by
  induction pairs with
  | nil => rfl
  | cons p rest ih => rw [List.map_cons, Text.filterMap_left?_kept, ih, List.map_cons]

variable [DecidableEq α]

/-- What two sequences have in common at their start is a front of the left one. -/
theorem map_fst_commonStart (left right : List α) :
    (commonStart left right).map Prod.fst = left.take (commonStart left right).length := by
  induction left generalizing right with
  | nil => simp [commonStart]
  | cons l left ih =>
    cases right with
    | nil => simp [commonStart]
    | cons r right =>
      by_cases heq : l = r
      · rw [commonStart, if_pos heq, List.map_cons, ih, List.length_cons, List.take_succ_cons]
      · rw [commonStart, if_neg heq, List.map_nil, List.length_nil, List.take_zero]

/-- The left items of the changes between two sequences are the left sequence. -/
theorem filterMap_left?_changes (left right : List α) :
    (changes left right).filterMap Text.Change.left? = left := by
  have hstart := map_fst_commonStart left right
  let inner := left.drop (commonStart left right).length
  let inner' := right.drop (commonStart left right).length
  have hstop : ((commonStart inner.reverse inner'.reverse).reverse).map Prod.fst =
      inner.drop (inner.length - (commonStart inner.reverse inner'.reverse).length) := by
    rw [List.map_reverse, map_fst_commonStart, List.take_reverse, List.reverse_reverse]
  simp only [changes, List.filterMap_append, filterMap_left?_keep, filterMap_left?_walk, hstart,
    List.reverse_reverse, List.filterMap_nil, List.append_nil, List.length_reverse]
  rw [List.append_assoc, hstop, List.take_append_drop, List.take_append_drop]

end Diff

/-- The comparison by a longest common subsequence lists the lines of the left text. -/
theorem listsLeft_lineChanges (left right : List Char) :
    Text.ListsLeft (lineChanges left right) left := by
  rw [Text.ListsLeft, lineChanges, List.filterMap_append, Diff.filterMap_left?_changes,
    Text.allLines]
  congr 1
  cases hleft : left.getLast? == some '\n' with
  | true =>
    rw [if_pos (beq_iff_eq.mp hleft)]
    cases right.getLast? == some '\n' <;> rfl
  | false =>
    rw [if_neg (beq_eq_false_iff_ne.mp hleft)]
    cases right.getLast? == some '\n' <;> rfl

end A64Disassembler.Host
