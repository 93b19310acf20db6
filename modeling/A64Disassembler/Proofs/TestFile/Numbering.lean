import A64Disassembler.Proofs.Fault
import A64Disassembler.TestFile.Report

/-!
# The line numbers of a difference

The removed and the kept lines of a difference are the lines of the expected text, in order. Their
numbers start with that of the first line, but only a kept line makes the next number larger. So the
number of a line says how many lines before it are kept, and it is the number of the line in the
expected text exactly if none before it is removed.

The numbers have to be sizes, the one after the last line included. A single comparison before the
lines are written says the same as a check at every line.
-/

namespace A64Disassembler.TestFile

/-- Whether the line is one of the expected text. -/
def DiffLine.isExpected (l : DiffLine) : Bool :=
  l.sign == '-' || l.sign == '|'

/-- The lines of the expected text, with their numbers. -/
def Mismatch.expectedLines (m : Mismatch) (diff : Text.LineDiff) : List DiffLine :=
  (m.diffLines diff).filter DiffLine.isExpected

/-- The lines of a difference, numbered from `number` on, line by line. The number after a kept line
has to be a size. -/
def checkedLinesFrom (number : Nat) : List (Text.Change (List Char)) → Except Fault (List DiffLine)
  | [] => .ok []
  | .removed l :: rest => do
    return { number, sign := '-', text := l } :: (← checkedLinesFrom number rest)
  | .kept l _ :: rest => do
    let next ← addSizes number 1
    return { number, sign := '|', text := l } :: (← checkedLinesFrom next rest)
  | .added r :: rest => do
    return { number, sign := '+', text := r } :: (← checkedLinesFrom number rest)

/-- One more line moves the start on. -/
theorem addSizes_add_one (number kept : Nat) :
    addSizes number (kept + 1) = addSizes (number + 1) kept := by
  rw [addSizes, addSizes, Nat.add_right_comm, Nat.add_assoc]

/-- Numbering line by line comes to its end exactly if the number after the last line is a size. -/
theorem checkedLinesFrom_eq {number : Nat} (hnumber : number < sizeLimit)
    (changes : List (Text.Change (List Char))) :
    checkedLinesFrom number changes =
      (addSizes number ((diffLinesFrom number changes).countP fun l => l.sign == '|')).map
        fun _ => diffLinesFrom number changes := by
  induction changes generalizing number with
  | nil =>
    rw [diffLinesFrom, List.countP_nil, addSizes, if_pos (show number + 0 < sizeLimit from hnumber)]
    rfl
  | cons change rest ih =>
    cases change with
    | removed l | added l =>
      rw [checkedLinesFrom, ih hnumber, diffLinesFrom, List.countP_cons_of_neg (by simp)]
      cases addSizes number ((diffLinesFrom number rest).countP fun l => l.sign == '|') <;> rfl
    | kept l r =>
      rw [checkedLinesFrom, diffLinesFrom, List.countP_cons_of_pos (by simp)]
      by_cases hnext : number + 1 < sizeLimit
      · rw [addSizes_add_one number (List.countP _ _), addSizes, if_pos hnext, ok_bind, ih hnext]
        cases addSizes (number + 1)
          ((diffLinesFrom (number + 1) rest).countP fun l => l.sign == '|') <;> rfl
      · rw [addSizes, if_neg hnext, addSizes, if_neg (by omega)]
        rfl

/-- The lines of the expected text are the left items of the changes. -/
theorem map_text_filter_diffLinesFrom (number : Nat) (changes : List (Text.Change (List Char))) :
    ((diffLinesFrom number changes).filter DiffLine.isExpected).map DiffLine.text =
      changes.filterMap Text.Change.left? := by
  induction changes generalizing number with
  | nil => rfl
  | cons change rest ih =>
    cases change with
    | removed l =>
      rw [diffLinesFrom, List.filter_cons_of_pos rfl, List.map_cons, ih,
        Text.filterMap_left?_removed]
    | kept l r =>
      rw [diffLinesFrom, List.filter_cons_of_pos rfl, List.map_cons, ih,
        Text.filterMap_left?_kept]
    | added r =>
      rw [diffLinesFrom, List.filter_cons_of_neg Bool.false_ne_true, ih,
        List.filterMap_cons_none rfl]

/-- The number of an expected line says how many of the expected lines before it are kept. -/
theorem number_of_getElem? {number k : Nat} {changes : List (Text.Change (List Char))}
    {l : DiffLine} (h : ((diffLinesFrom number changes).filter DiffLine.isExpected)[k]? = some l) :
    l.number = number +
      (((diffLinesFrom number changes).filter DiffLine.isExpected).take k).countP fun e =>
        e.sign == '|' := by
  induction changes generalizing number k with
  | nil => simp [diffLinesFrom] at h
  | cons change rest ih =>
    cases change with
    | removed text =>
      rw [diffLinesFrom, List.filter_cons_of_pos rfl] at h ⊢
      cases k with
      | zero =>
        cases h
        rfl
      | succ k =>
        rw [List.take_succ_cons, List.countP_cons_of_neg Bool.false_ne_true]
        exact ih h
    | kept text text' =>
      rw [diffLinesFrom, List.filter_cons_of_pos rfl] at h ⊢
      cases k with
      | zero =>
        cases h
        rfl
      | succ k =>
        rw [List.take_succ_cons, List.countP_cons_of_pos rfl, ih h]
        omega
    | added text =>
      rw [diffLinesFrom, List.filter_cons_of_neg Bool.false_ne_true] at h ⊢
      exact ih h

namespace Mismatch

section Lines

variable {diff : Text.LineDiff} {m : Mismatch} {j k : Nat} {l l' : DiffLine}

/-- Expected lines are removed or kept. -/
theorem sign_eq_iff (h : l ∈ m.expectedLines diff) : l.sign = '-' ↔ ¬ l.sign = '|' := by
  have hsign : l.sign = '-' ∨ l.sign = '|' := by
    simpa [DiffLine.isExpected] using (List.mem_filter.mp h).2
  constructor
  · intro hminus hbar
    exact absurd (hminus.symm.trans hbar) (by decide)
  · exact hsign.resolve_right

/-- The number of an expected line is that of the first one and one more for every kept line before
it. -/
theorem number_of_expectedLines (h : (m.expectedLines diff)[k]? = some l) :
    l.number = max m.line 1 + ((m.expectedLines diff).take k).countP fun e => e.sign == '|' :=
  number_of_getElem? h

/-- The number of an expected line follows the expected text exactly if all lines before it are
kept. -/
theorem number_eq_add_iff (h : (m.expectedLines diff)[k]? = some l) :
    l.number = max m.line 1 + k ↔ ∀ e ∈ (m.expectedLines diff).take k, e.sign = '|' := by
  have hlength : ((m.expectedLines diff).take k).length = k :=
    List.length_take_of_le (Nat.le_of_lt (List.getElem?_eq_some_iff.mp h).1)
  have hall : ((m.expectedLines diff).take k).countP (fun e => e.sign == '|') = k ↔
      ∀ e ∈ (m.expectedLines diff).take k, e.sign = '|' := by
    simpa only [hlength, beq_iff_eq] using List.countP_eq_length
      (p := fun e : DiffLine => e.sign == '|') (l := (m.expectedLines diff).take k)
  rw [← hall, number_of_expectedLines h]
  omega

/-- Two expected lines have the same number exactly if the lines from the first to before the second
one are removed. -/
theorem number_eq_number_iff (hjk : j < k) (h : (m.expectedLines diff)[j]? = some l)
    (h' : (m.expectedLines diff)[k]? = some l') :
    l.number = l'.number ↔ ∀ e ∈ ((m.expectedLines diff).take k).drop j, e.sign = '-' := by
  -- The lines before the second one are those before the first one and those from it on.
  have hsplit := List.take_append_drop j ((m.expectedLines diff).take k)
  rw [List.take_take, Nat.min_eq_left (Nat.le_of_lt hjk)] at hsplit
  have hcount := congrArg (List.countP fun e => e.sign == '|') hsplit
  rw [List.countP_append] at hcount
  have hremoved : (((m.expectedLines diff).take k).drop j).countP (fun e => e.sign == '|') = 0 ↔
      ∀ e ∈ ((m.expectedLines diff).take k).drop j, e.sign = '-' := by
    rw [List.countP_eq_zero]
    refine forall₂_congr fun e he => ?_
    rw [sign_eq_iff (List.mem_of_mem_take (List.mem_of_mem_drop he)), beq_iff_eq]
  rw [← hremoved, number_of_expectedLines h, number_of_expectedLines h']
  omega

end Lines

/-- Line numbers count kept lines, for every comparison whose removed and kept lines are those of
the expected text. The lines that are marked as removed or kept are the lines of the expected text,
in order. The number of such a line is that of the first line and one more for every kept line
before it. So it is the number of the line in the expected text exactly if no line before it is
removed, and two lines have the same number exactly if the first of them and all lines between them
are removed. The numbering comes to its end exactly if the number after the last line is a size. -/
theorem numbers_count_kept_lines (diff : Text.LineDiff) (m : Mismatch)
    (hleft : Text.ListsLeft (diff m.expected m.result) m.expected) (hline : m.line < sizeLimit) :
    checkedLinesFrom (max m.line 1) (diff m.expected m.result) =
        (m.nextNumber diff).map (fun _ => m.diffLines diff) ∧
      (m.expectedLines diff).map DiffLine.text = Text.allLines m.expected ∧
      (∀ k l, (m.expectedLines diff)[k]? = some l →
        l.number = max m.line 1 + (((m.expectedLines diff).take k).countP fun e => e.sign == '|') ∧
          (l.number = max m.line 1 + k ↔ ∀ e ∈ (m.expectedLines diff).take k, e.sign = '|')) ∧
      ∀ j k l l', j < k → (m.expectedLines diff)[j]? = some l →
        (m.expectedLines diff)[k]? = some l' →
          (l.number = l'.number ↔ ∀ e ∈ ((m.expectedLines diff).take k).drop j, e.sign = '-') := by
  have hfirst : max m.line 1 < sizeLimit := Nat.max_lt.mpr ⟨hline, by decide⟩
  refine ⟨checkedLinesFrom_eq hfirst _, ?_,
    fun k l h => ⟨number_of_expectedLines h, number_eq_add_iff h⟩,
    fun j k l l' hjk h h' => number_eq_number_iff hjk h h'⟩
  rw [expectedLines, diffLines, map_text_filter_diffLinesFrom]
  exact hleft

/-- A line is removed between two kept ones, and the second of these gets its number. -/
theorem numbers_count_kept_lines_of_removed_line :
    let diff : Text.LineDiff := fun _ _ =>
      [.kept ['a'] ['a'], .removed ['b'], .kept ['c'] ['c']]
    let m : Mismatch :=
      { file := "f.txt", line := 9, expected := "a\nb\nc".toList, result := "a\nc".toList }
    let removed : DiffLine := { number := 10, sign := '-', text := ['b'] }
    let kept : DiffLine := { number := 10, sign := '|', text := ['c'] }
    Text.ListsLeft (diff m.expected m.result) m.expected ∧ m.line < sizeLimit ∧
      (m.expectedLines diff)[1]? = some removed ∧ (m.expectedLines diff)[2]? = some kept ∧
      (m.expectedLines diff).map DiffLine.text = Text.allLines m.expected ∧
      removed.number = max m.line 1 + 1 ∧ removed.number = kept.number := by
  intro diff m removed kept
  have hleft : Text.ListsLeft (diff m.expected m.result) m.expected := by decide
  have hline : m.line < sizeLimit := by decide
  have hlines : m.expectedLines diff = [⟨9, '|', ['a']⟩, removed, kept] := by decide
  have hremoved : (m.expectedLines diff)[1]? = some removed := by rw [hlines]; rfl
  have hkept : (m.expectedLines diff)[2]? = some kept := by rw [hlines]; rfl
  obtain ⟨-, htexts, hnumbers, hsame⟩ := numbers_count_kept_lines diff m hleft hline
  exact ⟨hleft, hline, hremoved, hkept, htexts,
    (hnumbers 1 removed hremoved).2.mpr (by rw [hlines]; decide),
    (hsame 1 2 removed kept (by decide) hremoved hkept).mpr (by rw [hlines]; decide)⟩

/-- Two removed lines and the kept line behind them all have the number of the first one. -/
theorem number_repeats_after_removed_line :
    let diff : Text.LineDiff := fun _ _ =>
      [.removed "one".toList, .removed "two".toList, .kept "three".toList "three".toList]
    let m : Mismatch :=
      { file := "f.txt", line := 1, expected := "one\ntwo\nthree".toList, result := "three".toList }
    Text.ListsLeft (diff m.expected m.result) m.expected ∧
      m.render diff = .ok "     --> f.txt:1\n    1 - one\n    1 - two\n    1 | three\n" ∧
      ¬ ∀ k l, (m.expectedLines diff)[k]? = some l → l.number = max m.line 1 + k := by
  intro diff m
  have hnext : m.nextNumber diff = .ok 2 := rfl
  have hshown : (m.expectedLines diff)[1]? = some ⟨1, '-', "two".toList⟩ ∧
      Text.ListsLeft (diff m.expected m.result) m.expected ∧
      m.text diff = "     --> f.txt:1\n    1 - one\n    1 - two\n    1 | three\n" := by
    decide +kernel
  refine ⟨hshown.2.1, ?_, fun hnumbers => absurd (hnumbers 1 _ hshown.1) (by decide)⟩
  rw [render, hnext, hshown.2.2]
  rfl

end Mismatch

end A64Disassembler.TestFile
