import A64Disassembler.Proofs.Expr.NormalForm
import Mathlib.Data.List.Nodup

/-!
# The registers that an expression depends on

The registers of an expression are listed in the order in which they first occur. Reduction drops
and gathers nothing but constants, as long as every part of the expression is known: the registers
then occur in the reduced form as often as before and in the same order. What is lost otherwise is
lost together, since an operator with an unknown operand becomes unknown itself.
-/

namespace A64Disassembler.Expr

/-- The registers of the expression from left to right, as often as they occur. -/
def occurrences : Expr → List String
  | const _ | unknown => []
  | sym name => [name]
  | mem ptr _ => ptr.occurrences
  | op _ lhs rhs => lhs.occurrences ++ rhs.occurrences

/-- Collecting the registers of an expression goes on with the list of those that occur. -/
theorem collectExternals_eraseDups (e : Expr) (names : List String) :
    e.collectExternals names.eraseDups = (names ++ e.occurrences).eraseDups := by
  induction e generalizing names with
  | const | unknown => rw [collectExternals, occurrences, List.append_nil]
  | sym name =>
    rw [collectExternals, occurrences, List.eraseDups_append]
    by_cases hmem : name ∈ names <;> simp [List.removeAll, hmem, List.eraseDups_cons]
  | mem ptr size ih => exact ih names
  | op o lhs rhs ihl ihr => rw [collectExternals, ihl, ihr, occurrences, List.append_assoc]

/-- The registers of an expression are those that occur in it, each at its first place. -/
theorem externals_eq_eraseDups (e : Expr) : e.externals = e.occurrences.eraseDups :=
  e.collectExternals_eraseDups []

/-- Collecting registers keeps them different from each other. -/
theorem nodup_collectExternals (e : Expr) {seen : List String} (hseen : seen.Nodup) :
    (e.collectExternals seen).Nodup := by
  induction e generalizing seen with
  | const | unknown => exact hseen
  | sym name =>
    rw [collectExternals]
    split
    case isTrue => exact hseen
    case isFalse hnew =>
      refine List.nodup_append.mpr ⟨hseen, List.nodup_singleton name, fun x hx y hy => ?_⟩
      obtain rfl := List.mem_singleton.mp hy
      exact fun heq => hnew (heq ▸ hx)
  | mem ptr size ih => exact ih hseen
  | op o lhs rhs ihl ihr => exact ihr (ihl hseen)

/-- The first register of a list stays the first one when it is taken once. -/
theorem head?_eraseDups (names : List String) : names.eraseDups.head? = names.head? := by
  cases names with
  | nil => rfl
  | cons name rest => rw [List.eraseDups_cons, List.head?_cons, List.head?_cons]

/-- The root of an expression is the first register that occurs in it. -/
theorem root_eq_head? (e : Expr) : e.root = e.occurrences.head? := by
  induction e with
  | const | sym | unknown => rfl
  | mem ptr size ih => exact ih
  | op o lhs rhs ihl ihr => rw [root, ihl, ihr, occurrences, List.head?_append]

/-- Reducing an operator with a constant keeps the registers, unless nothing is known about it. -/
theorem occurrences_reduceConst (o : Op) (lhs : Expr) (b : BitVec 64) :
    reduceConst o lhs b = unknown ∨ (reduceConst o lhs b).occurrences = lhs.occurrences := by
  fun_induction reduceConst o lhs b with
  | case1 => exact .inl rfl
  | case2 | case3 | case7 => exact .inr rfl
  | case4 inner x a b hidentity hregroup ih =>
    exact ih.imp_right fun h => h.trans (List.append_nil _).symm
  | case5 => exact .inr rfl
  | case6 | case8 => exact .inr (List.append_nil _)

/-- Reducing an operator keeps the registers, unless nothing is known about it. -/
theorem occurrences_reduceOp (o : Op) (lhs rhs : Expr) : reduceOp o lhs rhs = unknown ∨
    (reduceOp o lhs rhs).occurrences = lhs.occurrences ++ rhs.occurrences := by
  fun_cases reduceOp o lhs rhs with
  | case1 | case2 => exact .inl rfl
  | case3 lhs b =>
    exact (occurrences_reduceConst o _ _).imp_right fun h => h.trans (List.append_nil _).symm
  | case4 | case5 | case6 => exact .inr rfl

/-- The registers of the reduced form occur in the expression in the same order. -/
theorem occurrences_reduce_sublist (e : Expr) : e.reduce.occurrences.Sublist e.occurrences := by
  induction e with
  | const | sym | unknown => exact List.Sublist.refl _
  | mem ptr size ih => exact ih
  | op o lhs rhs ihl ihr =>
    rw [reduce, occurrences]
    obtain h | h := occurrences_reduceOp o lhs.reduce rhs.reduce
    · rw [h]
      exact List.nil_sublist _
    · rw [h]
      exact ihl.append ihr

/-- If every part of an expression is known, then so is its reduced form. -/
theorem reduce_ne_unknown {e : Expr} (h : ¬ e.HasUnknown) : e.reduce ≠ unknown := by
  intro hunknown
  -- Reduction keeps values, and only an expression with an unknown part has none.
  let v : Valuation := { reg := fun _ => 0, cell := fun _ _ => 0 }
  have hvalue : e.eval v = none := by rw [← e.eval_reduce v, hunknown, eval]
  exact h ((e.eval_eq_none_iff v).mp hvalue)

/-- If every part of an expression is known, then the same registers occur in the reduced form. -/
theorem occurrences_reduce {e : Expr} (h : ¬ e.HasUnknown) :
    e.reduce.occurrences = e.occurrences := by
  induction e with
  | const | sym | unknown => rfl
  | mem ptr size ih => exact ih h
  | op o lhs rhs ihl ihr =>
    have hknown : reduceOp o lhs.reduce rhs.reduce ≠ unknown := reduce_ne_unknown h
    have hkept := (occurrences_reduceOp o lhs.reduce rhs.reduce).resolve_left hknown
    rw [HasUnknown, not_or] at h
    rw [reduce, hkept, ihl h.1, ihr h.2, occurrences]

/-- Reduction keeps track of the registers that an expression depends on. They are those that occur
in it, in the order in which they first do and each of them once, and the root is the first of them.
The reduced form has no other registers. If no part of the expression is unknown, the reduced form
has the same registers in the same order, and so it has the same root. -/
theorem reduce_keeps_externals (e : Expr) :
    e.externals = e.occurrences.eraseDups ∧ e.externals.Nodup ∧ e.root = e.externals.head? ∧
      (∀ name ∈ e.reduce.externals, name ∈ e.externals) ∧
      (¬ e.HasUnknown → e.reduce.externals = e.externals ∧ e.reduce.root = e.root) := by
  refine ⟨e.externals_eq_eraseDups, e.nodup_collectExternals List.nodup_nil, ?_, ?_, fun h => ?_⟩
  · rw [root_eq_head?, externals_eq_eraseDups, head?_eraseDups]
  · intro name hname
    rw [externals_eq_eraseDups, List.mem_eraseDups] at hname ⊢
    exact e.occurrences_reduce_sublist.mem hname
  · rw [externals_eq_eraseDups, externals_eq_eraseDups, root_eq_head?, root_eq_head?,
      occurrences_reduce h]
    exact ⟨rfl, rfl⟩

/-- A cell of a scaled index whose amounts are gathered, next to zeroes on both sides. -/
theorem reduce_keeps_externals_of_scaled_index :
    let index : Expr := op .shl (op .shl (sym "x2") (const 1)) (const 2)
    let e : Expr := mem (op .add (op .add (sym "x1") (const 0))
      (op .add (const 0) (op .sub index (sym "x1")))) 8
    ¬ e.HasUnknown ∧
      e.reduce = mem (op .add (sym "x1") (op .sub (op .shl (sym "x2") (const 3)) (sym "x1"))) 8 ∧
      "x2" ∈ e.reduce.externals ∧ "x2" ∈ e.externals ∧ e.externals = ["x1", "x2"] ∧
      e.reduce.externals = e.externals ∧ e.reduce.root = some "x1" := by
  intro index e
  have hknown : ¬ e.HasUnknown := by simp [e, index, HasUnknown]
  have hmem : "x2" ∈ e.reduce.externals := by decide
  obtain ⟨-, -, -, hsub, hsame⟩ := reduce_keeps_externals e
  obtain ⟨hexternals, hroot⟩ := hsame hknown
  exact ⟨hknown, by decide, hmem, hsub "x2" hmem, by decide, hexternals, hroot.trans rfl⟩

end A64Disassembler.Expr
