import A64Disassembler.Proofs.Expr.Reduction

/-!
# The names in an expression

Reduction drops operands and gathers constants, but it never brings in the name of a register, so
that what is true of all names in an expression stays true of its reduced form.
-/

namespace A64Disassembler.Expr

/-- Whether all registers of the expression have names with a property. -/
def AllNames (P : String → Prop) : Expr → Prop
  | const _ | unknown => True
  | sym name => P name
  | mem ptr _ => ptr.AllNames P
  | op _ lhs rhs => lhs.AllNames P ∧ rhs.AllNames P

variable {P : String → Prop}

/-- Reducing an operator with a constant brings in no names. -/
theorem allNames_reduceConst {o : Op} {lhs : Expr} (h : lhs.AllNames P) (b : BitVec 64) :
    (reduceConst o lhs b).AllNames P := by
  fun_induction reduceConst o lhs b with
  | case1 | case2 => trivial
  | case3 => exact h
  | case4 inner x a b hidentity hregroup ih => exact ih h.1
  | case5 => exact ⟨h.1, trivial⟩
  | case6 => exact ⟨h, trivial⟩
  | case7 => exact h
  | case8 => exact ⟨h, trivial⟩

/-- Reducing an operator brings in no names. -/
theorem allNames_reduceOp {o : Op} {lhs rhs : Expr} (hl : lhs.AllNames P) (hr : rhs.AllNames P) :
    (reduceOp o lhs rhs).AllNames P := by
  fun_cases reduceOp o lhs rhs with
  | case1 | case2 => trivial
  | case3 => exact allNames_reduceConst hl _
  | case4 => exact hr
  | case5 => exact ⟨trivial, hr⟩
  | case6 => exact ⟨hl, hr⟩

/-- Reduction brings in no names. -/
theorem AllNames.reduce {e : Expr} (h : e.AllNames P) : e.reduce.AllNames P := by
  induction e with
  | const | sym | unknown => exact h
  | mem ptr size ih => exact ih h
  | op o lhs rhs ihl ihr => exact allNames_reduceOp (ihl h.1) (ihr h.2)

/-- The registers that are collected from an expression are registers of it. -/
theorem AllNames.of_mem_collectExternals {e : Expr} (h : e.AllNames P) {seen : List String}
    (hseen : ∀ name ∈ seen, P name) : ∀ name ∈ e.collectExternals seen, P name := by
  induction e generalizing seen with
  | const | unknown => exact hseen
  | sym name =>
    rw [collectExternals]
    split
    · exact hseen
    · exact List.forall_mem_append.mpr ⟨hseen, fun n hn => List.mem_singleton.mp hn ▸ h⟩
  | mem ptr size ih => exact ih h hseen
  | op o lhs rhs ihl ihr => exact ihr h.2 (ihl h.1 hseen)

end A64Disassembler.Expr
