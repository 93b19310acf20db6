import A64Disassembler.Proofs.Expr.Reduction

/-!
# Reduction reaches a normal form

An expression is normal if none of its operators, also inside pointers, can be applied any further:
its operands are known, they are not both constant, none of them leaves the other one as it is, and
the constant on the right does not meet another one that it could be gathered with.

Reduction gives normal expressions and leaves those alone that are normal already, so that it
changes exactly the other ones and a second reduction changes nothing. The rules for constants
either start over with the operand further inside, or build the operator right away; in the second
case, which is that of two shifts, the sum of the amounts is again no amount that could be gathered
with a shift inside.
-/

namespace A64Disassembler.Expr

/-- The operators that can be simplified, by their operands. -/
inductive IsRedex : Op → Expr → Expr → Prop
  /-- Nothing is known about the left operand. -/
  | unknownLeft {o : Op} {rhs : Expr} : IsRedex o unknown rhs
  /-- Nothing is known about the right operand. -/
  | unknownRight {o : Op} {lhs : Expr} : IsRedex o lhs unknown
  /-- Both operands are constants. -/
  | constants {o : Op} {a b : BitVec 64} : IsRedex o (const a) (const b)
  /-- The right operand leaves the left one as it is. -/
  | rightIdentity {o : Op} {lhs : Expr} {b : BitVec 64} (hb : b = if o = .and then -1 else 0) :
    IsRedex o lhs (const b)
  /-- Zero on the left leaves the right operand as it is. -/
  | leftZero {o : Op} {rhs : Expr} (ho : o = .add ∨ o = .or ∨ o = .xor) : IsRedex o (const 0) rhs
  /-- All bits set on the left leave the right operand as it is. -/
  | leftOnes {rhs : Expr} : IsRedex .and (const (-1)) rhs
  /-- Two constants are added, or masked with, one after the other. -/
  | regrouped {o : Op} {x : Expr} {a b : BitVec 64} (ho : o = .add ∨ o = .and) :
    IsRedex o (op o x (const a)) (const b)
  /-- Two shifts go in the same direction, by amounts whose sum is an amount. -/
  | shifts {o : Op} {x : Expr} {a b : BitVec 64} (ho : o = .shl ∨ o = .shr ∨ o = .sar)
    (ha : 0 ≤ a.toInt ∧ a.toInt ≤ 63) (hb : 0 ≤ b.toInt ∧ b.toInt ≤ 63)
    (hsum : a.toInt + b.toInt < 64) : IsRedex o (op o x (const a)) (const b)

/-- Whether no operator in the expression can be simplified, at any depth. -/
def IsNormal : Expr → Prop
  | const _ | sym _ | unknown => True
  | mem ptr _ => ptr.IsNormal
  | op o lhs rhs => ¬ IsRedex o lhs rhs ∧ lhs.IsNormal ∧ rhs.IsNormal

variable {o : Op} {lhs rhs x : Expr} {a b : BitVec 64}

/-- An amount as a signed and as an unsigned number. -/
theorem toInt_le_iff_toNat_lt : 0 ≤ a.toInt ∧ a.toInt ≤ 63 ↔ a.toNat < 64 := by
  rw [BitVec.toInt_eq_toNat_cond]
  split <;> omega

/-- Amounts have a small sum as signed numbers exactly if they have one as unsigned numbers. -/
theorem amounts_iff : (0 ≤ a.toInt ∧ a.toInt ≤ 63) ∧ (0 ≤ b.toInt ∧ b.toInt ≤ 63) ∧
    a.toInt + b.toInt < 64 ↔ a.toNat < 64 ∧ b.toNat < 64 ∧ a.toNat + b.toNat < 64 := by
  rw [toInt_le_iff_toNat_lt, toInt_le_iff_toNat_lt]
  refine and_congr_right fun ha => and_congr_right fun hb => ?_
  rw [BitVec.toInt_eq_toNat_of_lt (by omega), BitVec.toInt_eq_toNat_of_lt (by omega)]
  omega

/-- What makes an operator with a constant on the right simpler. -/
theorem isRedex_const_iff : IsRedex o lhs (const b) ↔
    lhs = unknown ∨ (∃ a, lhs = const a) ∨ b = o.identity ∨
      ∃ x a, lhs = op o x (const a) ∧ (o.isRegrouped = true ∨
        o.isShift = true ∧ a.toNat < 64 ∧ b.toNat < 64 ∧ a.toNat + b.toNat < 64) := by
  have hidentity : o.identity = if o = .and then -1 else 0 := by cases o <;> rfl
  have hregroup : o.isRegrouped = true ↔ o = .add ∨ o = .and := by cases o <;> simp [Op.isRegrouped]
  have hshift : o.isShift = true ↔ o = .shl ∨ o = .shr ∨ o = .sar := by
    cases o <;> simp [Op.isShift]
  constructor
  · intro h
    cases h with
    | unknownLeft => exact .inl rfl
    | constants | leftZero | leftOnes => exact .inr (.inl ⟨_, rfl⟩)
    | rightIdentity hb => exact .inr (.inr (.inl (hb.trans hidentity.symm)))
    | regrouped ho => exact .inr (.inr (.inr ⟨_, _, rfl, .inl (hregroup.mpr ho)⟩))
    | shifts ho ha hb hsum =>
      exact .inr (.inr (.inr ⟨_, _, rfl, .inr ⟨hshift.mpr ho, amounts_iff.mp ⟨ha, hb, hsum⟩⟩⟩))
  · rintro (rfl | ⟨a, rfl⟩ | rfl | ⟨x, a, rfl, ho | ⟨ho, hamounts⟩⟩)
    · exact .unknownLeft
    · exact .constants
    · exact .rightIdentity hidentity
    · exact .regrouped (hregroup.mp ho)
    · obtain ⟨ha, hb, hsum⟩ := amounts_iff.mpr hamounts
      exact .shifts (hshift.mp ho) ha hb hsum

/-- What makes an operator simpler whose right operand is neither a constant nor unknown. -/
theorem isRedex_iff_of_not_const (hunknown : rhs ≠ unknown) (hconst : ∀ b, rhs ≠ const b) :
    IsRedex o lhs rhs ↔ lhs = unknown ∨ ∃ a, lhs = const a ∧ o.isLeftIdentity a = true := by
  have hidentity (a : BitVec 64) : o.isLeftIdentity a = true ↔
      (o = .add ∨ o = .or ∨ o = .xor) ∧ a = 0 ∨ o = .and ∧ a = -1 := by
    cases o <;> simp [Op.isLeftIdentity]
  constructor
  · intro h
    cases h with
    | unknownLeft => exact .inl rfl
    | unknownRight => exact absurd rfl hunknown
    | constants | rightIdentity | regrouped | shifts => exact absurd rfl (hconst _)
    | leftZero ho => exact .inr ⟨0, rfl, (hidentity 0).mpr (.inl ⟨ho, rfl⟩)⟩
    | leftOnes => exact .inr ⟨-1, rfl, (hidentity (-1)).mpr (.inr ⟨rfl, rfl⟩)⟩
  · rintro (rfl | ⟨a, rfl, h⟩)
    · exact .unknownLeft
    · obtain ⟨ho, rfl⟩ | ⟨rfl, rfl⟩ := (hidentity a).mp h
      · exact .leftZero ho
      · exact .leftOnes

/-- Two shifts that are gathered in one leave nothing to be gathered with a third shift inside,
unless there was something to be gathered before. -/
theorem IsRedex.of_sum (ho : o.isShift = true) (hb : b ≠ o.identity)
    (hsum : a.toNat + b.toNat < 64) (h : IsRedex o x (const (a + b))) : IsRedex o x (const a) := by
  have hadd : (a + b).toNat = a.toNat + b.toNat := by
    rw [BitVec.toNat_add]
    exact Nat.mod_eq_of_lt (by omega)
  have hzero : o.identity = 0 := by cases o <;> first | rfl | cases ho
  rw [isRedex_const_iff] at h ⊢
  obtain h | h | h | ⟨y, c, rfl, h | ⟨-, hc, -, htotal⟩⟩ := h
  · exact .inl h
  · exact .inr (.inl h)
  · have hnot : b.toNat ≠ 0 := fun h0 => hb (hzero ▸ BitVec.eq_of_toNat_eq h0)
    have h0 : (a + b).toNat = 0 := by rw [h, hzero]; rfl
    omega
  · exact .inr (.inr (.inr ⟨y, c, rfl, .inl h⟩))
  · exact .inr (.inr (.inr ⟨y, c, rfl, .inr ⟨ho, hc, by omega, by omega⟩⟩))

/-- Reducing an operator with a constant gives a normal form. -/
theorem isNormal_reduceConst (h : lhs.IsNormal) (b : BitVec 64) :
    (reduceConst o lhs b).IsNormal := by
  fun_induction reduceConst o lhs b with
  | case1 | case2 => trivial
  | case3 => exact h
  | case4 inner x a b hidentity hregroup ih => exact ih h.2.1
  | case5 inner x a b hidentity hregroup hshift =>
    obtain ⟨rfl, ho, -, -, hsum⟩ := hshift
    exact ⟨fun hredex => h.1 (hredex.of_sum ho hidentity hsum), h.2.1, trivial⟩
  | case6 inner x a b hidentity hregroup hshift =>
    refine ⟨fun hredex => ?_, h, trivial⟩
    obtain h | ⟨c, h⟩ | h | ⟨y, c, h, ho⟩ := isRedex_const_iff.mp hredex
    · cases h
    · cases h
    · exact hidentity h
    · cases h
      obtain ho | ⟨ho, hamounts⟩ := ho
      · exact hregroup ⟨rfl, ho⟩
      · exact hshift ⟨rfl, ho, hamounts⟩
  | case7 => exact h
  | case8 lhs b hunknown hconst hop hidentity =>
    refine ⟨fun hredex => ?_, h, trivial⟩
    obtain h | ⟨c, h⟩ | h | ⟨y, c, h, -⟩ := isRedex_const_iff.mp hredex
    · exact hunknown h
    · exact hconst c h
    · exact hidentity h
    · exact hop o y c h

/-- Reducing an operator gives a normal form. -/
theorem isNormal_reduceOp (hl : lhs.IsNormal) (hr : rhs.IsNormal) :
    (reduceOp o lhs rhs).IsNormal := by
  fun_cases reduceOp o lhs rhs with
  | case1 | case2 => trivial
  | case3 => exact isNormal_reduceConst hl _
  | case4 => exact hr
  | case5 a rhs hunknown hconst hidentity =>
    refine ⟨fun hredex => ?_, trivial, hr⟩
    obtain h | ⟨c, h, hc⟩ := (isRedex_iff_of_not_const hunknown hconst).mp hredex
    · cases h
    · cases h
      exact hidentity hc
  | case6 lhs rhs hunknown hrunknown hconst hlconst =>
    refine ⟨fun hredex => ?_, hl, hr⟩
    obtain h | ⟨c, h, -⟩ := (isRedex_iff_of_not_const hrunknown hconst).mp hredex
    · exact hunknown h
    · exact hlconst c h

/-- The reduced form of an expression is normal. -/
theorem isNormal_reduce (e : Expr) : e.reduce.IsNormal := by
  induction e with
  | const | sym | unknown => trivial
  | mem ptr size ih => exact ih
  | op o lhs rhs ihl ihr => exact isNormal_reduceOp ihl ihr

/-- An operator with a constant on the right stays as it is if it is not to be simplified. -/
theorem reduceConst_eq_op (h : ¬ IsRedex o lhs (const b)) :
    reduceConst o lhs b = op o lhs (const b) := by
  fun_induction reduceConst o lhs b with
  | case1 => exact absurd .unknownLeft h
  | case2 => exact absurd .constants h
  | case3 | case7 => exact absurd (isRedex_const_iff.mpr (.inr (.inr (.inl rfl)))) h
  | case4 inner x a b hidentity hregroup =>
    obtain ⟨rfl, ho⟩ := hregroup
    exact absurd (isRedex_const_iff.mpr (.inr (.inr (.inr ⟨x, a, rfl, .inl ho⟩)))) h
  | case5 inner x a b hidentity hregroup hshift =>
    obtain ⟨rfl, hshift⟩ := hshift
    exact absurd (isRedex_const_iff.mpr (.inr (.inr (.inr ⟨x, a, rfl, .inr hshift⟩)))) h
  | case6 | case8 => rfl

/-- An operator stays as it is if it is not to be simplified. -/
theorem reduceOp_eq_op (h : ¬ IsRedex o lhs rhs) : reduceOp o lhs rhs = op o lhs rhs := by
  fun_cases reduceOp o lhs rhs with
  | case1 => exact absurd .unknownLeft h
  | case2 => exact absurd .unknownRight h
  | case3 => exact reduceConst_eq_op h
  | case4 a =>
    rename_i hidentity hunknown hconst
    exact absurd ((isRedex_iff_of_not_const hunknown hconst).mpr (.inr ⟨a, rfl, hidentity⟩)) h
  | case5 | case6 => rfl

/-- A normal expression is its own reduced form. -/
theorem IsNormal.reduce_eq {e : Expr} (h : e.IsNormal) : e.reduce = e := by
  induction e with
  | const | sym | unknown => rfl
  | mem ptr size ih => rw [reduce, ih h]
  | op o lhs rhs ihl ihr => rw [reduce, ihl h.2.1, ihr h.2.2, reduceOp_eq_op h.1]

/-- The expressions that reduction leaves as they are are the normal ones. -/
theorem reduce_eq_self_iff (e : Expr) : e.reduce = e ↔ e.IsNormal := by
  refine ⟨fun h => ?_, IsNormal.reduce_eq⟩
  rw [← h]
  exact isNormal_reduce e

instance : DecidablePred IsNormal :=
  fun e => decidable_of_iff _ (reduce_eq_self_iff e)

/-- Reduction reaches a normal form and stops there: the reduced form of every expression is normal,
the expressions that reduction leaves as they are are exactly the normal ones, and reducing twice
is the same as reducing once. -/
theorem reduce_reaches_normal_form (e : Expr) :
    e.reduce.IsNormal ∧ (e.reduce = e ↔ e.IsNormal) ∧ e.reduce.reduce = e.reduce :=
  ⟨isNormal_reduce e, reduce_eq_self_iff e, (isNormal_reduce e).reduce_eq⟩

/-- Shifts by more than 63 altogether are not gathered, and a constant on the left of a sum is not
gathered with one on the right. -/
example : IsNormal (op .shl (op .shl (sym "x1") (const 40)) (const 24)) ∧
    IsNormal (op .add (op .add (const 5) (sym "x1")) (const 3)) := by
  decide

end A64Disassembler.Expr
