import A64Disassembler.Binding

/-!
# Expressions and locations are in a total order

Two expressions, and two locations, compare as equal only if they are the same. A binding
therefore keeps the effects on different locations apart, also on memory cells whose pointers
are arbitrary expressions. Comparing is also transitive and can be turned around, so that the
effects of a binding can be kept in ascending order of their locations.
-/

namespace A64Disassembler

open Std (LawfulEqOrd OrientedOrd TransCmp TransOrd)

/-- Different operators are not compared as equal. -/
instance : LawfulEqOrd Op where
  compare_self := by
    intro a
    cases a <;> rfl
  eq_of_compare := by
    intro a b h
    cases a <;> cases b <;> first | rfl | cases h

/-- Operators are compared like numbers. -/
instance : TransOrd Op where
  eq_swap := OrientedOrd.eq_swap (α := Nat)
  isLE_trans := TransOrd.isLE_trans (α := Nat)

/-- Comparing first by one part and then by another is transitive if comparing each of them is. -/
theorem then_lt_trans {α : Type} [Ord α] [LawfulEqOrd α] {a b c : α} {o₁ o₂ o₃ : Ordering}
    (hfirst : compare a b = .lt → compare b c = .lt → compare a c = .lt)
    (hsecond : o₁ = .lt → o₂ = .lt → o₃ = .lt) (hab : (compare a b).then o₁ = .lt)
    (hbc : (compare b c).then o₂ = .lt) : (compare a c).then o₃ = .lt := by
  rw [Ordering.then_eq_lt] at hab hbc ⊢
  obtain hab | ⟨hab, ho₁⟩ := hab
  · obtain hbc | ⟨hbc, -⟩ := hbc
    · exact .inl (hfirst hab hbc)
    · exact .inl (LawfulEqOrd.eq_of_compare hbc ▸ hab)
  · obtain rfl : a = b := LawfulEqOrd.eq_of_compare hab
    exact hbc.imp_right fun ⟨hbc, ho₂⟩ => ⟨hbc, hsecond ho₁ ho₂⟩

/-- A comparison that tells elements apart is an order if it can be turned around and is
transitive. -/
theorem transOrd_of_lt_trans {α : Type} [Ord α] [LawfulEqOrd α]
    (hswap : ∀ a b : α, compare a b = (compare b a).swap)
    (hlt : ∀ a b c : α, compare a b = .lt → compare b c = .lt → compare a c = .lt) :
    TransOrd α where
  eq_swap := hswap _ _
  isLE_trans {a b c} hab hbc := by
    obtain hab | hab := Ordering.isLE_iff_eq_lt_or_eq_eq.mp hab
    · obtain hbc | hbc := Ordering.isLE_iff_eq_lt_or_eq_eq.mp hbc
      · rw [hlt a b c hab hbc]
        rfl
      · rw [← LawfulEqOrd.eq_of_compare hbc, hab]
        rfl
    · rw [LawfulEqOrd.eq_of_compare hab]
      exact hbc

namespace Expr

variable {a b c : Expr}

/-- Expressions compare as equal exactly if they are the same. -/
theorem cmp_eq_eq_iff (a b : Expr) : a.cmp b = .eq ↔ a = b := by
  induction a generalizing b with
  | const x =>
    cases b with
    | const y => simp [cmp, BitVec.toInt_inj]
    | sym | mem | op | unknown => simp [cmp, rank]
  | sym x =>
    cases b with
    | sym y => simp [cmp]
    | const | mem | op | unknown => simp [cmp, rank]
  | mem p m ih =>
    cases b with
    | mem q n => simp [cmp, Ordering.then_eq_eq, ih]
    | const | sym | op | unknown => simp [cmp, rank]
  | op o lhs rhs ihl ihr =>
    cases b with
    | op o' lhs' rhs' => simp [cmp, Ordering.then_eq_eq, ihl, ihr]
    | const | sym | mem | unknown => simp [cmp, rank]
  | unknown =>
    cases b with
    | unknown => simp [cmp]
    | const | sym | mem | op => simp [cmp, rank]

/-- Different expressions are not compared as equal. -/
instance : LawfulEqOrd Expr where
  compare_self := (cmp_eq_eq_iff _ _).mpr rfl
  eq_of_compare := (cmp_eq_eq_iff _ _).mp

/-- Turning a comparison around turns its result around. -/
theorem cmp_swap (a b : Expr) : a.cmp b = (b.cmp a).swap := by
  induction a generalizing b with
  | const x =>
    cases b with
    | const y => exact OrientedOrd.eq_swap (α := Int)
    | sym | mem | op | unknown => rfl
  | sym x =>
    cases b with
    | sym y => exact OrientedOrd.eq_swap (α := String)
    | const | mem | op | unknown => rfl
  | mem p m ih =>
    cases b with
    | mem q n =>
      have hsize := OrientedOrd.eq_swap (α := UInt8) (a := m) (b := n)
      rw [cmp, cmp, Ordering.swap_then, ih q, hsize]
    | const | sym | op | unknown => rfl
  | op o lhs rhs ihl ihr =>
    cases b with
    | op o' lhs' rhs' =>
      have hop := OrientedOrd.eq_swap (α := Op) (a := o) (b := o')
      rw [cmp, cmp, Ordering.swap_then, Ordering.swap_then, ihl lhs', ihr rhs', hop]
    | const | sym | mem | unknown => rfl
  | unknown => cases b <;> rfl

/-- Expressions of different forms are in the order of their forms. -/
theorem cmp_of_rank_ne (h : a.rank ≠ b.rank) : a.cmp b = compare a.rank b.rank := by
  cases a <;> cases b <;> first | rfl | exact absurd rfl h

/-- A smaller expression has no later form. -/
theorem rank_le_of_cmp (h : a.cmp b = .lt) : a.rank ≤ b.rank := by
  refine Nat.le_of_not_lt fun hlt => ?_
  rw [cmp_of_rank_ne (by omega), Nat.compare_eq_lt] at h
  omega

/-- Comparing expressions of which two are of different forms is transitive. -/
theorem cmp_lt_trans_of_rank_ne (hab : a.cmp b = .lt) (hbc : b.cmp c = .lt)
    (hne : a.rank ≠ b.rank ∨ b.rank ≠ c.rank) : a.cmp c = .lt := by
  have hle := rank_le_of_cmp hab
  have hle' := rank_le_of_cmp hbc
  rw [cmp_of_rank_ne (by omega), Nat.compare_eq_lt]
  omega

/-- Comparing expressions is transitive. -/
theorem cmp_lt_trans (hab : a.cmp b = .lt) (hbc : b.cmp c = .lt) : a.cmp c = .lt := by
  induction a generalizing b c with
  | const x =>
    cases b with
    | const y =>
      cases c with
      | const z =>
        change compare x.toInt z.toInt = .lt
        exact TransCmp.lt_trans (b := y.toInt) hab hbc
      | sym | mem | op | unknown => rfl
    | sym | mem | op | unknown => exact cmp_lt_trans_of_rank_ne hab hbc (.inl nofun)
  | sym x =>
    cases b with
    | sym y =>
      cases c with
      | sym z =>
        change compare x z = .lt
        exact TransCmp.lt_trans (b := y) hab hbc
      | const | mem | op | unknown => exact cmp_lt_trans_of_rank_ne hab hbc (.inr nofun)
    | const | mem | op | unknown => exact cmp_lt_trans_of_rank_ne hab hbc (.inl nofun)
  | mem p m ih =>
    cases b with
    | mem q n =>
      cases c with
      | mem r k =>
        exact then_lt_trans (a := p) (b := q) (c := r) ih TransCmp.lt_trans hab hbc
      | const | sym | op | unknown => exact cmp_lt_trans_of_rank_ne hab hbc (.inr nofun)
    | const | sym | op | unknown => exact cmp_lt_trans_of_rank_ne hab hbc (.inl nofun)
  | op o lhs rhs ihl ihr =>
    cases b with
    | op o' lhs' rhs' =>
      cases c with
      | op o'' lhs'' rhs'' =>
        refine then_lt_trans (a := o) (b := o') (c := o'') TransCmp.lt_trans ?_ hab hbc
        exact then_lt_trans (a := lhs) (b := lhs') (c := lhs'') ihl ihr
      | const | sym | mem | unknown => exact cmp_lt_trans_of_rank_ne hab hbc (.inr nofun)
    | const | sym | mem | unknown => exact cmp_lt_trans_of_rank_ne hab hbc (.inl nofun)
  | unknown =>
    cases b with
    | unknown => cases hab
    | const | sym | mem | op => exact cmp_lt_trans_of_rank_ne hab hbc (.inl nofun)

/-- Expressions are in a total order. -/
instance : TransOrd Expr :=
  transOrd_of_lt_trans cmp_swap fun _ _ _ => cmp_lt_trans

end Expr

namespace Location

variable {a b c : Location}

/-- Locations compare as equal exactly if they are the same. -/
theorem cmp_eq_eq_iff (a b : Location) : a.cmp b = .eq ↔ a = b := by
  cases a with
  | reg x =>
    cases b with
    | reg y => simp [cmp]
    | mem q n => simp [cmp]
  | mem p m =>
    cases b with
    | reg y => simp [cmp]
    | mem q n => simp [cmp, Ordering.then_eq_eq]

/-- Different locations are not compared as equal. -/
instance : LawfulEqOrd Location where
  compare_self := (cmp_eq_eq_iff _ _).mpr rfl
  eq_of_compare := (cmp_eq_eq_iff _ _).mp

/-- Turning a comparison around turns its result around. -/
theorem cmp_swap (a b : Location) : a.cmp b = (b.cmp a).swap := by
  cases a with
  | reg x =>
    cases b with
    | reg y => exact OrientedOrd.eq_swap (α := String)
    | mem q n => rfl
  | mem p m =>
    cases b with
    | reg y => rfl
    | mem q n =>
      have hptr := OrientedOrd.eq_swap (α := Expr) (a := p) (b := q)
      have hsize := OrientedOrd.eq_swap (α := UInt8) (a := m) (b := n)
      rw [cmp, cmp, Ordering.swap_then, hptr, hsize]

/-- Comparing locations is transitive. -/
theorem cmp_lt_trans (hab : a.cmp b = .lt) (hbc : b.cmp c = .lt) : a.cmp c = .lt := by
  cases a with
  | reg x =>
    cases c with
    | mem r k => rfl
    | reg z =>
      cases b with
      | reg y =>
        change compare x z = .lt
        exact TransCmp.lt_trans (b := y) hab hbc
      | mem q n => cases hbc
  | mem p m =>
    cases b with
    | reg y => cases hab
    | mem q n =>
      cases c with
      | reg z => cases hbc
      | mem r k =>
        exact then_lt_trans (a := p) (b := q) (c := r) TransCmp.lt_trans TransCmp.lt_trans hab hbc

/-- Locations are in a total order. -/
instance : TransOrd Location :=
  transOrd_of_lt_trans cmp_swap fun _ _ _ => cmp_lt_trans

end Location

end A64Disassembler
