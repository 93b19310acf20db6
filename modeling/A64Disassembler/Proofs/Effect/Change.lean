import A64Disassembler.Effect.Rule
import A64Disassembler.Proofs.Effect.Content
import A64Disassembler.Proofs.Expr.Order
import Mathlib.Data.List.Forall2
import Mathlib.Data.List.Nodup

/-!
# Changes of the state

In a given state an effect of a binding is a change: a register or the cell of an address gets a
new content. Effects are told apart by their locations, whose pointers are expressions, and
changes by their places, whose addresses are numbers. Changes of different places come from
effects on different locations, so a binding keeps all of them.
-/

namespace A64Disassembler

/-- A part of the state that can be changed. -/
inductive Place
  | register (name : String)
  | cell (address : BitVec 64) (size : UInt8)
  deriving DecidableEq

/-- A new content for a part of the state. A cell of `size` bytes holds that many bytes. -/
inductive Change
  | register (name : String) (content : BitVec 64)
  | cell (address : BitVec 64) (size : UInt8) (content : BitVec (8 * size.toNat))

namespace Change

/-- The part of the state that is changed. -/
def place : Change → Place
  | register name _ => .register name
  | cell address size _ => .cell address size

/-- Whether an effect makes the change in a state. -/
def IsMadeBy (v : Valuation) : Change → Location × Expr → Prop
  | register name content, effect => effect.1 = .reg name ∧ effect.2.eval v = some content
  | cell address size content, effect =>
    ∃ ptr, effect.1 = .mem ptr size ∧ ptr.eval v = some address ∧ effect.2.Denotes v content

/-- Effects on one location change one place. -/
theorem place_eq_of_isMadeBy {v : Valuation} {c c' : Change} {location : Location} {e e' : Expr}
    (h : c.IsMadeBy v (location, e)) (h' : c'.IsMadeBy v (location, e')) : c.place = c'.place := by
  cases c with
  | register name content =>
    obtain ⟨rfl, -⟩ := h
    cases c' with
    | register name' content' =>
      obtain ⟨hname, -⟩ := h'
      cases hname
      rfl
    | cell address' size' content' =>
      obtain ⟨ptr', hlocation, -⟩ := h'
      cases hlocation
  | cell address size content =>
    obtain ⟨ptr, rfl, hptr, -⟩ := h
    cases c' with
    | register name' content' =>
      obtain ⟨hlocation, -⟩ := h'
      cases hlocation
    | cell address' size' content' =>
      obtain ⟨ptr', hlocation, hptr', -⟩ := h'
      cases hlocation
      obtain rfl : address = address' := Option.some.inj (hptr.symm.trans hptr')
      rfl

/-- Among effects that make given changes, every effect makes one of them. -/
theorem exists_isMadeBy {v : Valuation} {changes : List Change} {effects : List (Location × Expr)}
    (h : List.Forall₂ (IsMadeBy v) changes effects) {effect : Location × Expr}
    (heffect : effect ∈ effects) : ∃ c ∈ changes, c.IsMadeBy v effect := by
  induction h with
  | nil => cases heffect
  | cons hmade hrest ih =>
    rcases List.mem_cons.mp heffect with rfl | hmem
    · exact ⟨_, List.mem_cons_self, hmade⟩
    · obtain ⟨c, hc, hmade'⟩ := ih hmem
      exact ⟨c, List.mem_cons_of_mem _ hc, hmade'⟩

/-- Reducing the new value keeps the change. -/
theorem isMadeBy_reduce {v : Valuation} {c : Change} {location : Location} {e : Expr}
    (h : c.IsMadeBy v (location, e)) : c.IsMadeBy v (location, e.reduce) := by
  cases c with
  | register name content => exact ⟨h.1, (e.eval_reduce v).trans h.2⟩
  | cell address size content =>
    obtain ⟨ptr, hlocation, hptr, hvalue⟩ := h
    exact ⟨ptr, hlocation, hptr, Expr.denotes_reduce.mpr hvalue⟩

end Change

/-- The change of a register to a content. The zero register does not change. -/
def Reg.changes (d : Reg) (content : BitVec 64) : List Change :=
  if d.isZero then [] else [.register d.name.name64 content]

namespace Binding

variable {b : Binding} {v : Valuation} {changes : List Change}

/-- Whether the effects of a binding are exactly the given changes, in some order and each of a
place of its own. -/
def Makes (b : Binding) (v : Valuation) (changes : List Change) : Prop :=
  (changes.map Change.place).Nodup ∧
    ∃ effects, b.effects.Perm effects ∧ List.Forall₂ (Change.IsMadeBy v) changes effects

/-- Inserting an effect on a new location adds it to the others. -/
theorem insert_perm {location : Location} {value : Expr} {effects : List (Location × Expr)}
    (hnew : ∀ effect ∈ effects, effect.1 ≠ location) :
    (insert location value effects).Perm ((location, value) :: effects) := by
  induction effects with
  | nil => exact List.Perm.refl _
  | cons effect rest ih =>
    obtain ⟨l, e⟩ := effect
    rw [insert]
    cases hcompare : compare location l with
    | lt => exact List.Perm.refl _
    | eq =>
      have heq : location = l := Std.LawfulEqOrd.eq_of_compare hcompare
      exact absurd heq.symm (hnew _ List.mem_cons_self)
    | gt =>
      have hrest := ih fun effect heffect => hnew effect (List.mem_cons_of_mem _ heffect)
      exact (hrest.cons _).trans (List.Perm.swap _ _ _)

/-- No effects are no changes. -/
theorem makes_empty (v : Valuation) : empty.Makes v [] :=
  ⟨List.nodup_nil, [], List.Perm.refl _, .nil⟩

/-- Setting a location adds the change that this makes, if all changes are of different places. -/
theorem Makes.set (h : b.Makes v changes) {c : Change} {location : Location} {value : Expr}
    {more : List Change} (hc : c.IsMadeBy v (location, value))
    (hnodup : ((changes ++ c :: more).map Change.place).Nodup) :
    (b.set location value).Makes v (changes ++ [c]) := by
  obtain ⟨-, effects, hperm, hmade⟩ := h
  rw [List.append_cons, List.map_append] at hnodup
  have hplaces : ((changes ++ [c]).map Change.place).Nodup := hnodup.of_append_left
  refine ⟨hplaces, effects ++ [(location, value.reduce)], ?_, ?_⟩
  · -- An effect on the same location would change the same place.
    have hnew : ∀ effect ∈ b.effects, effect.1 ≠ location := by
      rintro ⟨l, e⟩ heffect rfl
      obtain ⟨c', hc', hmade'⟩ := Change.exists_isMadeBy hmade (hperm.mem_iff.mp heffect)
      have hplace : c'.place = c.place := Change.place_eq_of_isMadeBy hmade' hc
      rw [List.map_append] at hplaces
      exact List.disjoint_of_nodup_append hplaces (List.mem_map_of_mem hc')
        (hplace ▸ List.mem_singleton_self _)
    exact ((insert_perm hnew).trans (hperm.cons _)).trans (List.perm_append_singleton _ _).symm
  · exact List.rel_append hmade (.cons (Change.isMadeBy_reduce hc) .nil)

/-- The value that a register takes when an expression is written to it. -/
def written (d : Reg) (value : Expr) : Expr :=
  match d.width with
  | .w32 => .op .and value (.const lowHalf)
  | .w64 => value

/-- Writes a register. The zero register discards the value. -/
def assign (b : Binding) (d : Reg) (value : Expr) : Binding :=
  if d.isZero then b else b.set (.reg d.name.name64) (written d value)

/-- The symbolic form of a register is a destination that can be written. -/
theorem write_symbolic (b : Binding) (d : Reg) (value : Expr) :
    b.write d.symbolic value = .ok (b.assign d value) := by
  obtain ⟨name, width⟩ := d
  unfold Reg.symbolic assign
  split
  · rfl
  · cases width <;> rfl

/-- The value that a register takes is the denoted word, zero extended. -/
theorem eval_written {v : Valuation} {d : Reg} {value : Expr} {x : BitVec d.width.bits}
    (h : value.Denotes v x) : (written d value).eval v = some (x.setWidth 64) := by
  obtain ⟨name, width⟩ := d
  cases width with
  | w32 => exact Expr.eval_and_lowHalf h
  | w64 =>
    obtain ⟨y, hy, rfl⟩ := Option.map_eq_some_iff.mp h
    simpa only [written, Width.bits, BitVec.setWidth_eq] using hy

/-- Writing a register leaves no doubt about the effects. -/
theorem isIncomplete_assign (b : Binding) (d : Reg) (value : Expr) :
    (b.assign d value).isIncomplete = b.isIncomplete := by
  unfold assign
  split <;> rfl

/-- Writing a denoted word to a register makes the change of the register to that word, zero
extended. -/
theorem Makes.assign (h : b.Makes v changes) {d : Reg} {value : Expr} {x : BitVec d.width.bits}
    {more : List Change} (hvalue : value.Denotes v x)
    (hnodup : ((changes ++ (d.changes (x.setWidth 64) ++ more)).map Change.place).Nodup) :
    (b.assign d value).Makes v (changes ++ d.changes (x.setWidth 64)) := by
  unfold Binding.assign
  unfold Reg.changes at hnodup ⊢
  cases hzero : d.isZero with
  | true => simpa using h
  | false =>
    rw [hzero] at hnodup
    exact h.set ⟨rfl, eval_written hvalue⟩ hnodup

end Binding

/-- A register as the first operand determines the width of the instruction. -/
theorem Insn.firstWidth_of_reg {i : Insn} {d : Reg} {others : List OperandKind}
    (h : i.operands.map Operand.kind = .reg d :: others) : i.firstWidth = .ok d.width := by
  obtain ⟨o, rest, hoperands, ho, -⟩ := List.map_eq_cons_iff.mp h
  simp [firstWidth, hoperands, Operand.reg?, ho]

end A64Disassembler
