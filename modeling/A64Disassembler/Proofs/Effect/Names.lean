import A64Disassembler.Effect.Rule
import A64Disassembler.Proofs.Binding
import A64Disassembler.Proofs.Expr.Names
import A64Disassembler.Proofs.Fault

/-!
# The names in a binding

A binding speaks of the registers that the operands of its instruction speak of, of the condition
flags and of the link register, and of no others, whatever rule it is made by.
-/

namespace A64Disassembler

variable {P : String → Prop}

namespace Operand

/-- Whether all registers in the values that an operand is given by have names with a property. -/
def AllNames (P : String → Prop) (o : Operand) : Prop :=
  match o.kind with
  | .reg _ | .shifted _ _ _ => True
  | .imm value => value.AllNames P
  | .mem ref => ref.offset.AllNames P

end Operand

/-- Whether the name of every register has a property, that of the condition flags included. -/
structure HoldsForRegisters (P : String → Prop) : Prop where
  register : ∀ name : RegName, P name.name64
  flags : P conditionFlags

namespace HoldsForRegisters

variable (hP : HoldsForRegisters P)

include hP

/-- The content of a register is named by it. -/
theorem allNames_reg (r : Reg) : r.symbolic.AllNames P := by
  unfold Reg.symbolic
  split
  · trivial
  · cases r.width with
    | w32 => exact ⟨hP.register r.name, trivial⟩
    | w64 => exact hP.register r.name

/-- The address of a memory reference brings in no names but those of registers and of the
offset. -/
theorem allNames_pointer {ref : MemRef} (hoffset : ref.offset.AllNames P) :
    ref.pointer.AllNames P := by
  have hbase := hP.allNames_reg ref.base
  unfold MemRef.pointer
  cases ref.index with
  | none =>
    cases ref.increment with
    | post => exact hbase
    | none | pre => exact ⟨hbase, hoffset⟩
  | some r =>
    have hindexed := And.intro hbase (And.intro (hP.allNames_reg r) trivial)
    cases ref.increment with
    | post => exact hindexed
    | none | pre => exact ⟨hindexed, hoffset⟩

end HoldsForRegisters

/-- Sign extension brings in no names. -/
theorem Expr.AllNames.signExtend32 {e : Expr} (h : e.AllNames P) : e.signExtend32.AllNames P := by
  refine ⟨⟨?_, trivial⟩, trivial⟩
  split
  · split
    · exact h.1
    · exact h
  · exact h

/-- The value of an operand brings in no names but those of registers. -/
theorem HoldsForRegisters.allNames_operand (hP : HoldsForRegisters P) {o : Operand}
    (ho : o.AllNames P) : o.symbolic.AllNames P := by
  unfold Operand.AllNames at ho
  unfold Operand.symbolic
  cases hkind : o.kind with
  | reg r => exact hP.allNames_reg r
  | shifted r shift amount =>
    have hr := hP.allNames_reg r
    dsimp only
    split
    · exact Expr.AllNames.reduce (show Expr.AllNames P (.op _ _ _) from
        ⟨⟨hr.signExtend32, trivial⟩, trivial⟩)
    · exact Expr.AllNames.reduce (show Expr.AllNames P (.op _ _ _) from ⟨hr, trivial⟩)
  | imm value =>
    rw [hkind] at ho
    exact ho
  | mem ref =>
    rw [hkind] at ho
    exact Expr.AllNames.reduce (hP.allNames_pointer ho)

namespace Binding

/-- Whether all registers in the locations and values have names with a property. -/
def AllNames (P : String → Prop) (b : Binding) : Prop :=
  ∀ effect ∈ b.effects, effect.1.toExpr.AllNames P ∧ effect.2.AllNames P

variable {b b' : Binding}

/-- No names are in a binding without effects. -/
theorem allNames_empty : empty.AllNames P := by
  intro effect heffect
  cases heffect

/-- Recording an effect brings in the names of its location and its value. -/
theorem AllNames.set (hb : b.AllNames P) {location : Location} {value : Expr}
    (hlocation : location.toExpr.AllNames P) (hvalue : value.AllNames P) :
    (b.set location value).AllNames P := by
  intro effect heffect
  rcases mem_insert heffect with rfl | heffect
  · exact ⟨hlocation, hvalue.reduce⟩
  · exact hb effect heffect

/-- Overwriting an operand brings in its names and those of the value. -/
theorem AllNames.write (hb : b.AllNames P) {destination value : Expr}
    (hdestination : destination.AllNames P) (hvalue : value.AllNames P)
    (h : b.write destination value = .ok b') : b'.AllNames P := by
  unfold Binding.write at h
  split at h
  · cases h
    exact hb.set hdestination hvalue
  · split at h
    · cases h
      exact hb.set hdestination.1 ⟨hvalue, trivial⟩
    · cases h
  · cases h
    exact hb.set hdestination hvalue
  · split at h
    · cases h
      exact hb
    · cases h
  · cases h

/-- Moving base registers on brings in their names and those of the offsets. -/
theorem AllNames.writeBack (hb : b.AllNames P) (hP : HoldsForRegisters P)
    {operands : List Operand} (hoperands : ∀ o ∈ operands, o.AllNames P) :
    (b.writeBack operands).AllNames P := by
  induction operands generalizing b with
  | nil => exact hb
  | cons o rest ih =>
    obtain ⟨ho, hrest⟩ := List.forall_mem_cons.mp hoperands
    refine ih ?_ hrest
    dsimp only
    split
    · rename_i ref hkind
      rw [Operand.AllNames, hkind] at ho
      have hbase : Expr.AllNames P (.sym ref.base.name.name64) := hP.register ref.base.name
      split
      · exact hb
      · exact hb.set hbase ⟨hbase, ho⟩
    · exact hb

/-- Setting the condition flags brings in their name. -/
theorem AllNames.setFlags (hb : b.AllNames P) (hP : HoldsForRegisters P) :
    b.setFlags.AllNames P :=
  hb.set hP.flags trivial

end Binding

namespace Insn

variable {i : Insn} {values : List Expr} {b : Binding}

/-- The cell that is loaded brings in the names of its address. -/
theorem allNames_loadedCell {source cell : Expr} (hsource : source.AllNames P)
    (h : i.loadedCell source = .ok cell) : cell.AllNames P := by
  unfold loadedCell at h
  split at h
  · cases h
    exact hsource
  · obtain ⟨width, -, h⟩ := bind_eq_ok.mp h
    cases h
    exact hsource

/-- The next cell brings in no names. -/
theorem allNames_nextCell {cell next : Expr} (hcell : cell.AllNames P)
    (h : nextCell cell = .ok next) : next.AllNames P := by
  unfold nextCell at h
  split at h
  · cases h
    exact Expr.AllNames.reduce (show Expr.AllNames P (.op _ _ _) from ⟨hcell, trivial⟩)
  · cases h

section Families

variable (hvalues : ∀ value ∈ values, value.AllNames P)

include hvalues

/-- A rule for one source brings in no names but those of the operands. -/
theorem allNames_of_oneSource {rule : Rule}
    (hrule : rule = .move ∨ rule = .moveNot ∨ rule = .negate)
    (h : i.bindingBy values rule = .ok b) : b.AllNames P := by
  have hempty : Binding.empty.AllNames P := Binding.allNames_empty
  rcases hrule with rfl | rfl | rfl
  · match values, h with
    | d :: a :: _, h => exact hempty.write (hvalues d (by simp)) (hvalues a (by simp)) h
  · match values, h with
    | d :: a :: _, h =>
      refine hempty.write (hvalues d (by simp)) ?_ h
      exact ⟨hvalues a (by simp), trivial⟩
  · match values, h with
    | d :: a :: _, h =>
      refine hempty.write (hvalues d (by simp)) ?_ h
      exact ⟨trivial, hvalues a (by simp)⟩

/-- A rule for two sources brings in no names but those of the operands and of the condition
flags. -/
theorem allNames_of_twoSources (hP : HoldsForRegisters P) {op : Op} {setsFlags : Bool}
    (h : i.bindingBy values (.binary op setsFlags) = .ok b) : b.AllNames P := by
  match values, h with
  | d :: a :: c :: _, h =>
    obtain ⟨written, hwrite, h⟩ := bind_eq_ok.mp h
    have hwritten : written.AllNames P := by
      refine Binding.allNames_empty.write (hvalues d (by simp)) ?_ hwrite
      exact ⟨hvalues a (by simp), hvalues c (by simp)⟩
    cases setsFlags with
    | true =>
      cases h
      exact hwritten.setFlags hP
    | false =>
      cases h
      exact hwritten

/-- A shift brings in no names but those of the operands. -/
theorem allNames_of_shift {op : Op} (h : i.bindingBy values (.shift op) = .ok b) :
    b.AllNames P := by
  match values, h with
  | d :: a :: c :: _, h =>
    obtain ⟨width, -, h⟩ := bind_eq_ok.mp h
    refine Binding.allNames_empty.write (hvalues d (by simp)) ?_ h
    refine ⟨?_, hvalues c (by simp), trivial⟩
    split
    · exact (hvalues a (by simp)).signExtend32
    · exact hvalues a (by simp)

variable (hP : HoldsForRegisters P) (hoperands : ∀ o ∈ i.operands, o.AllNames P)

include hP hoperands

/-- A load or store of one register brings in no names but those of the operands and of their base
registers. -/
theorem allNames_of_single {rule : Rule} (hrule : rule = .load ∨ rule = .store)
    (h : i.bindingBy values rule = .ok b) : b.AllNames P := by
  have hempty : Binding.empty.AllNames P := Binding.allNames_empty
  rcases hrule with rfl | rfl
  · match values, h with
    | d :: source :: _, h =>
      obtain ⟨cell, hcell, h⟩ := bind_eq_ok.mp h
      obtain ⟨written, hwrite, h⟩ := bind_eq_ok.mp h
      cases h
      exact (hempty.write (hvalues d (by simp))
        (allNames_loadedCell (hvalues source (by simp)) hcell) hwrite).writeBack hP hoperands
  · match values, h with
    | source :: d :: _, h =>
      obtain ⟨written, hwrite, h⟩ := bind_eq_ok.mp h
      cases h
      exact (hempty.write (hvalues d (by simp)) (hvalues source (by simp)) hwrite).writeBack hP
        hoperands

/-- A load or store of two registers brings in no names but those of the operands and of their base
registers. -/
theorem allNames_of_pair {rule : Rule} (hrule : rule = .loadPair ∨ rule = .storePair)
    (h : i.bindingBy values rule = .ok b) : b.AllNames P := by
  have hempty : Binding.empty.AllNames P := Binding.allNames_empty
  rcases hrule with rfl | rfl
  · match values, h with
    | first :: second :: cell :: _, h =>
      have hcell := hvalues cell (by simp)
      obtain ⟨one, hone, h⟩ := bind_eq_ok.mp h
      obtain ⟨next, hnext, h⟩ := bind_eq_ok.mp h
      obtain ⟨both, hboth, h⟩ := bind_eq_ok.mp h
      cases h
      exact ((hempty.write (hvalues first (by simp)) hcell hone).write (hvalues second (by simp))
        (allNames_nextCell hcell hnext) hboth).writeBack hP hoperands
  · match values, h with
    | first :: second :: cell :: _, h =>
      have hcell := hvalues cell (by simp)
      obtain ⟨one, hone, h⟩ := bind_eq_ok.mp h
      obtain ⟨next, hnext, h⟩ := bind_eq_ok.mp h
      obtain ⟨both, hboth, h⟩ := bind_eq_ok.mp h
      cases h
      exact ((hempty.write hcell (hvalues first (by simp)) hone).write
        (allNames_nextCell hcell hnext) (hvalues second (by simp)) hboth).writeBack hP hoperands

/-- A rule brings in no names but those of the operands and of registers. -/
theorem allNames_bindingBy {rule : Rule} (h : i.bindingBy values rule = .ok b) :
    b.AllNames P := by
  cases rule with
  | move => exact allNames_of_oneSource hvalues (.inl rfl) h
  | moveNot => exact allNames_of_oneSource hvalues (.inr (.inl rfl)) h
  | negate => exact allNames_of_oneSource hvalues (.inr (.inr rfl)) h
  | binary op setsFlags => exact allNames_of_twoSources hvalues hP h
  | shift op => exact allNames_of_shift hvalues h
  | compare =>
    cases h
    exact Binding.allNames_empty.setFlags hP
  | load => exact allNames_of_single hvalues hP hoperands (.inl rfl) h
  | store => exact allNames_of_single hvalues hP hoperands (.inr rfl) h
  | loadPair => exact allNames_of_pair hvalues hP hoperands (.inl rfl) h
  | storePair => exact allNames_of_pair hvalues hP hoperands (.inr rfl) h
  | call =>
    cases h
    exact Binding.allNames_empty.set (hP.register (.general 30)) trivial
  | nothing =>
    cases h
    exact Binding.allNames_empty

end Families

/-- An instruction without a rule brings in no names but those of the operands. -/
theorem allNames_unknownBinding (hvalues : ∀ value ∈ values, value.AllNames P) :
    (unknownBinding values).AllNames P := by
  cases values with
  | nil => exact Binding.allNames_empty
  | cons destination rest =>
    have hdestination := hvalues destination List.mem_cons_self
    have hset : ∀ {location : Location}, location.toExpr.AllNames P →
        (Binding.empty.set location .unknown).AllNames P := fun hlocation =>
      Binding.allNames_empty.set hlocation trivial
    cases destination with
    | sym name => exact hset hdestination
    | mem ptr size => exact hset hdestination
    | const | unknown => exact Binding.allNames_empty
    | op o lhs rhs =>
      have hnames := hdestination.of_mem_collectExternals (List.forall_mem_nil _)
      unfold unknownBinding
      dsimp only [Location.ofExpr?, Expr.externals]
      cases hroots : (Expr.op o lhs rhs).collectExternals [] with
      | nil => exact Binding.allNames_empty
      | cons root roots =>
        rw [hroots] at hnames
        exact hset (show Expr.AllNames P (.sym root) from hnames root List.mem_cons_self)

/-- A binding has no names but those of its operands and of registers. -/
theorem allNames_bindingFor (hP : HoldsForRegisters P) (hoperands : ∀ o ∈ i.operands, o.AllNames P)
    {name : String} (h : i.bindingFor name = .ok b) : b.AllNames P := by
  have hvalues : ∀ value ∈ i.operands.map Operand.symbolic, value.AllNames P := by
    intro value hvalue
    obtain ⟨o, ho, rfl⟩ := List.mem_map.mp hvalue
    exact hP.allNames_operand (hoperands o ho)
  unfold bindingFor at h
  dsimp only at h
  split at h
  · exact allNames_bindingBy hvalues hP hoperands h
  · cases h
    exact allNames_unknownBinding hvalues

end Insn

end A64Disassembler
