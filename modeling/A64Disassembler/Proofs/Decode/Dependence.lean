import A64Disassembler.Proofs.Bits.Deposit
import A64Disassembler.Proofs.Session

/-!
# Operands depend on listed fields only

Every operand is made from the contents of fields, and an argument says which fields these are.
Words with the same contents of them give the same operand, whatever else is in the words. A spec
that passes validation lists all fields that its arguments read, so the bits outside of its fields,
which tell it from other specs, never get into an operand.
-/

namespace A64Disassembler

/-- Whether two words have the same contents of all the fields. -/
def FieldName.AgreeOn (fields : List FieldName) (v w : Word) : Prop :=
  ∀ f ∈ fields, f.extract v = f.extract w

namespace Spec

variable {s : Spec} {v w : Word} {f : FieldName}

/-- The unsigned value depends on the field only. -/
theorem unsignedField_congr (h : f.extract v = f.extract w) :
    unsignedField v f = unsignedField w f := by
  rw [unsignedField, h, ← unsignedField]

/-- The signed value depends on the field only. -/
theorem signedField_congr (h : f.extract v = f.extract w) : signedField v f = signedField w f := by
  rw [signedField, unsignedField_congr h, ← signedField]

/-- The register depends on the field only. -/
theorem regAt_congr (h : f.extract v = f.extract w) : s.regAt v f = s.regAt w f := by
  rw [regAt, h, ← regAt]

/-- A memory operand depends on the field of the base register and on the offset. -/
theorem memOperand_congr {offset offset' : BitVec 64}
    (hbase : FieldName.rn.extract v = FieldName.rn.extract w) (hoffset : offset = offset') :
    s.memOperand v offset = s.memOperand w offset' := by
  rw [memOperand, hbase, hoffset, ← memOperand]

/-- A bitmask immediate depends on its three fields and on the operands before it. -/
theorem bitmaskOperand_congr {before : List Operand}
    (hn : FieldName.maskN.extract v = FieldName.maskN.extract w)
    (hs : FieldName.maskS.extract v = FieldName.maskS.extract w)
    (hr : FieldName.maskR.extract v = FieldName.maskR.extract w) :
    s.bitmaskOperand v before = s.bitmaskOperand w before := by
  rw [bitmaskOperand, hn, hs, hr, ← bitmaskOperand]

/-- The operand for an argument depends on the fields that the argument reads and on the operands
before it. -/
theorem operand_congr {a : Arg} (h : FieldName.AgreeOn a.fields v w) (before : List Operand) :
    s.operand v before a = s.operand w before a := by
  cases a with
  | rn | rt | rt2 | rm =>
    rw [operand, operand, regAt_congr (h _ List.mem_cons_self)]
  | shifted shift width =>
    have hreg := regAt_congr (s := s) (h .rm List.mem_cons_self)
    have hamount := h (Arg.amountField width) (by simp [Arg.fields])
    rw [operand, operand, shiftedOperand, hreg, hamount, ← shiftedOperand]
  | imm16 =>
    rw [operand, operand, unsignedField_congr (h .imm16 List.mem_cons_self)]
  | imm16Half =>
    have hcontent := unsignedField_congr (h .imm16 List.mem_cons_self)
    have hhalf := h .half (by simp [Arg.fields])
    rw [operand, operand, hcontent, hhalf]
  | distance19 =>
    rw [operand, operand, distanceOperand, signedField_congr (h .imm19 List.mem_cons_self),
      ← distanceOperand]
  | distance26 =>
    rw [operand, operand, distanceOperand, signedField_congr (h .imm26 List.mem_cons_self),
      ← distanceOperand]
  | imm12 =>
    rw [operand, operand, shiftedImmediate, unsignedField_congr (h .imm13 List.mem_cons_self),
      ← shiftedImmediate]
  | distance21 =>
    have hhigh := unsignedField_congr (h .imm19 List.mem_cons_self)
    have hlow := unsignedField_congr (h .imm2 (by simp [Arg.fields]))
    rw [operand, operand, splitDistance, hhigh, hlow, ← splitDistance]
  | bitmask =>
    exact bitmaskOperand_congr (h .maskN (by simp [Arg.fields])) (h .maskS (by simp [Arg.fields]))
      (h .maskR (by simp [Arg.fields]))
  | memOffset9 =>
    have hoffset := signedField_congr (h .offset9 (by simp [Arg.fields]))
    rw [operand, operand, memOperand_congr (h .rn List.mem_cons_self) hoffset]
  | memOffset12 =>
    have hoffset := unsignedField_congr (h .offset12 (by simp [Arg.fields]))
    rw [operand, operand, memOperand_congr (h .rn List.mem_cons_self) (by rw [hoffset])]
  | memOffset7 =>
    have hoffset := signedField_congr (h .offset7 (by simp [Arg.fields]))
    rw [operand, operand, memOperand_congr (h .rn List.mem_cons_self) (by rw [hoffset])]

/-- The operands for a list of arguments depend on the fields that the arguments read and on the
operands before them. -/
theorem operandsFrom_congr {args : List Arg} (h : ∀ a ∈ args, FieldName.AgreeOn a.fields v w)
    (before : List Operand) : s.operandsFrom v before args = s.operandsFrom w before args := by
  induction args generalizing before with
  | nil => rfl
  | cons a rest ih =>
    obtain ⟨ha, hrest⟩ := List.forall_mem_cons.mp h
    simp only [operandsFrom, operand_congr ha, ih hrest]

/-- Validation makes sure that the arguments read listed fields only. -/
theorem IsConsistent.agreeOn (hs : s.IsConsistent) (h : FieldName.AgreeOn s.fields v w) :
    ∀ a ∈ s.args, FieldName.AgreeOn a.fields v w :=
  fun a ha f hf => h f (hs.mem_fields a ha f hf)

/-- Operands depend on listed fields only. Let a spec pass validation, and let two words agree in all
bits of the fields that it lists. Then both have operands by the spec, with no step on the way out of
range, and they are the same ones: these are what is pushed to any instruction that has no operands
yet. -/
theorem operands_depend_on_fields (hs : s.validate = .ok ())
    (hagree : ∀ f ∈ s.fields, v &&& f.bits.mask = w &&& f.bits.mask) {i j : Insn}
    (hi : i.operands = []) (hj : j.operands = []) :
    ∃ made, s.checkedOperands v = .ok made ∧ s.checkedOperands w = .ok made ∧
      s.pushOperands v i s.args = .ok { i with operands := made } ∧
      s.pushOperands w j s.args = .ok { j with operands := made } := by
  have hconsistent := s.validate_eq_ok_iff.mp hs
  have hfields : FieldName.AgreeOn s.fields v w := fun f hf =>
    Bits.Field.extract_eq_of_and_mask (hagree f hf)
  have hsame : s.operands v = s.operands w :=
    operandsFrom_congr (hconsistent.agreeOn hfields) []
  obtain ⟨made, hv⟩ := hconsistent.exists_operands v
  have hw : s.operands w = .ok made := hsame ▸ hv
  refine ⟨made, ?_, ?_, ?_, ?_⟩
  · rw [checkedOperands_eq, hv]
  · rw [checkedOperands_eq, hw]
  · rw [pushOperands_eq, hi, ← operands, hv]
    rfl
  · rw [pushOperands_eq, hj, ← operands, hw]
    rfl

/-- Two words that differ in all bits above the fields, by a spec with a bitmask immediate. -/
theorem operands_depend_on_fields_of_and :
    let s := ofArgs "and" 0x12000000 [.rt, .rn, .bitmask] Feature.narrow
    let v : Word := 0x12001c41
    let w : Word := 0xed801c41
    s.validate = .ok () ∧ (∀ f ∈ s.fields, v &&& f.bits.mask = w &&& f.bits.mask) ∧
      v &&& s.fixedMask ≠ w &&& s.fixedMask ∧
      ∃ made, s.pushOperands v Insn.blank s.args = .ok { Insn.blank with operands := made } ∧
        s.pushOperands w Insn.blank s.args = .ok { Insn.blank with operands := made } := by
  intro s v w
  have hvalid : s.validate = .ok () := by decide
  have hagree : ∀ f ∈ s.fields, v &&& f.bits.mask = w &&& f.bits.mask := by decide
  obtain ⟨made, -, -, hv, hw⟩ :=
    operands_depend_on_fields hvalid hagree (i := Insn.blank) (j := Insn.blank) rfl rfl
  exact ⟨hvalid, hagree, by decide, made, hv, hw⟩

end Spec

end A64Disassembler
