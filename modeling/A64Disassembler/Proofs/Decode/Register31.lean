import A64Disassembler.Proofs.Effect.Content
import A64Disassembler.Proofs.Effect.ControlFlow
import A64Disassembler.Proofs.Encoding.Mask

/-!
# Register number 31

A five-bit field with all bits set names no general register. In some places of the instruction set
it stands for the stack pointer, in all others for the register that is always zero. Here the places
of the stack pointer are listed by mnemonics and arguments, without the features that the decoder
goes by, and a decoded instruction is compared with that list.

The decoder agrees with the list but for the targets of indirect branches, which have no feature
that would make them the zero register. For two encodings the features alone say otherwise than the
list as well: sums and differences that set the flags would write the stack pointer. But they are
comparisons then, and comparisons stand before them.
-/

namespace A64Disassembler

/-- The field of the register that an argument reads. -/
def Arg.registerField? : Arg → Option FieldName
  | rn => some .rn
  | rt => some .rt
  | rt2 => some .rt2
  | rm | shifted _ _ => some .rm
  | _ => none

/-- The field of a register has five bits. -/
theorem Arg.size_registerField {a : Arg} {f : FieldName} (h : a.registerField? = some f) :
    f.bits.size = 5 := by
  cases a <;> cases h <;> rfl

/-- The arguments of an encoding for which register number 31 is the stack pointer. The destination
is `rt`, and the first source is `rn`. -/
def stackPointerArgs (name : String) (args : List Arg) : List Arg :=
  match name, args with
  | "add", [.rt, .rn, .imm12] | "sub", [.rt, .rn, .imm12] | "mov", [.rt, .rn] => [.rt, .rn]
  | "adds", [.rt, .rn, .imm12] | "subs", [.rt, .rn, .imm12] => [.rn]
  | "cmp", [.rn, .imm12] | "cmn", [.rn, .imm12] => [.rn]
  | "and", [.rt, .rn, .bitmask] | "orr", [.rt, .rn, .bitmask] | "eor", [.rt, .rn, .bitmask] => [.rt]
  | "mov", [.rt, .bitmask] => [.rt]
  | _, _ => []

namespace RegName

variable {number : Nat} {zero31 : Bool}

/-- A register number stands for the stack pointer if it is 31 and not that of the zero register. -/
theorem ofNumber_eq_sp_iff (h : number < 32) :
    ofNumber number zero31 = sp ↔ number = 31 ∧ zero31 = false := by
  unfold ofNumber
  split
  · simp; omega
  · obtain rfl : number = 31 := by omega
    cases zero31 <;> simp

/-- A register number stands for the zero register if it is 31 and that of the zero register. -/
theorem ofNumber_eq_zero_iff (h : number < 32) :
    ofNumber number zero31 = zero ↔ number = 31 ∧ zero31 = true := by
  unfold ofNumber
  split
  · simp; omega
  · obtain rfl : number = 31 := by omega
    cases zero31 <;> simp

end RegName

namespace Spec

variable {s t : Spec} {word : Word}

/-- Whether number 31 in a field is the zero register, by the features of the spec. -/
def zeroNumber31 (s : Spec) (f : FieldName) : Bool :=
  s.has Feature.zero31 || (f == .rn && s.has Feature.zeroSource31)

/-- The name of the register in a field. -/
theorem name_regAt (s : Spec) (word : Word) (f : FieldName) :
    (s.regAt word f).name = RegName.ofNumber (f.extract word).toNat (s.zeroNumber31 f) :=
  rfl

/-- Making an operand absolute keeps its register. -/
theorem register?_of_absolute {address : Address} {o fixed : Operand}
    (h : s.absolute address o = .ok fixed) : fixed.kind.register? = o.kind.register? := by
  unfold absolute at h
  split at h
  · rename_i distance himm
    have hkind : o.kind = .imm distance := by
      cases hk : o.kind <;> simp [Operand.imm?, hk] at himm ⊢
      exact himm
    split_ifs at h <;> cases h <;> simp [absolute.target, hkind, OperandKind.register?]
  · split_ifs at h <;> cases h <;> rfl

/-- The register of a new operand is the one in the field that its argument reads. -/
theorem register?_of_operand {before : List Operand} {a : Arg} {o : Operand}
    (h : s.operand word before a = .ok o) :
    o.kind.register? = a.registerField?.map (s.regAt word) := by
  cases a with
  | bitmask =>
    obtain ⟨c, hkind⟩ := admits_of_operand h
    rw [hkind]
    rfl
  | rn | rt | rt2 | rm | shifted | imm16 | imm16Half | distance19 | distance26 | imm12 | distance21
  | memOffset9 | memOffset12 | memOffset7 =>
    cases h
    rfl

/-- Whether `t` is the case of `s` in which a field has all bits set. -/
def IsAllOnesCase (t s : Spec) (f : FieldName) : Prop :=
  t.fixedMask = s.fixedMask ||| f.bits.mask ∧
    t.bits &&& t.fixedMask = (s.bits &&& s.fixedMask) ||| f.bits.mask

instance (t s : Spec) (f : FieldName) : Decidable (t.IsAllOnesCase s f) :=
  inferInstanceAs (Decidable (_ ∧ _))

/-- A spec accepts the words of another one in which a field has all bits set, if it is that case of
the other one. -/
theorem IsAllOnesCase.accepts {f : FieldName} (h : t.IsAllOnesCase s f)
    (hs : s.accepts word = true) (hones : word &&& f.bits.mask = f.bits.mask) :
    t.accepts word = true := by
  obtain ⟨hmask, hbits⟩ := h
  have hfixed : s.bits &&& s.fixedMask = word &&& s.fixedMask := beq_iff_eq.mp hs
  refine beq_iff_eq.mpr ?_
  rw [hbits, hmask, hfixed, BitVec.and_or_distrib_left, hones]

/-- Whether the decoder reads number 31 as the stack pointer in an argument: where the instruction
set has it, and in the target of an indirect branch. -/
def TakesStackPointer (s : Spec) (a : Arg) : Prop :=
  a ∈ stackPointerArgs s.name s.args ∨ s.name ∈ indirectBranchNames

instance (s : Spec) (a : Arg) : Decidable (s.TakesStackPointer a) :=
  inferInstanceAs (Decidable (_ ∨ _))

/-- The features of an encoding agree with the list of the places of the stack pointer, or else one
of the encodings before it is the case in which the number is 31. -/
@[mk_iff] structure AgreesOnNumber31 (earlier : List Spec) (s : Spec) : Prop where
  features : ∀ a ∈ s.args, ∀ f ∈ a.registerField?,
    s.zeroNumber31 f = !decide (s.TakesStackPointer a) ∨ ∃ t ∈ earlier, t.IsAllOnesCase s f

instance (earlier : List Spec) (s : Spec) : Decidable (s.AgreesOnNumber31 earlier) :=
  decidable_of_iff' _ (s.agreesOnNumber31_iff earlier)

/-- The built-in encodings agree with the list of the places of the stack pointer. -/
theorem agreesOnNumber31_of_catalogue {position : Nat} (hs : Catalogue.specs[position]? = some s) :
    s.AgreesOnNumber31 (Catalogue.specs.take position) := by
  have hall : ∀ entry ∈ Catalogue.specs.zipIdx,
      entry.1.AgreesOnNumber31 (Catalogue.specs.take entry.2) := by
    decide +kernel
  exact hall (s, position) (List.mem_zipIdx_iff_getElem?.mpr hs)

/-- Where no earlier encoding takes the word, the features say what the list does about a field that
holds 31. -/
theorem AgreesOnNumber31.zeroNumber31_eq {earlier : List Spec} {a : Arg} {f : FieldName}
    (h : s.AgreesOnNumber31 earlier) (hs : s.accepts word = true)
    (hearlier : ∀ t ∈ earlier, t.accepts word = false) (ha : a ∈ s.args)
    (hf : a.registerField? = some f) (hones : (f.extract word).toNat = 31) :
    s.zeroNumber31 f = !decide (s.TakesStackPointer a) := by
  obtain hagrees | ⟨t, ht, hcase⟩ := h.features a ha f hf
  · exact hagrees
  · have hmask : word &&& f.bits.mask = f.bits.mask := by
      refine Bits.Field.and_mask_of_extract ?_
      rw [Arg.size_registerField hf]
      exact hones
    have haccepts := hcase.accepts hs hmask
    rw [hearlier t ht] at haccepts
    contradiction

/-- The number of the base register of a memory operand is never that of the zero register. -/
theorem name_base_of_admits {a : Arg} {ref : MemRef} (h : s.Admits word a (.mem ref)) :
    ref.base.name = RegName.ofNumber (FieldName.rn.extract word).toNat false := by
  cases a with
  | rn | rt | rt2 | rm =>
    obtain ⟨r, hr, -⟩ := h
    cases hr
  | shifted =>
    obtain ⟨r, amount, hr, -⟩ := h
    cases hr
  | imm16 | imm16Half | distance19 | distance26 | imm12 | distance21 | bitmask =>
    obtain ⟨c, hc⟩ := h
    cases hc
  | memOffset9 | memOffset12 | memOffset7 =>
    cases h
    rfl

/-- What number 31 stands for in an operand. A register in a field that holds 31 is the stack
pointer where the argument takes it, and the zero register everywhere else. The base of a memory
operand is the stack pointer if its field holds 31, and never the zero register. -/
structure ReadsNumber31 (s : Spec) (word : Word) (a : Arg) (kind : OperandKind) : Prop where
  register : ∀ r, kind.register? = some r → ∃ f, a.registerField? = some f ∧
    (r.name = .sp ↔ (f.extract word).toNat = 31 ∧ s.TakesStackPointer a) ∧
    (r.name = .zero ↔ (f.extract word).toNat = 31 ∧ ¬ s.TakesStackPointer a)
  base : ∀ ref, kind = .mem ref →
    (ref.base.name = .sp ↔ (FieldName.rn.extract word).toNat = 31) ∧ ref.base.name ≠ .zero

/-- An operand reads number 31 as the list says, if the features agree with the list. -/
theorem readsNumber31_of_admits {a : Arg} {kind : OperandKind}
    (hzero : ∀ f, a.registerField? = some f → (f.extract word).toNat = 31 →
      s.zeroNumber31 f = !decide (s.TakesStackPointer a))
    (hadmits : s.Admits word a kind)
    (hregister : kind.register? = a.registerField?.map (s.regAt word)) :
    s.ReadsNumber31 word a kind where
  register r hr := by
    rw [hregister, Option.map_eq_some_iff] at hr
    obtain ⟨f, hf, rfl⟩ := hr
    have hlt : (f.extract word).toNat < 32 := by
      have h := f.bits.extract_lt word
      rwa [Arg.size_registerField hf] at h
    refine ⟨f, hf, ?_, ?_⟩
    · rw [name_regAt, RegName.ofNumber_eq_sp_iff hlt]
      refine and_congr_right fun hones => ?_
      simp [hzero f hf hones]
    · rw [name_regAt, RegName.ofNumber_eq_zero_iff hlt]
      refine and_congr_right fun hones => ?_
      simp [hzero f hf hones]
  base ref hkind := by
    subst hkind
    have hlt : (FieldName.rn.extract word).toNat < 32 := FieldName.rn.bits.extract_lt word
    rw [name_base_of_admits hadmits, ne_eq, RegName.ofNumber_eq_sp_iff hlt,
      RegName.ofNumber_eq_zero_iff hlt]
    simp

end Spec

namespace Decoder

variable {i : Insn} {address : Address} {options : Options} {bytes : List UInt8}

/-- Register number 31 is the stack pointer where the instruction set has it, in the target of an
indirect branch and as the base of a memory operand, and everywhere else the zero register. A
decoded instruction has one operand for each argument of one of the built-in encodings, and in each
of them number 31 is read so. -/
theorem readsNumber31_of_decode (hdecode : (builtin options).decode address bytes = .ok (.ok i)) :
    ∃ s ∈ Catalogue.specs, (builtin options).mnemonic? i = some s.name ∧
      s.accepts i.raw = true ∧
      List.Forall₂ (fun a o => s.ReadsNumber31 i.raw a o.kind) s.args i.operands := by
  obtain ⟨position, s, hscan, hspec, hinsn⟩ := exists_scan_of_decode_builtin hdecode
  obtain ⟨hopcode, -⟩ := exists_operands_of_insnOf hinsn
  have haccepts := Table.accepts_of_scan? hscan hspec
  have hforms : List.Forall₂ (fun a kind => s.Admits i.raw a kind ∧
      kind.register? = a.registerField?.map (s.regAt i.raw)) s.args
      (i.operands.map Operand.kind) :=
    forall₂_of_insnOf
      (fun h => ⟨Spec.admits_of_operand h, Spec.register?_of_operand h⟩)
      (fun h ho => ⟨Spec.admits_of_absolute h ho.1, (Spec.register?_of_absolute h).trans ho.2⟩)
      hinsn
  have hargs := List.forall₂_and_left (p := (· ∈ s.args)) s.args _ |>.mpr
    ⟨fun a ha => ha, List.forall₂_map_right_iff.mp hforms⟩
  refine ⟨s, List.mem_of_getElem? hspec, mnemonic?_builtin hopcode hspec, haccepts,
    hargs.imp fun a o ⟨ha, hadmits, hregister⟩ => ?_⟩
  refine Spec.readsNumber31_of_admits (fun f hf hones => ?_) hadmits hregister
  exact (Spec.agreesOnNumber31_of_catalogue hspec).zeroNumber31_eq haccepts
    (Table.not_accepts_of_scan? hscan) ha hf hones

/-- The stack pointer as the destination of a bitwise and, and the zero register as its source. -/
theorem readsNumber31_of_and :
    ∃ i, (builtin {}).decode 0x1000 [0xff, 0x03, 0x40, 0x92] = .ok (.ok i) ∧
      i.operands = [.reg ⟨.sp, .w64⟩, .reg ⟨.zero, .w64⟩, .imm (.const 1)] ∧
      ∃ s ∈ Catalogue.specs, s.name = "and" ∧
        List.Forall₂ (fun a o => s.ReadsNumber31 i.raw a o.kind) s.args i.operands := by
  have hscan : Table.scan? Catalogue.specs 0x924003ff = some 18 := by decide +kernel
  have hs : Catalogue.specs[18]? = some (Spec.ofArgs "and" 0x92000000 [.rt, .rn, .bitmask]
      Feature.zeroSource31) := by
    decide +kernel
  have hdecode : (builtin {}).decode 0x1000 [0xff, 0x03, 0x40, 0x92] = .ok (.ok _) :=
    decode_builtin_of_scan rfl hscan hs rfl
  obtain ⟨s, hmem, hname, -, hoperands⟩ := readsNumber31_of_decode hdecode
  have hand : "and" = s.name := Option.some.inj ((mnemonic?_builtin rfl hs).symm.trans hname)
  exact ⟨_, hdecode, rfl, s, hmem, hand.symm, hoperands⟩

/-- A branch to the register with number 31 goes to the stack pointer, although the instruction set
has the zero register there. -/
theorem operand_of_br_number31 :
    ∃ i, (builtin {}).decode 0x1000 [0xe0, 0x03, 0x1f, 0xd6] = .ok (.ok i) ∧
      (builtin {}).mnemonic? i = some "br" ∧ (FieldName.rn.extract i.raw).toNat = 31 ∧
      i.operands = [.reg ⟨.sp, .w64⟩] ∧ stackPointerArgs "br" [.rn] = [] := by
  have hscan : Table.scan? Catalogue.specs 0xd61f03e0 = some 56 := by decide +kernel
  have hs : Catalogue.specs[56]? = some (Spec.ofArgs "br" 0xd61f0000 [.rn]
      (Feature.branch ||| Feature.stop)) := by
    decide +kernel
  have hdecode : (builtin {}).decode 0x1000 [0xe0, 0x03, 0x1f, 0xd6] = .ok (.ok _) :=
    decode_builtin_of_scan rfl hscan hs rfl
  exact ⟨_, hdecode, mnemonic?_builtin rfl hs, rfl, rfl, rfl⟩

end Decoder

end A64Disassembler
