import A64Disassembler.Proofs.Decode.Absolute
import A64Disassembler.Proofs.Effect.Analysis
import Mathlib.Tactic.MkIffOfInductiveProp

/-!
# What is said about control flow agrees

The flags of an instruction come from the features of its spec, its targets from the last operand,
and its binding from a rule for the mnemonic. In the built-in encodings these sources agree. A
branch either ends with a distance, which becomes the address it goes to, or has the register with
that address as its only operand. A call saves the return address and every other branch writes
nothing. Neither calls nor stops exist without a branch, and no branch is both.
-/

namespace A64Disassembler

/-- The mnemonics of branches to an address in a register. -/
def indirectBranchNames : List String := ["br", "blr", "ret"]

namespace Spec

/-- The features, the name and the arguments of an encoding agree about control flow. -/
@[mk_iff] structure AgreesOnBranches (s : Spec) : Prop where
  /-- A call is a branch and no stop. -/
  call : s.has Feature.call = true → s.has Feature.branch = true ∧ s.has Feature.stop = false
  /-- A stop is a branch. -/
  stop : s.has Feature.stop = true → s.has Feature.branch = true
  /-- A branch saves the return address if it is a call, and writes nothing otherwise. -/
  rule : s.has Feature.branch = true →
    Rule.ofMnemonic? s.name = some (if s.has Feature.call then .call else .nothing)
  /-- The only argument of an indirect branch is a register of 64 bits, whose number 31 is the stack
  pointer. -/
  indirect : s.name ∈ indirectBranchNames →
    s.args = [.rn] ∧ s.regWidth = .w64 ∧ s.has Feature.zero31 = false ∧
      s.has Feature.zeroSource31 = false
  /-- Every other branch ends with a distance. -/
  direct : s.has Feature.branch = true → s.name ∉ indirectBranchNames →
    s.args.getLast?.any Arg.isImm = true

instance (s : Spec) : Decidable s.AgreesOnBranches :=
  decidable_of_iff' _ s.agreesOnBranches_iff

variable {s : Spec}

/-- The built-in encodings agree about control flow. -/
theorem agreesOnBranches_of_mem_catalogue (hs : s ∈ Catalogue.specs) : s.AgreesOnBranches := by
  have hall : ∀ s ∈ Catalogue.specs, s.AgreesOnBranches := by decide +kernel
  exact hall s hs

/-- The register of an indirect branch is no zero register. -/
theorem isZero_regAt_rn (word : Word) (hzero : s.has Feature.zero31 = false)
    (hsource : s.has Feature.zeroSource31 = false) : (s.regAt word .rn).isZero = false := by
  simp only [regAt, hzero, hsource, Bool.and_false, Bool.or_self, Reg.isZero, RegName.ofNumber]
  split <;> rfl

end Spec

namespace Decoder

variable {d : Decoder} {s : Spec} {i : Insn} {position : Nat} {address : Address} {word : Word}

/-- Without one of the three features there are no flags at all. -/
theorem insnFlags_eq_empty (hbranch : s.has Feature.branch = false)
    (hcall : s.has Feature.call = false) (hstop : s.has Feature.stop = false) :
    insnFlags s = {} := by
  rw [insnFlags, hbranch, hcall, hstop]
  decide

/-- A direct branch ends with the address that it goes to. -/
theorem exists_target_of_direct (hs : s ∈ Catalogue.specs) (hbranch : s.has Feature.branch = true)
    (hname : s.name ∉ indirectBranchNames) (h : d.insnOf s position address word = .ok i) :
    ∃ last target, i.operands.getLast? = some last ∧ last.kind = .imm (.const target) ∧
      last.isAddress = true := by
  obtain ⟨a, hlast, himm⟩ := (Option.any_eq_true _ _).mp
    ((Spec.agreesOnBranches_of_mem_catalogue hs).direct hbranch hname)
  have hconsistent := (Table.ofSpecs_eq_ok_iff.mp Table.ofSpecs_catalogue).1 s hs
  obtain ⟨made, hmade⟩ := hconsistent.exists_operands word
  obtain ⟨before, distance, rfl, -⟩ := Spec.exists_of_getLast?_isImm hlast himm hmade
  have hnear : s.has (Feature.branch ||| Feature.relative) = true := by
    rw [Spec.has_or, hbranch, Bool.true_or]
  have hmarked := marked_of_absolute h hmade (Spec.absolute_of_near hnear address distance)
  obtain ⟨last, hlast, hlastMarked⟩ := Option.map_eq_some_iff.mp (marked_getLast? hmarked)
  exact ⟨last, _, hlast, congrArg Prod.fst hlastMarked, congrArg Prod.snd hlastMarked⟩

/-- The last operand of an indirect branch is a register of 64 bits. -/
theorem exists_register_of_indirect (hs : s ∈ Catalogue.specs)
    (hname : s.name ∈ indirectBranchNames) (h : d.insnOf s position address word = .ok i) :
    ∃ last r, i.operands.getLast? = some last ∧ last.kind = .reg r ∧ r.width = .w64 ∧
      r.isZero = false := by
  obtain ⟨hargs, hwidth, hzero, hsource⟩ :=
    (Spec.agreesOnBranches_of_mem_catalogue hs).indirect hname
  have hconsistent := (Table.ofSpecs_eq_ok_iff.mp Table.ofSpecs_catalogue).1 s hs
  have hmade : s.operands word = .ok [.reg (s.regAt word .rn)] := by
    rw [Spec.operands, hargs]
    rfl
  have hkeeps : s.KeepsLast := by
    refine .inl fun a ha => ?_
    rw [hargs] at ha
    cases ha
    rfl
  obtain ⟨fixed, hfixed, hmarked, -⟩ := exists_fixed_of_insnOf h hmade
  rw [hconsistent.fixUp_of_keepsLast hkeeps hmade] at hfixed
  cases hfixed
  have hlast : i.operands.map Operand.marked =
      [].map Operand.marked ++ [(.reg (s.regAt word .rn), false)] := hmarked
  obtain ⟨last, hlast, hlastMarked⟩ := Option.map_eq_some_iff.mp (marked_getLast? hlast)
  exact ⟨last, _, hlast, congrArg Prod.fst hlastMarked, hwidth,
    Spec.isZero_regAt_rn word hzero hsource⟩

/-- The binding of a call is its return address, and that of any other branch is empty. -/
theorem binding_of_branch {options : Options}
    (hs : s ∈ Catalogue.specs) (hspec : (builtin options).table.specOf? i = some s)
    (hbranch : s.has Feature.branch = true) :
    (builtin options).binding i = .ok (if s.has Feature.call then
      { effects := [(.reg linkRegister, .const i.nextAddress)] } else {}) := by
  rw [binding_of_specOf? hspec, Insn.bindingFor,
    (Spec.agreesOnBranches_of_mem_catalogue hs).rule hbranch]
  cases s.has Feature.call <;> rfl

/-- What is said about the control flow of an instruction agrees. An instruction is flagged as a
branch exactly if it has a target. Then there is one target: the constant of the last operand, which
is marked as an address, or the content of the 64-bit register that the last operand is, for a
branch to a register. Calls and stops are branches, and no branch is both. The binding of a call is
exactly the return address, in the link register, and that of any other branch is complete and
empty. An instruction that is no branch has none of the flags and no target. -/
theorem control_flow_facts_agree {options : Options} {bytes : List UInt8}
    (hdecode : (builtin options).decode address bytes = .ok (.ok i)) :
    ∃ name, (builtin options).mnemonic? i = some name ∧
      (i.flags.any Insn.branch = true ↔ (builtin options).targets i ≠ []) ∧
      (i.flags.any Insn.branch = true → ∃ last, i.operands.getLast? = some last ∧
        if name ∈ indirectBranchNames then
          ∃ r, last.kind = .reg r ∧ r.width = .w64 ∧ r.isZero = false ∧
            (builtin options).targets i = [.sym r.name.name64]
        else
          ∃ target, last.kind = .imm (.const target) ∧ last.isAddress = true ∧
            (builtin options).targets i = [.const target]) ∧
      (i.flags.any Insn.call = true →
        i.flags.any Insn.branch = true ∧ i.flags.any Insn.stop = false ∧
          (builtin options).binding i =
            .ok { effects := [(.reg "x30", .const (address + 4))], isIncomplete := false }) ∧
      (i.flags.any Insn.stop = true → i.flags.any Insn.branch = true) ∧
      (i.flags.any Insn.branch = true → i.flags.any Insn.call = false →
        (builtin options).binding i = .ok { effects := [], isIncomplete := false }) ∧
      (i.flags.any Insn.branch = false → i.flags = {} ∧ (builtin options).targets i = []) := by
  obtain ⟨s, hs, hspec, -, position, hinsn⟩ := exists_spec_of_decode_builtin hdecode
  obtain ⟨hbranch, hcall, hstop⟩ := any_insnFlags s
  obtain ⟨hofCall, hofStop, -⟩ := Spec.agreesOnBranches_of_mem_catalogue hs
  have htargets := targets_of_insnOf hinsn hs hspec
  have hnext : i.nextAddress = address + 4 := by
    obtain ⟨haddress, hlength⟩ := place_of_insnOf hinsn
    rw [Insn.nextAddress, haddress, hlength]
    rfl
  have hbinding := binding_of_branch hs hspec
  rw [hnext] at hbinding
  rw [flags_of_insnOf hinsn] at htargets ⊢
  rw [hbranch, hcall, hstop] at *
  refine ⟨s.name, mnemonic?_of_specOf? hspec, ?_, fun h => ?_, fun h => ?_, hofStop,
    fun h hno => ?_, fun h => ⟨?_, ?_⟩⟩
  · cases hflag : s.has Feature.branch with
    | true =>
      rw [if_pos hflag] at htargets
      obtain ⟨last, -, htargets⟩ := htargets
      simp [htargets]
    | false =>
      rw [if_neg (by simp [hflag])] at htargets
      simp [htargets]
  · rw [if_pos h] at htargets
    obtain ⟨last, hlast, htargets⟩ := htargets
    refine ⟨last, hlast, ?_⟩
    split_ifs with hname
    · obtain ⟨last', r, hlast', hkind, hwidth, hzero⟩ := exists_register_of_indirect hs hname hinsn
      obtain rfl := Option.some.inj (hlast.symm.trans hlast')
      refine ⟨r, hkind, hwidth, hzero, ?_⟩
      rw [htargets, Operand.symbolic_of_reg hkind, Reg.symbolic, hzero, hwidth]
      rfl
    · obtain ⟨last', target, hlast', hkind, haddress⟩ := exists_target_of_direct hs h hname hinsn
      obtain rfl := Option.some.inj (hlast.symm.trans hlast')
      exact ⟨target, hkind, haddress, by rw [htargets, Operand.symbolic_of_imm hkind]⟩
  · obtain ⟨hisBranch, hnoStop⟩ := hofCall h
    refine ⟨hisBranch, hnoStop, ?_⟩
    rw [hbinding hisBranch, h]
    rfl
  · rw [hbinding h, hno]
    rfl
  · have hnoCall : s.has Feature.call = false :=
      Bool.eq_false_iff.mpr fun hc => by simp [(hofCall hc).1] at h
    have hnoStop : s.has Feature.stop = false :=
      Bool.eq_false_iff.mpr fun hs => by simp [hofStop hs] at h
    exact insnFlags_eq_empty h hnoCall hnoStop
  · rwa [if_neg (by simp [h])] at htargets

/-- A call of the next instruction but one, from the last word of the address space. -/
theorem control_flow_of_call :
    ∃ i, (builtin {}).decode 0xfffffffffffffffc [0x02, 0, 0, 0x94] = .ok (.ok i) ∧
      i.flags.any Insn.call = true ∧ i.flags.any Insn.stop = false ∧
      (builtin {}).targets i = [.const 4] ∧
      (builtin {}).binding i =
        .ok { effects := [(.reg "x30", .const 0)], isIncomplete := false } := by
  have hscan : Table.scan? Catalogue.specs 0x94000002 = some 35 := by decide +kernel
  have hs : Catalogue.specs[35]? = some (Spec.ofArgs "bl" 0x94000000 [.distance26]
      (Feature.branch ||| Feature.call)) := by
    decide +kernel
  have hdecode : (builtin {}).decode 0xfffffffffffffffc [0x02, 0, 0, 0x94] = .ok (.ok _) :=
    decode_builtin_of_scan rfl hscan hs rfl
  obtain ⟨name, hname, -, hlast, hcall, -⟩ := control_flow_facts_agree hdecode
  obtain rfl : "bl" = name := Option.some.inj ((mnemonic?_builtin rfl hs).symm.trans hname)
  obtain ⟨hbranch, hstop, hbinding⟩ := hcall rfl
  obtain ⟨last, hoperand, htarget⟩ := hlast hbranch
  rw [if_neg (by decide)] at htarget
  obtain ⟨target, hkind, -, htargets⟩ := htarget
  cases hoperand
  cases hkind
  exact ⟨_, hdecode, rfl, hstop, htargets, hbinding⟩

end Decoder

end A64Disassembler
