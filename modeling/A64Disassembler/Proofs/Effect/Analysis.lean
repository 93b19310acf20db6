import A64Disassembler.Proofs.Decode.Total
import A64Disassembler.Proofs.Effect.DataProcessing
import A64Disassembler.Proofs.Effect.LoadStore

/-!
# Every decoded instruction can be analysed and printed

A rule is found by the mnemonic alone, and encodings of one mnemonic differ in the number and the
form of their operands. Still every rule fits all built-in encodings with its mnemonic: it reads no
operands, or it belongs to a data-processing instruction or to a load or a store, whose arguments
are known. An encoding without a rule starts with a plain register or an immediate, and only a
register may change.

Printing asks for the distance of an address from a symbol, which exists if symbols do not lie after
the addresses that they are given for.
-/

namespace A64Disassembler

/-- The registers that an operand uses. -/
def OperandKind.registers : OperandKind → List Reg
  | reg r => [r]
  | shifted r _ _ => [r]
  | imm _ => []
  | mem ref => ref.base :: ref.index.toList

/-- The number of a register has a place in the numbering. -/
theorem Reg.ofNumbers_index (r : Reg) : ofNumbers r.name.index r.width.bits = .ok r := by
  obtain ⟨name, width⟩ := r
  have hname : RegName.ofIndex? name.index = some name := by
    cases name with
    | general n => simp [RegName.ofIndex?, RegName.index]
    | sp | zero => rfl
  rw [ofNumbers, hname]
  cases width <;> rfl

namespace Rule

/-- Whether the binding of a rule depends on the operands. -/
def readsOperands : Rule → Bool
  | compare | call | nothing => false
  | move | moveNot | binary _ _ | negate | shift _ | load | store | loadPair | storePair => true

/-- A rule that reads operands belongs to a data-processing instruction, a load or a store. -/
theorem mem_of_readsOperands {name : String} {rule : Rule} (h : ofMnemonic? name = some rule)
    (hreads : rule.readsOperands = true) :
    name ∈ dataMnemonics ∨ name ∈ loadMnemonics ++ storeMnemonics := by
  have hall : ∀ entry ∈ catalogue, entry.2.readsOperands = true →
      entry.1 ∈ dataMnemonics ∨ entry.1 ∈ loadMnemonics ++ storeMnemonics := by
    decide +kernel
  obtain ⟨before, after, hcatalogue, -⟩ := List.lookup_eq_some_iff.mp h
  exact hall (name, rule) (hcatalogue ▸ by simp) hreads

end Rule

namespace Expr

variable {v : Valuation}

/-- An operator with a constant has a value exactly if its other operand has one. -/
theorem isSome_eval_op_const (o : Op) (e : Expr) (c : BitVec 64) :
    ((op o e (const c)).eval v).isSome = (e.eval v).isSome := by
  cases h : e.eval v <;> simp [eval, h]

/-- The sign extension of an expression has a value exactly if the expression has one. -/
theorem isSome_eval_signExtend32 (e : Expr) :
    (e.signExtend32.eval v).isSome = (e.eval v).isSome := by
  unfold signExtend32
  split
  · split <;> simp only [isSome_eval_op_const]
  · simp only [isSome_eval_op_const]

end Expr

/-- The shifted content of a register has a value in every state. -/
theorem Operand.isSome_eval_of_shifted {o : Operand} {r : Reg} {shift : Shift} {amount : UInt8}
    (h : o.kind = .shifted r shift amount) (v : Valuation) : (o.symbolic.eval v).isSome = true := by
  rw [symbolic, h]
  dsimp only
  split
  · rw [Expr.eval_reduce, Expr.isSome_eval_op_const, Expr.isSome_eval_op_const,
      Expr.isSome_eval_signExtend32, r.eval_symbolic, Option.isSome_some]
  · rw [Expr.eval_reduce, Expr.isSome_eval_op_const, r.eval_symbolic, Option.isSome_some]

/-- A cell at a constant offset from a register has a value in every state. -/
theorem Operand.isSome_eval_of_mem {o : Operand} {ref : MemRef} {c : BitVec 64}
    (h : o.kind = .mem ref) (hindex : ref.index = none) (hoffset : ref.offset = .const c)
    (v : Valuation) : (o.symbolic.eval v).isSome = true := by
  have hbase : (ref.base.symbolic.eval v).isSome = true := by
    rw [ref.base.eval_symbolic, Option.isSome_some]
  rw [symbolic, h]
  simp only [MemRef.symbolic, MemRef.pointer, hindex, hoffset, Expr.eval, Option.isSome_map,
    Expr.eval_reduce]
  split
  · exact hbase
  · rw [Expr.isSome_eval_op_const]
    exact hbase

namespace Spec

variable {s : Spec} {word : Word}

/-- The operand of an argument has a value in every state. -/
theorem isSome_eval_of_admits {a : Arg} {o : Operand} (h : s.Admits word a o.kind)
    (v : Valuation) : (o.symbolic.eval v).isSome = true := by
  cases a with
  | rn | rt | rt2 | rm =>
    obtain ⟨r, hkind, -⟩ := h
    rw [Operand.symbolic_of_reg hkind, Reg.eval_symbolic, Option.isSome_some]
  | shifted shift width =>
    obtain ⟨r, amount, hkind, -⟩ := h
    exact Operand.isSome_eval_of_shifted hkind v
  | imm16 | imm16Half | distance19 | distance26 | imm12 | distance21 | bitmask =>
    obtain ⟨c, hkind⟩ := h
    rw [Operand.symbolic_of_imm hkind]
    rfl
  | memOffset9 | memOffset12 | memOffset7 => exact Operand.isSome_eval_of_mem h rfl rfl v

/-- The first argument of a built-in encoding without a rule is a plain register or an
immediate. -/
theorem head?_args_of_mem_catalogue (hs : s ∈ Catalogue.specs)
    (hrule : Rule.ofMnemonic? s.name = none) :
    s.args.head?.all (fun a => a.isReg || a.isImm) = true := by
  have hall : (Catalogue.specs.all fun s => (Rule.ofMnemonic? s.name).isSome ||
      s.args.head?.all fun a => a.isReg || a.isImm) = true := by
    decide +kernel
  have h := List.all_eq_true.mp hall s hs
  simpa [hrule] using h

/-- The operands of a list of arguments have values in every state. -/
theorem isSome_eval_of_forall₂ {args : List Arg} {operands : List Operand}
    (h : List.Forall₂ (fun a o => s.Admits word a o.kind) args operands) (v : Valuation) :
    ∀ o ∈ operands, (o.symbolic.eval v).isSome = true := by
  induction h with
  | nil => simp
  | cons ha _ ih => exact List.forall_mem_cons.mpr ⟨isSome_eval_of_admits ha v, ih⟩

/-- The operand of a register argument is a register. -/
theorem kind_of_isReg {a : Arg} {kind : OperandKind} (ha : a.isReg = true)
    (h : s.Admits word a kind) : ∃ r, kind = .reg r := by
  cases a with
  | rn | rt | rt2 | rm =>
    obtain ⟨r, hkind, -⟩ := h
    exact ⟨r, hkind⟩
  | shifted | imm16 | imm16Half | distance19 | distance26 | imm12 | distance21 | bitmask
  | memOffset9 | memOffset12 | memOffset7 => cases ha

/-- A built-in branch has an operand. -/
theorem args_ne_nil_of_branch (hs : s ∈ Catalogue.specs) (hbranch : s.has Feature.branch = true) :
    s.args ≠ [] := by
  have hall : (Catalogue.specs.all fun s => !s.has Feature.branch || !s.args.isEmpty) = true := by
    decide +kernel
  have h := List.all_eq_true.mp hall s hs
  simpa [hbranch] using h

end Spec

namespace Insn

variable {d : Decoder} {s : Spec} {i : Insn} {position : Nat} {address : Address}

/-- The rule of a built-in encoding gives a complete binding to its instructions. -/
theorem exists_bindingBy {rule : Rule} (hs : s ∈ Catalogue.specs)
    (hrule : Rule.ofMnemonic? s.name = some rule) (haccepts : s.accepts i.raw = true)
    (hinsn : d.insnOf s position address i.raw = .ok i) :
    ∃ b, i.bindingBy (i.operands.map Operand.symbolic) rule = .ok b ∧ b.isIncomplete = false := by
  by_cases hreads : rule.readsOperands = true
  · rcases Rule.mem_of_readsOperands hrule hreads with hdata | haccess
    · have hfits := Rule.fits_of_mem_catalogue hs hdata hrule
      obtain ⟨d, sources, value, -, -, hbinding, -⟩ :=
        bindingBy_eq_assign hfits (Decoder.admits_of_insnOf hinsn)
      refine ⟨_, hbinding, ?_⟩
      split <;> exact Binding.isIncomplete_assign _ d value
    · obtain ⟨hfits, -⟩ := Rule.fitsAccess_of_mem_catalogue hs haccess hrule
      obtain ⟨transfers, mode, -, -, -, -, hbinding⟩ := bindingBy_eq_access hinsn haccepts hfits
      refine ⟨_, hbinding, ?_⟩
      rw [Binding.isIncomplete_advance]
      split
      · exact Binding.isIncomplete_loads _ _ _ _
      · exact Binding.isIncomplete_stores _ _ _ _
  · cases rule with
    | compare | call | nothing => exact ⟨_, rfl, rfl⟩
    | move | moveNot | binary | negate | shift | load | store | loadPair | storePair =>
      exact absurd rfl hreads

/-- The binding of an instruction without a rule is marked. It has an effect only if the first
operand is a register other than the zero register: the content of that register is unknown. -/
theorem unknownBinding_of_reg_or_imm {operands : List Operand}
    (h : ∀ first, operands.head? = some first →
      (∃ r, first.kind = .reg r) ∨ ∃ c, first.kind = .imm (.const c)) :
    (unknownBinding (operands.map Operand.symbolic)).isIncomplete = true ∧
      (unknownBinding (operands.map Operand.symbolic)).effects =
        match operands.head?.bind Operand.reg? with
        | some r => if r.isZero then [] else [(.reg r.name.name64, .unknown)]
        | none => [] := by
  refine ⟨rfl, ?_⟩
  cases operands with
  | nil => rfl
  | cons first rest =>
    rcases h first rfl with ⟨r, hr⟩ | ⟨c, hc⟩
    · obtain ⟨name, width⟩ := r
      simp only [List.map_cons, List.head?_cons, Option.bind_some, Operand.reg?, hr,
        Operand.symbolic_of_reg hr, Reg.symbolic]
      split
      · rfl
      · cases width <;> rfl
    · simp only [List.map_cons, List.head?_cons, Option.bind_some, Operand.reg?, hc,
        Operand.symbolic_of_imm hc]
      rfl

end Insn

/-- The symbol that a list gives for an address lies at or before the address. -/
theorem Markup.le_of_symbolAt_ofSymbols {symbols : List Symbol} {mark : Style → String → String}
    {a : Address} {s : Symbol} (h : (ofSymbols symbols mark).symbolAt a = some s) :
    s.address ≤ a :=
  of_decide_eq_true (List.mem_filter.mp (List.mem_of_getLast? h)).2

namespace InsnPrinter

variable {m : Markup} {p : InsnPrinter}

/-- An operand can be printed if symbols lie at or before the addresses that they are given
for. -/
theorem exists_operandText (hsymbols : ∀ a s, m.symbolAt a = some s → s.address ≤ a)
    (o : Operand) : ∃ text, operandText m o = .ok text := by
  have haddress : ∀ a, ∃ text, addressName m a = .ok text := by
    intro a
    unfold addressName
    split
    · exact ⟨_, rfl⟩
    · rename_i s hs
      have hdistance : a.distanceFrom s.address = .ok (a - s.address) :=
        Address.distanceFrom_eq_ok.mpr ⟨hsymbols a s hs, rfl⟩
      exact ⟨_, bind_eq_ok.mpr ⟨_, hdistance, rfl⟩⟩
  unfold operandText
  cases o.kind with
  | reg r => exact ⟨_, rfl⟩
  | shifted r shift amount => exact ⟨_, rfl⟩
  | mem ref => exact ⟨_, rfl⟩
  | imm value =>
    dsimp only
    unfold immText
    split
    · split
      · obtain ⟨name, hname⟩ := haddress _
        exact ⟨_, bind_eq_ok.mpr ⟨name, hname, rfl⟩⟩
      · exact ⟨_, rfl⟩
    · exact ⟨_, rfl⟩

/-- The text of an instruction is made of the mnemonic and the operands, if separators have no
columns to fill. -/
theorem insnText_eq (hinsn : p.insnSeparator = .tab) (hoperand : p.operandSeparator = .text ", ")
    {i : Insn} {name : String} (hname : p.mnemonic i = some name) :
    p.insnText m i = (do
      let texts ← i.printedOperands.mapM (operandText m)
      return m.mark .mnemonic name ++ ((if texts.isEmpty then "" else "\t") ++
        (if texts.length ≤ 1 then "" else ", ").intercalate texts)) := by
  rw [insnText, hname, Option.getD_some, hinsn, hoperand]
  refine bind_congr fun texts => ?_
  rw [← String.append_assoc]
  split_ifs <;> rfl

/-- An instruction can be printed if symbols lie at or before the addresses that they are given
for, and separators have no columns to fill. The text starts with the mnemonic. -/
theorem exists_insnText (hsymbols : ∀ a s, m.symbolAt a = some s → s.address ≤ a)
    (hinsn : p.insnSeparator = .tab) (hoperand : p.operandSeparator = .text ", ") {i : Insn}
    {name : String} (hname : p.mnemonic i = some name) :
    ∃ rest, p.insnText m i = .ok (m.mark .mnemonic name ++ rest) := by
  obtain ⟨texts, htexts⟩ : ∃ texts, i.printedOperands.mapM (operandText m) = .ok texts :=
    exists_mapM_eq_ok fun o _ => exists_operandText hsymbols o
  rw [insnText_eq hinsn hoperand hname]
  exact ⟨_, bind_eq_ok.mpr ⟨texts, htexts, rfl⟩⟩

end InsnPrinter

namespace Decoder

variable {d : Decoder} {s : Spec} {i : Insn} {position : Nat} {address : Address} {word : Word}

/-- The mnemonic of an instruction is that of its spec. -/
theorem mnemonic?_of_specOf? (h : d.table.specOf? i = some s) : d.mnemonic? i = some s.name := by
  rw [mnemonic?, Table.mnemonic?, h, Option.map_some]

/-- The binding of an instruction is the one for the mnemonic of its spec. -/
theorem binding_of_specOf? (h : d.table.specOf? i = some s) :
    d.binding i = i.bindingFor s.name := by
  simp only [binding, h]

/-- The printer of a decoder can print an instruction with a mnemonic if symbols lie at or before
the addresses that they are given for. The text starts with the mnemonic. -/
theorem exists_insnText_of_mnemonic? {m : Markup} {name : String}
    (hsymbols : ∀ a s, m.symbolAt a = some s → s.address ≤ a) (hname : d.mnemonic? i = some name) :
    ∃ rest, d.printer.insnText m i = .ok (m.mark .mnemonic name ++ rest) :=
  InsnPrinter.exists_insnText hsymbols rfl rfl hname

/-- An instruction has the flags of its spec. -/
theorem flags_of_insnOf (h : d.insnOf s position address word = .ok i) : i.flags = insnFlags s := by
  obtain ⟨made, -, h⟩ := bind_eq_ok.mp h
  obtain ⟨fixed, -, h⟩ := bind_eq_ok.mp h
  cases h
  rfl

/-- Each flag stands for one feature of the spec. -/
theorem any_insnFlags (s : Spec) :
    (insnFlags s).any Insn.branch = s.has Feature.branch ∧
      (insnFlags s).any Insn.call = s.has Feature.call ∧
      (insnFlags s).any Insn.stop = s.has Feature.stop := by
  unfold insnFlags
  cases s.has Feature.branch <;> cases s.has Feature.call <;> cases s.has Feature.stop <;> decide

/-- An instruction is flagged as a branch exactly if its spec is one. -/
theorem isBranch_of_insnOf (h : d.insnOf s position address word = .ok i) :
    i.flags.any Insn.branch = s.has Feature.branch := by
  rw [flags_of_insnOf h, (any_insnFlags s).1]

/-- The first operand of an instruction by a built-in encoding without a rule is a plain register or
a constant. -/
theorem head?_operands_of_insnOf (h : d.insnOf s position address word = .ok i)
    (hs : s ∈ Catalogue.specs) (hrule : Rule.ofMnemonic? s.name = none) :
    ∀ first, i.operands.head? = some first →
      (∃ r, first.kind = .reg r) ∨ ∃ c, first.kind = .imm (.const c) := by
  intro first hfirst
  have hargs := Spec.head?_args_of_mem_catalogue hs hrule
  obtain ⟨rest, hoperands⟩ := List.head?_eq_some_iff.mp hfirst
  have hforms := admits_of_insnOf h
  rw [hoperands, List.map_cons, List.forall₂_cons_right_iff] at hforms
  obtain ⟨a, args, ha, -, hcons⟩ := hforms
  rw [hcons, List.head?_cons, Option.all_some, Bool.or_eq_true] at hargs
  rcases hargs with hreg | himm
  · exact .inl (Spec.kind_of_isReg hreg ha)
  · exact .inr (Spec.kind_of_isImm himm ha)

/-- The binding of an instruction by a built-in encoding can be made. It is incomplete exactly if the
mnemonic has no rule; then it says no more than that the register of the first operand is
unknown. -/
theorem exists_bindingFor_of_insnOf (h : d.insnOf s position address i.raw = .ok i)
    (hs : s ∈ Catalogue.specs) (haccepts : s.accepts i.raw = true) :
    ∃ b, i.bindingFor s.name = .ok b ∧
      (b.isIncomplete = true ↔ Rule.ofMnemonic? s.name = none) ∧
      (b.isIncomplete = true → b.effects.length ≤ 1 ∧ ∀ effect ∈ b.effects,
        ∃ first r, i.operands.head? = some first ∧ first.kind = .reg r ∧
          effect = (.reg r.name.name64, .unknown)) := by
  unfold Insn.bindingFor
  cases hrule : Rule.ofMnemonic? s.name with
  | some rule =>
    obtain ⟨b, hb, hcomplete⟩ := Insn.exists_bindingBy hs hrule haccepts h
    exact ⟨b, hb, by simp [hcomplete], by simp [hcomplete]⟩
  | none =>
    obtain ⟨hincomplete, heffects⟩ :=
      Insn.unknownBinding_of_reg_or_imm (head?_operands_of_insnOf h hs hrule)
    refine ⟨_, rfl, by simp [hincomplete], fun _ => ?_⟩
    rw [heffects]
    split
    · rename_i r hr
      obtain ⟨first, hfirst, hreg⟩ := Option.bind_eq_some_iff.mp hr
      have hkind : first.kind = .reg r := by
        cases hk : first.kind <;> simp_all [Operand.reg?]
      split
      · simp
      · exact ⟨by simp, by simpa using ⟨first, hfirst, r, hkind, rfl⟩⟩
    · simp

/-- A branch has the value of its last operand as its only target. -/
theorem targets_of_insnOf {options : Options} (h : (builtin options).insnOf s position address word =
    .ok i) (hs : s ∈ Catalogue.specs) (hspec : (builtin options).table.specOf? i = some s) :
    if i.flags.any Insn.branch then
      ∃ last, i.operands.getLast? = some last ∧ (builtin options).targets i = [last.symbolic]
    else (builtin options).targets i = [] := by
  rw [isBranch_of_insnOf h]
  simp only [targets, hspec]
  split_ifs with hbranch
  · have hforms := List.forall₂_map_right_iff.mp (admits_of_insnOf h)
    have hne : i.operands ≠ [] := by
      intro hnil
      rw [hnil, List.forall₂_nil_right_iff] at hforms
      exact Spec.args_ne_nil_of_branch hs hbranch hforms
    obtain ⟨last, hlast⟩ := Option.ne_none_iff_exists'.mp (List.getLast?_eq_none_iff.not.mpr hne)
    exact ⟨last, hlast, by rw [hlast]; rfl⟩
  · rfl

/-- Every instruction that the built-in encodings decode can be analysed and printed. It has a
mnemonic. All of its operands have values in every state, and the numbers of their registers are
those of a register. Its binding can be made, and is incomplete exactly if the mnemonic has no rule;
then it has at most one effect, which makes the register of the first operand unknown. A branch has
one target, the value of its last operand, and other instructions have none. The printed text exists
and starts with the mnemonic, if no symbol lies after an address that it is given for. -/
theorem analysis_has_no_fault {options : Options} {bytes : List UInt8} {m : Markup}
    (hdecode : (builtin options).decode address bytes = .ok (.ok i))
    (hsymbols : ∀ a s, m.symbolAt a = some s → s.address ≤ a) :
    ∃ (name : String) (b : Binding) (rest : String),
      (builtin options).mnemonic? i = some name ∧
      (∀ o ∈ i.operands, (∀ v : Valuation, (o.symbolic.eval v).isSome = true) ∧
        ∀ r ∈ o.kind.registers, Reg.ofNumbers r.name.index r.width.bits = .ok r) ∧
      (builtin options).binding i = .ok b ∧
      (b.isIncomplete = true ↔ Rule.ofMnemonic? name = none) ∧
      (b.isIncomplete = true → b.effects.length ≤ 1 ∧ ∀ effect ∈ b.effects,
        ∃ first r, i.operands.head? = some first ∧ first.kind = .reg r ∧
          effect = (.reg r.name.name64, .unknown)) ∧
      (if i.flags.any Insn.branch then
        ∃ last, i.operands.getLast? = some last ∧ (builtin options).targets i = [last.symbolic]
      else (builtin options).targets i = []) ∧
      (builtin options).printer.insnText m i = .ok (m.mark .mnemonic name ++ rest) := by
  obtain ⟨s, hs, hspec, haccepts, position, hinsn⟩ := exists_spec_of_decode_builtin hdecode
  have hname := mnemonic?_of_specOf? hspec
  obtain ⟨b, hb, hincomplete, heffects⟩ := exists_bindingFor_of_insnOf hinsn hs haccepts
  obtain ⟨rest, htext⟩ := exists_insnText_of_mnemonic? hsymbols hname
  have hforms := List.forall₂_map_right_iff.mp (admits_of_insnOf hinsn)
  have hoperands : ∀ o ∈ i.operands, (∀ v : Valuation, (o.symbolic.eval v).isSome = true) ∧
      ∀ r ∈ o.kind.registers, Reg.ofNumbers r.name.index r.width.bits = .ok r := fun o ho =>
    ⟨fun v => Spec.isSome_eval_of_forall₂ hforms v o ho, fun r _ => r.ofNumbers_index⟩
  exact ⟨s.name, b, rest, hname, hoperands, (binding_of_specOf? hspec).trans hb, hincomplete,
    heffects, targets_of_insnOf hinsn hs hspec, htext⟩

/-- The instruction `mul w0, w1, w2` has no rule, so that nothing is known about `x0` after it. -/
theorem analysis_of_mul :
    let m := Markup.ofSymbols [⟨0x1000, "start"⟩] fun _ text => text
    ∃ i, (builtin {}).decode 0x1004 [0x20, 0x7c, 0x02, 0x1b] = .ok (.ok i) ∧
      (∀ a s, m.symbolAt a = some s → s.address ≤ a) ∧
      ∃ b rest, (builtin {}).binding i = .ok b ∧ b.isIncomplete = true ∧
        (∀ effect ∈ b.effects, effect = (.reg "x0", .unknown)) ∧
        (builtin {}).printer.insnText m i = .ok ("mul" ++ rest) := by
  intro m
  have hscan : Table.scan? Catalogue.specs 0x1b027c20 = some 170 := by decide +kernel
  have hs : Catalogue.specs[170]? = some (Spec.ofArgs "mul" 0x1b007c00 [.rt, .rn, .rm]
      (Feature.zero31 ||| Feature.narrow)) := by
    decide +kernel
  have hdecode : (builtin {}).decode 0x1004 [0x20, 0x7c, 0x02, 0x1b] = .ok (.ok _) :=
    decode_builtin_of_scan rfl hscan hs rfl
  have hsymbols : ∀ a s, m.symbolAt a = some s → s.address ≤ a :=
    fun _ _ => Markup.le_of_symbolAt_ofSymbols
  refine ⟨_, hdecode, hsymbols, ?_⟩
  obtain ⟨name, b, rest, hname, -, hbinding, hincomplete, heffects, -, htext⟩ :=
    analysis_has_no_fault hdecode hsymbols
  obtain rfl : "mul" = name := Option.some.inj ((mnemonic?_builtin rfl hs).symm.trans hname)
  have hmarked := hincomplete.mpr (by decide)
  refine ⟨b, rest, hbinding, hmarked, fun effect heffect => ?_, htext⟩
  obtain ⟨first, r, hfirst, hr, rfl⟩ := (heffects hmarked).2 effect heffect
  cases hfirst
  cases hr
  rfl

end Decoder

end A64Disassembler
