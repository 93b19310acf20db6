import A64Disassembler.Effect.Analysis
import A64Disassembler.Proofs.Bits.Value
import A64Disassembler.Proofs.Decode.Decoded
import A64Disassembler.Proofs.Effect.Access
import A64Disassembler.Proofs.Encoding.Mask

/-!
# The bindings of loads and stores

Every built-in load or store has the arguments that its rule reads, and its words say how the
address of the first slot is given: by the offset in a field of their own, by the bits of the
increment, or by a distance from the instruction. So the binding of a decoded load or store makes
exactly the changes of the access.
-/

namespace A64Disassembler

namespace Spec

/-- The bits of a word that tell how an access with a given argument gives its address. -/
def addressingBits : Arg → List Nat
  | .memOffset9 => [10, 11, 24]
  | .memOffset12 => [24]
  | .memOffset7 => [23, 24]
  | _ => []

/-- Whether all words of an encoding give the address of an access in the way of the argument. -/
def fixesAddressing (s : Spec) (a : Arg) : Bool :=
  (addressingBits a).all s.fixedMask.getLsbD && s.increment == accessIncrement s.name s.bits &&
    match a with
    | .memOffset9 => !(pairMnemonics.contains s.name) && !s.bits.getLsbD 24
    | .memOffset12 => !(pairMnemonics.contains s.name) && s.bits.getLsbD 24
    | .memOffset7 => pairMnemonics.contains s.name
    | _ => false

variable {s : Spec} {word : Word}

/-- The words of an encoding that fixes the addressing have its offset and its increment. -/
theorem addressing_of_accepts {a : Arg} (haccepts : s.accepts word = true)
    (hfixes : s.fixesAddressing a = true) :
    s.memOffset word a = accessOffset s.name s.memSize word ∧
      s.increment = accessIncrement s.name word := by
  have hbit {k : Nat} (hk : s.fixedMask.getLsbD k = true) := getLsbD_of_accepts haccepts hk
  simp only [fixesAddressing, Bool.and_eq_true, beq_iff_eq] at hfixes
  obtain ⟨⟨hfixed, hincrement⟩, hform⟩ := hfixes
  rw [hincrement]
  cases a with
  | memOffset9 =>
    simp only [addressingBits, List.all_cons, List.all_nil, Bool.and_true, Bool.and_eq_true]
      at hfixed
    obtain ⟨h10, h11, h24⟩ := hfixed
    simp only [Bool.and_eq_true, Bool.not_eq_true', List.contains_eq_mem, decide_eq_false_iff_not]
      at hform
    obtain ⟨hpair, hclear⟩ := hform
    constructor
    · rw [memOffset, signedField_eq, accessOffset, if_neg hpair, hbit h24, hclear]
      rfl
    · simp only [accessIncrement, if_neg hpair, hbit h10, hbit h11, hbit h24]
  | memOffset12 =>
    simp only [addressingBits, List.all_cons, List.all_nil, Bool.and_true] at hfixed
    simp only [Bool.and_eq_true, Bool.not_eq_true', List.contains_eq_mem, decide_eq_false_iff_not]
      at hform
    obtain ⟨hpair, hset⟩ := hform
    have hset' := (hbit hfixed).trans hset
    constructor
    · rw [memOffset, unsignedField_eq, accessOffset, if_neg hpair, if_pos hset']
      rfl
    · rw [accessIncrement, accessIncrement, if_neg hpair, if_neg hpair, if_pos hset, if_pos hset']
  | memOffset7 =>
    simp only [addressingBits, List.all_cons, List.all_nil, Bool.and_true, Bool.and_eq_true]
      at hfixed
    obtain ⟨h23, h24⟩ := hfixed
    simp only [List.contains_eq_mem, decide_eq_true_eq] at hform
    constructor
    · rw [memOffset, signedField_eq, accessOffset, if_pos hform]
      rfl
    · rw [accessIncrement, accessIncrement, if_pos hform, if_pos hform, hbit h23, hbit h24]
  | rn | rt | rt2 | rm | shifted | imm16 | imm16Half | distance19 | distance26 | imm12
  | distance21 | bitmask => cases hform

end Spec

namespace Rule

/-- Whether the rule moves words from cells to registers. -/
def isLoad : Rule → Bool
  | load | loadPair => true
  | _ => false

/-- The number of registers that an access by the rule moves. -/
def slots : Rule → Nat
  | loadPair | storePair => 2
  | _ => 1

/-- The rule of a load or a store is one of an access with as many slots. -/
theorem exists_of_accessMnemonic {name : String} (h : name ∈ loadMnemonics ++ storeMnemonics) :
    ∃ rule, ofMnemonic? name = some rule ∧ (rule.isLoad = true ↔ name ∈ loadMnemonics) ∧
      rule.slots = if name ∈ pairMnemonics then 2 else 1 := by
  simp only [loadMnemonics, storeMnemonics, List.mem_append, List.mem_cons, List.not_mem_nil,
    or_false] at h
  rcases h with (rfl | rfl | rfl | rfl | rfl | rfl | rfl) | (rfl | rfl | rfl | rfl | rfl | rfl | rfl)
  all_goals exact ⟨_, rfl, by decide, by decide⟩

/-- Whether the rule finds registers and an operand with the address of their slots. The slot of a
load from an address of its own is as large as a register. -/
def fitsAccess (s : Spec) : Rule → List Arg → Bool
  | load, [.rt, .distance19] =>
    s.has (Feature.branch ||| Feature.relative) &&
      s.memSize == UInt8.ofNat (s.regWidth.bits / 8)
  | load, [.rt, a] | store, [.rt, a] => s.fixesAddressing a
  | loadPair, [.rt, .rt2, a] | storePair, [.rt, .rt2, a] => s.fixesAddressing a
  | _, _ => false

/-- Every built-in load or store has the arguments that its rule reads, and slots of the size that
its mnemonic says. -/
theorem fitsAccess_of_mem_catalogue {s : Spec} {rule : Rule} (hs : s ∈ Catalogue.specs)
    (hname : s.name ∈ loadMnemonics ++ storeMnemonics) (hrule : ofMnemonic? s.name = some rule) :
    rule.fitsAccess s s.args = true ∧ s.memSize = slotSize s.name s.regWidth := by
  have hall : (Catalogue.specs.all fun s => !((loadMnemonics ++ storeMnemonics).contains s.name) ||
      ((ofMnemonic? s.name).all fun rule => rule.fitsAccess s s.args) &&
        s.memSize == slotSize s.name s.regWidth) = true := by
    decide +kernel
  have h := List.all_eq_true.mp hall s hs
  rw [hrule, List.contains_iff_mem.mpr hname] at h
  simpa using h

end Rule

/-- The increments of the operands of an access are that of its last one. -/
theorem Binding.writeBack_eq_advance {operands : List Operand} {transfers : List Reg}
    {mode : Addressing} {size : UInt8} (b : Binding)
    (h : operands.map Operand.kind = transfers.map .reg ++ [mode.operand size]) :
    b.writeBack operands = b.advance mode := by
  induction transfers generalizing operands with
  | nil =>
    obtain ⟨o, rfl, ho⟩ := List.map_eq_singleton_iff.mp h
    simp only [writeBack, List.foldl_cons, List.foldl_nil, ho]
    cases mode with
    | literal address => rfl
    | based base offset increment => cases increment <;> rfl
  | cons r rest ih =>
    obtain ⟨o, others, rfl, ho, hothers⟩ := List.map_eq_cons_iff.mp h
    rw [← ih hothers]
    simp only [writeBack, List.foldl_cons, ho]

namespace Spec

variable {s : Spec} {word : Word} {a : Arg} {operands : List Operand}

/-- An operand that a memory argument admits is a cell at a base register, as the word says. -/
theorem exists_addressing {o : Operand} (haccepts : s.accepts word = true)
    (hfixes : s.fixesAddressing a = true) (h : s.Admits word a o.kind) (address : Address) :
    ∃ mode : Addressing, mode.IsEncodedBy s.name s.memSize address word ∧
      o.kind = mode.operand s.memSize ∧ o.symbolic = .mem mode.pointer s.memSize := by
  obtain ⟨hoffset, hincrement⟩ := addressing_of_accepts haccepts hfixes
  cases a with
  | memOffset9 | memOffset12 | memOffset7 =>
    have hbase : RegName.ofNumber (FieldName.rn.extract word).toNat false ≠ .zero := by
      unfold RegName.ofNumber
      split <;> simp
    refine ⟨.based _ _ _, ⟨?_, hoffset, hincrement⟩, h, Addressing.symbolic_operand hbase h⟩
    rw [FieldName.extract, Bits.Field.toNat_extract]
    rfl
  | rn | rt | rt2 | rm | shifted | imm16 | imm16Half | distance19 | distance26 | imm12
  | distance21 | bitmask => simp [fixesAddressing] at hfixes

/-- The operands of an access to one slot. -/
theorem operands_of_single (haccepts : s.accepts word = true)
    (hfixes : s.fixesAddressing a = true)
    (h : List.Forall₂ (s.Admits word) [.rt, a] (operands.map Operand.kind)) (address : Address) :
    ∃ (d : Reg) (mode : Addressing), d.width = s.regWidth ∧
      mode.IsEncodedBy s.name s.memSize address word ∧
      operands.map Operand.kind = [d].map .reg ++ [mode.operand s.memSize] ∧
      operands.map Operand.symbolic = [d.symbolic, .mem mode.pointer s.memSize] := by
  obtain ⟨o, p, d, rfl, ho, hd, hp⟩ := operands_of_two_args h
  obtain ⟨mode, hmode, hkind, hsymbolic⟩ := exists_addressing haccepts hfixes hp address
  exact ⟨d, mode, hd, hmode, by simp [ho, hkind],
    by simp [Operand.symbolic_of_reg ho, hsymbolic]⟩

/-- The operands of an access to two slots. -/
theorem operands_of_pair (haccepts : s.accepts word = true) (hfixes : s.fixesAddressing a = true)
    (h : List.Forall₂ (s.Admits word) [.rt, .rt2, a] (operands.map Operand.kind))
    (address : Address) :
    ∃ (d r : Reg) (mode : Addressing), d.width = s.regWidth ∧ r.width = s.regWidth ∧
      mode.IsEncodedBy s.name s.memSize address word ∧
      operands.map Operand.kind = [d, r].map .reg ++ [mode.operand s.memSize] ∧
      operands.map Operand.symbolic =
        [d.symbolic, r.symbolic, .mem mode.pointer s.memSize] := by
  obtain ⟨o, p, q, d, rfl, ho, hd, ⟨r, hr, hrwidth⟩, hq⟩ := operands_of_three_args h
  obtain ⟨mode, hmode, hkind, hsymbolic⟩ := exists_addressing haccepts hfixes hq address
  refine ⟨d, r, mode, hd, hrwidth, hmode, by simp [ho, hr, hkind], ?_⟩
  simp [Operand.symbolic_of_reg ho, Operand.symbolic_of_reg hr, hsymbolic]

/-- The operands of a load from an address of its own. -/
theorem operands_of_literal {d : Reg} {c : BitVec 64}
    (h : operands.map Operand.kind = [.reg d, .imm (.const c)]) :
    operands.map Operand.symbolic = [d.symbolic, .const c] := by
  obtain ⟨o, rest, rfl, ho, hrest⟩ := List.map_eq_cons_iff.mp h
  obtain ⟨p, rfl, hp⟩ := List.map_eq_singleton_iff.mp hrest
  simp [Operand.symbolic_of_reg ho, Operand.symbolic_of_imm hp]

end Spec

namespace Insn

variable {i : Insn} {s : Spec}

/-- The rule of an access moves words between registers and consecutive slots and then
increments the base register. -/
theorem bindingBy_eq_access {decoder : Decoder} {position : Nat} {address : Address} {rule : Rule}
    (hinsn : decoder.insnOf s position address i.raw = .ok i) (haccepts : s.accepts i.raw = true)
    (hfits : rule.fitsAccess s s.args = true) :
    ∃ (transfers : List Reg) (mode : Addressing),
      i.operands.map Operand.kind = transfers.map .reg ++ [mode.operand s.memSize] ∧
      (∀ r ∈ transfers, r.width = s.regWidth) ∧ transfers.length = rule.slots ∧
      mode.IsEncodedBy s.name s.memSize address i.raw ∧
      i.bindingBy (i.operands.map Operand.symbolic) rule =
        .ok ((if rule.isLoad then Binding.empty.loads s.memSize mode.pointer transfers
          else Binding.empty.stores s.memSize mode.pointer transfers).advance mode) := by
  have hforms := Decoder.admits_of_insnOf hinsn
  unfold Rule.fitsAccess at hfits
  split at hfits
  · rename_i hargs
    obtain ⟨hrelative, hfits⟩ := Bool.and_eq_true_iff.mp hfits
    obtain ⟨fixed, habsolute, hkinds⟩ := Decoder.exists_absolute_of_insnOf hinsn hargs rfl
    rw [Spec.kind_of_relative hrelative habsolute] at hkinds
    have hwidth : i.firstWidth = .ok s.regWidth := firstWidth_of_reg hkinds
    have hliteral : i.operands.map Operand.kind = [s.regAt i.raw .rt].map .reg ++
        [(Addressing.literal (address + Spec.signedField i.raw .imm19 <<< 2)).operand s.memSize] :=
      hkinds
    refine ⟨_, _, hliteral, by simp [Spec.regAt], rfl, ?_, ?_⟩
    · rw [Addressing.IsEncodedBy, Spec.signedField_eq, Bits.shiftLeft_two]
      rfl
    · rw [← Binding.writeBack_eq_advance _ hliteral, Spec.operands_of_literal hkinds,
        beq_iff_eq.mp hfits]
      simp only [bindingBy, loadedCell, hwidth, Binding.write_symbolic]
      rfl
  · rename_i a _ hargs
    rw [hargs] at hforms
    obtain ⟨d, mode, hd, hmode, hkinds, hvalues⟩ :=
      Spec.operands_of_single haccepts hfits hforms address
    refine ⟨[d], mode, hkinds, by simpa using hd, rfl, hmode, ?_⟩
    rw [← Binding.writeBack_eq_advance _ hkinds, hvalues]
    simp only [bindingBy, loadedCell, bind, Except.bind, Binding.write_symbolic]
    rfl
  · rename_i a hargs
    rw [hargs] at hforms
    obtain ⟨d, mode, hd, hmode, hkinds, hvalues⟩ :=
      Spec.operands_of_single haccepts hfits hforms address
    refine ⟨[d], mode, hkinds, by simpa using hd, rfl, hmode, ?_⟩
    rw [← Binding.writeBack_eq_advance _ hkinds, hvalues]
    rfl
  · rename_i a hargs
    rw [hargs] at hforms
    obtain ⟨d, r, mode, hd, hr, hmode, hkinds, hvalues⟩ :=
      Spec.operands_of_pair haccepts hfits hforms address
    refine ⟨[d, r], mode, hkinds, by simp [hd, hr], rfl, hmode, ?_⟩
    rw [← Binding.writeBack_eq_advance _ hkinds, hvalues]
    simp only [bindingBy, nextCell, bind, Except.bind, Binding.write_symbolic]
    rfl
  · rename_i a hargs
    rw [hargs] at hforms
    obtain ⟨d, r, mode, hd, hr, hmode, hkinds, hvalues⟩ :=
      Spec.operands_of_pair haccepts hfits hforms address
    refine ⟨[d, r], mode, hkinds, by simp [hd, hr], rfl, hmode, ?_⟩
    rw [← Binding.writeBack_eq_advance _ hkinds, hvalues]
    rfl
  · contradiction

end Insn

namespace Decoder

/-- Load and store bindings have exactly the effects of the access. The binding of a decoded load
or store is complete. The last operand gives the address of the first slot, a cell as large as the
mnemonic and the width of the registers say, with the base, the offset and the increment that the
word encodes; the operands before it are the registers that are moved. In every state where cells
hold no more than their bytes, the effects are these and no others: a load gives every register
that is not the zero register the content of its slot, zero extended; a store gives every slot the
low bits of its register; an access with an increment adds the offset to the base register. The
registers of a load must differ from each other and from an incremented base register; the slots
of a store always differ. -/
theorem binding_makes_access {options : Options} {address : Address} {bytes : List UInt8}
    {i : Insn} {name : String}
    (hdecode : (builtin options).decode address bytes = .ok (.ok i))
    (hname : (builtin options).mnemonic? i = some name)
    (hmoves : name ∈ loadMnemonics ++ storeMnemonics) :
    ∃ (b : Binding) (w : Width) (transfers : List Reg) (mode : Addressing),
      (builtin options).binding i = .ok b ∧ b.isIncomplete = false ∧
      i.operands.map Operand.kind = transfers.map .reg ++ [mode.operand (slotSize name w)] ∧
      (∀ r ∈ transfers, r.width = w) ∧
      transfers.length = (if name ∈ pairMnemonics then 2 else 1) ∧
      mode.IsEncodedBy name (slotSize name w) address i.raw ∧
      ∀ v : Valuation, (∀ a n, (v.cell a n).toNat < 2 ^ (8 * n.toNat)) →
        (name ∈ loadMnemonics → (loadedNames transfers ++ mode.incremented?.toList).Nodup) →
        b.Makes v
          ((if name ∈ loadMnemonics then loadChanges v (slotSize name w) (mode.start v) transfers
            else storeChanges v (slotSize name w) (mode.start v) transfers) ++
            mode.increments v) := by
  obtain ⟨s, hs, hspec, haccepts, position, hinsn⟩ := exists_spec_of_decode_builtin hdecode
  obtain rfl : s.name = name := by
    simpa [mnemonic?, Table.mnemonic?, hspec] using hname
  obtain ⟨rule, hrule, hload, hslots⟩ := Rule.exists_of_accessMnemonic hmoves
  obtain ⟨hfits, hsize⟩ := Rule.fitsAccess_of_mem_catalogue hs hmoves hrule
  obtain ⟨transfers, mode, hkinds, hwidths, hlength, hmode, hbinding⟩ :=
    Insn.bindingBy_eq_access hinsn haccepts hfits
  rw [hslots] at hlength
  rw [hsize] at hkinds hmode hbinding
  have hbinding' : (builtin options).binding i =
      i.bindingBy (i.operands.map Operand.symbolic) rule := by
    simp only [binding, hspec, Insn.bindingFor, hrule]
  refine ⟨_, s.regWidth, transfers, mode, hbinding'.trans hbinding, ?_, hkinds, hwidths, hlength,
    hmode, fun v hcells hdiffer => ?_⟩
  · rw [Binding.isIncomplete_advance]
    split
    · exact Binding.isIncomplete_loads _ _ _ _
    · exact Binding.isIncomplete_stores _ _ _ _
  · have hroom : ∀ r ∈ transfers, 8 * (slotSize s.name s.regWidth).toNat ≤ r.width.bits := by
      intro r hr
      rw [hwidths r hr]
      exact slotSize_le s.name s.regWidth
    have hptr := mode.eval_pointer v
    by_cases hisLoad : rule.isLoad = true
    · have hname := hload.mp hisLoad
      have hnodup := nodup_loadChanges v (slotSize s.name s.regWidth) (hdiffer hname)
      rw [if_pos hisLoad, if_pos hname]
      refine Binding.Makes.advance hnodup ?_
      rw [List.map_append] at hnodup
      exact Binding.Makes.loads hcells hroom hptr hnodup.of_append_left (Binding.makes_empty v)
    · have hname := fun h => hisLoad (hload.mpr h)
      have htwo : transfers.length ≤ 2 := by
        rw [hlength]
        split <;> decide
      have hnodup := nodup_storeChanges mode v (slotSize_pos s.name s.regWidth) htwo
      rw [if_neg hisLoad, if_neg hname]
      refine Binding.Makes.advance hnodup ?_
      rw [List.map_append] at hnodup
      exact Binding.Makes.stores hroom hptr hnodup.of_append_left (Binding.makes_empty v)

/-- The instruction `ldp x29, x30, [sp], #16` loads two registers from the top of the stack and
moves the stack pointer behind them. -/
theorem binding_of_ldp_post_indexed :
    ∃ i, (builtin {}).decode 0x1000 [0xfd, 0x7b, 0xc1, 0xa8] = .ok (.ok i) ∧
      (builtin {}).mnemonic? i = some "ldp" ∧ "ldp" ∈ loadMnemonics ++ storeMnemonics ∧
      ∃ (b : Binding) (v : Valuation), (builtin {}).binding i = .ok b ∧ b.isIncomplete = false ∧
        (∀ a n, (v.cell a n).toNat < 2 ^ (8 * n.toNat)) ∧
        b.Makes v [.register "x29" 0x8000, .register "x30" 0x8008, .register "sp" 0x8010] := by
  have hscan : Table.scan? Catalogue.specs 0xa8c17bfd = some 223 := by decide +kernel
  have hs : Catalogue.specs[223]? = some
      { Spec.ofArgs "ldp" 0xa8c00000 [.rt, .rt2, .memOffset7] Feature.zero31 with
        increment := .post } := by
    decide +kernel
  have hdecode : (builtin {}).decode 0x1000 [0xfd, 0x7b, 0xc1, 0xa8] = .ok (.ok _) :=
    decode_builtin_of_scan rfl hscan hs rfl
  refine ⟨_, hdecode, mnemonic?_builtin rfl hs, by decide, ?_⟩
  obtain ⟨b, w, transfers, mode, hbinding, hcomplete, hkinds, hwidths, hlength, -, hmakes⟩ :=
    binding_makes_access hdecode (mnemonic?_builtin rfl hs) (by decide)
  obtain ⟨r, t, rfl⟩ := List.length_eq_two.mp hlength
  obtain ⟨hr, hothers⟩ := List.cons.inj hkinds
  cases hr
  obtain rfl : Width.w64 = w := hwidths _ List.mem_cons_self
  cases mode with
  | literal start => cases hothers
  | based base offset increment =>
    cases hothers
    let v : Valuation :=
      { reg := fun _ => 0x8000, cell := fun a n => BitVec.ofNat 64 (a.toNat % 2 ^ (8 * n.toNat)) }
    have hcells : ∀ a n, (v.cell a n).toNat < 2 ^ (8 * n.toNat) := by
      intro a n
      rw [BitVec.toNat_ofNat]
      exact Nat.lt_of_le_of_lt (Nat.mod_le _ _) (Nat.mod_lt _ (Nat.two_pow_pos _))
    exact ⟨b, v, hbinding, hcomplete, hcells, hmakes v hcells fun _ => by decide⟩

end Decoder

end A64Disassembler
