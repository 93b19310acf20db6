import A64Disassembler.Proofs.Decode.Absolute
import A64Disassembler.Proofs.Encoding.Mask

/-!
# Decoding loses no information

An operand determines the contents of the fields that it is made from: a register its number, a
signed or scaled number its bits. This fails for three kinds of arguments, which write one number in
several ways, and for offsets that count units of no bytes. Making the last operand absolute loses
nothing, because the distance can be recovered from the address. As the bits outside of all fields
are fixed, the operands of an instruction determine its word.
-/

namespace A64Disassembler

/-- Five-bit numbers of the same register are equal, as long as number 31 means the same in both. -/
theorem RegName.eq_of_ofNumber {m n : Nat} {zero31 : Bool} (hm : m < 32) (hn : n < 32)
    (h : ofNumber m zero31 = ofNumber n zero31) : m = n := by
  unfold ofNumber at h
  by_cases hm31 : m < 31
  · by_cases hn31 : n < 31
    · simpa [hm31, hn31] using h
    · cases zero31 <;> simp [hm31, hn31] at h
  · by_cases hn31 : n < 31
    · cases zero31 <;> simp [hm31, hn31] at h
    · omega

namespace Spec

/-- Whether operands for an argument determine the contents of all fields that it reads. -/
def IsFaithful (s : Spec) : Arg → Prop
  | .bitmask | .imm16Half | .imm12 => False
  | .memOffset12 | .memOffset7 => s.memSize ≠ 0
  | _ => True

variable {s : Spec} {v w : Word}

/-- A register determines the field that it is read from. -/
theorem extract_eq_of_regAt {f : FieldName} (hsize : f.bits.size = 5)
    (h : s.regAt v f = s.regAt w f) : f.extract v = f.extract w := by
  have hlt : ∀ word : Word, (f.extract word).toNat < 32 := by
    intro word
    have h := f.bits.extract_lt word
    rwa [hsize] at h
  exact BitVec.eq_of_toNat_eq (RegName.eq_of_ofNumber (hlt v) (hlt w) (congrArg Reg.name h))

/-- A shifted register determines the register field and the amount. -/
theorem extract_eq_of_shifted {shift : Shift} {width : Width}
    (h : (s.shiftedOperand v shift (Arg.amountField width)).kind =
      (s.shiftedOperand w shift (Arg.amountField width)).kind) :
    ∀ f ∈ (Arg.shifted shift width).fields, f.extract v = f.extract w := by
  simp only [shiftedOperand, OperandKind.shifted.injEq, true_and] at h
  have hlt : ∀ word : Word, ((Arg.amountField width).extract word).toNat < 2 ^ 6 := by
    intro word
    refine Nat.lt_of_lt_of_le ((Arg.amountField width).bits.extract_lt word) ?_
    cases width <;> decide
  have hamount : (Arg.amountField width).extract v = (Arg.amountField width).extract w := by
    have hnat := congrArg UInt8.toNat h.2
    rw [UInt8.toNat_ofNat', UInt8.toNat_ofNat'] at hnat
    have hv := hlt v
    have hw := hlt w
    exact BitVec.eq_of_toNat_eq (by omega)
  intro f hf
  simp only [Arg.fields, List.mem_cons, List.not_mem_nil, or_false] at hf
  rcases hf with rfl | rfl
  · exact extract_eq_of_regAt rfl h.1
  · exact hamount

/-- A memory reference determines the field of the base register, and that of the offset if the
offset determines it. -/
theorem extract_eq_of_memOperand {offset offset' : BitVec 64} {f : FieldName}
    (h : (s.memOperand v offset).kind = (s.memOperand w offset').kind)
    (hoffset : offset = offset' → f.extract v = f.extract w) :
    ∀ g ∈ [FieldName.rn, f], g.extract v = g.extract w := by
  simp only [memOperand, OperandKind.mem.injEq, MemRef.mk.injEq, Reg.mk.injEq, Expr.const.injEq,
    and_true, true_and] at h
  have hbase := RegName.eq_of_ofNumber (FieldName.rn.bits.extract_lt v)
    (FieldName.rn.bits.extract_lt w) h.1
  intro g hg
  simp only [List.mem_cons, List.not_mem_nil, or_false] at hg
  rcases hg with rfl | rfl
  · exact BitVec.eq_of_toNat_eq hbase
  · exact hoffset h.2

/-- The unit of an offset is not zero if the size of the access is not. -/
theorem offsetUnit_ne_zero (h : s.memSize ≠ 0) : s.offsetUnit ≠ 0 := by
  intro hunit
  have hlt := s.memSize.toNat_lt
  have hnat := congrArg BitVec.toNat hunit
  rw [offsetUnit, BitVec.toNat_ofNat, Nat.mod_eq_of_lt (by omega)] at hnat
  exact h (UInt8.toNat_inj.mp hnat)

/-- An offset in units of the access is determined by the number of bytes. -/
theorem eq_of_mul_offsetUnit {a b : BitVec 64} (ha : a.toInt.natAbs ≤ 4096)
    (hb : b.toInt.natAbs ≤ 4096) (hsize : s.memSize ≠ 0)
    (h : a * s.offsetUnit = b * s.offsetUnit) : a = b := by
  have hunit := s.natAbs_toInt_offsetUnit
  exact Bits.eq_of_mul_eq ha hb (offsetUnit_ne_zero hsize) (by omega) h

/-- A distance in words determines its field. -/
theorem extract_eq_of_distance {f : FieldName} (hsize : f.bits.size ≤ 26)
    (h : signedField v f <<< 2 = signedField w f <<< 2) : f.extract v = f.extract w := by
  have hpow : 2 ^ f.bits.size ≤ 2 ^ 26 := Nat.pow_le_pow_right (by decide) hsize
  have hv := natAbs_toInt_signedField_le v f
  have hw := natAbs_toInt_signedField_le w f
  have hv26 : (signedField v f).toInt.natAbs ≤ 2 ^ 26 := by omega
  have hw26 : (signedField w f).toInt.natAbs ≤ 2 ^ 26 := by omega
  rw [Bits.shiftLeft_two, Bits.shiftLeft_two] at h
  exact extract_eq_of_signedField
    (Bits.eq_of_mul_eq hv26 hw26 (by decide) (by decide) h)

/-- The operand for a faithful argument determines the fields that the argument reads. -/
theorem extract_eq_of_operand {a : Arg} (ha : s.IsFaithful a) {before before' : List Operand}
    {o p : Operand} (hv : s.operand v before a = .ok o) (hw : s.operand w before' a = .ok p)
    (hkind : o.kind = p.kind) : ∀ f ∈ a.fields, f.extract v = f.extract w := by
  cases a with
  | rn | rt | rt2 | rm =>
    cases hv
    cases hw
    simp only [Arg.fields, List.mem_singleton, forall_eq]
    exact extract_eq_of_regAt rfl (OperandKind.reg.inj hkind)
  | shifted shift width =>
    cases hv
    cases hw
    exact extract_eq_of_shifted hkind
  | imm16 =>
    cases hv
    cases hw
    simp only [Arg.fields, List.mem_singleton, forall_eq]
    exact extract_eq_of_unsignedField (Expr.const.inj (OperandKind.imm.inj hkind))
  | distance19 | distance26 =>
    cases hv
    cases hw
    simp only [Arg.fields, List.mem_singleton, forall_eq]
    exact extract_eq_of_distance (by decide) (Expr.const.inj (OperandKind.imm.inj hkind))
  | distance21 =>
    cases hv
    cases hw
    have hparts := extract_eq_of_splitDistance (Expr.const.inj (OperandKind.imm.inj hkind))
    simpa only [Arg.fields, List.mem_cons, List.not_mem_nil, or_false, forall_eq_or_imp,
      forall_eq] using hparts
  | memOffset9 =>
    cases hv
    cases hw
    exact extract_eq_of_memOperand hkind extract_eq_of_signedField
  | memOffset12 =>
    cases hv
    cases hw
    exact extract_eq_of_memOperand hkind fun hoffset => extract_eq_of_unsignedField
      (eq_of_mul_offsetUnit (natAbs_toInt_offset12 v) (natAbs_toInt_offset12 w) ha hoffset)
  | memOffset7 =>
    cases hv
    cases hw
    exact extract_eq_of_memOperand hkind fun hoffset => extract_eq_of_signedField
      (eq_of_mul_offsetUnit (natAbs_toInt_offset7 v) (natAbs_toInt_offset7 w) ha hoffset)
  | bitmask | imm16Half | imm12 => cases ha

/-- The constants for faithful arguments are small. -/
theorem natAbs_toInt_le_of_operand {a : Arg} (ha : s.IsFaithful a) (himm : a.isImm = true)
    {before : List Operand} {c : BitVec 64} (h : s.operand v before a = .ok (.imm (.const c))) :
    c.toInt.natAbs ≤ 2 ^ 27 := by
  cases a with
  | imm16 =>
    simp only [operand, Except.ok.injEq, Operand.imm_const_inj] at h
    have hlt : (FieldName.imm16.extract v).toNat < 2 ^ 16 := FieldName.imm16.bits.extract_lt v
    rw [← h, toInt_unsignedField]
    omega
  | distance19 =>
    have hle : 2 * (signedField v .imm19).toInt.natAbs ≤ 2 ^ 19 :=
      natAbs_toInt_signedField_le v .imm19
    rw [toInt_of_distance? h rfl, ← toInt_signedField]
    omega
  | distance26 =>
    have hle : 2 * (signedField v .imm26).toInt.natAbs ≤ 2 ^ 26 :=
      natAbs_toInt_signedField_le v .imm26
    rw [toInt_of_distance? h rfl, ← toInt_signedField]
    omega
  | distance21 =>
    rw [toInt_of_distance? h rfl]
    have hle := BitVec.le_two_mul_toInt (x := BitVec.ofNat 21
      ((FieldName.imm19.extract v).toNat * 4 + (FieldName.imm2.extract v).toNat))
    have hlt := BitVec.two_mul_toInt_lt (x := BitVec.ofNat 21
      ((FieldName.imm19.extract v).toNat * 4 + (FieldName.imm2.extract v).toNat))
    omega
  | bitmask | imm16Half | imm12 => cases ha
  | rn | rt | rt2 | rm | shifted | memOffset9 | memOffset12 | memOffset7 => cases himm

/-- Making an operand absolute that is no immediate leaves it as it is, if it can be done at all. -/
theorem eq_of_absolute {address : Address} {o fixed : Operand} (ho : o.imm? = none)
    (h : s.absolute address o = .ok fixed) : fixed = o := by
  unfold absolute at h
  rw [ho] at h
  dsimp only at h
  split_ifs at h <;> cases h <;> rfl

/-- The absolute form of an operand for a faithful argument determines the operand. -/
theorem kind_eq_of_absolute {a : Arg} (ha : s.IsFaithful a) {before before' : List Operand}
    {o p : Operand} (hv : s.operand v before a = .ok o) (hw : s.operand w before' a = .ok p)
    {address : Address} {fixed fixed' : Operand} (ho : s.absolute address o = .ok fixed)
    (hp : s.absolute address p = .ok fixed') (hkind : fixed.kind = fixed'.kind) :
    o.kind = p.kind := by
  cases himm : a.isImm with
  | false =>
    rwa [eq_of_absolute (imm?_of_isImm_eq_false himm hv) ho,
      eq_of_absolute (imm?_of_isImm_eq_false himm hw) hp] at hkind
  | true =>
    obtain ⟨c, rfl⟩ := exists_of_isImm himm hv
    obtain ⟨c', rfl⟩ := exists_of_isImm himm hw
    have hc := natAbs_toInt_le_of_operand ha himm hv
    have hc' := natAbs_toInt_le_of_operand ha himm hw
    cases hnear : s.has (Feature.branch ||| Feature.relative) with
    | true =>
      cases (absolute_of_near hnear address c).symm.trans ho
      cases (absolute_of_near hnear address c').symm.trans hp
      have hsum := Expr.const.inj (OperandKind.imm.inj hkind)
      rw [(BitVec.add_right_inj address).mp hsum]
    | false =>
      cases hpage : s.has Feature.pageRelative with
      | true =>
        cases (absolute_of_pageRelative hnear hpage address c).symm.trans ho
        cases (absolute_of_pageRelative hnear hpage address c').symm.trans hp
        have hsum := (BitVec.add_right_inj _).mp (Expr.const.inj (OperandKind.imm.inj hkind))
        rw [Bits.eq_of_mul_eq hc hc' (by decide) (by decide) hsum]
      | false =>
        cases (absolute_of_plain hnear hpage address (.imm (.const c))).symm.trans ho
        cases (absolute_of_plain hnear hpage address (.imm (.const c'))).symm.trans hp
        exact hkind

/-- The operands of an instruction determine those made from its word, if the last argument is
faithful. -/
theorem map_kind_eq_of_fixUp (hfaithful : ∀ a ∈ s.args, s.IsFaithful a)
    {made made' fixed fixed' : List Operand} {address : Address}
    (hv : s.operands v = .ok made) (hw : s.operands w = .ok made')
    (hfixed : s.fixUp address made = .ok fixed) (hfixed' : s.fixUp address made' = .ok fixed')
    (hkinds : fixed.map Operand.kind = fixed'.map Operand.kind) :
    made.map Operand.kind = made'.map Operand.kind := by
  rcases List.eq_nil_or_concat s.args with hnil | ⟨args, a, hconcat⟩
  · rw [operands, hnil] at hv hw
    cases hv
    cases hw
    rfl
  · rw [List.concat_eq_append] at hconcat
    have ha : s.IsFaithful a := hfaithful a (by simp [hconcat])
    rw [operands, hconcat] at hv hw
    obtain ⟨before, o, -, ho, rfl⟩ := operandsFrom_concat hv
    obtain ⟨before', p, -, hp, rfl⟩ := operandsFrom_concat hw
    obtain ⟨o', ho', rfl⟩ := fixUp_concat_eq_ok.mp hfixed
    obtain ⟨p', hp', rfl⟩ := fixUp_concat_eq_ok.mp hfixed'
    simp only [List.map_append, List.map_cons, List.map_nil] at hkinds ⊢
    obtain ⟨hbefore, hlast⟩ := List.append_inj' hkinds rfl
    rw [hbefore, kind_eq_of_absolute ha ho hp ho' hp' (List.singleton_inj.mp hlast)]

/-- The operands for faithful arguments determine the fields that the arguments read. -/
theorem extract_eq_of_operandsFrom {args : List Arg} (hfaithful : ∀ a ∈ args, s.IsFaithful a)
    {before before' made made' : List Operand} (hlength : before.length = before'.length)
    (hv : s.operandsFrom v before args = .ok made) (hw : s.operandsFrom w before' args = .ok made')
    (hkinds : made.map Operand.kind = made'.map Operand.kind) :
    ∀ a ∈ args, ∀ f ∈ a.fields, f.extract v = f.extract w := by
  induction args generalizing before before' with
  | nil => simp
  | cons a rest ih =>
    obtain ⟨ha, hrest⟩ := List.forall_mem_cons.mp hfaithful
    obtain ⟨o, ho, hv⟩ := bind_eq_ok.mp hv
    obtain ⟨p, hp, hw⟩ := bind_eq_ok.mp hw
    obtain ⟨tail, rfl, -⟩ := admits_of_operandsFrom hv
    obtain ⟨tail', rfl, -⟩ := admits_of_operandsFrom hw
    refine List.forall_mem_cons.mpr ⟨?_, ih hrest (by simp [hlength]) hv hw⟩
    simp only [List.map_append, List.append_assoc] at hkinds
    obtain ⟨-, hrestKinds⟩ := List.append_inj hkinds (by simp [hlength])
    obtain ⟨hfirst, -⟩ := List.cons_eq_cons.mp hrestKinds
    exact extract_eq_of_operand ha ho hp hfirst

end Spec

namespace Decoder

variable {d : Decoder} {address : Address}

/-- A decoded instruction is what the first four bytes are by the spec that the table finds for
them. -/
theorem exists_insnOf_of_decode {bytes : List UInt8} {i : Insn}
    (h : d.decode address bytes = .ok (.ok i)) :
    ∃ position s, d.table.find? (d.options.endian.word (bytes.take insnSize)) = some position ∧
      d.table.spec? position = some s ∧
      d.insnOf s position address (d.options.endian.word (bytes.take insnSize)) = .ok i := by
  obtain ⟨read, hread, h⟩ := bind_eq_ok.mp h
  obtain rfl := Except.ok.inj ((Cursor.readWord_start bytes d.options.endian).symm.trans hread)
  by_cases hshort : bytes.length < insnSize
  · rw [if_pos hshort] at h
    cases h
  · rw [if_neg hshort] at h
    dsimp only at h
    split at h
    · cases h
    · rename_i position hposition
      split at h
      · cases h
      · rename_i s hs
        obtain ⟨i', hi', h⟩ := bind_eq_ok.mp h
        cases h
        exact ⟨position, s, hposition, hs, hi'⟩

/-- Decoding loses no information. Let a spec of a table of consistent specs have the fields that
its arguments read, but none of the three arguments that write one number in several ways, and let
its accesses have a size if offsets are counted in it. Then two words that decode at the same
address by this spec are equal if their operands are, after the last one has become an address. -/
theorem decode_loses_no_information {specs : List Spec} {t : Table}
    (h : Table.ofSpecs specs = .ok t) (options : Options) (address : Address)
    {bytes bytes' : List UInt8} {i j : Insn} {position : Nat} {s : Spec}
    (hi : (Decoder.mk t options).decode address bytes = .ok (.ok i))
    (hj : (Decoder.mk t options).decode address bytes' = .ok (.ok j))
    (hiopcode : i.opcode = some position) (hjopcode : j.opcode = some position)
    (hs : specs[position]? = some s) (hfields : s.fields = Spec.fieldsOf s.args)
    (hargs : ∀ a ∈ s.args, a ≠ .bitmask ∧ a ≠ .imm16Half ∧ a ≠ .imm12)
    (hsize : .memOffset12 ∈ s.args ∨ .memOffset7 ∈ s.args → s.memSize ≠ 0)
    (hoperands : i.operands = j.operands) :
    options.endian.word (bytes.take 4) = options.endian.word (bytes'.take 4) := by
  have hfaithful : ∀ a ∈ s.args, s.IsFaithful a := by
    intro a ha
    obtain ⟨hmask, hhalf, himm⟩ := hargs a ha
    cases a with
    | memOffset12 => exact hsize (.inl ha)
    | memOffset7 => exact hsize (.inr ha)
    | bitmask => exact absurd rfl hmask
    | imm16Half => exact absurd rfl hhalf
    | imm12 => exact absurd rfl himm
    | rn | rt | rt2 | rm | shifted | imm16 | distance19 | distance26 | distance21 | memOffset9 =>
      trivial
  obtain rfl := Table.ofSpecs_eq_ok h
  -- Both words are accepted by the spec, and their instructions are made by it.
  have hdecoded : ∀ {bytes : List UInt8} {i : Insn},
      (Decoder.mk (Table.index specs) options).decode address bytes = .ok (.ok i) →
      i.opcode = some position →
      s.accepts (options.endian.word (bytes.take 4)) = true ∧
        (Decoder.mk (Table.index specs) options).insnOf s position address
          (options.endian.word (bytes.take 4)) = .ok i := by
    intro bytes i hdecode hopcode
    obtain ⟨position', s', hfind, hspec, hinsn⟩ := exists_insnOf_of_decode hdecode
    obtain ⟨hopcode', -⟩ := exists_operands_of_insnOf hinsn
    obtain rfl := Option.some.inj (hopcode.symm.trans hopcode')
    obtain rfl := Option.some.inj
      (hs.symm.trans ((Table.spec?_index specs position).symm.trans hspec))
    exact ⟨Table.accepts_of_scan? ((Table.find?_index specs _).symm.trans hfind) hs, hinsn⟩
  obtain ⟨hiaccepts, hiinsn⟩ := hdecoded hi hiopcode
  obtain ⟨hjaccepts, hjinsn⟩ := hdecoded hj hjopcode
  obtain ⟨-, -, made, fixed, hmade, hfixed, hkinds⟩ := exists_operands_of_insnOf hiinsn
  obtain ⟨-, -, made', fixed', hmade', hfixed', hkinds'⟩ := exists_operands_of_insnOf hjinsn
  have hfixedKinds : fixed.map Operand.kind = fixed'.map Operand.kind := by
    rw [← hkinds, ← hkinds', hoperands]
  have hmadeKinds := Spec.map_kind_eq_of_fixUp hfaithful hmade hmade' hfixed hfixed' hfixedKinds
  have hextract := Spec.extract_eq_of_operandsFrom hfaithful rfl hmade hmade' hmadeKinds
  refine Spec.eq_of_extract_eq hiaccepts hjaccepts fun f hf => ?_
  rw [hfields, Spec.mem_fieldsOf] at hf
  obtain ⟨a, ha, hfa⟩ := hf
  exact hextract a ha f hfa

/-- A load of two bytes, alone and with two more bytes behind it. -/
theorem decode_of_ldrh_with_rest :
    let specs := [{ Spec.ofArgs "ldrh" 0x79400000 [.rt, .memOffset12] Feature.narrow with
      accessSize := some 2 }]
    let d : Decoder := ⟨Table.index specs, {}⟩
    let bytes : List UInt8 := [0x20, 0x04, 0x40, 0x79]
    Table.ofSpecs specs = .ok d.table ∧
      ∃ i j, d.decode 0x1000 bytes = .ok (.ok i) ∧
        d.decode 0x1000 (bytes ++ [0xff, 0xff]) = .ok (.ok j) ∧ i.opcode = some 0 ∧
        j.opcode = some 0 ∧ i.operands = j.operands ∧
        Endian.little.word (bytes.take 4) =
          Endian.little.word ((bytes ++ [0xff, 0xff]).take 4) := by
  intro specs d bytes
  have hvalid : Table.ofSpecs specs = .ok d.table := rfl
  have hconsistent := (Table.ofSpecs_eq_ok_iff.mp hvalid).1 specs[0] (List.getElem_mem _)
  have hargs : ∀ a ∈ specs[0].args, a ≠ .bitmask ∧ a ≠ .imm16Half ∧ a ≠ .imm12 := by decide
  have hsize : specs[0].memSize ≠ 0 := by decide
  have hfind : d.table.find? (Endian.little.word (bytes.take insnSize)) = some 0 :=
    (Table.find?_index specs _).trans (by decide)
  obtain ⟨i, hi, hinsn⟩ :=
    exists_decode_of_matched d 0x1000 hconsistent (by decide) hfind rfl
  have hsame : (bytes ++ [0xff, 0xff]).take insnSize = bytes.take insnSize := rfl
  rw [← hsame] at hfind hinsn
  have hlong : insnSize ≤ (bytes ++ [0xff, 0xff]).length := by decide
  obtain ⟨j, hj, hinsn'⟩ := exists_decode_of_matched d 0x1000 hconsistent hlong hfind rfl
  obtain rfl := Except.ok.inj (hinsn.symm.trans hinsn')
  obtain ⟨hopcode, -⟩ := exists_operands_of_insnOf hinsn
  exact ⟨hvalid, i, i, hi, hj, hopcode, hopcode, rfl,
    decode_loses_no_information hvalid {} 0x1000 hi hj hopcode hopcode rfl rfl hargs
      (fun _ => hsize) rfl⟩

end Decoder

end A64Disassembler
