import A64Disassembler.Proofs.Decode.Bitmask
import A64Disassembler.Proofs.Decode.Checked
import A64Disassembler.Proofs.Decode.Decoded
import A64Disassembler.Proofs.Encoding.Consistency

/-!
# Decoding with consistent specs has no faults

A table is made from consistent specs only, whatever else their names, bits, fields, arguments and
features are. That is enough for decoding: a bitmask immediate finds the register that it takes its
width from among the operands before it, and an operand that is to become an address relative to
the instruction is a constant. So the answer to any bytes is that more of them are needed, that
they have no meaning, or an instruction.
-/

namespace A64Disassembler

/-- What an operand is, whatever its parts are. -/
inductive OperandForm
  | reg
  | shifted
  | imm
  | mem
  deriving DecidableEq, Repr

/-- The form of an operand. -/
def OperandKind.form : OperandKind → OperandForm
  | reg _ => .reg
  | shifted _ _ _ => .shifted
  | imm _ => .imm
  | mem _ => .mem

/-- The form of the operand that an argument stands for. -/
def Arg.form : Arg → OperandForm
  | rn | rt | rt2 | rm => .reg
  | shifted _ _ => .shifted
  | imm16 | imm16Half | distance19 | distance26 | imm12 | distance21 | bitmask => .imm
  | memOffset9 | memOffset12 | memOffset7 => .mem

namespace Bitmask

/-- Elements have at most 64 bits, so that a bitmask immediate has a value in a register. -/
theorem exists_value {n s : Word} (hn : n.toNat < 2) (hs : s.toNat < 64) (r : Word)
    (width : Width) : ∃ c, value n s r width.bits = .ok c := by
  obtain ⟨k, hk, hsize⟩ := exists_elementSize_eq (s := s) (Nat.le_of_lt_succ hn)
  have hpow : 2 ^ k ≤ 2 ^ 6 := Nat.pow_le_pow_right (by decide) hk
  have hlevels := levels_add_one (Nat.le_of_lt_succ hn) hs
  have hfits : levels n s + 1 < 128 ∧ width.bits < 128 := by
    constructor
    · omega
    · cases width <;> decide
  exact ⟨_, if_pos hfits⟩

end Bitmask

namespace Spec

variable {s : Spec} {word : Word}

/-- An operand has the form of the argument that admits it. -/
theorem form_of_admits {a : Arg} {kind : OperandKind} (h : s.Admits word a kind) :
    kind.form = a.form := by
  cases a with
  | rn | rt | rt2 | rm =>
    obtain ⟨r, rfl, -⟩ := h
    rfl
  | shifted shift width =>
    obtain ⟨r, amount, rfl, -⟩ := h
    rfl
  | imm16 | imm16Half | distance19 | distance26 | imm12 | distance21 | bitmask =>
    obtain ⟨c, rfl⟩ := h
    rfl
  | memOffset9 | memOffset12 | memOffset7 =>
    cases h
    rfl

/-- An immediate argument admits constants only. -/
theorem kind_of_isImm {a : Arg} {kind : OperandKind} (ha : a.isImm = true)
    (h : s.Admits word a kind) : ∃ c, kind = .imm (.const c) := by
  cases a with
  | imm16 | imm16Half | distance19 | distance26 | imm12 | distance21 | bitmask => exact h
  | rn | rt | rt2 | rm | shifted | memOffset9 | memOffset12 | memOffset7 => cases ha

/-- There is an operand for every argument, if a bitmask immediate comes after a register. -/
theorem exists_operand {before : List Operand} {a : Arg}
    (h : a = .bitmask → ∃ r, before.head?.bind Operand.reg? = some r) :
    ∃ o, s.operand word before a = .ok o := by
  cases a with
  | bitmask =>
    obtain ⟨r, hr⟩ := h rfl
    obtain ⟨c, hc⟩ := Bitmask.exists_value (FieldName.maskN.bits.extract_lt word)
      (FieldName.maskS.bits.extract_lt word) (FieldName.maskR.extract word) r.width
    refine ⟨.imm (.const c), ?_⟩
    simp only [operand, bitmaskOperand, hr]
    exact bind_eq_ok.mpr ⟨c, hc, rfl⟩
  | rn | rt | rt2 | rm | shifted | imm16 | imm16Half | distance19 | distance26 | imm12 | distance21
  | memOffset9 | memOffset12 | memOffset7 => exact ⟨_, rfl⟩

/-- There are operands for every list of arguments, if its bitmask immediates come after a
register. -/
theorem exists_operandsFrom {before : List Operand} {args : List Arg}
    (h : .bitmask ∈ args → ∃ r, before.head?.bind Operand.reg? = some r) :
    ∃ made, s.operandsFrom word before args = .ok made := by
  induction args generalizing before with
  | nil => exact ⟨before, rfl⟩
  | cons a rest ih =>
    have hfirst : ∃ o, s.operand word before a = .ok o :=
      exists_operand fun ha => h (ha ▸ List.mem_cons_self)
    obtain ⟨o, ho⟩ := hfirst
    have hrest : .bitmask ∈ rest → ∃ r, (before ++ [o]).head?.bind Operand.reg? = some r := by
      intro hmem
      obtain ⟨r, hr⟩ := h (List.mem_cons_of_mem a hmem)
      obtain ⟨first, hfirst, hreg⟩ := Option.bind_eq_some_iff.mp hr
      refine ⟨r, ?_⟩
      rw [List.head?_append, hfirst]
      exact hreg
    obtain ⟨made, hmade⟩ := ih hrest
    exact ⟨made, bind_eq_ok.mpr ⟨o, ho, hmade⟩⟩

/-- A register argument gives a register operand. -/
theorem operand_of_isReg {a : Arg} (ha : a.isReg = true) (s : Spec) (word : Word)
    (before : List Operand) : ∃ r, s.operand word before a = .ok (.reg r) := by
  cases a with
  | rn | rt | rt2 | rm => exact ⟨_, rfl⟩
  | shifted | imm16 | imm16Half | distance19 | distance26 | imm12 | distance21 | bitmask
  | memOffset9 | memOffset12 | memOffset7 => cases ha

/-- The operands of a word can be made by a consistent spec. -/
theorem IsConsistent.exists_operands (hs : s.IsConsistent) (word : Word) :
    ∃ made, s.operands word = .ok made := by
  by_cases hmask : .bitmask ∈ s.args
  · obtain ⟨a, hhead, hreg⟩ := hs.isReg_head hmask
    obtain ⟨rest, hargs⟩ := List.head?_eq_some_iff.mp hhead
    obtain ⟨r, hr⟩ := operand_of_isReg hreg s word []
    have hrest : ∃ made, s.operandsFrom word [.reg r] rest = .ok made :=
      exists_operandsFrom fun _ => ⟨r, rfl⟩
    obtain ⟨made, hmade⟩ := hrest
    refine ⟨made, ?_⟩
    rw [operands, hargs]
    exact bind_eq_ok.mpr ⟨_, hr, hmade⟩
  · exact exists_operandsFrom fun hmem => absurd hmem hmask

/-- An operand can be made absolute, if it is a constant whenever it is a distance. -/
theorem exists_absolute {address : Address} {last : Operand}
    (h : s.has (Feature.relative ||| Feature.pageRelative) = true →
      ∃ c, last.kind = .imm (.const c)) :
    ∃ o, s.absolute address last = .ok o := by
  unfold absolute
  split
  · split_ifs <;> exact ⟨_, rfl⟩
  · rename_i hnone
    split_ifs with hbranch hrelative
    · exact ⟨_, rfl⟩
    · obtain ⟨c, hc⟩ := h hrelative
      simp [Operand.imm?, hc] at hnone
    · exact ⟨_, rfl⟩

/-- Operands can be made absolute, if the last argument is an immediate whenever it is a
distance. -/
theorem exists_fixUp {address : Address} {args : List Arg} {operands : List Operand}
    (hlast : s.has (Feature.relative ||| Feature.pageRelative) = true →
      ∃ a, args.getLast? = some a ∧ a.isImm = true)
    (hoperands : List.Forall₂ (fun a o => s.Admits word a o.kind) args operands) :
    ∃ fixed, s.fixUp address operands = .ok fixed := by
  induction hoperands with
  | nil => exact ⟨[], rfl⟩
  | @cons a o args operands ha hrest ih =>
    cases hrest with
    | nil =>
      have habsolute : ∃ fixed, s.absolute address o = .ok fixed := by
        refine exists_absolute fun hrelative => ?_
        obtain ⟨a', ha', himm⟩ := hlast hrelative
        obtain rfl : a = a' := by simpa using ha'
        exact kind_of_isImm himm ha
      obtain ⟨fixed, hfixed⟩ := habsolute
      exact ⟨[fixed], bind_eq_ok.mpr ⟨fixed, hfixed, rfl⟩⟩
    | cons ha' hrest' =>
      obtain ⟨tail, htail⟩ := ih fun hrelative => by
        obtain ⟨b, hb, himm⟩ := hlast hrelative
        exact ⟨b, by simpa using hb, himm⟩
      exact ⟨o :: tail, bind_eq_ok.mpr ⟨tail, htail, rfl⟩⟩

end Spec

/-- Reading a word from the start of the data asks for more bytes exactly if there are fewer than
four. -/
theorem Cursor.readWord_start (bytes : List UInt8) (order : Endian) :
    ({ data := bytes } : Cursor).readWord order =
      .ok (if bytes.length < insnSize then (.error (.more insnSize), { data := bytes })
        else (.ok (order.word (bytes.take insnSize)), { data := bytes, offset := insnSize })) := by
  by_cases hshort : bytes.length < insnSize
  · have hstop : ¬ insnSize ≤ bytes.length := by omega
    simp only [insnSize] at hshort hstop
    simp [readWord, readArray, read, addSizes, sizeLimit, size, bind, Except.bind, pure,
      Except.pure, insnSize, hshort, hstop, Except.map]
  · have hstop : insnSize ≤ bytes.length := by omega
    simp only [insnSize] at hshort hstop
    simp [readWord, readArray, read, addSizes, sizeLimit, size, bind, Except.bind, pure,
      Except.pure, insnSize, hshort, hstop, Except.map]

namespace Decoder

variable {d : Decoder} {s : Spec} {specs : List Spec}

/-- A word is an instruction by every consistent spec. -/
theorem exists_insnOf (hs : s.IsConsistent) (d : Decoder) (position : Nat) (address : Address)
    (word : Word) : ∃ i, d.insnOf s position address word = .ok i := by
  obtain ⟨made, hmade⟩ := hs.exists_operands word
  obtain ⟨_, rfl, hforms⟩ := Spec.admits_of_operandsFrom hmade
  have hfix : ∃ fixed, s.fixUp address _ = .ok fixed := Spec.exists_fixUp hs.isImm_getLast hforms
  obtain ⟨fixed, hfixed⟩ := hfix
  exact ⟨_, bind_eq_ok.mpr ⟨_, hmade, bind_eq_ok.mpr ⟨fixed, hfixed, rfl⟩⟩⟩

/-- The operands of the instruction that a word is by a spec have the forms of its arguments. -/
theorem forms_of_insnOf {position : Nat} {address : Address} {word : Word} {i : Insn}
    (h : d.insnOf s position address word = .ok i) :
    i.operands.map (fun o => o.kind.form) = s.args.map Arg.form := by
  have hforms : List.Forall₂ (fun o a => o.kind.form = a.form) i.operands s.args :=
    ((List.forall₂_map_right_iff.mp (admits_of_insnOf h)).imp fun _ _ => Spec.form_of_admits).flip
  rw [← List.forall₂_eq_eq_eq, List.forall₂_map_left_iff, List.forall₂_map_right_iff]
  exact hforms

/-- The instruction that a word is by a spec lies where it was decoded, and takes up four bytes. -/
theorem place_of_insnOf {position : Nat} {address : Address} {word : Word} {i : Insn}
    (h : d.insnOf s position address word = .ok i) :
    i.address = address ∧ i.length = insnSize := by
  obtain ⟨made, -, h⟩ := bind_eq_ok.mp h
  obtain ⟨fixed, -, h⟩ := bind_eq_ok.mp h
  cases h
  exact ⟨rfl, rfl⟩

/-- Too few bytes ask for more. -/
theorem decode_of_short (d : Decoder) (address : Address) {bytes : List UInt8}
    (h : bytes.length < insnSize) : d.decode address bytes = .ok (.error (.more insnSize)) := by
  refine bind_eq_ok.mpr ⟨_, Cursor.readWord_start bytes d.options.endian, ?_⟩
  rw [if_pos h]
  rfl

/-- A word without a spec fails. -/
theorem decode_of_unmatched (d : Decoder) (address : Address) {bytes : List UInt8}
    (hsize : insnSize ≤ bytes.length)
    (hfind : d.table.find? (d.options.endian.word (bytes.take insnSize)) = none) :
    d.decode address bytes = .ok (.error (.failed insnSize)) := by
  refine bind_eq_ok.mpr ⟨_, Cursor.readWord_start bytes d.options.endian, ?_⟩
  rw [if_neg (Nat.not_lt.mpr hsize)]
  simp only [hfind]
  rfl

/-- A word with a consistent spec is an instruction by that spec. -/
theorem exists_decode_of_matched (d : Decoder) (address : Address) {bytes : List UInt8}
    {position : Nat} (hs : s.IsConsistent) (hsize : insnSize ≤ bytes.length)
    (hfind : d.table.find? (d.options.endian.word (bytes.take insnSize)) = some position)
    (hspec : d.table.spec? position = some s) :
    ∃ i, d.decode address bytes = .ok (.ok i) ∧
      d.insnOf s position address (d.options.endian.word (bytes.take insnSize)) = .ok i := by
  obtain ⟨i, hi⟩ := exists_insnOf hs d position address (d.options.endian.word (bytes.take insnSize))
  refine ⟨i, ?_, hi⟩
  have hread := Cursor.readWord_start bytes d.options.endian
  rw [if_neg (Nat.not_lt.mpr hsize)] at hread
  exact decode_of_find? hread hfind hspec hi

/-- The decoder of a list of consistent specs makes an instruction of every word that matches one of
them. -/
theorem exists_decode_of_accepts (hconsistent : ∀ s ∈ specs, s.IsConsistent) (options : Options)
    (address : Address) {bytes : List UInt8} (hsize : insnSize ≤ bytes.length)
    (hmatch : ∃ s ∈ specs, s.accepts (options.endian.word (bytes.take insnSize)) = true) :
    ∃ i position s, (Decoder.mk (Table.index specs) options).decode address bytes = .ok (.ok i) ∧
      Table.scan? specs (options.endian.word (bytes.take insnSize)) = some position ∧
      specs[position]? = some s ∧
      (Decoder.mk (Table.index specs) options).insnOf s position address
        (options.endian.word (bytes.take insnSize)) = .ok i := by
  have hscan : Table.scan? specs (options.endian.word (bytes.take insnSize)) ≠ none := by
    rw [Table.scan?, ne_eq, List.findIdx?_eq_none_iff]
    simpa using hmatch
  obtain ⟨position, hposition⟩ := Option.ne_none_iff_exists'.mp hscan
  obtain ⟨hlt, -, -⟩ := (Table.scan?_eq_some_iff specs _ position).mp hposition
  have hs : specs[position]? = some specs[position] := List.getElem?_eq_getElem hlt
  obtain ⟨i, hdecode, hinsn⟩ := exists_decode_of_matched ⟨Table.index specs, options⟩ address
    (hconsistent _ (List.getElem_mem hlt)) hsize ((Table.find?_index specs _).trans hposition)
    ((Table.spec?_index specs position).trans hs)
  exact ⟨i, position, _, hdecode, hposition, hs, hinsn⟩

/-- The decoder of a list of specs gives no meaning to a word that matches none of them. -/
theorem decode_of_not_accepts (specs : List Spec) (options : Options) (address : Address)
    {bytes : List UInt8} (hsize : insnSize ≤ bytes.length)
    (hnone : ∀ s ∈ specs, s.accepts (options.endian.word (bytes.take insnSize)) = false) :
    (Decoder.mk (Table.index specs) options).decode address bytes =
      .ok (.error (.failed insnSize)) := by
  refine decode_of_unmatched _ address hsize ?_
  exact (Table.find?_index specs _).trans (List.findIdx?_eq_none_iff.mpr hnone)

/-- With the built-in encodings a word decodes to an instruction of four bytes, or it has no
meaning. -/
theorem decode_builtin_word (options : Options) (address : Address) {bytes : List UInt8}
    (hsize : insnSize ≤ bytes.length) :
    (builtin options).decode address bytes = .ok (.error (.failed insnSize)) ∨
      ∃ i, (builtin options).decode address bytes = .ok (.ok i) ∧ i.length = insnSize := by
  have hconsistent := (Table.ofSpecs_eq_ok_iff.mp Table.ofSpecs_catalogue).1
  by_cases hmatch : ∃ s ∈ Catalogue.specs,
      s.accepts (options.endian.word (bytes.take insnSize)) = true
  · obtain ⟨i, position, s, hdecode, -, -, hinsn⟩ :=
      exists_decode_of_accepts hconsistent options address hsize hmatch
    exact .inr ⟨i, hdecode, (place_of_insnOf hinsn).2⟩
  · have hnone : ∀ s ∈ Catalogue.specs,
        s.accepts (options.endian.word (bytes.take insnSize)) = false := by simpa using hmatch
    exact .inl (decode_of_not_accepts Catalogue.specs options address hsize hnone)

/-- Decoding with a table of consistent specs never reaches a fault. More bytes are asked for
exactly if there are fewer than four, the word of four bytes has no meaning exactly if it matches no
spec, and in all other cases it is an instruction. The instruction comes from the spec that the
table finds for the word, is four bytes long, and has one operand for each argument of that spec, in
order and of the form that the argument stands for. On the way every position looked up exists, and
no step of making the operands is out of range. -/
theorem decode_has_no_fault {specs : List Spec} {t : Table} (h : Table.ofSpecs specs = .ok t)
    (options : Options) (address : Address) (bytes : List UInt8) :
    let d : Decoder := ⟨t, options⟩
    let word := options.endian.word (bytes.take 4)
    (d.decode address bytes = .ok (.error (.more 4)) ↔ bytes.length < 4) ∧
      (d.decode address bytes = .ok (.error (.failed 4)) ↔
        4 ≤ bytes.length ∧ ∀ s ∈ specs, s.accepts word = false) ∧
      (4 ≤ bytes.length → (∃ s ∈ specs, s.accepts word = true) →
        ∃ i position s, d.decode address bytes = .ok (.ok i) ∧ i.length = 4 ∧
          i.address = address ∧ i.raw = word ∧ i.opcode = some position ∧
          t.find? word = some position ∧ specs[position]? = some s ∧ s.accepts word = true ∧
          i.operands.map (fun o => o.kind.form) = s.args.map Arg.form) ∧
      t.checkedFind? word = .ok (t.find? word) ∧
      ∀ s ∈ specs, s.checkedOperands word = s.operands word := by
  intro d word
  obtain ⟨hconsistent, rfl⟩ := Table.ofSpecs_eq_ok_iff.mp h
  refine ⟨⟨fun hmore => ?_, decode_of_short d address⟩, ⟨fun hfailed => ?_, fun hnone =>
    decode_of_not_accepts specs options address hnone.1 hnone.2⟩, fun hsize hmatch => ?_,
    Table.checkedFind?_index specs word, fun s _ => s.checkedOperands_eq word⟩
  -- The three answers differ from each other, so each is given in its own case only.
  · by_contra hlong
    have hsize : 4 ≤ bytes.length := by omega
    by_cases hmatch : ∃ s ∈ specs, s.accepts word = true
    · obtain ⟨i, -, -, hdecode, -⟩ :=
        exists_decode_of_accepts hconsistent options address hsize hmatch
      exact absurd (hdecode.symm.trans hmore) (by simp)
    · have hnone : ∀ s ∈ specs, s.accepts word = false := by simpa using hmatch
      have hfailed := decode_of_not_accepts specs options address hsize hnone
      exact absurd (hfailed.symm.trans hmore) (by simp)
  · have hsize : 4 ≤ bytes.length := by
      by_contra hshort
      have hmore := decode_of_short d address (Nat.lt_of_not_le hshort)
      exact absurd (hmore.symm.trans hfailed) (by simp)
    refine ⟨hsize, ?_⟩
    by_contra hsome
    have hmatch : ∃ s ∈ specs, s.accepts word = true := by simpa using hsome
    obtain ⟨i, -, -, hdecode, -⟩ :=
      exists_decode_of_accepts hconsistent options address hsize hmatch
    exact absurd (hdecode.symm.trans hfailed) (by simp)
  · obtain ⟨i, position, s, hdecode, hscan, hs, hinsn⟩ :=
      exists_decode_of_accepts hconsistent options address hsize hmatch
    obtain ⟨hopcode, hraw, -⟩ := exists_operands_of_insnOf hinsn
    obtain ⟨haddress, hlength⟩ := place_of_insnOf hinsn
    exact ⟨i, position, s, hdecode, hlength, haddress, hraw, hopcode,
      (Table.find?_index specs word).trans hscan, hs, Table.accepts_of_scan? hscan hs,
      forms_of_insnOf hinsn⟩

/-- A table with a bitmask immediate and a distance asks for more bytes after two, gives no meaning
to zeroes, and decodes a conjunction with its three operands. -/
theorem decode_of_bitmask_and_distance :
    let specs := [Spec.ofArgs "and" 0x92000000 [.rt, .rn, .bitmask] Feature.zeroSource31,
      Spec.ofArgs "adr" 0x10000000 [.rt, .distance21] Feature.relative]
    let d : Decoder := ⟨Table.index specs, {}⟩
    Table.ofSpecs specs = .ok d.table ∧
      d.decode 0x1000 [0x20, 0x1c] = .ok (.error (.more 4)) ∧
      d.decode 0x1000 [0, 0, 0, 0] = .ok (.error (.failed 4)) ∧
      ∃ i, d.decode 0x1000 [0x20, 0x1c, 0x40, 0x92] = .ok (.ok i) ∧ i.opcode = some 0 ∧
        i.operands.map (fun o => o.kind.form) = [.reg, .reg, .imm] := by
  intro specs d
  have hvalid : Table.ofSpecs specs = .ok (Table.index specs) := rfl
  refine ⟨hvalid, ?_, ?_, ?_⟩
  · exact (decode_has_no_fault hvalid {} 0x1000 [0x20, 0x1c]).1.mpr (by decide)
  · exact (decode_has_no_fault hvalid {} 0x1000 [0, 0, 0, 0]).2.1.mpr ⟨by decide, by decide⟩
  · obtain ⟨i, position, s, hdecode, -, -, -, hopcode, hfind, hs, -, hforms⟩ :=
      (decode_has_no_fault hvalid {} 0x1000 [0x20, 0x1c, 0x40, 0x92]).2.2.1 (by decide) (by decide)
    have hscan : Table.scan? specs (Endian.little.word [0x20, 0x1c, 0x40, 0x92]) = some 0 := by
      decide
    obtain rfl : 0 = position :=
      Option.some.inj (((Table.find?_index specs _).trans hscan).symm.trans hfind)
    cases hs
    exact ⟨i, hdecode, hopcode, hforms⟩

end Decoder

end A64Disassembler
