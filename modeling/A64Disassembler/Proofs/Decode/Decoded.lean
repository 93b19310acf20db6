import A64Disassembler.Decode.Decoder
import A64Disassembler.Proofs.Bits.Field
import A64Disassembler.Proofs.Encoding.Lookup
import A64Disassembler.Proofs.Fault
import Mathlib.Data.List.Forall2

/-!
# What is known of a decoded instruction

A decoded instruction comes from one spec of the table, the first that accepts its word. It has
one operand for each argument of that spec, in order, and the argument decides the form of the
operand: a register in the width of the spec, a register shifted by less than its width, a
constant, or a cell at a base register that is not the zero register. Making the last operand
absolute and hiding operands keep these forms.
-/

namespace A64Disassembler

/-- The offset from the base register that a memory argument of a spec stands for in a word. -/
def Spec.memOffset (s : Spec) (word : Word) : Arg → BitVec 64
  | .memOffset9 => signedField word .offset9
  | .memOffset12 => unsignedField word .offset12 * s.offsetUnit
  | .memOffset7 => signedField word .offset7 * s.offsetUnit
  | _ => 0

/-- The operands that an argument of a spec may stand for in a word. -/
def Spec.Admits (s : Spec) (word : Word) : Arg → OperandKind → Prop
  | .rn, kind | .rt, kind | .rt2, kind | .rm, kind => ∃ r, kind = .reg r ∧ r.width = s.regWidth
  | .shifted shift width, kind =>
    ∃ r amount, kind = .shifted r shift amount ∧ r.width = s.regWidth ∧ amount.toNat < width.bits
  | .imm16, kind | .imm16Half, kind | .distance19, kind | .distance26, kind | .imm12, kind
  | .distance21, kind | .bitmask, kind => ∃ c, kind = .imm (.const c)
  | a, kind => kind = (s.memOperand word (s.memOffset word a)).kind

namespace Spec

variable {s : Spec} {word : Word}

/-- The operand made for an argument has a form that the argument admits. -/
theorem admits_of_operand {before : List Operand} {a : Arg} {o : Operand}
    (h : s.operand word before a = .ok o) : s.Admits word a o.kind := by
  cases a with
  | rn | rt | rt2 | rm =>
    cases h
    exact ⟨_, rfl, rfl⟩
  | shifted shift width =>
    cases h
    refine ⟨_, _, rfl, rfl, ?_⟩
    have hlt := (Arg.amountField width).bits.extract_lt word
    cases width <;> simp only [Arg.amountField, FieldName.bits, FieldName.extract, Width.bits,
      UInt8.toNat_ofNat'] at hlt ⊢ <;> omega
  | imm16 | imm16Half | distance19 | distance26 | imm12 | distance21 =>
    cases h
    exact ⟨_, rfl⟩
  | bitmask =>
    simp only [operand, bitmaskOperand] at h
    split at h
    · obtain ⟨value, -, h⟩ := bind_eq_ok.mp h
      cases h
      exact ⟨value, rfl⟩
    · cases h
  | memOffset9 | memOffset12 | memOffset7 =>
    cases h
    rfl

/-- What holds of every operand made for an argument holds of all operands of a word. -/
theorem forall₂_of_operandsFrom {P : Arg → Operand → Prop}
    (hP : ∀ {before a o}, s.operand word before a = .ok o → P a o)
    {before operands : List Operand} {args : List Arg}
    (h : s.operandsFrom word before args = .ok operands) :
    ∃ made, operands = before ++ made ∧ List.Forall₂ P args made := by
  induction args generalizing before with
  | nil =>
    cases h
    exact ⟨[], (List.append_nil _).symm, .nil⟩
  | cons a rest ih =>
    obtain ⟨o, ho, h⟩ := bind_eq_ok.mp h
    obtain ⟨made, rfl, hmade⟩ := ih h
    exact ⟨o :: made, by simp, .cons (hP ho) hmade⟩

/-- The operands of a word follow its arguments. -/
theorem admits_of_operandsFrom {before operands : List Operand} {args : List Arg}
    (h : s.operandsFrom word before args = .ok operands) :
    ∃ made, operands = before ++ made ∧
      List.Forall₂ (fun a o => s.Admits word a o.kind) args made :=
  forall₂_of_operandsFrom admits_of_operand h

/-- An argument that admits an immediate operand admits every constant, and nothing else as an
immediate. -/
theorem admits_imm {a : Arg} {e : Expr} (h : s.Admits word a (.imm e)) :
    (∃ c, e = .const c) ∧ ∀ c, s.Admits word a (.imm (.const c)) := by
  cases a with
  | rn | rt | rt2 | rm | shifted => simp [Admits] at h
  | memOffset9 | memOffset12 | memOffset7 => cases h
  | imm16 | imm16Half | distance19 | distance26 | imm12 | distance21 | bitmask =>
    obtain ⟨c, h⟩ := h
    cases h
    exact ⟨⟨c, rfl⟩, fun c' => ⟨c', rfl⟩⟩

/-- Making an operand absolute keeps its form. -/
theorem admits_of_absolute {address : Address} {a : Arg} {last o : Operand}
    (h : s.absolute address last = .ok o) (hlast : s.Admits word a last.kind) :
    s.Admits word a o.kind := by
  unfold absolute at h
  split at h
  · rename_i distance hdistance
    have hkind : last.kind = .imm distance := by
      cases hk : last.kind <;> simp [Operand.imm?, hk] at hdistance ⊢
      exact hdistance
    rw [hkind] at hlast
    obtain ⟨⟨c, rfl⟩, hconst⟩ := admits_imm hlast
    split_ifs at h
    · cases h
      exact hconst _
    · cases h
      exact hconst _
    · cases h
      rw [hkind]
      exact hlast
  · split_ifs at h
    · cases h
      exact hlast
    · cases h
      exact hlast

/-- A distance from the instruction becomes an address. -/
theorem kind_of_relative {address : Address} {c : BitVec 64} {o : Operand}
    (hrelative : s.has (Feature.branch ||| Feature.relative) = true)
    (h : s.absolute address (.imm (.const c)) = .ok o) :
    o.kind = .imm (.const (address + c)) := by
  simp only [absolute, Operand.imm, Operand.imm?, hrelative, if_true] at h
  cases h
  rfl

/-- A distance in pages from the page of the instruction becomes an address. -/
theorem kind_of_pageRelative {address : Address} {c : BitVec 64} {o : Operand}
    (hnear : s.has (Feature.branch ||| Feature.relative) = false)
    (hpage : s.has Feature.pageRelative = true)
    (h : s.absolute address (.imm (.const c)) = .ok o) :
    o.kind = .imm (.const ((address &&& pageMask) + c <<< 12)) := by
  simp only [absolute, Operand.imm, Operand.imm?, hnear, hpage, if_true] at h
  cases h
  rfl

/-- What an operand keeps when it is made absolute, all operands keep when the last one is. -/
theorem forall₂_of_fixUp {P : Arg → Operand → Prop} {address : Address}
    (hP : ∀ {a o fixed}, s.absolute address o = .ok fixed → P a o → P a fixed)
    {args : List Arg} {operands fixed : List Operand} (h : s.fixUp address operands = .ok fixed)
    (hoperands : List.Forall₂ P args operands) : List.Forall₂ P args fixed := by
  induction hoperands generalizing fixed with
  | nil =>
    cases h
    exact .nil
  | cons ha hrest ih =>
    rename_i a o args operands
    cases operands with
    | nil =>
      obtain ⟨last, hlast, h⟩ := bind_eq_ok.mp h
      cases h
      cases hrest
      exact .cons (hP hlast ha) .nil
    | cons o' rest =>
      obtain ⟨tail, htail, h⟩ := bind_eq_ok.mp h
      cases h
      exact .cons ha (ih htail)

/-- Making the last operand absolute keeps the forms of all. -/
theorem admits_of_fixUp {address : Address} {args : List Arg} {operands fixed : List Operand}
    (h : s.fixUp address operands = .ok fixed)
    (hoperands : List.Forall₂ (fun a o => s.Admits word a o.kind) args operands) :
    List.Forall₂ (fun a o => s.Admits word a o.kind) args fixed :=
  forall₂_of_fixUp (P := fun a o => s.Admits word a o.kind) admits_of_absolute h hoperands

/-- The operands of an encoding with a register and another argument. -/
theorem operands_of_two_args {a : Arg} {operands : List Operand}
    (h : List.Forall₂ (s.Admits word) [.rt, a] (operands.map Operand.kind)) :
    ∃ o p d, operands = [o, p] ∧ o.kind = .reg d ∧ d.width = s.regWidth ∧
      s.Admits word a p.kind := by
  rw [List.forall₂_map_right_iff] at h
  cases h with
  | cons ho h =>
    cases h with
    | cons hp h =>
      cases h
      obtain ⟨d, hd, hwidth⟩ := ho
      exact ⟨_, _, d, rfl, hd, hwidth, hp⟩

/-- The operands of an encoding with a register and two other arguments. -/
theorem operands_of_three_args {a b : Arg} {operands : List Operand}
    (h : List.Forall₂ (s.Admits word) [.rt, a, b] (operands.map Operand.kind)) :
    ∃ o p q d, operands = [o, p, q] ∧ o.kind = .reg d ∧ d.width = s.regWidth ∧
      s.Admits word a p.kind ∧ s.Admits word b q.kind := by
  rw [List.forall₂_map_right_iff] at h
  cases h with
  | cons ho h =>
    cases h with
    | cons hp h =>
      cases h with
      | cons hq h =>
        cases h
        obtain ⟨d, hd, hwidth⟩ := ho
        exact ⟨_, _, _, d, rfl, hd, hwidth, hp, hq⟩

end Spec

namespace Decoder

variable {d : Decoder} {address : Address} {i : Insn}

/-- Hiding the operand of a return keeps the forms of all operands. -/
theorem map_kind_hideLink (s : Spec) (operands : List Operand) :
    (hideLink s operands).map Operand.kind = operands.map Operand.kind := by
  cases operands with
  | nil => rfl
  | cons first rest =>
    rw [hideLink]
    split <;> rfl

/-- The instruction that a word is by a spec refers to the spec and the word, and its operands are
those of the word with the last one made absolute. -/
theorem exists_operands_of_insnOf {s : Spec} {position : Nat} {word : Word}
    (h : d.insnOf s position address word = .ok i) :
    i.opcode = some position ∧ i.raw = word ∧
      ∃ made fixed, s.operands word = .ok made ∧ s.fixUp address made = .ok fixed ∧
        i.operands.map Operand.kind = fixed.map Operand.kind := by
  obtain ⟨made, hmade, h⟩ := bind_eq_ok.mp h
  obtain ⟨fixed, hfixed, h⟩ := bind_eq_ok.mp h
  cases h
  refine ⟨rfl, rfl, made, fixed, hmade, hfixed, ?_⟩
  dsimp only
  split
  · exact map_kind_hideLink s fixed
  · rfl

/-- What the kinds of all new operands are, and keep when an operand is made absolute, the kinds of
the operands of an instruction are. -/
theorem forall₂_of_insnOf {s : Spec} {position : Nat} {word : Word}
    {P : Arg → OperandKind → Prop}
    (hmake : ∀ {before a o}, s.operand word before a = .ok o → P a o.kind)
    (hkeep : ∀ {a o fixed}, s.absolute address o = .ok fixed → P a o.kind → P a fixed.kind)
    (h : d.insnOf s position address word = .ok i) :
    List.Forall₂ P s.args (i.operands.map Operand.kind) := by
  obtain ⟨-, -, made, fixed, hmade, hfixed, hkinds⟩ := exists_operands_of_insnOf h
  obtain ⟨_, rfl, hoperands⟩ :=
    Spec.forall₂_of_operandsFrom (P := fun a o => P a o.kind) hmake hmade
  rw [hkinds]
  exact List.forall₂_map_right_iff.mpr
    (Spec.forall₂_of_fixUp (P := fun a o => P a o.kind) hkeep hfixed hoperands)

/-- The operands of the instruction that a word is by a spec follow the arguments of the spec. -/
theorem admits_of_insnOf {s : Spec} {position : Nat} {word : Word}
    (h : d.insnOf s position address word = .ok i) :
    List.Forall₂ (s.Admits word) s.args (i.operands.map Operand.kind) :=
  forall₂_of_insnOf Spec.admits_of_operand Spec.admits_of_absolute h

/-- An instruction with a register and one more operand has that operand made absolute. -/
theorem exists_absolute_of_insnOf {s : Spec} {position : Nat} {word : Word} {a : Arg}
    {last : Operand} (h : d.insnOf s position address word = .ok i) (hargs : s.args = [.rt, a])
    (hlast : s.operand word [.reg (s.regAt word .rt)] a = .ok last) :
    ∃ fixed, s.absolute address last = .ok fixed ∧
      i.operands.map Operand.kind = [.reg (s.regAt word .rt), fixed.kind] := by
  obtain ⟨-, -, made, operands, hmade, hfixed, hkinds⟩ := exists_operands_of_insnOf h
  have hmade' : s.operands word = .ok [.reg (s.regAt word .rt), last] := by
    rw [Spec.operands, hargs]
    exact bind_eq_ok.mpr ⟨_, rfl, bind_eq_ok.mpr ⟨last, hlast, rfl⟩⟩
  obtain rfl := Except.ok.inj (hmade.symm.trans hmade')
  obtain ⟨tail, htail, hfixed⟩ := bind_eq_ok.mp hfixed
  cases hfixed
  obtain ⟨fixed, habsolute, htail⟩ := bind_eq_ok.mp htail
  cases htail
  exact ⟨fixed, habsolute, hkinds⟩

/-- A decoded instruction comes from the spec that the table finds for its word. -/
theorem exists_spec_of_decode {bytes : List UInt8} (h : d.decode address bytes = .ok (.ok i)) :
    ∃ word position s, d.table.find? word = some position ∧ d.table.spec? position = some s ∧
      d.insnOf s position address word = .ok i := by
  obtain ⟨⟨answer, next⟩, -, h⟩ := bind_eq_ok.mp h
  cases answer with
  | error e => cases h
  | ok word =>
    dsimp only at h
    split at h
    · cases h
    · rename_i position hposition
      split at h
      · cases h
      · rename_i s hs
        obtain ⟨i', hi', h⟩ := bind_eq_ok.mp h
        cases h
        exact ⟨word, position, s, hposition, hs, hi'⟩

/-- A word decodes by the spec that the table finds for it. -/
theorem decode_of_find? {bytes : List UInt8} {word : Word} {next : Cursor} {position : Nat}
    {s : Spec}
    (hread : ({ data := bytes } : Cursor).readWord d.options.endian = .ok (.ok word, next))
    (hfind : d.table.find? word = some position) (hspec : d.table.spec? position = some s)
    (hinsn : d.insnOf s position address word = .ok i) :
    d.decode address bytes = .ok (.ok i) := by
  refine bind_eq_ok.mpr ⟨_, hread, ?_⟩
  simp only [hfind, hspec]
  exact bind_eq_ok.mpr ⟨i, hinsn, rfl⟩

/-- The built-in decoder looks words up in the index of the catalogue. -/
theorem table_builtin (options : Options) :
    (builtin options).table = Table.index Catalogue.specs :=
  rfl

/-- An instruction decoded by the built-in encodings is what its word is by the first of them that
accepts the word. -/
theorem exists_scan_of_decode_builtin {options : Options} {bytes : List UInt8}
    (h : (builtin options).decode address bytes = .ok (.ok i)) :
    ∃ position s, Table.scan? Catalogue.specs i.raw = some position ∧
      Catalogue.specs[position]? = some s ∧
      (builtin options).insnOf s position address i.raw = .ok i := by
  obtain ⟨word, position, s, hfind, hs, hinsn⟩ := exists_spec_of_decode h
  obtain ⟨-, rfl, -⟩ := exists_operands_of_insnOf hinsn
  rw [table_builtin, Table.find?_index] at hfind
  rw [table_builtin, Table.spec?_index] at hs
  exact ⟨position, s, hfind, hs, hinsn⟩

/-- An instruction decoded by the built-in encodings is what its word is by one of them, which
accepts the word. -/
theorem exists_spec_of_decode_builtin {options : Options} {bytes : List UInt8}
    (h : (builtin options).decode address bytes = .ok (.ok i)) :
    ∃ s ∈ Catalogue.specs, (builtin options).table.specOf? i = some s ∧
      s.accepts i.raw = true ∧
      ∃ position, (builtin options).insnOf s position address i.raw = .ok i := by
  obtain ⟨position, s, hscan, hs, hinsn⟩ := exists_scan_of_decode_builtin h
  obtain ⟨hopcode, -⟩ := exists_operands_of_insnOf hinsn
  refine ⟨s, List.mem_of_getElem? hs, ?_, Table.accepts_of_scan? hscan hs, position, hinsn⟩
  rw [Table.specOf?, hopcode, Option.bind_some, table_builtin, Table.spec?_index, hs]

/-- A word decodes by the first of the built-in encodings that accepts it. -/
theorem decode_builtin_of_scan {options : Options} {bytes : List UInt8} {word : Word}
    {next : Cursor} {position : Nat} {s : Spec}
    (hread : ({ data := bytes } : Cursor).readWord options.endian = .ok (.ok word, next))
    (hscan : Table.scan? Catalogue.specs word = some position)
    (hs : Catalogue.specs[position]? = some s)
    (hinsn : (builtin options).insnOf s position address word = .ok i) :
    (builtin options).decode address bytes = .ok (.ok i) := by
  have hfind : (builtin options).table.find? word = some position := by
    rw [table_builtin, Table.find?_index, hscan]
  have hspec : (builtin options).table.spec? position = some s := by
    rw [table_builtin, Table.spec?_index, hs]
  exact decode_of_find? hread hfind hspec hinsn

/-- The mnemonic of an instruction is that of its built-in encoding. -/
theorem mnemonic?_builtin {options : Options} {position : Nat} {s : Spec}
    (hopcode : i.opcode = some position) (hs : Catalogue.specs[position]? = some s) :
    (builtin options).mnemonic? i = some s.name := by
  have hspec : (builtin options).table.spec? position = some s := by
    rw [table_builtin, Table.spec?_index, hs]
  rw [mnemonic?, Table.mnemonic?, Table.specOf?, hopcode, Option.bind_some, hspec, Option.map_some]

end Decoder

end A64Disassembler
