import A64Disassembler.Proofs.Effect.Analysis
import A64Disassembler.Proofs.Effect.Names
import A64Disassembler.Proofs.Text.Numeral

/-!
# Printed texts have no slashes and no colons

Numbers, registers, expressions and operands are printed with letters, digits and a few signs, among
which there is no slash and no colon. So no printed text can be taken for a comment or for an
address where it stands in a file in which these signs have a meaning.
-/

namespace A64Disassembler

/-- A text without slashes and colons. -/
def IsPlain (text : String) : Prop :=
  ∀ c ∈ text.toList, c ≠ '/' ∧ c ≠ ':'

-- The characters of the text are tried out, and not all characters there are.
instance (text : String) : Decidable (IsPlain text) :=
  List.decidableBAll _ _

/-- Texts after each other are plain exactly if each of them is. -/
@[simp] theorem isPlain_append {a b : String} : IsPlain (a ++ b) ↔ IsPlain a ∧ IsPlain b := by
  simp only [IsPlain, String.toList_append, List.forall_mem_append]

/-- No text at all is plain. -/
theorem isPlain_empty : IsPlain "" := by
  decide

/-- Plain texts with a plain separator between them are plain. -/
theorem isPlain_intercalate {separator : String} {texts : List String}
    (hseparator : IsPlain separator) (htexts : ∀ text ∈ texts, IsPlain text) :
    IsPlain (separator.intercalate texts) := by
  intro c hc
  rw [String.toList_intercalate] at hc
  rcases Text.mem_intercalate hc with hc | ⟨chars, hchars, hc⟩
  · exact hseparator c hc
  · obtain ⟨text, htext, rfl⟩ := List.mem_map.mp hchars
    exact htexts text htext c hc

namespace Numeral

/-- Digits are plain. -/
theorem isPlain_digitChar : ∀ d : Fin 16, Nat.digitChar d ≠ '/' ∧ Nat.digitChar d ≠ ':' := by
  decide

/-- Hexadecimal numbers are plain. -/
theorem isPlain_hex (n : Nat) : IsPlain (hex n) :=
  forall_mem_hex isPlain_digitChar n

/-- Decimal numbers are plain. -/
theorem isPlain_repr (n : Nat) : IsPlain (Nat.repr n) :=
  forall_mem_repr isPlain_digitChar n

/-- Numbers after a prefix are plain. -/
theorem isPlain_prefixedHex (n : Nat) : IsPlain (prefixedHex n) :=
  forall_mem_prefixedHex isPlain_digitChar (by decide) n

/-- Signed hexadecimal numbers are plain. -/
theorem isPlain_signedHex (value : BitVec 64) : IsPlain (signedHex value) :=
  forall_mem_signed isPlain_prefixedHex (by decide) value

/-- Signed decimal numbers are plain. -/
theorem isPlain_signedDecimal (value : BitVec 64) : IsPlain (signedDecimal value) :=
  forall_mem_signed isPlain_repr (by decide) value

end Numeral

/-- The names of registers are plain, in either width. -/
theorem RegName.isPlain_names (name : RegName) : IsPlain name.name64 ∧ IsPlain name.name32 := by
  cases name with
  | general n =>
    simp only [name64, name32, isPlain_append]
    exact ⟨⟨by decide, Numeral.isPlain_repr n⟩, by decide, Numeral.isPlain_repr n⟩
  | sp | zero => decide

/-- The name of a register is plain. -/
theorem Reg.isPlain_text (r : Reg) : IsPlain r.text := by
  unfold text
  cases r.width with
  | w32 => exact r.name.isPlain_names.2
  | w64 => exact r.name.isPlain_names.1

/-- All names that bindings bring in are plain. -/
theorem holdsForRegisters_isPlain : HoldsForRegisters IsPlain where
  register name := name.isPlain_names.1
  flags := by decide

namespace Expr

/-- An expression with plain names is printed as a plain text. -/
theorem isPlain_text {e : Expr} (h : e.AllNames IsPlain) : IsPlain e.text := by
  have hoperand : ∀ {e : Expr} {inner : String}, IsPlain inner →
      IsPlain (text.operandText e inner) := by
    intro e inner hinner
    unfold text.operandText
    split
    · simpa only [isPlain_append] using ⟨⟨by decide, hinner⟩, by decide⟩
    · exact hinner
  induction e with
  | const value => exact Numeral.isPlain_signedHex value
  | sym name => exact h
  | unknown => exact (by decide : IsPlain "unknown")
  | mem ptr size ih =>
    have hcell : IsPlain (cellName size) := by
      unfold cellName
      split <;> decide
    rw [text]
    simp only [isPlain_append]
    exact ⟨⟨⟨hcell, by decide⟩, ih h⟩, by decide⟩
  | op o lhs rhs ihl ihr =>
    have hsign : IsPlain o.sign := by cases o <;> decide
    rw [text]
    simp only [isPlain_append]
    exact ⟨⟨⟨⟨hoperand (ihl h.1), by decide⟩, hsign⟩, by decide⟩, hoperand (ihr h.2)⟩

end Expr

/-- A binding with plain names is printed as a plain text. -/
theorem Binding.isPlain_text {b : Binding} (h : b.AllNames IsPlain) : IsPlain b.text := by
  have heffects : ∀ text ∈ b.effects.map fun effect => effect.1.text ++ " = " ++ effect.2.text,
      IsPlain text := by
    intro text htext
    obtain ⟨effect, heffect, rfl⟩ := List.mem_map.mp htext
    obtain ⟨hlocation, hvalue⟩ := h effect heffect
    simp only [isPlain_append]
    exact ⟨⟨Expr.isPlain_text hlocation, by decide⟩, Expr.isPlain_text hvalue⟩
  refine isPlain_intercalate (by decide) ?_
  split
  · exact List.forall_mem_append.mpr ⟨heffects, by decide⟩
  · exact heffects

namespace InsnPrinter

/-- A reference to memory with a plain offset is printed as a plain text. -/
theorem isPlain_memText {ref : MemRef} (h : ref.offset.AllNames IsPlain) :
    IsPlain (memText .plain ref) := by
  have hoffset : IsPlain (offsetText ref.offset) := by
    unfold offsetText
    split
    · rw [isPlain_append]
      exact ⟨by decide, Numeral.isPlain_signedDecimal _⟩
    · exact Expr.isPlain_text h
  have hbefore : IsPlain (if ref.offset = .const 0 then "" else ", " ++ offsetText ref.offset) := by
    split
    · decide
    · rw [isPlain_append]
      exact ⟨by decide, hoffset⟩
  unfold memText
  simp only [isPlain_append]
  refine ⟨⟨⟨by decide, Reg.isPlain_text _⟩, ?_⟩, ?_⟩
  · cases ref.index with
    | none => exact isPlain_empty
    | some r =>
      simp only [isPlain_append]
      refine ⟨⟨by decide, Reg.isPlain_text r⟩, ?_⟩
      split
      · split
        · rw [isPlain_append]
          exact ⟨by decide, Numeral.isPlain_repr _⟩
        · decide
      · decide
  · cases ref.increment with
    | post =>
      simp only [isPlain_append]
      exact ⟨by decide, hoffset⟩
    | pre | none =>
      simp only [isPlain_append]
      exact ⟨hbefore, by decide⟩

/-- A constant is printed as a plain text, and so are other values with plain names. -/
theorem isPlain_immText {isAddress : Bool} {value : Expr} {text : String}
    (hvalue : value.AllNames IsPlain) (h : immText .plain isAddress value = .ok text) :
    IsPlain text := by
  unfold immText at h
  split at h
  · split at h
    · cases h
      exact isPlain_append.mpr ⟨Numeral.isPlain_hex _, isPlain_empty⟩
    · cases h
      exact isPlain_append.mpr ⟨by decide, Numeral.isPlain_signedHex _⟩
  · cases h
    exact Expr.isPlain_text hvalue

/-- An operand with plain names is printed as a plain text. -/
theorem isPlain_operandText {o : Operand} {text : String} (ho : o.AllNames IsPlain)
    (h : operandText .plain o = .ok text) : IsPlain text := by
  unfold Operand.AllNames at ho
  unfold operandText at h
  cases hkind : o.kind with
  | reg r =>
    rw [hkind] at h
    cases h
    exact r.isPlain_text
  | shifted r shift amount =>
    rw [hkind] at h
    cases h
    have hshift : IsPlain shift.name := by cases shift <;> decide
    have hamount : IsPlain ("#" ++ Nat.repr amount.toNat) :=
      isPlain_append.mpr ⟨by decide, Numeral.isPlain_repr _⟩
    rw [isPlain_append]
    refine ⟨r.isPlain_text, ?_⟩
    split
    · decide
    · simp only [isPlain_append]
      exact ⟨⟨⟨by decide, hshift⟩, by decide⟩, hamount⟩
  | imm value =>
    rw [hkind] at h ho
    exact isPlain_immText ho h
  | mem ref =>
    rw [hkind] at h ho
    cases h
    exact isPlain_memText ho

/-- An instruction with a plain mnemonic and operands with plain names is printed as a plain text,
if nothing else stands between its parts. -/
theorem isPlain_insnText {p : InsnPrinter} (hinsn : p.insnSeparator = .tab)
    (hoperand : p.operandSeparator = .text ", ") {i : Insn} {name text : String}
    (hname : p.mnemonic i = some name) (hplain : IsPlain name)
    (hoperands : ∀ o ∈ i.operands, o.AllNames IsPlain) (h : p.insnText .plain i = .ok text) :
    IsPlain text := by
  rw [insnText_eq hinsn hoperand hname] at h
  obtain ⟨texts, htexts, h⟩ := bind_eq_ok.mp h
  have hall : ∀ text ∈ texts, IsPlain text := by
    intro text htext
    obtain ⟨o, ho, hprinted⟩ := exists_of_mem_mapM htexts text htext
    exact isPlain_operandText (hoperands o (List.mem_of_mem_filter ho)) hprinted
  have hseparator : ∀ (condition : Prop) [Decidable condition] {separator : String},
      IsPlain separator → IsPlain (if condition then "" else separator) := by
    intro condition _ separator hplain
    split
    · exact isPlain_empty
    · exact hplain
  cases h
  simp only [isPlain_append]
  exact ⟨hplain, hseparator _ (by decide), isPlain_intercalate (hseparator _ (by decide)) hall⟩

end InsnPrinter

/-- The operand of an argument brings in no names. -/
theorem Spec.allNames_of_admits {P : String → Prop} {s : Spec} {word : Word} {a : Arg} {o : Operand}
    (h : s.Admits word a o.kind) : o.AllNames P := by
  unfold Operand.AllNames
  cases a with
  | rn | rt | rt2 | rm =>
    obtain ⟨r, hkind, -⟩ := h
    rw [hkind]
    trivial
  | shifted shift width =>
    obtain ⟨r, amount, hkind, -⟩ := h
    rw [hkind]
    trivial
  | imm16 | imm16Half | distance19 | distance26 | imm12 | distance21 | bitmask =>
    obtain ⟨c, hkind⟩ := h
    rw [hkind]
    trivial
  | memOffset9 | memOffset12 | memOffset7 =>
    rw [show o.kind = _ from h]
    trivial

namespace Decoder

variable {P : String → Prop} {address : Address} {i : Insn}

/-- A decoded instruction has no names but those of its registers. -/
theorem allNames_of_insnOf {d : Decoder} {s : Spec} {position : Nat} {word : Word}
    (h : d.insnOf s position address word = .ok i) : ∀ o ∈ i.operands, o.AllNames P := by
  intro o ho
  have hforms := List.forall₂_map_right_iff.mp (admits_of_insnOf h)
  obtain ⟨k, hk, rfl⟩ := List.getElem_of_mem ho
  have hk' : k < s.args.length := hforms.length_eq ▸ hk
  exact Spec.allNames_of_admits (hforms.get hk' hk)

/-- The mnemonics of the built-in encodings are plain and begin with a letter. -/
theorem isPlain_name {s : Spec} (hs : s ∈ Catalogue.specs) :
    IsPlain s.name ∧ ∃ c rest, s.name.toList = c :: rest ∧ Text.isBlank c = false := by
  have hall : (Catalogue.specs.all fun s => decide (IsPlain s.name) &&
      s.name.toList.head?.any fun c => !Text.isBlank c) = true := by
    decide +kernel
  have h := List.all_eq_true.mp hall s hs
  rw [Bool.and_eq_true, decide_eq_true_eq, Option.any_eq_true] at h
  obtain ⟨hplain, c, hc, hblank⟩ := h
  obtain ⟨rest, hrest⟩ := List.head?_eq_some_iff.mp hc
  exact ⟨hplain, c, rest, hrest, by simpa using hblank⟩

/-- Every decoded instruction is printed as a plain text that begins with a letter, and so is its
binding. -/
theorem exists_plain_text {options : Options} {bytes : List UInt8}
    (hdecode : (builtin options).decode address bytes = .ok (.ok i)) :
    ∃ text b c rest, (builtin options).printer.insnText .plain i = .ok text ∧
      (builtin options).binding i = .ok b ∧ IsPlain text ∧ IsPlain b.text ∧
      text.toList = c :: rest ∧ Text.isBlank c = false := by
  obtain ⟨s, hs, hspec, haccepts, position, hinsn⟩ := exists_spec_of_decode_builtin hdecode
  obtain ⟨hplain, c, more, hname, hblank⟩ := isPlain_name hs
  have hmnemonic := mnemonic?_of_specOf? hspec
  have hsymbols : ∀ a s, Markup.plain.symbolAt a = some s → s.address ≤ a := fun _ _ h => nomatch h
  obtain ⟨rest, htext⟩ := exists_insnText_of_mnemonic? hsymbols hmnemonic
  obtain ⟨b, hb, -⟩ := exists_bindingFor_of_insnOf hinsn hs haccepts
  have hoperands : ∀ o ∈ i.operands, o.AllNames IsPlain := allNames_of_insnOf hinsn
  refine ⟨_, b, c, more ++ rest.toList, htext, (binding_of_specOf? hspec).trans hb, ?_, ?_, ?_,
    hblank⟩
  · exact InsnPrinter.isPlain_insnText rfl rfl hmnemonic hplain hoperands htext
  · exact Binding.isPlain_text (Insn.allNames_bindingFor holdsForRegisters_isPlain hoperands hb)
  · rw [String.toList_append, show (Markup.plain.mark .mnemonic s.name).toList = _ from hname,
      List.cons_append]

end Decoder

end A64Disassembler
