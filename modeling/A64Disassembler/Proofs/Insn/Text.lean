import A64Disassembler.Proofs.Decode.Lossless
import A64Disassembler.Proofs.Effect.ControlFlow
import A64Disassembler.Proofs.Text.Token

/-!
# The text of an instruction tells its operands

Printing leaves out a shift by zero and an offset of zero, the size of a memory cell and the
register of a return, and it writes an address and a distance alike. Two instructions of one spec
still have the same text only if they have the same operands. Their operands are alike in everything
that is not read from the word, and what is left is known from their texts, one after the other: a
register or a number ends where the characters of names and numbers do, and no operand begins like
the shift that another one may have left out.
-/

namespace A64Disassembler

/-- Whether two operands differ in nothing but in what is read from fields: the register, the amount
of a shift, and the number. -/
inductive OperandKind.IsLike : OperandKind → OperandKind → Prop
  | reg {r q : Reg} (hwidth : r.width = q.width) : IsLike (.reg r) (.reg q)
  | shifted {r q : Reg} (hwidth : r.width = q.width) (shift : Shift) (m n : UInt8) :
    IsLike (.shifted r shift m) (.shifted q shift n)
  | imm (b c : BitVec 64) : IsLike (.imm (.const b)) (.imm (.const c))
  | mem {r q : Reg} (hwidth : r.width = q.width) (b c : BitVec 64) (size : UInt8)
    (increment : Increment) :
    IsLike (.mem { base := r, offset := .const b, size, increment })
      (.mem { base := q, offset := .const c, size, increment })

/-- Whether two operands are alike and shown, and either both are addresses or none of them is. -/
structure Operand.IsLike (o p : Operand) : Prop where
  kind : o.kind.IsLike p.kind
  shown : o.isHidden = false ∧ p.isHidden = false
  address : o.isAddress = p.isAddress

/-- Kinds that are like other ones are like themselves. -/
theorem OperandKind.IsLike.self {k l : OperandKind} (h : k.IsLike l) : k.IsLike k ∧ l.IsLike l := by
  cases h with
  | reg => exact ⟨.reg rfl, .reg rfl⟩
  | shifted _ shift m n => exact ⟨.shifted rfl shift m m, .shifted rfl shift n n⟩
  | imm b c => exact ⟨.imm b b, .imm c c⟩
  | mem _ b c size increment =>
    exact ⟨.mem rfl b b size increment, .mem rfl c c size increment⟩

/-- Operands that are like other ones are like themselves. -/
theorem Operand.IsLike.self {o p : Operand} (h : o.IsLike p) : o.IsLike o ∧ p.IsLike p := by
  obtain ⟨hkind, ⟨hshown, hshown'⟩, -⟩ := h
  exact ⟨⟨hkind.self.1, ⟨hshown, hshown⟩, rfl⟩, hkind.self.2, ⟨hshown', hshown'⟩, rfl⟩

/-- All operands of lists of alike operands are like themselves. -/
theorem Operand.isLike_self_of_forall₂ {os ps : List Operand}
    (h : List.Forall₂ Operand.IsLike os ps) {o : Operand} (ho : o ∈ os ∨ o ∈ ps) : o.IsLike o := by
  induction h with
  | nil => simp at ho
  | cons hop _ ih =>
    simp only [List.mem_cons] at ho
    rcases ho with (rfl | ho) | rfl | ho
    · exact hop.self.1
    · exact ih (.inl ho)
    · exact hop.self.2
    · exact ih (.inr ho)

namespace Spec

variable {s : Spec} {v w : Word} {address : Address}

/-- The operands that an argument admits are alike. -/
theorem isLike_of_admits {a : Arg} {k l : OperandKind} (hk : s.Admits v a k)
    (hl : s.Admits w a l) : k.IsLike l := by
  cases a with
  | rn | rt | rt2 | rm =>
    obtain ⟨r, rfl, hr⟩ := hk
    obtain ⟨q, rfl, hq⟩ := hl
    exact .reg (hr.trans hq.symm)
  | shifted shift width =>
    obtain ⟨r, m, rfl, hr, -⟩ := hk
    obtain ⟨q, n, rfl, hq, -⟩ := hl
    exact .shifted (hr.trans hq.symm) shift m n
  | imm16 | imm16Half | distance19 | distance26 | imm12 | distance21 | bitmask =>
    obtain ⟨b, rfl⟩ := hk
    obtain ⟨c, rfl⟩ := hl
    exact .imm b c
  | memOffset9 | memOffset12 | memOffset7 =>
    rw [show k = (s.memOperand v _).kind from hk, show l = (s.memOperand w _).kind from hl]
    refine .mem ?_ _ _ _ _
    rfl

/-- The operands that are made for an argument in two words are alike. -/
theorem isLike_of_operand {before before' : List Operand} {a : Arg} {o p : Operand}
    (ho : s.operand v before a = .ok o) (hp : s.operand w before' a = .ok p) : o.IsLike p := by
  refine ⟨isLike_of_admits (admits_of_operand ho) (admits_of_operand hp), ?_, ?_⟩
  · rw [operand_eq_mk ho, operand_eq_mk hp]
    exact ⟨rfl, rfl⟩
  · rw [operand_eq_mk ho, operand_eq_mk hp]

/-- The operands of two words are alike. -/
theorem isLike_of_operandsFrom {before before' made made' : List Operand} {args : List Arg}
    (hbefore : List.Forall₂ Operand.IsLike before before')
    (h : s.operandsFrom v before args = .ok made) (h' : s.operandsFrom w before' args = .ok made') :
    List.Forall₂ Operand.IsLike made made' := by
  induction args generalizing before before' with
  | nil =>
    cases h
    cases h'
    exact hbefore
  | cons a rest ih =>
    obtain ⟨o, ho, h⟩ := bind_eq_ok.mp h
    obtain ⟨p, hp, h'⟩ := bind_eq_ok.mp h'
    exact ih (List.rel_append hbefore (.cons (isLike_of_operand ho hp) .nil)) h h'

/-- Alike operands stay alike when they are made absolute. -/
theorem isLike_of_absolute {o p fixed fixed' : Operand} (hlike : o.IsLike p)
    (h : s.absolute address o = .ok fixed) (h' : s.absolute address p = .ok fixed') :
    fixed.IsLike fixed' := by
  have hkept := hlike
  obtain ⟨hkind, hshown, haddress⟩ := hlike
  obtain ⟨k, hidden, marked⟩ := o
  obtain ⟨l, hidden', marked'⟩ := p
  dsimp only at hkind
  cases hkind with
  | imm b c =>
    simp only [absolute, Operand.imm?] at h h'
    split_ifs at h h' <;> cases h <;> cases h'
    · exact ⟨.imm _ _, ⟨rfl, rfl⟩, rfl⟩
    · exact ⟨.imm _ _, ⟨rfl, rfl⟩, rfl⟩
    · exact hkept
  | reg | shifted | mem =>
    rw [eq_of_absolute rfl h, eq_of_absolute rfl h']
    exact hkept

/-- Alike operands stay alike when the last ones are made absolute. -/
theorem isLike_of_fixUp {made made' fixed fixed' : List Operand}
    (hlike : List.Forall₂ Operand.IsLike made made') (h : s.fixUp address made = .ok fixed)
    (h' : s.fixUp address made' = .ok fixed') : List.Forall₂ Operand.IsLike fixed fixed' := by
  induction hlike generalizing fixed fixed' with
  | nil =>
    cases h
    cases h'
    exact .nil
  | @cons o p rest rest' hop hrest ih =>
    cases hrest with
    | nil =>
      obtain ⟨last, hlast, h⟩ := bind_eq_ok.mp h
      obtain ⟨last', hlast', h'⟩ := bind_eq_ok.mp h'
      cases h
      cases h'
      exact .cons (isLike_of_absolute hop hlast hlast') .nil
    | cons hnext hmore =>
      obtain ⟨tail, htail, h⟩ := bind_eq_ok.mp h
      obtain ⟨tail', htail', h'⟩ := bind_eq_ok.mp h'
      cases h
      cases h'
      exact .cons hop (ih htail htail')

end Spec

/-- The name of a register is a token. -/
theorem Reg.isToken_text (r : Reg) : IsToken r.text := by
  have hnames : IsToken r.name.name64 ∧ IsToken r.name.name32 := by
    cases r.name with
    | general n =>
      simp only [RegName.name64, RegName.name32, isToken_append]
      exact ⟨⟨by decide, Numeral.isToken_repr n⟩, by decide, Numeral.isToken_repr n⟩
    | sp | zero => decide
  unfold text
  cases r.width with
  | w32 => exact hnames.2
  | w64 => exact hnames.1

/-- Registers with the same name for their low 32 bits are the same. -/
theorem RegName.name32_injective : Function.Injective RegName.name32 := by
  -- The number of a general register does not begin like the other names.
  have hnumber : ∀ {k : Fin 31} {c : Char} {more : List Char},
      (general k).name32.toList = 'w' :: c :: more → c.isDigit = true := by
    intro k c more h
    refine Nat.isDigit_of_mem_toDigits (b := 10) (n := k) (by decide) (by decide) ?_
    have hdigits : Nat.toDigits 10 k = c :: more := by simpa [name32, Nat.repr] using h
    simp [hdigits]
  refine injective_of_general (fun k l h => ?_) (fun k h => ?_) (fun k h => ?_) (by decide)
  · exact Fin.ext (Numeral.repr_inj.mp ((String.append_right_inj "w").mp h))
  · exact absurd (hnumber (congrArg String.toList h)) (by decide)
  · exact absurd (hnumber (congrArg String.toList h)) (by decide)

/-- Registers of the same width are known from their names. -/
theorem Reg.eq_of_text_eq {r q : Reg} (hwidth : r.width = q.width) (h : r.text = q.text) :
    r = q := by
  obtain ⟨a, width⟩ := r
  obtain ⟨b, width'⟩ := q
  obtain rfl : width = width' := hwidth
  cases width with
  | w32 => exact congrArg (Reg.mk · .w32) (RegName.name32_injective h)
  | w64 => exact congrArg (Reg.mk · .w64) (RegName.name64_injective h)

/-- The name of a register does not begin like that of a shift. -/
theorem Reg.exists_head_text (r : Reg) : ∃ c more, r.text.toList = c :: more ∧ c ≠ 'l' := by
  obtain ⟨name, width⟩ := r
  cases name <;> cases width <;> simp [text, RegName.name32, RegName.name64]

namespace Operand

/-- The text of an operand without symbols and styles. -/
def plainText (o : Operand) : String :=
  (InsnPrinter.operandText .plain o).toOption.getD ""

/-- Without symbols, all operands can be printed. -/
theorem operandText_plain (o : Operand) :
    InsnPrinter.operandText .plain o = .ok o.plainText := by
  have hsymbols : ∀ a s, Markup.plain.symbolAt a = some s → s.address ≤ a := fun _ _ h => nomatch h
  obtain ⟨text, htext⟩ := InsnPrinter.exists_operandText hsymbols o
  rw [plainText, htext]
  rfl

/-- What may stand behind an operand: nothing, or a separator and something that is not the name of
a shift. -/
def EndsPrinted (rest : List Char) : Prop :=
  rest = [] ∨ ∃ c more, rest = ',' :: ' ' :: c :: more ∧ c ≠ 'l'

/-- The text of a shift. -/
def shiftText (shift : Shift) (amount : UInt8) : String :=
  if amount = 0 ∧ shift = .lsl then ""
  else ", " ++ shift.name ++ " " ++ ("#" ++ Nat.repr amount.toNat)

/-- The text of an offset that is not left out, with what stands in front of it. -/
def offsetText (offset : BitVec 64) : String :=
  ", " ++ ("#" ++ Numeral.signedDecimal offset)

/-- The text of a memory cell behind its base register. -/
def cellText (increment : Increment) (offset : BitVec 64) : String :=
  match increment with
  | .post => "]" ++ offsetText offset
  | .pre => (if offset = 0 then "" else offsetText offset) ++ "]!"
  | .none => (if offset = 0 then "" else offsetText offset) ++ "]"

/-- A shifted register is written as the register and its shift. -/
theorem plainText_shifted (r : Reg) (shift : Shift) (m : UInt8) (isHidden isAddress : Bool) :
    (plainText { kind := .shifted r shift m, isHidden, isAddress }).toList =
      r.text.toList ++ (shiftText shift m).toList := by
  rw [← String.toList_append]
  rfl

/-- A number is written behind a number sign. -/
theorem plainText_number (b : BitVec 64) (isHidden : Bool) :
    (plainText { kind := .imm (.const b), isHidden }).toList =
      '#' :: (Numeral.signedHex b).toList := by
  change ("#" ++ Numeral.signedHex b).toList = _
  simp

/-- An address is written as its hexadecimal digits. -/
theorem plainText_address (b : BitVec 64) (isHidden : Bool) :
    (plainText { kind := .imm (.const b), isHidden, isAddress := true }).toList =
      (Numeral.hex b.toNat).toList := by
  change (Numeral.hex b.toNat ++ "").toList = _
  rw [String.append_empty]

/-- A memory cell is written in brackets that begin with its base register. -/
theorem plainText_mem (r : Reg) (b : BitVec 64) (size : UInt8) (increment : Increment)
    (isHidden isAddress : Bool) :
    (plainText { kind := .mem { base := r, offset := .const b, size, increment }
                 isHidden, isAddress }).toList =
      '[' :: (r.text.toList ++ (cellText increment b).toList) := by
  change (InsnPrinter.memText .plain _).toList = _
  cases increment <;>
    simp [InsnPrinter.memText, cellText, offsetText, Markup.plain, InsnPrinter.offsetText,
      Expr.const?]

variable {rest rest' : List Char}

/-- What may follow an operand ends a name or a number. -/
theorem EndsPrinted.endsToken (h : EndsPrinted rest) : EndsToken rest := by
  rcases h with rfl | ⟨c, more, rfl, -⟩
  · exact endsToken_nil
  · exact endsToken_cons (by decide) _

/-- Shifts of the same kind are known from their texts, also if one of them is left out. -/
theorem eq_of_shiftText_eq {shift : Shift} {m n : UInt8} (hrest : EndsPrinted rest)
    (hrest' : EndsPrinted rest')
    (h : (shiftText shift m).toList ++ rest = (shiftText shift n).toList ++ rest') :
    m = n ∧ rest = rest' := by
  have hnotShift : ∀ {rest : List Char}, EndsPrinted rest → ¬ [',', ' ', 'l'] <+: rest := by
    rintro rest (rfl | ⟨c, more, rfl, hc⟩)
    · simp
    · simpa using hc.symm
  have hshift : ∀ (k : Nat) (more : List Char), [',', ' ', 'l'] <+:
      (", " ++ Shift.lsl.name ++ " " ++ ("#" ++ Nat.repr k)).toList ++ more := by
    intro k more
    simp [Shift.name]
  unfold shiftText at h
  split_ifs at h with hm hn hn
  · exact ⟨hm.1.trans hn.1.symm, by simpa using h⟩
  · rw [hm.2, String.toList_empty, List.nil_append] at h
    exact absurd (h ▸ hshift n.toNat rest') (hnotShift hrest)
  · rw [hn.2, String.toList_empty, List.nil_append] at h
    exact absurd (h ▸ hshift m.toNat rest) (hnotShift hrest')
  · have hnumbers : (Nat.repr m.toNat).toList ++ rest = (Nat.repr n.toNat).toList ++ rest' := by
      simpa using h
    obtain ⟨hnumber, hrests⟩ := token_append_inj (Numeral.isToken_repr _) (Numeral.isToken_repr _)
      hrest.endsToken hrest'.endsToken hnumbers
    exact ⟨UInt8.toNat_inj.mp (Numeral.repr_inj.mp hnumber), hrests⟩

/-- Offsets are known from their texts. -/
theorem eq_of_offsetText_eq {b c : BitVec 64} (hrest : EndsToken rest) (hrest' : EndsToken rest')
    (h : (offsetText b).toList ++ rest = (offsetText c).toList ++ rest') :
    b = c ∧ rest = rest' := by
  have hnumbers : (Numeral.signedDecimal b).toList ++ rest =
      (Numeral.signedDecimal c).toList ++ rest' := by simpa [offsetText] using h
  obtain ⟨hnumber, hrests⟩ := token_append_inj (Numeral.isToken_signedDecimal b)
    (Numeral.isToken_signedDecimal c) hrest hrest' hnumbers
  exact ⟨Numeral.signedDecimal_inj.mp hnumber, hrests⟩

/-- Offsets inside of brackets are known from their texts, also if one of them is left out. -/
theorem eq_of_offset_eq {b c : BitVec 64}
    (h : (if b = 0 then "" else offsetText b).toList ++ ']' :: rest =
      (if c = 0 then "" else offsetText c).toList ++ ']' :: rest') : b = c ∧ rest = rest' := by
  split_ifs at h with hb hc hc
  · exact ⟨hb.trans hc.symm, by simpa using h⟩
  · simp [offsetText] at h
  · simp [offsetText] at h
  · obtain ⟨hbc, hrests⟩ := eq_of_offsetText_eq (endsToken_cons (by decide) _)
      (endsToken_cons (by decide) _) h
    exact ⟨hbc, List.tail_eq_of_cons_eq hrests⟩

/-- Offsets from a base register are known from the text of the cell behind it. -/
theorem eq_of_cellText_eq {increment : Increment} {b c : BitVec 64} (hrest : EndsPrinted rest)
    (hrest' : EndsPrinted rest')
    (h : (cellText increment b).toList ++ rest = (cellText increment c).toList ++ rest') :
    b = c ∧ rest = rest' := by
  cases increment with
  | post => exact eq_of_offsetText_eq hrest.endsToken hrest'.endsToken (by simpa [cellText] using h)
  | pre =>
    obtain ⟨hbc, hrests⟩ := eq_of_offset_eq (b := b) (c := c) (by simpa [cellText] using h)
    exact ⟨hbc, List.tail_eq_of_cons_eq hrests⟩
  | none => exact eq_of_offset_eq (by simpa [cellText] using h)

/-- A shift ends the name of the register in front of it. -/
theorem endsToken_shiftText (shift : Shift) (m : UInt8) (hrest : EndsPrinted rest) :
    EndsToken ((shiftText shift m).toList ++ rest) := by
  unfold shiftText
  split_ifs
  · exact hrest.endsToken
  · simpa using endsToken_cons (by decide) _

/-- What stands behind the base register of a memory cell ends its name. -/
theorem endsToken_cellText (increment : Increment) (b : BitVec 64) (rest : List Char) :
    EndsToken ((cellText increment b).toList ++ rest) := by
  have hoffset : ∀ close, EndsToken
      ((if b = 0 then "" else offsetText b).toList ++ ']' :: close) := by
    intro close
    split_ifs
    · exact endsToken_cons (by decide) close
    · simpa [offsetText] using endsToken_cons (by decide) _
  cases increment with
  | post => simpa [cellText] using endsToken_cons (by decide) _
  | pre => simpa [cellText] using hoffset ('!' :: rest)
  | none => simpa [cellText] using hoffset rest

/-- Alike operands are known from their texts. -/
theorem eq_of_plainText_eq {o p : Operand} (hlike : o.IsLike p) (hrest : EndsPrinted rest)
    (hrest' : EndsPrinted rest')
    (h : o.plainText.toList ++ rest = p.plainText.toList ++ rest') : o = p ∧ rest = rest' := by
  obtain ⟨hkind, ⟨hshown, hshown'⟩, haddress⟩ := hlike
  obtain ⟨k, hidden, marked⟩ := o
  obtain ⟨l, hidden', marked'⟩ := p
  dsimp only at hkind hshown hshown' haddress
  subst hshown hshown' haddress
  cases hkind with
  | reg hwidth =>
    obtain ⟨htext, hrests⟩ := token_append_inj (Reg.isToken_text _) (Reg.isToken_text _)
      hrest.endsToken hrest'.endsToken h
    rw [Reg.eq_of_text_eq hwidth htext]
    exact ⟨rfl, hrests⟩
  | shifted hwidth shift m n =>
    rw [plainText_shifted, plainText_shifted, List.append_assoc, List.append_assoc] at h
    obtain ⟨htext, htails⟩ := token_append_inj (Reg.isToken_text _) (Reg.isToken_text _)
      (endsToken_shiftText shift m hrest) (endsToken_shiftText shift n hrest') h
    obtain ⟨rfl, hrests⟩ := eq_of_shiftText_eq hrest hrest' htails
    rw [Reg.eq_of_text_eq hwidth htext]
    exact ⟨rfl, hrests⟩
  | imm b c =>
    cases marked with
    | true =>
      rw [plainText_address, plainText_address] at h
      obtain ⟨htext, hrests⟩ := token_append_inj (Numeral.isToken_hex _) (Numeral.isToken_hex _)
        hrest.endsToken hrest'.endsToken h
      rw [BitVec.eq_of_toNat_eq (Numeral.hex_inj.mp htext)]
      exact ⟨rfl, hrests⟩
    | false =>
      rw [plainText_number, plainText_number] at h
      obtain ⟨htext, hrests⟩ := token_append_inj (Numeral.isToken_signedHex _)
        (Numeral.isToken_signedHex _) hrest.endsToken hrest'.endsToken (List.tail_eq_of_cons_eq h)
      rw [Numeral.signedHex_inj.mp htext]
      exact ⟨rfl, hrests⟩
  | mem hwidth b c size increment =>
    rw [plainText_mem, plainText_mem] at h
    obtain ⟨htext, htails⟩ := token_append_inj (Reg.isToken_text _) (Reg.isToken_text _)
      (endsToken_cellText increment b rest) (endsToken_cellText increment c rest')
      (by simpa using h)
    obtain ⟨rfl, hrests⟩ := eq_of_cellText_eq hrest hrest' htails
    rw [Reg.eq_of_text_eq hwidth htext]
    exact ⟨rfl, hrests⟩

/-- An operand does not begin like the name of a shift. -/
theorem exists_head_plainText {o p : Operand} (h : o.IsLike p) :
    ∃ c more, o.plainText.toList = c :: more ∧ c ≠ 'l' := by
  obtain ⟨hkind, -, -⟩ := h
  obtain ⟨k, hidden, marked⟩ := o
  obtain ⟨l, hidden', marked'⟩ := p
  dsimp only at hkind
  cases hkind with
  | @reg r q _ => exact r.exists_head_text
  | @shifted r q _ shift m n =>
    obtain ⟨c, more, htext, hc⟩ := r.exists_head_text
    exact ⟨c, more ++ (shiftText shift m).toList, by simp [plainText_shifted, htext], hc⟩
  | imm b c =>
    cases marked with
    | true =>
      rw [plainText_address]
      cases hdigits : (Numeral.hex b.toNat).toList with
      | nil => simp [Numeral.hex] at hdigits
      | cons d more =>
        have hdigit : ∀ c ∈ (Numeral.hex b.toNat).toList, c ≠ 'l' :=
          Numeral.forall_mem_hex (by decide) b.toNat
        exact ⟨d, more, rfl, hdigit d (by simp [hdigits])⟩
    | false => exact ⟨'#', _, plainText_number b hidden, by decide⟩
  | mem => exact ⟨'[', _, plainText_mem _ _ _ _ _ _, by decide⟩

/-- Lists of alike operands are known from the texts of the operands and separators between. -/
theorem eq_of_plainTexts_eq {os ps : List Operand} (hlike : List.Forall₂ IsLike os ps)
    (h : ", ".intercalate (os.map plainText) = ", ".intercalate (ps.map plainText)) : os = ps := by
  have hhead : ∀ o, o ∈ os ∨ o ∈ ps → ∃ c more, o.plainText.toList = c :: more ∧ c ≠ 'l' :=
    fun o ho => exists_head_plainText (isLike_self_of_forall₂ hlike ho)
  have htexts : [',', ' '].intercalate (os.map fun o => o.plainText.toList) =
      [',', ' '].intercalate (ps.map fun o => o.plainText.toList) := by
    simpa [String.toList_intercalate, Function.comp_def] using congrArg String.toList h
  refine Text.eq_of_intercalate_eq (P := EndsPrinted) (List.cons_ne_nil _ _) (.inl rfl)
    (fun o ho => ?_) (fun o ho rest => ?_) (fun o p hop rest rest' hrest hrest' => ?_) htexts
  · obtain ⟨c, more, htext, -⟩ := hhead o ho
    simp [htext]
  · obtain ⟨c, more, htext, hc⟩ := hhead o ho
    exact .inr ⟨c, more ++ rest, by simp [htext], hc⟩
  · exact eq_of_plainText_eq ((List.forall₂_iff_zip.mp hlike).2 hop) hrest hrest'

/-- The text of the operands that are shown, with what stands in front of them. -/
def plainTail (os : List Operand) : String :=
  (if os.isEmpty then "" else "\t") ++ ", ".intercalate (os.map plainText)

/-- Operands that are shown are seen. -/
theorem plainTail_nil_ne (o : Operand) (rest : List Operand) :
    plainTail [] ≠ plainTail (o :: rest) := by
  intro h
  simpa [plainTail] using congrArg String.toList h

/-- Lists of alike operands are known from the text behind the mnemonic. -/
theorem eq_of_plainTail_eq {os ps : List Operand} (hlike : List.Forall₂ IsLike os ps)
    (h : plainTail os = plainTail ps) : os = ps := by
  cases hlike with
  | nil => rfl
  | cons ho hrest =>
    exact eq_of_plainTexts_eq (.cons ho hrest) ((String.append_right_inj "\t").mp h)

end Operand

namespace InsnPrinter

/-- Without symbols and styles, an instruction is printed as its mnemonic and the texts of the
operands that are shown. -/
theorem insnText_plain {p : InsnPrinter} (hinsn : p.insnSeparator = .tab)
    (hoperand : p.operandSeparator = .text ", ") {i : Insn} {name : String}
    (hname : p.mnemonic i = some name) :
    p.insnText .plain i = .ok (name ++ Operand.plainTail i.printedOperands) := by
  have hoperands : i.printedOperands.mapM (operandText .plain) =
      .ok (i.printedOperands.map Operand.plainText) := by
    rw [show operandText .plain = fun o => pure o.plainText from
      funext Operand.operandText_plain, List.mapM_pure]
    rfl
  rw [insnText_eq hinsn hoperand hname, hoperands, ok_bind]
  match i.printedOperands with
  | [] => rfl
  | [o] => rfl
  | o :: next :: rest => rfl

end InsnPrinter

namespace Decoder

variable {d : Decoder} {s : Spec} {address : Address} {v w : Word} {i j : Insn}

/-- The operands of two instructions of one spec at one address are alike, before any is hidden. -/
theorem exists_alike_of_insnOf {position : Nat} (hi : d.insnOf s position address v = .ok i)
    (hj : d.insnOf s position address w = .ok j) :
    ∃ os ps, List.Forall₂ Operand.IsLike os ps ∧
      List.Forall₂ (fun a o => s.Admits v a o.kind) s.args os ∧
      i.operands = (if d.options.showAliases then hideLink s os else os) ∧
      j.operands = if d.options.showAliases then hideLink s ps else ps := by
  obtain ⟨made, hmade, hi⟩ := bind_eq_ok.mp hi
  obtain ⟨os, hos, hi⟩ := bind_eq_ok.mp hi
  obtain ⟨made', hmade', hj⟩ := bind_eq_ok.mp hj
  obtain ⟨ps, hps, hj⟩ := bind_eq_ok.mp hj
  cases hi
  cases hj
  obtain ⟨_, rfl, hadmits⟩ := Spec.admits_of_operandsFrom hmade
  have hlike := Spec.isLike_of_operandsFrom .nil hmade hmade'
  exact ⟨os, ps, Spec.isLike_of_fixUp hlike hos hps, Spec.admits_of_fixUp hos hadmits, rfl, rfl⟩

/-- Only the operand of a return is ever hidden. -/
theorem hideLink_of_ne (hname : s.name ≠ "ret") (os : List Operand) : hideLink s os = os := by
  cases os with
  | nil => rfl
  | cons first rest => rw [hideLink, if_neg hname]

/-- The operand of a return is hidden exactly if it is the link register. -/
theorem hideLink_of_eq (hname : s.name = "ret") (r : Reg) (isHidden isAddress : Bool) :
    hideLink s [{ kind := .reg r, isHidden, isAddress }] =
      [{ kind := .reg r, isHidden := r.name.index == 30, isAddress }] := by
  rw [hideLink, if_pos hname]
  rfl

/-- The registers of two returns are known from what is shown of them. -/
theorem eq_of_plainTail_hideLink (hname : s.name = "ret") {o p : Operand} (hlike : o.IsLike p)
    {r : Reg} (hr : o.kind = .reg r)
    (h : Operand.plainTail ((hideLink s [o]).filter fun o => !o.isHidden) =
      Operand.plainTail ((hideLink s [p]).filter fun o => !o.isHidden)) : o = p := by
  have hshow : o = p ∨ Operand.plainTail [o] ≠ Operand.plainTail [p] := by
    refine or_iff_not_imp_right.mpr fun hne => List.singleton_inj.mp ?_
    exact Operand.eq_of_plainTail_eq (.cons hlike .nil) (not_not.mp hne)
  obtain ⟨hkind, ⟨hshown, hshown'⟩, haddress⟩ := hlike
  obtain ⟨k, hidden, marked⟩ := o
  obtain ⟨l, hidden', marked'⟩ := p
  dsimp only at hkind hshown hshown' haddress hr
  subst hshown hshown' haddress hr
  cases hkind with
  | @reg r q hwidth =>
    rw [hideLink_of_eq hname, hideLink_of_eq hname] at h
    cases hr : r.name.index == 30 with
    | true =>
      cases hq : q.name.index == 30 with
      | true =>
        have hindex : r.name.index = q.name.index := by rw [eq_of_beq hr, eq_of_beq hq]
        have hsame := r.ofNumbers_index
        rw [hindex, hwidth, q.ofNumbers_index] at hsame
        rw [Except.ok.inj hsame]
      | false =>
        rw [hr, hq] at h
        exact absurd h (Operand.plainTail_nil_ne _ _)
    | false =>
      cases hq : q.name.index == 30 with
      | true =>
        rw [hr, hq] at h
        exact absurd h.symm (Operand.plainTail_nil_ne _ _)
      | false =>
        rw [hr, hq] at h
        exact hshow.resolve_right (not_not.mpr h)

/-- Two instructions of one built-in encoding at one address have the same operands if they are
printed alike behind the mnemonic. -/
theorem operands_eq_of_plainTail_eq {position : Nat} (hs : s ∈ Catalogue.specs)
    (hi : d.insnOf s position address v = .ok i) (hj : d.insnOf s position address w = .ok j)
    (h : Operand.plainTail i.printedOperands = Operand.plainTail j.printedOperands) :
    i.operands = j.operands := by
  obtain ⟨os, ps, hlike, hadmits, hi, hj⟩ := exists_alike_of_insnOf hi hj
  rw [Insn.printedOperands, Insn.printedOperands, hi, hj] at h
  rw [hi, hj]
  by_cases hret : d.options.showAliases = true ∧ s.name = "ret"
  · obtain ⟨halias, hname⟩ := hret
    obtain ⟨hargs, -⟩ := (Spec.agreesOnBranches_of_mem_catalogue hs).indirect
      (by simp [hname, indirectBranchNames])
    rw [if_pos halias, if_pos halias] at h ⊢
    rw [hargs] at hadmits
    obtain ⟨o, rfl⟩ := List.length_eq_one_iff.mp hadmits.length_eq.symm
    obtain ⟨p, rfl⟩ := List.length_eq_one_iff.mp hlike.length_eq.symm
    rw [List.forall₂_cons] at hlike hadmits
    obtain ⟨r, hr, -⟩ := hadmits.1
    rw [eq_of_plainTail_hideLink hname hlike.1 hr h]
  · have hnone : ∀ os, (if d.options.showAliases then hideLink s os else os) = os := by
      intro os
      split_ifs with halias
      · exact hideLink_of_ne (fun hname => hret ⟨halias, hname⟩) os
      · rfl
    have hshown : ∀ {shown : List Operand}, (∀ o ∈ shown, o.IsLike o) →
        (shown.filter fun o => !o.isHidden) = shown := by
      intro shown hself
      refine List.filter_eq_self.mpr fun o ho => ?_
      rw [(hself o ho).shown.1]
      rfl
    rw [hnone, hnone, hshown fun o ho => Operand.isLike_self_of_forall₂ hlike (.inl ho),
      hshown fun o ho => Operand.isLike_self_of_forall₂ hlike (.inr ho)] at h
    rw [hnone, hnone]
    exact Operand.eq_of_plainTail_eq hlike h

/-- An instruction of a built-in encoding is printed as its name and the operands that are shown. -/
theorem insnText_of_opcode {options : Options} {position : Nat} (hopcode : i.opcode = some position)
    (hs : Catalogue.specs[position]? = some s) :
    (builtin options).printer.insnText .plain i =
      .ok (s.name ++ Operand.plainTail i.printedOperands) :=
  InsnPrinter.insnText_plain rfl rfl (mnemonic?_builtin hopcode hs)

/-- Two instructions that the built-in decoder finds at the same address by the same encoding are
printed alike exactly if they have the same operands. -/
theorem text_identifies_operands {options : Options} {bytes bytes' : List UInt8}
    (hi : (builtin options).decode address bytes = .ok (.ok i))
    (hj : (builtin options).decode address bytes' = .ok (.ok j)) (hopcode : i.opcode = j.opcode) :
    ∃ text text', (builtin options).printer.insnText .plain i = .ok text ∧
      (builtin options).printer.insnText .plain j = .ok text' ∧
      (text = text' ↔ i.operands = j.operands) := by
  obtain ⟨position, s, -, hs, hi⟩ := exists_scan_of_decode_builtin hi
  obtain ⟨position', s', -, hs', hj⟩ := exists_scan_of_decode_builtin hj
  have hposition := (exists_operands_of_insnOf hi).1
  have hposition' := (exists_operands_of_insnOf hj).1
  obtain rfl : position = position' :=
    Option.some.inj (hposition.symm.trans (hopcode.trans hposition'))
  obtain rfl : s = s' := Option.some.inj (hs.symm.trans hs')
  refine ⟨_, _, insnText_of_opcode hposition hs, insnText_of_opcode hposition' hs, fun h => ?_,
    fun h => ?_⟩
  · exact operands_eq_of_plainTail_eq (List.mem_of_getElem? hs) hi hj
      ((String.append_right_inj s.name).mp h)
  · rw [Insn.printedOperands, Insn.printedOperands, h]

/-- A comparison with zero and one with zero moved up by twelve bits are printed alike, and so they
have the same operands. -/
theorem text_of_shifted_zero_identifies_operands :
    ∃ i j, (builtin {}).decode 0x1000 [0x1f, 0, 0, 0xf1] = .ok (.ok i) ∧
      (builtin {}).decode 0x1000 [0x1f, 0, 0x40, 0xf1] = .ok (.ok j) ∧ i.raw ≠ j.raw ∧
      (builtin {}).printer.insnText .plain i = .ok "cmp\tx0, #0x0" ∧
      (builtin {}).printer.insnText .plain j = .ok "cmp\tx0, #0x0" ∧
      i.operands = j.operands := by
  have hs : Catalogue.specs[2]? =
      some (Spec.ofArgs "cmp" (0x7100001f ||| Catalogue.wideBit) [.rn, .imm12] 0) := rfl
  have hscan : Table.scan? Catalogue.specs 0xf100001f = some 2 := rfl
  have hscan' : Table.scan? Catalogue.specs 0xf140001f = some 2 := rfl
  have hi : (builtin {}).decode 0x1000 [0x1f, 0, 0, 0xf1] = .ok (.ok _) :=
    decode_builtin_of_scan rfl hscan hs rfl
  have hj : (builtin {}).decode 0x1000 [0x1f, 0, 0x40, 0xf1] = .ok (.ok _) :=
    decode_builtin_of_scan rfl hscan' hs rfl
  obtain ⟨text, text', htext, htext', hiff⟩ := text_identifies_operands hi hj rfl
  have hzero := Except.ok.inj (htext.symm.trans (insnText_of_opcode rfl hs))
  have hzero' := Except.ok.inj (htext'.symm.trans (insnText_of_opcode rfl hs))
  have hshown : text = "cmp\tx0, #0x0" := hzero.trans (by decide)
  have hshown' : text' = "cmp\tx0, #0x0" := hzero'.trans (by decide)
  exact ⟨_, _, hi, hj, by decide, hshown ▸ htext, hshown' ▸ htext',
    hiff.mp (hshown.trans hshown'.symm)⟩

end Decoder

end A64Disassembler
