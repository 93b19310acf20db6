import A64Disassembler.Binding
import A64Disassembler.Proofs.Text.Token

/-!
# The text of an expression tells which one it is

Parentheses stand only around operators inside operators, constants may begin with a minus sign, and
the signs of two operators begin alike. Still no two expressions have the same text. An operand is
found at the start of a text: the name or number it begins with ends where the characters of names
and numbers end, and what follows tells a memory cell and an operator in parentheses from a mere
name or number. An operator between two operands is then found behind the first of them. Effects
that are written one after the other are told apart in the same way, so that a binding is known from
its text.
-/

namespace A64Disassembler

/-- Different operators have different signs. -/
theorem Op.sign_inj {o o' : Op} : o.sign = o'.sign ↔ o = o' := by
  cases o <;> cases o' <;> decide

/-- A sign is neither empty nor does it have a blank in it, nor does it begin with a letter. -/
theorem Op.sign_chars (o : Op) :
    (∀ c ∈ o.sign.toList, (c != ' ') = true) ∧ o.sign.toList.head? ≠ some 'p' ∧
      o.sign.toList ≠ [] := by
  refine ⟨List.all_eq_true.mp ?_, ?_, ?_⟩ <;> cases o <;> decide

namespace Expr

/-- Whether the registers of an expression have identifiers as names, other than the word for an
unknown value, and its memory cells have sizes with names of their own. -/
def IsLegible : Expr → Prop
  | const _ | unknown => True
  | sym name => isIdentifier name = true ∧ name ≠ "unknown"
  | mem ptr size => ptr.IsLegible ∧ size ∈ [1, 2, 4, 8, 16]
  | op _ lhs rhs => lhs.IsLegible ∧ rhs.IsLegible

section Operands

/-- The text of an expression as an operand. -/
def operandChars (e : Expr) : List Char :=
  (text.operandText e e.text).toList

/-- The name or number at the start of an operand. -/
def token : Expr → String
  | const value => Numeral.signedHex value
  | sym name => name
  | mem _ size => cellName size
  | op _ _ _ => ""
  | unknown => "unknown"

/-- What an operand has in brackets or in parentheses. -/
def enclosure : Expr → String
  | mem ptr _ => " ptr [" ++ ptr.text ++ "]"
  | op o lhs rhs => "(" ++ (op o lhs rhs).text ++ ")"
  | const _ | sym _ | unknown => ""

/-- An operand is written as its name or number and what it has in brackets. -/
theorem operandChars_eq (e : Expr) : e.operandChars = e.token.toList ++ e.enclosure.toList := by
  cases e <;> simp [operandChars, text.operandText, text, token, enclosure]

/-- What may stand behind an expression: something that ends a memory cell, an operand in
parentheses or an effect. -/
def EndsText (rest : List Char) : Prop :=
  ∀ c, rest.head? = some c → c ∈ [')', ']', ',']

/-- What may stand behind an operand: nothing that goes on with a name or a number, and nothing
that begins as a memory cell or an operand in parentheses does. -/
structure EndsOperand (rest : List Char) : Prop where
  token : EndsToken rest
  operator : rest.head? ≠ some '('
  cell : ¬ [' ', 'p'] <+: rest

variable {e e' : Expr} {rest rest' : List Char}

/-- What may stand behind an expression may stand behind an operand. -/
theorem EndsText.endsOperand (h : EndsText rest) : EndsOperand rest := by
  cases rest with
  | nil => exact ⟨endsToken_nil, by simp, by simp⟩
  | cons c rest =>
    obtain ⟨htoken, hoperator, hblank⟩ : isTokenChar c = false ∧ c ≠ '(' ∧ c ≠ ' ' := by
      have hc := h c rfl
      simp only [List.mem_cons, List.not_mem_nil, or_false] at hc
      rcases hc with rfl | rfl | rfl <;> decide
    refine ⟨endsToken_cons htoken rest, by simpa using hoperator, fun hcell => ?_⟩
    exact hblank (List.cons_prefix_cons.mp hcell).1.symm

/-- No blank stands behind an expression. -/
theorem EndsText.head_ne_blank (h : EndsText rest) : rest.head? ≠ some ' ' := by
  intro hhead
  exact absurd (h ' ' hhead) (by decide)

/-- A blank ends an operand if no memory cell follows. -/
theorem endsOperand_blank (h : rest.head? ≠ some 'p') : EndsOperand (' ' :: rest) := by
  refine ⟨endsToken_cons (by decide) rest, by simp, fun hcell => h ?_⟩
  obtain ⟨more, hmore⟩ := (List.cons_prefix_cons.mp hcell).2
  simp [← hmore]

/-- The names of memory cells differ from each other. -/
theorem cellName_inj {m n : UInt8} (hm : m ∈ ([1, 2, 4, 8, 16] : List UInt8))
    (hn : n ∈ ([1, 2, 4, 8, 16] : List UInt8)) (h : cellName m = cellName n) : m = n := by
  simp only [List.mem_cons, List.not_mem_nil, or_false] at hm hn
  rcases hm with rfl | rfl | rfl | rfl | rfl <;> rcases hn with rfl | rfl | rfl | rfl | rfl <;>
    first
    | rfl
    | exact absurd h (by decide)

/-- The name of a memory cell is a token. -/
theorem isToken_cellName (size : UInt8) : IsToken (cellName size) := by
  unfold cellName
  split <;> decide

/-- What an operand begins with is a token. -/
theorem isToken_token (he : e.IsLegible) : IsToken e.token := by
  cases e with
  | const value => exact Numeral.isToken_signedHex value
  | sym name => exact isToken_of_isIdentifier he.1
  | mem ptr size => exact isToken_cellName size
  | op o lhs rhs => simp [token, IsToken]
  | unknown => exact isToken_of_isIdentifier (by decide)

/-- What stands behind the name or number of an operand does not go on with it. -/
theorem endsToken_enclosure (hrest : EndsOperand rest) :
    EndsToken (e.enclosure.toList ++ rest) := by
  cases e with
  | const | sym | unknown => simpa [enclosure] using hrest.token
  | mem => simpa [enclosure] using endsToken_cons (by decide) _
  | op => simpa [enclosure] using endsToken_cons (by decide) _

/-- Operands begin with the same name or number, and have the same behind it, if their texts are the
same with what ends them. -/
theorem token_eq_of_operandChars_eq (he : e.IsLegible) (he' : e'.IsLegible)
    (hrest : EndsOperand rest) (hrest' : EndsOperand rest')
    (h : e.operandChars ++ rest = e'.operandChars ++ rest') :
    e.token = e'.token ∧ e.enclosure.toList ++ rest = e'.enclosure.toList ++ rest' := by
  rw [operandChars_eq, operandChars_eq, List.append_assoc, List.append_assoc] at h
  exact token_append_inj (isToken_token he) (isToken_token he') (endsToken_enclosure hrest)
    (endsToken_enclosure hrest') h

/-- Whether an expression is known from its text as an operand. -/
def IsToldByOperand (e : Expr) : Prop :=
  ∀ e' rest rest', e'.IsLegible → EndsOperand rest → EndsOperand rest' →
    e.operandChars ++ rest = e'.operandChars ++ rest' → e = e' ∧ rest = rest'

/-- Whether an expression is known from its text. -/
def IsToldByText (e : Expr) : Prop :=
  ∀ e' rest rest', e'.IsLegible → EndsText rest → EndsText rest' →
    e.text.toList ++ rest = e'.text.toList ++ rest' → e = e' ∧ rest = rest'

/-- Whether an expression is a name or a number. -/
def IsAtom : Expr → Prop
  | const _ | sym _ | unknown => True
  | mem _ _ | op _ _ _ => False

/-- Names and numbers differ from each other. -/
theorem token_inj (he : e.IsLegible) (he' : e'.IsLegible) (hatom : e.IsAtom) (hatom' : e'.IsAtom)
    (h : e.token = e'.token) : e = e' := by
  have hunknown : isIdentifier "unknown" = true := by decide
  have hnumber : ∀ {value : BitVec 64} {name : String}, Numeral.signedHex value = name →
      isIdentifier name ≠ true := fun {value} name h => by
    rw [← h, Numeral.isIdentifier_signedHex]
    exact Bool.false_ne_true
  cases e with
  | const value =>
    cases e' with
    | const value' => rw [Numeral.signedHex_inj.mp h]
    | sym name => exact absurd he'.1 (hnumber h)
    | unknown => exact absurd hunknown (hnumber h)
    | mem | op => exact hatom'.elim
  | sym name =>
    cases e' with
    | const value => exact absurd he.1 (hnumber h.symm)
    | sym name' => exact congrArg sym h
    | unknown => exact absurd h he.2
    | mem | op => exact hatom'.elim
  | unknown =>
    cases e' with
    | const value => exact absurd hunknown (hnumber h.symm)
    | sym name => exact absurd h.symm he'.2
    | unknown => rfl
    | mem | op => exact hatom'.elim
  | mem | op => exact hatom.elim

/-- A name or number is known from its text. -/
theorem isToldByOperand_of_isAtom (he : e.IsLegible) (hatom : e.IsAtom) : e.IsToldByOperand := by
  intro e' rest rest' he' hrest hrest' h
  obtain ⟨htoken, henclosure⟩ := token_eq_of_operandChars_eq he he' hrest hrest' h
  have hnone : e.enclosure.toList = [] := by
    cases e with
    | const | sym | unknown => rfl
    | mem | op => exact hatom.elim
  rw [hnone, List.nil_append] at henclosure
  cases e' with
  | const | sym | unknown => exact ⟨token_inj he he' hatom trivial htoken, henclosure⟩
  | mem ptr size => exact absurd (by simp [henclosure, enclosure]) hrest.cell
  | op o lhs rhs => exact absurd (by simp [henclosure, enclosure]) hrest.operator

/-- A memory cell is known from its text if its pointer is. -/
theorem isToldByOperand_mem {ptr : Expr} {size : UInt8} (he : (mem ptr size).IsLegible)
    (hptr : ptr.IsToldByText) : (mem ptr size).IsToldByOperand := by
  intro e' rest rest' he' hrest hrest' h
  obtain ⟨htoken, henclosure⟩ := token_eq_of_operandChars_eq he he' hrest hrest' h
  cases e' with
  | const | sym | unknown =>
    simp only [enclosure, String.toList_empty, List.nil_append] at henclosure
    exact absurd (by simp [← henclosure]) hrest'.cell
  | mem ptr' size' =>
    have hinner : ptr.text.toList ++ (']' :: rest) = ptr'.text.toList ++ (']' :: rest') := by
      simpa [enclosure] using henclosure
    obtain ⟨rfl, hrests⟩ := hptr ptr' _ _ he'.1 (by simp [EndsText]) (by simp [EndsText]) hinner
    rw [cellName_inj he.2 he'.2 htoken]
    exact ⟨rfl, List.tail_eq_of_cons_eq hrests⟩
  | op o lhs rhs => simp [enclosure] at henclosure

/-- An operator in parentheses is known from its text if it is known without them. -/
theorem isToldByOperand_op {o : Op} {lhs rhs : Expr} (he : (op o lhs rhs).IsLegible)
    (htext : (op o lhs rhs).IsToldByText) : (op o lhs rhs).IsToldByOperand := by
  intro e' rest rest' he' hrest hrest' h
  obtain ⟨-, henclosure⟩ := token_eq_of_operandChars_eq he he' hrest hrest' h
  cases e' with
  | const | sym | unknown =>
    simp only [enclosure, String.toList_empty, List.nil_append] at henclosure
    exact absurd (by simp [← henclosure]) hrest'.operator
  | mem ptr size => simp [enclosure] at henclosure
  | op o' lhs' rhs' =>
    have hinner : (op o lhs rhs).text.toList ++ (')' :: rest) =
        (op o' lhs' rhs').text.toList ++ (')' :: rest') := by
      simpa [enclosure] using henclosure
    obtain ⟨hop, hrests⟩ := htext _ _ _ he' (by simp [EndsText]) (by simp [EndsText]) hinner
    exact ⟨hop, List.tail_eq_of_cons_eq hrests⟩

end Operands

section Operators

variable {e e' : Expr} {rest rest' : List Char}

/-- The text of an operator is that of its operands with its sign between blanks. -/
theorem text_op_append (o : Op) (lhs rhs : Expr) (rest : List Char) :
    (op o lhs rhs).text.toList ++ rest =
      lhs.operandChars ++ (' ' :: (o.sign.toList ++ (' ' :: (rhs.operandChars ++ rest)))) := by
  simp [text, operandChars]

/-- A sign ends the operand in front of it. -/
theorem endsOperand_sign (o : Op) (rest : List Char) :
    EndsOperand (' ' :: (o.sign.toList ++ rest)) := by
  obtain ⟨-, hhead, hne⟩ := o.sign_chars
  refine endsOperand_blank ?_
  rwa [List.head?_append_of_ne_nil _ hne]

/-- Without parentheses, an operand is known as an expression if it is known as an operand. -/
theorem isToldByText_of_isToldByOperand (htext : e.text.toList = e.operandChars)
    (he : e.IsToldByOperand) : e.IsToldByText := by
  intro e' rest rest' he' hrest hrest' h
  rw [htext] at h
  cases e' with
  | const | sym | mem | unknown => exact he _ _ _ he' hrest.endsOperand hrest'.endsOperand h
  | op o lhs rhs =>
    rw [text_op_append] at h
    obtain ⟨-, hrests⟩ := he _ _ _ he'.1 hrest.endsOperand (endsOperand_sign o _) h
    exact absurd (by simp [hrests]) hrest.head_ne_blank

/-- An operator is known from its text if its operands are. -/
theorem isToldByText_op {o : Op} {lhs rhs : Expr} (hlhs : lhs.IsToldByOperand)
    (hrhs : rhs.IsToldByOperand) : (op o lhs rhs).IsToldByText := by
  intro e' rest rest' he' hrest hrest' h
  rw [text_op_append] at h
  cases e' with
  | const | sym | mem | unknown =>
    -- Nothing but an operator goes on with a blank.
    obtain ⟨-, hrests⟩ := hlhs _ _ _ he' (endsOperand_sign o _) hrest'.endsOperand h
    exact absurd (by simp [← hrests]) hrest'.head_ne_blank
  | op o' lhs' rhs' =>
    rw [text_op_append] at h
    obtain ⟨rfl, hsigns⟩ := hlhs _ _ _ he'.1 (endsOperand_sign o _) (endsOperand_sign o' _) h
    obtain ⟨hsign, hrests⟩ := Text.append_inj_of_all o.sign_chars.1 o'.sign_chars.1
      (by simp) (by simp) (List.tail_eq_of_cons_eq hsigns)
    obtain ⟨rfl, hends⟩ := hrhs _ _ _ he'.2 hrest.endsOperand hrest'.endsOperand
      (List.tail_eq_of_cons_eq hrests)
    rw [Op.sign_inj.mp (String.toList_injective hsign)]
    exact ⟨rfl, hends⟩

/-- Expressions are known from their texts, as operands or by themselves. -/
theorem isTold (he : e.IsLegible) : e.IsToldByOperand ∧ e.IsToldByText := by
  induction e with
  | const | sym | unknown =>
    have hoperand := isToldByOperand_of_isAtom he trivial
    exact ⟨hoperand, isToldByText_of_isToldByOperand rfl hoperand⟩
  | mem ptr size ih =>
    have hoperand := isToldByOperand_mem he (ih he.1).2
    exact ⟨hoperand, isToldByText_of_isToldByOperand rfl hoperand⟩
  | op o lhs rhs ihl ihr =>
    have htext := isToldByText_op (o := o) (ihl he.1).1 (ihr he.2).1
    exact ⟨isToldByOperand_op he htext, htext⟩

end Operators

end Expr

section Effects

/-- Whether the location and the value of an effect are legible. -/
def IsLegibleEffect (effect : Location × Expr) : Prop :=
  effect.1.toExpr.IsLegible ∧ effect.2.IsLegible

/-- Whether all effects of a binding are legible. -/
def Binding.IsLegible (b : Binding) : Prop :=
  ∀ effect ∈ b.effects, IsLegibleEffect effect

/-- Locations are known from their expressions. -/
theorem Location.toExpr_inj {l l' : Location} (h : l.toExpr = l'.toExpr) : l = l' := by
  cases l <;> cases l' <;> simp_all [toExpr]

/-- What stands in the text of a binding: its effects and the mark of an incomplete one. -/
def Binding.entries (b : Binding) : List (Option (Location × Expr)) :=
  b.effects.map some ++ if b.isIncomplete then [none] else []

/-- The text of an effect or of the mark. -/
def entryText : Option (Location × Expr) → String
  | some (l, v) => l.text ++ " = " ++ v.text
  | none => "incomplete"

/-- The text of a binding joins the texts of its entries by commas. -/
theorem Binding.text_eq (b : Binding) :
    b.text.toList =
      [',', ' '].intercalate (b.entries.map fun entry => (entryText entry).toList) := by
  unfold text entries
  split <;> simp [String.toList_intercalate, entryText, Function.comp_def]

/-- The effects and the mark of a binding are known from what stands in its text. -/
theorem Binding.entries_inj {b b' : Binding} (h : b.entries = b'.entries) :
    b.effects = b'.effects ∧ b.isIncomplete = b'.isIncomplete := by
  have heffects : ∀ b : Binding, b.entries.filterMap id = b.effects := by
    intro b
    unfold entries
    split <;> simp
  have hmark : ∀ b : Binding, none ∈ b.entries ↔ b.isIncomplete = true := by
    intro b
    unfold entries
    split <;> simp [*]
  refine ⟨by rw [← heffects, h, heffects], ?_⟩
  rw [Bool.eq_iff_iff, ← hmark, h, hmark]

/-- The text of an effect begins with the location as an operand. -/
theorem entryText_some_append (l : Location) (v : Expr) (rest : List Char) :
    (entryText (some (l, v))).toList ++ rest =
      l.toExpr.operandChars ++ (' ' :: '=' :: ' ' :: (v.text.toList ++ rest)) := by
  cases l <;> simp [entryText, Location.text, Location.toExpr, Expr.operandChars,
    Expr.text.operandText]

/-- No entry has an empty text. -/
theorem entryText_ne_nil (entry : Option (Location × Expr)) : (entryText entry).toList ≠ [] := by
  cases entry with
  | some effect => simp [entryText]
  | none => simp [entryText]

variable {rest rest' : List Char}

/-- The mark of an incomplete binding is not the beginning of an effect. -/
theorem entryText_none_append_ne {l : Location} {v : Expr} (hl : l.toExpr.IsLegible)
    (hrest : Expr.EndsText rest) :
    (entryText none).toList ++ rest ≠ (entryText (some (l, v))).toList ++ rest' := by
  intro h
  -- The mark is read like a register of that name, which no equals sign follows.
  have hmark : (Expr.sym "incomplete").IsLegible := ⟨by decide, by decide⟩
  rw [entryText_some_append] at h
  obtain ⟨-, hrests⟩ := (Expr.isTold hmark).1 _ _ _ hl hrest.endsOperand
    (Expr.endsOperand_blank (by simp)) h
  exact hrest.head_ne_blank (by simp [hrests])

/-- An effect and the mark are known from their texts. -/
theorem entry_eq_of_text_eq {entry entry' : Option (Location × Expr)}
    (hentry : ∀ effect ∈ entry, IsLegibleEffect effect)
    (hentry' : ∀ effect ∈ entry', IsLegibleEffect effect)
    (hrest : Expr.EndsText rest) (hrest' : Expr.EndsText rest')
    (h : (entryText entry).toList ++ rest = (entryText entry').toList ++ rest') :
    entry = entry' ∧ rest = rest' := by
  cases entry with
  | none =>
    cases entry' with
    | none => exact ⟨rfl, List.append_cancel_left h⟩
    | some effect =>
      exact absurd h (entryText_none_append_ne (hentry' effect rfl).1 hrest)
  | some effect =>
    obtain ⟨hlocation, hvalue⟩ := hentry effect rfl
    cases entry' with
    | none => exact absurd h.symm (entryText_none_append_ne hlocation hrest')
    | some effect' =>
      obtain ⟨hlocation', hvalue'⟩ := hentry' effect' rfl
      rw [entryText_some_append, entryText_some_append] at h
      obtain ⟨hl, hvalues⟩ := (Expr.isTold hlocation).1 _ _ _ hlocation'
        (Expr.endsOperand_blank (by simp)) (Expr.endsOperand_blank (by simp)) h
      obtain ⟨hv, hrests⟩ := (Expr.isTold hvalue).2 _ _ _ hvalue' hrest hrest'
        (by simpa using hvalues)
      exact ⟨congrArg some (Prod.ext (Location.toExpr_inj hl) hv), hrests⟩

/-- A binding is known from its text. -/
theorem Binding.eq_of_text_eq {b b' : Binding} (hb : b.IsLegible) (hb' : b'.IsLegible)
    (h : b.text = b'.text) : b.effects = b'.effects ∧ b.isIncomplete = b'.isIncomplete := by
  have hentries : ∀ {b : Binding}, b.IsLegible → ∀ entry ∈ b.entries, ∀ effect ∈ entry,
      IsLegibleEffect effect := by
    intro b hb entry hentry effect heffect
    obtain rfl := heffect
    refine hb effect ?_
    unfold entries at hentry
    split at hentry <;> simpa using hentry
  have htexts := congrArg String.toList h
  rw [text_eq, text_eq] at htexts
  refine entries_inj (Text.eq_of_intercalate_eq (P := Expr.EndsText) (List.cons_ne_nil _ _)
    (by simp [Expr.EndsText]) (fun entry _ => entryText_ne_nil entry)
    (fun entry _ rest => by simp [Expr.EndsText])
    (fun entry entry' hpair rest rest' hrest hrest' htext => ?_) htexts)
  obtain ⟨hentry, hentry'⟩ := List.of_mem_zip hpair
  exact entry_eq_of_text_eq (hentries hb entry hentry) (hentries hb' entry' hentry') hrest hrest'
    htext

end Effects

/-- No two expressions have the same text, if their registers have identifiers as names and their
memory cells have the sizes of machine accesses, and no two bindings over such locations and values
do. -/
theorem texts_are_unambiguous :
    (∀ e e' : Expr, e.IsLegible → e'.IsLegible → e.text = e'.text → e = e') ∧
      ∀ b b' : Binding, b.IsLegible → b'.IsLegible → b.text = b'.text →
        b.effects = b'.effects ∧ b.isIncomplete = b'.isIncomplete := by
  refine ⟨fun e e' he he' h => ?_, fun b b' hb hb' h => Binding.eq_of_text_eq hb hb' h⟩
  have hnone : Expr.EndsText [] := by simp [Expr.EndsText]
  exact ((Expr.isTold he).2 e' [] [] he' hnone hnone (by rw [h])).1

/-- Effects that are recorded in different orders are the same, and a number may be written in
different ways, as the texts show. -/
theorem texts_of_effects_in_any_order :
    let cell : Location := .mem (.op .sub (.sym "x1") (.const (-8))) 8
    let value : Expr := .op .sar (.op .and (.sym "x2") (.sym "x3")) (.const 4)
    let b := ((Binding.empty.set cell value).set (.reg "sp") (.sym "x0")).markIncomplete
    let b' := ((Binding.empty.set (.reg "sp") (.sym "x0")).set cell value).markIncomplete
    b.text = "sp = x0, qword ptr [x1 - -0x8] = (x2 & x3) >>> 0x4, incomplete" ∧
      b'.text = b.text ∧ b.effects = b'.effects ∧ b.isIncomplete = b'.isIncomplete ∧
      cell.toExpr = .mem (.op .sub (.sym "x1") (.const 0xfffffffffffffff8)) 8 := by
  intro cell value b b'
  have htext : b.text = "sp = x0, qword ptr [x1 - -0x8] = (x2 & x3) >>> 0x4, incomplete" := by
    decide
  have htext' : b'.text = b.text := by decide
  have hlegible : ∀ name ∈ ["x0", "x1", "x2", "x3", "sp"], isIdentifier name = true ∧
      name ≠ "unknown" := by decide
  have hcell : cell.toExpr.IsLegible :=
    ⟨⟨hlegible "x1" (by decide), trivial⟩, by decide⟩
  have hvalue : value.IsLegible :=
    ⟨⟨hlegible "x2" (by decide), hlegible "x3" (by decide)⟩, trivial⟩
  have hregister : IsLegibleEffect (.reg "sp", .sym "x0") :=
    ⟨hlegible "sp" (by decide), hlegible "x0" (by decide)⟩
  have heffects : b.effects = [(.reg "sp", .sym "x0"), (cell, value)] := by decide
  have heffects' : b'.effects = [(.reg "sp", .sym "x0"), (cell, value)] := by decide
  have hb : ∀ {b : Binding}, b.effects = [(.reg "sp", .sym "x0"), (cell, value)] →
      b.IsLegible := by
    intro b hb
    rw [Binding.IsLegible, hb]
    simp only [List.forall_mem_cons]
    exact ⟨hregister, ⟨hcell, hvalue⟩, by simp⟩
  obtain ⟨hsame, hmark⟩ := texts_are_unambiguous.2 b b' (hb heffects) (hb heffects') htext'.symm
  exact ⟨htext, htext', hsame, hmark,
    texts_are_unambiguous.1 _ _ hcell ⟨⟨hlegible "x1" (by decide), trivial⟩, by decide⟩ (by decide)⟩

end A64Disassembler
