import A64Disassembler.Proofs.Text.Numeral

/-!
# Names and numbers inside of texts

Names and signed numbers are made of letters, digits and minus signs. Whatever else stands in a text
ends them, so that a name or a number at the start of a text is known from the text.
-/

namespace A64Disassembler

/-- Whether a character is a letter. All characters outside of ASCII count as letters, those of
other alphabets among them. -/
def isLetter (c : Char) : Bool :=
  c.isAlpha || 128 ≤ c.toNat

/-- Whether a name is a letter that is followed by letters and digits. -/
def isIdentifier (name : String) : Bool :=
  match name.toList with
  | [] => false
  | first :: rest => isLetter first && rest.all fun c => isLetter c || c.isDigit

/-- Whether a character may stand in a name or in a signed number. -/
def isTokenChar (c : Char) : Bool :=
  isLetter c || c.isDigit || c == '-'

/-- A text of characters that stand in names and in signed numbers. -/
def IsToken (text : String) : Prop :=
  ∀ c ∈ text.toList, isTokenChar c = true

/-- What may stand behind a name or a number, which does not go on with it. -/
def EndsToken (rest : List Char) : Prop :=
  ∀ c, rest.head? = some c → isTokenChar c = false

-- The characters of the text are tried out, and not all characters there are.
instance (text : String) : Decidable (IsToken text) :=
  List.decidableBAll _ _

/-- A text is a token with another one behind it exactly if both are. -/
@[simp] theorem isToken_append {a b : String} : IsToken (a ++ b) ↔ IsToken a ∧ IsToken b := by
  simp only [IsToken, String.toList_append, List.forall_mem_append]

/-- Nothing goes on at the end of a text. -/
theorem endsToken_nil : EndsToken [] := by
  simp [EndsToken]

/-- A character that stands neither in names nor in numbers ends them. -/
theorem endsToken_cons {c : Char} (h : isTokenChar c = false) (rest : List Char) :
    EndsToken (c :: rest) := by
  simpa [EndsToken] using h

/-- A name or a number is known from a text that begins with it. -/
theorem token_append_inj {a b : String} {rest rest' : List Char} (ha : IsToken a) (hb : IsToken b)
    (hrest : EndsToken rest) (hrest' : EndsToken rest') (h : a.toList ++ rest = b.toList ++ rest') :
    a = b ∧ rest = rest' := by
  obtain ⟨htokens, hrests⟩ := Text.append_inj_of_all ha hb hrest hrest' h
  exact ⟨String.toList_injective htokens, hrests⟩

/-- An identifier is a token. -/
theorem isToken_of_isIdentifier {name : String} (h : isIdentifier name = true) : IsToken name := by
  intro c hc
  unfold isIdentifier at h
  cases hname : name.toList with
  | nil => simp [hname] at hc
  | cons first rest =>
    rw [hname, Bool.and_eq_true, List.all_eq_true] at h
    rw [hname] at hc
    unfold isTokenChar
    rcases List.mem_cons.mp hc with rfl | hc
    · rw [h.1, Bool.true_or, Bool.true_or]
    · rw [h.2 c hc, Bool.true_or]

namespace Numeral

/-- A digit may stand in a name or in a number. -/
theorem isTokenChar_digitChar : ∀ d : Fin 16, isTokenChar (Nat.digitChar d) = true := by
  decide

/-- A hexadecimal number is a token. -/
theorem isToken_hex (n : Nat) : IsToken (hex n) :=
  forall_mem_hex isTokenChar_digitChar n

/-- A decimal number is a token. -/
theorem isToken_repr (n : Nat) : IsToken (Nat.repr n) :=
  forall_mem_repr isTokenChar_digitChar n

/-- A signed hexadecimal number is a token. -/
theorem isToken_signedHex (value : BitVec 64) : IsToken (signedHex value) :=
  forall_mem_signed (forall_mem_prefixedHex isTokenChar_digitChar (by decide)) (by decide) value

/-- A signed decimal number is a token. -/
theorem isToken_signedDecimal (value : BitVec 64) : IsToken (signedDecimal value) :=
  forall_mem_signed isToken_repr (by decide) value

/-- A signed number is no identifier. -/
theorem isIdentifier_signedHex (value : BitVec 64) : isIdentifier (signedHex value) = false := by
  unfold signedHex
  split
  · simp [isIdentifier, isLetter]
  · simp [isIdentifier, isLetter, prefixedHex]

end Numeral

end A64Disassembler
