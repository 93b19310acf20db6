import A64Disassembler.Proofs.Text.Words
import A64Disassembler.Text.Numeral
import Mathlib.Algebra.Group.Nat.Defs
import Mathlib.Data.Nat.Digits.Defs
import Mathlib.Tactic.SplitIfs

/-!
# Numbers read from digits

A number that is written with few digits is small, so that up to sixteen hexadecimal digits are
always a number of 64 bits, which is the sum of their values at their places. More digits are one as
well if all but the last sixteen are zeroes, and only then. The digits of a number are read as that
number, also with zeroes in front of them, so that different numbers never have the same text, with
a sign or without one.
-/

namespace A64Disassembler.Numeral

/-- A hexadecimal digit is a decimal digit or one of six letters. -/
theorem range_of_hexDigit? {c : Char} (h : (hexDigit? c).isSome) :
    (48 ≤ c.toNat ∧ c.toNat ≤ 57) ∨ (97 ≤ c.toNat ∧ c.toNat ≤ 102) ∨
      (65 ≤ c.toNat ∧ c.toNat ≤ 70) := by
  unfold hexDigit? at h
  split_ifs at h with hdecimal hlower hupper
  · exact .inl hdecimal
  · exact .inr (.inl hlower)
  · exact .inr (.inr hupper)
  · cases h

/-- Hexadecimal digits have no blanks between them. -/
theorem isSolid_of_hexDigits {text : List Char} (hne : text ≠ [])
    (hdigits : ∀ c ∈ text, (hexDigit? c).isSome) : Text.IsSolid text := by
  refine ⟨hne, fun c hc => ?_⟩
  have hrange := range_of_hexDigit? (hdigits c hc)
  simp only [Text.isBlank, Text.blankCodes, List.contains_eq_mem, decide_eq_false_iff_not,
    List.mem_cons, List.not_mem_nil, or_false]
  omega

/-- The value of a hexadecimal digit is smaller than sixteen. -/
theorem hexDigit?_lt {c : Char} {d : Nat} (h : hexDigit? c = some d) : d < 16 := by
  unfold hexDigit? at h
  split_ifs at h with hdecimal hlower hupper
  all_goals
    obtain rfl := Option.some.inj h
  · have hle : c.toNat ≤ '9'.toNat := hdecimal.2
    simp only [Char.reduceToNat] at *
    omega
  · have hle : c.toNat ≤ 'f'.toNat := hlower.2
    simp only [Char.reduceToNat] at *
    omega
  · have hle : c.toNat ≤ 'F'.toNat := hupper.2
    simp only [Char.reduceToNat] at *
    omega

/-- The only hexadecimal digit of value zero is the zero. -/
theorem hexDigit?_eq_zero {c : Char} : hexDigit? c = some 0 ↔ c = '0' := by
  constructor
  · intro h
    unfold hexDigit? at h
    split_ifs at h with hdecimal hlower hupper
    · have hle : '0'.toNat ≤ c.toNat := hdecimal.1
      have heq : c.toNat - '0'.toNat = 0 := Option.some.inj h
      exact Char.toNat_inj.mp (by omega)
    · simp at h
    · simp at h
  · rintro rfl
    rfl

variable {base : Nat} {digit? : Char → Option Nat} {digits : List Char}

/-- Digits after a number multiply it by the base for each of them and add less than that. -/
theorem exists_foldl_digits (hdigits : ∀ c ∈ digits, ∃ d, digit? c = some d ∧ d < base)
    (value : Nat) :
    ∃ n, digits.foldl (fun value c => do return (← value) * base + (← digit? c)) (some value) =
        some n ∧
      value * base ^ digits.length ≤ n ∧ n < (value + 1) * base ^ digits.length := by
  induction digits generalizing value with
  | nil => exact ⟨value, rfl, by simp⟩
  | cons c rest ih =>
    obtain ⟨⟨d, hd, hlt⟩, hrest⟩ := List.forall_mem_cons.mp hdigits
    obtain ⟨n, hn, hle, hnlt⟩ := ih hrest (value * base + d)
    refine ⟨n, by rw [List.foldl_cons, hd]; exact hn, ?_, Nat.lt_of_lt_of_le hnlt ?_⟩
    · refine Nat.le_trans ?_ hle
      rw [List.length_cons, Nat.pow_succ', ← Nat.mul_assoc]
      exact Nat.mul_le_mul_right _ (Nat.le_add_right _ d)
    · rw [List.length_cons, Nat.pow_succ', ← Nat.mul_assoc]
      refine Nat.mul_le_mul_right _ ?_
      rw [Nat.add_mul, Nat.one_mul, Nat.add_assoc]
      omega

/-- A number is zero if and only if it has no digit but zeroes. -/
theorem foldl_digits_eq_zero (hbase : 0 < base)
    (hdigits : ∀ c ∈ digits, ∃ d, digit? c = some d ∧ d < base) {value n : Nat}
    (h : digits.foldl (fun value c => do return (← value) * base + (← digit? c)) (some value) =
      some n) :
    n = 0 ↔ value = 0 ∧ ∀ c ∈ digits, digit? c = some 0 := by
  induction digits generalizing value with
  | nil =>
    obtain rfl := Option.some.inj h
    simp
  | cons c rest ih =>
    obtain ⟨⟨d, hd, hlt⟩, hrest⟩ := List.forall_mem_cons.mp hdigits
    rw [List.foldl_cons, hd] at h
    rw [ih hrest h, List.forall_mem_cons, hd, Option.some.injEq, Nat.add_eq_zero_iff,
      Nat.mul_eq_zero, or_iff_left (Nat.ne_of_gt hbase), and_assoc]

variable {text : List Char}

/-- Hexadecimal digits are read as what they stand for, if it has 64 bits. -/
theorem readHex?_of_digits (hne : text ≠ []) (hdigits : ∀ c ∈ text, (hexDigit? c).isSome) {n : Nat}
    (hn : ofDigits? 16 hexDigit? text = some n) :
    readHex? text = if n < sizeLimit then some (BitVec.ofNat 64 n) else none := by
  cases text with
  | nil => exact absurd rfl hne
  | cons c rest =>
    -- No plus sign is cut off, because a plus sign is no digit.
    have hplus : c ≠ '+' := by
      rintro rfl
      have hdigit := hdigits '+' List.mem_cons_self
      cases hdigit
    simp [readHex?, read?, hplus, hn]

/-- Hexadecimal digits are read as a number if what they stand for has 64 bits. -/
theorem isSome_readHex?_of_digits (hne : text ≠ []) (hdigits : ∀ c ∈ text, (hexDigit? c).isSome)
    {n : Nat} (hn : ofDigits? 16 hexDigit? text = some n) :
    (readHex? text).isSome ↔ n < sizeLimit := by
  rw [readHex?_of_digits hne hdigits hn]
  split_ifs with hlimit <;> simp [hlimit]

/-- Every hexadecimal digit has a value below sixteen. -/
theorem exists_hexDigit? (hdigits : ∀ c ∈ text, (hexDigit? c).isSome) :
    ∀ c ∈ text, ∃ d, hexDigit? c = some d ∧ d < 16 := by
  intro c hc
  obtain ⟨d, hd⟩ := Option.isSome_iff_exists.mp (hdigits c hc)
  exact ⟨d, hd, hexDigit?_lt hd⟩

/-- Up to sixteen hexadecimal digits are a number of 64 bits. -/
theorem isSome_readHex?_of_length_le (hne : text ≠ [])
    (hdigits : ∀ c ∈ text, (hexDigit? c).isSome) (hlength : text.length ≤ 16) :
    (readHex? text).isSome := by
  obtain ⟨n, hn, -, hlt⟩ := exists_foldl_digits (exists_hexDigit? hdigits) 0
  rw [isSome_readHex?_of_digits hne hdigits hn]
  calc
    n < 1 * 16 ^ text.length := by simpa using hlt
    _ ≤ 1 * 16 ^ 16 := Nat.mul_le_mul_left 1 (Nat.pow_le_pow_right (by decide) hlength)
    _ = sizeLimit := rfl

/-- More than sixteen hexadecimal digits are a number of 64 bits if and only if only the last
sixteen matter. -/
theorem isSome_readHex?_iff (hdigits : ∀ c ∈ text, (hexDigit? c).isSome)
    (hlength : 16 < text.length) :
    (readHex? text).isSome ↔ ∀ c ∈ text.take (text.length - 16), c = '0' := by
  obtain ⟨front, back, rfl, hback⟩ : ∃ front back, text = front ++ back ∧ back.length = 16 :=
    ⟨text.take (text.length - 16), text.drop (text.length - 16), by simp,
      by rw [List.length_drop]; omega⟩
  have hlast : front ++ back ≠ [] := List.ne_nil_of_length_pos (by omega)
  obtain ⟨hfront, hrest⟩ := List.forall_mem_append.mp (exists_hexDigit? hdigits)
  obtain ⟨high, hhigh, -, -⟩ := exists_foldl_digits hfront 0
  obtain ⟨n, hn, hle, hlt⟩ := exists_foldl_digits hrest high
  have hvalue : ofDigits? 16 hexDigit? (front ++ back) = some n := by
    rw [ofDigits?, List.foldl_append, hhigh, hn]
  have htake : (front ++ back).take ((front ++ back).length - 16) = front := by
    rw [List.length_append, hback, Nat.add_sub_cancel, List.take_left]
  rw [isSome_readHex?_of_digits hlast hdigits hvalue, htake]
  calc
    n < sizeLimit ↔ high = 0 := by
      rw [hback] at hle hlt
      have hlimit : sizeLimit = 16 ^ 16 := rfl
      omega
    _ ↔ ∀ c ∈ front, hexDigit? c = some 0 := by
      rw [foldl_digits_eq_zero (by decide) hfront hhigh]
      exact and_iff_right rfl
    _ ↔ ∀ c ∈ front, c = '0' := by simp only [hexDigit?_eq_zero]

/-- The value of a hexadecimal digit, and zero for any other character. -/
def digitValue (c : Char) : Nat :=
  (hexDigit? c).getD 0

/-- The value of a digit is smaller than sixteen. -/
theorem digitValue_lt (c : Char) : digitValue c < 16 := by
  cases hd : hexDigit? c with
  | none => simp [digitValue, hd]
  | some d => simpa [digitValue, hd] using hexDigit?_lt hd

/-- What hexadecimal digits stand for, the one of the highest place first. -/
def hexValue (digits : List Char) : Nat :=
  Nat.ofDigits 16 (digits.reverse.map digitValue)

/-- Hexadecimal digits stand for the sum of their values at their places. -/
theorem ofDigits?_eq_hexValue (hdigits : ∀ c ∈ text, (hexDigit? c).isSome) :
    ofDigits? 16 hexDigit? text = some (hexValue text) := by
  induction text using List.reverseRecOn with
  | nil => rfl
  | append_singleton front c ih =>
    obtain ⟨hfront, hc⟩ := List.forall_mem_append.mp hdigits
    obtain ⟨d, hd⟩ := Option.isSome_iff_exists.mp (hc c (List.mem_singleton_self c))
    have hvalue : hexValue (front ++ [c]) = hexValue front * 16 + d := by
      rw [hexValue, List.reverse_concat, List.map_cons, Nat.ofDigits_cons, digitValue, hd,
        Option.getD_some, hexValue]
      omega
    have hread := ih hfront
    rw [ofDigits?] at hread ⊢
    rw [List.foldl_append, hread, List.foldl_cons, hd, hvalue]
    rfl

/-- Up to sixteen hexadecimal digits are read as what they stand for. -/
theorem exists_readHex?_toNat (hne : text ≠ []) (hdigits : ∀ c ∈ text, (hexDigit? c).isSome)
    (hlength : text.length ≤ 16) :
    ∃ value, readHex? text = some value ∧ value.toNat = hexValue text := by
  have hvalue := ofDigits?_eq_hexValue hdigits
  have hlimit : hexValue text < sizeLimit :=
    (isSome_readHex?_of_digits hne hdigits hvalue).mp
      (isSome_readHex?_of_length_le hne hdigits hlength)
  refine ⟨_, by rw [readHex?_of_digits hne hdigits hvalue, if_pos hlimit], ?_⟩
  rw [BitVec.toNat_ofNat]
  exact Nat.mod_eq_of_lt hlimit

/-- The digit of a number below sixteen has its value. -/
theorem hexDigit?_digitChar {d : Nat} (h : d < 16) : hexDigit? (Nat.digitChar d) = some d := by
  have hall : ∀ d : Fin 16, hexDigit? (Nat.digitChar d) = some d.val := by decide
  exact hall ⟨d, h⟩

/-- The digits of a number are hexadecimal digits and stand for the number. -/
theorem ofDigits?_toDigits (n : Nat) :
    ofDigits? 16 hexDigit? (Nat.toDigits 16 n) = some n ∧
      ∀ c ∈ Nat.toDigits 16 n, (hexDigit? c).isSome := by
  induction n using Nat.strongRecOn with
  | ind n ih =>
    by_cases hsmall : n < 16
    · rw [Nat.toDigits_of_lt_base hsmall]
      have hdigit := hexDigit?_digitChar hsmall
      exact ⟨by simp [ofDigits?, hdigit], by simp [hdigit]⟩
    · obtain ⟨hvalue, hdigits⟩ := ih (n / 16) (by omega)
      have hdigit := hexDigit?_digitChar (Nat.mod_lt n (by decide : 0 < 16))
      rw [Nat.toDigits_of_base_le (by decide) (Nat.le_of_not_lt hsmall)]
      refine ⟨?_, List.forall_mem_append.mpr ⟨hdigits, by simp [hdigit]⟩⟩
      rw [ofDigits?] at hvalue ⊢
      rw [List.foldl_append, hvalue, List.foldl_cons, hdigit]
      exact congrArg some (Nat.div_add_mod' n 16)

/-- Zeroes in front of digits do not count. -/
theorem ofDigits?_replicate_append (count : Nat) (digits : List Char) :
    ofDigits? 16 hexDigit? (List.replicate count '0' ++ digits) =
      ofDigits? 16 hexDigit? digits := by
  induction count with
  | zero => rfl
  | succ count ih => exact ih

/-- A number that is written in hexadecimal, with zeroes in front of it to fill up a column, is
written with digits and read as the number. -/
theorem readHex?_padLeft {n : Nat} (hn : n < sizeLimit) (width : Nat) :
    (padLeft '0' width (hex n)).toList ≠ [] ∧
      (∀ c ∈ (padLeft '0' width (hex n)).toList, (hexDigit? c).isSome) ∧
      readHex? (padLeft '0' width (hex n)).toList = some (BitVec.ofNat 64 n) := by
  obtain ⟨hvalue, hdigits⟩ := ofDigits?_toDigits n
  have htext : (padLeft '0' width (hex n)).toList =
      List.replicate (width - (hex n).length) '0' ++ Nat.toDigits 16 n := by simp [padLeft, hex]
  rw [htext]
  have hne : List.replicate (width - (hex n).length) '0' ++ Nat.toDigits 16 n ≠ [] := by simp
  have hall : ∀ c ∈ List.replicate (width - (hex n).length) '0' ++ Nat.toDigits 16 n,
      (hexDigit? c).isSome := by
    refine List.forall_mem_append.mpr ⟨fun c hc => ?_, hdigits⟩
    rw [List.eq_of_mem_replicate hc]
    rfl
  refine ⟨hne, hall, ?_⟩
  rw [readHex?_of_digits hne hall ((ofDigits?_replicate_append _ _).trans hvalue), if_pos hn]

/-- The characters of a number are the digits of numbers below the base. -/
theorem exists_digitChar_of_mem_toDigits {b n : Nat} (hb : 1 < b) {c : Char}
    (h : c ∈ Nat.toDigits b n) : ∃ d < b, c = Nat.digitChar d := by
  induction n using Nat.strongRecOn with
  | ind n ih =>
    by_cases hsmall : n < b
    · rw [Nat.toDigits_of_lt_base hsmall] at h
      exact ⟨n, hsmall, List.mem_singleton.mp h⟩
    · have hdiv : n / b < n := Nat.div_lt_self (by omega) hb
      rw [Nat.toDigits_of_base_le hb (Nat.le_of_not_lt hsmall)] at h
      rcases List.mem_append.mp h with h | h
      · exact ih (n / b) hdiv h
      · exact ⟨n % b, Nat.mod_lt n (by omega), List.mem_singleton.mp h⟩

section Characters

variable {P : Char → Prop}

/-- What holds of all digits holds of the characters of a hexadecimal number. -/
theorem forall_mem_hex (hdigit : ∀ d : Fin 16, P (Nat.digitChar d)) (n : Nat) :
    ∀ c ∈ (hex n).toList, P c := by
  intro c hc
  obtain ⟨d, hd, rfl⟩ :=
    exists_digitChar_of_mem_toDigits (b := 16) (n := n) (by decide) (by simpa [hex] using hc)
  exact hdigit ⟨d, hd⟩

/-- What holds of all digits holds of the characters of a decimal number. -/
theorem forall_mem_repr (hdigit : ∀ d : Fin 16, P (Nat.digitChar d)) (n : Nat) :
    ∀ c ∈ (Nat.repr n).toList, P c := by
  intro c hc
  obtain ⟨d, hd, rfl⟩ :=
    exists_digitChar_of_mem_toDigits (b := 10) (n := n) (by decide) (by simpa [Nat.repr] using hc)
  exact hdigit ⟨d, by omega⟩

/-- What holds of all digits and of the letter in the prefix holds of the characters of a
hexadecimal number after the prefix. -/
theorem forall_mem_prefixedHex (hdigit : ∀ d : Fin 16, P (Nat.digitChar d)) (hx : P 'x') (n : Nat) :
    ∀ c ∈ (prefixedHex n).toList, P c := by
  rw [prefixedHex, String.toList_append, List.forall_mem_append]
  refine ⟨?_, forall_mem_hex hdigit n⟩
  simpa using ⟨hdigit 0, hx⟩

/-- What holds of the minus sign and of the characters of all amounts holds of those of a signed
number. -/
theorem forall_mem_signed {write : Nat → String} (hwrite : ∀ n, ∀ c ∈ (write n).toList, P c)
    (hminus : P '-') (value : BitVec 64) :
    ∀ c ∈ (if value.toInt < 0 then "-" ++ write value.toInt.natAbs else write value.toNat).toList,
      P c := by
  split_ifs
  · rw [String.toList_append, List.forall_mem_append]
    exact ⟨by simpa using hminus, hwrite _⟩
  · exact hwrite _

end Characters

/-- The digits of a number tell which one it is. -/
theorem hex_inj {m n : Nat} : hex m = hex n ↔ m = n := by
  refine ⟨fun h => ?_, congrArg hex⟩
  have hdigits : Nat.toDigits 16 m = Nat.toDigits 16 n := String.ofList_injective h
  have hm := (ofDigits?_toDigits m).1
  rw [hdigits, (ofDigits?_toDigits n).1] at hm
  exact (Option.some.inj hm).symm

/-- A number after a prefix tells which one it is. -/
theorem prefixedHex_inj {m n : Nat} : prefixedHex m = prefixedHex n ↔ m = n := by
  rw [prefixedHex, prefixedHex, String.append_right_inj, hex_inj]

/-- A signed number tells which one it is if its amount does and never begins with a minus sign. -/
theorem eq_of_signed_eq {write : Nat → String} (hwrite : ∀ {m n}, write m = write n → m = n)
    (hsign : ∀ n, (write n).toList.head? ≠ some '-') {v w : BitVec 64}
    (h : (if v.toInt < 0 then "-" ++ write v.toInt.natAbs else write v.toNat) =
      if w.toInt < 0 then "-" ++ write w.toInt.natAbs else write w.toNat) : v = w := by
  have hminus : ∀ m n, "-" ++ write m ≠ write n := fun m n hmn =>
    hsign n (by rw [← hmn, String.toList_append]; rfl)
  split_ifs at h with hv hw hw
  · have habs := hwrite ((String.append_right_inj "-").mp h)
    exact BitVec.eq_of_toInt_eq (by omega)
  · exact absurd h (hminus _ _)
  · exact absurd h.symm (hminus _ _)
  · exact BitVec.eq_of_toNat_eq (hwrite h)

/-- A signed hexadecimal number tells which one it is. -/
theorem signedHex_inj {v w : BitVec 64} : signedHex v = signedHex w ↔ v = w := by
  have hsign : ∀ n, (prefixedHex n).toList.head? ≠ some '-' := by
    intro n
    rw [prefixedHex, String.toList_append]
    simp
  exact ⟨eq_of_signed_eq prefixedHex_inj.mp hsign, congrArg signedHex⟩

/-- A decimal number tells which one it is. -/
theorem repr_inj {m n : Nat} : Nat.repr m = Nat.repr n ↔ m = n := by
  refine ⟨fun h => ?_, congrArg Nat.repr⟩
  have hdigits : Nat.toDigits 10 m = Nat.toDigits 10 n := String.ofList_injective h
  rw [← Nat.ofDigitChars_toDigits (b := 10) (n := m) (by decide) (by decide), hdigits,
    Nat.ofDigitChars_toDigits (by decide) (by decide)]

/-- A signed decimal number tells which one it is. -/
theorem signedDecimal_inj {v w : BitVec 64} : signedDecimal v = signedDecimal w ↔ v = w := by
  have hsign : ∀ n, (Nat.repr n).toList.head? ≠ some '-' := by
    intro n hminus
    have hne : ∀ c ∈ (Nat.repr n).toList, c ≠ '-' := forall_mem_repr (by decide) n
    exact hne '-' (List.mem_of_head? hminus) rfl
  exact ⟨eq_of_signed_eq repr_inj.mp hsign, congrArg signedDecimal⟩

end A64Disassembler.Numeral
