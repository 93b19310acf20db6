import A64Disassembler.Proofs.Bits.Field

/-!
# Fields as numbers

A field is an unsigned number or a two's complement number of its size. Either number determines
the bits of the field. The numbers are small against 64 bits, so that they can be scaled without
wrapping around, and they are still determined by their multiples.
-/

namespace A64Disassembler

namespace Bits

/-- A product that is a signed number of 64 bits does not wrap around. -/
theorem toInt_mul_of_lt {a b : BitVec 64} (h : (a.toInt * b.toInt).natAbs < 2 ^ 63) :
    (a * b).toInt = a.toInt * b.toInt := by
  rw [BitVec.toInt_mul]
  exact Int.bmod_eq_of_le (by omega) (by omega)

/-- A number is determined by its product with a unit, if the products do not wrap around. -/
theorem eq_of_mul_eq {a b unit : BitVec 64} {bound : Nat} (ha : a.toInt.natAbs ≤ bound)
    (hb : b.toInt.natAbs ≤ bound) (hunit : unit ≠ 0) (hbound : bound * unit.toInt.natAbs < 2 ^ 63)
    (h : a * unit = b * unit) : a = b := by
  have hsmall : ∀ {x : BitVec 64}, x.toInt.natAbs ≤ bound →
      (x * unit).toInt = x.toInt * unit.toInt := by
    intro x hx
    apply toInt_mul_of_lt
    rw [Int.natAbs_mul]
    exact Nat.lt_of_le_of_lt (Nat.mul_le_mul_right _ hx) hbound
  have hzero : unit.toInt ≠ 0 := fun hzero => hunit (BitVec.eq_of_toInt_eq hzero)
  have hproducts : a.toInt * unit.toInt = b.toInt * unit.toInt := by
    rw [← hsmall ha, ← hsmall hb, h]
  exact BitVec.eq_of_toInt_eq (Int.eq_of_mul_eq_mul_right hzero hproducts)

/-- A distance in words is moved up by two bits to count bytes. -/
theorem shiftLeft_two (x : BitVec 64) : x <<< 2 = x * 4 := by
  rw [BitVec.shiftLeft_eq_mul_twoPow]
  rfl

variable {f : Field} {v w : Word}

/-- The content of a field, as a number of its size, is the range of bits that it stands for. -/
theorem Field.ofNat_extract (f : Field) (word : Word) :
    BitVec.ofNat f.size (f.extract word).toNat = word.extractLsb' f.start f.size := by
  rw [f.toNat_extract, BitVec.ofNat_toNat, BitVec.setWidth_eq]

/-- Two words have the same content of a field exactly if they agree in its range of bits. -/
theorem Field.extract_eq_iff :
    f.extract v = f.extract w ↔ v.extractLsb' f.start f.size = w.extractLsb' f.start f.size := by
  rw [← BitVec.toNat_inj, f.toNat_extract, f.toNat_extract, BitVec.toNat_inj]

end Bits

namespace FieldName

/-- The content of the field as a two's complement number. -/
def signedValue (f : FieldName) (word : Word) : Int :=
  (BitVec.ofNat f.bits.size (f.extract word).toNat).toInt

end FieldName

namespace Spec

variable {f : FieldName} {v w : Word}

/-- The signed value of a field is its content as a two's complement number. -/
theorem toInt_signedField (word : Word) (f : FieldName) :
    (signedField word f).toInt = f.signedValue word := by
  have hfits := f.bits.fits
  rw [signedField_eq, BitVec.toInt_signExtend_of_le (by omega), FieldName.signedValue,
    FieldName.extract, f.bits.ofNat_extract]

/-- A signed value is at most half as large as the numbers of its size. -/
theorem natAbs_toInt_signedField_le (word : Word) (f : FieldName) :
    2 * (signedField word f).toInt.natAbs ≤ 2 ^ f.bits.size := by
  rw [toInt_signedField, FieldName.signedValue]
  have hle := BitVec.le_two_mul_toInt (x := BitVec.ofNat f.bits.size (f.extract word).toNat)
  have hlt := BitVec.two_mul_toInt_lt (x := BitVec.ofNat f.bits.size (f.extract word).toNat)
  have hcast : ((2 ^ f.bits.size : Nat) : Int) = 2 ^ f.bits.size := by push_cast; rfl
  omega

/-- The unsigned value of a field is its content. -/
theorem toInt_unsignedField (word : Word) (f : FieldName) :
    (unsignedField word f).toInt = (f.extract word).toNat := by
  have hlt : (f.extract word).toNat < 2 ^ 32 := (f.extract word).isLt
  have hnat : (unsignedField word f).toNat = (f.extract word).toNat := by
    rw [unsignedField, BitVec.toNat_setWidth_of_le (by decide)]
  rw [BitVec.toInt_eq_toNat_of_lt (by omega), hnat]

/-- Equal unsigned values stand for equal contents. -/
theorem extract_eq_of_unsignedField (h : unsignedField v f = unsignedField w f) :
    f.extract v = f.extract w := by
  have hint := congrArg BitVec.toInt h
  rw [toInt_unsignedField, toInt_unsignedField] at hint
  exact BitVec.eq_of_toNat_eq (by omega)

/-- Equal signed values stand for equal contents. -/
theorem extract_eq_of_signedField (h : signedField v f = signedField w f) :
    f.extract v = f.extract w := by
  have hfits := f.bits.fits
  have hint := congrArg BitVec.toInt h
  rw [signedField_eq, signedField_eq, BitVec.toInt_signExtend_of_le (by omega),
    BitVec.toInt_signExtend_of_le (by omega)] at hint
  exact Bits.Field.extract_eq_iff.mpr (BitVec.eq_of_toInt_eq hint)

/-- A distance that is split into two fields is the two's complement number of 21 bits with one
field as its high and the other as its low bits. -/
theorem toInt_splitDistance (word : Word) :
    (splitDistance word).toInt =
      (BitVec.ofNat 21 ((FieldName.imm19.extract word).toNat * 4 +
        (FieldName.imm2.extract word).toNat)).toInt := by
  have hhigh : (FieldName.imm19.extract word).toNat = (word.extractLsb' 5 19).toNat :=
    FieldName.imm19.bits.toNat_extract word
  have hlow : (FieldName.imm2.extract word).toNat = (word.extractLsb' 29 2).toNat :=
    FieldName.imm2.bits.toNat_extract word
  have hlt : (word.extractLsb' 29 2).toNat < 2 ^ 2 := (word.extractLsb' 29 2).isLt
  have hsum : (word.extractLsb' 5 19 ++ word.extractLsb' 29 2).toNat =
      (word.extractLsb' 5 19).toNat * 4 + (word.extractLsb' 29 2).toNat := by
    rw [BitVec.toNat_append, Nat.shiftLeft_eq, Nat.mul_comm, ← Nat.two_pow_add_eq_or_of_lt hlt]
  rw [splitDistance_eq, BitVec.toInt_signExtend_of_le (by decide), hhigh, hlow, ← hsum,
    BitVec.ofNat_toNat, BitVec.setWidth_eq]

/-- A distance that is split into two fields determines both of them. -/
theorem extract_eq_of_splitDistance (h : splitDistance v = splitDistance w) :
    FieldName.imm19.extract v = FieldName.imm19.extract w ∧
      FieldName.imm2.extract v = FieldName.imm2.extract w := by
  have hint := congrArg BitVec.toInt h
  rw [splitDistance_eq, splitDistance_eq, BitVec.toInt_signExtend_of_le (by decide),
    BitVec.toInt_signExtend_of_le (by decide)] at hint
  have hbits := BitVec.eq_of_toInt_eq hint
  have hhigh := congrArg (BitVec.extractLsb' 2 19) hbits
  have hlow := congrArg (BitVec.extractLsb' 0 2) hbits
  rw [BitVec.extractLsb'_append_eq_left, BitVec.extractLsb'_append_eq_left] at hhigh
  rw [BitVec.extractLsb'_append_eq_right, BitVec.extractLsb'_append_eq_right] at hlow
  exact ⟨Bits.Field.extract_eq_iff.mpr hhigh, Bits.Field.extract_eq_iff.mpr hlow⟩

end Spec

end A64Disassembler
