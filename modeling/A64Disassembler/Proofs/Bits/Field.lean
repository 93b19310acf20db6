import A64Disassembler.Decode.Operands
import Mathlib.Data.Nat.Bitwise

/-!
# Reading fields

A field is read by shifting its bits up to the top of the word and down again, and a signed
number by shifting its sign to the top of 64 bits. Both shifts together cut out a range of bits,
so the unsigned and the signed value of a field are those of its range. The mask of a field has the
bits of the same range.
-/

namespace A64Disassembler

namespace Bits

/-- The content of a field is the range of bits that it stands for. -/
theorem Field.extract_eq (f : Field) (word : Word) :
    f.extract word = (word.extractLsb' f.start f.size).setWidth 32 := by
  have hsize := f.size_pos
  have hfits := f.fits
  apply BitVec.eq_of_getLsbD_eq
  intro i hi
  rw [extract, zeroExtract, BitVec.getLsbD_ushiftRight, BitVec.getLsbD_shiftLeft,
    BitVec.getLsbD_setWidth, BitVec.getLsbD_extractLsb']
  by_cases hin : i < f.size
  · have hindex : 32 - f.size + i - (32 - f.start - f.size) = f.start + i := by omega
    simp [hi, hin, hindex, show 32 - f.size + i < 32 by omega,
      show ¬ 32 - f.size + i < 32 - f.start - f.size by omega]
  · simp [hi, hin, show ¬ 32 - f.size + i < 32 by omega]

/-- The content of a field is the number in its range of bits. -/
theorem Field.toNat_extract (f : Field) (word : Word) :
    (f.extract word).toNat = (word.extractLsb' f.start f.size).toNat := by
  have hfits := f.fits
  rw [f.extract_eq, BitVec.toNat_setWidth_of_le (by omega)]

/-- The content of a field is smaller than the power of two of its size. -/
theorem Field.extract_lt (f : Field) (word : Word) : (f.extract word).toNat < 2 ^ f.size := by
  rw [f.toNat_extract]
  exact BitVec.isLt _

/-- The bits of the content of a field are those of the field, and there are none above them. -/
theorem Field.getLsbD_extract (f : Field) (word : Word) (i : Nat) :
    (f.extract word).getLsbD i = (decide (i < f.size) && word.getLsbD (f.start + i)) := by
  have hfits := f.fits
  rw [f.extract_eq, BitVec.getLsbD_setWidth, BitVec.getLsbD_extractLsb']
  by_cases hi : i < f.size
  · simp [hi, show i < 32 by omega]
  · simp [hi]

/-- The mask of a field has the bits of the field. -/
theorem Field.getLsbD_mask (f : Field) (k : Nat) :
    f.mask.getLsbD k = decide (f.start ≤ k ∧ k < f.start + f.size) := by
  have hfits := f.fits
  have hsize := f.size_pos
  rw [mask, widthMask, BitVec.getLsbD_shiftLeft, BitVec.getLsbD_ushiftRight,
    BitVec.getLsbD_allOnes, Bool.eq_iff_iff]
  simp only [Bool.and_eq_true, Bool.not_eq_true', decide_eq_true_eq, decide_eq_false_iff_not]
  omega

/-- Words with the same content of a field agree in all of its bits. -/
theorem Field.getLsbD_eq_of_extract {f : Field} {v w : Word} (h : f.extract v = f.extract w)
    {k : Nat} (hk : f.mask.getLsbD k = true) : v.getLsbD k = w.getLsbD k := by
  rw [f.getLsbD_mask, decide_eq_true_eq] at hk
  have hbit := congrArg (fun x => x.getLsbD (k - f.start)) h
  rwa [getLsbD_extract, getLsbD_extract, decide_eq_true (by omega), Bool.true_and, Bool.true_and,
    Nat.add_sub_cancel' hk.1] at hbit

/-- A word in which a field has the largest content has all bits of the field set. -/
theorem Field.and_mask_of_extract {f : Field} {w : Word}
    (h : (f.extract w).toNat = 2 ^ f.size - 1) : w &&& f.mask = f.mask := by
  have hrange : w.extractLsb' f.start f.size = BitVec.allOnes f.size := by
    apply BitVec.eq_of_toNat_eq
    rw [← f.toNat_extract, h, BitVec.toNat_allOnes]
  apply BitVec.eq_of_getLsbD_eq
  intro k hk
  rw [BitVec.getLsbD_and, f.getLsbD_mask]
  by_cases hin : f.start ≤ k ∧ k < f.start + f.size
  · have hbit := congrArg (fun x => x.getLsbD (k - f.start)) hrange
    simp only [BitVec.getLsbD_extractLsb', BitVec.getLsbD_allOnes,
      show f.start + (k - f.start) = k by omega, show k - f.start < f.size by omega,
      decide_true, Bool.true_and] at hbit
    rw [hbit, Bool.true_and]
  · rw [decide_eq_false hin, Bool.and_false]

/-- Sign extension from some width extends the low bits of the value. -/
theorem signExtend_eq {n : Nat} (hpos : 0 < n) (hn : n ≤ 64) (x : BitVec 64) :
    signExtend x n = (x.setWidth n).signExtend 64 := by
  apply BitVec.eq_of_getLsbD_eq
  intro i hi
  rw [signExtend, BitVec.getLsbD_sshiftRight, BitVec.getLsbD_signExtend, BitVec.msb_setWidth]
  by_cases hlow : i < n
  · have hindex : 64 - n + i - (64 - n) = i := by omega
    simp [hi, hlow, hindex, show ¬ 64 ≤ i by omega, show 64 - n + i < 64 by omega]
  · have htop : 63 - (64 - n) = n - 1 := by omega
    simp [hi, hlow, htop, show ¬ 64 ≤ i by omega, show ¬ 64 - n + i < 64 by omega,
      show ¬ 63 < 64 - n by omega, BitVec.msb_eq_getLsbD_last, hpos, -BitVec.getLsbD_eq_getElem]

end Bits

namespace Spec

/-- The unsigned value of a field is that of its range of bits. -/
theorem unsignedField_eq (word : Word) (f : FieldName) :
    unsignedField word f = (word.extractLsb' f.bits.start f.bits.size).setWidth 64 := by
  have hfits := f.bits.fits
  rw [unsignedField, FieldName.extract, Bits.Field.extract_eq,
    BitVec.setWidth_setWidth (by omega)]

/-- The signed value of a field is that of its range of bits. -/
theorem signedField_eq (word : Word) (f : FieldName) :
    signedField word f = (word.extractLsb' f.bits.start f.bits.size).signExtend 64 := by
  have hfits := f.bits.fits
  rw [signedField, unsignedField_eq, Bits.signExtend_eq f.bits.size_pos (by omega),
    BitVec.setWidth_setWidth_of_le _ (by omega), BitVec.setWidth_eq]

/-- The distance that is split into two fields is the signed number of 21 bits that the fields make
up together. -/
theorem splitDistance_eq (word : Word) :
    splitDistance word = (word.extractLsb' 5 19 ++ word.extractLsb' 29 2).signExtend 64 := by
  rw [splitDistance, Bits.signExtend_eq (by decide) (by decide), unsignedField_eq,
    unsignedField_eq]
  congr 1
  apply BitVec.eq_of_getLsbD_eq
  intro i hi
  rw [BitVec.getLsbD_setWidth, BitVec.getLsbD_or, BitVec.getLsbD_shiftLeft,
    BitVec.getLsbD_setWidth, BitVec.getLsbD_setWidth, BitVec.getLsbD_append]
  by_cases hlow : i < 2
  · simp [FieldName.bits, hi, hlow, show i < 64 by omega]
  · simp [FieldName.bits, hi, hlow, show i < 64 by omega, show i - 2 < 64 by omega]

end Spec

end A64Disassembler
