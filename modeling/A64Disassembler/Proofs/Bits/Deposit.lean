import A64Disassembler.Proofs.Bits.Field
import A64Disassembler.Proofs.Fault

/-!
# Reading and writing a group of bits

A group of bits is read with two shifts, to the top of the word and back down, and written through a
mask. Here both are said bit by bit: what is read is the group and nothing above it, and writing
changes the group and nothing beside it. So reading undoes writing, writing back what was read
changes nothing, and groups that have no bit in common do not notice each other.

Both are also taken step by step, with the condition under which each difference and each shift is
meant. For reading, the conditions hold exactly for a nonempty group inside the word; writing admits
groups that reach beyond it as well.
-/

namespace A64Disassembler

namespace Word

/-- `value` moved up by less than its width. The bits that are moved out of it are lost. -/
def shiftLeft? (value : Word) (amount : Nat) : Except Fault Word :=
  if amount < 32 then .ok (value <<< amount) else .error .overflow

/-- `value` moved down by less than its width. -/
def shiftRight? (value : Word) (amount : Nat) : Except Fault Word :=
  if amount < 32 then .ok (value >>> amount) else .error .overflow

end Word

namespace Bits

/-- `zeroExtract` step by step. -/
def checkedExtract (value : Word) (pos len : Nat) : Except Fault Word := do
  let up ← subSizes (← subSizes 32 pos) len
  let top ← Word.shiftLeft? value up
  Word.shiftRight? top (← subSizes 32 len)

/-- The bits of a group, step by step. -/
def checkedMask (pos len : Nat) : Except Fault Word := do
  let low ← Word.shiftRight? (BitVec.allOnes 32) (← subSizes 32 len)
  Word.shiftLeft? low pos

/-- `deposit` step by step. -/
def checkedDeposit (value : Word) (pos len : Nat) (content : Word) : Except Fault Word := do
  let mask ← checkedMask pos len
  let moved ← Word.shiftLeft? content pos
  return (value &&& ~~~mask) ||| (moved &&& mask)

/-- Reading is defined exactly for nonempty groups inside the word. -/
theorem checkedExtract_eq (value : Word) (pos len : Nat) :
    checkedExtract value pos len = zeroExtract? value pos len := by
  unfold checkedExtract zeroExtract?
  by_cases hpos : pos ≤ 32
  · rw [subSizes, if_pos hpos, ok_bind, subSizes]
    by_cases hlen : len ≤ 32 - pos
    · rw [if_pos hlen, ok_bind, Word.shiftLeft?, subSizes, if_pos (show len ≤ 32 by omega)]
      by_cases hempty : len = 0
      · -- An empty group would be moved down by the whole width.
        rw [if_neg (show ¬ (0 < len ∧ pos + len ≤ 32) by omega)]
        split
        · exact if_neg (by omega)
        · rfl
      · rw [if_pos (by omega), if_pos (by omega), ok_bind, ok_bind, Word.shiftRight?,
          if_pos (by omega)]
        rfl
    · rw [if_neg hlen, if_neg (by omega)]
      rfl
  · rw [subSizes, if_neg hpos, if_neg (by omega)]
    rfl

/-- A nonempty group that starts inside the word has a mask. -/
theorem checkedMask_eq_ok {pos len : Nat} (hempty : 0 < len) (hlen : len ≤ 32) (hpos : pos < 32) :
    checkedMask pos len = .ok ((BitVec.allOnes 32 >>> (32 - len)) <<< pos) := by
  rw [checkedMask, subSizes, if_pos hlen, ok_bind, Word.shiftRight?, if_pos (by omega), ok_bind,
    Word.shiftLeft?, if_pos hpos]

/-- Writing is defined exactly for nonempty groups that are no longer than the word and start inside
it. -/
theorem checkedDeposit_eq (value : Word) (pos len : Nat) (content : Word) :
    checkedDeposit value pos len content = deposit? value pos len content := by
  by_cases h : 0 < len ∧ len ≤ 32 ∧ pos < 32
  · obtain ⟨hempty, hlen, hpos⟩ := h
    rw [checkedDeposit, checkedMask_eq_ok hempty hlen hpos, ok_bind, Word.shiftLeft?, if_pos hpos,
      deposit?, if_pos ⟨hempty, hlen, hpos⟩]
    rfl
  · rw [deposit?, if_neg h, checkedDeposit, checkedMask, subSizes]
    by_cases hlen : len ≤ 32
    · rw [if_pos hlen, ok_bind, Word.shiftRight?]
      by_cases hempty : 0 < len
      · rw [if_pos (by omega), ok_bind, Word.shiftLeft?, if_neg (by omega)]
        rfl
      · rw [if_neg (by omega)]
        rfl
    · rw [if_neg hlen]
      rfl

namespace Field

variable (f : Field) (word content : Word)

/-- `word` with the low bits of `content` in the field. -/
def deposit : Word :=
  Bits.deposit word f.start f.size content

/-- Writing a field replaces its bits and keeps all others. -/
theorem getLsbD_deposit {k : Nat} (hk : k < 32) :
    (f.deposit word content).getLsbD k =
      if f.mask.getLsbD k then content.getLsbD (k - f.start) else word.getLsbD k := by
  have hmasks : f.deposit word content =
      (word &&& ~~~f.mask) ||| ((content <<< f.start) &&& f.mask) := rfl
  rw [hmasks, BitVec.getLsbD_or, BitVec.getLsbD_and, BitVec.getLsbD_not, BitVec.getLsbD_and,
    BitVec.getLsbD_shiftLeft]
  cases hin : f.mask.getLsbD k with
  | false => simp [hk]
  | true =>
    rw [f.getLsbD_mask, decide_eq_true_eq] at hin
    simp [hk, show ¬ k < f.start by omega]

/-- A field that has been written holds the low bits of what was written. -/
theorem toNat_extract_deposit :
    (f.extract (f.deposit word content)).toNat = content.toNat % 2 ^ f.size := by
  have hfits := f.fits
  have hlow : (f.deposit word content).extractLsb' f.start f.size = content.setWidth f.size := by
    apply BitVec.eq_of_getLsbD_eq
    intro i hi
    have hin : f.mask.getLsbD (f.start + i) = true := by
      rw [f.getLsbD_mask, decide_eq_true_eq]
      omega
    rw [BitVec.getLsbD_extractLsb', f.getLsbD_deposit word content (by omega), if_pos hin,
      BitVec.getLsbD_setWidth, Nat.add_sub_cancel_left]
  rw [f.toNat_extract, hlow, BitVec.toNat_setWidth]

/-- Writing back what a field holds changes nothing. -/
theorem deposit_extract : f.deposit word (f.extract word) = word := by
  apply BitVec.eq_of_getLsbD_eq
  intro k hk
  rw [f.getLsbD_deposit word _ hk]
  split
  · rename_i hin
    rw [f.getLsbD_mask, decide_eq_true_eq] at hin
    rw [getLsbD_extract, decide_eq_true (by omega), Bool.true_and, Nat.add_sub_cancel' hin.1]
  · rfl

/-- Writing one field keeps what a field holds that has no bit in common with it. -/
theorem extract_deposit_of_disjoint {f g : Field}
    (h : g.start + g.size ≤ f.start ∨ f.start + f.size ≤ g.start) (word content : Word) :
    g.extract (f.deposit word content) = g.extract word := by
  have hfits := g.fits
  apply BitVec.eq_of_getLsbD_eq
  intro i _
  rw [getLsbD_extract, getLsbD_extract]
  by_cases hi : i < g.size
  · have hout : ¬ f.mask.getLsbD (g.start + i) = true := by
      rw [f.getLsbD_mask, decide_eq_true_eq]
      omega
    rw [f.getLsbD_deposit word content (by omega), if_neg hout]
  · rw [decide_eq_false hi, Bool.false_and, Bool.false_and]

/-- To move a field up and down again is to cut it out and to move it down. -/
theorem extract_eq_shiftRight : f.extract word = (word &&& f.mask) >>> f.start := by
  apply BitVec.eq_of_getLsbD_eq
  intro i _
  rw [getLsbD_extract, BitVec.getLsbD_ushiftRight, BitVec.getLsbD_and, f.getLsbD_mask, Bool.and_comm]
  congr 1
  rw [decide_eq_decide]
  omega

/-- Words that agree in the bits of a field have the same content of it. -/
theorem extract_eq_of_and_mask {f : Field} {v w : Word} (h : v &&& f.mask = w &&& f.mask) :
    f.extract v = f.extract w := by
  rw [f.extract_eq_shiftRight, f.extract_eq_shiftRight, h]

end Field

/-- Reading and writing a group of bits inside the word are inverse to each other, and no difference
or shift in them is out of range. A group holds the low bits of what was written to it, writing back
what it holds changes nothing, and a group that has no bit in common with it holds the same as
before. The content of every field is also what its mask cuts out, moved down. -/
theorem deposit_inverts_zeroExtract {pos len : Nat} (hlen : 1 ≤ len) (hfits : pos + len ≤ 32)
    (value content : Word) (f : Field) (word : Word) :
    checkedExtract value pos len = .ok (zeroExtract value pos len) ∧
      checkedDeposit value pos len content = .ok (deposit value pos len content) ∧
      (zeroExtract (deposit value pos len content) pos len).toNat = content.toNat % 2 ^ len ∧
      deposit value pos len (zeroExtract value pos len) = value ∧
      (∀ pos' len', 1 ≤ len' → pos' + len' ≤ 32 → pos' + len' ≤ pos ∨ pos + len ≤ pos' →
        zeroExtract (deposit value pos len content) pos' len' = zeroExtract value pos' len') ∧
      checkedMask f.start f.size = .ok f.mask ∧
      Word.shiftRight? (word &&& f.mask) f.start = .ok (f.extract word) := by
  let g : Field := ⟨pos, len, hlen, hfits⟩
  have hsize := f.size_pos
  have hend := f.fits
  refine ⟨?_, ?_, g.toNat_extract_deposit value content, g.deposit_extract value, ?_,
    checkedMask_eq_ok hsize (by omega) (by omega), ?_⟩
  · rw [checkedExtract_eq, zeroExtract?, if_pos ⟨hlen, hfits⟩]
  · rw [checkedDeposit_eq, deposit?, if_pos ⟨hlen, by omega, by omega⟩]
  · intro pos' len' hlen' hfits' hdisjoint
    exact Field.extract_deposit_of_disjoint (f := g) (g := ⟨pos', len', hlen', hfits'⟩) hdisjoint
      value content
  · rw [Word.shiftRight?, if_pos (by omega), f.extract_eq_shiftRight]

/-- The five bits at the top of a word take the low bits of a number that is too long for them, and
the bits below stay as they are. -/
theorem deposit_inverts_zeroExtract_at_top :
    let written := deposit 0x9403ffff 27 5 0xffffffea
    1 ≤ 5 ∧ 27 + 5 ≤ 32 ∧ checkedDeposit 0x9403ffff 27 5 0xffffffea = .ok written ∧
      written = 0x5403ffff ∧ (zeroExtract written 27 5).toNat = 0xffffffea % 2 ^ 5 ∧
      zeroExtract written 0 27 = zeroExtract 0x9403ffff 0 27 ∧
      checkedMask 27 5 = .ok 0xf8000000 := by
  have hlen : 1 ≤ 5 := by decide
  have hfits : 27 + 5 ≤ 32 := by decide
  obtain ⟨-, hwritten, hcontent, -, hbeside, hmask, -⟩ :=
    deposit_inverts_zeroExtract hlen hfits 0x9403ffff 0xffffffea { start := 27, size := 5 } 0
  exact ⟨hlen, hfits, hwritten, by decide, hcontent,
    hbeside 0 27 (by decide) (by decide) (.inl (by decide)), hmask⟩

end Bits

end A64Disassembler
