import A64Disassembler.Proofs.Effect.Content

/-!
# The value of a register operand

A register operand of width `w` contributes a word of `w` bits, and its symbolic form has a value of
64 bits. For most operands the value is the word itself, zero extended: a plain register of 32 bits
is masked, a right shift brings no bits in from above, and a right shift with sign is masked again.

A left shift of a 32-bit register is not. The masked content is shifted as a number of 64 bits, and
the bits that leave the lower half stay in the upper half. So the value is too large exactly if a set
bit is shifted out of the word. Its lower half is right even then.
-/

namespace A64Disassembler

/-- Whether a set bit is shifted out of the word of an operand that is a 32-bit register shifted to
the left. -/
def OperandKind.ShiftsOut (v : Valuation) : OperandKind → Prop
  | .shifted r .lsl amount =>
    r.width = .w32 ∧ 2 ^ 32 ≤ (r.content v 32).toNat * 2 ^ amount.toNat
  | _ => False

/-- Shifting a word to the left within its own width clears what leaves it, and shifting it in 64
bits does not. The results are equal exactly if nothing leaves the word. -/
theorem setWidth_shiftLeft_eq_iff (x : BitVec 32) {n : Nat} (hn : n < 32) :
    x.setWidth 64 <<< n = (x <<< n).setWidth 64 ↔ x.toNat * 2 ^ n < 2 ^ 32 := by
  have hx := x.isLt
  have hpow : 2 ^ n ≤ 2 ^ 31 := Nat.pow_le_pow_right (by decide) (by omega)
  have hfits : x.toNat * 2 ^ n < 2 ^ 64 := by
    calc
      x.toNat * 2 ^ n ≤ x.toNat * 2 ^ 31 := Nat.mul_le_mul_left _ hpow
      _ < 2 ^ 64 := by omega
  have hwide : (x.setWidth 64 <<< n).toNat = x.toNat * 2 ^ n := by
    rw [BitVec.toNat_shiftLeft, BitVec.toNat_setWidth_of_le (by decide), Nat.shiftLeft_eq,
      Nat.mod_eq_of_lt hfits]
  have hnarrow : ((x <<< n).setWidth 64).toNat = x.toNat * 2 ^ n % 2 ^ 32 := by
    rw [BitVec.toNat_setWidth_of_le (by decide), BitVec.toNat_shiftLeft, Nat.shiftLeft_eq]
  rw [← BitVec.toNat_inj, hwide, hnarrow]
  omega

namespace Operand

variable {v : Valuation} {o : Operand} {r : Reg} {amount : UInt8}

/-- The operator of a shift by less than the width of a register takes the amount as it is. -/
theorem shiftAmount_amount (h : amount.toNat < r.width.bits) :
    Op.shiftAmount (BitVec.ofNat 64 amount.toNat) = amount.toNat := by
  have hwidth := r.width.bits_le
  have hlt : (BitVec.ofNat 64 amount.toNat).toNat < 64 := by
    rw [toNat_amount]
    omega
  rw [Op.shiftAmount_eq_toNat hlt, toNat_amount]

/-- A register shifted to the left has the content of the register, shifted in 64 bits. -/
theorem eval_symbolic_of_lsl (h : o.kind = .shifted r .lsl amount)
    (hamount : amount.toNat < r.width.bits) :
    o.symbolic.eval v = some ((r.content v r.width.bits).setWidth 64 <<< amount.toNat) := by
  have hwidth := r.width.bits_le
  have hlt : amount.toNat < 64 := by omega
  rw [symbolic, h]
  simp only [reduceCtorEq, false_and, if_false, Expr.eval_reduce, Expr.eval, r.eval_symbolic,
    Option.bind_some, Option.map_some, Shift.op, Op.eval, shiftAmount_amount hamount, if_pos hlt]

/-- A register shifted to the right, with its sign or without, has just the shifted word. -/
theorem eval_symbolic_of_right_shift {shift : Shift} (h : o.kind = .shifted r shift amount)
    (hshift : shift ≠ .lsl) (hamount : amount.toNat < r.width.bits) :
    o.symbolic.eval v =
      some ((shift.apply (r.content v r.width.bits) amount.toNat).setWidth 64) := by
  have hwidth := r.width.bits_le
  have hlt : amount.toNat < 64 := by omega
  cases shift with
  | lsl => contradiction
  | lsr =>
    rw [symbolic, h]
    simp only [reduceCtorEq, false_and, if_false, Expr.eval_reduce, Expr.eval, r.eval_symbolic,
      Option.bind_some, Option.map_some, Shift.op, Op.eval, shiftAmount_amount hamount, if_pos hlt,
      Shift.apply, BitVec.setWidth_ushiftRight hwidth]
  | asr =>
    obtain ⟨name, width⟩ := r
    cases width with
    | w32 =>
      have hdenotes := denotes_shift_of_register (r := ⟨name, .w32⟩) .asr hamount v
      rw [symbolic, h]
      exact (Expr.eval_reduce v _).trans (Expr.eval_and_lowHalf hdenotes)
    | w64 =>
      obtain ⟨y, hy, hyx⟩ := Option.map_eq_some_iff.mp (denotes_of_shifted h hamount v)
      rw [hy]
      exact congrArg some (((BitVec.setWidth_eq y).symm.trans hyx).trans (BitVec.setWidth_eq _).symm)

/-- A register shifted to the left has just the shifted word, unless a set bit is shifted out. -/
theorem eval_symbolic_of_lsl_iff (h : o.kind = .shifted r .lsl amount)
    (hamount : amount.toNat < r.width.bits) :
    o.symbolic.eval v = some ((r.content v r.width.bits <<< amount.toNat).setWidth 64) ↔
      ¬ o.kind.ShiftsOut v := by
  rw [eval_symbolic_of_lsl h hamount, Option.some_inj, h]
  obtain ⟨name, width⟩ := r
  cases width with
  | w32 =>
    simp only [OperandKind.ShiftsOut, true_and, not_le]
    exact setWidth_shiftLeft_eq_iff _ hamount
  | w64 =>
    simp only [Width.bits, BitVec.setWidth_eq]
    refine iff_of_true rfl ?_
    rintro ⟨hwidth, -⟩
    cases hwidth

/-- The symbolic form of a register operand denotes the word of the operand, shifted in its own
width: it has a value, and the low bits of the value are the word. The value is the zero extended
word unless a set bit is shifted out of the low half to the left. -/
theorem denotes_symbolic_of_register (v : Valuation) (hregister : o.kind.register? = some r)
    (hamount : ∀ shift amount, o.kind = .shifted r shift amount → amount.toNat < r.width.bits) :
    ∃ x, o.kind.content? v r.width.bits = some x ∧ o.symbolic.Denotes v x ∧
      (o.symbolic.eval v = some (x.setWidth 64) ↔ ¬ o.kind.ShiftsOut v) := by
  have hwidth := r.width.bits_le
  cases hkind : o.kind with
  | imm | mem => simp [hkind, OperandKind.register?] at hregister
  | reg r' =>
    obtain rfl : r' = r := by simpa [hkind, OperandKind.register?] using hregister
    have heval : o.symbolic.eval v = some ((r'.content v r'.width.bits).setWidth 64) := by
      rw [symbolic_of_reg hkind, r'.eval_symbolic]
    exact ⟨_, rfl, Expr.denotes_of_eval hwidth heval, iff_of_true heval not_false⟩
  | shifted r' shift amount =>
    obtain rfl : r' = r := by simpa [hkind, OperandKind.register?] using hregister
    have hlt := hamount shift amount hkind
    refine ⟨_, rfl, denotes_of_shifted hkind hlt v, ?_⟩
    cases shift with
    | lsl => exact hkind ▸ eval_symbolic_of_lsl_iff hkind hlt
    | lsr | asr => exact iff_of_true (eval_symbolic_of_right_shift hkind (by decide) hlt) not_false

/-- A register of 32 bits, shifted to the left so that the top bit of the word is set. -/
theorem denotes_symbolic_of_w2_lsl :
    let o : Operand := { kind := .shifted ⟨.general 2, .w32⟩ .lsl 4 }
    let v : Valuation := { reg := fun _ => 0x0fffffff, cell := fun _ _ => 0 }
    o.kind.content? v 32 = some 0xfffffff0 ∧ o.symbolic.eval v = some 0xfffffff0 := by
  intro o v
  have hamount : ∀ shift amount, o.kind = .shifted ⟨.general 2, .w32⟩ shift amount →
      amount.toNat < Width.w32.bits := by
    intro shift amount h
    cases h
    decide
  have hvalue : o.kind.content? v 32 = some 0xfffffff0 := by decide
  obtain ⟨x, hcontent, -, heval⟩ := denotes_symbolic_of_register v (o := o) rfl hamount
  obtain rfl : 0xfffffff0 = x := Option.some.inj (hvalue.symm.trans hcontent)
  exact ⟨hvalue, heval.mpr fun hout => absurd hout.2 (by decide)⟩

/-- The same shift of a register with one bit more leaves a bit in the upper half. -/
theorem eval_symbolic_of_w2_lsl_out :
    let o : Operand := { kind := .shifted ⟨.general 2, .w32⟩ .lsl 4 }
    let v : Valuation := { reg := fun _ => 0x1fffffff, cell := fun _ _ => 0 }
    o.kind.content? v 32 = some 0xfffffff0 ∧ o.symbolic.eval v = some 0x1fffffff0 := by
  decide

end Operand

end A64Disassembler
