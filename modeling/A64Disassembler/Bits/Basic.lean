import A64Disassembler.Fault

/-!
# Reading and writing groups of bits

Groups of bits of a word are read with zero extension, written back, and 64-bit values are
sign extended from any width. Each operation has a total form, meaningful for positions inside
the word, and a checked form that fails for all other positions.
-/

namespace A64Disassembler.Bits

/-- The `len` bits of `value` from bit `pos` on, moved down to bit 0. -/
def zeroExtract (value : Word) (pos len : Nat) : Word :=
  (value <<< (32 - pos - len)) >>> (32 - len)

/-- `zeroExtract` for a nonempty group of bits inside the word. -/
def zeroExtract? (value : Word) (pos len : Nat) : Except Fault Word :=
  if 0 < len ∧ pos + len ≤ 32 then .ok (zeroExtract value pos len) else .error .overflow

/-- The low `bits` bits of `value` as a two's complement number of 64 bits. -/
def signExtend (value : BitVec 64) (bits : Nat) : BitVec 64 :=
  (value <<< (64 - bits)).sshiftRight (64 - bits)

/-- `signExtend` from a width between 1 and 64. -/
def signExtend? (value : BitVec 64) (bits : Nat) : Except Fault (BitVec 64) :=
  if 0 < bits ∧ bits ≤ 64 then .ok (signExtend value bits) else .error .overflow

/-- `value` with its `len` bits from bit `pos` on replaced by the low bits of `content`. -/
def deposit (value : Word) (pos len : Nat) (content : Word) : Word :=
  let mask := (BitVec.allOnes 32 >>> (32 - len)) <<< pos
  (value &&& ~~~mask) ||| ((content <<< pos) &&& mask)

/-- `deposit` at a position inside the word. A group that reaches beyond the word is cut off. -/
def deposit? (value : Word) (pos len : Nat) (content : Word) : Except Fault Word :=
  if 0 < len ∧ len ≤ 32 ∧ pos < 32 then .ok (deposit value pos len content) else .error .overflow

end A64Disassembler.Bits
