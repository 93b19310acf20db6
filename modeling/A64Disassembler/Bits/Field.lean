import A64Disassembler.Bits.Basic

/-!
# Bit fields of an instruction word

A field is a nonempty group of consecutive bits inside a 32-bit word. That it lies inside the
word is part of its type, so that reading a field never fails.
-/

namespace A64Disassembler.Bits

/-- The bits `start`, …, `start + size - 1` of a word. -/
structure Field where
  start : Nat
  size : Nat
  size_pos : 0 < size := by decide
  fits : start + size ≤ 32 := by decide
  deriving DecidableEq, Repr

namespace Field

/-- The field with the given bounds, if they describe a nonempty part of a word. -/
def ofBounds (start size : Nat) : Except Fault Field :=
  if h : 0 < size ∧ start + size ≤ 32 then .ok ⟨start, size, h.1, h.2⟩ else .error .invalid

/-- As many one bits as the field is wide, from bit 0 on. -/
def widthMask (f : Field) : Word :=
  BitVec.allOnes 32 >>> (32 - f.size)

/-- The bits of the field set, all others clear. -/
def mask (f : Field) : Word :=
  f.widthMask <<< f.start

/-- The content of the field in `word`. -/
def extract (f : Field) (word : Word) : Word :=
  zeroExtract word f.start f.size

end Field

end A64Disassembler.Bits
