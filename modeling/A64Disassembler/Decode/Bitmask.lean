import A64Disassembler.Fault

/-!
# Bitmask immediates

A bitmask immediate repeats an element of 1, 2, 4, …, 64 bits. The element is a run of one bits
that is rotated to the right. The element size is one more than the highest power of two in the
number formed by `n` and the inverted bits of `s`, less one; the run has one bit more than the
low bits of `s` say.
-/

namespace A64Disassembler.Bitmask

/-- The number below every element size: all bits up to the highest one of `n` and inverted `s`,
but the lowest. -/
def levels (n s : Word) : Nat :=
  let bits := ((n <<< 6) ||| (s ^^^ 0x3f)) >>> 1
  let bits := bits ||| bits >>> 1
  let bits := bits ||| bits >>> 2
  let bits := bits ||| bits >>> 4
  bits.toNat

/-- The low `count` bits set. -/
def ones (count : Nat) : BitVec 128 :=
  ((1 : BitVec 128) <<< count) - 1

/-- An element of `size` bits: `count` one bits rotated right by `rotation`. -/
def element (size count rotation : Nat) : BitVec 128 :=
  ((ones count >>> rotation) ||| (ones count <<< (size - rotation))) &&& ones size

/-- Copies of an element of `size` bits side by side, at least 64 bits of them. -/
def tile (size : Nat) (element : BitVec 128) : BitVec 128 :=
  [1, 2, 4, 8, 16, 32].foldl
    (fun mask filled => if size ≤ filled then mask ||| (mask <<< filled) else mask) element

/-- The value of a bitmask immediate in a register of `width` bits. The element has to be
shorter than 128 bits, and so has the register. -/
def value (n s r : Word) (width : Nat) : Except Fault (BitVec 64) :=
  let levels := levels n s
  let size := levels + 1
  if size < 128 ∧ width < 128 then
    let count := (s.toNat &&& levels) + 1
    let rotation := (r.toNat &&& levels) % size
    .ok ((tile size (element size count rotation) &&& ones width).setWidth 64)
  else
    .error .overflow

end A64Disassembler.Bitmask
