/-!
# Faults and checked arithmetic

An operation whose precondition fails has no answer. The cause is a value here, so that a
caller can state exactly when an operation succeeds. Sizes are natural numbers below `sizeLimit`
and addresses are 64-bit words; the checked operations fail instead of wrapping around.
-/

namespace A64Disassembler

/-- A 64-bit address, which also serves as an unsigned 64-bit quantity. -/
abbrev Address := BitVec 64

/-- A 32-bit instruction word. -/
abbrev Word := BitVec 32

/-- Why an operation has no answer. -/
inductive Fault
  /-- The exact result of an arithmetic operation does not fit, or a shift is too long. -/
  | overflow
  /-- A position or a length lies outside of the sequence it refers to. -/
  | outOfBounds
  /-- A value does not belong to the domain it is used in. -/
  | invalid
  /-- Opcode table, operands and effect rules contradict each other. -/
  | inconsistent (message : String)
  /-- Something is asked for that does not exist. -/
  | unexpected (message : String)
  deriving DecidableEq, Repr

/-- Sizes, offsets and addresses are smaller than this bound, the 64th power of two. -/
def sizeLimit : Nat := 0x10000000000000000

/-- The sum of two sizes, if it is a size. -/
def addSizes (a b : Nat) : Except Fault Nat :=
  if a + b < sizeLimit then .ok (a + b) else .error .overflow

/-- The difference of two sizes, if it is a size. -/
def subSizes (a b : Nat) : Except Fault Nat :=
  if b ≤ a then .ok (a - b) else .error .overflow

namespace Address

/-- The address `count` bytes further on, if the address space reaches that far. -/
def advance (a : Address) (count : Nat) : Except Fault Address :=
  if a.toNat + count < sizeLimit then .ok (a + BitVec.ofNat 64 count) else .error .overflow

/-- How far `a` lies behind `b`, unless it lies before it. -/
def distanceFrom (a b : Address) : Except Fault Address :=
  if b ≤ a then .ok (a - b) else .error .overflow

/-- An address is advanced exactly if the address space reaches that far. -/
theorem advance_eq_ok {a b : Address} {count : Nat} :
    a.advance count = .ok b ↔ a.toNat + count < sizeLimit ∧ b = a + BitVec.ofNat 64 count := by
  unfold advance
  split
  · simp_all [eq_comm]
  · simp only [reduceCtorEq, false_iff, not_and]
    omega

/-- The distance from another address is known exactly if that one does not lie behind. -/
theorem distanceFrom_eq_ok {a b d : Address} :
    a.distanceFrom b = .ok d ↔ b ≤ a ∧ d = a - b := by
  unfold distanceFrom
  split
  · simp_all only [Except.ok.injEq, true_and]
    exact eq_comm
  · simp_all only [reduceCtorEq, false_and]

end Address

end A64Disassembler
