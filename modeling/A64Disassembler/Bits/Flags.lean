import A64Disassembler.Fault

/-!
# Sets of flags

A set of flags is a 32-bit word with one bit for each flag.
-/

namespace A64Disassembler

/-- A set of up to 32 flags. -/
structure Flags where
  raw : BitVec 32 := 0
  deriving DecidableEq, Repr, Inhabited

namespace Flags

/-- Adds all of `flags`. -/
def set (s : Flags) (flags : BitVec 32) : Flags :=
  ⟨s.raw ||| flags⟩

/-- Removes all of `flags`. -/
def clear (s : Flags) (flags : BitVec 32) : Flags :=
  ⟨s.raw &&& ~~~flags⟩

/-- Adds all of `flags` if `condition` holds, and removes them otherwise. -/
def setIf (s : Flags) (flags : BitVec 32) (condition : Bool) : Flags :=
  if condition then s.set flags else s.clear flags

/-- Whether one of `flags` is in the set. -/
def any (s : Flags) (flags : BitVec 32) : Bool :=
  s.raw &&& flags != 0

/-- Whether every one of `flags` is in the set. -/
def all (s : Flags) (flags : BitVec 32) : Bool :=
  s.raw &&& flags == flags

/-- How many of `flags` are in the set. -/
def count (s : Flags) (flags : BitVec 32) : Nat :=
  ((List.range 32).filter (s.raw &&& flags).getLsbD).length

end Flags

end A64Disassembler
