import A64Disassembler.Decode.Decoder
import A64Disassembler.Proofs.Bits.Field
import A64Disassembler.Proofs.Encoding.Lookup

/-!
# Decoding step by step

A word is looked up and its operands are made by total operations, which have a result for all
arguments. Here every step is taken together with the condition under which it is meant: a position
lies inside the sequence it refers to, a field inside the word, a shift amount below the width, a
product of signed numbers inside 64 bits, a register inside the numbering of all registers.

No condition fails. The lookup in an index and the operands of a word are those of the total
operations, for every spec, whatever its name, bits, fields and arguments are.
-/

namespace A64Disassembler

namespace Bits

/-- `value` moved up by less than its width. The bits that are moved out of it are lost. -/
def shiftLeft? (value : BitVec 64) (amount : Nat) : Except Fault (BitVec 64) :=
  if amount < 64 then .ok (value <<< amount) else .error .overflow

/-- The product of two signed numbers, if it is one of 64 bits. -/
def multiply? (a b : BitVec 64) : Except Fault (BitVec 64) :=
  if BitVec.smulOverflow a b then .error .overflow else .ok (a * b)

/-- The product of small numbers is one of 64 bits. -/
theorem multiply?_eq_ok {a b : BitVec 64} (ha : a.toInt.natAbs ≤ 4096) (hb : b.toInt.natAbs ≤ 255) :
    multiply? a b = .ok (a * b) := by
  have hproduct : (a.toInt * b.toInt).natAbs ≤ 4096 * 255 := by
    rw [Int.natAbs_mul]
    exact Nat.mul_le_mul ha hb
  have hfits : BitVec.smulOverflow a b = false := by
    simp only [BitVec.smulOverflow, Bool.or_eq_false_iff, decide_eq_false_iff_not]
    omega
  rw [multiply?, hfits]
  rfl

end Bits

namespace Table

/-- Looks a word up. The bucket and the specs of its positions have to exist. -/
def checkedFind? (t : Table) (word : Word) : Except Fault (Option Nat) :=
  match t.buckets[word.toNat >>> 24]? with
  | none => .error .outOfBounds
  | some bucket => firstMatch bucket
where
  /-- The first position of a spec that the word matches. -/
  firstMatch : List Nat → Except Fault (Option Nat)
    | [] => .ok none
    | position :: rest =>
      match t.spec? position with
      | none => .error .outOfBounds
      | some s => if s.accepts word then .ok (some position) else firstMatch rest

/-- Positions inside the table are looked at one after the other. -/
theorem firstMatch_eq_find? (t : Table) (word : Word) {positions : List Nat}
    (hpositions : ∀ position ∈ positions, ∃ s, t.spec? position = some s) :
    checkedFind?.firstMatch t word positions =
      .ok (positions.find? fun position => (t.spec? position).any (·.accepts word)) := by
  induction positions with
  | nil => rfl
  | cons position rest ih =>
    obtain ⟨⟨s, hs⟩, hrest⟩ := List.forall_mem_cons.mp hpositions
    cases haccepts : s.accepts word with
    | true => simp [checkedFind?.firstMatch, hs, haccepts]
    | false => simp [checkedFind?.firstMatch, hs, haccepts, ih hrest]

/-- Looking a word up in an index never leaves the buckets or the specs. -/
theorem checkedFind?_index (specs : List Spec) (word : Word) :
    (index specs).checkedFind? word = .ok ((index specs).find? word) := by
  have hbyte : word.toNat >>> 24 < 256 := by
    rw [Nat.shiftRight_eq_div_pow]
    omega
  have hbucket := bucket_index specs hbyte
  have hmem : ∀ position ∈ (index specs).bucket (word.toNat >>> 24),
      ∃ s, (index specs).spec? position = some s := by
    intro position hposition
    rw [hbucket] at hposition
    obtain ⟨⟨s, _⟩, hentry, rfl⟩ := List.mem_map.mp hposition
    exact ⟨s, (spec?_index specs _).trans
      (List.mem_zipIdx_iff_getElem?.mp (List.mem_filter.mp hentry).1)⟩
  have hexists := getElem?_foldl_addToBuckets specs 0 (Array.replicate 256 []) hbyte
  rw [Array.getElem?_replicate, if_pos hbyte, Option.map_some, List.nil_append, ← hbucket]
    at hexists
  have hexists : (index specs).buckets[word.toNat >>> 24]? =
      some ((index specs).bucket (word.toNat >>> 24)) := hexists
  rw [checkedFind?, hexists]
  exact firstMatch_eq_find? (index specs) word hmem

end Table

namespace Spec

variable (s : Spec) (word : Word)

/-- The content of a field, which has to be a nonempty part of the word. -/
def checkedField (f : FieldName) : Except Fault Word := do
  let field ← Bits.Field.ofBounds f.bits.start f.bits.size
  Bits.zeroExtract? word field.start field.size

/-- The content of a field as an unsigned value of 64 bits. -/
def checkedUnsigned (f : FieldName) : Except Fault (BitVec 64) := do
  return (← checkedField word f).setWidth 64

/-- The content of a field as a signed value of 64 bits. -/
def checkedSigned (f : FieldName) : Except Fault (BitVec 64) := do
  Bits.signExtend? (← checkedUnsigned word f) f.bits.size

/-- The register in a field, which has to be in the numbering of all registers. -/
def checkedReg (f : FieldName) : Except Fault Reg := do
  let number := (← checkedField word f).toNat
  let zero31 := s.has Feature.zero31 || (f == .rn && s.has Feature.zeroSource31)
  Reg.ofNumbers (if number = 31 ∧ zero31 then 32 else number) s.regWidth.bits

/-- A reference to memory at the base register. -/
def checkedMem (offset : BitVec 64) : Except Fault Operand := do
  let base ← Reg.ofNumbers (← checkedField word .rn).toNat 64
  let ref : MemRef := { base, offset := .const offset, size := s.memSize, increment := s.increment }
  return { kind := .mem ref }

/-- The operand for an argument, given the operands before it. -/
def checkedOperand (before : List Operand) : Arg → Except Fault Operand
  | .rn => do return .reg (← s.checkedReg word .rn)
  | .rt => do return .reg (← s.checkedReg word .rt)
  | .rt2 => do return .reg (← s.checkedReg word .rt2)
  | .rm => do return .reg (← s.checkedReg word .rm)
  | .shifted shift width => do
    let r ← s.checkedReg word .rm
    let amount ← checkedField word (Arg.amountField width)
    return { kind := .shifted r shift (UInt8.ofNat amount.toNat) }
  | .imm16 => do return .imm (.const (← checkedUnsigned word .imm16))
  | .imm16Half => do
    let content ← checkedUnsigned word .imm16
    let half ← checkedField word .half
    return .imm (.const (← Bits.shiftLeft? content (16 * half.toNat)))
  | .distance19 => do
    return .imm (.const (← Bits.shiftLeft? (← checkedSigned word .imm19) 2))
  | .distance26 => do
    return .imm (.const (← Bits.shiftLeft? (← checkedSigned word .imm26) 2))
  | .imm12 => do
    let content ← checkedUnsigned word .imm13
    if content.getLsbD 12 then
      return .imm (.const (← Bits.shiftLeft? (content &&& 0xfff) 12))
    else
      return .imm (.const content)
  | .distance21 => do
    let high ← Bits.shiftLeft? (← checkedUnsigned word .imm19) 2
    let low ← checkedUnsigned word .imm2
    return .imm (.const (← Bits.signExtend? (high ||| low) 21))
  | .bitmask =>
    match before.head?.bind Operand.reg? with
    | some destination => do
      let n ← checkedField word .maskN
      let ones ← checkedField word .maskS
      let rotation ← checkedField word .maskR
      return .imm (.const (← Bitmask.value n ones rotation destination.width.bits))
    | none =>
      .error (.inconsistent
        (s.name ++ ": " ++ Arg.bitmask.text ++ " without a destination register"))
  | .memOffset9 => do s.checkedMem word (← checkedSigned word .offset9)
  | .memOffset12 => do
    s.checkedMem word (← Bits.multiply? (← checkedUnsigned word .offset12) s.offsetUnit)
  | .memOffset7 => do
    s.checkedMem word (← Bits.multiply? (← checkedSigned word .offset7) s.offsetUnit)

/-- The operands for a list of arguments, after the operands before them. -/
def checkedOperandsFrom (before : List Operand) : List Arg → Except Fault (List Operand)
  | [] => .ok before
  | a :: rest => do
    let o ← s.checkedOperand word before a
    checkedOperandsFrom (before ++ [o]) rest

/-- The operands of a word, before the last one is made absolute. -/
def checkedOperands : Except Fault (List Operand) :=
  s.checkedOperandsFrom word [] s.args

/-- Every field is a nonempty part of the word. -/
theorem checkedField_eq (f : FieldName) : checkedField word f = .ok (f.extract word) := by
  have hbounds : 0 < f.bits.size ∧ f.bits.start + f.bits.size ≤ 32 := ⟨f.bits.size_pos, f.bits.fits⟩
  rw [checkedField, Bits.Field.ofBounds, dif_pos hbounds]
  exact if_pos hbounds

/-- Every field has an unsigned value. -/
theorem checkedUnsigned_eq (f : FieldName) :
    checkedUnsigned word f = .ok (unsignedField word f) := by
  rw [checkedUnsigned, checkedField_eq]
  rfl

/-- Every field has a signed value. -/
theorem checkedSigned_eq (f : FieldName) : checkedSigned word f = .ok (signedField word f) := by
  have hfits := f.bits.fits
  rw [checkedSigned, checkedUnsigned_eq]
  exact if_pos ⟨f.bits.size_pos, by omega⟩

/-- A number below 32 is that of a register. -/
theorem ofNumbers_eq {number : Nat} (h : number < 32) (zero31 : Bool) (width : Width) :
    Reg.ofNumbers (if number = 31 ∧ zero31 then 32 else number) width.bits =
      .ok ⟨RegName.ofNumber number zero31, width⟩ := by
  have hname : RegName.ofIndex? (if number = 31 ∧ zero31 then 32 else number) =
      some (RegName.ofNumber number zero31) := by
    unfold RegName.ofIndex? RegName.ofNumber
    by_cases hlt : number < 31
    · simp [hlt, Nat.ne_of_lt hlt]
    · obtain rfl : number = 31 := by omega
      cases zero31 <;> rfl
  rw [Reg.ofNumbers, hname]
  cases width <;> rfl

/-- Every register field holds the number of a register. -/
theorem checkedReg_eq {f : FieldName} (hsize : f.bits.size = 5) :
    s.checkedReg word f = .ok (s.regAt word f) := by
  have hlt : (f.extract word).toNat < 32 := by
    have h := f.bits.extract_lt word
    rwa [hsize] at h
  rw [checkedReg, checkedField_eq]
  exact ofNumbers_eq hlt _ _

/-- The base register of a memory reference is a register. -/
theorem checkedMem_eq (offset : BitVec 64) :
    s.checkedMem word offset = .ok (s.memOperand word offset) := by
  have hlt : (FieldName.rn.extract word).toNat < 32 := FieldName.rn.bits.extract_lt word
  have hbase := ofNumbers_eq hlt false .w64
  simp only [Bool.false_eq_true, and_false, if_false] at hbase
  rw [checkedMem, checkedField_eq]
  simp only [bind, Except.bind]
  rw [show (64 : Nat) = Width.w64.bits from rfl, hbase]
  rfl

/-- The number of bytes of an access is small. -/
theorem natAbs_toInt_offsetUnit : s.offsetUnit.toInt.natAbs ≤ 255 := by
  have hlt := s.memSize.toNat_lt
  have hnat : s.offsetUnit.toNat = s.memSize.toNat := by
    rw [offsetUnit, BitVec.toNat_ofNat]
    omega
  rw [BitVec.toInt_eq_toNat_of_lt (by omega), hnat]
  omega

/-- An unsigned offset is small. -/
theorem natAbs_toInt_offset12 : (unsignedField word .offset12).toInt.natAbs ≤ 4096 := by
  have hlt : (FieldName.offset12.extract word).toNat < 4096 :=
    FieldName.offset12.bits.extract_lt word
  have hnat : (unsignedField word .offset12).toNat = (FieldName.offset12.extract word).toNat := by
    rw [unsignedField, BitVec.toNat_setWidth]
    omega
  rw [BitVec.toInt_eq_toNat_of_lt (by omega), hnat]
  omega

/-- A signed offset is small. -/
theorem natAbs_toInt_offset7 : (signedField word .offset7).toInt.natAbs ≤ 4096 := by
  rw [signedField_eq, BitVec.toInt_signExtend_of_le (by decide)]
  have hle := BitVec.le_two_mul_toInt (x := word.extractLsb' 15 7)
  have hlt := BitVec.two_mul_toInt_lt (x := word.extractLsb' 15 7)
  change (word.extractLsb' 15 7).toInt.natAbs ≤ 4096
  omega

/-- No step on the way to an operand is out of range. -/
theorem checkedOperand_eq (before : List Operand) (a : Arg) :
    s.checkedOperand word before a = s.operand word before a := by
  cases a with
  | rn | rt | rt2 | rm =>
    rw [checkedOperand, checkedReg_eq s word rfl]
    rfl
  | shifted shift width =>
    rw [checkedOperand, checkedReg_eq s word rfl, checkedField_eq]
    rfl
  | imm16 =>
    rw [checkedOperand, checkedUnsigned_eq]
    rfl
  | imm16Half =>
    have hlt : (FieldName.half.extract word).toNat < 4 := FieldName.half.bits.extract_lt word
    have hshift : Bits.shiftLeft? (unsignedField word .imm16)
        (16 * (FieldName.half.extract word).toNat) = .ok _ := if_pos (by omega)
    rw [checkedOperand, checkedUnsigned_eq, checkedField_eq]
    simp only [bind, Except.bind, hshift]
    rfl
  | distance19 | distance26 =>
    rw [checkedOperand, checkedSigned_eq]
    rfl
  | imm12 =>
    rw [checkedOperand, checkedUnsigned_eq, operand, shiftedImmediate]
    simp only [bind, Except.bind]
    split <;> rfl
  | distance21 =>
    rw [checkedOperand, checkedUnsigned_eq, checkedUnsigned_eq]
    rfl
  | bitmask =>
    rw [checkedOperand, checkedField_eq, checkedField_eq, checkedField_eq]
    rfl
  | memOffset9 =>
    rw [checkedOperand, checkedSigned_eq, operand]
    simp only [bind, Except.bind, checkedMem_eq]
  | memOffset12 =>
    have hproduct := Bits.multiply?_eq_ok (natAbs_toInt_offset12 word) s.natAbs_toInt_offsetUnit
    rw [checkedOperand, checkedUnsigned_eq, operand]
    simp only [bind, Except.bind, hproduct, checkedMem_eq]
  | memOffset7 =>
    have hproduct := Bits.multiply?_eq_ok (natAbs_toInt_offset7 word) s.natAbs_toInt_offsetUnit
    rw [checkedOperand, checkedSigned_eq, operand]
    simp only [bind, Except.bind, hproduct, checkedMem_eq]

/-- No step on the way to the operands of a list of arguments is out of range. -/
theorem checkedOperandsFrom_eq (before : List Operand) (args : List Arg) :
    s.checkedOperandsFrom word before args = s.operandsFrom word before args := by
  induction args generalizing before with
  | nil => rfl
  | cons a rest ih =>
    simp only [checkedOperandsFrom, operandsFrom, checkedOperand_eq, ih]

/-- No step on the way to the operands of a word is out of range. -/
theorem checkedOperands_eq : s.checkedOperands word = s.operands word :=
  s.checkedOperandsFrom_eq word [] s.args

end Spec

end A64Disassembler
