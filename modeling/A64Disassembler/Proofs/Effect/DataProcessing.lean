import A64Disassembler.Effect.Analysis
import A64Disassembler.Proofs.Decode.Decoded
import A64Disassembler.Proofs.Effect.Change

/-!
# The bindings of data-processing instructions

What a data-processing instruction computes is said here by its mnemonic, on words of the width
of its operands. The binding of such an instruction changes its destination alone, apart from
the condition flags, and the value it gives evaluates to the computed word, zero extended.

A value in a binding is built from expressions that are right in their low bits only. Sums,
differences and logical operations carry no bit downwards, and the last step cuts the result
down to the width, so the bits above do not matter. Shifts to the right do carry bits
downwards; their operands are registers, whose expressions are right in all bits.
-/

namespace A64Disassembler

/-- The mnemonics of moves, sums, differences, logical operations and shifts. -/
def dataMnemonics : List String :=
  ["mov", "movz", "movn", "adr", "adrp", "add", "adds", "sub", "subs", "and", "ands", "orr", "eor",
    "neg", "lsl", "lsr", "asr"]

/-- The mnemonics among them that set the condition flags. -/
def flagSettingMnemonics : List String :=
  ["adds", "subs", "ands"]

/-- The word that a data-processing instruction computes from the words of its sources. -/
def dataResult? {w : Nat} : String → List (BitVec w) → Option (BitVec w)
  | "mov", [a] | "movz", [a] | "adr", [a] | "adrp", [a] => some a
  | "movn", [a] => some (~~~a)
  | "neg", [a] => some (-a)
  | "add", [a, b] | "adds", [a, b] => some (a + b)
  | "sub", [a, b] | "subs", [a, b] => some (a - b)
  | "and", [a, b] | "ands", [a, b] => some (a &&& b)
  | "orr", [a, b] => some (a ||| b)
  | "eor", [a, b] => some (a ^^^ b)
  | "lsl", [a, b] => some (a <<< (b.toNat % w))
  | "lsr", [a, b] => some (a >>> (b.toNat % w))
  | "asr", [a, b] => some (a.sshiftRight (b.toNat % w))
  | _, _ => none

/-- The address that a relative instruction stands for. Its word holds a signed distance of 21 bits,
in bytes from the instruction or in pages from the page of the instruction. -/
def relativeAddress? (name : String) (address : Address) (word : Word) : Option (BitVec 64) :=
  let distance := (word.extractLsb' 5 19 ++ word.extractLsb' 29 2).signExtend 64
  match name with
  | "adr" => some (address + distance)
  | "adrp" => some ((address &&& ~~~(0xfff : BitVec 64)) + distance <<< 12)
  | _ => none

/-- An operator on words of `w` bits. A shift takes its amount modulo the width. -/
def Op.apply {w : Nat} : Op → BitVec w → BitVec w → BitVec w
  | add, a, b => a + b
  | sub, a, b => a - b
  | and, a, b => a &&& b
  | or, a, b => a ||| b
  | xor, a, b => a ^^^ b
  | shl, a, b => a <<< (b.toNat % w)
  | shr, a, b => a >>> (b.toNat % w)
  | sar, a, b => a.sshiftRight (b.toNat % w)

/-- Whether an argument is a source of words of the given width. -/
def Arg.isSource (w : Width) : Arg → Bool
  | .memOffset9 | .memOffset12 | .memOffset7 => false
  | .shifted _ width => width == w
  | _ => true

namespace Rule

/-- The word that a rule computes from the words of the sources. -/
def result? {w : Nat} : Rule → List (BitVec w) → Option (BitVec w)
  | move, [a] => some a
  | moveNot, [a] => some (~~~a)
  | negate, [a] => some (-a)
  | binary o _, [a, b] | shift o, [a, b] => some (o.apply a b)
  | _, _ => none

/-- Whether the rule sets the condition flags besides writing its destination. -/
def setsFlags : Rule → Bool
  | binary _ setsFlags => setsFlags
  | _ => false

/-- The rule of a data-processing mnemonic computes the result of the instruction. -/
theorem exists_of_dataMnemonic {name : String} (h : name ∈ dataMnemonics) :
    ∃ rule, ofMnemonic? name = some rule ∧
      (rule.setsFlags = true ↔ name ∈ flagSettingMnemonics) ∧
      ∀ {w : Nat} (inputs : List (BitVec w)), dataResult? name inputs = rule.result? inputs := by
  simp only [dataMnemonics, List.mem_cons, List.not_mem_nil, or_false] at h
  rcases h with rfl | rfl | rfl | rfl | rfl | rfl | rfl | rfl | rfl | rfl | rfl | rfl | rfl | rfl |
    rfl | rfl | rfl
  all_goals
    refine ⟨_, rfl, by decide, ?_⟩
    rintro w (_ | ⟨a, _ | ⟨b, _ | ⟨c, rest⟩⟩⟩) <;> rfl

/-- Whether the rule finds a destination and sources of words of the given width, and an operator
that it can apply to them. The sources of a shift are plain registers. -/
def fits (w : Width) : Rule → List Arg → Bool
  | move, [.rt, a] | moveNot, [.rt, a] | negate, [.rt, a] => a.isSource w
  | binary o _, [.rt, a, b] => !o.isShift && (a.isSource w && b.isSource w)
  | shift o, [.rt, .rn, .rm] => o.isShift
  | _, _ => false

/-- Every built-in data-processing encoding has the arguments that its rule reads. -/
theorem fits_of_mem_catalogue {s : Spec} {rule : Rule} (hs : s ∈ Catalogue.specs)
    (hname : s.name ∈ dataMnemonics) (hrule : ofMnemonic? s.name = some rule) :
    rule.fits s.regWidth s.args = true := by
  have hall : (Catalogue.specs.all fun s => !(dataMnemonics.contains s.name) ||
      (ofMnemonic? s.name).all fun rule => rule.fits s.regWidth s.args) = true := by
    decide +kernel
  have h := List.all_eq_true.mp hall s hs
  simpa [hname, hrule] using h

end Rule

namespace Expr

variable {v : Valuation}

/-- An operator that is no shift denotes its result on the words that its operands denote. -/
theorem denotes_op {o : Op} (ho : o.isShift = false) {w : Nat} (hw : w ≤ 64) {lhs rhs : Expr}
    {a b : BitVec w} (ha : lhs.Denotes v a) (hb : rhs.Denotes v b) :
    (op o lhs rhs).Denotes v (o.apply a b) := by
  obtain ⟨x, hx, rfl⟩ := Option.map_eq_some_iff.mp ha
  obtain ⟨y, hy, rfl⟩ := Option.map_eq_some_iff.mp hb
  simp only [Denotes, eval, hx, hy, Option.bind_some, Option.map_some]
  congr 1
  cases o with
  | add => exact BitVec.setWidth_add x y hw
  | sub =>
    simp only [Op.eval, Op.apply, BitVec.sub_eq_add_neg]
    rw [BitVec.setWidth_add x (-y) hw, BitVec.setWidth_neg_of_le hw]
  | and => exact BitVec.setWidth_and
  | or => exact BitVec.setWidth_or
  | xor => exact BitVec.setWidth_xor
  | shl | shr | sar => simp [Op.isShift] at ho

/-- Flipping all bits denotes the complement of the denoted word. -/
theorem denotes_complement {w : Nat} (hw : w ≤ 64) {e : Expr} {a : BitVec w} (h : e.Denotes v a) :
    (op .xor e (const (-1))).Denotes v (~~~a) := by
  have hones : (const (-1)).Denotes v (BitVec.allOnes w) := by
    have hall : (-1 : BitVec 64) = BitVec.allOnes 64 := rfl
    rw [Denotes, eval, Option.map_some, hall]
    congr 1
    ext i hi
    simp only [BitVec.getElem_setWidth, BitVec.getLsbD_allOnes, BitVec.getElem_allOnes]
    exact decide_eq_true (by omega)
  have hxor : a ^^^ BitVec.allOnes w = ~~~a := BitVec.xor_allOnes
  rw [← hxor]
  exact denotes_op rfl hw h hones

/-- Subtracting from zero denotes the negated word. -/
theorem denotes_negation {w : Nat} (hw : w ≤ 64) {e : Expr} {a : BitVec w} (h : e.Denotes v a) :
    (op .sub (const 0) e).Denotes v (-a) := by
  have hzero : (const 0).Denotes v (0 : BitVec w) := by
    rw [Denotes, eval, Option.map_some]
    simp
  rw [← BitVec.zero_sub a]
  exact denotes_op rfl hw hzero h

/-- The mask below the width takes an amount modulo the width. -/
theorem toNat_and_width (w : Width) (b : BitVec w.bits) :
    (b.setWidth 64 &&& BitVec.ofNat 64 (w.bits - 1)).toNat = b.toNat % w.bits := by
  have hb : (b.setWidth 64).toNat = b.toNat := by
    rw [BitVec.toNat_setWidth]
    exact Nat.mod_eq_of_lt (Nat.lt_of_lt_of_le b.isLt (Nat.pow_le_pow_right (by decide) w.bits_le))
  rw [BitVec.toNat_and, hb]
  cases w with
  | w32 => exact Nat.and_two_pow_sub_one_eq_mod b.toNat 5
  | w64 => exact Nat.and_two_pow_sub_one_eq_mod b.toNat 6

/-- A shift by an amount modulo the width denotes the shifted word. -/
theorem denotes_shift_mod (shift : Shift) {w : Width} {lhs rhs : Expr} {a b : BitVec w.bits}
    (ha : lhs.eval v = some (a.setWidth 64)) (hb : rhs.eval v = some (b.setWidth 64)) :
    (op shift.op (if shift.op = .sar ∧ w = .w32 then lhs.signExtend32 else lhs)
      (op .and rhs (const (BitVec.ofNat 64 (w.bits - 1))))).Denotes v (shift.op.apply a b) := by
  have hamount : (op .and rhs (const (BitVec.ofNat 64 (w.bits - 1)))).eval v =
      some (b.setWidth 64 &&& BitVec.ofNat 64 (w.bits - 1)) := by
    simp only [eval, hb, Option.bind_some, Option.map_some, Op.eval]
  have hlt : b.toNat % w.bits < w.bits := Nat.mod_lt _ (by cases w <;> decide)
  have h := denotes_shift shift ha hamount (by rw [toNat_and_width]; exact hlt)
  rw [toNat_and_width] at h
  cases shift with
  | lsl | lsr => exact h
  | asr =>
    simp only [Shift.op, true_and] at h ⊢
    exact h

end Expr

namespace Binding

/-- Writing a register to an empty binding gives the effect on that register alone, and none on
the zero register. -/
theorem effects_assign (d : Reg) (value : Expr) :
    (empty.assign d value).effects =
      if d.isZero then [] else [(.reg d.name.name64, (written d value).reduce)] := by
  unfold assign
  split <;> rfl

/-- The condition flags come before every register in the order of the locations. -/
theorem compare_conditionFlags {n : RegName} (h : n ≠ .zero) :
    compare (Location.reg conditionFlags) (Location.reg n.name64) = .lt := by
  have hgeneral : ∀ k : Fin 31, compare conditionFlags (RegName.general k).name64 = .lt := by
    decide +kernel
  cases n with
  | general k => exact hgeneral k
  | sp => decide +kernel
  | zero => contradiction

/-- Setting the flags after writing a register adds their effect before that of the register. -/
theorem effects_setFlags_assign (d : Reg) (value : Expr) :
    ((empty.assign d value).setFlags).effects =
      (.reg conditionFlags, .unknown) :: (empty.assign d value).effects := by
  unfold assign
  split
  · rfl
  · rename_i hzero
    have hne : d.name ≠ .zero := by simpa [Reg.isZero] using hzero
    simp only [setFlags, set, empty, insert, compare_conditionFlags hne, Expr.reduce]

end Binding

namespace Spec

variable {s : Spec} {word : Word}

/-- An operand of a form that a source argument admits contributes a word, and its symbolic form
denotes that word. -/
theorem denotes_source {a : Arg} {o : Operand} (hform : s.Admits word a o.kind)
    (hsource : a.isSource s.regWidth = true) (v : Valuation) :
    ∃ x : BitVec s.regWidth.bits,
      o.kind.content? v s.regWidth.bits = some x ∧ o.symbolic.Denotes v x := by
  cases a with
  | rn | rt | rt2 | rm =>
    obtain ⟨r, hkind, hwidth⟩ := hform
    rw [hkind, Operand.symbolic_of_reg hkind, ← hwidth]
    exact ⟨_, rfl, r.denotes_symbolic v⟩
  | shifted shift width =>
    obtain ⟨r, amount, hkind, hwidth, hamount⟩ := hform
    obtain rfl : width = s.regWidth := by simpa [Arg.isSource] using hsource
    rw [← hwidth] at hamount ⊢
    rw [hkind]
    exact ⟨_, rfl, Operand.denotes_of_shifted hkind hamount v⟩
  | imm16 | imm16Half | distance19 | distance26 | imm12 | distance21 | bitmask =>
    obtain ⟨c, hkind⟩ := hform
    rw [hkind, Operand.symbolic_of_imm hkind]
    exact ⟨_, rfl, rfl⟩
  | memOffset9 | memOffset12 | memOffset7 => simp [Arg.isSource] at hsource

/-- The operands of an encoding with a destination and one source. -/
theorem operands_of_one_source {a : Arg} {operands : List Operand}
    (hsource : a.isSource s.regWidth = true)
    (h : List.Forall₂ (s.Admits word) [.rt, a] (operands.map Operand.kind)) :
    ∃ (d : Reg) (source : OperandKind) (value : Expr), d.width = s.regWidth ∧
      operands.map Operand.kind = [.reg d, source] ∧
      operands.map Operand.symbolic = [d.symbolic, value] ∧
      ∀ v, ∃ x : BitVec s.regWidth.bits,
        source.content? v s.regWidth.bits = some x ∧ value.Denotes v x := by
  obtain ⟨o, p, d, rfl, ho, hd, hp⟩ := operands_of_two_args h
  exact ⟨d, p.kind, p.symbolic, hd, by simp [ho], by simp [Operand.symbolic_of_reg ho],
    denotes_source hp hsource⟩

/-- The operands of an encoding with a destination and two sources. -/
theorem operands_of_two_sources {a b : Arg} {operands : List Operand}
    (ha : a.isSource s.regWidth = true) (hb : b.isSource s.regWidth = true)
    (h : List.Forall₂ (s.Admits word) [.rt, a, b] (operands.map Operand.kind)) :
    ∃ (d : Reg) (left right : OperandKind) (lhs rhs : Expr), d.width = s.regWidth ∧
      operands.map Operand.kind = [.reg d, left, right] ∧
      operands.map Operand.symbolic = [d.symbolic, lhs, rhs] ∧
      ∀ v, ∃ x y : BitVec s.regWidth.bits,
        left.content? v s.regWidth.bits = some x ∧ right.content? v s.regWidth.bits = some y ∧
          lhs.Denotes v x ∧ rhs.Denotes v y := by
  obtain ⟨o, p, q, d, rfl, ho, hd, hp, hq⟩ := operands_of_three_args h
  refine ⟨d, p.kind, q.kind, p.symbolic, q.symbolic, hd, by simp [ho],
    by simp [Operand.symbolic_of_reg ho], fun v => ?_⟩
  obtain ⟨x, hx, hxdenotes⟩ := denotes_source hp ha v
  obtain ⟨y, hy, hydenotes⟩ := denotes_source hq hb v
  exact ⟨x, y, hx, hy, hxdenotes, hydenotes⟩

/-- The operands of an encoding with three plain registers. -/
theorem operands_of_registers {operands : List Operand}
    (h : List.Forall₂ (s.Admits word) [.rt, .rn, .rm] (operands.map Operand.kind)) :
    ∃ d r t : Reg, d.width = s.regWidth ∧ r.width = s.regWidth ∧ t.width = s.regWidth ∧
      operands.map Operand.kind = [.reg d, .reg r, .reg t] ∧
      operands.map Operand.symbolic = [d.symbolic, r.symbolic, t.symbolic] := by
  obtain ⟨o, p, q, d, rfl, ho, hd, ⟨r, hr, hrwidth⟩, t, ht, htwidth⟩ := operands_of_three_args h
  refine ⟨d, r, t, hd, hrwidth, htwidth, by simp [ho, hr, ht], ?_⟩
  simp [Operand.symbolic_of_reg ho, Operand.symbolic_of_reg hr, Operand.symbolic_of_reg ht]

end Spec

/-- Every shift operator belongs to a shift of a register. -/
theorem Shift.exists_op {o : Op} (h : o.isShift = true) : ∃ shift : Shift, shift.op = o := by
  cases o with
  | shl => exact ⟨.lsl, rfl⟩
  | shr => exact ⟨.lsr, rfl⟩
  | sar => exact ⟨.asr, rfl⟩
  | add | sub | and | or | xor => simp [Op.isShift] at h

namespace Insn

variable {i : Insn} {s : Spec} {word : Word}

/-- A data-processing rule writes its result to the destination, and sets the flags if it is one
that does. -/
theorem bindingBy_eq_assign {rule : Rule} (hfits : rule.fits s.regWidth s.args = true)
    (hforms : List.Forall₂ (s.Admits word) s.args (i.operands.map Operand.kind)) :
    ∃ d sources value, i.operands.map Operand.kind = .reg d :: sources ∧ d.width = s.regWidth ∧
      i.bindingBy (i.operands.map Operand.symbolic) rule =
        .ok (if rule.setsFlags then (Binding.empty.assign d value).setFlags
          else Binding.empty.assign d value) ∧
      ∀ v, ∃ (inputs : List (BitVec s.regWidth.bits)) (x : BitVec s.regWidth.bits),
        sources.mapM (OperandKind.content? v s.regWidth.bits) = some inputs ∧
          rule.result? inputs = some x ∧ value.Denotes v x := by
  unfold Rule.fits at hfits
  split at hfits
  · rename_i a hargs
    rw [hargs] at hforms
    obtain ⟨d, source, value, hd, hkinds, hvalues, hsource⟩ :=
      Spec.operands_of_one_source hfits hforms
    refine ⟨d, [source], value, hkinds, hd, ?_, fun v => ?_⟩
    · rw [hvalues]
      exact Binding.write_symbolic _ _ _
    · obtain ⟨x, hx, hdenotes⟩ := hsource v
      exact ⟨[x], x, by simp [hx], rfl, hdenotes⟩
  · rename_i a hargs
    rw [hargs] at hforms
    obtain ⟨d, source, value, hd, hkinds, hvalues, hsource⟩ :=
      Spec.operands_of_one_source hfits hforms
    refine ⟨d, [source], .op .xor value (.const (-1)), hkinds, hd, ?_, fun v => ?_⟩
    · rw [hvalues]
      exact Binding.write_symbolic _ _ _
    · obtain ⟨x, hx, hdenotes⟩ := hsource v
      exact ⟨[x], ~~~x, by simp [hx], rfl, Expr.denotes_complement s.regWidth.bits_le hdenotes⟩
  · rename_i a hargs
    rw [hargs] at hforms
    obtain ⟨d, source, value, hd, hkinds, hvalues, hsource⟩ :=
      Spec.operands_of_one_source hfits hforms
    refine ⟨d, [source], .op .sub (.const 0) value, hkinds, hd, ?_, fun v => ?_⟩
    · rw [hvalues]
      exact Binding.write_symbolic _ _ _
    · obtain ⟨x, hx, hdenotes⟩ := hsource v
      exact ⟨[x], -x, by simp [hx], rfl, Expr.denotes_negation s.regWidth.bits_le hdenotes⟩
  · rename_i op setsFlags a b hargs
    rw [hargs] at hforms
    obtain ⟨hop, hsources⟩ := Bool.and_eq_true_iff.mp hfits
    obtain ⟨ha, hb⟩ := Bool.and_eq_true_iff.mp hsources
    obtain ⟨d, left, right, lhs, rhs, hd, hkinds, hvalues, hsource⟩ :=
      Spec.operands_of_two_sources ha hb hforms
    refine ⟨d, [left, right], .op op lhs rhs, hkinds, hd, ?_, fun v => ?_⟩
    · rw [hvalues]
      simp only [bindingBy, Binding.write_symbolic, Rule.setsFlags]
      rfl
    · obtain ⟨x, y, hx, hy, hxdenotes, hydenotes⟩ := hsource v
      refine ⟨[x, y], op.apply x y, by simp [hx, hy], rfl, ?_⟩
      exact Expr.denotes_op (by simpa using hop) s.regWidth.bits_le hxdenotes hydenotes
  · rename_i op hargs
    rw [hargs] at hforms
    obtain ⟨d, r, t, hd, hr, ht, hkinds, hvalues⟩ := Spec.operands_of_registers hforms
    obtain ⟨shift, rfl⟩ := Shift.exists_op hfits
    refine ⟨d, [.reg r, .reg t], .op shift.op
      (if shift.op = .sar ∧ d.width = .w32 then r.symbolic.signExtend32 else r.symbolic)
      (.op .and t.symbolic (.const (BitVec.ofNat 64 (d.width.bits - 1)))),
      hkinds, hd, ?_, fun v => ?_⟩
    · rw [hvalues]
      simp only [bindingBy, firstWidth_of_reg hkinds, Rule.setsFlags]
      exact Binding.write_symbolic _ _ _
    · refine ⟨[r.content v _, t.content v _], shift.op.apply (r.content v _) (t.content v _),
        rfl, rfl, ?_⟩
      rw [hd]
      exact Expr.denotes_shift_mod shift (hr ▸ r.eval_symbolic v) (ht ▸ t.eval_symbolic v)
  · contradiction

end Insn

/-- Whether an encoding of a relative instruction has a distance that becomes an address in the way
of its mnemonic. -/
def Spec.fitsRelative (s : Spec) : Bool :=
  let near := s.has (Feature.branch ||| Feature.relative)
  match s.name with
  | "adr" => s.args == [.rt, .distance21] && near
  | "adrp" => s.args == [.rt, .distance21] && (!near && s.has Feature.pageRelative)
  | _ => true

/-- Every built-in encoding of a relative instruction has such a distance. -/
theorem Spec.fitsRelative_of_mem_catalogue {s : Spec} (hs : s ∈ Catalogue.specs) :
    s.fitsRelative = true := by
  have hall : Catalogue.specs.all Spec.fitsRelative = true := by decide +kernel
  exact List.all_eq_true.mp hall s hs

namespace Decoder

/-- The second operand of a relative instruction is the address that the instruction stands
for. -/
theorem kinds_of_relative {d : Decoder} {i : Insn} {s : Spec} {position : Nat} {address : Address}
    {target : BitVec 64} (hinsn : d.insnOf s position address i.raw = .ok i)
    (hs : s ∈ Catalogue.specs) (h : relativeAddress? s.name address i.raw = some target) :
    i.operands.map Operand.kind = [.reg (s.regAt i.raw .rt), .imm (.const target)] := by
  have hfits := Spec.fitsRelative_of_mem_catalogue hs
  unfold Spec.fitsRelative at hfits
  unfold relativeAddress? at h
  dsimp only at hfits h
  split at h
  · rename_i hname
    rw [hname] at hfits
    obtain ⟨hargs, hnear⟩ := Bool.and_eq_true_iff.mp hfits
    obtain ⟨fixed, habsolute, hkinds⟩ :=
      exists_absolute_of_insnOf hinsn (beq_iff_eq.mp hargs) rfl
    rw [Spec.kind_of_relative hnear habsolute, Spec.splitDistance_eq] at hkinds
    rw [hkinds, Option.some.inj h]
  · rename_i hname
    rw [hname] at hfits
    obtain ⟨hargs, hfeatures⟩ := Bool.and_eq_true_iff.mp hfits
    obtain ⟨hnear, hpage⟩ := Bool.and_eq_true_iff.mp hfeatures
    obtain ⟨fixed, habsolute, hkinds⟩ :=
      exists_absolute_of_insnOf hinsn (beq_iff_eq.mp hargs) rfl
    rw [Spec.kind_of_pageRelative (by simpa using hnear) hpage habsolute, Spec.pageMask,
      Spec.splitDistance_eq] at hkinds
    rw [hkinds, Option.some.inj h]
  · cases h

/-- Data-processing bindings compute what the instruction computes. The binding of a decoded
move, sum, difference, logical operation or shift is complete. It changes the condition flags, to
an unknown value, if the mnemonic sets them, and the register that is the first operand, by its
64-bit name, unless that is the zero register; it changes nothing else. In every state the new
value of the register is the word that the instruction computes from its other operands, in the
width of the first one, zero extended to 64 bits. The operand of a relative instruction is the
address that it stands for. -/
theorem binding_computes_result {options : Options} {address : Address} {bytes : List UInt8}
    {i : Insn} {name : String}
    (hdecode : (builtin options).decode address bytes = .ok (.ok i))
    (hname : (builtin options).mnemonic? i = some name) (hdata : name ∈ dataMnemonics) :
    ∃ b d sources value,
      (builtin options).binding i = .ok b ∧ b.isIncomplete = false ∧
      i.operands.map Operand.kind = .reg d :: sources ∧
      b.effects =
        (if name ∈ flagSettingMnemonics then [(.reg conditionFlags, .unknown)] else []) ++
          (if d.isZero then [] else [(.reg d.name.name64, value)]) ∧
      (∀ target, relativeAddress? name address i.raw = some target →
        sources = [.imm (.const target)]) ∧
      ∀ v : Valuation, ∃ (inputs : List (BitVec d.width.bits)) (result : BitVec d.width.bits),
        sources.mapM (OperandKind.content? v d.width.bits) = some inputs ∧
          dataResult? name inputs = some result ∧ value.eval v = some (result.setWidth 64) := by
  obtain ⟨s, hs, hspec, -, position, hinsn⟩ := exists_spec_of_decode_builtin hdecode
  obtain rfl : s.name = name := by
    simpa [mnemonic?, Table.mnemonic?, hspec] using hname
  obtain ⟨rule, hrule, hflags, hresult⟩ := Rule.exists_of_dataMnemonic hdata
  have hfits := Rule.fits_of_mem_catalogue hs hdata hrule
  obtain ⟨d, sources, value, hkinds, hwidth, hbinding, hvalue⟩ :=
    Insn.bindingBy_eq_assign hfits (admits_of_insnOf hinsn)
  rw [← hwidth] at hvalue
  have hbinding' : (builtin options).binding i =
      .ok (if rule.setsFlags then (Binding.empty.assign d value).setFlags
        else Binding.empty.assign d value) := by
    simp only [binding, hspec, Insn.bindingFor, hrule, hbinding]
  refine ⟨_, d, sources, (Binding.written d value).reduce, hbinding', ?_, hkinds, ?_,
    fun target htarget => ?_, fun v => ?_⟩
  · split <;> exact Binding.isIncomplete_assign _ d value
  · by_cases hset : rule.setsFlags = true
    · rw [if_pos hset, if_pos (hflags.mp hset), Binding.effects_setFlags_assign,
        Binding.effects_assign]
      rfl
    · rw [if_neg hset, if_neg (fun h => hset (hflags.mpr h)), Binding.effects_assign]
      rfl
  · rw [kinds_of_relative hinsn hs htarget] at hkinds
    exact (List.cons.inj hkinds).2.symm
  · obtain ⟨inputs, x, hinputs, hx, hdenotes⟩ := hvalue v
    refine ⟨inputs, x, hinputs, (hresult inputs).trans hx, ?_⟩
    rw [Expr.eval_reduce]
    exact Binding.eval_written hdenotes

/-- The instruction `add w0, w1, w2, asr #4` adds the low halves of two registers, the second one
shifted with the sign of its low half. -/
theorem binding_of_add_asr :
    ∃ i, (builtin {}).decode 0x1000 [0x20, 0x10, 0x82, 0x0b] = .ok (.ok i) ∧
      (builtin {}).mnemonic? i = some "add" ∧ "add" ∈ dataMnemonics ∧
      ∃ b value, (builtin {}).binding i = .ok b ∧ b.effects = [(.reg "x0", value)] ∧
        ∀ v : Valuation, value.eval v = some (BitVec.setWidth 64
          ((v.reg "x1").setWidth 32 + ((v.reg "x2").setWidth 32).sshiftRight 4)) := by
  have hscan : Table.scan? Catalogue.specs 0x0b821020 = some 102 := by decide +kernel
  have hs : Catalogue.specs[102]? = some (Spec.ofArgs "add" 0x0b800000
      [.rt, .rn, .shifted .asr .w32] (Feature.zero31 ||| Feature.narrow)) := by
    decide +kernel
  have hdecode : (builtin {}).decode 0x1000 [0x20, 0x10, 0x82, 0x0b] = .ok (.ok _) :=
    decode_builtin_of_scan rfl hscan hs rfl
  refine ⟨_, hdecode, mnemonic?_builtin rfl hs, by decide, ?_⟩
  obtain ⟨b, d, sources, value, hbinding, -, hkinds, heffects, -, hvalue⟩ :=
    binding_computes_result hdecode (mnemonic?_builtin rfl hs) (by decide)
  cases hkinds
  refine ⟨b, value, hbinding, heffects, fun v => ?_⟩
  obtain ⟨inputs, result, hinputs, hresult, heval⟩ := hvalue v
  cases hinputs
  cases hresult
  exact heval

end Decoder

end A64Disassembler
