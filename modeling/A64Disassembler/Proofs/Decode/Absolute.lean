import A64Disassembler.Proofs.Bits.Value
import A64Disassembler.Proofs.Decode.Total

/-!
# The last operand becomes an address

The operands of a word do not depend on the place of the word. Then the last one of them, if it is a
constant and the spec asks for it, is taken as a distance from the instruction or from its page and
becomes the address at that distance. All other operands stay as they are, and so do all operands of
all other specs, the target of an indirect branch among them. Sums of addresses and distances wrap
around at both ends of the address space, so that the target moves along with the instruction.
-/

namespace A64Disassembler

/-- Immediate operands are as different as their constants. -/
theorem Operand.imm_const_inj {a b : BitVec 64} :
    Operand.imm (.const a) = .imm (.const b) ↔ a = b := by
  simp [imm]

/-- What an operand is, and whether it is marked as an address. -/
def Operand.marked (o : Operand) : OperandKind × Bool :=
  (o.kind, o.isAddress)

/-- The distance in bytes that an argument stands for in a word, for the arguments that are read as
two's complement numbers. -/
def Arg.distance? (word : Word) : Arg → Option Int
  | .distance19 => some (4 * FieldName.imm19.signedValue word)
  | .distance26 => some (4 * FieldName.imm26.signedValue word)
  | .distance21 => some
    (BitVec.ofNat 21 ((FieldName.imm19.extract word).toNat * 4 +
      (FieldName.imm2.extract word).toNat)).toInt
  | _ => none

namespace Flags

variable {s : Flags} {flags : BitVec 32}

/-- One of some flags is in a set exactly if they have a bit in common. -/
theorem any_eq_true_iff :
    s.any flags = true ↔ ∃ k, s.raw.getLsbD k = true ∧ flags.getLsbD k = true := by
  rw [any, bne_iff_ne]
  constructor
  · intro h
    by_contra hnone
    refine h (BitVec.eq_of_getLsbD_eq fun k _ => ?_)
    rw [BitVec.getLsbD_and, BitVec.ofNat_eq_ofNat, BitVec.getLsbD_zero, Bool.and_eq_false_iff]
    by_contra hk
    rw [not_or, Bool.not_eq_false, Bool.not_eq_false] at hk
    exact hnone ⟨k, hk⟩
  · rintro ⟨k, hraw, hflags⟩ hzero
    have hbit := congrArg (fun x => x.getLsbD k) hzero
    simp [hraw, hflags] at hbit

/-- If at most one of some flags is in a set, then there is only one place for it. -/
theorem eq_of_count_le_one (h : s.count flags ≤ 1) {k l : Nat} (hk : s.raw.getLsbD k = true)
    (hk' : flags.getLsbD k = true) (hl : s.raw.getLsbD l = true) (hl' : flags.getLsbD l = true) :
    k = l := by
  have hmem : ∀ {n}, s.raw.getLsbD n = true → flags.getLsbD n = true →
      n ∈ (List.range 32).filter (s.raw &&& flags).getLsbD := by
    intro n hn hn'
    rw [List.mem_filter, List.mem_range, BitVec.getLsbD_and, hn, hn']
    exact ⟨BitVec.lt_of_getLsbD hn, rfl⟩
  have hkmem := hmem hk hk'
  have hlmem := hmem hl hl'
  rw [count] at h
  match (List.range 32).filter (s.raw &&& flags).getLsbD, h, hkmem, hlmem with
  | [n], _, hkn, hln => rw [List.mem_singleton.mp hkn, List.mem_singleton.mp hln]

end Flags

namespace Spec

variable {s : Spec} {word : Word}

/-- A spec has one of two sets of features if it has one of either set. -/
theorem has_or (s : Spec) (a b : BitVec 32) : s.has (a ||| b) = (s.has a || s.has b) := by
  rw [Bool.eq_iff_iff, Bool.or_eq_true, has, has, has, Flags.any_eq_true_iff,
    Flags.any_eq_true_iff, Flags.any_eq_true_iff, ← exists_or]
  simp only [BitVec.getLsbD_or, Bool.or_eq_true, and_or_left]

/-- The last operand of a consistent spec is relative either to the instruction or to its page. -/
theorem IsConsistent.pageRelative_eq_false (hs : s.IsConsistent)
    (hnear : s.has (Feature.branch ||| Feature.relative) = true) :
    s.has Feature.pageRelative = false := by
  rw [← Bool.not_eq_true]
  intro hpage
  obtain ⟨k, hk, hknear⟩ := Flags.any_eq_true_iff.mp hnear
  obtain ⟨l, hl, hlpage⟩ := Flags.any_eq_true_iff.mp hpage
  have hfixups : ∀ n, (Feature.branch ||| Feature.relative).getLsbD n = true ∨
      Feature.pageRelative.getLsbD n = true → Feature.fixups.getLsbD n = true := by
    intro n hn
    rw [Feature.fixups, BitVec.getLsbD_or, Bool.or_eq_true]
    exact hn
  have hsame : k = l :=
    Flags.eq_of_count_le_one hs.count_fixups hk (hfixups k (.inl hknear)) hl
      (hfixups l (.inr hlpage))
  have hdisjoint : ∀ n < 32, (Feature.branch ||| Feature.relative).getLsbD n = true →
      Feature.pageRelative.getLsbD n = false := by decide
  rw [hdisjoint l (BitVec.lt_of_getLsbD hl) (hsame ▸ hknear)] at hlpage
  cases hlpage

/-- A new operand is neither hidden nor an address. -/
theorem operand_eq_mk {before : List Operand} {a : Arg} {o : Operand}
    (h : s.operand word before a = .ok o) : o = { kind := o.kind } := by
  cases a with
  | bitmask =>
    simp only [operand, bitmaskOperand] at h
    split at h
    · obtain ⟨value, -, h⟩ := bind_eq_ok.mp h
      cases h
      rfl
    · cases h
  | rn | rt | rt2 | rm | shifted | imm16 | imm16Half | distance19 | distance26 | imm12 | distance21
  | memOffset9 | memOffset12 | memOffset7 =>
    cases h
    rfl

/-- The operands for a list of arguments are new ones after those before them. -/
theorem mem_of_operandsFrom {before made : List Operand} {args : List Arg} {o : Operand}
    (h : s.operandsFrom word before args = .ok made) (ho : o ∈ made) :
    o ∈ before ∨ o = { kind := o.kind } := by
  induction args generalizing before with
  | nil =>
    cases h
    exact .inl ho
  | cons a rest ih =>
    obtain ⟨first, hfirst, h⟩ := bind_eq_ok.mp h
    rcases ih h with hmem | hmk
    · rcases List.mem_append.mp hmem with hbefore | hlast
      · exact .inl hbefore
      · exact .inr (List.mem_singleton.mp hlast ▸ operand_eq_mk hfirst)
    · exact .inr hmk

/-- The last operand is made for the last argument, after all others. -/
theorem operandsFrom_concat {before made : List Operand} {args : List Arg} {a : Arg}
    (h : s.operandsFrom word before (args ++ [a]) = .ok made) :
    ∃ init last, s.operandsFrom word before args = .ok init ∧ s.operand word init a = .ok last ∧
      made = init ++ [last] := by
  induction args generalizing before with
  | nil =>
    obtain ⟨last, hlast, h⟩ := bind_eq_ok.mp h
    cases h
    exact ⟨before, last, rfl, hlast, rfl⟩
  | cons b rest ih =>
    obtain ⟨o, ho, h⟩ := bind_eq_ok.mp h
    obtain ⟨init, last, hinit, hlast, rfl⟩ := ih h
    exact ⟨init, last, bind_eq_ok.mpr ⟨o, ho, hinit⟩, hlast, rfl⟩

/-- Only the last operand is made absolute. -/
theorem fixUp_concat_eq_ok {address : Address} {before : List Operand} {last : Operand}
    {fixed : List Operand} :
    s.fixUp address (before ++ [last]) = .ok fixed ↔
      ∃ o, s.absolute address last = .ok o ∧ fixed = before ++ [o] := by
  induction before generalizing fixed with
  | nil =>
    rw [List.nil_append, fixUp, bind_eq_ok]
    simp [pure, Except.pure, eq_comm]
  | cons first rest ih =>
    rw [List.cons_append, fixUp, bind_eq_ok]
    · simp only [ih, pure, Except.pure, Except.ok.injEq]
      constructor
      · rintro ⟨tail, ⟨o, ho, rfl⟩, rfl⟩
        exact ⟨o, ho, rfl⟩
      · rintro ⟨o, ho, rfl⟩
        exact ⟨rest ++ [o], ⟨o, ho, rfl⟩, rfl⟩
    · simp

/-- The number in an operand for a two's complement distance. -/
theorem toInt_of_distance? {before : List Operand} {a : Arg} {c : BitVec 64} {n : Int}
    (h : s.operand word before a = .ok (.imm (.const c))) (hn : a.distance? word = some n) :
    c.toInt = n := by
  have hwords : ∀ f : FieldName, f.bits.size ≤ 26 →
      (signedField word f <<< 2).toInt = 4 * f.signedValue word := by
    intro f hf
    have hle := natAbs_toInt_signedField_le word f
    have hpow : 2 ^ f.bits.size ≤ 2 ^ 26 := Nat.pow_le_pow_right (by decide) hf
    have hfour : ((4 : BitVec 64)).toInt = 4 := by decide
    rw [Bits.shiftLeft_two, Bits.toInt_mul_of_lt (by rw [hfour]; omega), toInt_signedField, hfour,
      Int.mul_comm]
  cases a with
  | distance19 =>
    simp only [operand, distanceOperand, Except.ok.injEq, Operand.imm_const_inj] at h
    cases hn
    rw [← h, hwords .imm19 (by decide)]
  | distance26 =>
    simp only [operand, distanceOperand, Except.ok.injEq, Operand.imm_const_inj] at h
    cases hn
    rw [← h, hwords .imm26 (by decide)]
  | distance21 =>
    simp only [operand, Except.ok.injEq, Operand.imm_const_inj] at h
    cases hn
    rw [← h, toInt_splitDistance]
  | rn | rt | rt2 | rm | shifted | imm16 | imm16Half | imm12 | bitmask | memOffset9 | memOffset12
  | memOffset7 => cases hn

/-- An immediate argument makes a constant. -/
theorem exists_of_isImm {before : List Operand} {a : Arg} {o : Operand} (ha : a.isImm = true)
    (h : s.operand word before a = .ok o) : ∃ c, o = .imm (.const c) := by
  obtain ⟨c, hc⟩ := kind_of_isImm ha (admits_of_operand h)
  refine ⟨c, ?_⟩
  rw [operand_eq_mk h, hc]
  rfl

/-- A distance from the instruction becomes an address. -/
theorem absolute_of_near (hnear : s.has (Feature.branch ||| Feature.relative) = true)
    (address : Address) (c : BitVec 64) :
    s.absolute address (.imm (.const c)) =
      .ok { kind := .imm (.const (address + c)), isAddress := true } := by
  simp only [absolute, Operand.imm, Operand.imm?, hnear, if_true]
  rfl

/-- A distance in pages from the page of the instruction becomes an address. -/
theorem absolute_of_pageRelative (hnear : s.has (Feature.branch ||| Feature.relative) = false)
    (hpage : s.has Feature.pageRelative = true) (address : Address) (c : BitVec 64) :
    s.absolute address (.imm (.const c)) =
      .ok { kind := .imm (.const ((address &&& ~~~0xfff) + c * 4096)), isAddress := true } := by
  have hshift : c <<< 12 = c * 4096 := BitVec.shiftLeft_eq_mul_twoPow c 12
  simp only [absolute, Operand.imm, Operand.imm?, hnear, hpage, if_true, Bool.false_eq_true,
    if_false]
  rw [← hshift]
  rfl

/-- Nothing becomes an address without a feature that asks for it. -/
theorem absolute_of_plain (hnear : s.has (Feature.branch ||| Feature.relative) = false)
    (hpage : s.has Feature.pageRelative = false) (address : Address) (last : Operand) :
    s.absolute address last = .ok last := by
  have hbranch : s.has Feature.branch = false := by
    rw [has_or, Bool.or_eq_false_iff] at hnear
    exact hnear.1
  have hrelative : s.has (Feature.relative ||| Feature.pageRelative) = false := by
    rw [has_or, Bool.or_eq_false_iff] at hnear ⊢
    exact ⟨hnear.2, hpage⟩
  unfold absolute
  split <;> simp [hnear, hpage, hbranch, hrelative]

/-- An operand for an argument that is no immediate has no value of its own. -/
theorem imm?_of_isImm_eq_false {before : List Operand} {a : Arg} {o : Operand}
    (ha : a.isImm = false) (h : s.operand word before a = .ok o) : o.imm? = none := by
  have hform := form_of_admits (admits_of_operand h)
  cases hkind : o.kind with
  | imm e => cases a <;> simp [hkind, Arg.form, OperandKind.form, Arg.isImm] at hform ha
  | reg | shifted | mem => simp [Operand.imm?, hkind]

/-- The target of an indirect branch, which is no immediate, is left alone. -/
theorem absolute_of_imm?_eq_none
    (hrelative : s.has (Feature.relative ||| Feature.pageRelative) = false) (address : Address)
    {last : Operand} (hlast : last.imm? = none) : s.absolute address last = .ok last := by
  simp [absolute, hlast, hrelative]

/-- Whether the last operand of a spec is left alone: it is no immediate, or no feature makes it
absolute. -/
def KeepsLast (s : Spec) : Prop :=
  (∀ a, s.args.getLast? = some a → a.isImm = false) ∨
    (s.has Feature.branch = false ∧ s.has Feature.relative = false ∧
      s.has Feature.pageRelative = false)

/-- No operand changes if the last one is left alone. -/
theorem IsConsistent.fixUp_of_keepsLast (hs : s.IsConsistent) (hkeeps : s.KeepsLast)
    {made : List Operand} (hmade : s.operands word = .ok made) (address : Address) :
    s.fixUp address made = .ok made := by
  rcases List.eq_nil_or_concat s.args with hnil | ⟨args, a, hconcat⟩
  · rw [operands, hnil] at hmade
    cases hmade
    rfl
  · rw [List.concat_eq_append] at hconcat
    rw [operands, hconcat] at hmade
    obtain ⟨init, last, -, hlast, rfl⟩ := operandsFrom_concat hmade
    have hgetLast : s.args.getLast? = some a := by simp [hconcat]
    have hsame : s.absolute address last = .ok last := by
      rcases hkeeps with hnone | ⟨hbranch, hrelative, hpage⟩
      · have himm := hnone a hgetLast
        refine absolute_of_imm?_eq_none (Bool.eq_false_iff.mpr fun h => ?_) address ?_
        · obtain ⟨b, hb, hbimm⟩ := hs.isImm_getLast h
          obtain rfl : a = b := Option.some.inj (hgetLast.symm.trans hb)
          rw [himm] at hbimm
          cases hbimm
        · exact imm?_of_isImm_eq_false himm hlast
      · exact absolute_of_plain (by rw [has_or, hbranch, hrelative]; rfl) hpage address last
    exact fixUp_concat_eq_ok.mpr ⟨last, hsame, rfl⟩

/-- The operands of a spec that ends with an immediate end with a constant. -/
theorem exists_of_getLast?_isImm {a : Arg} (hlast : s.args.getLast? = some a)
    (himm : a.isImm = true) {made : List Operand} (hmade : s.operands word = .ok made) :
    ∃ before c, made = before ++ [.imm (.const c)] ∧
      s.operand word before a = .ok (.imm (.const c)) := by
  obtain ⟨args, hargs⟩ := List.getLast?_eq_some_iff.mp hlast
  rw [operands, hargs] at hmade
  obtain ⟨before, last, -, hoperand, rfl⟩ := operandsFrom_concat hmade
  obtain ⟨c, rfl⟩ := exists_of_isImm himm hoperand
  exact ⟨before, c, rfl, hoperand⟩

end Spec

namespace Decoder

variable {d : Decoder} {s : Spec}

/-- Hiding the operand of a return changes no kind and marks nothing as an address. -/
theorem map_marked_hideLink (s : Spec) (operands : List Operand) :
    (hideLink s operands).map Operand.marked = operands.map Operand.marked := by
  cases operands with
  | nil => rfl
  | cons first rest =>
    rw [hideLink]
    split <;> rfl

/-- Whether an operand is hidden does not depend on the last one, unless it is the last one. -/
theorem dropLast_hideLink (s : Spec) (before : List Operand) (last : Operand) :
    (hideLink s (before ++ [last])).dropLast = hideLink s before := by
  cases before with
  | nil =>
    simp only [List.nil_append, hideLink]
    split <;> rfl
  | cons first rest =>
    rw [List.cons_append, hideLink, hideLink]
    split <;> rw [← List.cons_append, List.dropLast_concat]

/-- The operands of an instruction are those of its word with the last one made absolute. All others
are shown or hidden whatever has become of the last one. -/
theorem exists_fixed_of_insnOf {position : Nat} {address : Address} {word : Word} {i : Insn}
    {made : List Operand} (h : d.insnOf s position address word = .ok i)
    (hmade : s.operands word = .ok made) :
    ∃ fixed, s.fixUp address made = .ok fixed ∧
      i.operands.map Operand.marked = fixed.map Operand.marked ∧
      ∀ before last, fixed = before ++ [last] →
        i.operands.dropLast = if d.options.showAliases then hideLink s before else before := by
  obtain ⟨made', hmade', hrest⟩ := bind_eq_ok.mp h
  obtain rfl := Except.ok.inj (hmade.symm.trans hmade')
  obtain ⟨fixed, hfixed, hi⟩ := bind_eq_ok.mp hrest
  cases hi
  refine ⟨fixed, hfixed, ?_, ?_⟩
  · dsimp only
    split
    · exact map_marked_hideLink s fixed
    · rfl
  · rintro before last rfl
    dsimp only
    split
    · exact dropLast_hideLink s before last
    · exact List.dropLast_concat

/-- All operands but the last one are the same at all addresses. -/
theorem dropLast_operands_of_insnOf {position : Nat} {a b : Address} {word : Word} {i j : Insn}
    {made : List Operand} (hmade : s.operands word = .ok made)
    (hi : d.insnOf s position a word = .ok i) (hj : d.insnOf s position b word = .ok j) :
    i.operands.dropLast = j.operands.dropLast := by
  obtain ⟨fixed, hfixed, hmarked, hdrop⟩ := exists_fixed_of_insnOf hi hmade
  obtain ⟨fixed', hfixed', hmarked', hdrop'⟩ := exists_fixed_of_insnOf hj hmade
  rcases List.eq_nil_or_concat made with rfl | ⟨before, last, rfl⟩
  · cases hfixed
    cases hfixed'
    rw [List.map_eq_nil_iff.mp hmarked, List.map_eq_nil_iff.mp hmarked']
  · rw [List.concat_eq_append, Spec.fixUp_concat_eq_ok] at hfixed hfixed'
    obtain ⟨o, -, rfl⟩ := hfixed
    obtain ⟨o', -, rfl⟩ := hfixed'
    rw [hdrop before o rfl, hdrop' before o' rfl]

/-- A distance that becomes an address is the last operand, and the only one that is marked. -/
theorem marked_of_absolute {position : Nat} {address target : Address} {word : Word} {i : Insn}
    {before : List Operand} {last : Operand} (h : d.insnOf s position address word = .ok i)
    (hmade : s.operands word = .ok (before ++ [last]))
    (htarget : s.absolute address last =
      .ok { kind := .imm (.const target), isAddress := true }) :
    i.operands.map Operand.marked =
      before.map Operand.marked ++ [(.imm (.const target), true)] := by
  obtain ⟨fixed, hfixed, hmarked, -⟩ := exists_fixed_of_insnOf h hmade
  obtain ⟨o, ho, rfl⟩ := Spec.fixUp_concat_eq_ok.mp hfixed
  obtain rfl := Except.ok.inj (htarget.symm.trans ho)
  rw [hmarked, List.map_append]
  rfl

/-- The kind and the mark of the last operand, from those of all. -/
theorem marked_getLast? {operands before : List Operand} {mark : OperandKind × Bool}
    (h : operands.map Operand.marked = before.map Operand.marked ++ [mark]) :
    operands.getLast?.map Operand.marked = some mark := by
  rw [← List.getLast?_map, h, List.getLast?_concat]

/-- The kind of the last operand, from the kinds and marks of all. -/
theorem kind_getLast?_of_marked {operands before : List Operand} {kind : OperandKind}
    {isAddress : Bool}
    (h : operands.map Operand.marked = before.map Operand.marked ++ [(kind, isAddress)]) :
    operands.getLast?.map Operand.kind = some kind := by
  have hfirst := congrArg (Option.map Prod.fst) (marked_getLast? h)
  rwa [Option.map_map] at hfirst

/-- Relative operands become the right absolute address, and nothing else is touched. A word that
matches a spec of a table of consistent specs decodes at every address, and its operands are made
from the word alone; none of them is an address. Let the last argument be an immediate of value
`distance`. With a feature that asks for an address near the instruction, the last operand is the
sum of the address and the distance, and with the feature that asks for a page it is the sum of the
address, whose low twelve bits are cleared, and 4096 times the distance; it alone is marked as an
address. In all other cases no operand changes and none is marked. All but the last operand are the
same at all addresses, and a target near the instruction moves along with it. The distance is four
times a two's complement field, or the two's complement number of 21 bits that two fields make
up. -/
theorem decode_makes_last_operand_absolute {specs : List Spec} {t : Table}
    (h : Table.ofSpecs specs = .ok t) (options : Options) {bytes : List UInt8} {position : Nat}
    {s : Spec} (hsize : 4 ≤ bytes.length)
    (hfind : t.find? (options.endian.word (bytes.take 4)) = some position)
    (hs : specs[position]? = some s) :
    let d : Decoder := ⟨t, options⟩
    let word := options.endian.word (bytes.take 4)
    ∃ (insn : Address → Insn) (made : List Operand),
      (∀ address, d.decode address bytes = .ok (.ok (insn address))) ∧
      s.operands word = .ok made ∧ (∀ o ∈ made, o.isAddress = false) ∧
      (∀ a b, (insn a).operands.dropLast = (insn b).operands.dropLast) ∧
      (∀ last, s.args.getLast? = some last → last.isImm = true →
        ∃ before distance, made = before ++ [.imm (.const distance)] ∧
          (∀ n, last.distance? word = some n → distance.toInt = n) ∧
          (s.has Feature.branch = true ∨ s.has Feature.relative = true →
            (∀ address, (insn address).operands.map Operand.marked =
              before.map Operand.marked ++ [(.imm (.const (address + distance)), true)]) ∧
            ∀ address k, ∃ target,
              (insn address).operands.getLast?.map Operand.kind = some (.imm (.const target)) ∧
              (insn (address + k)).operands.getLast?.map Operand.kind =
                some (.imm (.const (target + k)))) ∧
          (s.has Feature.pageRelative = true →
            ∀ address, (insn address).operands.map Operand.marked =
              before.map Operand.marked ++
                [(.imm (.const ((address &&& ~~~0xfff) + distance * 4096)), true)])) ∧
      (s.KeepsLast →
        ∀ address, (insn address).operands.map Operand.marked = made.map Operand.marked) := by
  intro d word
  obtain ⟨hconsistent, rfl⟩ := Table.ofSpecs_eq_ok_iff.mp h
  have hcons : s.IsConsistent := hconsistent s (List.mem_of_getElem? hs)
  have hspec : d.table.spec? position = some s := (Table.spec?_index specs position).trans hs
  have hdecode : ∀ address, ∃ i, d.decode address bytes = .ok (.ok i) ∧
      d.insnOf s position address word = .ok i :=
    fun address => exists_decode_of_matched d address hcons hsize hfind hspec
  choose insn hinsn hinsnOf using hdecode
  obtain ⟨made, hmade⟩ := hcons.exists_operands word
  refine ⟨insn, made, hinsn, hmade, fun o ho => ?_,
    fun a b => dropLast_operands_of_insnOf hmade (hinsnOf a) (hinsnOf b),
    fun last hlast himm => ?_, fun hkeeps address => ?_⟩
  · rcases Spec.mem_of_operandsFrom hmade ho with hnil | hmk
    · cases hnil
    · rw [hmk]
  · obtain ⟨before, distance, rfl, hoperand⟩ := Spec.exists_of_getLast?_isImm hlast himm hmade
    refine ⟨before, distance, rfl, fun n hn => Spec.toInt_of_distance? hoperand hn,
      fun hnear => ?_, fun hpage address => ?_⟩
    · rw [← Bool.or_eq_true, ← Spec.has_or] at hnear
      have hmarked := fun address => marked_of_absolute (hinsnOf address) hmade
        (Spec.absolute_of_near hnear address distance)
      refine ⟨hmarked, fun address k => ⟨address + distance, ?_, ?_⟩⟩
      · exact kind_getLast?_of_marked (hmarked address)
      · rw [kind_getLast?_of_marked (hmarked (address + k)), BitVec.add_assoc,
          BitVec.add_comm k, ← BitVec.add_assoc]
    · have hfar : s.has (Feature.branch ||| Feature.relative) = false := by
        rw [← Bool.not_eq_true]
        intro hnear
        rw [hcons.pageRelative_eq_false hnear] at hpage
        cases hpage
      exact marked_of_absolute (hinsnOf address) hmade
        (Spec.absolute_of_pageRelative hfar hpage address distance)
  · obtain ⟨fixed, hfixed, hmarked, -⟩ := exists_fixed_of_insnOf (hinsnOf address) hmade
    rw [hcons.fixUp_of_keepsLast hkeeps hmade] at hfixed
    cases hfixed
    exact hmarked

/-- A branch to the word before it, from the first address of the address space to the last word and
from the second word to the first. -/
theorem decode_of_branch_backwards :
    let specs := [Spec.ofArgs "b" 0x14000000 [.distance26] Feature.branch]
    let d : Decoder := ⟨Table.index specs, {}⟩
    let bytes : List UInt8 := [0xff, 0xff, 0xff, 0x17]
    Table.ofSpecs specs = .ok d.table ∧ 4 ≤ bytes.length ∧
      d.table.find? (Endian.little.word (bytes.take 4)) = some 0 ∧
      ∃ insn : Address → Insn, (∀ address, d.decode address bytes = .ok (.ok (insn address))) ∧
        (insn 0).operands.map Operand.marked = [(.imm (.const 0xfffffffffffffffc), true)] ∧
        (insn 4).operands.map Operand.marked = [(.imm (.const 0), true)] := by
  intro specs d bytes
  have hvalid : Table.ofSpecs specs = .ok d.table := rfl
  have hfind : d.table.find? (Endian.little.word (bytes.take 4)) = some 0 :=
    (Table.find?_index specs _).trans (by decide)
  obtain ⟨insn, made, hdecode, hmade, -, -, hlast, -⟩ :=
    decode_makes_last_operand_absolute hvalid {} (by decide) hfind rfl
  obtain ⟨before, distance, rfl, -, hnear, -⟩ := hlast .distance26 rfl rfl
  have hoperands : (specs[0]).operands (Endian.little.word (bytes.take 4)) =
      .ok ([] ++ [.imm (.const (-4))]) := by decide
  obtain ⟨hbefore, hdistance⟩ :=
    List.append_inj' (Except.ok.inj (hmade.symm.trans hoperands)) rfl
  rw [List.singleton_inj, Operand.imm_const_inj] at hdistance
  subst hbefore hdistance
  obtain ⟨hmarked, -⟩ := hnear (.inl rfl)
  exact ⟨hvalid, by decide, hfind, insn, hdecode, hmarked 0, hmarked 4⟩

end Decoder

end A64Disassembler
