import A64Disassembler.Proofs.Encoding.Lookup
import A64Disassembler.Proofs.Encoding.Mask
import Mathlib.Data.Finset.Card

/-!
# Overlapping encodings

One word may agree with several encodings: with a general form and with the aliases that are cases
of it. Among the built-in encodings the fixed bits of such encodings are nested, and those that
stand first in the list fix more. So the first match of a word is the match that fixes most of its
bits, and no alias is hidden behind its general form.

That is a property of every pair of encodings, and it is checked for all pairs. Two encodings have a
word in common only if they agree in the bits that both fix.
-/

namespace A64Disassembler

namespace Spec

variable {s t : Spec} {word : Word} {k : Nat}

/-- The places of the bits that a spec fixes. -/
def fixedBits (s : Spec) : Finset Nat :=
  (Finset.range 32).filter fun k => s.fixedMask.getLsbD k = true

/-- The places are those of the bits of the mask. -/
@[simp]
theorem mem_fixedBits : k ∈ s.fixedBits ↔ s.fixedMask.getLsbD k = true := by
  rw [fixedBits, Finset.mem_filter, Finset.mem_range]
  exact and_iff_right_of_imp BitVec.lt_of_getLsbD

/-- Whether a spec is a case of another one, which accepts all of its words. -/
def IsCaseOf (s t : Spec) : Prop :=
  ∀ word, s.accepts word = true → t.accepts word = true

/-- A word is accepted as long as the fixed bits stay the same. -/
theorem accepts_of_getLsbD
    (h : ∀ k, s.fixedMask.getLsbD k = true → word.getLsbD k = s.bits.getLsbD k) :
    s.accepts word = true := by
  refine beq_iff_eq.mpr (BitVec.eq_of_getLsbD_eq fun k _ => ?_)
  rw [BitVec.getLsbD_and, BitVec.getLsbD_and]
  cases hfixed : s.fixedMask.getLsbD k with
  | false => rw [Bool.and_false, Bool.and_false]
  | true => rw [h k hfixed]

/-- A case of a spec fixes all bits that the spec fixes. -/
theorem IsCaseOf.fixedBits_subset (h : s.IsCaseOf t) : t.fixedBits ⊆ s.fixedBits := by
  intro k hk
  rw [mem_fixedBits] at hk ⊢
  by_contra hfree
  have hlt : k < 32 := BitVec.lt_of_getLsbD hk
  -- The bits of the case, and the same with the bit turned over, which the case leaves free.
  have hbits : s.accepts s.bits = true := accepts_of_getLsbD fun _ _ => rfl
  have hturned : s.accepts (s.bits ^^^ BitVec.twoPow 32 k) = true := by
    refine accepts_of_getLsbD fun i hi => ?_
    have hne : k ≠ i := by
      rintro rfl
      exact hfree hi
    simp [BitVec.getLsbD_twoPow, hne]
  have hsame := getLsbD_of_accepts (h _ hbits) hk
  have hother := getLsbD_of_accepts (h _ hturned) hk
  rw [← hsame] at hother
  simp [hlt] at hother

/-- The fixed bits of a spec as numbers: their places, and what they are. -/
def pattern (s : Spec) : Nat × Nat :=
  (s.fixedMask.toNat, s.bits.toNat)

/-- Whether a bit that both patterns fix keeps them apart, or the first one fixes all bits that the
second one fixes, and more. -/
def precedes (p q : Nat × Nat) : Bool :=
  (p.2 ^^^ q.2) &&& (p.1 &&& q.1) != 0 || (p.1 &&& q.1 == q.1 && p.1 != q.1)

/-- Whether every pattern precedes those behind it. -/
def allPrecede : List (Nat × Nat) → Bool
  | [] => true
  | p :: rest => rest.all (precedes p) && allPrecede rest

/-- Patterns of one word are nested if one precedes the other. -/
theorem fixedBits_ssubset_of_precedes (h : precedes s.pattern t.pattern = true)
    (hs : s.accepts word = true) (ht : t.accepts word = true) : t.fixedBits ⊂ s.fixedBits := by
  have hagree : (s.bits ^^^ t.bits) &&& (s.fixedMask &&& t.fixedMask) = 0 := by
    refine BitVec.eq_of_getLsbD_eq fun k _ => ?_
    simp only [BitVec.getLsbD_and, BitVec.getLsbD_xor]
    cases hsk : s.fixedMask.getLsbD k with
    | false => simp
    | true =>
      cases htk : t.fixedMask.getLsbD k with
      | false => simp
      | true => simp [← getLsbD_of_accepts hs hsk, ← getLsbD_of_accepts ht htk]
  have hnat : (s.bits.toNat ^^^ t.bits.toNat) &&& (s.fixedMask.toNat &&& t.fixedMask.toNat) = 0 :=
    by simpa using congrArg BitVec.toNat hagree
  simp only [precedes, pattern, hnat, bne_self_eq_false, Bool.false_or, Bool.and_eq_true,
    beq_iff_eq, bne_iff_ne, ne_eq] at h
  obtain ⟨hand, hne⟩ := h
  have hmask : s.fixedMask &&& t.fixedMask = t.fixedMask :=
    BitVec.eq_of_toNat_eq (by simpa using hand)
  rw [Finset.ssubset_iff_subset_ne]
  refine ⟨fun k hk => ?_, fun heq => hne (congrArg BitVec.toNat ?_)⟩
  · rw [mem_fixedBits, ← hmask, BitVec.getLsbD_and, Bool.and_eq_true] at hk
    exact mem_fixedBits.mpr hk.1
  · refine BitVec.eq_of_getLsbD_eq fun k _ => Bool.eq_iff_iff.mpr ?_
    rw [← mem_fixedBits, ← mem_fixedBits, heq]

end Spec

namespace Table

variable {specs : List Spec} {word : Word} {i j : Nat} {s t : Spec}

/-- Whether those specs of a list that accept one word fix fewer bits the further back they
stand. -/
def IsNested (specs : List Spec) : Prop :=
  ∀ (word : Word) (i j : Nat) (s t : Spec), i < j → specs[i]? = some s → specs[j]? = some t →
    s.accepts word = true → t.accepts word = true → t.fixedBits ⊂ s.fixedBits

/-- The check of all pairs. -/
theorem isNested_of_allPrecede (h : Spec.allPrecede (specs.map Spec.pattern) = true) :
    IsNested specs := by
  intro word i j s t hlt hi hj hs ht
  induction specs generalizing i j with
  | nil => cases hi
  | cons first rest ih =>
    rw [List.map_cons, Spec.allPrecede, Bool.and_eq_true, List.all_map, List.all_eq_true] at h
    obtain ⟨hfirst, hrest⟩ := h
    obtain ⟨j, rfl⟩ := Nat.exists_eq_add_one_of_ne_zero (Nat.ne_zero_of_lt hlt)
    rw [List.getElem?_cons_succ] at hj
    cases i with
    | zero =>
      cases hi
      exact Spec.fixedBits_ssubset_of_precedes (hfirst t (List.mem_of_getElem? hj)) hs ht
    | succ i => exact ih hrest i j (Nat.lt_of_succ_lt_succ hlt) hi hj

/-- The built-in encodings are nested. -/
theorem isNested_catalogue : IsNested Catalogue.specs :=
  isNested_of_allPrecede (by decide +kernel)

/-- Whether the spec at an index of a list accepts a word and fixes more bits than all others that
accept it. -/
structure IsMostSpecific (specs : List Spec) (word : Word) (i : Nat) (s : Spec) : Prop where
  atIndex : specs[i]? = some s
  accepts : s.accepts word = true
  most : ∀ (j : Nat) (t : Spec), j ≠ i → specs[j]? = some t → t.accepts word = true →
    t.fixedBits.card < s.fixedBits.card

/-- No two specs of a list fix more bits than all others that accept a word. -/
theorem IsMostSpecific.index_eq (hs : IsMostSpecific specs word i s)
    (ht : IsMostSpecific specs word j t) : i = j := by
  by_contra hne
  have hless := hs.most j t (Ne.symm hne) ht.atIndex ht.accepts
  have hmore := ht.most i s hne hs.atIndex hs.accepts
  omega

/-- A scan finds a spec if there is one that accepts the word. -/
theorem isSome_scan?_iff :
    (scan? specs word).isSome = true ↔ ∃ s ∈ specs, s.accepts word = true := by
  rw [scan?, List.findIdx?_isSome, List.any_eq_true]

/-- What a scan of nested specs finds is most specific. -/
theorem IsNested.exists_of_scan? (h : IsNested specs) (hfound : scan? specs word = some i) :
    ∃ s, IsMostSpecific specs word i s := by
  obtain ⟨hlt, hagrees, hfirst⟩ := (scan?_eq_some_iff specs word i).mp hfound
  have hs : specs[i]? = some specs[i] := List.getElem?_eq_getElem hlt
  refine ⟨specs[i], hs, beq_iff_eq.mpr hagrees, fun j t hne hj ht => Finset.card_lt_card ?_⟩
  rcases Nat.lt_or_gt_of_ne hne with hbefore | hbehind
  · obtain ⟨hj, rfl⟩ := List.getElem?_eq_some_iff.mp hj
    exact absurd (beq_iff_eq.mp ht) (hfirst j hbefore)
  · exact h word i j specs[i] t hbehind hs hj (beq_iff_eq.mpr hagrees) ht

/-- In a list of nested specs a scan finds the most specific one. -/
theorem IsNested.scan?_eq_iff (h : IsNested specs) :
    scan? specs word = some i ↔ ∃ s, IsMostSpecific specs word i s := by
  refine ⟨h.exists_of_scan?, fun ⟨s, hs⟩ => ?_⟩
  obtain ⟨k, hk⟩ := Option.isSome_iff_exists.mp
    (isSome_scan?_iff.mpr ⟨s, List.mem_of_getElem? hs.atIndex, hs.accepts⟩)
  obtain ⟨t, ht⟩ := h.exists_of_scan? hk
  rw [hk, ht.index_eq hs]

/-- In a list of nested specs a case of a spec stands before it. -/
theorem IsNested.lt_of_isCaseOf (h : IsNested specs) (hi : specs[i]? = some s)
    (hj : specs[j]? = some t) (hne : i ≠ j) (hcase : s.IsCaseOf t) : i < j := by
  refine Nat.lt_of_le_of_ne (Nat.le_of_not_lt fun hlt => ?_) hne
  have hbits : s.accepts s.bits = true := beq_self_eq_true _
  have hless := h s.bits j i t s hlt hj hi (hcase _ hbits) hbits
  exact hless.2 hcase.fixedBits_subset

/-- Overlapping encodings resolve to the most specific one. Of two built-in encodings that accept a
word, the one further back fixes some of the bits that the other one fixes, and not all of them. A
word that an encoding accepts is found, and what is found is the encoding that accepts it and fixes
more bits than all others that do. An encoding that is a case of another one stands before it, and
none of its words is found to be of the other one. -/
theorem builtin_find?_is_most_specific (word : Word) :
    (∀ (i j : Nat) (s t : Spec), i < j → Catalogue.specs[i]? = some s →
      Catalogue.specs[j]? = some t → s.accepts word = true → t.accepts word = true →
      t.fixedBits ⊂ s.fixedBits) ∧
    ((builtin.find? word).isSome = true ↔ ∃ s ∈ Catalogue.specs, s.accepts word = true) ∧
    (∀ i, builtin.find? word = some i ↔ ∃ s, IsMostSpecific Catalogue.specs word i s) ∧
    ∀ (i j : Nat) (s t : Spec), i ≠ j → Catalogue.specs[i]? = some s →
      Catalogue.specs[j]? = some t → s.IsCaseOf t →
        i < j ∧ (s.accepts word = true → builtin.find? word ≠ some j) := by
  have hfind : builtin.find? word = scan? Catalogue.specs word := find?_index _ word
  rw [hfind]
  refine ⟨isNested_catalogue word, isSome_scan?_iff, fun i => isNested_catalogue.scan?_eq_iff,
    fun i j s t hne hi hj hcase => ?_⟩
  have hlt := isNested_catalogue.lt_of_isCaseOf hi hj hne hcase
  refine ⟨hlt, fun hs hfound => ?_⟩
  obtain ⟨hj', hagrees, hfirst⟩ := (scan?_eq_some_iff _ word j).mp hfound
  obtain ⟨hi', rfl⟩ := List.getElem?_eq_some_iff.mp hi
  exact hfirst i hlt (beq_iff_eq.mp hs)

/-- A move between registers is a disjunction with the zero register, and is found to be a move. -/
theorem find?_of_move_and_disjunction :
    let move := Spec.ofArgs "mov" 0xaa0003e0 [.rt, .rm] Feature.zero31
    let disjunction :=
      Spec.ofArgs "orr" 0xaa000000 [.rt, .rn, .shifted .lsl .w64] Feature.zero31
    Catalogue.specs[65]? = some move ∧ Catalogue.specs[133]? = some disjunction ∧
      move.accepts 0xaa0003e1 = true ∧ disjunction.accepts 0xaa0003e1 = true ∧
      disjunction.fixedBits ⊂ move.fixedBits ∧ builtin.find? 0xaa0003e1 ≠ some 133 := by
  intro move disjunction
  have hmove : Catalogue.specs[65]? = some move := by decide +kernel
  have hdisjunction : Catalogue.specs[133]? = some disjunction := by decide +kernel
  have haccepts : move.accepts 0xaa0003e1 = true := by decide +kernel
  have haccepts' : disjunction.accepts 0xaa0003e1 = true := by decide +kernel
  obtain ⟨hnested, -, hfind, -⟩ := builtin_find?_is_most_specific 0xaa0003e1
  have hless := hnested 65 133 move disjunction (by decide) hmove hdisjunction haccepts haccepts'
  refine ⟨hmove, hdisjunction, haccepts, haccepts', hless, fun hfound => ?_⟩
  obtain ⟨s, hs⟩ := (hfind 133).mp hfound
  obtain rfl : disjunction = s := Option.some.inj (hdisjunction.symm.trans hs.atIndex)
  have hmore := hs.most 65 move (by decide) hmove haccepts
  exact absurd (Finset.card_lt_card hless) (Nat.lt_asymm hmore)

end Table

end A64Disassembler
