import A64Disassembler.Proofs.Encoding.Lookup

/-!
# Consistent specs

Validation walks the fields and the arguments of a spec and reports the first thing that is wrong.
What it makes sure of is said here without the walk: no field is listed twice, every field that an
argument reads is listed, a bitmask immediate comes after a register, at most one feature makes the
last operand absolute, and a distance is an immediate.

A spec is accepted exactly if it is consistent in this sense, and a table is made exactly from lists
of consistent specs. The built-in encodings are such a list.
-/

namespace A64Disassembler

namespace Spec

/-- The operands of the spec can be made from its fields, and its last operand can be made
absolute. -/
structure IsConsistent (s : Spec) : Prop where
  /-- No field is listed twice. -/
  nodup_fields : s.fields.Nodup
  /-- The fields that an argument reads are listed. -/
  mem_fields : ∀ a ∈ s.args, ∀ f ∈ a.fields, f ∈ s.fields
  /-- A bitmask immediate takes its width from a register before it. -/
  isReg_head : .bitmask ∈ s.args → ∃ a, s.args.head? = some a ∧ a.isReg = true
  /-- At most one feature makes the last operand absolute. -/
  count_fixups : s.features.count Feature.fixups ≤ 1
  /-- A distance is an immediate. -/
  isImm_getLast : s.has (Feature.relative ||| Feature.pageRelative) = true →
    ∃ a, s.args.getLast? = some a ∧ a.isImm = true

/-- No duplicate is found exactly if all fields differ from each other and from those before. -/
theorem firstDuplicate?_eq_none_iff (seen fields : List FieldName) :
    firstDuplicate? seen fields = none ↔ fields.Nodup ∧ ∀ f ∈ fields, f ∉ seen := by
  induction fields generalizing seen with
  | nil => simp [firstDuplicate?]
  | cons f rest ih =>
    by_cases hf : f ∈ seen
    · simp [firstDuplicate?, hf]
    · simp only [firstDuplicate?, hf, if_false, ih, List.nodup_cons, List.mem_cons, List.mem_append,
        List.not_mem_nil, or_false, not_or, forall_eq_or_imp, not_false_eq_true, true_and]
      constructor
      · rintro ⟨hnodup, hnew⟩
        exact ⟨⟨fun hmem => (hnew f hmem).2 rfl, hnodup⟩, fun g hg => (hnew g hg).1⟩
      · rintro ⟨⟨hfresh, hnodup⟩, hnew⟩
        exact ⟨hnodup, fun g hg => ⟨hnew g hg, fun hgf => hfresh (hgf ▸ hg)⟩⟩

/-- No field is missing exactly if the arguments read listed fields only. -/
theorem firstMissing?_eq_none_iff (fields : List FieldName) (args : List Arg) :
    firstMissing? fields args = none ↔ ∀ a ∈ args, ∀ f ∈ a.fields, f ∈ fields := by
  simp [firstMissing?, List.findSome?_eq_none_iff, List.find?_eq_none]

/-- Validation accepts exactly the consistent specs. -/
theorem validate_eq_ok_iff (s : Spec) : s.validate = .ok () ↔ s.IsConsistent := by
  have hreg : (s.args.contains .bitmask && !s.args.head?.any Arg.isReg) = false ↔
      (.bitmask ∈ s.args → ∃ a, s.args.head? = some a ∧ a.isReg = true) := by
    simp [Option.any_eq_true]
  have himm : (s.has (Feature.relative ||| Feature.pageRelative) &&
      !s.args.getLast?.any Arg.isImm) = false ↔
      (s.has (Feature.relative ||| Feature.pageRelative) = true →
        ∃ a, s.args.getLast? = some a ∧ a.isImm = true) := by
    simp [Option.any_eq_true]
  constructor
  · intro h
    unfold validate at h
    split at h
    · cases h
    · cases h
    · rename_i hduplicate hmissing
      split_ifs at h with hdestination hcount hrelative
      exact {
        nodup_fields := ((firstDuplicate?_eq_none_iff [] s.fields).mp hduplicate).1
        mem_fields := (firstMissing?_eq_none_iff s.fields s.args).mp hmissing
        isReg_head := hreg.mp (Bool.eq_false_of_not_eq_true hdestination)
        count_fixups := Nat.le_of_not_lt hcount
        isImm_getLast := himm.mp (Bool.eq_false_of_not_eq_true hrelative) }
  · intro h
    have hduplicate : firstDuplicate? [] s.fields = none :=
      (firstDuplicate?_eq_none_iff [] s.fields).mpr ⟨h.nodup_fields, by simp⟩
    have hmissing : firstMissing? s.fields s.args = none :=
      (firstMissing?_eq_none_iff s.fields s.args).mpr h.mem_fields
    unfold validate
    rw [hduplicate, hmissing]
    dsimp only
    rw [if_neg (ne_true_of_eq_false (hreg.mpr h.isReg_head)), if_neg (Nat.not_lt.mpr h.count_fixups),
      if_neg (ne_true_of_eq_false (himm.mpr h.isImm_getLast))]

end Spec

namespace Table

/-- All specs of a list are accepted exactly if each of them is consistent. -/
theorem forM_validate_eq_ok_iff (specs : List Spec) :
    specs.forM Spec.validate = .ok () ↔ ∀ s ∈ specs, s.IsConsistent := by
  induction specs with
  | nil => simp [pure, Except.pure]
  | cons s rest ih =>
    rw [List.forall_mem_cons, ← ih, ← s.validate_eq_ok_iff, List.forM_eq_forM, List.forM_cons]
    cases hs : s.validate with
    | error e => simp [bind, Except.bind]
    | ok _ => simp [bind, Except.bind]

/-- A list of specs makes a table, its index, exactly if all of them are consistent. -/
theorem ofSpecs_eq_ok_iff {specs : List Spec} {t : Table} :
    ofSpecs specs = .ok t ↔ (∀ s ∈ specs, s.IsConsistent) ∧ t = index specs := by
  constructor
  · intro h
    refine ⟨(forM_validate_eq_ok_iff specs).mp ?_, ofSpecs_eq_ok h⟩
    rw [ofSpecs] at h
    cases hvalid : specs.forM Spec.validate with
    | error e =>
      rw [hvalid] at h
      cases h
    | ok _ => rfl
  · rintro ⟨hconsistent, rfl⟩
    rw [ofSpecs, (forM_validate_eq_ok_iff specs).mpr hconsistent]
    rfl

/-- The built-in encodings make the built-in table. -/
theorem ofSpecs_catalogue : ofSpecs Catalogue.specs = .ok builtin := by
  have hvalid : ∀ s ∈ Catalogue.specs, s.validate = .ok () := by
    have hall : (Catalogue.specs.all fun s => decide (s.validate = .ok ())) = true := by
      decide +kernel
    simpa [List.all_eq_true] using hall
  exact ofSpecs_eq_ok_iff.mpr ⟨fun s hs => s.validate_eq_ok_iff.mp (hvalid s hs), rfl⟩

end Table

end A64Disassembler
