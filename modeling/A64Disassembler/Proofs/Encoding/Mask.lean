import A64Disassembler.Encoding.Spec
import A64Disassembler.Proofs.Bits.Field

/-!
# Fixed bits and fields

Every bit of a word is fixed by a spec, unless a field of the spec covers it. So a word that a spec
accepts is determined by the contents of its fields. The fields of a spec that is made from its
arguments are those that the arguments read.
-/

namespace A64Disassembler

namespace Spec

variable {s : Spec} {v w : Word} {k : Nat}

/-- Collecting masks sets a bit exactly if it was set or is in one of the masks. -/
theorem getLsbD_foldl_mask (fields : List FieldName) (mask : Word) (k : Nat) :
    (fields.foldl (fun mask f => mask ||| f.bits.mask) mask).getLsbD k =
      (mask.getLsbD k || fields.any fun f => f.bits.mask.getLsbD k) := by
  induction fields generalizing mask with
  | nil => simp
  | cons f rest ih => rw [List.foldl_cons, ih, BitVec.getLsbD_or, List.any_cons, Bool.or_assoc]

/-- A bit of a word is fixed exactly if no field covers it. -/
theorem getLsbD_fixedMask (s : Spec) (hk : k < 32) :
    s.fixedMask.getLsbD k = !s.fields.any fun f => f.bits.mask.getLsbD k := by
  rw [fixedMask, fieldMask, BitVec.getLsbD_not, getLsbD_foldl_mask]
  simp [hk]

/-- A word that a spec accepts has the fixed bits of the spec. -/
theorem getLsbD_of_accepts (h : s.accepts w = true) (hfixed : s.fixedMask.getLsbD k = true) :
    w.getLsbD k = s.bits.getLsbD k := by
  have hbit := congrArg (fun x => x.getLsbD k) (beq_iff_eq.mp h)
  simp only [BitVec.getLsbD_and, hfixed, Bool.and_true] at hbit
  exact hbit.symm

/-- Words that a spec accepts are equal if all fields of the spec have the same contents. -/
theorem eq_of_extract_eq (hv : s.accepts v = true) (hw : s.accepts w = true)
    (hfields : ∀ f ∈ s.fields, f.extract v = f.extract w) : v = w := by
  apply BitVec.eq_of_getLsbD_eq
  intro k hk
  cases hfixed : s.fixedMask.getLsbD k with
  | true => rw [getLsbD_of_accepts hv hfixed, getLsbD_of_accepts hw hfixed]
  | false =>
    rw [s.getLsbD_fixedMask hk, Bool.not_eq_false', List.any_eq_true] at hfixed
    obtain ⟨f, hf, hcovers⟩ := hfixed
    exact Bits.Field.getLsbD_eq_of_extract (hfields f hf) hcovers

/-- Adding fields keeps those that are there already. -/
theorem mem_addFields {f : FieldName} {fields more : List FieldName} :
    f ∈ addFields fields more ↔ f ∈ fields ∨ f ∈ more := by
  induction more generalizing fields with
  | nil => simp [addFields]
  | cons g rest ih =>
    rw [addFields, List.foldl_cons, ← addFields, ih]
    by_cases hg : g ∈ fields
    · rw [if_pos hg, List.mem_cons]
      have hgf : f = g → f ∈ fields := fun h => h ▸ hg
      tauto
    · rw [if_neg hg, List.mem_append, List.mem_singleton, List.mem_cons, or_assoc]

/-- The fields of a list of arguments are those that one of them reads. -/
theorem mem_fieldsOf {f : FieldName} {args : List Arg} :
    f ∈ fieldsOf args ↔ ∃ a ∈ args, f ∈ a.fields := by
  rw [fieldsOf, mem_addFields, List.mem_flatMap]
  simp

end Spec

end A64Disassembler
