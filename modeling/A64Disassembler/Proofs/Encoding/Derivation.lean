import A64Disassembler.Proofs.Bits.Deposit
import A64Disassembler.Proofs.Encoding.Consistency
import A64Disassembler.Proofs.Encoding.Mask
import Mathlib.Data.List.Basic

/-!
# Specs that are made from their arguments

The fields of such a spec are collected from the arguments, one after the other, unless they are
there already. What has been collected at any time is every field read so far, once, at the place of
its first use; the collection keeps this from one field to the next.

The fixed bits are what the fields leave over, even where fields overlap, so a word matches a spec
exactly if it is the skeleton of the spec as soon as all of its fields are zero.
-/

namespace A64Disassembler

namespace Spec

/-- `fields` are the fields that occur in `reads`, in the order in which they occur first. -/
structure ListsFirstUses (reads fields : List FieldName) : Prop where
  mem_iff : ∀ f, f ∈ fields ↔ f ∈ reads
  ordered : fields.Pairwise fun f g => reads.idxOf f < reads.idxOf g

namespace ListsFirstUses

variable {reads fields : List FieldName}

/-- Nothing has been read at first. -/
theorem nil : ListsFirstUses [] [] :=
  ⟨fun _ => Iff.rfl, List.Pairwise.nil⟩

/-- No field is listed twice, as no field is used before its first use. -/
theorem nodup (h : ListsFirstUses reads fields) : fields.Nodup := by
  refine h.ordered.imp fun hlt heq => ?_
  rw [heq] at hlt
  exact Nat.lt_irrefl _ hlt

/-- One more field is added behind the others, unless it is there already. -/
theorem snoc (h : ListsFirstUses reads fields) (f : FieldName) :
    ListsFirstUses (reads ++ [f]) (if f ∈ fields then fields else fields ++ [f]) := by
  -- More reads change nothing about the first use of a field that has been read.
  have hkept : ∀ g ∈ fields, (reads ++ [f]).idxOf g = reads.idxOf g := fun g hg =>
    List.idxOf_append_of_mem ((h.mem_iff g).mp hg)
  have hordered : fields.Pairwise fun g g' =>
      (reads ++ [f]).idxOf g < (reads ++ [f]).idxOf g' := by
    refine h.ordered.imp_of_mem fun {g g'} hg hg' hlt => ?_
    rwa [hkept g hg, hkept g' hg']
  by_cases hf : f ∈ fields
  · rw [if_pos hf]
    refine ⟨fun g => ?_, hordered⟩
    rw [List.mem_append, List.mem_singleton, ← h.mem_iff g]
    exact ⟨Or.inl, fun hg => hg.elim id fun hgf => hgf ▸ hf⟩
  · rw [if_neg hf]
    refine ⟨fun g => ?_, ?_⟩
    · rw [List.mem_append, List.mem_append, h.mem_iff g]
    · refine List.pairwise_append.mpr ⟨hordered, List.pairwise_singleton _ _, fun g hg g' hg' => ?_⟩
      have hread := (h.mem_iff g).mp hg
      rw [List.mem_singleton.mp hg', hkept g hg,
        List.idxOf_append_of_notMem (mt (h.mem_iff f).mpr hf)]
      exact Nat.lt_of_lt_of_le (List.idxOf_lt_length_of_mem hread) (Nat.le_add_right _ _)

/-- A list of further fields is added field by field. -/
theorem addFields (h : ListsFirstUses reads fields) (more : List FieldName) :
    ListsFirstUses (reads ++ more) (Spec.addFields fields more) := by
  induction more generalizing reads fields with
  | nil => rwa [List.append_nil]
  | cons f rest ih =>
    have hrest := ih (h.snoc f)
    rwa [List.append_assoc] at hrest

end ListsFirstUses

/-- The fields of a list of arguments are those that the arguments read, in the order of their first
use. -/
theorem listsFirstUses_fieldsOf (args : List Arg) :
    ListsFirstUses (args.flatMap Arg.fields) (fieldsOf args) :=
  ListsFirstUses.nil.addFields (args.flatMap Arg.fields)

/-- `word` with all bits of the given fields zero. -/
def clearFields (fields : List FieldName) (word : Word) : Word :=
  fields.foldl (fun word f => f.bits.deposit word 0) word

/-- A cleared word has its bits outside of the fields only. -/
theorem getLsbD_clearFields (fields : List FieldName) (word : Word) {k : Nat} (hk : k < 32) :
    (clearFields fields word).getLsbD k =
      (word.getLsbD k && !fields.any fun f => f.bits.mask.getLsbD k) := by
  induction fields generalizing word with
  | nil => simp [clearFields]
  | cons f rest ih =>
    rw [clearFields, List.foldl_cons, ← clearFields, ih, f.bits.getLsbD_deposit word 0 hk,
      List.any_cons]
    cases f.bits.mask.getLsbD k <;> simp

/-- Clearing all fields of a spec leaves the fixed bits. -/
theorem clearFields_eq (s : Spec) (word : Word) :
    clearFields s.fields word = word &&& s.fixedMask := by
  apply BitVec.eq_of_getLsbD_eq
  intro k hk
  rw [getLsbD_clearFields _ _ hk, BitVec.getLsbD_and, s.getLsbD_fixedMask hk]

/-- A spec accepts a word exactly if clearing the fields of the word gives the skeleton. -/
theorem accepts_iff_clearFields (s : Spec) (word : Word) :
    s.accepts word = true ↔ clearFields s.fields word = s.skeleton := by
  rw [accepts, beq_iff_eq, clearFields_eq, skeleton, eq_comm]

/-- Validation does not complain about a field if the fields are those that the arguments read. -/
theorem validate_ofArgs_ne (name : String) (bits : Word) (args : List Arg) (features : BitVec 32) :
    (∀ opcode f, (ofArgs name bits args features).validate ≠ .error (.duplicateField opcode f)) ∧
      ∀ opcode a f,
        (ofArgs name bits args features).validate ≠ .error (.missingField opcode a f) := by
  have hfields := listsFirstUses_fieldsOf args
  have hduplicate : firstDuplicate? [] (ofArgs name bits args features).fields = none :=
    (firstDuplicate?_eq_none_iff [] _).mpr ⟨hfields.nodup, by simp⟩
  have hmissing : firstMissing? (ofArgs name bits args features).fields
      (ofArgs name bits args features).args = none :=
    (firstMissing?_eq_none_iff _ _).mpr fun a ha f hf => mem_fieldsOf.mpr ⟨a, ha, hf⟩
  unfold validate
  rw [hduplicate, hmissing]
  dsimp only
  constructor
  · intro opcode f h
    split_ifs at h <;> cases h
  · intro opcode a f h
    split_ifs at h <;> cases h

/-- The fields of a spec that is made from its arguments split every word. They are the fields that
the arguments read, each once, in the order of their first use. Every bit is either fixed or in the
mask of a field, and never both. A word has the fixed bits of the spec exactly if clearing all of its
fields gives the skeleton. And no field is missing or there twice when the spec is validated. -/
theorem ofArgs_splits_word (name : String) (bits : Word) (args : List Arg)
    (features : BitVec 32) :
    let s := ofArgs name bits args features
    let reads := args.flatMap Arg.fields
    (s.fields.Nodup ∧ (∀ f, f ∈ s.fields ↔ ∃ a ∈ args, f ∈ a.fields) ∧
        s.fields.Pairwise fun f g => reads.idxOf f < reads.idxOf g) ∧
      (∀ k < 32, Xor (s.fixedMask.getLsbD k = true)
        (∃ f ∈ s.fields, f.bits.mask.getLsbD k = true)) ∧
      (∀ word, s.accepts word = true ↔ clearFields s.fields word = s.skeleton) ∧
      (∀ opcode f, s.validate ≠ .error (.duplicateField opcode f)) ∧
      ∀ opcode a f, s.validate ≠ .error (.missingField opcode a f) := by
  intro s reads
  have hfields : ListsFirstUses reads s.fields := listsFirstUses_fieldsOf args
  refine ⟨⟨hfields.nodup, fun f => mem_fieldsOf, hfields.ordered⟩, fun k hk => ?_,
    s.accepts_iff_clearFields, validate_ofArgs_ne name bits args features⟩
  rw [xor_iff_iff_not, s.getLsbD_fixedMask hk, Bool.not_eq_true', ← Bool.not_eq_true,
    List.any_eq_true]

/-- A list of arguments with a field that is read twice and with fields that overlap. -/
theorem ofArgs_splits_word_of_overlap :
    let s := ofArgs "overlap" 0xffffffff [.memOffset7, .rt2, .rn, .shifted .lsl .w64] 0
    s.fields = [.rn, .offset7, .rt2, .rm, .amount6] ∧ s.fixedMask = 0xffc0001f ∧
      s.skeleton = 0xffc0001f ∧
      Xor (s.fixedMask.getLsbD 15 = true) (∃ f ∈ s.fields, f.bits.mask.getLsbD 15 = true) ∧
      clearFields s.fields 0xffc1fcff = s.skeleton := by
  intro s
  obtain ⟨-, hbit, hmatch, -⟩ := ofArgs_splits_word "overlap" 0xffffffff
    [.memOffset7, .rt2, .rn, .shifted .lsl .w64] 0
  exact ⟨by decide, by decide, by decide, hbit 15 (by decide), (hmatch 0xffc1fcff).mp (by decide)⟩

end Spec

end A64Disassembler
