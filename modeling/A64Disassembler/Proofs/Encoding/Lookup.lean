import A64Disassembler.Encoding.Table
import Mathlib.Data.List.Find
import Mathlib.Tactic.Set

/-!
# The index of an opcode table

A spec belongs into the bucket of a byte if its fixed bits agree with that byte. The bytes that
a spec is added to are found by walking a range and leaving out the holes in it; the range is
wide enough, because a byte is bounded below by its fixed bits and above by its fixed bits with
all free bits set.

The bucket of a byte therefore lists all specs that belong into it, in their order, and no others.
A word matches only specs that belong into the bucket of its top byte, so that looking the word up
in that bucket gives the first match of the whole list.
-/

namespace A64Disassembler

/-- Whether the fixed bits among the top eight of a spec agree with a byte. -/
def Spec.agreesWith (s : Spec) (byte : Nat) : Bool :=
  byte &&& (s.fixedMask.toNat >>> 24) == (s.bits.toNat >>> 24) &&& (s.fixedMask.toNat >>> 24)

/-- A word that a spec accepts has a top byte that agrees with the spec. -/
theorem Spec.agreesWith_of_accepts {s : Spec} {word : Word} (h : s.accepts word = true) :
    s.agreesWith (word.toNat >>> 24) = true := by
  have hfixed : s.bits &&& s.fixedMask = word &&& s.fixedMask := by
    simpa only [accepts, beq_iff_eq] using h
  have hnat : s.bits.toNat &&& s.fixedMask.toNat = word.toNat &&& s.fixedMask.toNat := by
    simpa only [BitVec.toNat_and] using congrArg BitVec.toNat hfixed
  rw [agreesWith, beq_iff_eq, ← Nat.shiftRight_and_distrib, ← Nat.shiftRight_and_distrib, hnat]

/-- A spec agrees with a byte exactly if its fixed bits, moved down from the top byte of a word, do. -/
theorem Spec.agreesWith_toNat_iff (s : Spec) (byte : BitVec 8) :
    s.agreesWith byte.toNat = true ↔
      byte.setWidth 32 &&& (s.fixedMask >>> 24) = (s.bits &&& s.fixedMask) >>> 24 := by
  have hbyte : byte.toNat % 2 ^ 32 = byte.toNat := Nat.mod_eq_of_lt (by omega)
  rw [agreesWith, beq_iff_eq, ← BitVec.toNat_inj, BitVec.toNat_and, BitVec.toNat_setWidth, hbyte,
    BitVec.toNat_ushiftRight, BitVec.toNat_ushiftRight, BitVec.toNat_and,
    Nat.shiftRight_and_distrib]

namespace Table

/-- A byte lies between its fixed bits alone and its fixed bits with all free bits set. -/
theorem byte_le_high {byte fixed : Nat} (hbyte : byte < 256) :
    byte ≤ (byte &&& fixed) ||| (0xff ^^^ fixed) := by
  have hsub : byte &&& ((byte &&& fixed) ||| (0xff ^^^ fixed)) = byte := by
    apply Nat.eq_of_testBit_eq
    intro i
    have hlow : byte.testBit i = true → (0xff : Nat).testBit i = true := by
      intro hbit
      have hi : i < 8 := by
        by_contra hge
        have hpow : 2 ^ 8 ≤ 2 ^ i := Nat.pow_le_pow_right (by decide) (by omega)
        rw [Nat.testBit_lt_two_pow (Nat.lt_of_lt_of_le hbyte hpow)] at hbit
        contradiction
      rw [show (0xff : Nat) = 2 ^ 8 - 1 from rfl, Nat.testBit_two_pow_sub_one]
      exact decide_eq_true hi
    simp only [Nat.testBit_and, Nat.testBit_or, Nat.testBit_xor]
    cases hb : byte.testBit i
    · rfl
    · rw [hlow hb]
      cases fixed.testBit i <;> rfl
  calc
    byte = byte &&& ((byte &&& fixed) ||| (0xff ^^^ fixed)) := hsub.symm
    _ ≤ (byte &&& fixed) ||| (0xff ^^^ fixed) := Nat.and_le_right

/-- Appending to the buckets of some bytes appends once to the bucket of each of them. -/
theorem getElem?_foldl_modify (position : Nat) (keep : Nat → Bool) (bytes : List Nat)
    (hnodup : bytes.Nodup) (buckets : Array (List Nat)) (byte : Nat) :
    (bytes.foldl
        (fun buckets b => if keep b then buckets.modify b (· ++ [position]) else buckets)
        buckets)[byte]? =
      buckets[byte]?.map (· ++ if byte ∈ bytes ∧ keep byte then [position] else []) := by
  induction bytes generalizing buckets with
  | nil => simp
  | cons b rest ih =>
    obtain ⟨hnew, hrest⟩ := List.nodup_cons.mp hnodup
    rw [List.foldl_cons, ih hrest]
    by_cases hb : b = byte
    · subst hb
      cases hkeep : keep b with
      | false => simp [hnew]
      | true => simp [hnew, Array.getElem?_modify, Function.comp_def]
    · have hmem : byte ∈ b :: rest ↔ byte ∈ rest := by simp [Ne.symm hb]
      cases keep b <;> simp [hmem, hb, Array.getElem?_modify]

/-- A spec is added to the bucket of exactly those bytes that it agrees with. -/
theorem getElem?_addToBuckets (buckets : Array (List Nat)) (position : Nat) (s : Spec)
    {byte : Nat} (hbyte : byte < 256) :
    (addToBuckets buckets position s.bits s.fixedMask)[byte]? =
      buckets[byte]?.map (· ++ if s.agreesWith byte then [position] else []) := by
  set fixed := s.fixedMask.toNat >>> 24 with hfixed
  set low := (s.bits.toNat >>> 24) &&& fixed with hlow
  set high := low ||| (0xff ^^^ fixed) with hhigh
  have hrange : byte &&& fixed = low → byte ∈ List.range' low (high + 1 - low) := by
    intro hagree
    have hge : low ≤ byte := hagree ▸ Nat.and_le_left
    have hle : byte ≤ high := by
      rw [hhigh, ← hagree]
      exact byte_le_high hbyte
    rw [List.mem_range'_1]
    omega
  have hadd := getElem?_foldl_modify position (fun b => decide (b &&& fixed = low))
    (List.range' low (high + 1 - low)) List.nodup_range' buckets byte
  simp only [decide_eq_true_eq] at hadd
  have hiff : (byte ∈ List.range' low (high + 1 - low) ∧ byte &&& fixed = low) ↔
      s.agreesWith byte = true := by
    rw [Spec.agreesWith, beq_iff_eq]
    exact ⟨And.right, fun hagree => ⟨hrange hagree, hagree⟩⟩
  simp only [hiff] at hadd
  exact hadd

/-- Indexing a list of specs appends to each bucket, in order, the positions that belong in it. -/
theorem getElem?_foldl_addToBuckets (specs : List Spec) (start : Nat)
    (buckets : Array (List Nat)) {byte : Nat} (hbyte : byte < 256) :
    ((specs.zipIdx start).foldl
        (fun buckets (s, position) => addToBuckets buckets position s.bits s.fixedMask)
        buckets)[byte]? =
      buckets[byte]?.map
        (· ++ ((specs.zipIdx start).filter fun entry => entry.1.agreesWith byte).map Prod.snd) := by
  induction specs generalizing start buckets with
  | nil => simp
  | cons s rest ih =>
    rw [List.zipIdx_cons, List.foldl_cons, ih, getElem?_addToBuckets buckets start s hbyte,
      Option.map_map]
    cases hagree : s.agreesWith byte <;> simp [hagree, Function.comp_def]

/-- The bucket of a byte lists the positions of the specs that agree with it, in order. -/
theorem bucket_index (specs : List Spec) {byte : Nat} (hbyte : byte < 256) :
    (index specs).bucket byte =
      (specs.zipIdx.filter fun entry => entry.1.agreesWith byte).map Prod.snd := by
  have h := getElem?_foldl_addToBuckets specs 0 (Array.replicate 256 []) hbyte
  rw [Array.getElem?_replicate, if_pos hbyte, Option.map_some, List.nil_append] at h
  rw [bucket, Array.getD_eq_getD_getElem?, index, h, Option.getD_some]

/-- The positions in a bucket are in ascending order. -/
theorem pairwise_bucket_index (specs : List Spec) {byte : Nat} (hbyte : byte < 256) :
    ((index specs).bucket byte).Pairwise (· < ·) := by
  have hpositions : (specs.zipIdx.map Prod.snd).Pairwise (· < ·) := by
    rw [List.zipIdx_map_snd]
    exact List.pairwise_lt_range'
  rw [bucket_index specs hbyte]
  exact List.pairwise_map.mpr ((List.pairwise_map.mp hpositions).filter _)

/-- A position is in a bucket exactly if there is a spec at it that agrees with the byte. -/
theorem mem_bucket_index_iff (specs : List Spec) {byte : Nat} (hbyte : byte < 256)
    {position : Nat} :
    position ∈ (index specs).bucket byte ↔
      ∃ h : position < specs.length, specs[position].agreesWith byte = true := by
  rw [bucket_index specs hbyte, List.mem_map]
  constructor
  · rintro ⟨⟨s, i⟩, hentry, rfl⟩
    obtain ⟨hmem, hagrees⟩ := List.mem_filter.mp hentry
    obtain ⟨hlt, hs⟩ := List.getElem?_eq_some_iff.mp (List.mem_zipIdx_iff_getElem?.mp hmem)
    exact ⟨hlt, hs ▸ hagrees⟩
  · rintro ⟨hlt, hagrees⟩
    have hmem : (specs[position], position) ∈ specs.zipIdx :=
      List.mem_zipIdx_iff_getElem?.mpr (List.getElem?_eq_getElem hlt)
    exact ⟨_, List.mem_filter.mpr ⟨hmem, hagrees⟩, rfl⟩

/-- The specs of an index are found at their positions. -/
theorem spec?_index (specs : List Spec) (position : Nat) :
    (index specs).spec? position = specs[position]? := by
  simp [spec?, index]

/-- A table of consistent specs is their index. -/
theorem ofSpecs_eq_ok {specs : List Spec} {t : Table} (h : ofSpecs specs = .ok t) :
    t = index specs := by
  rw [ofSpecs] at h
  cases hvalid : specs.forM Spec.validate with
  | error e =>
    rw [hvalid] at h
    cases h
  | ok _ =>
    rw [hvalid] at h
    cases h
    rfl

/-- Looking a word up in the bucket of its top byte scans the whole list. -/
theorem find?_index (specs : List Spec) (word : Word) :
    (index specs).find? word = scan? specs word := by
  have hbyte : word.toNat >>> 24 < 256 := by
    rw [Nat.shiftRight_eq_div_pow]
    omega
  rw [find?, bucket_index specs hbyte, List.find?_map, List.find?_filter, scan?,
    List.findIdx?_eq_fst_find?_zipIdx]
  congr 1
  apply List.find?_congr
  rintro ⟨s, position⟩ hentry
  have hspec : specs[position]? = some s := List.mem_zipIdx_iff_getElem?.mp hentry
  simp only [Function.comp_apply, spec?_index, hspec, Option.any_some]
  cases haccepts : s.accepts word with
  | false => simp
  | true => simp [Spec.agreesWith_of_accepts haccepts]

/-- A position is the first match of a list if its spec agrees with the word in the fixed bits
and no spec before it does. -/
theorem scan?_eq_some_iff (specs : List Spec) (word : Word) (position : Nat) :
    scan? specs word = some position ↔
      ∃ h : position < specs.length,
        specs[position].bits &&& specs[position].fixedMask =
            word &&& specs[position].fixedMask ∧
          ∀ (i : Nat) (hi : i < position), ¬ (specs[i].bits &&& specs[i].fixedMask =
            word &&& specs[i].fixedMask) := by
  rw [scan?, List.findIdx?_eq_some_iff_getElem]
  simp only [Spec.accepts, beq_iff_eq]

/-- The spec at the first match of a list accepts the word. -/
theorem accepts_of_scan? {specs : List Spec} {word : Word} {position : Nat} {s : Spec}
    (h : scan? specs word = some position) (hs : specs[position]? = some s) :
    s.accepts word = true := by
  obtain ⟨hlt, hagrees, -⟩ := (scan?_eq_some_iff specs word position).mp h
  obtain rfl : specs[position] = s := Option.some.inj ((List.getElem?_eq_getElem hlt).symm.trans hs)
  exact beq_iff_eq.mpr hagrees

/-- The specs before the first match of a list do not accept the word. -/
theorem not_accepts_of_scan? {specs : List Spec} {word : Word} {position : Nat}
    (h : scan? specs word = some position) : ∀ t ∈ specs.take position, t.accepts word = false := by
  intro t ht
  obtain ⟨hlt, -, hbefore⟩ := (scan?_eq_some_iff specs word position).mp h
  obtain ⟨i, hi, rfl⟩ := List.mem_take_iff_getElem.mp ht
  exact beq_eq_false_iff_ne.mpr (hbefore i (by omega))

/-- The index never changes a match: in a table of consistent specs, a word is found where the
plain scan of the whole list finds it. That is the smallest position whose spec agrees with the
word in all its fixed bits, and nowhere if no spec of the list does. The list is meant to have fewer
than 2^32 specs, so that each position fits in 32 bits. -/
theorem find?_is_first_match {specs : List Spec} {t : Table} (h : ofSpecs specs = .ok t)
    (word : Word) :
    t.find? word = scan? specs word ∧
      (∀ position, t.find? word = some position ↔
        ∃ h : position < specs.length,
          specs[position].bits &&& specs[position].fixedMask =
              word &&& specs[position].fixedMask ∧
            ∀ (i : Nat) (hi : i < position), ¬ (specs[i].bits &&& specs[i].fixedMask =
              word &&& specs[i].fixedMask)) ∧
      (t.find? word = none ↔ ∀ s ∈ specs, ¬ (s.bits &&& s.fixedMask = word &&& s.fixedMask)) := by
  have hfind : t.find? word = scan? specs word := by
    rw [ofSpecs_eq_ok h, find?_index]
  refine ⟨hfind, fun position => ?_, ?_⟩
  · rw [hfind, scan?_eq_some_iff]
  · rw [hfind, scan?, List.findIdx?_eq_none_iff]
    simp only [Spec.accepts, beq_eq_false_iff_ne, ne_eq]

/-- An alias that stands before its general form takes the words of both, and leaves the others
to the general form. -/
theorem find?_alias_before_general :
    let specs := [Spec.ofArgs "mov" 0x91000000 [.rt, .rn] 0,
      Spec.ofArgs "add" 0x91000000 [.rt, .rn, .imm12] 0]
    ofSpecs specs = .ok (index specs) ∧ (index specs).find? 0x910003fd = some 0 ∧
      (index specs).find? 0x91004020 = some 1 ∧ (index specs).find? 0xd1004020 = none := by
  intro specs
  have hvalid : ofSpecs specs = .ok (index specs) := rfl
  refine ⟨hvalid, ?_, ?_, ?_⟩
  · exact (find?_is_first_match hvalid 0x910003fd).1
  · exact (find?_is_first_match hvalid 0x91004020).1
  · exact (find?_is_first_match hvalid 0xd1004020).1

/-- The index is exact: in a table of consistent specs, the bucket of a byte has the positions of
all specs whose fixed bits agree with the byte where it stands in a word, and no others. They are in
strictly ascending order, so that none occurs twice and the order is that of the list. It is meant to
have fewer than 2^32 specs, so that each position fits in 32 bits. -/
theorem bucket_is_exact {specs : List Spec} {t : Table} (h : ofSpecs specs = .ok t)
    (byte : BitVec 8) :
    (t.bucket byte.toNat).Pairwise (· < ·) ∧
      ∀ position, position ∈ t.bucket byte.toNat ↔
        ∃ h : position < specs.length,
          byte.setWidth 32 &&& (specs[position].fixedMask >>> 24) =
            (specs[position].bits &&& specs[position].fixedMask) >>> 24 := by
  have hbyte : byte.toNat < 256 := byte.isLt
  rw [ofSpecs_eq_ok h]
  refine ⟨pairwise_bucket_index specs hbyte, fun position => ?_⟩
  rw [mem_bucket_index_iff specs hbyte]
  simp only [Spec.agreesWith_toNat_iff]

/-- Two bits of the distance in pages are in the top byte, so that the spec is in the buckets of four
bytes, one of them together with a spec that has this byte fixed. -/
theorem bucket_of_page_address :
    let specs := [Spec.ofArgs "b" 0x14000000 [.distance26] Feature.branch,
      Spec.ofArgs "adrp" 0x90000000 [.rt, .distance21] Feature.pageRelative,
      Spec.ofArgs "stop" 0xb0000000 [] 0]
    ofSpecs specs = .ok (index specs) ∧ ((index specs).bucket 0xb0).Pairwise (· < ·) ∧
      0 ∉ (index specs).bucket 0xb0 ∧ 1 ∈ (index specs).bucket 0xb0 ∧
      2 ∈ (index specs).bucket 0xb0 ∧ 3 ∉ (index specs).bucket 0xb0 := by
  intro specs
  have hvalid : ofSpecs specs = .ok (index specs) := rfl
  obtain ⟨hascending, hmem⟩ := bucket_is_exact hvalid 0xb0
  exact ⟨hvalid, hascending, mt (hmem 0).mp (by decide), (hmem 1).mpr (by decide),
    (hmem 2).mpr (by decide), mt (hmem 3).mp (by decide)⟩

end Table

end A64Disassembler
