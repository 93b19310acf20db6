import A64Disassembler.Decode.Bitmask
import A64Disassembler.Insn.Register
import Mathlib.Data.Nat.Bitwise

/-!
# The bits of a bitmask immediate

A bitmask immediate is computed with shifts: bits are spread downwards to find the size of the
element, a run of ones is rotated inside the element, and copies of the element are put side by side
until 64 bits are filled. Here every bit of the result is said on its own, by a comparison of two
remainders.

The spreading looks at a window of bits above each bit, and every step doubles the window. In the
same way every step of the tiling doubles the filled part. So both are followed by an invariant with
the length of what is covered so far.
-/

namespace A64Disassembler.Bitmask

/-- The number of bits of the element that `n` and `s` select: the power of two at the highest bit
of the seven bits that are `n` and the inverted bits of `s`, and 1 if all of them are clear. -/
def elementSize (n s : Nat) : Nat :=
  2 ^ (n * 64 + (63 - s)).log2

/-- Whether each bit of `y` says if there is a set bit of `x` among the `window` bits from its place
on. -/
def Spreads (x y : Word) (window : Nat) : Prop :=
  ∀ i, y.getLsbD i = true ↔ ∃ j, i ≤ j ∧ j < i + window ∧ x.getLsbD j = true

/-- Every bit alone is a window of one bit. -/
theorem spreads_self (x : Word) : Spreads x x 1 := by
  refine fun i => ⟨fun h => ⟨i, Nat.le_refl i, by omega, h⟩, ?_⟩
  rintro ⟨j, hle, hlt, h⟩
  obtain rfl : i = j := by omega
  exact h

/-- Adding the bits one window further up doubles the window. -/
theorem Spreads.double {x y : Word} {window : Nat} (h : Spreads x y window) :
    Spreads x (y ||| y >>> window) (window + window) := by
  intro i
  rw [BitVec.getLsbD_or, BitVec.getLsbD_ushiftRight, Bool.or_eq_true, h i, h (window + i)]
  constructor
  · rintro (⟨j, hle, hlt, hj⟩ | ⟨j, hle, hlt, hj⟩)
    · exact ⟨j, hle, by omega, hj⟩
    · exact ⟨j, by omega, by omega, hj⟩
  · rintro ⟨j, hle, hlt, hj⟩
    by_cases hlow : j < i + window
    · exact .inl ⟨j, hle, hlow, hj⟩
    · exact .inr ⟨j, by omega, by omega, hj⟩

variable {n s : Word}

/-- The seven bits that are `n` and the inverted bits of `s`. -/
theorem toNat_sizeBits (hn : n.toNat ≤ 1) (hs : s.toNat < 64) :
    ((n <<< 6) ||| (s ^^^ 0x3f)).toNat = n.toNat * 64 + (63 - s.toNat) := by
  have hshift : (n <<< 6).toNat = 2 ^ 6 * n.toNat := by
    rw [BitVec.toNat_shiftLeft, Nat.shiftLeft_eq]
    omega
  have hinverted : (s ^^^ 0x3f).toNat = 2 ^ 6 - (s.toNat + 1) := by
    apply Nat.eq_of_testBit_eq
    intro i
    have hones : (0x3f : Word).toNat = 2 ^ 6 - 1 := rfl
    rw [BitVec.toNat_xor, Nat.testBit_xor, hones, Nat.testBit_two_pow_sub_one,
      Nat.testBit_two_pow_sub_succ hs]
    by_cases hi : i < 6
    · simp [hi]
    · have hpow : 2 ^ 6 ≤ 2 ^ i := Nat.pow_le_pow_right (by decide) (by omega)
      have hclear : s.toNat.testBit i = false := Nat.testBit_lt_two_pow (Nat.lt_of_lt_of_le hs hpow)
      simp [hi, hclear]
  have hsmall : 2 ^ 6 - (s.toNat + 1) < 2 ^ 6 := by omega
  rw [BitVec.toNat_or, hshift, hinverted, ← Nat.two_pow_add_eq_or_of_lt hsmall]
  omega

/-- The number below the element size has all bits set that lie below the highest one of the seven
bits. -/
theorem testBit_levels (hn : n.toNat ≤ 1) (hs : s.toNat < 64) (i : Nat) :
    (levels n s).testBit i = true ↔ 2 ^ i ≤ (n.toNat * 64 + (63 - s.toNat)) / 2 := by
  let half := ((n <<< 6) ||| (s ^^^ 0x3f)) >>> 1
  have hhalf : half.toNat = (n.toNat * 64 + (63 - s.toNat)) / 2 := by
    rw [BitVec.toNat_ushiftRight, toNat_sizeBits hn hs, Nat.shiftRight_eq_div_pow, Nat.pow_one]
  have hsix : half.toNat < 2 ^ 6 := by
    rw [hhalf]
    omega
  have hspread := (spreads_self half).double.double.double i
  have hlevels : (levels n s).testBit i = true ↔
      ∃ j, i ≤ j ∧ j < i + 8 ∧ half.getLsbD j = true := hspread
  rw [hlevels, ← hhalf]
  constructor
  · rintro ⟨j, hle, -, hj⟩
    exact Nat.le_trans (Nat.pow_le_pow_right (by decide) hle) (Nat.ge_two_pow_of_testBit hj)
  · intro hle
    obtain ⟨j, hij, hj⟩ := Nat.exists_ge_and_testBit_of_ge_two_pow hle
    have hlt : j < 6 := by
      refine (Nat.pow_lt_pow_iff_right (a := 2) (by decide)).mp ?_
      exact Nat.lt_of_le_of_lt (Nat.ge_two_pow_of_testBit hj) hsix
    exact ⟨j, hij, by omega, hj⟩

/-- The element size is a power of two. -/
theorem levels_add_one (hn : n.toNat ≤ 1) (hs : s.toNat < 64) :
    levels n s + 1 = elementSize n.toNat s.toNat := by
  have heq : levels n s = 2 ^ (n.toNat * 64 + (63 - s.toNat)).log2 - 1 := by
    apply Nat.eq_of_testBit_eq
    intro i
    rw [Nat.testBit_two_pow_sub_one, Bool.eq_iff_iff, testBit_levels hn hs, decide_eq_true_iff]
    generalize n.toNat * 64 + (63 - s.toNat) = v
    by_cases hv : v = 0
    · subst hv
      simp
    · rw [← Nat.succ_le_iff, Nat.le_log2 hv, Nat.pow_succ]
      omega
  have hpos := Nat.two_pow_pos (n.toNat * 64 + (63 - s.toNat)).log2
  rw [heq, elementSize]
  omega

/-- An element has at most 64 bits. -/
theorem exists_elementSize_eq (hn : n.toNat ≤ 1) : ∃ k ≤ 6, elementSize n.toNat s.toNat = 2 ^ k := by
  refine ⟨_, ?_, rfl⟩
  have hlt : n.toNat * 64 + (63 - s.toNat) < 2 ^ 7 := by omega
  by_cases hv : n.toNat * 64 + (63 - s.toNat) = 0
  · simp [hv]
  · exact Nat.le_of_lt_succ ((Nat.log2_lt hv).mpr hlt)

/-- The low bits are set. -/
theorem getLsbD_ones {count i : Nat} (hcount : count < 128) (hi : i < 128) :
    (ones count).getLsbD i = decide (i < count) := by
  have hones : ones count = BitVec.ofNat 128 (2 ^ count - 1) := by
    have hlt : 2 ^ count < 2 ^ 128 := Nat.pow_lt_pow_right (by decide) hcount
    have hpos := Nat.two_pow_pos count
    apply BitVec.eq_of_toNat_eq
    have hone : (1 : BitVec 128).toNat = 1 := rfl
    rw [ones, BitVec.toNat_sub, BitVec.toNat_shiftLeft, Nat.shiftLeft_eq, BitVec.toNat_ofNat, hone,
      Nat.one_mul, Nat.mod_eq_of_lt hlt, Nat.mod_eq_of_lt (by omega : 2 ^ count - 1 < 2 ^ 128)]
    omega
  rw [hones, BitVec.getLsbD_ofNat, Nat.testBit_two_pow_sub_one, decide_eq_true hi, Bool.true_and]

/-- The bits of an element are a run of ones, rotated. -/
theorem getLsbD_element {size count rotation i : Nat} (hsize : size ≤ 64) (hcount : count ≤ size)
    (hrotation : rotation < size) (hi : i < size) :
    (element size count rotation).getLsbD i = decide ((i + rotation) % size < count) := by
  rw [element, BitVec.getLsbD_and, BitVec.getLsbD_or, BitVec.getLsbD_ushiftRight,
    BitVec.getLsbD_shiftLeft, getLsbD_ones (by omega) (by omega),
    getLsbD_ones (by omega) (by omega), getLsbD_ones (by omega) (by omega)]
  by_cases hwrap : i + rotation < size
  · rw [Nat.mod_eq_of_lt hwrap]
    simp [hi, show i < size - rotation by omega, Nat.add_comm]
  · have hmod : (i + rotation) % size = i - (size - rotation) := by
      rw [Nat.mod_eq_sub_mod (by omega), Nat.mod_eq_of_lt (by omega)]
      omega
    rw [hmod]
    simp [hi, show ¬ rotation + i < count by omega, show ¬ i < size - rotation by omega,
      show i < 128 by omega]

/-- An element has no bits beyond its size. -/
theorem getLsbD_element_of_le {size count rotation i : Nat} (hsize : size ≤ 64) (hi : size ≤ i) :
    (element size count rotation).getLsbD i = false := by
  by_cases hlt : i < 128
  · rw [element, BitVec.getLsbD_and, getLsbD_ones (by omega) hlt, decide_eq_false (by omega),
      Bool.and_false]
  · exact BitVec.getLsbD_of_ge _ i (by omega)

/-- Whether the low `filled` bits of `mask` are copies of the low `size` bits of `element`, and all
others are clear. -/
def Tiles (element mask : BitVec 128) (size filled : Nat) : Prop :=
  ∀ i, mask.getLsbD i = (decide (i < filled) && element.getLsbD (i % size))

/-- Putting a copy of the filled part above it doubles it. -/
theorem Tiles.double {element mask : BitVec 128} {size filled : Nat} (h : Tiles element mask size filled)
    (hdvd : size ∣ filled) (hfits : filled + filled ≤ 128) :
    Tiles element (mask ||| mask <<< filled) size (filled + filled) := by
  intro i
  rw [BitVec.getLsbD_or, BitVec.getLsbD_shiftLeft, h i, h (i - filled)]
  by_cases hlow : i < filled
  · simp [hlow, show i < filled + filled by omega]
  · obtain ⟨copies, rfl⟩ := hdvd
    rw [Nat.sub_mul_mod (by omega)]
    by_cases hhigh : i < size * copies + size * copies
    · simp [hlow, hhigh, show i < 128 by omega, show i - size * copies < size * copies by omega]
    · simp [hlow, hhigh, show ¬ i - size * copies < size * copies by omega]

/-- An element fills as many bits as it has. -/
theorem tiles_self {element : BitVec 128} {size : Nat}
    (helement : ∀ i, size ≤ i → element.getLsbD i = false) : Tiles element element size size := by
  intro i
  by_cases hi : i < size
  · rw [Nat.mod_eq_of_lt hi, decide_eq_true hi, Bool.true_and]
  · rw [helement i (by omega), decide_eq_false hi, Bool.false_and]

/-- Copies of an element whose size is a power of two fill 64 bits. -/
theorem tiles_tile {element : BitVec 128} {k : Nat} (hk : k ≤ 6)
    (helement : ∀ i, 2 ^ k ≤ i → element.getLsbD i = false) :
    Tiles element (tile (2 ^ k) element) (2 ^ k) 64 := by
  -- The steps are numbered, so that the filled part is known after the first few of them.
  have hsteps : ∀ t ≤ 6, Tiles element (((List.range t).map (2 ^ ·)).foldl
      (fun mask filled => if 2 ^ k ≤ filled then mask ||| (mask <<< filled) else mask) element)
      (2 ^ k) (2 ^ max k t) := by
    intro t ht
    induction t with
    | zero =>
      rw [Nat.max_zero]
      exact tiles_self helement
    | succ t ih =>
      have hmask := ih (by omega)
      rw [List.range_succ, List.map_append, List.foldl_append]
      simp only [List.map_cons, List.map_nil, List.foldl_cons, List.foldl_nil]
      split
      · rename_i hle
        have hkt : k ≤ t := (Nat.pow_le_pow_iff_right (by decide)).mp hle
        rw [Nat.max_eq_right hkt] at hmask
        rw [Nat.max_eq_right (by omega), Nat.pow_succ, Nat.mul_two]
        refine hmask.double (Nat.pow_dvd_pow 2 hkt) ?_
        have hbound : 2 ^ t ≤ 2 ^ 5 := Nat.pow_le_pow_right (by decide) (by omega)
        omega
      · rename_i hnot
        have htk : t < k := by
          by_contra hge
          exact hnot (Nat.pow_le_pow_right (by decide) (by omega))
        rw [Nat.max_eq_left (by omega)] at hmask
        rwa [Nat.max_eq_left (by omega)]
  have hall := hsteps 6 (Nat.le_refl 6)
  rw [Nat.max_eq_right hk] at hall
  exact hall

/-- A bitmask immediate has a value in every register, and a bit of the value is set exactly if it
lies in the register and its place, moved up by the rotation, falls on the run of ones of its
element. -/
theorem value_bits (hn : n.toNat ≤ 1) (hs : s.toNat < 64) (r : Word) (width : Width) :
    ∃ v, value n s r width.bits = .ok v ∧ ∀ i, v.getLsbD i = true ↔ i < width.bits ∧
      (i + r.toNat) % elementSize n.toNat s.toNat ≤ s.toNat % elementSize n.toNat s.toNat := by
  obtain ⟨k, hk, hsize⟩ := exists_elementSize_eq (s := s) hn
  have hlevels : levels n s + 1 = 2 ^ k := (levels_add_one hn hs).trans hsize
  have hpow : 2 ^ k ≤ 2 ^ 6 := Nat.pow_le_pow_right (by decide) hk
  have hmask : levels n s = 2 ^ k - 1 := by omega
  have hwidth : width.bits ≤ 64 := by cases width <;> decide
  have hfits : levels n s + 1 < 128 ∧ width.bits < 128 := by omega
  refine ⟨_, if_pos hfits, fun i => ?_⟩
  rw [hlevels, hmask, hsize, Nat.and_two_pow_sub_one_eq_mod, Nat.and_two_pow_sub_one_eq_mod,
    Nat.mod_mod, BitVec.getLsbD_setWidth, BitVec.getLsbD_and,
    tiles_tile hk (fun j hj => getLsbD_element_of_le (by omega) hj) i]
  by_cases hi : i < 64
  · have hpos := Nat.two_pow_pos k
    have hcount := Nat.mod_lt s.toNat hpos
    rw [getLsbD_ones (by omega) (by omega),
      getLsbD_element (by omega) hcount (Nat.mod_lt _ hpos) (Nat.mod_lt i hpos), ← Nat.add_mod]
    simp only [hi, decide_true, Bool.true_and, Bool.and_eq_true, decide_eq_true_eq, Nat.lt_succ_iff]
    exact and_comm
  · simp only [hi, decide_false, Bool.false_and, Bool.false_eq_true, false_iff, not_and]
    intro hlt
    omega

/-- An element of two bits, the upper one set, in a register of 32 bits. -/
theorem value_bits_of_alternating :
    (0 : Word).toNat ≤ 1 ∧ (0x3c : Word).toNat < 64 ∧ value 0 0x3c 1 32 = .ok 0xaaaaaaaa ∧
      elementSize 0 0x3c = 2 ∧
      ∀ i, (0xaaaaaaaa : BitVec 64).getLsbD i = true ↔ i < 32 ∧ (i + 1) % 2 ≤ 0 := by
  have hn : (0 : Word).toNat ≤ 1 := by decide
  have hs : (0x3c : Word).toNat < 64 := by decide
  have hsize : elementSize 0 0x3c = 2 := by decide
  have hvalue : value 0 0x3c 1 32 = .ok 0xaaaaaaaa := by decide
  obtain ⟨v, hv, hbits⟩ := value_bits hn hs 1 .w32
  obtain rfl : 0xaaaaaaaa = v := Except.ok.inj (hvalue.symm.trans hv)
  exact ⟨hn, hs, hvalue, hsize, hbits⟩

end A64Disassembler.Bitmask
