import A64Disassembler.Proofs.Effect.Change

/-!
# Accesses to memory

A load or a store moves words between registers and consecutive cells, its slots. The first slot
is at the address that the last operand gives, and every slot is as large as the mnemonic and the
width of the registers say. An access with an increment also moves its base register.

The effects of a binding are keyed by reduced pointers. Two slots of a pair have different
addresses in every state, so their pointers differ and neither store is lost.
-/

namespace A64Disassembler

/-- The mnemonics of loads without a sign extension. -/
def loadMnemonics : List String :=
  ["ldr", "ldrb", "ldrh", "ldur", "ldurb", "ldurh", "ldp"]

/-- The mnemonics of stores. -/
def storeMnemonics : List String :=
  ["str", "strb", "strh", "stur", "sturb", "sturh", "stp"]

/-- The mnemonics of accesses to two slots. -/
def pairMnemonics : List String :=
  ["ldp", "stp"]

/-- The number of bytes of a slot. -/
def slotSize (name : String) (w : Width) : UInt8 :=
  if name ∈ ["ldrb", "ldurb", "strb", "sturb"] then 1
  else if name ∈ ["ldrh", "ldurh", "strh", "sturh"] then 2
  else UInt8.ofNat (w.bits / 8)

/-- How an access gives the address of its first slot. -/
inductive Addressing
  /-- The address itself. -/
  | literal (address : BitVec 64)
  /-- A base register and an offset, which may be the increment of the base. -/
  | based (base : RegName) (offset : BitVec 64) (increment : Increment)

/-- The offset of an access in bytes. A pair has a signed offset in slots, any other access an
unsigned offset in slots or a signed offset in bytes. -/
def accessOffset (name : String) (size : UInt8) (word : Word) : BitVec 64 :=
  if name ∈ pairMnemonics then
    (word.extractLsb' 15 7).signExtend 64 * BitVec.ofNat 64 size.toNat
  else if word.getLsbD 24 then
    (word.extractLsb' 10 12).setWidth 64 * BitVec.ofNat 64 size.toNat
  else
    (word.extractLsb' 12 9).signExtend 64

/-- The increment of an access. An unsigned offset is no increment. -/
def accessIncrement (name : String) (word : Word) : Increment :=
  if name ∈ pairMnemonics then
    if word.getLsbD 23 then if word.getLsbD 24 then .pre else .post else .none
  else if word.getLsbD 24 then .none
  else if word.getLsbD 10 then if word.getLsbD 11 then .pre else .post else .none

namespace Addressing

/-- Whether a word at an address gives the address of the first slot in this way. An address of
its own is a distance in words from the word; base register 31 is the stack pointer. -/
def IsEncodedBy (name : String) (size : UInt8) (address : Address) (word : Word) :
    Addressing → Prop
  | literal start => start = address + (word.extractLsb' 5 19).signExtend 64 * 4
  | based base offset increment =>
    base = RegName.ofNumber (word.extractLsb' 5 5).toNat false ∧
      offset = accessOffset name size word ∧ increment = accessIncrement name word

/-- The operand of an access to slots of `size` bytes. -/
def operand (size : UInt8) : Addressing → OperandKind
  | literal address => .imm (.const address)
  | based base offset increment =>
    .mem { base := ⟨base, .w64⟩, offset := .const offset, size, increment }

/-- The address of the first slot. -/
def start (v : Valuation) : Addressing → BitVec 64
  | literal address => address
  | based base _ .post => v.reg base.name64
  | based base offset _ => v.reg base.name64 + offset

/-- The register that the access increments. -/
def incremented? : Addressing → Option RegName
  | literal _ | based _ _ .none => none
  | based base _ _ => some base

/-- The increment of the base register. -/
def increments (v : Valuation) : Addressing → List Change
  | literal _ | based _ _ .none => []
  | based base offset _ => [.register base.name64 (v.reg base.name64 + offset)]

end Addressing

/-- The names of the registers that a load changes. -/
def loadedNames (transfers : List Reg) : List RegName :=
  (transfers.filter fun r => !r.isZero).map Reg.name

/-- The changes by loading registers from consecutive slots. The zero register does not change. -/
def loadChanges (v : Valuation) (size : UInt8) : BitVec 64 → List Reg → List Change
  | _, [] => []
  | address, r :: rest =>
    r.changes (v.cell address size) ++
      loadChanges v size (address + BitVec.ofNat 64 size.toNat) rest

/-- The changes by storing registers to consecutive slots. The zero register stores zeroes. -/
def storeChanges (v : Valuation) (size : UInt8) : BitVec 64 → List Reg → List Change
  | _, [] => []
  | address, r :: rest =>
    .cell address size (r.content v (8 * size.toNat)) ::
      storeChanges v size (address + BitVec.ofNat 64 size.toNat) rest

/-- A slot is not empty. -/
theorem slotSize_pos (name : String) (w : Width) : 0 < (slotSize name w).toNat := by
  unfold slotSize
  split_ifs
  · decide
  · decide
  · cases w <;> decide

/-- A slot is no larger than a register. -/
theorem slotSize_le (name : String) (w : Width) : 8 * (slotSize name w).toNat ≤ w.bits := by
  unfold slotSize
  split_ifs
  · cases w <;> decide
  · cases w <;> decide
  · cases w <;> decide

/-- Registers have different names if those of the general registers differ from each other, from
the other two and these from each other. -/
theorem RegName.injective_of_general {write : RegName → String}
    (hgeneral : ∀ k l, write (general k) = write (general l) → k = l)
    (hsp : ∀ k, write (general k) ≠ write sp) (hzero : ∀ k, write (general k) ≠ write zero)
    (hne : write sp ≠ write zero) : Function.Injective write := by
  intro a b h
  cases a with
  | general k =>
    cases b with
    | general l => exact congrArg general (hgeneral k l h)
    | sp => exact absurd h (hsp k)
    | zero => exact absurd h (hzero k)
  | sp =>
    cases b with
    | general l => exact absurd h.symm (hsp l)
    | sp => rfl
    | zero => exact absurd h hne
  | zero =>
    cases b with
    | general l => exact absurd h.symm (hzero l)
    | sp => exact absurd h.symm hne
    | zero => rfl

/-- Registers with the same name are the same. -/
theorem RegName.name64_injective : Function.Injective RegName.name64 := by
  have hgeneral : ∀ k l : Fin 31, (general k).name64 = (general l).name64 → k = l := by
    decide +kernel
  have hsp : ∀ k : Fin 31, (general k).name64 ≠ sp.name64 := by decide +kernel
  have hzero : ∀ k : Fin 31, (general k).name64 ≠ zero.name64 := by decide +kernel
  exact injective_of_general hgeneral hsp hzero (by decide)

/-- A number that fits into a register survives being cut down to the register. -/
theorem setWidth_setWidth_of_lt {x : BitVec 64} {w : Nat} (h : x.toNat < 2 ^ w) :
    (x.setWidth w).setWidth 64 = x := by
  apply BitVec.eq_of_toNat_eq
  rw [BitVec.toNat_setWidth, BitVec.toNat_setWidth, Nat.mod_eq_of_lt h, Nat.mod_eq_of_lt x.isLt]

/-- The low bits of the content of a register are its content in fewer bits. -/
theorem Reg.setWidth_content {n w : Nat} (h : n ≤ w) (v : Valuation) (r : Reg) :
    (r.content v w).setWidth n = r.content v n := by
  unfold content
  split
  · simp
  · exact BitVec.setWidth_setWidth_of_le _ h

/-- The symbolic form of a register denotes the content of the register in any smaller width. -/
theorem Reg.denotes_symbolic_of_le {n : Nat} (v : Valuation) {r : Reg} (h : n ≤ r.width.bits) :
    r.symbolic.Denotes v (r.content v n) := by
  have h64 : n ≤ 64 := Nat.le_trans h r.width.bits_le
  rw [Expr.Denotes, r.eval_symbolic, Option.map_some, BitVec.setWidth_setWidth_of_le _ h64,
    r.setWidth_content h]

namespace Expr

/-- The pointer to the slot after a slot of `size` bytes. -/
def nextSlot (ptr : Expr) (size : UInt8) : Expr :=
  (op .add ptr (const (BitVec.ofNat 64 size.toNat))).reduce

/-- The address of the slot after a slot. -/
theorem eval_nextSlot {v : Valuation} {ptr : Expr} {address : BitVec 64}
    (h : ptr.eval v = some address) (size : UInt8) :
    (ptr.nextSlot size).eval v = some (address + BitVec.ofNat 64 size.toNat) := by
  simp only [nextSlot, eval_reduce, eval, h, Option.bind_some, Option.map_some, Op.eval]

end Expr

namespace Addressing

/-- The pointer to the first slot. -/
def pointer : Addressing → Expr
  | literal address => .const address
  | based base _ .post => .sym base.name64
  | based base offset _ => (Expr.op .add (.sym base.name64) (.const offset)).reduce

/-- The pointer to the first slot evaluates to its address. -/
theorem eval_pointer (v : Valuation) (mode : Addressing) :
    mode.pointer.eval v = some (mode.start v) := by
  cases mode with
  | literal address => rfl
  | based base offset increment =>
    cases increment with
    | post => rfl
    | none | pre => exact Expr.eval_reduce v _

/-- The symbolic form of an operand at a base register is the first slot. -/
theorem symbolic_operand {o : Operand} {base : RegName} {offset : BitVec 64}
    {increment : Increment} {size : UInt8} (hbase : base ≠ .zero)
    (ho : o.kind = (based base offset increment).operand size) :
    o.symbolic = .mem (based base offset increment).pointer size := by
  have hsymbolic : Reg.symbolic ⟨base, .w64⟩ = .sym base.name64 := by
    simp [Reg.symbolic, Reg.isZero, hbase]
  rw [Operand.symbolic, ho]
  cases increment with
  | post => simp only [operand, MemRef.symbolic, MemRef.pointer, hsymbolic, pointer]; rfl
  | none | pre => simp only [operand, MemRef.symbolic, MemRef.pointer, hsymbolic, pointer]

end Addressing

namespace Binding

variable {b : Binding} {v : Valuation} {changes : List Change} {size : UInt8}

/-- Loads registers from consecutive slots. -/
def loads (b : Binding) (size : UInt8) (ptr : Expr) : List Reg → Binding
  | [] => b
  | r :: rest => (b.assign r (.mem ptr size)).loads size (ptr.nextSlot size) rest

/-- Stores registers to consecutive slots. -/
def stores (b : Binding) (size : UInt8) (ptr : Expr) : List Reg → Binding
  | [] => b
  | r :: rest => (b.set (.mem ptr size) r.symbolic).stores size (ptr.nextSlot size) rest

/-- Increments the base register of an access. -/
def advance (b : Binding) : Addressing → Binding
  | .literal _ | .based _ _ .none => b
  | .based base offset _ =>
    b.set (.reg base.name64) (.op .add (.sym base.name64) (.const offset))

/-- Loading registers leaves no doubt about the effects. -/
theorem isIncomplete_loads (b : Binding) (size : UInt8) (ptr : Expr) (transfers : List Reg) :
    (b.loads size ptr transfers).isIncomplete = b.isIncomplete := by
  induction transfers generalizing b ptr with
  | nil => rfl
  | cons r rest ih => exact (ih _ _).trans (b.isIncomplete_assign r _)

/-- Storing registers leaves no doubt about the effects. -/
theorem isIncomplete_stores (b : Binding) (size : UInt8) (ptr : Expr) (transfers : List Reg) :
    (b.stores size ptr transfers).isIncomplete = b.isIncomplete := by
  induction transfers generalizing b ptr with
  | nil => rfl
  | cons r rest ih => exact ih _ _

/-- An increment leaves no doubt about the effects. -/
theorem isIncomplete_advance (b : Binding) (mode : Addressing) :
    (b.advance mode).isIncomplete = b.isIncomplete := by
  unfold advance
  split <;> rfl

/-- Loading registers from cells makes the changes of a load, if every register is loaded only
once. -/
theorem Makes.loads (hcells : ∀ a n, (v.cell a n).toNat < 2 ^ (8 * n.toNat))
    {transfers : List Reg} (hfits : ∀ r ∈ transfers, 8 * size.toNat ≤ r.width.bits)
    {ptr : Expr} {address : BitVec 64} (hptr : ptr.eval v = some address)
    (hnodup : ((changes ++ loadChanges v size address transfers).map Change.place).Nodup)
    (h : b.Makes v changes) :
    (b.loads size ptr transfers).Makes v (changes ++ loadChanges v size address transfers) := by
  induction transfers generalizing b changes ptr address with
  | nil => simpa only [Binding.loads, loadChanges, List.append_nil] using h
  | cons r rest ih =>
    have hrest : ∀ r ∈ rest, 8 * size.toNat ≤ r.width.bits := fun r' hr' =>
      hfits r' (List.mem_cons_of_mem _ hr')
    -- A narrow register masks what it loads, which changes nothing because the slot fits into it.
    have hlt : (v.cell address size).toNat < 2 ^ r.width.bits :=
      Nat.lt_of_lt_of_le (hcells address size)
        (Nat.pow_le_pow_right (by decide) (hfits r List.mem_cons_self))
    have hvalue : (Expr.mem ptr size).Denotes v ((v.cell address size).setWidth r.width.bits) := by
      rw [Expr.Denotes, Expr.eval, hptr, Option.map_some, Option.map_some]
    rw [loadChanges, ← setWidth_setWidth_of_lt hlt] at hnodup
    have hassign := h.assign hvalue hnodup
    rw [setWidth_setWidth_of_lt hlt] at hnodup hassign
    rw [loadChanges, ← List.append_assoc]
    rw [← List.append_assoc] at hnodup
    exact ih hrest (Expr.eval_nextSlot hptr size) hnodup hassign

/-- Storing registers to cells makes the changes of a store, if every cell is stored to only
once. -/
theorem Makes.stores {transfers : List Reg}
    (hfits : ∀ r ∈ transfers, 8 * size.toNat ≤ r.width.bits)
    {ptr : Expr} {address : BitVec 64} (hptr : ptr.eval v = some address)
    (hnodup : ((changes ++ storeChanges v size address transfers).map Change.place).Nodup)
    (h : b.Makes v changes) :
    (b.stores size ptr transfers).Makes v (changes ++ storeChanges v size address transfers) := by
  induction transfers generalizing b changes ptr address with
  | nil => simpa only [Binding.stores, storeChanges, List.append_nil] using h
  | cons r rest ih =>
    have hrest : ∀ r ∈ rest, 8 * size.toNat ≤ r.width.bits := fun r' hr' =>
      hfits r' (List.mem_cons_of_mem _ hr')
    have hvalue := Reg.denotes_symbolic_of_le v (hfits r List.mem_cons_self)
    rw [storeChanges] at hnodup
    have hmade : (Change.cell address size (r.content v (8 * size.toNat))).IsMadeBy v
        (.mem ptr size, r.symbolic) := ⟨ptr, rfl, hptr, hvalue⟩
    have hset := h.set hmade hnodup
    rw [storeChanges, List.append_cons]
    rw [List.append_cons] at hnodup
    exact ih hrest (Expr.eval_nextSlot hptr size) hnodup hset

/-- Incrementing the base register of an access makes that change, if the register is not
changed already. -/
theorem Makes.advance {mode : Addressing}
    (hnodup : ((changes ++ mode.increments v).map Change.place).Nodup) (h : b.Makes v changes) :
    (b.advance mode).Makes v (changes ++ mode.increments v) := by
  cases mode with
  | literal address =>
    simpa only [Binding.advance, Addressing.increments, List.append_nil] using h
  | based base offset increment =>
    cases increment with
    | none => simpa only [Binding.advance, Addressing.increments, List.append_nil] using h
    | pre | post => exact h.set ⟨rfl, rfl⟩ hnodup

end Binding

/-- The places that a load changes are those of the registers that it loads. -/
theorem places_loadChanges (v : Valuation) (size : UInt8) (address : BitVec 64)
    (transfers : List Reg) :
    (loadChanges v size address transfers).map Change.place =
      (loadedNames transfers).map fun n => .register n.name64 := by
  induction transfers generalizing address with
  | nil => rfl
  | cons r rest ih =>
    rw [loadChanges, List.map_append, ih]
    cases hzero : r.isZero with
    | true => simp [Reg.changes, loadedNames, hzero]
    | false => simp [Reg.changes, loadedNames, hzero, Change.place]

/-- The place that an increment changes is the base register. -/
theorem Addressing.places_increments (v : Valuation) (mode : Addressing) :
    (mode.increments v).map Change.place =
      mode.incremented?.toList.map fun n => .register n.name64 := by
  cases mode with
  | literal address => rfl
  | based base offset increment => cases increment <;> rfl

/-- A load changes every place only once, if its registers differ from each other and from an
incremented base register. -/
theorem nodup_loadChanges {transfers : List Reg} {mode : Addressing} (v : Valuation) (size : UInt8)
    (h : (loadedNames transfers ++ mode.incremented?.toList).Nodup) :
    ((loadChanges v size (mode.start v) transfers ++ mode.increments v).map Change.place).Nodup := by
  rw [List.map_append, places_loadChanges, Addressing.places_increments, ← List.map_append]
  refine List.Nodup.map (fun a b hab => ?_) h
  exact RegName.name64_injective (Place.register.inj hab)

/-- The slot after a slot that is not empty has another address. -/
theorem add_size_ne {size : UInt8} (hsize : 0 < size.toNat) (address : BitVec 64) :
    address + BitVec.ofNat 64 size.toNat ≠ address := by
  have hlt := size.toNat_lt
  intro h
  have hzero : BitVec.ofNat 64 size.toNat = 0 := by simpa using h
  have htoNat := congrArg BitVec.toNat hzero
  rw [BitVec.toNat_ofNat] at htoNat
  simp at htoNat
  omega

/-- A store to at most two slots changes every place only once. -/
theorem nodup_storeChanges {transfers : List Reg} {size : UInt8} (mode : Addressing) (v : Valuation)
    (hsize : 0 < size.toNat) (hlength : transfers.length ≤ 2) :
    ((storeChanges v size (mode.start v) transfers ++ mode.increments v).map
      Change.place).Nodup := by
  have hnext := add_size_ne hsize (mode.start v)
  rw [List.map_append, Addressing.places_increments]
  match transfers, hlength with
  | [], _ => cases mode.incremented? <;> simp [storeChanges]
  | [r], _ => cases mode.incremented? <;> simp [storeChanges, Change.place]
  | [r, t], _ => cases mode.incremented? <;> simp [storeChanges, Change.place, hnext.symm]

end A64Disassembler
