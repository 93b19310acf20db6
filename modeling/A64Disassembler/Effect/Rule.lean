import A64Disassembler.Binding
import A64Disassembler.Effect.Symbolic
import A64Disassembler.Encoding.Catalogue
import A64Disassembler.Insn.Basic

/-!
# Effects of instructions

The effect of an instruction is given by a rule for its mnemonic. A rule reads the values of the
operands and says what is written where. It fails if the operands do not fit the rule, which
cannot happen for built-in encodings.
-/

namespace A64Disassembler

/-- The register of the condition flags. -/
def conditionFlags : String := "nzcv"

/-- The register that a call saves the return address in. -/
def linkRegister : String := "x30"

/-- What an instruction does with the values of its operands. -/
inductive Rule
  /-- The first operand gets the second. -/
  | move
  /-- The first operand gets the complement of the second. -/
  | moveNot
  /-- The first operand gets the result for the other two; the condition flags may be set. -/
  | binary (op : Op) (setsFlags : Bool)
  /-- The first operand gets the negated second. -/
  | negate
  /-- The first operand gets the second, shifted by the third modulo the register width. -/
  | shift (op : Op)
  /-- Only the condition flags are set. -/
  | compare
  /-- The first operand gets the memory cell that the second is, or is the address of. -/
  | load
  /-- The memory cell of the second operand gets the first. -/
  | store
  /-- The first two operands get the cell of the third and the one after it. -/
  | loadPair
  /-- The cell of the third operand and the one after it get the first two. -/
  | storePair
  /-- The return address is saved. -/
  | call
  /-- Nothing is written. -/
  | nothing
  deriving DecidableEq, Repr

namespace Rule

/-- The rules by mnemonic. -/
def catalogue : List (String × Rule) :=
  (["mov", "movz", "adr", "adrp"].map fun name => (name, move)) ++
  [("movn", moveNot), ("add", binary .add false), ("adds", binary .add true),
    ("sub", binary .sub false), ("subs", binary .sub true), ("neg", negate),
    ("and", binary .and false), ("ands", binary .and true), ("orr", binary .or false),
    ("eor", binary .xor false), ("lsl", shift .shl), ("lsr", shift .shr), ("asr", shift .sar)] ++
  (["cmp", "cmn", "tst"].map fun name => (name, compare)) ++
  (["ldr", "ldrb", "ldrh", "ldur", "ldurb", "ldurh"].map fun name => (name, load)) ++
  (["str", "strb", "strh", "stur", "sturb", "sturh"].map fun name => (name, store)) ++
  [("ldp", loadPair), ("stp", storePair), ("bl", call), ("blr", call)] ++
  (["b", "cbz", "cbnz", "br", "ret", "nop"].map fun name => (name, nothing)) ++
  (Catalogue.conditionalBranchNames.map fun name => (name, nothing))

/-- The rule for a mnemonic. -/
def ofMnemonic? (name : String) : Option Rule :=
  catalogue.lookup name

end Rule

namespace Binding

/-- The fault of a value that no effect can be written to. -/
def unexpectedDestination (destination : Expr) : Fault :=
  .inconsistent ("unexpected destination " ++ destination.text)

/-- Records that an operand with the value `destination` is overwritten by `value`. The low half
of a register takes the low half of the value and clears the rest; the zero register discards
the value. -/
def write (b : Binding) (destination value : Expr) : Except Fault Binding :=
  match destination with
  | .sym name => .ok (b.set (.reg name) value)
  | .op .and (.sym name) (.const mask) =>
    if mask = lowHalf then .ok (b.set (.reg name) (.op .and value (.const lowHalf)))
    else .error (unexpectedDestination destination)
  | .mem ptr size => .ok (b.set (.mem ptr size) value)
  | .const c => if c = 0 then .ok b else .error (unexpectedDestination destination)
  | _ => .error (unexpectedDestination destination)

/-- Records the new contents of the base registers of accesses with an increment. -/
def writeBack (b : Binding) (operands : List Operand) : Binding :=
  operands.foldl
    (fun b o =>
      match o.kind with
      | .mem ref =>
        if ref.increment = .none then b
        else
          let base := ref.base.name.name64
          b.set (.reg base) (.op .add (.sym base) ref.offset)
      | _ => b)
    b

/-- Records that the condition flags are set. -/
def setFlags (b : Binding) : Binding :=
  b.set (.reg conditionFlags) .unknown

end Binding

namespace Insn

variable (i : Insn)

/-- The width of the first operand, 64 bits unless it is a plain register. -/
def firstWidth : Except Fault Width :=
  match i.operands with
  | [] => .error .outOfBounds
  | first :: _ => .ok ((first.reg?.map Reg.width).getD .w64)

/-- The cell after a cell of the same size. -/
def nextCell : Expr → Except Fault Expr
  | .mem ptr size =>
    .ok (.mem (Expr.op .add ptr (.const (BitVec.ofNat 64 size.toNat))).reduce size)
  | e => .error (.inconsistent ("unexpected pair operand " ++ e.text))

/-- The cell that an operand is, or a cell as wide as the first operand at that address. -/
def loadedCell : Expr → Except Fault Expr
  | .mem ptr size => .ok (.mem ptr size)
  | address => do
    let width ← i.firstWidth
    return .mem address (UInt8.ofNat (width.bits / 8))

/-- The binding of an instruction by a rule, given the values of its operands. -/
def bindingBy (values : List Expr) : Rule → Except Fault Binding
  | .move => match values with
    | destination :: a :: _ => Binding.empty.write destination a
    | _ => .error .outOfBounds
  | .moveNot => match values with
    | destination :: a :: _ => Binding.empty.write destination (.op .xor a (.const (-1)))
    | _ => .error .outOfBounds
  | .binary op setsFlags => match values with
    | destination :: a :: b :: _ => do
      let binding ← Binding.empty.write destination (.op op a b)
      return if setsFlags then binding.setFlags else binding
    | _ => .error .outOfBounds
  | .negate => match values with
    | destination :: a :: _ => Binding.empty.write destination (.op .sub (.const 0) a)
    | _ => .error .outOfBounds
  | .shift op => match values with
    | destination :: a :: b :: _ => do
      let width ← i.firstWidth
      let amount := Expr.op .and b (.const (BitVec.ofNat 64 (width.bits - 1)))
      let value := if op = .sar ∧ width = .w32 then a.signExtend32 else a
      Binding.empty.write destination (.op op value amount)
    | _ => .error .outOfBounds
  | .compare => .ok Binding.empty.setFlags
  | .load => match values with
    | destination :: source :: _ => do
      let binding ← Binding.empty.write destination (← i.loadedCell source)
      return binding.writeBack i.operands
    | _ => .error .outOfBounds
  | .store => match values with
    | source :: destination :: _ => do
      let binding ← Binding.empty.write destination source
      return binding.writeBack i.operands
    | _ => .error .outOfBounds
  | .loadPair => match values with
    | first :: second :: cell :: _ => do
      let binding ← Binding.empty.write first cell
      let binding ← binding.write second (← nextCell cell)
      return binding.writeBack i.operands
    | _ => .error .outOfBounds
  | .storePair => match values with
    | first :: second :: cell :: _ => do
      let binding ← Binding.empty.write cell first
      let binding ← binding.write (← nextCell cell) second
      return binding.writeBack i.operands
    | _ => .error .outOfBounds
  | .call => .ok (Binding.empty.set (.reg linkRegister) (.const i.nextAddress))
  | .nothing => .ok .empty

/-- The binding of an instruction without a rule: nothing is known about its first operand. -/
def unknownBinding (values : List Expr) : Binding :=
  let binding := match values with
    | [] => Binding.empty
    | destination :: _ =>
      match Location.ofExpr? destination with
      | some location => Binding.empty.set location .unknown
      | none =>
        match destination.externals with
        | [] => Binding.empty
        | root :: _ => Binding.empty.set (.reg root) .unknown
  binding.markIncomplete

/-- The binding of an instruction with the given mnemonic. -/
def bindingFor (name : String) : Except Fault Binding :=
  let values := i.operands.map Operand.symbolic
  match Rule.ofMnemonic? name with
  | some rule => i.bindingBy values rule
  | none => .ok (unknownBinding values)

/-- The warning about an instruction whose mnemonic has no rule. -/
def bindingWarning? (name : String) : Option String :=
  match Rule.ofMnemonic? name with
  | some _ => none
  | none =>
    some ("arm64: unhandled instruction to backtrace: " ++ name ++ " at " ++
      Numeral.prefixedHex i.address.toNat)

end Insn

end A64Disassembler
