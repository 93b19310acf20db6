import A64Disassembler.Encoding.Spec

/-!
# The built-in encodings

The encodings of the A64 instruction set that the disassembler knows, in the order in which
they are tried. An alias stands before the general form that it is a case of.
-/

namespace A64Disassembler.Catalogue

open Arg

/-- The bit that selects the 64-bit form of an encoding. -/
def wideBit : Word := 0x80000000

/-- An encoding of one width. -/
def one (name : String) (bits : Word) (args : List Arg) (features : BitVec 32) : List Spec :=
  [Spec.ofArgs name bits args features]

/-- The 64-bit form and the 32-bit form of an encoding. -/
def both (name : String) (bits : Word) (args : List Arg) (features : BitVec 32) : List Spec :=
  [Spec.ofArgs name (bits ||| wideBit) args features,
    Spec.ofArgs name bits args (features ||| Feature.narrow)]

/-- An encoding whose last argument is a shifted register, for all shifts and both widths. -/
def shiftedForms (name : String) (bits : Word) (args : List Arg) : List Spec :=
  [(0, Shift.lsl), (0x400000, Shift.lsr), (0x800000, Shift.asr)].flatMap fun (kind, shift) =>
    [Spec.ofArgs name (bits ||| kind ||| wideBit) (args ++ [shifted shift .w64]) Feature.zero31,
      Spec.ofArgs name (bits ||| kind) (args ++ [shifted shift .w32])
        (Feature.zero31 ||| Feature.narrow)]

/-- Addresses relative to the instruction. -/
def addresses : List Spec :=
  one "adr" 0x10000000 [rt, distance21] (Feature.relative ||| Feature.zero31) ++
  one "adrp" 0x90000000 [rt, distance21] (Feature.pageRelative ||| Feature.zero31)

/-- Sums and differences with an immediate. -/
def arithmeticImmediate : List Spec :=
  both "cmp" 0x7100001f [rn, imm12] 0 ++
  both "cmn" 0x3100001f [rn, imm12] 0 ++
  both "mov" 0x11000000 [rt, rn] 0 ++
  both "add" 0x11000000 [rt, rn, imm12] 0 ++
  both "adds" 0x31000000 [rt, rn, imm12] 0 ++
  both "sub" 0x51000000 [rt, rn, imm12] 0 ++
  both "subs" 0x71000000 [rt, rn, imm12] 0

/-- Logical operations with a bitmask immediate. -/
def logicalImmediate : List Spec :=
  both "mov" 0x320003e0 [rt, bitmask] 0 ++
  both "and" 0x12000000 [rt, rn, bitmask] Feature.zeroSource31 ++
  both "orr" 0x32000000 [rt, rn, bitmask] Feature.zeroSource31 ++
  both "eor" 0x52000000 [rt, rn, bitmask] Feature.zeroSource31 ++
  both "tst" 0x7200001f [rn, bitmask] Feature.zero31 ++
  both "ands" 0x72000000 [rt, rn, bitmask] Feature.zero31

/-- Moves of wide immediates. -/
def wideMoves : List Spec :=
  both "movn" 0x12800000 [rt, imm16Half] Feature.zero31 ++
  both "movz" 0x52800000 [rt, imm16Half] Feature.zero31 ++
  both "movk" 0x72800000 [rt, imm16Half] Feature.zero31

/-- The names of the conditional branches, by the number of the condition. -/
def conditionalBranchNames : List String :=
  ["b.eq", "b.ne", "b.cs", "b.cc", "b.mi", "b.pl", "b.vs", "b.vc",
    "b.hi", "b.ls", "b.ge", "b.lt", "b.gt", "b.le", "b.al", "b.nv"]

/-- Branches, calls and returns. -/
def branches : List Spec :=
  one "b" 0x14000000 [distance26] (Feature.branch ||| Feature.stop) ++
  one "bl" 0x94000000 [distance26] (Feature.branch ||| Feature.call) ++
  (conditionalBranchNames.zipIdx.flatMap fun (name, condition) =>
    one name (0x54000000 ||| BitVec.ofNat 32 condition) [distance19] Feature.branch) ++
  both "cbz" 0x34000000 [rt, distance19] (Feature.branch ||| Feature.zero31) ++
  both "cbnz" 0x35000000 [rt, distance19] (Feature.branch ||| Feature.zero31) ++
  one "br" 0xd61f0000 [rn] (Feature.branch ||| Feature.stop) ++
  one "blr" 0xd63f0000 [rn] (Feature.branch ||| Feature.call) ++
  one "ret" 0xd65f0000 [rn] (Feature.branch ||| Feature.stop)

/-- Instructions for the operating system and the debugger. -/
def system : List Spec :=
  one "nop" 0xd503201f [] 0 ++
  one "svc" 0xd4000001 [imm16] 0 ++
  one "hvc" 0xd4000002 [imm16] 0 ++
  one "smc" 0xd4000003 [imm16] 0 ++
  one "brk" 0xd4200000 [imm16] 0 ++
  one "hlt" 0xd4400000 [imm16] 0

/-- Arithmetic and logical operations with a shifted register. -/
def shiftedRegister : List Spec :=
  both "mov" 0x2a0003e0 [rt, rm] Feature.zero31 ++
  shiftedForms "cmp" 0x6b00001f [rn] ++
  shiftedForms "cmn" 0x2b00001f [rn] ++
  shiftedForms "tst" 0x6a00001f [rn] ++
  shiftedForms "neg" 0x4b0003e0 [rt] ++
  shiftedForms "mvn" 0x2a2003e0 [rt] ++
  shiftedForms "add" 0x0b000000 [rt, rn] ++
  shiftedForms "adds" 0x2b000000 [rt, rn] ++
  shiftedForms "sub" 0x4b000000 [rt, rn] ++
  shiftedForms "subs" 0x6b000000 [rt, rn] ++
  shiftedForms "and" 0x0a000000 [rt, rn] ++
  shiftedForms "bic" 0x0a200000 [rt, rn] ++
  shiftedForms "orr" 0x2a000000 [rt, rn] ++
  shiftedForms "orn" 0x2a200000 [rt, rn] ++
  shiftedForms "eor" 0x4a000000 [rt, rn] ++
  shiftedForms "eon" 0x4a200000 [rt, rn] ++
  shiftedForms "ands" 0x6a000000 [rt, rn] ++
  shiftedForms "bics" 0x6a200000 [rt, rn]

/-- Multiplications, divisions and shifts by a register. -/
def dataProcessing : List Spec :=
  both "mul" 0x1b007c00 [rt, rn, rm] Feature.zero31 ++
  both "mneg" 0x1b00fc00 [rt, rn, rm] Feature.zero31 ++
  both "madd" 0x1b000000 [rt, rn, rm, rt2] Feature.zero31 ++
  both "msub" 0x1b008000 [rt, rn, rm, rt2] Feature.zero31 ++
  both "udiv" 0x1ac00800 [rt, rn, rm] Feature.zero31 ++
  both "sdiv" 0x1ac00c00 [rt, rn, rm] Feature.zero31 ++
  both "lsl" 0x1ac02000 [rt, rn, rm] Feature.zero31 ++
  both "lsr" 0x1ac02400 [rt, rn, rm] Feature.zero31 ++
  both "asr" 0x1ac02800 [rt, rn, rm] Feature.zero31

/-- An encoding of a memory access. -/
def access (name : String) (bits : Word) (args : List Arg) (features : BitVec 32)
    (size : Option UInt8) (increment : Increment) : List Spec :=
  [{ Spec.ofArgs name bits args (features ||| Feature.zero31) with accessSize := size, increment }]

/-- The bit that turns a store into a load. -/
def loadBit : Word := 0x400000

/-- Loads and stores at an unsigned offset. -/
def unsignedOffset : List Spec :=
  ([("strb", "ldrb", 0x39000000, Feature.narrow, some 1),
    ("strh", "ldrh", 0x79000000, Feature.narrow, some 2),
    ("str", "ldr", 0xb9000000, Feature.narrow, none),
    ("str", "ldr", 0xf9000000, 0, none)] :
      List (String × String × Word × BitVec 32 × Option UInt8)).flatMap
    (fun (store, load, bits, features, size) =>
      access store bits [rt, memOffset12] features size .none ++
      access load (bits ||| loadBit) [rt, memOffset12] features size .none) ++
  access "ldrsb" 0x39800000 [rt, memOffset12] 0 (some 1) .none ++
  access "ldrsh" 0x79800000 [rt, memOffset12] 0 (some 2) .none ++
  access "ldrsw" 0xb9800000 [rt, memOffset12] 0 (some 4) .none

/-- Loads and stores at a signed offset in bytes, with and without an increment. -/
def signedOffset : List Spec :=
  ([("sturb", "ldurb", "strb", "ldrb", 0x38000000, Feature.narrow, some 1),
    ("sturh", "ldurh", "strh", "ldrh", 0x78000000, Feature.narrow, some 2),
    ("stur", "ldur", "str", "ldr", 0xb8000000, Feature.narrow, none),
    ("stur", "ldur", "str", "ldr", 0xf8000000, 0, none)] :
      List (String × String × String × String × Word × BitVec 32 × Option UInt8)).flatMap
    fun (storePlain, loadPlain, store, load, bits, features, size) =>
      access storePlain bits [rt, memOffset9] features size .none ++
      access store (bits ||| 0x400) [rt, memOffset9] features size .post ++
      access store (bits ||| 0xc00) [rt, memOffset9] features size .pre ++
      access loadPlain (bits ||| loadBit) [rt, memOffset9] features size .none ++
      access load (bits ||| loadBit ||| 0x400) [rt, memOffset9] features size .post ++
      access load (bits ||| loadBit ||| 0xc00) [rt, memOffset9] features size .pre

/-- Loads and stores of two registers. -/
def pairs : List Spec :=
  ([(0xa8000000, 0), (0x28000000, Feature.narrow)] : List (Word × BitVec 32)).flatMap
    fun (bits, features) =>
      ([(0x800000, .post), (0x1000000, .none), (0x1800000, .pre)] :
          List (Word × Increment)).flatMap
        fun (mode, increment) =>
          access "stp" (bits ||| mode) [rt, rt2, memOffset7] features none increment ++
          access "ldp" (bits ||| mode ||| loadBit) [rt, rt2, memOffset7] features none increment

/-- Loads from an address relative to the instruction. -/
def literals : List Spec :=
  access "ldr" 0x18000000 [rt, distance19] (Feature.relative ||| Feature.narrow) none .none ++
  access "ldr" 0x58000000 [rt, distance19] Feature.relative none .none ++
  access "ldrsw" 0x98000000 [rt, distance19] Feature.relative none .none

/-- All built-in encodings. -/
def specs : List Spec :=
  addresses ++ arithmeticImmediate ++ logicalImmediate ++ wideMoves ++ branches ++ system ++
    shiftedRegister ++ dataProcessing ++ unsignedOffset ++ signedOffset ++ pairs ++ literals

end A64Disassembler.Catalogue
