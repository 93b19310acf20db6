import A64Disassembler.Decode.Reuse
import A64Disassembler.Effect.Analysis

/-!
# Decoding in sequence

A session is a decoder together with the address of the next instruction. Decoding and skipping
move the address on; a failed decoding leaves it where it is. The end of the address space is
never crossed.

A session may decode all of its instructions into one and the same place. Such a session is driven
by requests, which it serves one after the other.
-/

namespace A64Disassembler

/-- A decoder at an address. -/
structure Session where
  decoder : Decoder
  address : Address

namespace Session

/-- A session with the built-in encodings. -/
def start (options : Options) (address : Address) : Session :=
  ⟨Decoder.builtin options, address⟩

/-- Decodes the instruction at the current address and moves past it. -/
def decode (s : Session) (bytes : List UInt8) :
    Except Fault (Except DecodeError (Insn × Session)) := do
  match ← s.decoder.decode s.address bytes with
  | .error e => return .error e
  | .ok insn =>
    let next ← s.address.advance insn.length
    return .ok (insn, { s with address := next })

/-- Moves on by `count` bytes. -/
def skip (s : Session) (count : Nat) : Except Fault Session := do
  return { s with address := ← s.address.advance count }

/-- What a session is asked to do. -/
inductive Request
  /-- Decode the instruction at the start of `bytes`. -/
  | decode (bytes : List UInt8)
  /-- Move on by `count` bytes. -/
  | skip (count : Nat)
  /-- Clear the instruction. -/
  | clear
  deriving DecidableEq, Repr

/-- The answer to a request: the length of a decoded instruction or why there is none, and nothing
for requests that do not decode. -/
abbrev Answer := Option (Except DecodeError Nat)

/-- A session and the instruction that it decodes into. -/
structure State where
  session : Session
  insn : Insn

namespace State

/-- Serves a request. -/
def serve (st : State) : Request → Except Fault (Answer × State)
  | .decode bytes => do
    let (result, insn) ← st.session.decoder.decodeInto st.session.address bytes st.insn
    match result with
    | .error e => return (some (.error e), { st with insn })
    | .ok length => return (some (.ok length), { session := ← st.session.skip length, insn })
  | .skip count => do return (none, { st with session := ← st.session.skip count })
  | .clear => .ok (none, { st with insn := st.insn.clear })

/-- Serves requests one after the other. -/
def run (st : State) : List Request → Except Fault (List Answer × State)
  | [] => .ok ([], st)
  | request :: rest => do
    let (answer, st) ← st.serve request
    let (answers, st) ← st.run rest
    return (answer :: answers, st)

end State

end Session

end A64Disassembler
