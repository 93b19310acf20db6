import A64Disassembler.Proofs.Decode.Total
import A64Disassembler.Session

/-!
# A session is exact and keeps nothing of earlier decodings

Decoding into an instruction clears everything in it before anything is filled in, and nothing is
cleared before it is known that the bytes decode. So what is decoded does not depend on what the
instruction was before, and a decoding that fails changes nothing. The address of a session is the
start, moved on by the lengths of all decoded instructions and by all skips. As long as that sum
stays inside the address space, every request is served. The last word of the address space is one
that a decoder decodes and a session does not: there is no address behind it to go on at.
-/

namespace A64Disassembler

/-- Operands are appended to those of an instruction, whatever its other parts are. -/
theorem Spec.pushOperands_eq (s : Spec) (word : Word) (i : Insn) (args : List Arg) :
    s.pushOperands word i args =
      (do return { i with operands := ← s.operandsFrom word i.operands args }) := by
  induction args generalizing i with
  | nil => rfl
  | cons a rest ih => simp only [pushOperands, operandsFrom, ih, bind_assoc]

namespace Decoder

variable {d : Decoder} {address : Address} {bytes : List UInt8}

/-- Filling in leaves nothing of the instruction that was there before. -/
theorem fillIn_eq (d : Decoder) (s : Spec) (position : Nat) (address : Address) (word : Word)
    (i : Insn) : d.fillIn s position address word i = d.insnOf s position address word := by
  simp only [fillIn, insnOf, Spec.pushOperands_eq, Spec.operands, bind_assoc, pure_bind]
  refine bind_congr fun made => bind_congr fun fixed => ?_
  cases d.options.showAliases <;> rfl

/-- Decoding into an instruction replaces it by the decoded one, or leaves it as it is. -/
theorem decodeInto_eq (d : Decoder) (address : Address) (bytes : List UInt8) (i : Insn) :
    d.decodeInto address bytes i = (do
      match ← d.decode address bytes with
      | .error e => return (.error e, i)
      | .ok decoded => return (.ok insnSize, decoded)) := by
  unfold decodeInto decode
  rw [bind_assoc]
  refine bind_congr fun read => ?_
  obtain ⟨answer, next⟩ := read
  cases answer with
  | error e => rfl
  | ok word =>
    dsimp only
    cases d.table.find? word with
    | none => rfl
    | some position =>
      dsimp only
      cases d.table.spec? position with
      | none => rfl
      | some s => simp only [fillIn_eq, bind_assoc, pure_bind]

/-- Every decoded instruction takes up one word. -/
theorem length_of_decode {i : Insn} (h : d.decode address bytes = .ok (.ok i)) :
    i.length = insnSize := by
  obtain ⟨_, _, _, -, -, hinsn⟩ := exists_spec_of_decode h
  exact (place_of_insnOf hinsn).2

/-- The built-in encodings have an answer to any bytes. -/
theorem exists_decode_builtin (options : Options) (address : Address) (bytes : List UInt8) :
    ∃ result, (builtin options).decode address bytes = .ok result := by
  by_cases hsize : insnSize ≤ bytes.length
  · rcases decode_builtin_word options address hsize with hfailed | ⟨i, hi, -⟩
    · exact ⟨_, hfailed⟩
    · exact ⟨_, hi⟩
  · exact ⟨_, decode_of_short _ address (Nat.lt_of_not_le hsize)⟩

end Decoder

namespace Session

namespace Request

/-- How far a request moved a session on, by the answer to it. -/
def distance : Request → Answer → Nat
  | decode _, some (.ok length) => length
  | skip count, _ => count
  | _, _ => 0

/-- How far a request is going to move a session on from an address, as far as the address space
goes. -/
def reach (d : Decoder) (address : Address) : Request → Nat
  | decode bytes =>
    match d.decode address bytes with
    | .ok (.ok i) => i.length
    | _ => 0
  | skip count => count
  | clear => 0

end Request

/-- Whether a sum stays inside the address space while the distances of all requests are added to
it. -/
def StaysInside (d : Decoder) : (sum : Nat) → List Request → Prop
  | _, [] => True
  | sum, request :: rest =>
    sum + request.reach d (BitVec.ofNat 64 sum) < sizeLimit ∧
      StaysInside d (sum + request.reach d (BitVec.ofNat 64 sum)) rest

variable {s next : Session}

/-- A session can skip as many bytes as the address space has left. -/
theorem skip_eq_ok {count : Nat} :
    s.skip count = .ok next ↔ s.address.toNat + count < sizeLimit ∧
      next = { s with address := s.address + BitVec.ofNat 64 count } := by
  rw [skip, bind_eq_ok]
  constructor
  · rintro ⟨address, haddress, h⟩
    cases h
    obtain ⟨hroom, rfl⟩ := Address.advance_eq_ok.mp haddress
    exact ⟨hroom, rfl⟩
  · rintro ⟨hroom, rfl⟩
    exact ⟨_, Address.advance_eq_ok.mpr ⟨hroom, rfl⟩, rfl⟩

namespace State

variable {st st' : State} {request : Request} {answer : Answer}

/-- A state serves a decoding as its decoder does, and then holds what was decoded. -/
theorem serve_decode_eq (st : State) (bytes : List UInt8) :
    st.serve (.decode bytes) = (do
      match ← st.session.decoder.decode st.session.address bytes with
      | .error e => return (some (.error e), st)
      | .ok insn =>
        return (some (.ok insn.length), { session := ← st.session.skip insn.length, insn })) := by
  rw [serve, Decoder.decodeInto_eq, bind_assoc]
  cases h : st.session.decoder.decode st.session.address bytes with
  | error f => rfl
  | ok result =>
    cases result with
    | error e => rfl
    | ok insn =>
      simp only [ok_bind, Decoder.length_of_decode h]
      rfl

/-- A served request moves the session on by its distance, and changes nothing else in it. -/
theorem session_of_serve (h : st.serve request = .ok (answer, st')) :
    st'.session.decoder = st.session.decoder ∧
      st'.session.address.toNat = st.session.address.toNat + request.distance answer := by
  cases request with
  | decode bytes =>
    rw [serve_decode_eq] at h
    obtain ⟨result, -, h⟩ := bind_eq_ok.mp h
    cases result with
    | error e =>
      cases h
      exact ⟨rfl, rfl⟩
    | ok insn =>
      obtain ⟨next, hnext, h⟩ := bind_eq_ok.mp h
      cases h
      obtain ⟨hroom, rfl⟩ := skip_eq_ok.mp hnext
      exact ⟨rfl, Address.toNat_add hroom⟩
  | skip count =>
    obtain ⟨next, hnext, h⟩ := bind_eq_ok.mp h
    cases h
    obtain ⟨hroom, rfl⟩ := skip_eq_ok.mp hnext
    exact ⟨rfl, Address.toNat_add hroom⟩
  | clear =>
    cases h
    exact ⟨rfl, rfl⟩

/-- A request is served exactly if its reach stays inside the address space. Then it moves the
session on as far. -/
theorem exists_serve_iff {options : Options} (hdecoder : st.session.decoder = .builtin options)
    (request : Request) :
    (∃ answer st', st.serve request = .ok (answer, st')) ↔
      st.session.address.toNat + request.reach (.builtin options) st.session.address <
        sizeLimit := by
  have hhere : st.session.address.toNat < sizeLimit := st.session.address.isLt
  cases request with
  | decode bytes =>
    obtain ⟨result, hresult⟩ := Decoder.exists_decode_builtin options st.session.address bytes
    rw [serve_decode_eq, hdecoder, hresult, Request.reach, hresult, ok_bind]
    cases result with
    | error e => exact iff_of_true ⟨_, _, rfl⟩ hhere
    | ok insn =>
      constructor
      · rintro ⟨answer, st', h⟩
        obtain ⟨next, hnext, -⟩ := bind_eq_ok.mp h
        exact (skip_eq_ok.mp hnext).1
      · exact fun hroom => ⟨_, _, bind_eq_ok.mpr ⟨_, skip_eq_ok.mpr ⟨hroom, rfl⟩, rfl⟩⟩
  | skip count =>
    constructor
    · rintro ⟨answer, st', h⟩
      obtain ⟨next, hnext, -⟩ := bind_eq_ok.mp h
      exact (skip_eq_ok.mp hnext).1
    · exact fun hroom => ⟨_, _, bind_eq_ok.mpr ⟨_, skip_eq_ok.mpr ⟨hroom, rfl⟩, rfl⟩⟩
  | clear => exact iff_of_true ⟨_, _, rfl⟩ hhere

/-- The distance of a served request is its reach. -/
theorem distance_of_serve (h : st.serve request = .ok (answer, st')) :
    request.distance answer = request.reach st.session.decoder st.session.address := by
  cases request with
  | decode bytes =>
    rw [serve_decode_eq] at h
    obtain ⟨result, hresult, h⟩ := bind_eq_ok.mp h
    rw [Request.reach, hresult]
    cases result with
    | error e =>
      cases h
      rfl
    | ok insn =>
      obtain ⟨next, -, h⟩ := bind_eq_ok.mp h
      cases h
      rfl
  | skip count => cases answer <;> rfl
  | clear => cases answer <;> rfl

/-- Served requests move the session on by their distances. -/
theorem session_of_run {requests : List Request} {answers : List Answer}
    (h : st.run requests = .ok (answers, st')) :
    st'.session.decoder = st.session.decoder ∧
      st'.session.address.toNat =
        st.session.address.toNat + (List.zipWith Request.distance requests answers).sum := by
  induction requests generalizing st answers with
  | nil =>
    cases h
    exact ⟨rfl, rfl⟩
  | cons request rest ih =>
    obtain ⟨⟨answer, here⟩, hserve, h⟩ := bind_eq_ok.mp h
    obtain ⟨⟨later, last⟩, hrun, h⟩ := bind_eq_ok.mp h
    cases h
    obtain ⟨hdecoder, haddress⟩ := session_of_serve hserve
    obtain ⟨hdecoder', haddress'⟩ := ih hrun
    rw [List.zipWith_cons_cons, List.sum_cons, ← Nat.add_assoc, ← haddress]
    exact ⟨hdecoder'.trans hdecoder, haddress'⟩

/-- Requests are served exactly if their sum stays inside the address space. -/
theorem exists_run_iff {options : Options} (hdecoder : st.session.decoder = .builtin options)
    (requests : List Request) :
    (∃ answers st', st.run requests = .ok (answers, st')) ↔
      StaysInside (.builtin options) st.session.address.toNat requests := by
  induction requests generalizing st with
  | nil => exact iff_of_true ⟨_, _, rfl⟩ trivial
  | cons request rest ih =>
    have hhere : BitVec.ofNat 64 st.session.address.toNat = st.session.address :=
      by rw [BitVec.ofNat_toNat, BitVec.setWidth_eq]
    rw [StaysInside, hhere, ← exists_serve_iff hdecoder]
    constructor
    · rintro ⟨answers, last, h⟩
      obtain ⟨⟨answer, next⟩, hserve, h⟩ := bind_eq_ok.mp h
      obtain ⟨⟨later, last⟩, hrun, h⟩ := bind_eq_ok.mp h
      obtain ⟨hnext, haddress⟩ := session_of_serve hserve
      rw [distance_of_serve hserve, hdecoder] at haddress
      rw [← haddress, ← ih (hnext.trans hdecoder)]
      exact ⟨⟨_, _, hserve⟩, _, _, hrun⟩
    · rintro ⟨⟨answer, next, hserve⟩, hrest⟩
      obtain ⟨hnext, haddress⟩ := session_of_serve hserve
      rw [distance_of_serve hserve, hdecoder] at haddress
      rw [← haddress, ← ih (hnext.trans hdecoder)] at hrest
      obtain ⟨later, last, hrun⟩ := hrest
      exact ⟨_, _, bind_eq_ok.mpr ⟨_, hserve, bind_eq_ok.mpr ⟨_, hrun, rfl⟩⟩⟩

/-- A decoding does not depend on the instruction that was there before, and one that fails changes
nothing. -/
theorem serve_decode_eq_fresh (st : State) (i : Insn) (bytes : List UInt8) :
    st.serve (.decode bytes) = (do
      let (answer, fresh) ← (State.mk st.session i).serve (.decode bytes)
      match answer with
      | some (.ok _) => return (answer, fresh)
      | _ => return (answer, st)) := by
  rw [serve_decode_eq, serve_decode_eq, bind_assoc]
  refine bind_congr fun result => ?_
  cases result with
  | error e => rfl
  | ok insn => simp only [bind_assoc, pure_bind]

/-- A session is exact, and failures leave no trace. Requests are served in any order exactly as
long as the start, the lengths of the instructions in them and the skips sum up to an address. The
session is then at that sum: the start, the lengths of all decoded instructions and all skips.
Whatever was decoded before, the next decoding is answered like that of a new session at the same
address with a blank instruction, and both hold the same instruction after it; if it fails, address
and instruction are those before it. -/
theorem run_leaves_no_trace (options : Options) (start : Address) (first : Insn)
    (requests : List Request) :
    let st : State := { session := .start options start, insn := first }
    ((∃ answers final, st.run requests = .ok (answers, final)) ↔
      StaysInside (.builtin options) start.toNat requests) ∧
    ∀ answers final, st.run requests = .ok (answers, final) →
      final.session.decoder = .builtin options ∧
      final.session.address.toNat =
        start.toNat + (List.zipWith Request.distance requests answers).sum ∧
      ∀ bytes, final.serve (.decode bytes) = (do
        let (answer, fresh) ←
          (State.mk (.start options final.session.address) .blank).serve (.decode bytes)
        match answer with
        | some (.ok _) => return (answer, fresh)
        | _ => return (answer, final)) := by
  intro st
  refine ⟨exists_run_iff rfl requests, fun answers final hrun => ?_⟩
  obtain ⟨hdecoder, haddress⟩ := session_of_run hrun
  have hsession : Session.start options final.session.address = final.session := by
    rw [Session.start, ← show final.session.decoder = .builtin options from hdecoder]
  refine ⟨hdecoder, haddress, fun bytes => ?_⟩
  rw [hsession]
  exact serve_decode_eq_fresh final .blank bytes

/-- A word, a byte that is not enough, and a skip are served, and leave nothing behind but the
address. -/
theorem run_of_word_and_rest :
    let st : State := { session := .start {} 0x1000, insn := .blank }
    let requests : List Request := [.decode [0x1f, 0x20, 0x03, 0xd5], .decode [0x01], .skip 4]
    ∃ answers final, st.run requests = .ok (answers, final) ∧
      answers = [some (.ok 4), some (.error (.more 4)), none] ∧
      final.session.address.toNat = 0x1000 + 4 + 4 ∧
      ∀ bytes, final.serve (.decode bytes) = (do
        let (answer, fresh) ←
          (State.mk (.start {} final.session.address) .blank).serve (.decode bytes)
        match answer with
        | some (.ok _) => return (answer, fresh)
        | _ => return (answer, final)) := by
  intro st requests
  have hscan : Table.scan? Catalogue.specs 0xd503201f = some 59 := by decide +kernel
  have hs : Catalogue.specs[59]? = some (Spec.ofArgs "nop" 0xd503201f [] 0) := by
    decide +kernel
  obtain ⟨i, hdecode, hlength⟩ :
      ∃ i, (Decoder.builtin {}).decode 0x1000 [0x1f, 0x20, 0x03, 0xd5] = .ok (.ok i) ∧
        i.length = insnSize :=
    ⟨_, Decoder.decode_builtin_of_scan rfl hscan hs rfl, rfl⟩
  have hword : st.serve (.decode [0x1f, 0x20, 0x03, 0xd5]) =
      .ok (some (.ok insnSize), { session := .start {} 0x1004, insn := i }) := by
    rw [serve_decode_eq]
    refine bind_eq_ok.mpr ⟨.ok i, hdecode, ?_⟩
    simp only [hlength]
    rfl
  have hrun : st.run requests = .ok ([some (.ok 4), some (.error (.more 4)), none],
      { session := .start {} 0x1008, insn := i }) :=
    bind_eq_ok.mpr ⟨_, hword, rfl⟩
  obtain ⟨-, haddress, hnext⟩ := (run_leaves_no_trace {} 0x1000 .blank requests).2 _ _ hrun
  exact ⟨_, _, hrun, rfl, haddress, hnext⟩

section End

variable {d : Decoder} {address : Address} {bytes : List UInt8} {before i : Insn} {length : Nat}

/-- What is decoded takes up one word, and its next address is the one behind that word. Behind the
last address comes the first one. -/
theorem nextAddress_of_decodeInto
    (h : d.decodeInto address bytes before = .ok (.ok length, i)) :
    d.decode address bytes = .ok (.ok i) ∧ length = insnSize ∧ i.length = insnSize ∧
      i.nextAddress = address + BitVec.ofNat 64 insnSize := by
  rw [Decoder.decodeInto_eq] at h
  obtain ⟨result, hdecode, h⟩ := bind_eq_ok.mp h
  cases result with
  | error e => cases h
  | ok decoded =>
    cases h
    obtain ⟨_, _, _, -, -, hinsn⟩ := Decoder.exists_spec_of_decode hdecode
    obtain ⟨haddress, hlength⟩ := Decoder.place_of_insnOf hinsn
    exact ⟨hdecode, rfl, hlength, by rw [Insn.nextAddress, haddress, hlength]⟩

/-- A session fails at an instruction that reaches the end of the address space. -/
theorem serve_decode_of_top (h : d.decode address bytes = .ok (.ok i))
    (htop : sizeLimit ≤ address.toNat + i.length) (other : Insn) :
    ({ session := { decoder := d, address }, insn := other } : State).serve (.decode bytes) =
      .error .overflow := by
  rw [serve_decode_eq]
  refine bind_eq_error.mpr (.inr ⟨_, h, bind_eq_error.mpr (.inl ?_)⟩)
  exact bind_eq_error.mpr (.inl (Address.advance_eq_error.mpr ⟨rfl, htop⟩))

/-- A session decodes what its decoder decodes, up to the end of the address space. If the word ends
before the last address, a session answers with the same length, holds the same instruction,
whatever it held before, and is at the next address of the instruction. Where the word ends at the
last address or goes on at the first one, the decoder decodes it as well, but the session has no
address to go on at and fails. -/
theorem serve_decode_of_decodeInto (h : d.decodeInto address bytes before = .ok (.ok length, i))
    (other : Insn) :
    let st : State := { session := { decoder := d, address }, insn := other }
    length = insnSize ∧ i.nextAddress = address + BitVec.ofNat 64 insnSize ∧
      (address.toNat + insnSize < sizeLimit → st.serve (.decode bytes) =
        .ok (some (.ok length),
          { session := { decoder := d, address := i.nextAddress }, insn := i })) ∧
      (sizeLimit ≤ address.toNat + insnSize → st.serve (.decode bytes) = .error .overflow) := by
  intro st
  obtain ⟨hdecode, rfl, hlength, hnext⟩ := nextAddress_of_decodeInto h
  refine ⟨rfl, hnext, fun hroom => ?_, fun htop => ?_⟩
  · rw [serve_decode_eq]
    refine bind_eq_ok.mpr ⟨_, hdecode, bind_eq_ok.mpr ⟨_, skip_eq_ok.mpr ⟨?_, rfl⟩, ?_⟩⟩
    · rwa [hlength]
    · rw [hlength, hnext]
      rfl
  · exact serve_decode_of_top hdecode (by rwa [hlength]) other

/-- A word without operands decodes everywhere. -/
theorem decodeInto_nop (address : Address) (before : Insn) :
    (Decoder.builtin {}).decodeInto address [0x1f, 0x20, 0x03, 0xd5] before =
      .ok (.ok insnSize,
        { opcode := some 59, raw := 0xd503201f, address, length := insnSize }) := by
  have hscan : Table.scan? Catalogue.specs 0xd503201f = some 59 := by decide +kernel
  have hs : Catalogue.specs[59]? = some (Spec.ofArgs "nop" 0xd503201f [] 0) := by
    decide +kernel
  rw [Decoder.decodeInto_eq, Decoder.decode_builtin_of_scan rfl hscan hs rfl]
  rfl

/-- The last but one word of the address space is decoded, and the session is at the last one. -/
theorem serve_decode_before_last_word :
    let st : State := { session := .start {} 0xfffffffffffffff8, insn := .blank }
    let i : Insn :=
      { opcode := some 59, raw := 0xd503201f, address := 0xfffffffffffffff8, length := 4 }
    (Decoder.builtin {}).decodeInto 0xfffffffffffffff8 [0x1f, 0x20, 0x03, 0xd5] .blank =
        .ok (.ok 4, i) ∧
      st.serve (.decode [0x1f, 0x20, 0x03, 0xd5]) =
        .ok (some (.ok 4), { session := .start {} 0xfffffffffffffffc, insn := i }) := by
  intro st i
  have hdecode := decodeInto_nop 0xfffffffffffffff8 .blank
  obtain ⟨-, -, hserve, -⟩ := serve_decode_of_decodeInto hdecode .blank
  exact ⟨hdecode, hserve (by decide)⟩

/-- The last word of the address space is decoded, and its next address is the first one. A session
at the word fails. -/
theorem serve_decode_fails_at_last_word :
    ∃ i, (Decoder.builtin {}).decodeInto 0xfffffffffffffffc [0x1f, 0x20, 0x03, 0xd5] .blank =
        .ok (.ok 4, i) ∧ i.nextAddress = 0 ∧
      (State.mk (.start {} 0xfffffffffffffffc) .blank).serve (.decode [0x1f, 0x20, 0x03, 0xd5]) =
        .error .overflow := by
  have hdecode := decodeInto_nop 0xfffffffffffffffc .blank
  refine ⟨_, hdecode, rfl, ?_⟩
  exact serve_decode_of_top (nextAddress_of_decodeInto hdecode).1 (by decide) .blank

end End

end State

end Session

end A64Disassembler
