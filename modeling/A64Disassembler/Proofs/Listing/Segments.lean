import A64Disassembler.Listing.Line
import A64Disassembler.Proofs.Decode.Total

/-!
# The lines of a listing divide its data

A listing goes on in three ways: it folds a run of zeroes, it decodes an instruction, or it shows
bytes that do not decode. Each way takes at least one byte and no more than are left, and moves the
session on by as many bytes. So the lines divide the data into consecutive segments, the addresses
of the lines are those of the segments, and the listing ends behind the data.
-/

namespace A64Disassembler

/-- What the symbols of a markup promise: they are given for addresses on their right side. -/
structure Markup.IsLawful (m : Markup) : Prop where
  symbolAt_le : ∀ {a : Address} {s : Symbol}, m.symbolAt a = some s → s.address ≤ a
  lt_symbolAfter : ∀ {a : Address} {s : Symbol}, m.symbolAfter a = some s → a < s.address

namespace Session

variable {options : Options} {address : Address}

/-- A session can skip bytes within the address space. -/
theorem skip_start {count : Nat} (hroom : address.toNat + count < sizeLimit) :
    (start options address).skip count = .ok (start options (address + BitVec.ofNat 64 count)) :=
  bind_eq_ok.mpr ⟨_, Address.advance_eq_ok.mpr ⟨hroom, rfl⟩, rfl⟩

/-- A session moves past an instruction that it decodes within the address space. -/
theorem decode_start {bytes : List UInt8} {i : Insn} (hroom : address.toNat + i.length < sizeLimit)
    (h : (Decoder.builtin options).decode address bytes = .ok (.ok i)) :
    (start options address).decode bytes =
      .ok (.ok (i, start options (address + BitVec.ofNat 64 i.length))) :=
  bind_eq_ok.mpr ⟨_, h, bind_eq_ok.mpr ⟨_, Address.advance_eq_ok.mpr ⟨hroom, rfl⟩, rfl⟩⟩

/-- A session stays where it is if nothing is decoded. -/
theorem decode_start_of_error {bytes : List UInt8} {e : DecodeError}
    (h : (Decoder.builtin options).decode address bytes = .ok (.error e)) :
    (start options address).decode bytes = .ok (.error e) :=
  bind_eq_ok.mpr ⟨_, h, rfl⟩

end Session

namespace Listing

/-- Whether a body is right about the bytes of its segment: folded bytes are zero, an instruction is
what its four bytes decode to, and undecoded bytes are a word without a meaning or the rest of the
data. -/
def Body.IsSound (d : Decoder) (address : Address) (bytes : List UInt8) (isLast : Prop) :
    Body → Prop
  | folded => ∀ byte ∈ bytes, byte = 0
  | insn i => bytes.length = insnSize ∧ d.decode address bytes = .ok (.ok i)
  | undecoded =>
    (bytes.length = insnSize ∧ d.decode address bytes = .ok (.error (.failed insnSize))) ∨
      (bytes.length < insnSize ∧ isLast)

variable {m : Markup} {options : Options} {address : Address} {data : List UInt8}

/-- Lines that divide the data at an address into segments, one after the other. -/
inductive Divides (m : Markup) (options : Options) : Address → List UInt8 → List Line → Prop
  /-- No lines are needed where there are no data. -/
  | nil (address : Address) : Divides m options address [] []
  /-- The first line is the one that the listing goes on with, and the other lines divide the data
  after its bytes. -/
  | cons {l : Line} {rest : List UInt8} {lines : List Line} (hbytes : l.bytes ≠ [])
    (hstep : nextBody m (.start options l.address) (l.bytes ++ rest) =
      .ok (l.body, l.bytes.length, .start options (l.address + BitVec.ofNat 64 l.bytes.length)))
    (hbody : l.body.IsSound (.builtin options) l.address l.bytes (rest = []))
    (hrest : Divides m options (l.address + BitVec.ofNat 64 l.bytes.length) rest lines) :
    Divides m options l.address (l.bytes ++ rest) (l :: lines)

namespace Divides

variable {lines : List Line}

/-- The segments make up the data. -/
theorem flatMap_bytes (h : Divides m options address data lines) :
    lines.flatMap Line.bytes = data := by
  induction h with
  | nil => rfl
  | cons _ _ _ _ ih => rw [List.flatMap_cons, ih]

/-- The segments have the bytes of the data at their addresses, if the data end within the address
space. -/
theorem flatMap_zipIdx (h : Divides m options address data lines)
    (hroom : address.toNat + data.length < sizeLimit) :
    lines.flatMap (fun l => l.bytes.zipIdx l.address.toNat) = data.zipIdx address.toNat := by
  induction h with
  | nil => rfl
  | @cons l rest lines _ _ _ _ ih =>
    rw [List.length_append] at hroom
    have hnext : (l.address + BitVec.ofNat 64 l.bytes.length).toNat =
        l.address.toNat + l.bytes.length := Address.toNat_add (by omega)
    rw [List.flatMap_cons, ih (by omega), hnext, List.zipIdx_append]

/-- There are no more data exactly if there are no more lines. -/
theorem eq_nil_iff (h : Divides m options address data lines) : data = [] ↔ lines = [] := by
  cases h with
  | nil => simp
  | cons hbytes _ _ _ => simp [hbytes]

/-- The first line is at the address of the data. -/
theorem address_of_cons {l : Line} (h : Divides m options address data (l :: lines)) :
    l.address = address := by
  cases h with
  | cons => rfl

/-- The lines from one of them on divide the data behind the segments before it, which lie as far
behind the start as those segments are long. -/
theorem exists_suffix {before after : List Line}
    (h : Divides m options address data (before ++ after)) :
    ∃ here rest, here = address + BitVec.ofNat 64 (before.flatMap Line.bytes).length ∧
      data = before.flatMap Line.bytes ++ rest ∧ Divides m options here rest after := by
  induction before generalizing address data with
  | nil => exact ⟨address, data, by simp, rfl, h⟩
  | cons l before ih =>
    cases h with
    | cons _ _ _ hrest =>
      obtain ⟨here, rest, rfl, rfl, hafter⟩ := ih hrest
      refine ⟨_, rest, ?_, ?_, hafter⟩
      · rw [List.flatMap_cons, List.length_append, BitVec.ofNat_add, BitVec.add_assoc]
      · rw [List.flatMap_cons, List.append_assoc]

/-- A line shows a segment that is not empty, its body is right about it, and its address is that of
the segment, if the data end within the address space. -/
theorem line_of_split {before after : List Line} {l : Line}
    (h : Divides m options address data lines) (hroom : address.toNat + data.length < sizeLimit)
    (hlines : lines = before ++ l :: after) :
    l.bytes ≠ [] ∧ l.body.IsSound (.builtin options) l.address l.bytes (after = []) ∧
      l.address.toNat = address.toNat + (before.flatMap Line.bytes).length := by
  subst hlines
  obtain ⟨here, rest, hhere, rfl, hsuffix⟩ := h.exists_suffix
  rw [List.length_append] at hroom
  cases hsuffix with
  | cons hbytes _ hbody hrest =>
    rw [hrest.eq_nil_iff] at hbody
    exact ⟨hbytes, hbody, hhere ▸ Address.toNat_add (by omega)⟩

/-- The lines are in ascending order of their addresses. -/
theorem pairwise_address (h : Divides m options address data lines)
    (hroom : address.toNat + data.length < sizeLimit) :
    lines.Pairwise fun k l => k.address < l.address := by
  induction h with
  | nil => exact .nil
  | @cons l rest lines hbytes _ _ hrest ih =>
    have hpos := List.length_pos_iff.mpr hbytes
    rw [List.length_append] at hroom
    have hnext : (l.address + BitVec.ofNat 64 l.bytes.length).toNat =
        l.address.toNat + l.bytes.length := Address.toNat_add (by omega)
    have hroom' : (l.address + BitVec.ofNat 64 l.bytes.length).toNat + rest.length < sizeLimit := by
      omega
    refine .cons (fun l' hl' => ?_) (ih hroom')
    obtain ⟨before, after, hlines⟩ := List.append_of_mem hl'
    obtain ⟨-, -, haddress⟩ := hrest.line_of_split hroom' hlines
    exact BitVec.lt_def.mpr (by omega)

end Divides

/-- The length of the run of zeroes to fold at the start of the data, if the next symbol lies
`toSymbol` bytes further on. -/
def foldLength (toSymbol : Option Nat) (data : List UInt8) : Option Nat :=
  let zeroes := (data.takeWhile (· == 0)).length
  let run := min (toSymbol.getD zeroes) zeroes
  if (run ≠ 0 ∧ (toSymbol = some run ∨ (data.drop run).isEmpty)) ∨ 2 * foldSize - 1 ≤ run then
    if run - run % foldSize = 0 then none else some (run - run % foldSize)
  else none

/-- A folded run is made of whole words of zeroes and does not go past the next symbol. -/
theorem of_foldLength_eq_some {toSymbol : Option Nat} {data : List UInt8} {count : Nat}
    (h : foldLength toSymbol data = some count) :
    0 < count ∧ count ≤ (data.takeWhile (· == 0)).length ∧ count % foldSize = 0 ∧
      ∀ distance, toSymbol = some distance → count ≤ distance := by
  unfold foldLength at h
  dsimp only at h
  split_ifs at h with hfold hwords
  obtain rfl := Option.some.inj h
  generalize (data.takeWhile (· == 0)).length = zeroes at *
  have hwhole := Nat.mod_add_div (min (toSymbol.getD zeroes) zeroes) foldSize
  refine ⟨Nat.pos_of_ne_zero hwords, ?_, ?_, ?_⟩
  · omega
  · rw [← hwhole, Nat.add_mul_mod_self_left, Nat.mod_mod, Nat.add_sub_cancel_left]
    exact Nat.mul_mod_right _ _
  · rintro distance rfl
    rw [Option.getD_some] at *
    omega

/-- With lawful symbols there is always an answer to how much is folded. -/
theorem foldedZeroes_eq (hm : m.IsLawful) (options : Options) (address : Address)
    (data : List UInt8) :
    foldedZeroes m options address data =
      .ok (if options.decodeZeroes ∨ data.take foldSize ≠ List.replicate foldSize 0 then none
        else foldLength ((m.symbolAfter address).map fun s => (s.address - address).toNat) data) := by
  unfold foldedZeroes foldLength
  split
  · rfl
  · cases hs : m.symbolAfter address with
    | none => exact (apply_ite Except.ok _ _ _).symm
    | some s =>
      have hdistance : s.address.distanceFrom address = .ok (s.address - address) :=
        Address.distanceFrom_eq_ok.mpr ⟨BitVec.le_of_lt (hm.lt_symbolAfter hs), rfl⟩
      simp only [hdistance]
      exact (apply_ite Except.ok _ _ _).symm

/-- Whether the listing goes on with a body that takes some of the data and is right about them, and
moves the session on past them. -/
structure IsStep (m : Markup) (options : Options) (address : Address) (data : List UInt8)
    (body : Body) (count : Nat) : Prop where
  nextBody_eq : nextBody m (.start options address) data =
    .ok (body, count, .start options (address + BitVec.ofNat 64 count))
  pos : 0 < count
  le_length : count ≤ data.length
  isSound : body.IsSound (.builtin options) address (data.take count) (data.drop count = [])

/-- A folded run is a line of zeroes. -/
theorem isStep_folded {count : Nat} (hroom : address.toNat + data.length < sizeLimit)
    (hfold : foldedZeroes m options address data = .ok (some count)) (hpos : 0 < count)
    (hcount : count ≤ (data.takeWhile (· == 0)).length) :
    IsStep m options address data .folded count := by
  have hlength : (data.takeWhile (· == 0)).length ≤ data.length :=
    (List.takeWhile_prefix _).length_le
  refine ⟨?_, hpos, by omega, fun byte hbyte => ?_⟩
  · exact bind_eq_ok.mpr ⟨_, hfold, bind_eq_ok.mpr ⟨_, Session.skip_start (by omega), rfl⟩⟩
  · have htaken : data.take count <+: data.takeWhile (· == 0) :=
      List.prefix_of_prefix_length_le (List.take_prefix _ _) (List.takeWhile_prefix _)
        (Nat.le_trans (List.length_take_le _ _) hcount)
    exact beq_iff_eq.mp (List.all_eq_true.mp List.all_takeWhile byte (htaken.subset hbyte))

/-- A rest that is too short for an instruction is a line. -/
theorem isStep_rest (hroom : address.toNat + data.length < sizeLimit) (hdata : data ≠ [])
    (hfold : foldedZeroes m options address data = .ok none) (hshort : data.length < insnSize) :
    IsStep m options address data .undecoded data.length := by
  have htake : data.take insnSize = data := List.take_of_length_le (Nat.le_of_lt hshort)
  have hdecode := Session.decode_start_of_error
    (Decoder.decode_of_short (.builtin options) address hshort)
  rw [← htake] at hdecode
  refine ⟨?_, List.length_pos_iff.mpr hdata, Nat.le_refl _, .inr ⟨?_, List.drop_length⟩⟩
  · refine bind_eq_ok.mpr ⟨_, hfold, bind_eq_ok.mpr ⟨_, hdecode, ?_⟩⟩
    exact bind_eq_ok.mpr ⟨_, Session.skip_start hroom, rfl⟩
  · rw [List.take_length]
    exact hshort

/-- A word is a line, whether it decodes or not. -/
theorem exists_isStep_word (hroom : address.toNat + data.length < sizeLimit)
    (hfold : foldedZeroes m options address data = .ok none) (hlong : insnSize ≤ data.length) :
    ∃ body, IsStep m options address data body insnSize := by
  have hsize : (data.take insnSize).length = insnSize := List.length_take_of_le hlong
  rcases Decoder.decode_builtin_word options address hsize.ge with hfailed | ⟨i, hi, hlength⟩
  · refine ⟨.undecoded, ?_, by decide, hlong, .inl ⟨hsize, hfailed⟩⟩
    refine bind_eq_ok.mpr ⟨_, hfold, bind_eq_ok.mpr
      ⟨_, Session.decode_start_of_error hfailed, ?_⟩⟩
    exact bind_eq_ok.mpr ⟨_, Session.skip_start (by omega), rfl⟩
  · refine ⟨.insn i, ?_, by decide, hlong, hsize, hi⟩
    have hdecode := Session.decode_start (by omega) hi
    rw [hlength] at hdecode
    refine bind_eq_ok.mpr ⟨_, hfold, bind_eq_ok.mpr ⟨_, hdecode, ?_⟩⟩
    rw [← hlength]
    rfl

/-- There is a next line as long as there are data. -/
theorem exists_isStep (hm : m.IsLawful) (options : Options)
    (hroom : address.toNat + data.length < sizeLimit) (hdata : data ≠ []) :
    ∃ body count, IsStep m options address data body count := by
  have hfold := foldedZeroes_eq hm options address data
  generalize hanswer : (if options.decodeZeroes ∨ data.take foldSize ≠ List.replicate foldSize 0
    then none else _) = answer at hfold
  cases answer with
  | some count =>
    split_ifs at hanswer
    obtain ⟨hpos, hcount, -⟩ := of_foldLength_eq_some hanswer
    exact ⟨.folded, count, isStep_folded hroom hfold hpos hcount⟩
  | none =>
    by_cases hshort : data.length < insnSize
    · exact ⟨.undecoded, data.length, isStep_rest hroom hdata hfold hshort⟩
    · obtain ⟨body, hbody⟩ := exists_isStep_word hroom hfold (Nat.le_of_not_lt hshort)
      exact ⟨body, insnSize, hbody⟩

/-- A listing goes on with a folded line only if so many zeroes are to be folded. -/
theorem foldedZeroes_of_nextBody {s next : Session} {count : Nat}
    (h : nextBody m s data = .ok (.folded, count, next)) :
    foldedZeroes m s.decoder.options s.address data = .ok (some count) := by
  obtain ⟨answer, hanswer, h⟩ := bind_eq_ok.mp h
  cases answer with
  | some n =>
    obtain ⟨skipped, -, h⟩ := bind_eq_ok.mp h
    cases h
    exact hanswer
  | none =>
    obtain ⟨decoded, -, h⟩ := bind_eq_ok.mp h
    match decoded, h with
    | .ok (i, after), h => cases h
    | .error (.more n), h | .error (.failed n), h =>
      obtain ⟨skipped, -, h⟩ := bind_eq_ok.mp h
      cases h

/-- Whether lines have the headers that are due before them. -/
def Headers.ArePlaced (m : Markup) : Headers → List Line → Prop
  | _, [] => True
  | h, l :: rest => l.header = (h.take m l.address).1 ∧ (h.take m l.address).2.ArePlaced m rest

/-- Enough fuel gives lines that divide the data, with the headers that are due, and moves the
session on past the data. -/
theorem exists_linesFrom (hm : m.IsLawful) (options : Options) {fuel : Nat} (h : Headers)
    (done : List Line) (hfuel : data.length ≤ fuel)
    (hroom : address.toNat + data.length < sizeLimit) :
    ∃ lines, linesFrom m fuel (.start options address) h data done =
        (done.reverse ++ lines, .ok (.start options (address + BitVec.ofNat 64 data.length))) ∧
      Divides m options address data lines ∧ h.ArePlaced m lines := by
  induction fuel generalizing address data h done with
  | zero =>
    obtain rfl : data = [] := List.length_eq_zero_iff.mp (Nat.le_zero.mp hfuel)
    exact ⟨[], by simp [linesFrom], .nil address, trivial⟩
  | succ fuel ih =>
    by_cases hdata : data = []
    · subst hdata
      exact ⟨[], by simp [linesFrom], .nil address, trivial⟩
    · obtain ⟨body, count, hbody, hpos, hcount, hsound⟩ := exists_isStep hm options hroom hdata
      have haddress : (address + BitVec.ofNat 64 count).toNat = address.toNat + count :=
        Address.toNat_add (by omega)
      have hrest : (data.drop count).length = data.length - count := List.length_drop
      let line : Line :=
        { header := (h.take m address).1, address, bytes := data.take count, body }
      have hroom' : (address + BitVec.ofNat 64 count).toNat + (data.drop count).length <
          sizeLimit := by omega
      obtain ⟨lines, hlines, hdivides, hplaced⟩ :=
        ih (h.take m address).2 (line :: done) (by omega) hroom'
      have hstop : address + BitVec.ofNat 64 count + BitVec.ofNat 64 (data.drop count).length =
          address + BitVec.ofNat 64 data.length := by
        rw [BitVec.add_assoc, ← BitVec.ofNat_add, hrest, Nat.add_sub_cancel' hcount]
      refine ⟨line :: lines, ?_, ?_, rfl, hplaced⟩
      · rw [linesFrom, if_neg (by simpa using hdata), hbody]
        rw [hstop] at hlines
        exact hlines.trans (by simp)
      · have htake : line.bytes.length = count := List.length_take_of_le hcount
        have hdata' : line.bytes ++ data.drop count = data := List.take_append_drop count data
        have hline : Divides m options line.address (line.bytes ++ data.drop count)
            (line :: lines) := by
          refine .cons (List.ne_nil_of_length_pos (htake ▸ hpos)) ?_ hsound ?_
          · rw [hdata', htake]
            exact hbody
          · rw [htake]
            exact hdivides
        rwa [hdata'] at hline

/-- With lawful symbols a listing has headers to start with: the symbol after the start is the next
one, and a listing that is not a continuation has a name for its first line. -/
theorem Headers.exists_start (hm : m.IsLawful) (sectionName : String) (address : Address)
    (isFirst : Bool) :
    ∃ h, Headers.start m sectionName address isFirst = .ok h ∧ h.next = m.symbolAfter address ∧
      (isFirst = true → h.first ≠ none) := by
  have hleading : ∃ first, Headers.start.leading sectionName address isFirst
      (m.symbolAfter address) = .ok first ∧ (isFirst = true → first ≠ none) := by
    cases isFirst with
    | false => exact ⟨none, rfl, by simp⟩
    | true =>
      cases hs : m.symbolAfter address with
      | none => exact ⟨some (sectionName, 0), rfl, by simp⟩
      | some s =>
        have hdistance : s.address.distanceFrom address = .ok (s.address - address) :=
          Address.distanceFrom_eq_ok.mpr ⟨BitVec.le_of_lt (hm.lt_symbolAfter hs), rfl⟩
        exact ⟨_, bind_eq_ok.mpr ⟨_, hdistance, rfl⟩, by simp⟩
  obtain ⟨first, hfirst, hne⟩ := hleading
  unfold Headers.start
  cases m.symbolAt address with
  | none => exact ⟨_, bind_eq_ok.mpr ⟨_, hfirst, rfl⟩, rfl, hne⟩
  | some s =>
    dsimp only
    split_ifs
    · exact ⟨_, rfl, rfl, by simp⟩
    · exact ⟨_, bind_eq_ok.mpr ⟨_, hfirst, rfl⟩, rfl, hne⟩

/-- The listing of data within the address space ends behind the data. Its lines divide the data
and have the headers that are due. -/
theorem exists_lines_of_start (hm : m.IsLawful) (options : Options) {sectionName : String}
    {isFirst : Bool} {h : Headers} (hstart : Headers.start m sectionName address isFirst = .ok h)
    (hroom : address.toNat + data.length < sizeLimit) :
    ∃ ls, lines m (.start options address) sectionName data isFirst =
        (ls, .ok (.start options (address + BitVec.ofNat 64 data.length))) ∧
      Divides m options address data ls ∧ h.ArePlaced m ls := by
  obtain ⟨ls, hls, hdivides, hplaced⟩ :=
    exists_linesFrom hm options h [] (Nat.le_refl data.length) hroom
  refine ⟨ls, ?_, hdivides, hplaced⟩
  have haddress : (Session.start options address).address = address := rfl
  rw [lines, haddress, hstart]
  exact hls

/-- The lines of a listing divide its data, the symbol after the start is the next one to be named,
and a listing that is not a continuation has a name for its first line. -/
theorem exists_lines (hm : m.IsLawful) (options : Options) (sectionName : String) (isFirst : Bool)
    (hroom : address.toNat + data.length < sizeLimit) :
    ∃ (h : Headers) (ls : List Line),
      h.next = m.symbolAfter address ∧ (isFirst = true → h.first ≠ none) ∧
      lines m (.start options address) sectionName data isFirst =
        (ls, .ok (.start options (address + BitVec.ofNat 64 data.length))) ∧
      Divides m options address data ls ∧ h.ArePlaced m ls := by
  obtain ⟨h, hstart, hnext, hfirst⟩ := Headers.exists_start hm sectionName address isFirst
  obtain ⟨ls, hls⟩ := exists_lines_of_start hm options hstart hroom
  exact ⟨h, ls, hnext, hfirst, hls⟩

end Listing

end A64Disassembler
