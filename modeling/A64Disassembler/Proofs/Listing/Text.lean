import A64Disassembler.Listing.Printer
import A64Disassembler.Proofs.Effect.Analysis
import A64Disassembler.Proofs.Listing.Segments

/-!
# The text of a listing accounts for every byte

The text of a listing is made of the texts of its lines, each after that of its header. A folded
line shows nothing of its bytes; every other line shows its address and then its bytes as one
number, two digits for each byte. The text of an instruction and of its binding can always be made,
so that a listing never stops in the middle.
-/

namespace A64Disassembler

/-- The symbols of a list keep their promise. -/
theorem Markup.isLawful_ofSymbols (symbols : List Symbol) (mark : Style → String → String) :
    (ofSymbols symbols mark).IsLawful where
  symbolAt_le := le_of_symbolAt_ofSymbols
  lt_symbolAfter {a s} h := by
    have hfind : symbols.find? (fun s => a < s.address) = some s := h
    simpa using List.find?_some hfind

namespace Listing

/-- The hexadecimal digits of a byte. -/
def byteDigits (byte : UInt8) : List Char :=
  [Nat.digitChar (byte.toNat / 16), Nat.digitChar (byte.toNat % 16)]

/-- The digits of bytes that are one number in the given order. -/
def numberDigits (order : Endian) (bytes : List UInt8) : List Char :=
  match order with
  | .little => bytes.reverse.flatMap byteDigits
  | .big => bytes.flatMap byteDigits

/-- Whether a text shows an address and bytes before the rest of its line. -/
def Shows (order : Endian) (address : Nat) (bytes : List UInt8) (rest text : String) : Prop :=
  ∃ indent gap, text =
    Numeral.spaces indent ++ String.ofList (Nat.toDigits 16 address) ++ ":\t" ++
      String.ofList (numberDigits order bytes) ++ Numeral.spaces gap ++ "\t" ++ rest

/-- A byte is written as its two digits. -/
theorem hexByte_eq (byte : UInt8) : Numeral.hexByte byte = String.ofList (byteDigits byte) := by
  have hall : ∀ n : Fin 256, Numeral.padLeft '0' 2 (Numeral.hex n) =
      String.ofList [Nat.digitChar (n / 16), Nat.digitChar (n % 16)] := by
    decide +kernel
  exact hall ⟨byte.toNat, byte.toNat_lt⟩

/-- Bytes are written as their digits, one byte after the other. -/
theorem join_hexByte (bytes : List UInt8) :
    String.join (bytes.map Numeral.hexByte) = String.ofList (bytes.flatMap byteDigits) := by
  induction bytes with
  | nil => rfl
  | cons byte rest ih =>
    rw [List.map_cons, String.join_cons, ih, hexByte_eq, List.flatMap_cons, String.ofList_append]

/-- The address column and the raw column show the address and the bytes. -/
theorem shows_columns (order : Endian) (address : Address) (bytes : List UInt8) (rest : String) :
    Shows order address.toNat bytes rest
      (addressText address ++ rawText order bytes ++ "\t" ++ rest) := by
  have hraw : rawText order bytes = String.ofList (numberDigits order bytes) ++
      Numeral.spaces ((bytesPerLine - bytes.length) * 2 + 1) := by
    cases order with
    | little | big => rw [rawText, join_hexByte, numberDigits]
  refine ⟨(if 0x1000 ≤ address then 8 else 4) - (Numeral.hex address.toNat).length,
    (bytesPerLine - bytes.length) * 2 + 1, ?_⟩
  rw [hraw, ← String.append_assoc]
  rfl

/-- What the text of a line says about its bytes. -/
def Body.HasText (m : Markup) (d : Decoder) (address : Address) (bytes : List UInt8)
    (text : String) : Body → Prop
  | folded => text = "\t...\n"
  | insn i => ∃ name rest, d.mnemonic? i = some name ∧
      Shows d.options.endian address.toNat bytes (m.mark .mnemonic name ++ rest) text
  | undecoded => Shows d.options.endian address.toNat bytes "failed to decode\n" text

/-- The text of the header of a line. -/
def Line.headerText (l : Line) : String :=
  (l.header.map Header.text).getD ""

/-- The text of a line comes after that of its header. -/
theorem Line.output_eq (m : Markup) (d : Decoder) (l : Line) :
    l.output m d =
      { l.bodyOutput m d with text := l.headerText ++ (l.bodyOutput m d).text } := by
  unfold output headerText
  cases l.header with
  | none => simp
  | some h => rfl

/-- Everything that a line shows of an instruction can be made. -/
theorem exists_text_and_binding {m : Markup} (hm : m.IsLawful) {options : Options}
    {address : Address} {bytes : List UInt8} {i : Insn}
    (hdecode : (Decoder.builtin options).decode address bytes = .ok (.ok i)) :
    ∃ name rest b, (Decoder.builtin options).mnemonic? i = some name ∧
      (Decoder.builtin options).printer.insnText m i = .ok (m.mark .mnemonic name ++ rest) ∧
      (Decoder.builtin options).binding i = .ok b := by
  obtain ⟨s, hs, hspec, haccepts, position, hinsn⟩ :=
    Decoder.exists_spec_of_decode_builtin hdecode
  have hname := Decoder.mnemonic?_of_specOf? hspec
  obtain ⟨b, hb, -⟩ := Decoder.exists_bindingFor_of_insnOf hinsn hs haccepts
  obtain ⟨rest, htext⟩ := Decoder.exists_insnText_of_mnemonic? (fun _ _ => hm.symbolAt_le) hname
  exact ⟨s.name, rest, b, hname, htext, (Decoder.binding_of_specOf? hspec).trans hb⟩

/-- A line that is right about its bytes has a text that says so. -/
theorem Line.bodyOutput_of_isSound {m : Markup} (hm : m.IsLawful) {options : Options} {l : Line}
    {isLast : Prop} (h : l.body.IsSound (.builtin options) l.address l.bytes isLast) :
    (l.bodyOutput m (.builtin options)).fault = none ∧
      l.body.HasText m (.builtin options) l.address l.bytes
        (l.bodyOutput m (.builtin options)).text := by
  have hshows := shows_columns (Decoder.builtin options).options.endian l.address l.bytes
  unfold bodyOutput
  cases hbody : l.body with
  | folded => exact ⟨rfl, rfl⟩
  | undecoded =>
    have htab : "\tfailed to decode\n" = "\t" ++ "failed to decode\n" := by decide
    have hline := hshows "failed to decode\n"
    rw [String.append_assoc, ← htab] at hline
    exact ⟨rfl, hline⟩
  | insn i =>
    rw [hbody] at h
    obtain ⟨name, rest, b, hname, htext, hbinding⟩ := exists_text_and_binding hm h.2
    simp only [htext, hbinding]
    -- The name is followed by the operands and, if bindings are shown, by the comment.
    split_ifs
    · refine ⟨rfl, name, rest ++ commentText m b ++ "\n", hname, ?_⟩
      have hline := hshows (m.mark .mnemonic name ++ (rest ++ commentText m b ++ "\n"))
      simpa only [String.append_assoc] using hline
    · refine ⟨rfl, name, rest ++ "\n", hname, ?_⟩
      have hline := hshows (m.mark .mnemonic name ++ (rest ++ "\n"))
      simpa only [String.append_assoc] using hline

/-- Outputs without a fault are put together to the concatenation of their texts. -/
theorem foldl_append_output {m : Markup} {d : Decoder} {ls : List Line}
    (h : ∀ l ∈ ls, (l.bodyOutput m d).fault = none) {done : Output} (hdone : done.fault = none) :
    (ls.foldl (fun done l => done.append (l.output m d)) done).fault = none ∧
      (ls.foldl (fun done l => done.append (l.output m d)) done).text =
        done.text ++ String.join (ls.map fun l => l.headerText ++ (l.bodyOutput m d).text) := by
  induction ls generalizing done with
  | nil => exact ⟨hdone, by simp⟩
  | cons l rest ih =>
    have hl := h l List.mem_cons_self
    have happend : done.append (l.output m d) =
        { text := done.text ++ (l.headerText ++ (l.bodyOutput m d).text)
          warnings := done.warnings ++ (l.bodyOutput m d).warnings
          fault := none } := by
      rw [Output.append, hdone, Line.output_eq, hl]
    have hnext : (done.append (l.output m d)).fault = none := by rw [happend]
    obtain ⟨hfault, htext⟩ := ih (fun l' hl' => h l' (List.mem_cons_of_mem l hl')) hnext
    refine ⟨hfault, htext.trans ?_⟩
    rw [happend, List.map_cons, String.join_cons, String.append_assoc]

/-- The text of lines that divide data has no fault and is made of their texts. -/
theorem linesOutput_of_divides {m : Markup} (hm : m.IsLawful) {options : Options}
    {address : Address} {data : List UInt8} {ls : List Line}
    (h : Divides m options address data ls)
    (hroom : address.toNat + data.length < sizeLimit) :
    (linesOutput m (.builtin options) ls).fault = none ∧
      (linesOutput m (.builtin options) ls).text =
        String.join (ls.map fun l => l.headerText ++ (l.bodyOutput m (.builtin options)).text) := by
  have hfaults : ∀ l ∈ ls, (l.bodyOutput m (.builtin options)).fault = none := by
    intro l hl
    obtain ⟨before, after, hls⟩ := List.append_of_mem hl
    obtain ⟨-, hbody, -⟩ := h.line_of_split hroom hls
    exact (l.bodyOutput_of_isSound hm hbody).1
  have hempty : ({} : Output).fault = none := rfl
  obtain ⟨hfault, htext⟩ := foldl_append_output hfaults hempty
  exact ⟨hfault, htext.trans String.empty_append⟩

/-- Printing data within the address space comes to its end behind the data. The text is made of the
texts of lines that divide the data and have the headers that are due. -/
theorem exists_print {m : Markup} (hm : m.IsLawful) (options : Options) {start : Address}
    (sectionName : String) {data : List UInt8} (isFirst : Bool)
    (hroom : start.toNat + data.length < sizeLimit) :
    ∃ (h : Headers) (ls : List Line) (output : Output),
      h.next = m.symbolAfter start ∧ (isFirst = true → h.first ≠ none) ∧
      print m (.start options start) sectionName data isFirst =
        (output, .start options (start + BitVec.ofNat 64 data.length)) ∧
      output.fault = none ∧
      output.text =
        String.join (ls.map fun l => l.headerText ++ (l.bodyOutput m (.builtin options)).text) ∧
      Divides m options start data ls ∧ h.ArePlaced m ls := by
  obtain ⟨h, ls, hnext, hfirst, hls, hdivides, hplaced⟩ :=
    exists_lines hm options sectionName isFirst hroom
  obtain ⟨hfault, htext⟩ := linesOutput_of_divides hm hdivides hroom
  refine ⟨h, ls, linesOutput m (.builtin options) ls, hnext, hfirst, ?_, hfault, htext, hdivides,
    hplaced⟩
  rw [print, hls]
  rfl

/-- The listing accounts for every byte exactly once and ends. For data that end within the address
space and symbols that keep their promise, printing comes to its end without a fault and leaves the
session behind the data, whatever the options are. The text is made of lines, each after its header
if it has one. The segments of the lines make up the data in order; none is empty, and the address
of each line is that of its segment. Each segment is a folded run of zeroes, the four bytes of a
decoded instruction, or bytes that do not decode: a word of four bytes, or the last one to three.
Every line that is not folded shows its address and all of its bytes. -/
theorem print_accounts_for_every_byte {m : Markup} (hm : m.IsLawful) (options : Options)
    {start : Address} (sectionName : String) {data : List UInt8} (isFirst : Bool)
    (hroom : start.toNat + data.length < sizeLimit) :
    ∃ (ls : List Line) (output : Output) (stop : Address),
      print m (.start options start) sectionName data isFirst = (output, .start options stop) ∧
      stop.toNat = start.toNat + data.length ∧ output.fault = none ∧
      output.text =
        String.join (ls.map fun l => l.headerText ++ (l.bodyOutput m (.builtin options)).text) ∧
      ls.flatMap Line.bytes = data ∧
      ∀ before l after, ls = before ++ l :: after →
        l.bytes ≠ [] ∧ l.address.toNat = start.toNat + (before.flatMap Line.bytes).length ∧
        l.body.IsSound (.builtin options) l.address l.bytes (after = []) ∧
        l.body.HasText m (.builtin options) l.address l.bytes
          (l.bodyOutput m (.builtin options)).text := by
  obtain ⟨-, ls, output, -, -, hprint, hfault, htext, hdivides, -⟩ :=
    exists_print hm options sectionName isFirst hroom
  refine ⟨ls, output, _, hprint, Address.toNat_add hroom, hfault, htext, hdivides.flatMap_bytes,
    fun before l after hsplit => ?_⟩
  obtain ⟨hbytes, hbody, haddress⟩ := hdivides.line_of_split hroom hsplit
  exact ⟨hbytes, haddress, hbody, (l.bodyOutput_of_isSound hm hbody).2⟩

/-- An instruction, two words of zeroes, a word without a meaning and two more bytes, with a symbol
inside the instruction. -/
theorem print_of_every_kind_of_line :
    let m := Markup.ofSymbols [⟨0x1002, "inside"⟩] fun _ text => text
    let data : List UInt8 :=
      [0x1f, 0x20, 0x03, 0xd5, 0, 0, 0, 0, 0, 0, 0, 0, 0xff, 0xff, 0xff, 0xff, 0x01, 0x02]
    m.IsLawful ∧ (0x1000 : Address).toNat + data.length < sizeLimit ∧
      ∃ (ls : List Line) (output : Output) (stop : Address),
        print m (.start {} 0x1000) ".text" data true = (output, .start {} stop) ∧
        stop.toNat = 0x1012 ∧ output.fault = none ∧ ls.flatMap Line.bytes = data := by
  intro m data
  have hm : m.IsLawful := Markup.isLawful_ofSymbols _ _
  have hroom : (0x1000 : Address).toNat + data.length < sizeLimit := by decide
  obtain ⟨ls, output, stop, hprint, hstop, hfault, -, hbytes, -⟩ :=
    print_accounts_for_every_byte hm {} ".text" true hroom
  exact ⟨hm, hroom, ls, output, stop, hprint, hstop, hfault, hbytes⟩

end Listing

end A64Disassembler
