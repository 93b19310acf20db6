import A64Disassembler.Proofs.TestFile.Line
import A64Disassembler.Proofs.Text.Plain
import A64Disassembler.TestFile.Runner

/-!
# The output of the disassembler is a test that it passes

A test file is written from the words of a program: each word on a line of its own, with a text. If
the texts are those that the decoder and its printer give for the words, the file passes as a test,
for any words, wherever they start and whatever the flags of the tests are. No word has a text that
the reader of test files would cut, because printed texts are plain, and a text that is normalized
once is found again. With other texts that can be expected of words the file does not pass.
-/

namespace A64Disassembler.TestFile

/-- The flags that a test may have. -/
structure TestFlags where
  aliases : Bool
  bindings : Bool
  big : Bool
  deriving DecidableEq, Repr

namespace TestFlags

variable (flags : TestFlags)

/-- The options that the flags stand for. -/
def options : Options where
  showAliases := flags.aliases
  endian := if flags.big then .big else .little

/-- The target that the flags stand for. -/
def target : Target where
  decoder := .builtin flags.options
  bindings := flags.bindings

/-- The target decodes with the options. -/
theorem decoder_target : flags.target.decoder = .builtin flags.options :=
  rfl

/-- The flags as they are written in a comment: every name after a sign. -/
def comment : List Char :=
  let signed := fun (name : String) (state : Bool) => (if state then '+' else '-') :: name.toList
  [' '].intercalate
    [signed "alias" flags.aliases, signed "bindings" flags.bindings, signed "big" flags.big]

/-- The flags in a comment choose their target, also with a space in front of them. -/
theorem ofFlags_comment :
    Target.ofFlags (flagsOf (Text.trim (' ' :: flags.comment))) = .ok flags.target := by
  obtain ⟨aliases, bindings, big⟩ := flags
  cases aliases <;> cases bindings <;> cases big <;> rfl

/-- The comment is not empty, and it can be a line. -/
theorem isLine_comment : flags.comment ≠ [] ∧ Text.IsLine flags.comment := by
  obtain ⟨aliases, bindings, big⟩ := flags
  cases aliases <;> cases bindings <;> cases big <;> exact ⟨by decide, by decide, by decide⟩

end TestFlags

/-- The text for the word that is stored at an address with its lowest byte first. -/
def ownText (target : Target) (address : Address) (word : Word) : Except Fault (List Char) := do
  match ← target.decoder.decode address (lowBytes insnSize word.toNat) with
  | .ok i => target.insnText i
  | .error _ => return badText.toList

/-- The eight digits of a word. -/
def wordDigits (word : Word) : List Char :=
  (Numeral.padLeft '0' 8 (Numeral.hex word.toNat)).toList

/-- An address with its colon and spaces behind it. -/
def writtenPlace (address : Address) (indent : Nat) : List Char :=
  (Numeral.hex address.toNat).toList ++ ':' :: List.replicate indent ' '

/-- The line for a word at an address: the address, if it is written, the word, two spaces, its
text, one more space than `gap`, and the flags in a comment. -/
def writtenLine (flags : TestFlags) (gap : Nat) (indent : Option Nat) (address : Address)
    (text : List Char) (word : Word) : List Char :=
  (indent.map (writtenPlace address)).getD [] ++ (wordDigits word ++ ' ' :: ' ' :: text) ++
    List.replicate (gap + 1) ' ' ++ '/' :: '/' :: ' ' :: flags.comment

/-- The lines for words with texts at consecutive addresses. Only the first one may have its
address. -/
def writtenLines (flags : TestFlags) (gap : Nat) : (indent : Option Nat) → Address →
    List (Word × List Char) → List (List Char)
  | _, _, [] => []
  | indent, address, (word, text) :: rest =>
    writtenLine flags gap indent address text word ::
      writtenLines flags gap none (address + BitVec.ofNat 64 insnSize) rest

/-- The test file for words with texts from an address on. -/
def writtenFile (flags : TestFlags) (indent gap : Nat) (start : Address) (words : List Word)
    (texts : List (List Char)) : List Char :=
  (writtenLines flags gap (some indent) start (words.zip texts)).flatMap fun line => line ++ ['\n']

/-- The texts for words that are stored at consecutive addresses. -/
def ownTexts (target : Target) : Address → List Word → Except Fault (List (List Char))
  | _, [] => .ok []
  | address, word :: rest => do
    let text ← ownText target address word
    let later ← ownTexts target (address + BitVec.ofNat 64 insnSize) rest
    return text :: later

/-- A text that can stand on a line of a test file and is normalized. -/
structure IsExpectable (text : List Char) : Prop where
  nonempty : text ≠ []
  normal : Text.normalize text = text
  plain : ∀ c ∈ text, c ≠ '/' ∧ c ≠ ':'

/-- A plain text that does not begin with a blank can be expected when it is normalized. -/
theorem isExpectable_normalize {text : String} {c : Char} {rest : List Char} (hplain : IsPlain text)
    (htext : text.toList = c :: rest) (hc : Text.isBlank c = false) :
    IsExpectable (Text.normalize text.toList) where
  nonempty := htext ▸ Text.normalize_ne_nil hc rest
  normal := Text.normalize_normalize _
  plain c' hc' := by
    rcases Text.mem_normalize hc' with rfl | ⟨-, hmem⟩
    · decide
    · exact hplain c' hmem

/-- The text for bytes that do not decode can be expected. -/
theorem isExpectable_badText : IsExpectable badText.toList where
  nonempty := by decide
  normal := by decide
  plain := show IsPlain badText by decide

/-- The text of a decoded instruction can be made and expected. -/
theorem exists_insnText (target : Target) {options : Options} {address : Address}
    {bytes : List UInt8} {i : Insn} (htarget : target.decoder = .builtin options)
    (hdecode : (Decoder.builtin options).decode address bytes = .ok (.ok i)) :
    ∃ text, target.insnText i = .ok text ∧ IsExpectable text := by
  obtain ⟨text, b, c, rest, htext, hb, hplain, hplain', hchars, hc⟩ :=
    Decoder.exists_plain_text hdecode
  unfold Target.insnText
  rw [htarget, htext, ok_bind, hb]
  split
  · have hboth : IsPlain (text ++ " ; " ++ b.text) := by
      simp only [isPlain_append]
      exact ⟨⟨hplain, by decide⟩, hplain'⟩
    have hchars' : (text ++ " ; " ++ b.text).toList =
        c :: (rest ++ " ; ".toList ++ b.text.toList) := by simp [hchars]
    exact ⟨_, rfl, isExpectable_normalize hboth hchars' hc⟩
  · exact ⟨_, rfl, isExpectable_normalize hplain hchars hc⟩

/-- The text of a word can be made and expected, and the bytes of the word have this text as their
result. -/
theorem exists_ownText (flags : TestFlags) (address : Address) (word : Word) :
    ∃ text warnings, ownText flags.target address word = .ok text ∧ IsExpectable text ∧
      flags.target.resultOf address (lowBytes insnSize word.toNat) =
        .ok (insnSize, text, warnings) := by
  have hsize : (lowBytes insnSize word.toNat).length = insnSize := by simp [lowBytes]
  unfold ownText Target.resultOf
  rw [flags.decoder_target]
  rcases Decoder.decode_builtin_word flags.options address hsize.ge with hfailed | ⟨i, hi, hlength⟩
  · rw [hfailed, ok_bind, ok_bind, hsize]
    exact ⟨badText.toList, [], rfl, isExpectable_badText, rfl⟩
  · obtain ⟨text, htext, hexpectable⟩ := exists_insnText flags.target flags.decoder_target hi
    rw [hi, ok_bind, ok_bind]
    refine ⟨text, if flags.target.bindings then
      ((Decoder.builtin flags.options).warning? i).toList else [], htext, hexpectable, ?_⟩
    exact bind_eq_ok.mpr ⟨text, htext, by rw [hlength]; rfl⟩

/-- The digits of a word are a word of a test file, with the bytes of the word. -/
theorem isWord_wordDigits (word : Word) :
    IsWord (wordDigits word) ∧ wordBytes (wordDigits word) = lowBytes insnSize word.toNat := by
  have hlt : word.toNat < 16 ^ 8 := word.isLt
  have hlimit : word.toNat < sizeLimit := Nat.lt_trans hlt (by decide)
  obtain ⟨hne, hdigits, hread⟩ := Numeral.readHex?_padLeft hlimit 8
  have hlength : (wordDigits word).length = 8 := by
    have hshort : (Nat.toDigits 16 word.toNat).length ≤ 8 :=
      (Nat.length_toDigits_le_iff (by decide) (by decide)).mpr hlt
    simp only [wordDigits, Numeral.padLeft, Numeral.hex, String.length_ofList, String.toList_append,
      String.toList_ofList, List.length_append, List.length_replicate]
    omega
  refine ⟨⟨hne, by rw [hlength], hdigits, by rw [hlength]; decide⟩, ?_⟩
  have hvalue : (BitVec.ofNat 64 word.toNat).toNat = word.toNat := by
    rw [BitVec.toNat_ofNat]
    exact Nat.mod_eq_of_lt hlimit
  have hword : Numeral.readHex? (wordDigits word) = some (BitVec.ofNat 64 word.toNat) := hread
  rw [wordBytes, hlength, hword, Option.getD_some, hvalue]
  rfl

section Line

variable (flags : TestFlags) (gap : Nat) (indent : Option Nat) (address next : Address)
  (text : List Char) (word : Word)

/-- The test for a word with an expected text, with its address or without it. -/
def wordTest : TestLine where
  address := indent.map fun count => ((Numeral.hex address.toNat).toList, List.replicate count ' ')
  words := [wordDigits word]
  text
  comment := some (List.replicate (gap + 1) ' ', ' ' :: flags.comment)

/-- The test is written as it is said. -/
theorem chars_wordTest (hne : text ≠ []) :
    (wordTest flags gap indent address text word).chars =
      writtenLine flags gap indent address text word := by
  cases indent <;>
    simp [wordTest, TestLine.chars, TestLine.place, TestLine.body, TestLine.wordText, writtenLine,
      writtenPlace, hne]

/-- The test has the bytes of the word. -/
theorem bytes_wordTest :
    (wordTest flags gap indent address text word).bytes = lowBytes insnSize word.toNat := by
  simp [TestLine.bytes, wordTest, (isWord_wordDigits word).2]

/-- The test has as many bytes as a word. -/
theorem length_bytes_wordTest :
    (wordTest flags gap indent address text word).bytes.length = insnSize := by
  simp [bytes_wordTest, lowBytes]

/-- The digits of an address are read as the address. -/
theorem readHex?_address :
    (Numeral.hex address.toNat).toList ≠ [] ∧ (Numeral.hex address.toNat).toList.length ≤ 16 ∧
      (∀ c ∈ (Numeral.hex address.toNat).toList, (Numeral.hexDigit? c).isSome) ∧
      Numeral.readHex? (Numeral.hex address.toNat).toList = some address := by
  have hlimit : address.toNat < sizeLimit := address.isLt
  have hpad : Numeral.padLeft '0' 0 (Numeral.hex address.toNat) = Numeral.hex address.toNat := by
    simp [Numeral.padLeft]
  have hread := Numeral.readHex?_padLeft hlimit 0
  rw [hpad, BitVec.ofNat_toNat, BitVec.setWidth_eq] at hread
  have hlength : (Nat.toDigits 16 address.toNat).length ≤ 16 :=
    (Nat.length_toDigits_le_iff (by decide) (by decide)).mpr hlimit
  exact ⟨hread.1, by simpa [Numeral.hex] using hlength, hread.2⟩

variable {flags gap indent address next text word}

/-- The test starts at its address, also if it is not written but the next one. -/
theorem start_wordTest (hnext : indent = none → next = address) :
    (wordTest flags gap indent address text word).start next = address := by
  cases indent with
  | none => exact hnext rfl
  | some count => simp [wordTest, TestLine.start, (readHex?_address address).2.2.2]

/-- The line can be read. -/
theorem isValid_wordTest (h : IsExpectable text) :
    (wordTest flags gap indent address text word).IsValid where
  digits := by
    rintro digits blanks haddress
    obtain ⟨count, -, hparts⟩ := Option.map_eq_some_iff.mp haddress
    cases hparts
    obtain ⟨hne, hlength, hdigits, -⟩ := readHex?_address address
    exact ⟨⟨hne, hlength, hdigits⟩, fun c => Text.isBlank_of_mem_replicate⟩
  hasWords := List.cons_ne_nil _ _
  words := by simpa [wordTest] using (isWord_wordDigits word).1
  text := h.normal ▸ Text.isTrimmed_normalize text
  colon hcolon := (h.plain ':' (List.mem_of_head? hcolon)).2 rfl
  slashes hslashes := (h.plain '/' (hslashes.mem List.mem_cons_self)).1 rfl
  comment := by
    rintro blanks remark hcomment
    cases hcomment
    exact ⟨by simp, fun c => Text.isBlank_of_mem_replicate⟩

/-- The line is a single line. -/
theorem isLine_writtenLine (h : IsExpectable text) :
    Text.IsLine (writtenLine flags gap indent address text word) := by
  obtain ⟨hne, hfeed, hreturn⟩ := flags.isLine_comment
  have hdigit : ∀ {digits : List Char}, (∀ c ∈ digits, (Numeral.hexDigit? c).isSome) →
      '\n' ∉ digits := fun hdigits hmem => absurd (hdigits '\n' hmem) (by decide)
  have hplace : '\n' ∉ (indent.map (writtenPlace address)).getD [] := by
    cases indent with
    | none => exact List.not_mem_nil
    | some count => simp [writtenPlace, hdigit (readHex?_address address).2.2.1]
  have hword : '\n' ∉ wordDigits word := hdigit (isWord_wordDigits word).1.digits
  have htext : '\n' ∉ text := fun hmem => by
    rcases Text.mem_normalize (h.normal.symm ▸ hmem) with hspace | ⟨hblank, -⟩
    · exact absurd hspace (by decide)
    · exact absurd hblank (by decide)
  constructor
  · simp [writtenLine, hplace, hword, htext, hfeed]
  · have hlast : ∀ front : List Char, (front ++ '/' :: '/' :: ' ' :: flags.comment).getLast? =
        flags.comment.getLast? := fun front => by
      have hcut : front ++ '/' :: '/' :: ' ' :: flags.comment =
          (front ++ ['/', '/', ' ']) ++ flags.comment := by simp
      rw [hcut, List.getLast?_append_of_ne_nil _ hne]
    rwa [writtenLine, hlast]

end Line

/-- The texts of words can be made, and each of them can be expected. -/
theorem exists_ownTexts (flags : TestFlags) (address : Address) (words : List Word) :
    ∃ texts, ownTexts flags.target address words = .ok texts ∧ texts.length = words.length ∧
      ∀ text ∈ texts, IsExpectable text := by
  induction words generalizing address with
  | nil => exact ⟨[], rfl, rfl, by simp⟩
  | cons word rest ih =>
    obtain ⟨text, -, htext, hexpectable, -⟩ := exists_ownText flags address word
    obtain ⟨texts, htexts, hlength, hall⟩ := ih (address + BitVec.ofNat 64 insnSize)
    refine ⟨text :: texts, ?_, congrArg (· + 1) hlength,
      List.forall_mem_cons.mpr ⟨hexpectable, hall⟩⟩
    rw [ownTexts, htext, ok_bind, htexts]
    rfl

section Entries

variable (flags : TestFlags) (gap : Nat)

/-- The tests for words with texts at consecutive addresses. -/
def wordTests : (indent : Option Nat) → Address → List (Word × List Char) → List TestLine
  | _, _, [] => []
  | indent, address, (word, text) :: rest =>
    wordTest flags gap indent address text word ::
      wordTests none (address + BitVec.ofNat 64 insnSize) rest

variable {flags gap} {indent : Option Nat} {address next : Address}
  {entries : List (Word × List Char)}

/-- The tests are written as the lines for the words. -/
theorem map_chars_wordTests (hexpectable : ∀ e ∈ entries, IsExpectable e.2) :
    (wordTests flags gap indent address entries).map TestLine.chars =
      writtenLines flags gap indent address entries := by
  induction entries generalizing indent address with
  | nil => rfl
  | cons e rest ih =>
    obtain ⟨he, hrest⟩ := List.forall_mem_cons.mp hexpectable
    rw [wordTests, List.map_cons, chars_wordTest _ _ _ _ _ _ he.nonempty, ih hrest]
    rfl

/-- The lines for the words can be read, and each of them is a single line. -/
theorem isValid_wordTests (hexpectable : ∀ e ∈ entries, IsExpectable e.2) :
    ∀ l ∈ wordTests flags gap indent address entries, l.IsValid ∧ Text.IsLine l.chars := by
  induction entries generalizing indent address with
  | nil => exact List.forall_mem_nil _
  | cons e rest ih =>
    obtain ⟨he, hrest⟩ := List.forall_mem_cons.mp hexpectable
    refine List.forall_mem_cons.mpr ⟨⟨isValid_wordTest he, ?_⟩, ih hrest⟩
    rw [chars_wordTest _ _ _ _ _ _ he.nonempty]
    exact isLine_writtenLine he

/-- The tests end before the end of the address space if the words do. -/
theorem fit_wordTests (hnext : indent = none → next = address)
    (hroom : address.toNat + insnSize * entries.length < sizeLimit) :
    TestLine.Fit next (wordTests flags gap indent address entries) := by
  induction entries generalizing indent address next with
  | nil => trivial
  | cons e rest ih =>
    rw [List.length_cons, Nat.mul_add, Nat.mul_one] at hroom
    have hbehind : (address + BitVec.ofNat 64 insnSize).toNat + insnSize * rest.length <
        sizeLimit := by
      rw [Address.toNat_add (by omega)]
      omega
    rw [wordTests, TestLine.Fit, start_wordTest hnext, length_bytes_wordTest]
    exact ⟨by omega, ih (fun _ => rfl) hbehind⟩

end Entries

section Run

variable {diff : Text.LineDiff} {file : String} {t : Test} {rest : List Test}

/-- Whether all tests of a list pass. -/
def Pass (diff : Text.LineDiff) (file : String) (ts : List Test) : Prop :=
  ∃ warnings, (Runner.builtin diff).runTests file ts = ([], warnings, none)

/-- Nothing is shown for a test exactly if its length and its text are the expected ones. -/
theorem mismatchText?_eq_none_iff {r : Runner} {length : Nat} {result : List Char} :
    r.mismatchText? file t length result = .ok none ↔
      length = t.bytes.length ∧ result = Text.normalize t.expected := by
  unfold Runner.mismatchText?
  dsimp only
  split
  case isTrue hsame => exact iff_of_true rfl hsame
  case isFalse hother =>
    refine iff_of_false (fun h => ?_) hother
    obtain ⟨text, -, h⟩ := bind_eq_ok.mp h
    cases h

/-- A test passes exactly if the bytes of the test have the expected text as their result. -/
theorem runTest_eq_iff {target : Target} {result : List Char} {warnings : List String}
    (htarget : Target.ofTest t = .ok target) (htext : Text.normalize t.expected = t.expected)
    (hresult : target.resultOf t.address t.bytes = .ok (t.bytes.length, result, warnings)) :
    (∃ warnings, (Runner.builtin diff).runTest file t = .ok (none, warnings)) ↔
      t.expected = result := by
  have htarget' : (Runner.builtin diff).target t = .ok target := htarget
  have hshown : (Runner.builtin diff).mismatchText? file t t.bytes.length result = .ok none ↔
      t.bytes.length = t.bytes.length ∧ result = t.expected := by
    rw [mismatchText?_eq_none_iff, htext]
  rw [Runner.runTest, htarget', ok_bind, hresult, ok_bind]
  constructor
  · rintro ⟨warnings, hpass⟩
    obtain ⟨shown, hmismatch, hpass⟩ := bind_eq_ok.mp hpass
    cases hpass
    exact (hshown.mp hmismatch).2.symm
  · intro heq
    exact ⟨warnings, bind_eq_ok.mpr ⟨none, hshown.mpr ⟨rfl, heq.symm⟩, rfl⟩⟩

/-- The tests of a list pass exactly if the first one and all others do. -/
theorem pass_cons_iff : Pass diff file (t :: rest) ↔
    (∃ warnings, (Runner.builtin diff).runTest file t = .ok (none, warnings)) ∧
      Pass diff file rest := by
  unfold Pass
  rw [Runner.runTests]
  cases htest : (Runner.builtin diff).runTest file t with
  | error f => simp
  | ok answer =>
    obtain ⟨shown, warnings⟩ := answer
    dsimp only
    generalize (Runner.builtin diff).runTests file rest = later
    obtain ⟨later, laterWarnings, fault⟩ := later
    cases shown with
    | none => simp
    | some text => simp

/-- A file without errors passes exactly if all of its tests do. -/
theorem run_eq_iff {text : List Char} {ts : List Test}
    (htests : tests file text = (ts, .ok (.ok ()))) :
    (∃ warnings, (Runner.builtin diff).run file text = { warnings }) ↔ Pass diff file ts := by
  unfold Pass
  rw [Runner.run, htests]
  dsimp only
  generalize (Runner.builtin diff).runTests file ts = answer
  obtain ⟨shown, warnings, fault⟩ := answer
  cases fault with
  | some f => simp
  | none =>
    cases shown with
    | nil => simp
    | cons text shown => simp

/-- The tests for words with texts pass exactly if the texts are those that the words stand for. -/
theorem pass_wordTests_iff {flags : TestFlags} {gap : Nat} {entries : List (Word × List Char)}
    (hexpectable : ∀ e ∈ entries, IsExpectable e.2) {indent : Option Nat} {address next : Address}
    (hnext : indent = none → next = address) (line : Nat) :
    Pass diff file (TestLine.tests line next (wordTests flags gap indent address entries)) ↔
      ownTexts flags.target address (entries.map Prod.fst) = .ok (entries.map Prod.snd) := by
  induction entries generalizing indent address next line with
  | nil => exact ⟨fun _ => rfl, fun _ => ⟨[], rfl⟩⟩
  | cons e rest ih =>
    obtain ⟨word, text⟩ := e
    obtain ⟨he, hrest⟩ := List.forall_mem_cons.mp hexpectable
    obtain ⟨own, warnings, hown, -, hresult⟩ := exists_ownText flags address word
    let l := wordTest flags gap indent address text word
    have hstart : l.start next = address := start_wordTest hnext
    have hlength : l.bytes.length = insnSize := length_bytes_wordTest ..
    have hresult' : flags.target.resultOf (l.start next) l.bytes =
        .ok (l.bytes.length, own, warnings) := by
      rw [hstart, hlength, bytes_wordTest, hresult]
    have htest : (∃ warnings,
        (Runner.builtin diff).runTest file (l.test (line + 1) next) = .ok (none, warnings)) ↔
          text = own :=
      runTest_eq_iff flags.ofFlags_comment he.normal hresult'
    rw [wordTests, TestLine.tests, pass_cons_iff, htest, hstart, hlength,
      ih hrest (fun _ => rfl), List.map_cons, List.map_cons, ownTexts, hown, ok_bind]
    cases ownTexts flags.target (address + BitVec.ofNat 64 insnSize) (rest.map Prod.fst) with
    | error f => simp [bind, Except.bind]
    | ok later => simp [bind, Except.bind, pure, Except.pure, eq_comm]

/-- The file for words with texts passes exactly if the texts are those that the words stand for. -/
theorem run_writtenFile_iff (flags : TestFlags) (indent gap : Nat) {start : Address}
    {words : List Word} {texts : List (List Char)} (hlength : texts.length = words.length)
    (hexpectable : ∀ text ∈ texts, IsExpectable text)
    (hroom : start.toNat + insnSize * words.length < sizeLimit) :
    (∃ warnings, (Runner.builtin diff).run file
        (writtenFile flags indent gap start words texts) = { warnings }) ↔
      ownTexts flags.target start words = .ok texts := by
  have hentries : ∀ e ∈ words.zip texts, IsExpectable e.2 := fun e he =>
    hexpectable e.2 (List.of_mem_zip he).2
  have hzip : (words.zip texts).length = words.length := by simp [hlength]
  let ls := wordTests flags gap (some indent) start (words.zip texts)
  have hls : ∀ l ∈ ls, l.IsValid ∧ Text.IsLine l.chars := isValid_wordTests hentries
  have hlines : Text.lines (writtenFile flags indent gap start words texts) =
      ls.map TestLine.chars := by
    rw [writtenFile, ← map_chars_wordTests hentries]
    exact Text.lines_flatMap (List.forall_mem_map.mpr fun l hl => (hls l hl).2)
  have hnext : some indent = none → (0 : Address) = start := nofun
  have htests := tests_of_isValid file hlines (fun l hl => (hls l hl).1)
    (fit_wordTests hnext (hzip ▸ hroom))
  rw [run_eq_iff htests, pass_wordTests_iff hentries hnext, List.map_fst_zip (by omega),
    List.map_snd_zip (by omega)]

end Run

/-- The output of the disassembler passes as a test, however results are compared with what is
expected: the texts of words from an address on can be made, and no test fails in the file that has
the words with these texts. With any other texts that can be expected of the words the run does not
succeed. -/
theorem run_writtenFile_of_ownTexts (diff : Text.LineDiff) (file : String) (flags : TestFlags)
    (indent gap : Nat) (start : Address) (words : List Word)
    (hroom : start.toNat + insnSize * words.length < sizeLimit) :
    ∃ texts, ownTexts flags.target start words = .ok texts ∧
      (∃ warnings, (Runner.builtin diff).run file
        (writtenFile flags indent gap start words texts) = { warnings }) ∧
      ∀ others, others.length = words.length → (∀ text ∈ others, IsExpectable text) →
        others ≠ texts → ¬ ∃ warnings, (Runner.builtin diff).run file
          (writtenFile flags indent gap start words others) = { warnings } := by
  obtain ⟨texts, htexts, hlength, hexpectable⟩ := exists_ownTexts flags start words
  refine ⟨texts, htexts, ?_, fun others hlength' hexpectable' hne hpass => hne ?_⟩
  · exact (run_writtenFile_iff flags indent gap hlength hexpectable hroom).mpr htexts
  · have hothers := (run_writtenFile_iff flags indent gap hlength' hexpectable' hroom).mp hpass
    exact Except.ok.inj (hothers.symm.trans htexts)

/-- A call, a word without a meaning and a return, with their bindings, up to the end of the address
space. Their texts pass, and to expect that no word decodes does not. -/
theorem run_writtenFile_of_call :
    let diff : Text.LineDiff := fun left right => [.removed left, .added right]
    let flags : TestFlags := ⟨true, true, false⟩
    let words : List Word := [0x94000002, 0xffffffff, 0xd65f03c0]
    let others := List.replicate 3 badText.toList
    (0xfffffffffffffff0 : Address).toNat + insnSize * words.length < sizeLimit ∧
      ∃ texts, ownTexts flags.target 0xfffffffffffffff0 words = .ok texts ∧
        (∃ warnings, (Runner.builtin diff).run "own.test"
          (writtenFile flags 0 7 0xfffffffffffffff0 words texts) = { warnings }) ∧
        ¬ ∃ warnings, (Runner.builtin diff).run "own.test"
          (writtenFile flags 0 7 0xfffffffffffffff0 words others) = { warnings } := by
  intro diff flags words others
  have hroom : (0xfffffffffffffff0 : Address).toNat + insnSize * words.length < sizeLimit := by
    decide
  have hexpectable : ∀ text ∈ others, IsExpectable text := fun text htext =>
    List.eq_of_mem_replicate htext ▸ isExpectable_badText
  have hmade : (ownTexts flags.target 0xfffffffffffffff0 words).toOption ≠ some others := by
    decide +kernel
  obtain ⟨texts, htexts, hpass, hother⟩ :=
    run_writtenFile_of_ownTexts diff "own.test" flags 0 7 0xfffffffffffffff0 words hroom
  refine ⟨hroom, texts, htexts, hpass, hother others rfl hexpectable fun heq => hmade ?_⟩
  rw [htexts, heq]
  rfl

end A64Disassembler.TestFile
