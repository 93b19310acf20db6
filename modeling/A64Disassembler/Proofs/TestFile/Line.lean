import A64Disassembler.Proofs.TestFile.Reader

/-!
# Lines are read as they are written

A test is written as an optional address, words, a text and an optional comment. A reader cuts the
line where it was put together: at the slashes before the comment, at the colon behind the address,
and at the two spaces before the text. A colon in the text is not taken for the one behind an
address, because there are spaces in front of it.
-/

namespace A64Disassembler.TestFile

/-- A test as it is written on a line. -/
structure TestLine where
  /-- The digits of an address, and blanks behind its colon. -/
  address : Option (List Char × List Char) := none
  words : List (List Char)
  /-- The expected text, two spaces behind the words, unless it is empty. -/
  text : List Char := []
  /-- Blanks, and a comment behind two slashes. -/
  comment : Option (List Char × List Char) := none

/-- The bytes of a word, the lowest one first. -/
def wordBytes (word : List Char) : List UInt8 :=
  lowBytes (word.length / 2) ((Numeral.readHex? word).getD 0).toNat

namespace TestLine

variable (l : TestLine)

/-- The address with its colon. -/
def place : List Char :=
  match l.address with
  | none => []
  | some (digits, blanks) => digits ++ ':' :: blanks

/-- The words with single spaces between them. -/
def wordText : List Char :=
  [' '].intercalate l.words

/-- The words and the text. -/
def body : List Char :=
  l.wordText ++ if l.text = [] then [] else ' ' :: ' ' :: l.text

/-- What is written on the line. -/
def chars : List Char :=
  match l.comment with
  | none => l.place ++ l.body
  | some (blanks, remark) => l.place ++ l.body ++ blanks ++ '/' :: '/' :: remark

/-- Where the test starts if a test without an address starts at `next`. -/
def start (next : Address) : Address :=
  match l.address with
  | none => next
  | some (digits, _) => (Numeral.readHex? digits).getD 0

/-- The bytes of the test. -/
def bytes : List UInt8 :=
  l.words.flatMap wordBytes

/-- The test on the line with a number. -/
def test (line : Nat) (next : Address) : Test where
  line := line
  comment := Text.trim ((l.comment.map Prod.snd).getD [])
  address := l.start next
  bytes := l.bytes
  expected := l.text

/-- A line that a test may be written on. -/
structure IsValid : Prop where
  digits : ∀ digits blanks, l.address = some (digits, blanks) →
    (digits ≠ [] ∧ digits.length ≤ 16 ∧ ∀ c ∈ digits, (Numeral.hexDigit? c).isSome) ∧
      ∀ c ∈ blanks, Text.isBlank c = true
  hasWords : l.words ≠ []
  words : ∀ word ∈ l.words, IsWord word
  text : Text.IsTrimmed l.text
  colon : l.text.head? ≠ some ':'
  slashes : ¬ ['/', '/'] <:+: l.text
  comment : ∀ blanks remark, l.comment = some (blanks, remark) →
    blanks ≠ [] ∧ ∀ c ∈ blanks, Text.isBlank c = true

/-- The tests on lines in a row, after `line` other lines. -/
def tests : (line : Nat) → (next : Address) → List TestLine → List Test
  | _, _, [] => []
  | line, next, l :: rest =>
    l.test (line + 1) next ::
      tests (line + 1) (l.start next + BitVec.ofNat 64 l.bytes.length) rest

/-- Whether no test on lines in a row reaches the end of the address space. -/
def Fit : (next : Address) → List TestLine → Prop
  | _, [] => True
  | next, l :: rest =>
    (l.start next).toNat + l.bytes.length < sizeLimit ∧
      Fit (l.start next + BitVec.ofNat 64 l.bytes.length) rest

end TestLine

/-- The digits of a word have no blanks between them. -/
theorem IsWord.isSolid {word : List Char} (h : IsWord word) : Text.IsSolid word :=
  Numeral.isSolid_of_hexDigits h.nonempty h.digits

/-- A word is read as its bytes. -/
theorem wordBytes?_of_isWord {word : List Char} (h : IsWord word) :
    wordBytes? word = .ok (some (wordBytes word)) ∧ 0 < (wordBytes word).length := by
  obtain ⟨value, hvalue⟩ := Option.isSome_iff_exists.mp
    (Numeral.isSome_readHex?_of_length_le h.nonempty h.digits h.short)
  have hdigits : word.length % 2 = 0 ∧ word.all (fun c => (Numeral.hexDigit? c).isSome) = true :=
    ⟨h.even, List.all_eq_true.mpr h.digits⟩
  have hshort : word.length / 2 ≤ 8 := by have := h.short; omega
  rw [wordBytes?, if_pos hdigits, hvalue, wordBytes, hvalue]
  refine ⟨if_pos hshort, ?_⟩
  have hpos := List.length_pos_iff.mpr h.nonempty
  have heven := h.even
  simp only [lowBytes, List.length_map, List.length_range]
  omega

/-- Words are read as their bytes in a row. -/
theorem readWords_eq_flatMap {words : List (List Char)} (hwords : ∀ word ∈ words, IsWord word)
    (bytes : List UInt8) :
    readWords bytes words = .ok (bytes ++ words.flatMap wordBytes, none) := by
  induction words generalizing bytes with
  | nil => simp [readWords]
  | cons word rest ih =>
    obtain ⟨hword, hrest⟩ := List.forall_mem_cons.mp hwords
    rw [readWords, (wordBytes?_of_isWord hword).1, ok_bind, List.flatMap_cons, ← List.append_assoc]
    exact ih hrest _

namespace TestLine.IsValid

variable {l : TestLine}

/-- The words have no blanks between their digits. -/
theorem isSolid (h : l.IsValid) : ∀ word ∈ l.words, Text.IsSolid word := fun word hword =>
  (h.words word hword).isSolid

/-- The characters between the address and the text are digits and spaces. -/
theorem mem_wordText (h : l.IsValid) {c : Char} (hc : c ∈ l.wordText) :
    c = ' ' ∨ (Numeral.hexDigit? c).isSome :=
  (Text.mem_intercalate hc).imp List.mem_singleton.mp fun ⟨word, hword, hmem⟩ =>
    (h.words word hword).digits c hmem

/-- The words are not empty and have no blanks around them. -/
theorem isTrimmed_wordText (h : l.IsValid) : Text.IsTrimmed l.wordText ∧ l.wordText ≠ [] :=
  Text.isTrimmed_intercalate h.hasWords h.isSolid

/-- The words and the text are not empty and have no blanks around them. -/
theorem isTrimmed_body (h : l.IsValid) : Text.IsTrimmed l.body ∧ l.body ≠ [] := by
  obtain ⟨htrimmed, hne⟩ := h.isTrimmed_wordText
  rw [TestLine.body]
  split_ifs with htext
  · rw [List.append_nil]
    exact ⟨htrimmed, hne⟩
  · exact ⟨htrimmed.append h.text hne htext [' ', ' '], by simp [hne]⟩

/-- The same with an address in front. -/
theorem isTrimmed_front (h : l.IsValid) :
    Text.IsTrimmed (l.place ++ l.body) ∧ l.place ++ l.body ≠ [] := by
  obtain ⟨htrimmed, hne⟩ := h.isTrimmed_body
  rw [TestLine.place]
  split
  · exact ⟨htrimmed, hne⟩
  · rename_i digits blanks haddress
    obtain ⟨⟨hdigits, -, hall⟩, -⟩ := h.digits digits blanks haddress
    rw [List.append_assoc]
    exact ⟨(Numeral.isSolid_of_hexDigits hdigits hall).isTrimmed.append htrimmed hdigits hne _,
      by simp [hdigits]⟩

/-- There are no slashes in front of the text. -/
theorem slash_not_mem (h : l.IsValid) : '/' ∉ l.place ++ l.wordText := by
  have hdigit : (Numeral.hexDigit? '/').isSome = false := by decide
  rw [List.mem_append, not_or]
  constructor
  · rw [TestLine.place]
    split
    · exact List.not_mem_nil
    · rename_i digits blanks haddress
      obtain ⟨⟨-, -, hall⟩, hblanks⟩ := h.digits digits blanks haddress
      rw [List.mem_append, List.mem_cons, not_or, not_or]
      exact ⟨fun hc => absurd (hall '/' hc) (by simp [hdigit]), by decide,
        fun hc => absurd (hblanks '/' hc) (by decide)⟩
  · exact fun hc => (h.mem_wordText hc).elim (by decide) (by simp [hdigit])

/-- Two slashes in a row are in the text or behind it. -/
theorem slashes_in_text (h : l.IsValid) {more : List Char}
    (hslashes : ['/', '/'] <:+: l.place ++ l.body ++ more) : ['/', '/'] <:+: l.text ++ more := by
  rw [TestLine.body, ← List.append_assoc, List.append_assoc] at hslashes
  have hrest := Text.pair_infix_of_append hslashes h.slash_not_mem
  split_ifs at hrest with htext
  · rwa [htext]
  · exact Text.pair_infix_of_append (List.append_assoc [' ', ' '] l.text more ▸ hrest) (by decide)

/-- The first two slashes in a row are those of the comment. -/
theorem splitOnce_slashes (h : l.IsValid) :
    ∃ blanks, (∀ c ∈ blanks, Text.isBlank c = true) ∧
      (Text.splitOnce ['/', '/'] l.chars).getD (l.chars, []) =
        (l.place ++ l.body ++ blanks, (l.comment.map Prod.snd).getD []) := by
  cases hcomment : l.comment with
  | none =>
    have hchars : l.chars = l.place ++ l.body := by rw [TestLine.chars, hcomment]
    have hnone : ¬ ['/', '/'] <:+: l.place ++ l.body := by
      rw [← List.append_nil (l.place ++ l.body)]
      exact fun hslashes => h.slashes (by simpa using h.slashes_in_text hslashes)
    refine ⟨[], by simp, ?_⟩
    rw [hchars, Text.splitOnce_eq_none hnone]
    simp
  | some comment =>
    obtain ⟨blanks, remark⟩ := comment
    obtain ⟨hne, hblanks⟩ := h.comment blanks remark hcomment
    have hslash : '/' ∉ blanks := fun hmem => absurd (hblanks '/' hmem) (by decide)
    have hchars : l.chars = (l.place ++ l.body ++ blanks) ++ (['/', '/'] ++ remark) := by
      rw [TestLine.chars, hcomment]
      simp
    have hnone : ¬ ['/', '/'] <:+: (l.place ++ l.body ++ blanks) ++ ['/'] := by
      intro hslashes
      rw [List.append_assoc] at hslashes
      rcases Text.pair_infix_append (h.slashes_in_text hslashes) with htext | hbehind | ⟨-, hhead⟩
      · exact h.slashes htext
      · have hsingle := Text.pair_infix_of_append hbehind hslash
        exact absurd hsingle.length_le (by decide)
      · rw [List.head?_append_of_ne_nil _ hne] at hhead
        exact hslash (List.mem_of_head? hhead)
    refine ⟨blanks, hblanks, ?_⟩
    rw [hchars, Text.splitOnce_append (by simp) hnone]
    rfl

/-- The words and the text are not taken for an address. -/
theorem splitAddress_body (h : l.IsValid) : splitAddress l.body = none := by
  obtain ⟨htrimmed, hne⟩ := h.isTrimmed_wordText
  have hcolon : ':' ∉ l.wordText := fun hmem => (h.mem_wordText hmem).elim (by decide) (by decide)
  rw [TestLine.body, splitAddress]
  split_ifs with htext
  · have hnone : ¬ [':'] <:+: l.wordText := mt (List.singleton_infix_iff ':' _).mp hcolon
    rw [List.append_nil, Text.splitOnce_eq_none hnone]
    rfl
  · obtain ⟨c, more, hmore⟩ := List.exists_cons_of_ne_nil htext
    have hc : c ≠ ':' := fun hc => h.colon (by rw [hmore, hc]; rfl)
    have hblank : Text.isBlank c = false := h.text.head c (by rw [hmore]; rfl)
    have hfront : ':' ∉ l.wordText ++ [' ', ' ', c] := by simp [hcolon, hc.symm]
    have hbody : l.wordText ++ ' ' :: ' ' :: l.text = (l.wordText ++ [' ', ' ', c]) ++ more := by
      simp [hmore]
    rw [hbody, Text.splitOnce_append_of_not_mem hfront]
    cases Text.splitOnce [':'] more with
    | none => rfl
    | some parts =>
      -- What stands before the colon has the two spaces inside.
      obtain ⟨head, tail⟩ := parts
      have hspace : ' ' ∈ Text.trim (l.wordText ++ ([' ', ' '] ++ c :: head)) :=
        Text.mem_trim htrimmed hne List.mem_cons_self hblank head
      simpa using hspace

/-- The place of a test is got back. -/
theorem placeOf?_front (h : l.IsValid) (next : Address) :
    placeOf? next (l.place ++ l.body) = some (l.start next, l.body) := by
  cases haddress : l.address with
  | none =>
    have hfront : l.place ++ l.body = l.body := by rw [TestLine.place, haddress]; rfl
    rw [placeOf?, hfront, h.splitAddress_body, TestLine.start, haddress]
  | some address =>
    obtain ⟨digits, blanks⟩ := address
    obtain ⟨⟨hne, hlength, hdigits⟩, hblanks⟩ := h.digits digits blanks haddress
    have hsolid := Numeral.isSolid_of_hexDigits hne hdigits
    obtain ⟨value, hvalue⟩ := Option.isSome_iff_exists.mp
      (Numeral.isSome_readHex?_of_length_le hne hdigits hlength)
    have hcolon : ¬ [':'] <:+: digits ++ [':'].dropLast := by
      rw [List.dropLast_singleton, List.append_nil, List.singleton_infix_iff]
      exact fun hmem => absurd (hdigits ':' hmem) (by decide)
    have hspace : ' ' ∉ Text.trim digits := by
      rw [Text.trim_of_isTrimmed hsolid.isTrimmed]
      exact fun hmem => absurd (hdigits ' ' hmem) (by decide)
    have hfront : l.place ++ l.body = digits ++ ([':'] ++ (blanks ++ l.body)) := by
      rw [TestLine.place, haddress]
      simp
    have hsplit : splitAddress (l.place ++ l.body) = some (digits, blanks ++ l.body) := by
      rw [splitAddress, hfront, Text.splitOnce_append (by simp) hcolon]
      simp [hspace]
    have hstart : l.start next = value := by simp [TestLine.start, haddress, hvalue]
    rw [placeOf?, hsplit, hstart]
    simp only [Text.trim_of_isTrimmed hsolid.isTrimmed, hvalue, Option.map_some,
      Text.trimStart_append hblanks, Text.trimStart_of_head h.isTrimmed_body.1.head]

/-- The words of a test are got back from its body, and so is the text. -/
theorem splitOnce_spaces (h : l.IsValid) :
    (Text.splitOnce [' ', ' '] l.body).getD (l.body, []) = (l.wordText, l.text) := by
  have hspaces := Text.not_spaces_infix_intercalate h.hasWords h.isSolid
  rw [TestLine.body, TestLine.wordText]
  split_ifs with htext
  · have hnone : ¬ [' ', ' '] <:+: [' '].intercalate l.words := fun hspaced =>
      hspaces (hspaced.trans (List.prefix_append _ _).isInfix)
    rw [List.append_nil, Text.splitOnce_eq_none hnone, htext]
    rfl
  · have hbody : [' '].intercalate l.words ++ ' ' :: ' ' :: l.text =
        [' '].intercalate l.words ++ ([' ', ' '] ++ l.text) := rfl
    rw [hbody, Text.splitOnce_append (by simp) hspaces]
    rfl

/-- A valid line has bytes. -/
theorem length_bytes_pos (h : l.IsValid) : 0 < l.bytes.length := by
  obtain ⟨word, rest, hwords⟩ := List.exists_cons_of_ne_nil h.hasWords
  have hword := (wordBytes?_of_isWord (h.words word (by simp [hwords]))).2
  rw [TestLine.bytes, hwords, List.flatMap_cons, List.length_append]
  omega

end TestLine.IsValid

namespace Reader

variable {r : Reader} {l : TestLine}

/-- A line with a place is read on behind its address. -/
theorem readLine_of_placeOf? {text body : List Char} {address : Address} (t : Test)
    (comment : List Char) (h : placeOf? r.nextAddress text = some (address, body)) :
    r.readLine t text comment =
      r.readBody { t with line := r.line, comment := Text.trim comment, address } body := by
  cases hsplit : splitAddress text with
  | none =>
    simp only [placeOf?, hsplit, Option.some.injEq] at h
    cases h
    simp only [readLine, hsplit]
  | some parts =>
    simp only [placeOf?, hsplit] at h
    obtain ⟨value, hvalue, hparts⟩ := Option.map_eq_some_iff.mp h
    cases hparts
    simp only [readLine, hsplit, hvalue]

/-- The words and the text of a valid line are read. -/
theorem readBody_of_isValid (hl : l.IsValid) {t : Test} (hbytes : t.bytes = [])
    (hroom : t.address.toNat + l.bytes.length < sizeLimit) :
    r.readBody t l.body =
      .ok (.ok (), { r with nextAddress := t.address + BitVec.ofNat 64 l.bytes.length },
        { t with bytes := l.bytes, expected := l.text }) := by
  have hwords : Text.words l.wordText = l.words := Text.words_intercalate hl.isSolid
  have hread : readWords t.bytes l.words = .ok (l.bytes, none) := by
    rw [readWords_eq_flatMap hl.words, hbytes]
    rfl
  have hne : l.bytes.isEmpty = false := by
    simpa using List.ne_nil_of_length_pos hl.length_bytes_pos
  have hnext : t.address.advance l.bytes.length =
      .ok (t.address + BitVec.ofNat 64 l.bytes.length) := Address.advance_eq_ok.mpr ⟨hroom, rfl⟩
  simp only [readBody, hl.splitOnce_spaces, hwords, hread, ok_bind, hne, hnext,
    Text.trim_of_isTrimmed hl.text]
  rfl

/-- A valid line is read as the test that is written on it, also with blanks in front of it. -/
theorem next_of_indented (hl : l.IsValid) {indent : List Char}
    (hindent : ∀ c ∈ indent, Text.isBlank c = true) {rest : List (List Char)}
    (hrest : r.rest = (indent ++ l.chars) :: rest)
    (hroom : (l.start r.nextAddress).toNat + l.bytes.length < sizeLimit) (t : Test) :
    r.next t =
      .ok (.ok true,
        { r with
          rest
          line := r.line + 1
          nextAddress := l.start r.nextAddress + BitVec.ofNat 64 l.bytes.length },
        l.test (r.line + 1) r.nextAddress) := by
  obtain ⟨htrimmed, hne⟩ := hl.isTrimmed_front
  obtain ⟨blanks, hblanks, hslashes⟩ := hl.splitOnce_slashes
  have hslash : '/' ∉ indent := fun hmem => absurd (hindent '/' hmem) (by decide)
  have hcut : (Text.splitOnce ['/', '/'] (indent ++ l.chars)).getD (indent ++ l.chars, []) =
      (indent ++ (l.place ++ l.body ++ blanks), (l.comment.map Prod.snd).getD []) := by
    let indented : List Char × List Char → List Char × List Char := fun parts =>
      (indent ++ parts.1, parts.2)
    have hmap := Option.getD_map indented (l.chars, []) (Text.splitOnce ['/', '/'] l.chars)
    rw [Text.splitOnce_append_of_not_mem hslash]
    exact hmap.trans (congrArg indented hslashes)
  have htrim : Text.trim (indent ++ (l.place ++ l.body ++ blanks)) = l.place ++ l.body := by
    rw [Text.trim, Text.trimStart_append hindent]
    exact Text.trim_append_blanks htrimmed hne hblanks
  have hempty : (l.place ++ l.body).isEmpty = false := by simpa using hne
  let here : Reader := { r with rest, line := r.line + 1 }
  have hplace : placeOf? here.nextAddress (l.place ++ l.body) =
      some (l.start r.nextAddress, l.body) := hl.placeOf?_front r.nextAddress
  have hline := (readLine_of_placeOf? { t with bytes := [] } ((l.comment.map Prod.snd).getD [])
    hplace).trans (readBody_of_isValid hl rfl hroom)
  rw [next, hrest, nextFrom]
  simp only [hcut, htrim, hempty, if_neg Bool.false_ne_true]
  exact bind_eq_ok.mpr ⟨_, hline, rfl⟩

/-- A valid line is read as the test that is written on it. -/
theorem next_of_isValid (hl : l.IsValid) {rest : List (List Char)}
    (hrest : r.rest = l.chars :: rest)
    (hroom : (l.start r.nextAddress).toNat + l.bytes.length < sizeLimit) (t : Test) :
    r.next t =
      .ok (.ok true,
        { r with
          rest
          line := r.line + 1
          nextAddress := l.start r.nextAddress + BitVec.ofNat 64 l.bytes.length },
        l.test (r.line + 1) r.nextAddress) :=
  next_of_indented hl (List.forall_mem_nil _) hrest hroom t

end Reader

/-- Valid lines in a row are read as the tests that are written on them, and then the end is
found. -/
theorem testsFrom_of_isValid {ls : List TestLine} (hvalid : ∀ l ∈ ls, l.IsValid) {r : Reader}
    (hrest : r.rest = ls.map TestLine.chars) (hfit : TestLine.Fit r.nextAddress ls) {fuel : Nat}
    (hfuel : ls.length < fuel) (t : Test) :
    testsFrom fuel r t = (TestLine.tests r.line r.nextAddress ls, .ok (.ok ())) := by
  induction ls generalizing r fuel t with
  | nil =>
    obtain ⟨fuel, rfl⟩ := Nat.exists_eq_add_one_of_ne_zero (Nat.ne_of_gt hfuel)
    have hend : r.next t = .ok (.ok false, { r with rest := [] }, { t with bytes := [] }) := by
      rw [Reader.next, hrest]
      rfl
    rw [testsFrom, hend]
    rfl
  | cons l rest ih =>
    obtain ⟨fuel, rfl⟩ := Nat.exists_eq_add_one_of_ne_zero (Nat.ne_of_gt (Nat.zero_lt_of_lt hfuel))
    obtain ⟨hl, hvalid⟩ := List.forall_mem_cons.mp hvalid
    obtain ⟨hroom, hfit⟩ := hfit
    let after : Reader :=
      { r with
        rest := rest.map TestLine.chars
        line := r.line + 1
        nextAddress := l.start r.nextAddress + BitVec.ofNat 64 l.bytes.length }
    have hlater := ih hvalid (show after.rest = _ from rfl) hfit (Nat.lt_of_succ_lt_succ hfuel)
      (l.test (r.line + 1) r.nextAddress)
    rw [testsFrom, Reader.next_of_isValid hl hrest hroom]
    exact congrArg (fun later => (l.test (r.line + 1) r.nextAddress :: later.1, later.2)) hlater

/-- A file of valid lines holds the tests that are written on them. -/
theorem tests_of_isValid (file : String) {text : List Char} {ls : List TestLine}
    (hlines : Text.lines text = ls.map TestLine.chars) (hvalid : ∀ l ∈ ls, l.IsValid)
    (hfit : TestLine.Fit 0 ls) : tests file text = (TestLine.tests 0 0 ls, .ok (.ok ())) := by
  have hrest : (Reader.start file text).rest = ls.map TestLine.chars := hlines
  refine testsFrom_of_isValid hvalid hrest hfit ?_ _
  rw [hrest, List.length_map]
  exact Nat.lt_succ_self _

end A64Disassembler.TestFile
