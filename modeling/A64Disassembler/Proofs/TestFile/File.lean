import A64Disassembler.Proofs.TestFile.Line

/-!
# A file of tests says what is read from it

A file is made of lines with tests, of blank lines and of lines that hold nothing but a comment, in
any order. Calls of a reader one after another give the tests in the order in which they are
written, and then the end. A test is at the address that is written in front of it, or else behind
the test before it, however many lines without a test are between them. Its bytes are those of its
words, each of which is written with its highest byte first and stored with its lowest byte first.

What a file says is stated with the values of its digits, and not with the functions that read them.
-/

namespace A64Disassembler.TestFile

/-- The bytes that digits stand for which are given from the last one on, two digits for each. -/
def pairBytes : List Char → List UInt8
  | low :: high :: rest =>
    UInt8.ofNat (Numeral.digitValue low + 16 * Numeral.digitValue high) :: pairBytes rest
  | _ => []

/-- The lowest byte of a number comes first, and the others are those of its quotient. -/
theorem lowBytes_succ (count n : Nat) :
    lowBytes (count + 1) n = UInt8.ofNat n :: lowBytes count (n / 256) := by
  rw [lowBytes, List.range_succ_eq_map, List.map_cons, List.map_map]
  refine congrArg (_ :: ·) (List.map_congr_left fun i _ => ?_)
  have hshift : n >>> (8 * (i + 1)) = (n / 256) >>> (8 * i) := by
    rw [Nat.mul_add, Nat.add_comm, Nat.shiftRight_add, Nat.shiftRight_eq_div_pow n]
  exact congrArg UInt8.ofNat hshift

/-- The low bytes of a number are those of its digits in pairs. -/
theorem lowBytes_ofDigits (count : Nat) {digits : List Char} (hlength : digits.length = 2 * count) :
    lowBytes count (Nat.ofDigits 16 (digits.map Numeral.digitValue)) = pairBytes digits := by
  induction count generalizing digits with
  | zero =>
    obtain rfl := List.length_eq_zero_iff.mp hlength
    rfl
  | succ count ih =>
    match digits with
    | [] | [_] =>
      rw [Nat.mul_add] at hlength
      simp at hlength
    | low :: high :: rest =>
      have hrest : rest.length = 2 * count := by simpa [Nat.mul_add] using hlength
      have hlow := Numeral.digitValue_lt low
      have hhigh := Numeral.digitValue_lt high
      rw [List.map_cons, List.map_cons, Nat.ofDigits_cons, Nat.ofDigits_cons, lowBytes_succ,
        pairBytes, ← ih hrest]
      generalize Nat.ofDigits 16 (rest.map Numeral.digitValue) = value
      refine List.cons_eq_cons.mpr ⟨UInt8.toNat_inj.mp ?_, ?_⟩
      · simp only [UInt8.toNat_ofNat']
        omega
      · exact congrArg (lowBytes count) (by omega)

/-- The bytes of a word are those of its digits in pairs, the last pair first. -/
theorem wordBytes_eq_pairBytes {word : List Char} (h : IsWord word) :
    wordBytes word = pairBytes word.reverse := by
  obtain ⟨value, hread, hvalue⟩ :=
    Numeral.exists_readHex?_toNat h.nonempty h.digits h.short
  rw [wordBytes, hread, Option.getD_some, hvalue]
  refine lowBytes_ofDigits _ ?_
  have heven := h.even
  rw [List.length_reverse]
  omega

namespace TestLine

variable (l : TestLine)

/-- The address of the test on a line, if a test without one is at `next`. -/
def origin (next : Nat) : Nat :=
  match l.address with
  | none => next
  | some (digits, _) => Numeral.hexValue digits

/-- The bytes of the test on a line. -/
def content : List UInt8 :=
  l.words.flatMap fun word => pairBytes word.reverse

/-- The test that the line with a number says. -/
def said (line next : Nat) : Test where
  line := line
  comment := Text.trim ((l.comment.map Prod.snd).getD [])
  address := BitVec.ofNat 64 (l.origin next)
  bytes := l.content
  expected := l.text

variable {l}

/-- The bytes of a test are read as they are written. -/
theorem IsValid.bytes_eq (h : l.IsValid) : l.bytes = l.content :=
  List.flatMap_congr fun word hword => wordBytes_eq_pairBytes (h.words word hword)

/-- The address of a test is read as it is written. -/
theorem IsValid.toNat_start (h : l.IsValid) (next : Address) :
    (l.start next).toNat = l.origin next.toNat := by
  cases haddress : l.address with
  | none => rw [start, origin, haddress]
  | some address =>
    obtain ⟨digits, blanks⟩ := address
    obtain ⟨⟨hne, hlength, hdigits⟩, -⟩ := h.digits digits blanks haddress
    obtain ⟨value, hread, hvalue⟩ := Numeral.exists_readHex?_toNat hne hdigits hlength
    rw [start, origin, haddress]
    dsimp only
    rw [hread, Option.getD_some, hvalue]

/-- A test is read as it is written. -/
theorem IsValid.test_eq_said (h : l.IsValid) (line : Nat) (next : Address) :
    l.test line next = l.said line next.toNat := by
  rw [test, said, h.bytes_eq, ← h.toNat_start, BitVec.ofNat_toNat, BitVec.setWidth_eq]

end TestLine

/-- A line of a test file. -/
inductive FileLine
  /-- Nothing but blanks. -/
  | blank (blanks : List Char)
  /-- Blanks, and a comment behind two slashes. -/
  | comment (blanks remark : List Char)
  /-- Blanks, and a test behind them. -/
  | test (blanks : List Char) (test : TestLine)

namespace FileLine

/-- What is written on the line. -/
def chars : FileLine → List Char
  | blank blanks => blanks
  | comment blanks remark => blanks ++ '/' :: '/' :: remark
  | test blanks l => blanks ++ l.chars

/-- Whether the line may be written in a file. -/
def IsValid : FileLine → Prop
  | blank blanks | comment blanks _ => ∀ c ∈ blanks, Text.isBlank c = true
  | test blanks l => (∀ c ∈ blanks, Text.isBlank c = true) ∧ l.IsValid

/-- The tests that lines in a row say, after `line` other lines. The first one is at `next` if it
has no address. -/
def tests : (line next : Nat) → List FileLine → List Test
  | _, _, [] => []
  | line, next, blank _ :: rest | line, next, comment _ _ :: rest => tests (line + 1) next rest
  | line, next, test _ l :: rest =>
    l.said (line + 1) next :: tests (line + 1) (l.origin next + l.content.length) rest

/-- Whether no test on lines in a row reaches the end of the address space. -/
def Fit : (next : Nat) → List FileLine → Prop
  | _, [] => True
  | next, blank _ :: rest | next, comment _ _ :: rest => Fit next rest
  | next, test _ l :: rest =>
    l.origin next + l.content.length < sizeLimit ∧ Fit (l.origin next + l.content.length) rest

end FileLine

namespace Reader

/-- Whether calls one after another read tests, whatever they read into, and then find the end. -/
inductive Yields : Reader → List Test → Prop
  /-- A call finds the end, and so does every one behind it. -/
  | nil {r last : Reader} (hlast : last.rest = [])
      (hnext : ∀ t, r.next t = .ok (.ok false, last, { t with bytes := [] })) : Yields r []
  /-- A call reads a test, and those behind it read the others. -/
  | cons {r r' : Reader} {test : Test} {tests : List Test}
      (hnext : ∀ t, r.next t = .ok (.ok true, r', test)) (hrest : Yields r' tests) :
      Yields r (test :: tests)

variable {r r' : Reader}

/-- A line without anything in front of its comment is counted, and nothing else. -/
theorem next_of_lineText {line : List Char} {rest : List (List Char)}
    (hrest : r.rest = line :: rest) (hline : lineText line = []) (t : Test) :
    r.next t = ({ r with rest, line := r.line + 1 } : Reader).next t := by
  rw [next, next, hrest, nextFrom]
  change (if (lineText line).isEmpty then _ else _) = _
  rw [hline]
  exact if_pos rfl

/-- The tests behind such a line are those that are read from it on. -/
theorem Yields.of_lineText {line : List Char} {rest : List (List Char)} {tests : List Test}
    (hrest : r.rest = line :: rest) (hline : lineText line = [])
    (h : ({ r with rest, line := r.line + 1 } : Reader).Yields tests) : r.Yields tests := by
  have hsame := r.next_of_lineText hrest hline
  cases h with
  | nil hlast hend => exact .nil hlast fun t => (hsame t).trans (hend t)
  | cons htest hlater => exact .cons (fun t => (hsame t).trans (htest t)) hlater

end Reader

/-- There is nothing in front of a comment but blanks. -/
theorem lineText_comment {blanks : List Char} (hblanks : ∀ c ∈ blanks, Text.isBlank c = true)
    (remark : List Char) : lineText (blanks ++ '/' :: '/' :: remark) = [] := by
  have hslash : '/' ∉ blanks := fun hmem => absurd (hblanks '/' hmem) (by decide)
  have hcut : Text.splitOnce ['/', '/'] (blanks ++ '/' :: '/' :: remark) =
      some (blanks, remark) := by
    rw [Text.splitOnce_append_of_not_mem hslash, Text.splitOnce]
    simp
  rw [lineText, hcut]
  exact Text.trim_of_blanks hblanks

/-- There is nothing on a line of blanks. -/
theorem lineText_blank {blanks : List Char} (hblanks : ∀ c ∈ blanks, Text.isBlank c = true) :
    lineText blanks = [] := by
  have hnone : ¬ ['/', '/'] <:+: blanks := fun hslashes =>
    absurd (hblanks '/' (hslashes.mem List.mem_cons_self)) (by decide)
  rw [lineText, Text.splitOnce_eq_none hnone]
  exact Text.trim_of_blanks hblanks

/-- Calls read the tests that lines in a row say. -/
theorem Reader.yields_of_isValid {ls : List FileLine} (hvalid : ∀ l ∈ ls, l.IsValid) {r : Reader}
    (hrest : r.rest = ls.map FileLine.chars) (hfit : FileLine.Fit r.nextAddress.toNat ls) :
    r.Yields (FileLine.tests r.line r.nextAddress.toNat ls) := by
  induction ls generalizing r with
  | nil =>
    have hend : ({ r with rest := [] } : Reader).rest = [] := rfl
    refine .nil hend fun t => ?_
    rw [next, hrest]
    rfl
  | cons l rest ih =>
    obtain ⟨hl, hothers⟩ := List.forall_mem_cons.mp hvalid
    let skipped : Reader := { r with rest := rest.map FileLine.chars, line := r.line + 1 }
    cases l with
    | blank blanks =>
      have hlater := ih hothers (show skipped.rest = _ from rfl) hfit
      exact .of_lineText hrest (lineText_blank hl) hlater
    | comment blanks remark =>
      have hlater := ih hothers (show skipped.rest = _ from rfl) hfit
      exact .of_lineText hrest (lineText_comment hl remark) hlater
    | test blanks l =>
      obtain ⟨hblanks, hl⟩ := hl
      obtain ⟨hroom, hfit⟩ := hfit
      rw [← hl.toNat_start, ← hl.bytes_eq] at hroom hfit
      let after : Reader :=
        { skipped with nextAddress := l.start r.nextAddress + BitVec.ofNat 64 l.bytes.length }
      have hbehind : after.nextAddress.toNat = (l.start r.nextAddress).toNat + l.bytes.length :=
        Address.toNat_add hroom
      have hlater := ih hothers (show after.rest = _ from rfl) (hbehind ▸ hfit)
      rw [hbehind, hl.toNat_start, hl.bytes_eq] at hlater
      rw [FileLine.tests, ← hl.test_eq_said]
      exact .cons (next_of_indented hl hblanks hrest hroom) hlater

/-- A reader reads what a file says. The file is made of blank lines, of lines with a comment only
and of lines with a test, and no test reaches the end of the address space. Calls one after another
read the tests in their order, each with the number of its line, its bytes, its text, its comment
without blanks around it, and its address, which is behind the test before it if none is written.
Then they find the end. -/
theorem Reader.start_yields_tests (file : String) {text : List Char} {ls : List FileLine}
    (htext : Text.HasLines text (ls.map FileLine.chars)) (hvalid : ∀ l ∈ ls, l.IsValid)
    (hfit : FileLine.Fit 0 ls) : (Reader.start file text).Yields (FileLine.tests 0 0 ls) :=
  Reader.yields_of_isValid hvalid htext.lines_eq hfit

/-- A comment, a blank line, and two tests: one with an address and a colon in its text, and behind
it one that is the last line of the file and has no line feed. -/
theorem Reader.start_yields_two_tests :
    let text := "// flags\n \n1000: d503201f 91004020  a: b  c/d // two\r\n      d65f03c0".toList
    let first : TestLine :=
      { address := some ("1000".toList, [' ']), words := ["d503201f".toList, "91004020".toList],
        text := "a: b  c/d".toList, comment := some ([' '], " two".toList) }
    let second : TestLine := { words := ["d65f03c0".toList] }
    let ls : List FileLine :=
      [.comment [] " flags".toList, .blank [' '], .test [] first,
        .test (List.replicate 6 ' ') second]
    Text.HasLines text (ls.map FileLine.chars) ∧ (∀ l ∈ ls, l.IsValid) ∧ FileLine.Fit 0 ls ∧
      (Reader.start "input" text).Yields
        [{ line := 3, comment := "two".toList, address := 0x1000,
           bytes := [0x1f, 0x20, 0x03, 0xd5, 0x20, 0x40, 0x00, 0x91],
           expected := "a: b  c/d".toList },
         { line := 4, address := 0x1008, bytes := [0xc0, 0x03, 0x5f, 0xd6] }] := by
  intro text first second ls
  have htext : Text.HasLines text (ls.map FileLine.chars) :=
    Text.hasLines_iff.mpr (by decide +kernel)
  have hfirst : first.IsValid :=
    { digits := by
        rintro digits blanks haddress
        cases haddress
        exact ⟨⟨by decide, by decide, List.all_eq_true.mp rfl⟩, List.all_eq_true.mp rfl⟩
      hasWords := List.cons_ne_nil _ _
      words := by
        rintro word hword
        rcases List.mem_pair.mp hword with rfl | rfl <;>
          exact ⟨by decide, by decide, List.all_eq_true.mp rfl, by decide⟩
      text := ⟨fun c hc => by cases hc; rfl, fun c hc => by cases hc; rfl⟩
      colon := by decide
      slashes := by decide
      comment := by
        rintro blanks remark hcomment
        cases hcomment
        exact ⟨by decide, List.all_eq_true.mp rfl⟩ }
  have hsecond : second.IsValid :=
    { digits := nofun
      hasWords := List.cons_ne_nil _ _
      words := List.forall_mem_singleton.mpr
        ⟨by decide, by decide, List.all_eq_true.mp rfl, by decide⟩
      text := ⟨nofun, nofun⟩
      colon := by decide
      slashes := by decide
      comment := nofun }
  have hvalid : ∀ l ∈ ls, l.IsValid := by
    have hspaces : ∀ c ∈ List.replicate 6 ' ', Text.isBlank c = true := fun c =>
      Text.isBlank_of_mem_replicate
    simp only [ls, List.forall_mem_cons, FileLine.IsValid]
    exact ⟨List.forall_mem_nil _, ⟨rfl, List.forall_mem_nil _⟩, ⟨List.forall_mem_nil _, hfirst⟩,
      ⟨hspaces, hsecond⟩, List.forall_mem_nil _⟩
  have hfit : FileLine.Fit 0 ls := ⟨by decide +kernel, by decide +kernel, trivial⟩
  exact ⟨htext, hvalid, hfit, Reader.start_yields_tests "input" htext hvalid hfit⟩

end A64Disassembler.TestFile
