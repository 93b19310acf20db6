import A64Disassembler.Proofs.Fault
import A64Disassembler.Proofs.Text.Numeral
import A64Disassembler.TestFile.Reader

/-!
# Reading a test file never fails, but for two kinds of lines

Every call of a reader has an answer: a test, an error, or the end. There are two exceptions. A word
with zeroes in front of sixteen digits passes all checks of a word and still has more bytes than a
number of 64 bits. A test that fills the address space to its end leaves no address for the next
one. As a call takes at least one line, the end is found after at most as many calls as there are
lines, and one more.
-/

namespace A64Disassembler.TestFile

/-- An even number of hexadecimal digits, for at most eight bytes. -/
structure IsWord (text : List Char) : Prop where
  nonempty : text ≠ []
  even : text.length % 2 = 0
  digits : ∀ c ∈ text, (Numeral.hexDigit? c).isSome
  short : text.length ≤ 16

/-- An even number of hexadecimal digits, for more than eight bytes, of which all but the last eight
are zero. -/
structure IsOverlong (text : List Char) : Prop where
  even : text.length % 2 = 0
  digits : ∀ c ∈ text, (Numeral.hexDigit? c).isSome
  long : 16 < text.length
  zeroes : ∀ c ∈ text.take (text.length - 16), c = '0'

/-- The number of bytes that words stand for. -/
def byteCount : List (List Char) → Nat
  | [] => 0
  | text :: rest => text.length / 2 + byteCount rest

/-- The first text that is no word is an overlong number. -/
def HasOverlong : List (List Char) → Prop
  | [] => False
  | text :: rest => IsOverlong text ∨ IsWord text ∧ HasOverlong rest

/-- Why a test with these words at an address is not read to its end. -/
inductive Stops (address : Address) (words : List (List Char)) : Fault → Prop
  /-- A number has more digits than a word. -/
  | overlong (hwords : HasOverlong words) : Stops address words .outOfBounds
  /-- The address behind the last byte is no address. -/
  | top (hwords : ∀ word ∈ words, IsWord word)
      (htop : sizeLimit ≤ address.toNat + byteCount words) : Stops address words .overflow

/-- The part of a line in front of its comment, without blanks around it. -/
def lineText (line : List Char) : List Char :=
  Text.trim ((Text.splitOnce ['/', '/'] line).getD (line, [])).1

/-- The words in the text of a test. -/
def bodyWords (text : List Char) : List (List Char) :=
  Text.words ((Text.splitOnce [' ', ' '] text).getD (text, [])).1

/-- The address of the test in a line and the text after it. A line without an address has the
next one. -/
def placeOf? (next : Address) (text : List Char) : Option (Address × List Char) :=
  match splitAddress text with
  | none => some (next, text)
  | some (head, tail) => (Numeral.readHex? (Text.trim head)).map fun address =>
      (address, Text.trimStart tail)

/-- The next line that is not blank has a test that is not read to its end. -/
def Reader.Stops (r : Reader) (f : Fault) : Prop :=
  ∃ line place, r.rest.find? (fun line => !(lineText line).isEmpty) = some line ∧
    placeOf? r.nextAddress (lineText line) = some place ∧
    TestFile.Stops place.1 (bodyWords place.2) f

/-- Calls one after another, whatever tests they read into, with their answers. -/
inductive Calls : Reader → List (Except Error Bool) → Reader → Prop
  | nil {r : Reader} : Calls r [] r
  | cons {r r' last : Reader} {t t' : Test} {answer : Except Error Bool}
      {answers : List (Except Error Bool)} (hnext : r.next t = .ok (answer, r', t'))
      (hrest : Calls r' answers last) : Calls r (answer :: answers) last

/-- The three kinds of texts: words, those that are refused, and overlong numbers. -/
theorem wordBytes?_cases (text : List Char) :
    (∃ bytes, wordBytes? text = .ok (some bytes) ∧ bytes.length = text.length / 2 ∧
      IsWord text) ∨
    (wordBytes? text = .ok none ∧ ¬ IsWord text ∧ ¬ IsOverlong text) ∨
    (wordBytes? text = .error .outOfBounds ∧ ¬ IsWord text ∧ IsOverlong text) := by
  unfold wordBytes?
  split
  case isFalse hdigits =>
    refine .inr (.inl ⟨rfl, fun h => hdigits ⟨h.even, ?_⟩, fun h => hdigits ⟨h.even, ?_⟩⟩)
    · exact List.all_eq_true.mpr h.digits
    · exact List.all_eq_true.mpr h.digits
  case isTrue hdigits =>
    obtain ⟨heven, hdigits⟩ := hdigits
    have hdigits : ∀ c ∈ text, (Numeral.hexDigit? c).isSome := List.all_eq_true.mp hdigits
    split
    case h_1 hread =>
      refine .inr (.inl ⟨rfl, fun h => ?_, fun h => ?_⟩)
      · have hsome := Numeral.isSome_readHex?_of_length_le h.nonempty hdigits h.short
        simp [hread] at hsome
      · have hsome := (Numeral.isSome_readHex?_iff hdigits h.long).mpr h.zeroes
        simp [hread] at hsome
    case h_2 value hread =>
      have hne : text ≠ [] := by
        rintro rfl
        cases hread
      split
      case isTrue hshort =>
        exact .inl ⟨_, rfl, by simp [lowBytes], hne, heven, hdigits, by omega⟩
      case isFalse hlong =>
        have hlong : 16 < text.length := by omega
        have hzeroes := (Numeral.isSome_readHex?_iff hdigits hlong).mp (by simp [hread])
        exact .inr (.inr ⟨rfl, fun h => absurd h.short (by omega), heven, hdigits, hlong,
          hzeroes⟩)

/-- Texts after each other are read with a fault if and only if one is overlong and only words are
in front of it. -/
theorem readWords_eq_error {words : List (List Char)} {bytes : List UInt8} {f : Fault} :
    readWords bytes words = .error f ↔ f = .outOfBounds ∧ HasOverlong words := by
  induction words generalizing bytes with
  | nil => simp [readWords, HasOverlong]
  | cons text rest ih =>
    rw [readWords, HasOverlong]
    obtain ⟨more, hread, -, hword⟩ | ⟨hread, hword, hoverlong⟩ | ⟨hread, hword, hoverlong⟩ :=
      wordBytes?_cases text
    · have hoverlong : ¬ IsOverlong text := fun h => absurd h.long (by have := hword.short; omega)
      simp only [hread, hword, hoverlong, false_or, true_and]
      exact ih
    · simp only [hread, hword, hoverlong, false_or, false_and, and_false, iff_false]
      exact fun h => nomatch h
    · simp only [hread, hoverlong, true_or, and_true]
      exact ⟨fun h => (Except.error.inj h).symm, fun h => h ▸ rfl⟩

/-- Words are read without a problem. -/
theorem exists_readWords {words : List (List Char)} (hwords : ∀ word ∈ words, IsWord word)
    (bytes : List UInt8) : ∃ all, readWords bytes words = .ok (all, none) := by
  induction words generalizing bytes with
  | nil => exact ⟨bytes, rfl⟩
  | cons text rest ih =>
    obtain ⟨hword, hrest⟩ := List.forall_mem_cons.mp hwords
    obtain ⟨more, hread, -, -⟩ | ⟨-, hno, -⟩ | ⟨-, hno, -⟩ := wordBytes?_cases text
    · obtain ⟨all, hall⟩ := ih hrest (bytes ++ more)
      exact ⟨all, by rw [readWords, hread]; exact hall⟩
    · exact absurd hword hno
    · exact absurd hword hno

/-- What is read without a problem are words, and they have half as many bytes as digits. -/
theorem words_of_readWords {words : List (List Char)} {bytes all : List UInt8}
    (h : readWords bytes words = .ok (all, none)) :
    (∀ word ∈ words, IsWord word) ∧ all.length = bytes.length + byteCount words := by
  induction words generalizing bytes with
  | nil =>
    cases h
    simp [byteCount]
  | cons text rest ih =>
    rw [readWords] at h
    obtain ⟨more, hread, hmore, hword⟩ | ⟨hread, -, -⟩ | ⟨hread, -, -⟩ := wordBytes?_cases text
    · rw [hread] at h
      obtain ⟨hrest, hlength⟩ := ih h
      refine ⟨List.forall_mem_cons.mpr ⟨hword, hrest⟩, ?_⟩
      rw [hlength, List.length_append, hmore, byteCount, Nat.add_assoc]
    · rw [hread] at h
      cases h
    · rw [hread] at h
      cases h

namespace Reader

variable {r : Reader} {t : Test} {f : Fault}

/-- The body of a test is read with a fault if and only if the test stops the reader. -/
theorem readBody_eq_error (hbytes : t.bytes = []) (text : List Char) :
    r.readBody t text = .error f ↔ TestFile.Stops t.address (bodyWords text) f := by
  unfold readBody
  change (readWords t.bytes (bodyWords text) >>= _) = _ ↔ _
  rw [hbytes, bind_eq_error, readWords_eq_error]
  constructor
  · rintro (⟨rfl, hoverlong⟩ | ⟨⟨bytes, problem⟩, hread, h⟩)
    · exact .overlong hoverlong
    · cases problem with
      | some p => cases h
      | none =>
        obtain ⟨hwords, hlength⟩ := words_of_readWords hread
        dsimp only at h
        split at h
        · cases h
        · rcases bind_eq_error.mp h with h | ⟨_, -, h⟩
          · obtain ⟨rfl, htop⟩ := Address.advance_eq_error.mp h
            rw [hlength] at htop
            exact .top hwords (by simpa using htop)
          · cases h
  · rintro (hoverlong | ⟨hwords, htop⟩)
    · exact .inl ⟨rfl, hoverlong⟩
    · obtain ⟨bytes, hread⟩ := exists_readWords hwords []
      obtain ⟨-, hlength⟩ := words_of_readWords hread
      rw [List.length_nil, Nat.zero_add] at hlength
      refine .inr ⟨_, hread, ?_⟩
      have hne : bytes.isEmpty = false := by
        cases bytes with
        | nil =>
          have hlt : t.address.toNat < sizeLimit := t.address.isLt
          rw [← hlength, List.length_nil] at htop
          omega
        | cons => rfl
      dsimp only
      rw [hne, if_neg Bool.false_ne_true]
      exact bind_eq_error.mpr (.inl (Address.advance_eq_error.mpr ⟨rfl, hlength ▸ htop⟩))

/-- A line is read with a fault if and only if it has an address, or needs none, and its test stops
the reader there. -/
theorem readLine_eq_error (hbytes : t.bytes = []) (text comment : List Char) :
    r.readLine t text comment = .error f ↔ ∃ place,
      placeOf? r.nextAddress text = some place ∧
      TestFile.Stops place.1 (bodyWords place.2) f := by
  unfold readLine placeOf?
  cases splitAddress text with
  | none =>
    dsimp only
    rw [readBody_eq_error (by exact hbytes)]
    simp
  | some parts =>
    obtain ⟨head, tail⟩ := parts
    dsimp only
    cases Numeral.readHex? (Text.trim head) with
    | none => simp
    | some address =>
      dsimp only
      rw [readBody_eq_error (by exact hbytes)]
      simp

/-- Reading the body of a test takes no line. -/
theorem rest_of_readBody {text : List Char} {result : Except Problem Unit} {r' : Reader} {t' : Test}
    (h : r.readBody t text = .ok (result, r', t')) : r'.rest = r.rest := by
  unfold readBody at h
  obtain ⟨⟨bytes, problem⟩, -, h⟩ := bind_eq_ok.mp h
  cases problem with
  | some p =>
    cases h
    rfl
  | none =>
    dsimp only at h
    split at h
    · cases h
      rfl
    · obtain ⟨nextAddress, -, h⟩ := bind_eq_ok.mp h
      cases h
      rfl

/-- Reading the text of a line takes no further line. -/
theorem rest_of_readLine {text comment : List Char} {result : Except Problem Unit} {r' : Reader}
    {t' : Test} (h : r.readLine t text comment = .ok (result, r', t')) : r'.rest = r.rest := by
  unfold readLine at h
  dsimp only at h
  split at h
  · exact rest_of_readBody h
  · split at h
    · cases h
      rfl
    · exact rest_of_readBody h

/-- Reading fails at the first line that is not blank, if it is one that stops the reader. -/
theorem nextFrom_eq_error (hbytes : t.bytes = []) (r : Reader) (lines : List (List Char)) :
    nextFrom t r lines = .error f ↔ ∃ line place,
      lines.find? (fun line => !(lineText line).isEmpty) = some line ∧
      placeOf? r.nextAddress (lineText line) = some place ∧
      TestFile.Stops place.1 (bodyWords place.2) f := by
  induction lines generalizing r with
  | nil => simp [nextFrom]
  | cons line rest ih =>
    rw [nextFrom, List.find?_cons]
    change (if (lineText line).isEmpty then _ else _) = _ ↔ _
    cases hblank : (lineText line).isEmpty with
    | true => exact ih _
    | false =>
      rw [if_neg Bool.false_ne_true, bind_eq_error, readLine_eq_error hbytes]
      simp only [Bool.not_false, Option.some.injEq, exists_and_left, exists_eq_left']
      refine or_iff_left ?_
      rintro ⟨⟨result, r', t'⟩, -, h⟩
      cases result <;> cases h

/-- A call takes at least one line, or it reaches the end. -/
theorem length_of_nextFrom {r' : Reader} {t' : Test} {answer : Except Error Bool} (r : Reader)
    (lines : List (List Char)) (h : nextFrom t r lines = .ok (answer, r', t')) :
    answer = .ok false ∨ r'.rest.length < lines.length := by
  induction lines generalizing r with
  | nil =>
    cases h
    exact .inl rfl
  | cons line rest ih =>
    rw [nextFrom] at h
    dsimp only at h
    split at h
    · exact (ih _ h).imp_right Nat.lt_succ_of_lt
    · obtain ⟨⟨result, r'', t''⟩, hread, h⟩ := bind_eq_ok.mp h
      have hrest : r''.rest = rest := rest_of_readLine hread
      refine .inr ?_
      cases result with
      | ok =>
        cases h
        rw [hrest]
        exact Nat.lt_succ_self _
      | error p =>
        cases h
        rw [hrest]
        exact Nat.lt_succ_self _

/-- A call fails if and only if the next line that is not blank stops the reader. -/
theorem next_eq_error (r : Reader) (t : Test) : r.next t = .error f ↔ r.Stops f :=
  nextFrom_eq_error rfl r r.rest

end Reader

namespace Calls

variable {r last : Reader} {answers : List (Except Error Bool)}

/-- One more call after others. -/
theorem snoc {last' : Reader} {t t' : Test} {answer : Except Error Bool}
    (h : Calls r answers last) (hnext : last.next t = .ok (answer, last', t')) :
    Calls r (answers ++ [answer]) last' := by
  induction h with
  | nil => exact .cons hnext .nil
  | cons hfirst _ ih => exact .cons hfirst (ih hnext)

/-- The first calls of a sequence are a sequence. -/
theorem exists_take (h : Calls r answers last) (count : Nat) :
    ∃ last', Calls r (answers.take count) last' := by
  induction h generalizing count with
  | nil => exact ⟨_, by rw [List.take_nil]; exact .nil⟩
  | cons hnext _ ih =>
    cases count with
    | zero => exact ⟨_, .nil⟩
    | succ count =>
      obtain ⟨last', hlast⟩ := ih count
      exact ⟨last', .cons hnext hlast⟩

/-- Without an end, every call has taken a line of its own. -/
theorem length_le (h : Calls r answers last) (hend : .ok false ∉ answers) :
    last.rest.length + answers.length ≤ r.rest.length := by
  induction h with
  | nil => exact Nat.le_refl _
  | cons hnext _ ih =>
    rw [List.mem_cons, not_or] at hend
    rcases Reader.length_of_nextFrom _ _ hnext with hfirst | hless
    · exact absurd hfirst.symm hend.1
    · have hle := ih hend.2
      rw [List.length_cons]
      omega

/-- More calls than lines find the end among the first of them. -/
theorem end_mem_take (h : Calls r answers last) (hmany : r.rest.length < answers.length) :
    .ok false ∈ answers.take (r.rest.length + 1) := by
  refine Classical.byContradiction fun hend => ?_
  obtain ⟨last', hfirst⟩ := h.exists_take (r.rest.length + 1)
  have hle := hfirst.length_le hend
  rw [List.length_take] at hle
  omega

/-- Any number of calls can be made, unless a line stops the reader before. -/
theorem exists_of_length (r : Reader) (count : Nat) :
    (∃ answers last, Calls r answers last ∧ answers.length = count) ∨
    ∃ answers last f, Calls r answers last ∧ answers.length < count ∧ last.Stops f := by
  induction count with
  | zero => exact .inl ⟨[], r, .nil, rfl⟩
  | succ count ih =>
    rcases ih with ⟨answers, last, hcalls, hlength⟩ | ⟨answers, last, f, hcalls, hless, hstops⟩
    · match hnext : last.next {} with
      | .ok (answer, last', t') =>
        exact .inl ⟨_, last', hcalls.snoc hnext, by rw [List.length_append, hlength]; rfl⟩
      | .error f =>
        exact .inr ⟨answers, last, f, hcalls, by omega, (last.next_eq_error {}).mp hnext⟩
    · exact .inr ⟨answers, last, f, hcalls, Nat.lt_succ_of_lt hless, hstops⟩

end Calls

/-- For every file, any number of calls in a row is answered, and the end is found after at most as
many calls as the file has lines and one more, whatever errors are found before. Only a line with
an overlong number or a test at the end of the address space keeps a call from its answer. -/
theorem calls_have_answers (file : String) (text : List Char) :
    (∀ count, (∃ answers r, Calls (.start file text) answers r ∧ answers.length = count) ∨
      ∃ answers r f, Calls (.start file text) answers r ∧ answers.length < count ∧ r.Stops f) ∧
    ∀ answers r, Calls (.start file text) answers r →
      (∀ t f, r.next t = .error f ↔ r.Stops f) ∧
      ((Text.lines text).length < answers.length →
        .ok false ∈ answers.take ((Text.lines text).length + 1)) := by
  refine ⟨Calls.exists_of_length _, fun answers r hcalls => ⟨fun t f => r.next_eq_error t, ?_⟩⟩
  exact hcalls.end_mem_take

/-- After an error in the first of two lines, the test in the second one is read, and then the
end. -/
theorem calls_after_invalid_address :
    let text := "xyz: 00  nop\n1000: d503201f  nop".toList
    let answers : List (Except Error Bool) :=
      [.error { file := "input", line := 1, problem := .invalidAddress "xyz".toList }, .ok true,
        .ok false]
    ∃ r, Calls (.start "input" text) answers r ∧ (Text.lines text).length < answers.length ∧
      (∀ t f, r.next t = .error f ↔ r.Stops f) ∧
      .ok false ∈ answers.take ((Text.lines text).length + 1) := by
  intro text answers
  obtain ⟨r, hcalls⟩ : ∃ r, Calls (.start "input" text) answers r :=
    ⟨{ file := "input", rest := [], line := 2, nextAddress := 0x1004 },
      .cons (t := {}) rfl (.cons (t := {}) rfl (.cons (t := {}) rfl .nil))⟩
  have hmany : (Text.lines text).length < answers.length := by decide
  obtain ⟨hstops, hend⟩ := (calls_have_answers "input" text).2 answers r hcalls
  exact ⟨r, hcalls, hmany, hstops, hend hmany⟩

/-- Zeroes in front of sixteen digits keep a call from its answer, and so does a test that fills the
address space to its end. -/
theorem next_without_answer :
    (Reader.start "input" "000000000000000001  zeros".toList).next {} = .error .outOfBounds ∧
    (Reader.start "input" "ffffffffffffffff: 00  top".toList).next {} = .error .overflow :=
  ⟨rfl, rfl⟩

end A64Disassembler.TestFile
