import A64Disassembler.Proofs.Fault
import A64Disassembler.Cursor
import Mathlib.Tactic.SplitIfs

/-!
# Reading in a row stays inside the data

Calls one after another read the data from the start, without a gap and without reading a byte
twice. A call gets its bytes if and only if so many are left, and a call that does not get them
leaves the cursor where it was. There is one exception: the position behind the bytes is computed
before it is compared with the end of the data, so a call for more bytes than there are addresses
behind the cursor is not answered at all.
-/

namespace A64Disassembler

/-- The bytes of a word in memory. -/
def Endian.bytes (order : Endian) (w : Word) : List UInt8 :=
  let ascending := (List.range 4).map fun i => UInt8.ofBitVec (w.extractLsb' (8 * i) 8)
  match order with
  | .little => ascending
  | .big => ascending.reverse

/-- The byte that is put behind a word is its lowest one. -/
theorem extractLsb'_append_byte_zero (w : Word) (byte : BitVec 8) :
    (w <<< 8 ||| byte.setWidth 32).extractLsb' 0 8 = byte := by
  refine BitVec.eq_of_getLsbD_eq fun i hi => ?_
  have hword : i < 32 := by omega
  simp [hi, hword]

/-- A byte that is put behind a word moves the others up. -/
theorem extractLsb'_append_byte (w : Word) (byte : BitVec 8) {n : Nat} (hn : n + 16 ≤ 32) :
    (w <<< 8 ||| byte.setWidth 32).extractLsb' (n + 8) 8 = w.extractLsb' n 8 := by
  refine BitVec.eq_of_getLsbD_eq fun i hi => ?_
  have hword : n + 8 + i < 32 := by omega
  have hmoved : n + 8 + i - 8 = n + i := by omega
  have hbyte : byte.getLsbD (n + 8 + i) = false := BitVec.getLsbD_of_ge _ _ (by omega)
  have hlow : ¬ n + 8 + i < 8 := by omega
  rw [BitVec.getLsbD_extractLsb', BitVec.getLsbD_extractLsb', BitVec.getLsbD_or,
    BitVec.getLsbD_shiftLeft, BitVec.getLsbD_setWidth, hmoved, hbyte]
  simp [hword, hlow]

/-- With its lowest byte first, a word has the bytes that it is read from. -/
theorem Endian.extractLsb'_word {bytes : List UInt8} (h : bytes.length ≤ 4) (i : Nat)
    (hi : i < bytes.length) :
    (little.word bytes).extractLsb' (8 * i) 8 = bytes[i].toBitVec := by
  induction bytes generalizing i with
  | nil => cases hi
  | cons byte rest ih =>
    have hword : little.word (byte :: rest) =
        little.word rest <<< 8 ||| byte.toBitVec.setWidth 32 := by
      simp only [word, List.reverse_cons, List.foldl_append, List.foldl_cons, List.foldl_nil]
    rw [List.length_cons] at h hi
    rw [hword]
    cases i with
    | zero => exact extractLsb'_append_byte_zero _ _
    | succ i =>
      rw [Nat.mul_add, extractLsb'_append_byte _ _ (by omega)]
      exact ih (by omega) i (by omega)

/-- The bytes of the word that is read from four bytes are these bytes. -/
theorem Endian.bytes_word (order : Endian) {bytes : List UInt8} (h : bytes.length = 4) :
    order.bytes (order.word bytes) = bytes := by
  have hascending {bytes : List UInt8} (h : bytes.length = 4) :
      little.bytes (little.word bytes) = bytes := by
    refine List.ext_getElem (by simp [Endian.bytes, h]) fun i _ hi => ?_
    simp [Endian.bytes, extractLsb'_word (Nat.le_of_eq h) i hi]
  cases order with
  | little => exact hascending h
  | big =>
    have hreverse := hascending (bytes.length_reverse.trans h)
    rw [Endian.word, List.reverse_reverse] at hreverse
    exact List.reverse_eq_iff.mpr hreverse

namespace Cursor

/-- A call of a cursor. -/
inductive Request
  /-- The next `len` bytes. -/
  | read (len : Nat)
  /-- The next `count` bytes as an array. -/
  | readArray (count : Nat)
  /-- The next four bytes as a word. -/
  | readWord (order : Endian)

namespace Request

/-- How many bytes a call asks for. -/
def size : Request → Nat
  | read n | readArray n => n
  | readWord _ => 4

/-- What a call gets. -/
def Reply : Request → Type
  | read _ => List UInt8
  | readArray count => Vector UInt8 count
  | readWord _ => Word

/-- The bytes in what a call gets. -/
def content : (q : Request) → q.Reply → List UInt8
  | read _, bytes => bytes
  | readArray _, array => array.toList
  | readWord order, w => order.bytes w

end Request

/-- Makes a call. -/
def serve (c : Cursor) : (q : Request) → Except Fault (Except DecodeError q.Reply × Cursor)
  | .read len => c.read len
  | .readArray count => c.readArray count
  | .readWord order => c.readWord order

/-- The bytes that a call gets, or its error, and the cursor behind it. -/
def step (c : Cursor) (q : Request) : Except Fault (Except DecodeError (List UInt8) × Cursor) := do
  let (answer, next) ← c.serve q
  return (answer.map q.content, next)

/-- Makes calls in a row. -/
def run (c : Cursor) : List Request → Except Fault (List (Except DecodeError (List UInt8)) × Cursor)
  | [] => .ok ([], c)
  | q :: rest => do
    let (answer, next) ← c.step q
    let (answers, last) ← run next rest
    return (answer :: answers, last)

/-- The bytes that calls got, one after another. -/
def received (answers : List (Except DecodeError (List UInt8))) : List UInt8 :=
  answers.flatMap fun answer => answer.toOption.getD []

/-- A read compares the position behind the bytes with the end of the data, if it is a position. -/
theorem read_eq (c : Cursor) (len : Nat) : c.read len =
    if c.offset + len < sizeLimit then
      .ok (if c.offset + len ≤ c.size then
        (.ok ((c.data.drop c.offset).take len), { c with offset := c.offset + len })
      else (.error (.more len), c))
    else .error .overflow := by
  unfold read addSizes
  split
  · rw [ok_bind]
    split <;> rfl
  · rfl

variable {c : Cursor} {q : Request}

/-- An array has the bytes that are read for it, if they are as many as it needs. -/
theorem readArray_of_read (count : Nat) {bytes : List UInt8} {next : Cursor}
    (h : c.read count = .ok (.ok bytes, next)) (hlength : bytes.toArray.size = count) :
    c.readArray count = .ok (.ok ⟨bytes.toArray, hlength⟩, next) := by
  rw [readArray, h, ok_bind]
  dsimp only
  rw [dif_pos hlength]
  rfl

/-- An array has the error of reading its bytes. -/
theorem readArray_of_read_error (count : Nat) {e : DecodeError} {next : Cursor}
    (h : c.read count = .ok (.error e, next)) : c.readArray count = .ok (.error e, next) := by
  rw [readArray, h]
  rfl

/-- An array is not read if its bytes are not. -/
theorem readArray_of_read_fault (count : Nat) {f : Fault} (h : c.read count = .error f) :
    c.readArray count = .error f := by
  rw [readArray, h]
  rfl

/-- A call is not answered if reading its bytes is not. -/
theorem step_of_read_fault {f : Fault} (h : c.read q.size = .error f) : c.step q = .error f := by
  cases q with
  | read len => rw [step, serve, show c.read len = _ from h]; rfl
  | readArray count => rw [step, serve, readArray_of_read_fault count h]; rfl
  | readWord order => rw [step, serve, readWord, readArray_of_read_fault 4 h]; rfl

/-- A call has the error of reading its bytes. -/
theorem step_of_read_error {e : DecodeError} {next : Cursor}
    (h : c.read q.size = .ok (.error e, next)) : c.step q = .ok (.error e, next) := by
  cases q with
  | read len => rw [step, serve, show c.read len = _ from h]; rfl
  | readArray count => rw [step, serve, readArray_of_read_error count h]; rfl
  | readWord order => rw [step, serve, readWord, readArray_of_read_error 4 h]; rfl

/-- A call gets the bytes that are read for it, if they are as many as it needs. -/
theorem step_of_read {bytes : List UInt8} {next : Cursor}
    (h : c.read q.size = .ok (.ok bytes, next)) (hlength : bytes.length = q.size) :
    c.step q = .ok (.ok bytes, next) := by
  cases q with
  | read len => rw [step, serve, show c.read len = _ from h]; rfl
  | readArray count => rw [step, serve, readArray_of_read count h hlength]; rfl
  | readWord order =>
    rw [step, serve, readWord, readArray_of_read 4 h hlength]
    exact congrArg (fun bytes => Except.ok (Except.ok bytes, next)) (order.bytes_word hlength)

/-- A call gets the next bytes, as many as it asks for, if there are so many of them. Otherwise it
asks for more, or it is not answered since the position behind the bytes is no position. -/
theorem step_eq (c : Cursor) (q : Request) : c.step q =
    if c.offset + q.size < sizeLimit then
      .ok (if c.offset + q.size ≤ c.size then
        (.ok ((c.data.drop c.offset).take q.size), { c with offset := c.offset + q.size })
      else (.error (.more q.size), c))
    else .error .overflow := by
  have hread := c.read_eq q.size
  split_ifs at hread ⊢ with hlimit hsize
  · refine step_of_read hread ?_
    rw [size] at hsize
    rw [List.length_take, List.length_drop]
    omega
  · exact step_of_read_error hread
  · exact step_of_read_fault hread

variable {last : Cursor} {requests : List Request}
  {answers : List (Except DecodeError (List UInt8))}

/-- Calls in a row stay inside the data. What they got stands between the two positions. -/
theorem take_of_run (h : c.run requests = .ok (answers, last)) (hc : c.offset ≤ c.size) :
    last.data = c.data ∧ last.offset ≤ c.size ∧
      c.data.take c.offset ++ received answers = c.data.take last.offset := by
  induction requests generalizing c answers with
  | nil =>
    cases h
    exact ⟨rfl, hc, List.append_nil _⟩
  | cons q rest ih =>
    rw [run, step_eq] at h
    obtain ⟨⟨answer, next⟩, hstep, h⟩ := bind_eq_ok.mp h
    obtain ⟨⟨answers, last⟩, hrest, h⟩ := bind_eq_ok.mp h
    cases h
    split_ifs at hstep with hlimit hsize
    · cases hstep
      obtain ⟨hdata, hlast, htake⟩ := ih hrest hsize
      refine ⟨hdata, hlast, ?_⟩
      rw [← htake, List.take_add, List.append_assoc]
      rfl
    · cases hstep
      have hrest := ih hrest hc
      exact hrest

/-- Calls in a row are not answered if and only if there is one among them, after others that are
answered, for more bytes than there are positions. -/
theorem run_eq_error {f : Fault} : c.run requests = .error f ↔ f = .overflow ∧
    ∃ before q after, requests = before ++ q :: after ∧
      ∃ answers last, c.run before = .ok (answers, last) ∧ sizeLimit ≤ last.offset + q.size := by
  induction requests generalizing c with
  | nil => simp [run]
  | cons first rest ih =>
    rw [run, bind_eq_error]
    constructor
    · rintro (hstep | ⟨⟨answer, next⟩, hstep, h⟩)
      · rw [step_eq] at hstep
        split_ifs at hstep with hlimit
        cases hstep
        exact ⟨rfl, [], first, rest, rfl, [], c, rfl, Nat.le_of_not_lt hlimit⟩
      · obtain h | ⟨⟨answers, last⟩, -, h⟩ := bind_eq_error.mp h
        · obtain ⟨rfl, before, q, after, rfl, answers, last, hrun, hover⟩ := ih.mp h
          have hfirst : c.run (first :: before) = .ok (answer :: answers, last) := by
            rw [run, hstep, ok_bind]
            dsimp only
            rw [hrun]
            rfl
          exact ⟨rfl, first :: before, q, after, rfl, _, last, hfirst, hover⟩
        · cases h
    · -- Since the calls before it are answered, the call is the first one or one of the rest.
      rintro ⟨rfl, before, q, after, hsplit, answers, last, hrun, hover⟩
      cases before with
      | nil =>
        cases hsplit
        cases hrun
        exact .inl (by rw [step_eq, if_neg (Nat.not_lt_of_le hover)])
      | cons _ before =>
        cases hsplit
        rw [run] at hrun
        obtain ⟨⟨answer, next⟩, hstep, hrun⟩ := bind_eq_ok.mp hrun
        obtain ⟨⟨answers, last⟩, hbefore, hrun⟩ := bind_eq_ok.mp hrun
        cases hrun
        have hrest := ih.mpr ⟨rfl, before, q, after, rfl, answers, last, hbefore, hover⟩
        exact .inr ⟨_, hstep, bind_eq_error.mpr (.inl hrest)⟩

/-- Calls in a row read the data from its start and never leave it. After any number of them that
are answered, the bytes that they got are those in front of the cursor, and the bytes in front of it
and behind it are as many as there are. The next call gets the next bytes if so many are left.
If not, it asks for more and leaves the cursor as it is, unless its bytes would end behind the
largest position. A call of the last kind is the only one that is not answered. -/
theorem run_reads_front {data : List UInt8} (hdata : data.length < sizeLimit)
    (requests : List Request) :
    (∀ f, run { data } requests = .error f ↔ f = .overflow ∧
      ∃ before q after, requests = before ++ q :: after ∧ ∃ answers c,
        run { data } before = .ok (answers, c) ∧ sizeLimit ≤ c.offset + q.size) ∧
    ∀ answers c, run { data } requests = .ok (answers, c) →
      c.data = data ∧ received answers = data.take c.offset ∧
      (∃ left, c.remaining = .ok left ∧ c.offset + left = data.length ∧
        (∀ q, q.size ≤ left → c.step q =
          .ok (.ok ((data.drop c.offset).take q.size), { c with offset := c.offset + q.size })) ∧
        ∀ q, left < q.size → c.offset + q.size < sizeLimit →
          c.step q = .ok (.error (.more q.size), c)) := by
  refine ⟨fun f => run_eq_error, fun answers c h => ?_⟩
  obtain ⟨hsame, hinside, htake⟩ := take_of_run h (Nat.zero_le _)
  obtain rfl : c.data = data := hsame
  have hinside : c.offset ≤ c.size := hinside
  have hremaining : c.remaining = .ok (c.size - c.offset) := if_pos hinside
  refine ⟨rfl, htake, c.size - c.offset, hremaining, Nat.add_sub_cancel' hinside, ?_, ?_⟩
  · intro q hq
    have hstop : c.offset + q.size ≤ c.size := by omega
    rw [step_eq, if_pos (Nat.lt_of_le_of_lt hstop hdata), if_pos hstop]
  · intro q hq hlimit
    rw [step_eq, if_pos hlimit, if_neg (by omega)]

/-- A word, four bytes more than there are, and one byte of the two that are left. -/
theorem run_reads_front_of_word_and_byte :
    let data : List UInt8 := [0x1f, 0x20, 0x03, 0xd5, 0xaa, 0xbb]
    let answers : List (Except DecodeError (List UInt8)) :=
      [.ok [0x1f, 0x20, 0x03, 0xd5], .error (.more 4), .ok [0xaa]]
    let c : Cursor := { data, offset := 5 }
    data.length < sizeLimit ∧
      run { data } [.readWord .little, .readArray 4, .read 1] = .ok (answers, c) ∧
      received answers = data.take 5 ∧ c.remaining = .ok 1 ∧
      c.step (.readArray 1) = .ok (.ok [0xbb], { data, offset := 6 }) ∧
      c.step (.read 2) = .ok (.error (.more 2), c) := by
  intro data answers c
  have hdata : data.length < sizeLimit := by decide
  have hrun : run { data } [.readWord .little, .readArray 4, .read 1] = .ok (answers, c) := by
    simp only [run, step_eq]
    rfl
  obtain ⟨-, hprefix, left, hleft, hsum, hnext, hmore⟩ :=
    (run_reads_front hdata _).2 answers c hrun
  obtain rfl : left = 1 := by
    have hsum : 5 + left = 6 := hsum
    omega
  exact ⟨hdata, hrun, hprefix, hleft, hnext (.readArray 1) (by decide),
    hmore (.read 2) (by decide) (by decide)⟩

/-- A call for the greatest size is answered at the start of the data, but not behind its first
byte. -/
theorem run_fails_behind_first_byte :
    run { data := [0x1f] } [.read (sizeLimit - 1), .read 1] =
      .ok ([.error (.more (sizeLimit - 1)), .ok [0x1f]], { data := [0x1f], offset := 1 }) ∧
    run { data := [0x1f] } [.read 1, .read (sizeLimit - 1)] = .error .overflow :=
  ⟨rfl, rfl⟩

end Cursor

end A64Disassembler
