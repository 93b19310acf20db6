import A64Disassembler.Proofs.TestFile.Reader
import A64Disassembler.TestFile.Layout
import Mathlib.Data.List.Chain

/-!
# The tests of a file stand in memory at their addresses

The tests that calls of a reader return one after another are put into one sequence of bytes, which
starts at the address of the first of them and ends with the last byte of the last one. This is done
exactly if each test starts at or behind the end of the one before it and no call has an error; the
bytes of every test are then at its address, and all others are zero.

Two kinds of files have no answer: those with a call that has none, and those with a test so far
behind the first one that the bytes up to its end are no sequence.
-/

namespace A64Disassembler.TestFile

/-- The number of the address behind the last byte of a test. -/
def Test.stop (t : Test) : Nat :=
  t.address.toNat + t.bytes.length

/-- Whether each test starts at or behind the end of the one before it. -/
def AreInOrder (tests : List Test) : Prop :=
  tests.IsChain fun t u => t.stop ≤ u.address.toNat

/-- Whether the bytes from `base` to the end of each test are few enough for a sequence. -/
def AreNear (base : Address) (tests : List Test) : Prop :=
  ∀ t ∈ tests, t.stop < base.toNat + dataLimit

/-- Whether the tests up to one of them are in order and reach too far behind `base`. -/
def Overrun (base : Address) (tests : List Test) : Prop :=
  ∃ reached, reached <+: tests ∧ AreInOrder reached ∧ ¬ AreNear base reached

/-- Whether `data` is the memory from `start` to the end of the last test, with the bytes of every
test at its address and zeroes elsewhere. -/
structure IsImage (start : Nat) (tests : List Test) (data : List UInt8) : Prop where
  stop : start + data.length = (tests.getLast?.map Test.stop).getD start
  bytes : ∀ t ∈ tests, start ≤ t.address.toNat ∧
    (data.drop (t.address.toNat - start)).take t.bytes.length = t.bytes
  zeroes : ∀ i, i < data.length →
    (∀ t ∈ tests, start + i < t.address.toNat ∨ t.stop ≤ start + i) → data[i]? = some 0

/-- Calls of a reader one after another, each of which reads into the test of the call before: the
tests that they return up to the first call that returns none, and what that call does. It has an
error, finds the end, or has no answer. -/
inductive Reader.Reads : Reader → Test → List Test → Except Fault (Except Error Unit) → Prop
  | fault {r : Reader} {t : Test} {f : Fault} (hnext : r.next t = .error f) :
    Reads r t [] (.error f)
  | error {r r' : Reader} {t t' : Test} {e : Error} (hnext : r.next t = .ok (.error e, r', t')) :
    Reads r t [] (.ok (.error e))
  | finish {r r' : Reader} {t t' : Test} (hnext : r.next t = .ok (.ok false, r', t')) :
    Reads r t [] (.ok (.ok ()))
  | test {r r' : Reader} {t t' : Test} {tests : List Test}
    {last : Except Fault (Except Error Unit)} (hnext : r.next t = .ok (.ok true, r', t'))
    (hrest : Reads r' t' tests last) : Reads r t (t' :: tests) last

/-- Calls one after another return what they are computed to return, if there are more of them than
lines. -/
theorem reads_testsFrom {fuel : Nat} {r : Reader} {t : Test} (hfuel : r.rest.length < fuel) :
    r.Reads t (testsFrom fuel r t).1 (testsFrom fuel r t).2 := by
  induction fuel generalizing r t with
  | zero => omega
  | succ fuel ih =>
    rw [testsFrom]
    cases hnext : r.next t with
    | error f => exact .fault hnext
    | ok result =>
      obtain ⟨answer, r', t'⟩ := result
      match answer with
      | .error e => exact .error hnext
      | .ok false => exact .finish hnext
      | .ok true =>
        have hless := (Reader.length_of_nextFrom r r.rest hnext).resolve_left nofun
        exact .test hnext (ih (by omega))

/-- Calls one after another return what they return. -/
theorem Reader.Reads.unique {r : Reader} {t : Test} {tests tests' : List Test}
    {last last' : Except Fault (Except Error Unit)} (h : r.Reads t tests last)
    (h' : r.Reads t tests' last') : tests = tests' ∧ last = last' := by
  induction h generalizing tests' last' with
  | fault hnext =>
    cases h' with
    | fault hnext' => cases hnext.symm.trans hnext'; exact ⟨rfl, rfl⟩
    | error hnext' | finish hnext' | test hnext' => cases hnext.symm.trans hnext'
  | error hnext =>
    cases h' with
    | error hnext' => cases hnext.symm.trans hnext'; exact ⟨rfl, rfl⟩
    | fault hnext' | finish hnext' | test hnext' => cases hnext.symm.trans hnext'
  | finish hnext =>
    cases h' with
    | finish hnext' => exact ⟨rfl, rfl⟩
    | fault hnext' | error hnext' | test hnext' => cases hnext.symm.trans hnext'
  | test hnext _ ih =>
    cases h' with
    | test hnext' hrest' =>
      cases hnext.symm.trans hnext'
      obtain ⟨rfl, rfl⟩ := ih hrest'
      exact ⟨rfl, rfl⟩
    | fault hnext' | error hnext' | finish hnext' => cases hnext.symm.trans hnext'

/-- Without tests there are no bytes. -/
theorem isImage_nil (start : Nat) : IsImage start [] [] where
  stop := rfl
  bytes := nofun
  zeroes := nofun

/-- A test and the zeroes in front of it stand before the memory from its end on. -/
theorem IsImage.cons {start : Nat} {t : Test} {rest : List Test} {later : List UInt8}
    (hstart : start ≤ t.address.toNat) (h : IsImage t.stop rest later) :
    IsImage start (t :: rest)
      (List.replicate (t.address.toNat - start) 0 ++ t.bytes ++ later) := by
  have hfront : (List.replicate (t.address.toNat - start) 0 ++ t.bytes).length =
      t.stop - start := by
    rw [List.length_append, List.length_replicate, Test.stop]
    omega
  have hstop : start ≤ t.stop := Nat.le_trans hstart (Nat.le_add_right _ _)
  refine ⟨?_, fun u hu => ?_, fun i hi hcover => ?_⟩
  · have hlater := h.stop
    rw [List.length_append, hfront, List.getLast?_cons]
    cases hlast : rest.getLast? with
    | none =>
      simp only [hlast, Option.map_none, Option.getD_none, Option.map_some,
        Option.getD_some] at hlater ⊢
      omega
    | some u =>
      simp only [hlast, Option.map_some, Option.getD_some] at hlater ⊢
      omega
  · rcases List.mem_cons.mp hu with rfl | hu
    · refine ⟨hstart, ?_⟩
      rw [List.append_assoc, List.drop_left' (by rw [List.length_replicate]), List.take_left' rfl]
    · obtain ⟨hbehind, hbytes⟩ := h.bytes u hu
      have hskip : u.address.toNat - start - (t.stop - start) = u.address.toNat - t.stop := by omega
      rw [List.drop_append, List.drop_eq_nil_of_le (by omega), hfront, hskip]
      exact ⟨hstop.trans hbehind, hbytes⟩
  · obtain ⟨hcovert, hcoverrest⟩ := List.forall_mem_cons.mp hcover
    obtain hbefore | hbehind := hcovert
    · have hgap : i < t.address.toNat - start := by omega
      rw [List.append_assoc, List.getElem?_append_left (by simpa using hgap)]
      exact List.getElem?_replicate_of_lt hgap
    · rw [List.length_append, hfront] at hi
      have hindex : t.stop + (i - (t.stop - start)) = start + i := by omega
      rw [List.getElem?_append_right (by omega), hfront]
      exact h.zeroes _ (by omega) (by rwa [hindex])

/-- Whether tests are in order and start at or behind `start`. -/
def FollowInOrder (start : Nat) : List Test → Prop
  | [] => True
  | t :: rest => start ≤ t.address.toNat ∧ FollowInOrder t.stop rest

/-- Tests follow in order if they are in order and the first one does not start before. -/
theorem followInOrder_iff {start : Nat} {tests : List Test} : FollowInOrder start tests ↔
    (∀ t ∈ tests.head?, start ≤ t.address.toNat) ∧ AreInOrder tests := by
  induction tests generalizing start with
  | nil => simp [FollowInOrder, AreInOrder]
  | cons t rest ih =>
    have hcons : AreInOrder (t :: rest) ↔
        (∀ u ∈ rest.head?, t.stop ≤ u.address.toNat) ∧ AreInOrder rest := List.isChain_cons
    rw [FollowInOrder, ih, hcons]
    simp

/-- A test starts before the end of the bytes so far, or it has a gap in front of it, or it is too
far behind the first one. -/
theorem gapBefore_cases (base : Address) (filled : Nat) (t : Test) :
    (t.address.toNat < base.toNat + filled ∧ gapBefore base filled t = .ok none) ∨
    (base.toNat + filled ≤ t.address.toNat ∧ t.stop < base.toNat + dataLimit ∧
      gapBefore base filled t = .ok (some (t.address.toNat - (base.toNat + filled)))) ∨
    (base.toNat + filled ≤ t.address.toNat ∧ base.toNat + dataLimit ≤ t.stop ∧
      gapBefore base filled t = .error .overflow) := by
  unfold gapBefore Test.stop
  by_cases hbase : base ≤ t.address
  case neg =>
    have hless : t.address.toNat < base.toNat := BitVec.not_le.mp hbase
    exact .inl ⟨by omega, if_neg fun h => hbase h.1⟩
  case pos =>
    have hle : base.toNat ≤ t.address.toNat := hbase
    rw [BitVec.toNat_sub_of_le hbase]
    dsimp only
    split_ifs with hfilled hlimit
    · exact .inr (.inl ⟨by omega, by omega, by rw [Nat.sub_sub]⟩)
    · exact .inr (.inr ⟨by omega, by omega, rfl⟩)
    · have hless : ¬ filled ≤ t.address.toNat - base.toNat := fun h => hfilled ⟨hbase, h⟩
      exact .inl ⟨by omega, rfl⟩

/-- Whether tests in order that start at or behind `start` reach too far behind `base`. -/
def OverrunBehind (base : Address) (start : Nat) (tests : List Test) : Prop :=
  ∃ reached, reached <+: tests ∧ FollowInOrder start reached ∧ ¬ AreNear base reached

/-- Either the first test in order reaches too far, or others behind its end do. -/
theorem overrunBehind_cons {base : Address} {start : Nat} {t : Test} {rest : List Test} :
    OverrunBehind base start (t :: rest) ↔ start ≤ t.address.toNat ∧
      (base.toNat + dataLimit ≤ t.stop ∨ OverrunBehind base t.stop rest) := by
  constructor
  · rintro ⟨reached, hreached, hfollow, hfar⟩
    obtain rfl | ⟨more, rfl, hmore⟩ := List.prefix_cons_iff.mp hreached
    · exact absurd nofun hfar
    · refine ⟨hfollow.1, (Nat.lt_or_ge t.stop _).symm.imp_right fun hnear => ?_⟩
      exact ⟨more, hmore, hfollow.2, fun h => hfar (List.forall_mem_cons.mpr ⟨hnear, h⟩)⟩
  · rintro ⟨hstart, hfar | ⟨more, hmore, hfollow, hfar⟩⟩
    · refine ⟨[t], List.prefix_cons_iff.mpr (.inr ⟨[], rfl, List.nil_prefix⟩), ⟨hstart, trivial⟩, ?_⟩
      exact fun h => Nat.not_lt_of_le hfar (h t List.mem_cons_self)
    · refine ⟨t :: more, List.prefix_cons_iff.mpr (.inr ⟨more, rfl, hmore⟩), ⟨hstart, hfollow⟩, ?_⟩
      exact fun h => hfar (List.forall_mem_cons.mp h).2

/-- Tests are placed behind the bytes so far if they follow them in order and none is too far. The
first test that starts too early is an error, unless one before it is too far. -/
theorem placeAll_cases (file : String) (base : Address) (filled : Nat) (tests : List Test) :
    (FollowInOrder (base.toNat + filled) tests ∧
      ¬ OverrunBehind base (base.toNat + filled) tests ∧
      ∃ data, placeAll file base filled tests = .ok (.ok data) ∧
        IsImage (base.toNat + filled) tests data) ∨
    (¬ FollowInOrder (base.toNat + filled) tests ∧
      ¬ OverrunBehind base (base.toNat + filled) tests ∧
      ∃ e, placeAll file base filled tests = .ok (.error e)) ∨
    (OverrunBehind base (base.toNat + filled) tests ∧
      placeAll file base filled tests = .error .overflow) := by
  induction tests generalizing filled with
  | nil =>
    refine .inl ⟨trivial, ?_, [], rfl, isImage_nil _⟩
    rintro ⟨reached, hreached, -, hfar⟩
    rw [List.prefix_nil.mp hreached] at hfar
    exact hfar nofun
  | cons t rest ih =>
    rw [placeAll, overrunBehind_cons]
    obtain ⟨hearly, hgap⟩ | ⟨hstart, hnear, hgap⟩ | ⟨hstart, hfar, hgap⟩ :=
      gapBefore_cases base filled t
    · have hnot : ¬ base.toNat + filled ≤ t.address.toNat := by omega
      exact .inr (.inl ⟨fun h => hnot h.1, fun h => hnot h.1, _, by rw [hgap]; rfl⟩)
    · -- The rest is placed behind the end of the test, so the induction goes on from there.
      have hstop : base.toNat +
          (filled + (t.address.toNat - (base.toNat + filled)) + t.bytes.length) = t.stop := by
        rw [Test.stop]
        omega
      have hrest := ih (filled + (t.address.toNat - (base.toNat + filled)) + t.bytes.length)
      rw [hstop] at hrest
      have hbehind (h : ¬ OverrunBehind base t.stop rest) : ¬ (base.toNat + filled ≤
          t.address.toNat ∧ (base.toNat + dataLimit ≤ t.stop ∨ OverrunBehind base t.stop rest)) :=
        fun hrun => hrun.2.elim (Nat.not_le_of_lt hnear) h
      rw [hgap, ok_bind]
      dsimp only
      obtain ⟨hfollow, hrun, data, hplace, himage⟩ | ⟨hfollow, hrun, e, hplace⟩ | ⟨hrun, hplace⟩ :=
        hrest
      · exact .inl ⟨⟨hstart, hfollow⟩, hbehind hrun, _, by rw [hplace]; rfl, himage.cons hstart⟩
      · exact .inr (.inl ⟨fun h => hfollow h.2, hbehind hrun, e, by rw [hplace]; rfl⟩)
      · exact .inr (.inr ⟨⟨hstart, .inr hrun⟩, by rw [hplace]; rfl⟩)
    · exact .inr (.inr ⟨⟨hstart, .inl hfar⟩, by rw [hgap]; rfl⟩)

/-- The first of some tests follow the address of the first one in order if they are in order. -/
theorem followInOrder_front {tests reached : List Test} (hreached : reached <+: tests) :
    FollowInOrder ((tests.head?.map Test.address).getD 0).toNat reached ↔ AreInOrder reached := by
  rw [followInOrder_iff, and_iff_right_iff_imp]
  intro _ t ht
  obtain ⟨more, rfl⟩ := hreached
  cases reached with
  | nil => exact absurd ht nofun
  | cons u reached =>
    obtain rfl : u = t := Option.some.inj ht
    exact Nat.le_refl _

/-- The memory of a file depends on how the tests stand to each other and, if all of them are
placed, on what the last call does. -/
theorem layout_cases {file : String} {text : List Char} {tests : List Test}
    {last : Except Fault (Except Error Unit)} {base : Address}
    (hreads : (Reader.start file text).Reads {} tests last)
    (hbase : base = (tests.head?.map Test.address).getD 0) :
    (AreInOrder tests ∧ ¬ Overrun base tests ∧ ∃ data, IsImage base.toNat tests data ∧
      layout file text = last.map (Except.map fun _ => (base, data))) ∨
    (¬ AreInOrder tests ∧ ¬ Overrun base tests ∧ ∃ e, layout file text = .ok (.error e)) ∨
    (Overrun base tests ∧ layout file text = .error .overflow) := by
  have hfollow {reached : List Test} (hreached : reached <+: tests) :
      FollowInOrder (base.toNat + 0) reached ↔ AreInOrder reached := by
    rw [hbase]
    exact followInOrder_front hreached
  have hoverrun : OverrunBehind base (base.toNat + 0) tests ↔ Overrun base tests :=
    exists_congr fun _ => and_congr_right fun hreached => and_congr_left' (hfollow hreached)
  have htests : TestFile.tests file text = (tests, last) := by
    obtain ⟨htests, hlast⟩ := (reads_testsFrom (Nat.lt_succ_self _)).unique hreads
    exact Prod.ext htests hlast
  have hplaced := placeAll_cases file base 0 tests
  rw [hoverrun, hfollow List.prefix_rfl] at hplaced
  rw [layout, htests]
  dsimp only
  rw [← hbase]
  obtain ⟨horder, hrun, data, hplace, himage⟩ | ⟨horder, hrun, e, hplace⟩ | ⟨hrun, hplace⟩ :=
    hplaced
  · refine .inl ⟨horder, hrun, data, himage, ?_⟩
    rw [hplace]
    rcases last with f | e | _ <;> rfl
  · exact .inr (.inl ⟨horder, hrun, e, by rw [hplace]; rfl⟩)
  · exact .inr (.inr ⟨hrun, by rw [hplace]; rfl⟩)

/-- Calls one after another return certain tests. These and the last call say whether a file has a
memory, where it starts and which bytes it has. Tests that are not in order are an error, and so is
a last call with an error, unless tests in order have reached too far before. -/
theorem layout_places_tests (file : String) (text : List Char) :
    (∃ tests last, (Reader.start file text).Reads {} tests last) ∧
    ∀ tests last, (Reader.start file text).Reads {} tests last →
      let base := (tests.head?.map Test.address).getD 0
      ((∃ start data, layout file text = .ok (.ok (start, data))) ↔
        last = .ok (.ok ()) ∧ AreInOrder tests ∧ ¬ Overrun base tests) ∧
      (∀ start data, layout file text = .ok (.ok (start, data)) →
        start = base ∧ IsImage base.toNat tests data) ∧
      ((∃ e, layout file text = .ok (.error e)) ↔
        (¬ AreInOrder tests ∨ ∃ e, last = .ok (.error e)) ∧ ¬ Overrun base tests) ∧
      ∀ f, layout file text = .error f ↔
        f = .overflow ∧ Overrun base tests ∨
        last = .error f ∧ AreInOrder tests ∧ ¬ Overrun base tests := by
  refine ⟨⟨_, _, reads_testsFrom (Nat.lt_succ_self _)⟩, ?_⟩
  intro tests last hreads base
  obtain ⟨horder, hrun, data, himage, hlayout⟩ | ⟨horder, hrun, e, hlayout⟩ | ⟨hrun, hlayout⟩ :=
    layout_cases hreads (rfl : base = _)
  · rw [hlayout]
    rcases last with f | e | _
    · simp [Except.map, horder, hrun]
    · simp [Except.map, horder, hrun]
    · refine ⟨by simp [Except.map, horder, hrun], ?_, by simp [Except.map, horder],
        by simp [Except.map, hrun]⟩
      rintro _ _ ⟨⟩
      exact ⟨rfl, himage⟩
  · rw [hlayout]
    simp [horder, hrun]
  · rw [hlayout]
    simp [hrun, eq_comm]

/-- Three zeroes stand between two tests of which the first one has a single byte. -/
theorem layout_places_tests_with_gap :
    let text := "1000: 11  a\n1004: 0022  b".toList
    let tests : List Test := [
      { line := 1, comment := [], address := 0x1000, bytes := [0x11], expected := ['a'] },
      { line := 2, comment := [], address := 0x1004, bytes := [0x22, 0], expected := ['b'] }]
    (Reader.start "input" text).Reads {} tests (.ok (.ok ())) ∧
      layout "input" text = .ok (.ok (0x1000, [0x11, 0, 0, 0, 0x22, 0])) ∧
      IsImage 0x1000 tests [0x11, 0, 0, 0, 0x22, 0] := by
  intro text tests
  have hreads : (Reader.start "input" text).Reads {} tests (.ok (.ok ())) :=
    .test rfl (.test rfl (.finish rfl))
  have hlayout : layout "input" text = .ok (.ok (0x1000, [0x11, 0, 0, 0, 0x22, 0])) := by
    decide +kernel
  obtain ⟨-, himage, -, -⟩ := (layout_places_tests "input" text).2 tests (.ok (.ok ())) hreads
  exact ⟨hreads, hlayout, (himage _ _ hlayout).2⟩

/-- There is neither a memory nor an error if a word has sixteen digits and zeroes in front of
them, and if the tests of a file are too far from each other. -/
theorem layout_without_answer :
    layout "input" "000000000000000001  zeros".toList = .error .outOfBounds ∧
    layout "input" "0: 00  low\n8000000000000000: 00  high".toList = .error .overflow :=
  ⟨rfl, rfl⟩

end A64Disassembler.TestFile
