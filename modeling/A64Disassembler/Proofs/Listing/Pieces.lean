import A64Disassembler.Proofs.Listing.Headers

/-!
# A listing in pieces

Data may be printed piece by piece: each piece continues the listing where the one before it ended.
A continuation knows the address at which it starts, but not which symbols have been named. It looks
for the symbol at its address and for the one behind it, while a listing that goes on still has the
next symbol after those that it named. Both give the same header at every cut between words, if
symbols lie at the addresses of words only.

A folded run of zeroes may go on behind a cut, so that pieces fit together only if zeroes are
decoded.
-/

namespace A64Disassembler

section Symbols

variable {symbols : List Symbol} {mark : Style → String → String}

/-- The symbol that a list in ascending order gives for the address of one of its symbols is the
last one there. -/
theorem Markup.symbolAt_ofSymbols_eq_getLast?
    (hsorted : symbols.Pairwise fun s t => s.address ≤ t.address) {s : Symbol} (hs : s ∈ symbols) :
    (ofSymbols symbols mark).symbolAt s.address =
      (symbols.filter fun t => t.address = s.address).getLast? := by
  have hmem : s ∈ symbols.filter fun t => t.address ≤ s.address :=
    List.mem_filter.mpr ⟨hs, decide_eq_true (BitVec.le_refl _)⟩
  obtain ⟨t, ht⟩ : ∃ t, (ofSymbols symbols mark).symbolAt s.address = some t :=
    Option.ne_none_iff_exists'.mp (mt List.getLast?_eq_none_iff.mp (List.ne_nil_of_mem hmem))
  obtain ⟨before, hbefore⟩ := List.getLast?_eq_some_iff.mp ht
  have hpairs := hsorted.filter fun t => t.address ≤ s.address
  rw [hbefore] at hmem hpairs
  have hsame : t.address = s.address := by
    refine BitVec.le_antisymm (le_of_symbolAt_ofSymbols ht) ?_
    rcases List.mem_append.mp hmem with hearlier | hlast
    · exact (List.pairwise_append.mp hpairs).2.2 s hearlier t (List.mem_singleton_self t)
    · rw [List.mem_singleton.mp hlast]
      exact BitVec.le_refl _
  -- The symbols at the address are the last ones among those at or before it.
  have hgroup : (symbols.filter fun t => t.address = s.address) =
      (symbols.filter fun t => t.address ≤ s.address).filter fun t => t.address = s.address := by
    rw [List.filter_filter]
    refine List.filter_congr fun u _ => ?_
    rw [eq_comm, Bool.and_eq_left_iff_imp]
    exact fun hu => decide_eq_true (BitVec.le_of_eq (of_decide_eq_true hu))
  rw [ht, hgroup, hbefore, List.filter_append, List.filter_singleton, decide_eq_true hsame,
    cond_true, List.getLast?_concat]

/-- Without a second symbol at its address, a symbol of a list is the first one there. -/
theorem Symbol.find?_eq_some_of_mem
    (hsorted : symbols.Pairwise fun s t => s.address < t.address) {s : Symbol} (hs : s ∈ symbols) :
    symbols.find? (fun t => t.address = s.address) = some s := by
  cases ht : symbols.find? fun t => t.address = s.address with
  | none => exact absurd (decide_eq_true rfl) (List.find?_eq_none.mp ht s hs)
  | some t =>
    have hsame : t.address = s.address := by simpa using List.find?_some ht
    rw [Symbol.eq_of_address_eq hsorted (List.mem_of_find?_eq_some ht) hs hsame]

/-- Without a second symbol at its address, a symbol is the one that the list gives for it. -/
theorem Markup.symbolAt_ofSymbols_of_mem
    (hsorted : symbols.Pairwise fun s t => s.address < t.address) {s : Symbol} (hs : s ∈ symbols) :
    (ofSymbols symbols mark).symbolAt s.address = some s := by
  rw [symbolAt_ofSymbols_eq_getLast? (hsorted.imp BitVec.le_of_lt) hs]
  have hmem : s ∈ symbols.filter fun t => t.address = s.address :=
    List.mem_filter.mpr ⟨hs, decide_eq_true rfl⟩
  rw [List.getLast?_eq_some_getLast (List.ne_nil_of_mem hmem)]
  obtain ⟨hlast, hsame⟩ := List.mem_filter.mp (List.getLast_mem (List.ne_nil_of_mem hmem))
  rw [Symbol.eq_of_address_eq hsorted hlast hs (of_decide_eq_true hsame)]

/-- The symbol that a list gives for an address is one of its symbols. -/
theorem Markup.mem_of_symbolAt_ofSymbols {a : Address} {s : Symbol}
    (h : (ofSymbols symbols mark).symbolAt a = some s) : s ∈ symbols :=
  (List.mem_filter.mp (List.mem_of_getLast? h)).1

end Symbols

namespace Listing

section Outputs

variable {m : Markup} {d : Decoder}

/-- Outputs are appended from the left or from the right. -/
theorem Output.append_assoc (o p q : Output) :
    (o.append p).append q = o.append (p.append q) := by
  cases ho : o.fault with
  | some f => simp [append, ho]
  | none =>
    cases hp : p.fault with
    | some f => simp [append, ho, hp]
    | none => simp [append, ho, hp, String.append_assoc]

/-- An output comes after that of no lines. -/
theorem Output.empty_append (o : Output) : ({} : Output).append o = o := by
  simp [append]

/-- An output comes before that of no lines. -/
theorem Output.append_empty (o : Output) : o.append {} = o := by
  cases ho : o.fault with
  | some f => simp [append, ho]
  | none =>
    rw [append, ho]
    simp [← ho]

/-- The output for lines comes after what is there already. -/
theorem foldl_append_output_eq (ls : List Line) (done : Output) :
    ls.foldl (fun done l => done.append (l.output m d)) done =
      done.append (linesOutput m d ls) := by
  induction ls generalizing done with
  | nil => exact done.append_empty.symm
  | cons l rest ih =>
    rw [linesOutput, List.foldl_cons, List.foldl_cons, ih, ih, Output.empty_append,
      Output.append_assoc]

/-- The output for lines is that for the first ones and then that for the others. -/
theorem linesOutput_append (ks ls : List Line) :
    linesOutput m d (ks ++ ls) = (linesOutput m d ks).append (linesOutput m d ls) := by
  rw [linesOutput, List.foldl_append, foldl_append_output_eq]
  rfl

end Outputs

variable {m : Markup} {options : Options} {address : Address} {data : List UInt8}
  {lines : List Line}

/-- The data and the headers that are due determine the lines. -/
theorem Divides.unique {ls : List Line} {h : Headers} (hls : Divides m options address data ls)
    (hlines : Divides m options address data lines) (hplaced : h.ArePlaced m ls)
    (hplaced' : h.ArePlaced m lines) : ls = lines := by
  induction hls generalizing lines h with
  | nil => exact (hlines.eq_nil_iff.mp rfl).symm
  | @cons l rest ls hbytes hstep _ _ ih =>
    generalize hdata : l.bytes ++ rest = data at hlines hstep
    generalize haddress : l.address = address at hlines hstep
    cases hlines with
    | nil => exact absurd (List.append_eq_nil_iff.mp hdata).1 hbytes
    | @cons k rest' lines _ hstep' _ hrest' =>
      obtain ⟨hbody, hlength, -⟩ : l.body = k.body ∧ l.bytes.length = k.bytes.length ∧ _ := by
        simpa using hstep.symm.trans hstep'
      obtain ⟨hsame, rfl⟩ := List.append_inj hdata hlength
      have hheader : l.header = k.header := by rw [hplaced.1, hplaced'.1, haddress]
      have hline : l = k := by
        cases l
        cases k
        simp_all
      subst hline
      rw [ih hrest' hplaced.2 hplaced'.2]

/-- Lines that divide the data and have the headers that are due are the lines of the listing. -/
theorem lines_of_divides (hm : m.IsLawful) {sectionName : String} {isFirst : Bool} {h : Headers}
    (hstart : Headers.start m sectionName address isFirst = .ok h)
    (hdivides : Divides m options address data lines) (hplaced : h.ArePlaced m lines)
    (hroom : address.toNat + data.length < sizeLimit) :
    Listing.lines m (.start options address) sectionName data isFirst =
      (lines, .ok (.start options (address + BitVec.ofNat 64 data.length))) := by
  obtain ⟨ls, hls, hdivides', hplaced'⟩ := exists_lines_of_start hm options hstart hroom
  rw [hls, hdivides'.unique hdivides hplaced' hplaced]

/-- The output of a listing is that for its lines. -/
theorem print_of_lines {s next : Session} {sectionName : String} {isFirst : Bool}
    (h : Listing.lines m s sectionName data isFirst = (lines, .ok next)) :
    print m s sectionName data isFirst = (linesOutput m s.decoder lines, next) := by
  rw [print, h]

section Words

/-- No zeroes are folded if they are decoded. -/
theorem foldedZeroes_of_decodeZeroes {s : Session}
    (hzeroes : s.decoder.options.decodeZeroes = true) :
    foldedZeroes m s.decoder.options s.address data = .ok none :=
  if_pos (.inl hzeroes)

/-- A word is enough to decode. -/
theorem decode_start_ne_more {bytes : List UInt8} (hlong : insnSize ≤ bytes.length) (size : Nat) :
    (Session.start options address).decode bytes ≠ .ok (.error (.more size)) := by
  intro h
  obtain ⟨result, hresult, h⟩ := bind_eq_ok.mp h
  rcases Decoder.decode_builtin_word options address hlong with hfailed | ⟨i, hi, -⟩
  · cases hresult.symm.trans hfailed
    cases h
  · cases hresult.symm.trans hi
    obtain ⟨next, -, h⟩ := bind_eq_ok.mp h
    cases h

/-- Whatever follows a word, it is shown in the same way. -/
theorem nextBody_append (hzeroes : options.decodeZeroes = true) (hlong : insnSize ≤ data.length)
    (more : List UInt8) :
    nextBody m (.start options address) (data ++ more) =
      nextBody m (.start options address) data := by
  have htake : (data ++ more).take insnSize = data.take insnSize :=
    List.take_append_of_le_length hlong
  have hsize : insnSize ≤ (data.take insnSize).length := (List.length_take_of_le hlong).ge
  have hfold : (Session.start options address).decoder.options.decodeZeroes = true := hzeroes
  unfold nextBody
  rw [foldedZeroes_of_decodeZeroes hfold, foldedZeroes_of_decodeZeroes hfold, htake, ok_bind,
    ok_bind]
  cases hdecode : (Session.start options address).decode (data.take insnSize) with
  | error f => rfl
  | ok result =>
    match result with
    | .ok (i, next) => rfl
    | .error (.failed count) => rfl
    | .error (.more size) => exact absurd hdecode (decode_start_ne_more hsize size)

/-- A line is made of one word if zeroes are decoded, or it is the last one. -/
theorem length_of_step_of_decodeZeroes (hzeroes : options.decodeZeroes = true) {l : Line}
    {rest : List UInt8}
    (hstep : nextBody m (.start options l.address) (l.bytes ++ rest) =
      .ok (l.body, l.bytes.length, .start options (l.address + BitVec.ofNat 64 l.bytes.length)))
    (hbody : l.body.IsSound (.builtin options) l.address l.bytes (rest = [])) :
    l.bytes.length = insnSize ∨ l.bytes.length < insnSize ∧ rest = [] := by
  cases hl : l.body with
  | folded =>
    rw [hl] at hstep
    have hfold := foldedZeroes_of_nextBody hstep
    rw [foldedZeroes_of_decodeZeroes hzeroes] at hfold
    cases hfold
  | insn i =>
    rw [hl] at hbody
    exact .inl hbody.1
  | undecoded =>
    rw [hl] at hbody
    exact hbody.imp_left And.left

/-- A line is made of one word if zeroes are decoded and the data are made of whole words. -/
theorem length_of_step_of_words (hzeroes : options.decodeZeroes = true) {l : Line}
    {rest : List UInt8} (hbytes : l.bytes ≠ [])
    (hstep : nextBody m (.start options l.address) (l.bytes ++ rest) =
      .ok (l.body, l.bytes.length, .start options (l.address + BitVec.ofNat 64 l.bytes.length)))
    (hbody : l.body.IsSound (.builtin options) l.address l.bytes (rest = []))
    (hwords : (l.bytes ++ rest).length % insnSize = 0) : l.bytes.length = insnSize := by
  refine (length_of_step_of_decodeZeroes hzeroes hstep hbody).resolve_right ?_
  rintro ⟨hshort, rfl⟩
  have hpos := List.length_pos_iff.mpr hbytes
  rw [List.append_nil, Nat.mod_eq_of_lt hshort] at hwords
  omega

/-- The lines of two pieces divide both together, if the first one is made of whole words and zeroes
are decoded. -/
theorem Divides.append (hzeroes : options.decodeZeroes = true) {more : List UInt8}
    {ls : List Line} (h : Divides m options address data lines)
    (hwords : data.length % insnSize = 0)
    (hls : Divides m options (address + BitVec.ofNat 64 data.length) more ls) :
    Divides m options address (data ++ more) (lines ++ ls) := by
  induction h with
  | nil => simpa using hls
  | @cons l rest lines hbytes hstep hbody _ ih =>
    have hsize := length_of_step_of_words hzeroes hbytes hstep hbody hwords
    rw [List.length_append, hsize, Nat.add_mod_left] at hwords
    rw [List.append_assoc, List.cons_append]
    refine .cons hbytes ?_ ?_ (ih hwords ?_)
    · rw [← List.append_assoc, nextBody_append hzeroes _ more, hstep]
      rw [List.length_append, hsize]
      exact Nat.le_add_right _ _
    · cases hl : l.body with
      | folded | insn i =>
        rw [hl] at hbody
        exact hbody
      | undecoded =>
        rw [hl] at hbody
        exact .inl ⟨hsize, (hbody.resolve_right fun hshort => absurd hsize hshort.1.ne).2⟩
    · rw [BitVec.add_assoc, ← BitVec.ofNat_add, ← List.length_append]
      exact hls

end Words

/-- The headers that are due after lines. -/
def Headers.after (m : Markup) (h : Headers) (ls : List Line) : Headers :=
  ls.foldl (fun h l => (h.take m l.address).2) h

/-- Lines have their headers if the first ones have, and the others have those that are due after
the first ones. -/
theorem Headers.arePlaced_append {h : Headers} {ks ls : List Line} :
    h.ArePlaced m (ks ++ ls) ↔ h.ArePlaced m ks ∧ (h.after m ks).ArePlaced m ls := by
  induction ks generalizing h with
  | nil => exact (and_iff_right trivial).symm
  | cons k rest ih => rw [List.cons_append, ArePlaced, ArePlaced, ih, and_assoc]; rfl

/-- Whether headers that take the same at the start of lines are placed does not differ. -/
theorem Divides.arePlaced_congr {h h' : Headers} (hdivides : Divides m options address data lines)
    (htake : h.take m address = h'.take m address) (hplaced : h.ArePlaced m lines) :
    h'.ArePlaced m lines := by
  cases hdivides with
  | nil => trivial
  | cons => 
    rw [Headers.ArePlaced, htake] at hplaced
    exact hplaced

section Symbols

variable {symbols : List Symbol} {mark : Style → String → String}

namespace Headers

/-- Whether the symbols to be named are those at and behind an address: all symbols before it have
been named or passed. -/
def AreDueAt (symbols : List Symbol) (mark : Style → String → String) (here : Address)
    (h : Headers) : Prop :=
  ∃ a < here, h = behind (.ofSymbols symbols mark) a ∧
    ∀ s ∈ symbols, a < s.address → here ≤ s.address

variable {h : Headers} {here : Address}

/-- A line that starts where headers are due has the header of the first symbol there, and leaves
those behind it. -/
theorem AreDueAt.take_eq (hsorted : symbols.Pairwise fun s t => s.address ≤ t.address)
    (hdue : h.AreDueAt symbols mark here) :
    h.take (.ofSymbols symbols mark) here =
      ((symbols.find? fun s => s.address = here).map fun s => { address := here, name := s.name },
        behind (.ofSymbols symbols mark) here) := by
  obtain ⟨a, hlt, rfl, hnone⟩ := hdue
  cases hs : symbols.find? fun s => s.address = here with
  | none =>
    have hne : ∀ s ∈ symbols, s.address ≠ here := by simpa using hs
    have hsame : ∀ s ∈ symbols, decide (a < s.address) = decide (here < s.address) := fun s hs =>
      decide_eq_decide.mpr ⟨fun has => BitVec.lt_of_le_ne (hnone s hs has) (hne s hs).symm,
        BitVec.lt_trans hlt⟩
    have hbehind : behind (.ofSymbols symbols mark) a = behind (.ofSymbols symbols mark) here :=
      congrArg (Headers.mk none) (List.find?_congr hsame)
    rw [hbehind]
    exact take_behind_self (Markup.isLawful_ofSymbols symbols mark) here
  | some s =>
    -- No symbol lies between, so the first one at the line is the next one.
    obtain ⟨hhere, before, after, rfl, hbefore⟩ := List.find?_eq_some_iff_append.mp hs
    obtain rfl : s.address = here := of_decide_eq_true hhere
    have hnext : (Markup.ofSymbols (before ++ s :: after) mark).symbolAfter a = some s := by
      refine List.find?_eq_some_iff_append.mpr
        ⟨decide_eq_true hlt, before, after, rfl, fun t ht => ?_⟩
      have hts : t.address ≤ s.address :=
        (List.pairwise_append.mp hsorted).2.2 t ht s List.mem_cons_self
      have hne : t.address ≠ s.address := by simpa using hbefore t ht
      have hat : ¬ a < t.address := fun hat =>
        hne (BitVec.le_antisymm hts (hnone t (List.mem_append_left _ ht) hat))
      simpa using hat
    exact take_behind_of_eq hnext

/-- A continuation has the same header for its first line as the listing that it continues. -/
theorem AreDueAt.exists_start (hsorted : symbols.Pairwise fun s t => s.address < t.address)
    (hdue : h.AreDueAt symbols mark here) (sectionName : String) :
    ∃ h', start (.ofSymbols symbols mark) sectionName here false = .ok h' ∧
      h.take (.ofSymbols symbols mark) here = h'.take (.ofSymbols symbols mark) here := by
  rw [hdue.take_eq (hsorted.imp BitVec.le_of_lt)]
  by_cases hsymbol : ∃ s ∈ symbols, s.address = here
  · obtain ⟨s, hs, rfl⟩ := hsymbol
    refine ⟨{ first := some (s.name, 0),
              next := (Markup.ofSymbols symbols mark).symbolAfter s.address }, ?_, ?_⟩
    · rw [start, Markup.symbolAt_ofSymbols_of_mem hsorted hs]
      exact if_pos rfl
    · rw [Symbol.find?_eq_some_of_mem hsorted hs]
      rfl
  · have hnone : ∀ s ∈ symbols, s.address ≠ here := fun s hs hhere => hsymbol ⟨s, hs, hhere⟩
    refine ⟨behind (.ofSymbols symbols mark) here, ?_, ?_⟩
    · rw [start]
      cases hs : (Markup.ofSymbols symbols mark).symbolAt here with
      | none => rfl
      | some s =>
        have hne := (hnone s (Markup.mem_of_symbolAt_ofSymbols hs)).symm
        simp only [if_neg hne]
        rfl
    · have hfind : symbols.find? (fun s => s.address = here) = none := by simpa using hnone
      rw [hfind, take_behind_self (Markup.isLawful_ofSymbols symbols mark)]
      rfl

/-- Symbols that lie whole words apart from a line of one word are at or behind the next line. -/
theorem areDueAt_behind_word (hroom : here.toNat + insnSize < sizeLimit)
    (haligned : ∀ s ∈ symbols, s.address.toNat % insnSize = here.toNat % insnSize) :
    (behind (.ofSymbols symbols mark) here).AreDueAt symbols mark
      (here + BitVec.ofNat 64 insnSize) := by
  have hnext := Address.toNat_add hroom
  refine ⟨here, BitVec.lt_def.mpr ?_, rfl, fun s hs hlt => BitVec.le_def.mpr ?_⟩
  · rw [hnext]
    exact Nat.lt_add_of_pos_right (by decide)
  · have hs := haligned s hs
    have hlt := BitVec.lt_def.mp hlt
    rw [hnext]
    simp only [insnSize] at *
    omega

/-- Behind lines of one word each, the headers are due that name the symbols from there on. -/
theorem areDueAt_after (hsorted : symbols.Pairwise fun s t => s.address < t.address)
    (hzeroes : options.decodeZeroes = true)
    (hdivides : Divides (.ofSymbols symbols mark) options address data lines) (hdata : data ≠ [])
    (hwords : data.length % insnSize = 0) (hroom : address.toNat + data.length < sizeLimit)
    (haligned : ∀ s ∈ symbols, s.address.toNat % insnSize = address.toNat % insnSize)
    (htake : (h.take (.ofSymbols symbols mark) address).2 =
      behind (.ofSymbols symbols mark) address) :
    (h.after (.ofSymbols symbols mark) lines).AreDueAt symbols mark
      (address + BitVec.ofNat 64 data.length) := by
  induction hdivides generalizing h with
  | nil => exact absurd rfl hdata
  | @cons l rest lines hbytes hstep hbody hrest ih =>
    have hsize := length_of_step_of_words hzeroes hbytes hstep hbody hwords
    rw [List.length_append, hsize] at hwords hroom ⊢
    rw [hsize] at ih hrest
    have hnext : (l.address + BitVec.ofNat 64 insnSize).toNat = l.address.toNat + insnSize :=
      Address.toNat_add (by omega)
    have hdue : (behind (.ofSymbols symbols mark) l.address).AreDueAt symbols mark
        (l.address + BitVec.ofNat 64 insnSize) := areDueAt_behind_word (by omega) haligned
    rw [after, List.foldl_cons, htake]
    by_cases hempty : rest = []
    · obtain rfl := hrest.eq_nil_iff.mp hempty
      rwa [hempty, List.length_nil]
    · rw [BitVec.ofNat_add, ← BitVec.add_assoc]
      refine ih hempty ?_ (by omega) ?_ (by rw [hdue.take_eq (hsorted.imp BitVec.le_of_lt)])
      · rwa [Nat.add_mod_left] at hwords
      · simpa only [hnext, Nat.add_mod_right] using haligned

end Headers

variable {start : Address} {first second : List UInt8}

/-- The lines of two pieces are the lines of both together. The first piece starts the listing and
is made of whole words, and the second one continues it. -/
theorem lines_append (hsorted : symbols.Pairwise fun s t => s.address < t.address)
    (haligned : ∀ s ∈ symbols, s.address.toNat % insnSize = start.toNat % insnSize)
    (hzeroes : options.decodeZeroes = true) (sectionName : String) (hfirst : first ≠ [])
    (hwords : first.length % insnSize = 0)
    (hroom : start.toNat + (first ++ second).length < sizeLimit) :
    let m := Markup.ofSymbols symbols mark
    let cut := start + BitVec.ofNat 64 first.length
    let stop := cut + BitVec.ofNat 64 second.length
    ∃ ks ls, Divides m options start first ks ∧ Divides m options cut second ls ∧
      Listing.lines m (.start options start) sectionName first true =
        (ks, .ok (.start options cut)) ∧
      Listing.lines m (.start options cut) sectionName second false =
        (ls, .ok (.start options stop)) ∧
      Listing.lines m (.start options start) sectionName (first ++ second) true =
        (ks ++ ls, .ok (.start options stop)) := by
  intro m cut stop
  have hm : m.IsLawful := Markup.isLawful_ofSymbols symbols mark
  have hroomBoth := hroom
  rw [List.length_append] at hroomBoth
  have hroomFirst : start.toNat + first.length < sizeLimit := by omega
  have hcut : cut.toNat = start.toNat + first.length := Address.toNat_add hroomFirst
  have hroomSecond : cut.toNat + second.length < sizeLimit := by omega
  obtain ⟨h, hstart, hnext, hname⟩ := Headers.exists_start hm sectionName start true
  obtain ⟨ks, hks, hdivides, hplaced⟩ :=
    exists_lines_of_start hm options hstart hroomFirst
  have hdue : (h.after m ks).AreDueAt symbols mark cut :=
    Headers.areDueAt_after hsorted hzeroes hdivides hfirst hwords hroomFirst haligned
      (Headers.take_of_first hnext (hname rfl))
  obtain ⟨h', hstart', htake⟩ := hdue.exists_start hsorted sectionName
  obtain ⟨ls, hls, hdivides', hplaced'⟩ :=
    exists_lines_of_start hm options hstart' hroomSecond
  have hboth := hdivides.append hzeroes hwords hdivides'
  have hplacedBoth : h.ArePlaced m (ks ++ ls) :=
    Headers.arePlaced_append.mpr ⟨hplaced, hdivides'.arePlaced_congr htake.symm hplaced'⟩
  refine ⟨ks, ls, hdivides, hdivides', hks, hls, ?_⟩
  rw [lines_of_divides hm hstart hboth hplacedBoth hroom, List.length_append, BitVec.ofNat_add,
    ← BitVec.add_assoc]

/-- A listing in pieces is the listing at once. Printing two pieces one after the other, on one
session, gives the text of both together, if the first one is made of whole words, zeroes are
decoded and symbols lie whole words apart from the start. -/
theorem print_append (hsorted : symbols.Pairwise fun s t => s.address < t.address)
    (haligned : ∀ s ∈ symbols, s.address.toNat % insnSize = start.toNat % insnSize)
    (mark : Style → String → String) (hzeroes : options.decodeZeroes = true) (sectionName : String)
    (hfirst : first ≠ []) (hwords : first.length % insnSize = 0)
    (hroom : start.toNat + first.length + second.length < sizeLimit) :
    let m := Markup.ofSymbols symbols mark
    ∃ (o p : Output) (cut stop : Session),
      print m (.start options start) sectionName first true = (o, cut) ∧
      print m cut sectionName second false = (p, stop) ∧
      o.fault = none ∧ p.fault = none ∧
      print m (.start options start) sectionName (first ++ second) true =
        ({ text := o.text ++ p.text, warnings := o.warnings ++ p.warnings }, stop) := by
  intro m
  have hm : m.IsLawful := Markup.isLawful_ofSymbols symbols mark
  have hcut : (start + BitVec.ofNat 64 first.length).toNat = start.toNat + first.length :=
    Address.toNat_add (by omega)
  have hroom' : start.toNat + (first ++ second).length < sizeLimit := by
    rwa [List.length_append, ← Nat.add_assoc]
  obtain ⟨ks, ls, hdivides, hdivides', hks, hls, hboth⟩ :=
    lines_append hsorted haligned hzeroes sectionName hfirst hwords hroom'
  obtain ⟨hfault, -⟩ := linesOutput_of_divides hm hdivides (by omega)
  obtain ⟨hfault', -⟩ := linesOutput_of_divides hm hdivides' (by omega)
  refine ⟨_, _, _, _, print_of_lines hks, print_of_lines hls, hfault, hfault', ?_⟩
  have hdecoder : (Session.start options start).decoder = .builtin options := rfl
  have hdecoder' : (Session.start options (start + BitVec.ofNat 64 first.length)).decoder =
      .builtin options := rfl
  rw [print_of_lines hboth, linesOutput_append, hdecoder, hdecoder', Output.append, hfault, hfault']

/-- A word of zeroes, and behind it a branch and one more byte, with a symbol at the cut between
them. -/
theorem print_append_of_symbol_at_cut :
    let symbols : List Symbol := [⟨0x1004, "behind"⟩]
    let m := Markup.ofSymbols symbols fun _ text => text
    let first : List UInt8 := [0, 0, 0, 0]
    let second : List UInt8 := [0x00, 0x00, 0x00, 0x14, 0x01]
    let options : Options := { decodeZeroes := true }
    symbols.Pairwise (fun s t => s.address < t.address) ∧
      (∀ s ∈ symbols, s.address.toNat % insnSize = (0x1000 : Address).toNat % insnSize) ∧
      options.decodeZeroes = true ∧ first ≠ [] ∧ first.length % insnSize = 0 ∧
      (0x1000 : Address).toNat + first.length + second.length < sizeLimit ∧
      ∃ (o p : Output) (cut stop : Session),
        print m (.start options 0x1000) ".text" first true = (o, cut) ∧
        print m cut ".text" second false = (p, stop) ∧
        (print m (.start options 0x1000) ".text" (first ++ second) true).1.text =
          o.text ++ p.text := by
  intro symbols m first second options
  have hsorted : symbols.Pairwise fun s t => s.address < t.address := by decide
  have haligned : ∀ s ∈ symbols,
      s.address.toNat % insnSize = (0x1000 : Address).toNat % insnSize := by decide
  have hzeroes : options.decodeZeroes = true := rfl
  have hroom : (0x1000 : Address).toNat + first.length + second.length < sizeLimit := by decide
  obtain ⟨o, p, cut, stop, hfirst, hsecond, -, -, hboth⟩ :=
    print_append hsorted haligned (fun _ text => text) hzeroes ".text" (by decide) (by decide) hroom
  exact ⟨hsorted, haligned, hzeroes, by decide, by decide, hroom, o, p, cut, stop, hfirst, hsecond,
    by rw [hboth]⟩

end Symbols

end Listing

end A64Disassembler
