import A64Disassembler.Proofs.Listing.Pieces

/-!
# The names of an address with several symbols

A list may have several symbols at one address. An operand that refers to the address shows the last
one of them, and so does the header of the first line of a listing: both look for the symbol at or
before the address. The header of a later line shows the first one, because a listing looks for the
next symbol after those that it has named. So an address behind the start of a listing has one name
only if the first and the last one of its symbols have the same name.
-/

namespace A64Disassembler

section Symbols

variable {symbols : List Symbol} {mark : Style → String → String}

/-- The last symbol at an address is there. -/
theorem Symbol.address_of_getLast? {a : Address} {s : Symbol}
    (h : (symbols.filter fun t => t.address = a).getLast? = some s) : s.address = a :=
  of_decide_eq_true (List.mem_filter.mp (List.mem_of_getLast? h)).2

/-- An operand that refers to an address with symbols shows the last one of them. -/
theorem InsnPrinter.operandText_of_symbol
    (hsorted : symbols.Pairwise fun s t => s.address ≤ t.address) {s last : Symbol}
    (hs : s ∈ symbols)
    (hlast : (symbols.filter fun t => t.address = s.address).getLast? = some last)
    {o : Operand} (haddress : o.isAddress = true) (hkind : o.kind = .imm (.const s.address)) :
    operandText (.ofSymbols symbols mark) o =
      .ok (mark .address (Numeral.hex s.address.toNat) ++
        (" <" ++ mark .symbol last.name ++ ">")) := by
  have hsame : last.address = s.address := Symbol.address_of_getLast? hlast
  have hdistance : s.address.distanceFrom last.address = .ok 0 :=
    Address.distanceFrom_eq_ok.mpr
      ⟨BitVec.le_of_eq hsame, by rw [hsame]; exact (BitVec.sub_self _).symm⟩
  have hname : addressName (.ofSymbols symbols mark) s.address =
      .ok (" <" ++ mark .symbol last.name ++ ">") := by
    rw [addressName, Markup.symbolAt_ofSymbols_eq_getLast? hsorted hs, hlast]
    refine bind_eq_ok.mpr ⟨0, hdistance, ?_⟩
    simp only [if_pos, String.append_empty]
    rfl
  have hconst : (Expr.const s.address).const? = some s.address := rfl
  rw [operandText, hkind]
  dsimp only
  rw [immText, haddress, hconst]
  exact bind_eq_ok.mpr ⟨_, hname, rfl⟩

end Symbols

namespace Listing

section Symbols

variable {symbols : List Symbol} {mark : Style → String → String} {options : Options}
  {start : Address} {data : List UInt8} {lines : List Line}

/-- A listing that starts at an address with symbols begins with the header of the last one. -/
theorem Headers.start_of_symbol (hsorted : symbols.Pairwise fun s t => s.address ≤ t.address)
    {s last : Symbol} (hs : s ∈ symbols)
    (hlast : (symbols.filter fun t => t.address = s.address).getLast? = some last)
    (sectionName : String) (isFirst : Bool) :
    Headers.start (.ofSymbols symbols mark) sectionName s.address isFirst =
      .ok { first := some (last.name, 0),
            next := (Markup.ofSymbols symbols mark).symbolAfter s.address } := by
  have hsame : last.address = s.address := Symbol.address_of_getLast? hlast
  rw [Headers.start, Markup.symbolAt_ofSymbols_eq_getLast? hsorted hs, hlast]
  exact if_pos hsame.symm

/-- Behind the first line, a line has the header of the first symbol at its address, if zeroes are
decoded and symbols lie whole words apart from the start. -/
theorem header_eq_of_divides (hsorted : symbols.Pairwise fun s t => s.address ≤ t.address)
    (hzeroes : options.decodeZeroes = true)
    (hdivides : Divides (.ofSymbols symbols mark) options start data lines)
    (hroom : start.toNat + data.length < sizeLimit)
    (haligned : ∀ s ∈ symbols, s.address.toNat % insnSize = start.toNat % insnSize)
    (hplaced : (Headers.behind (.ofSymbols symbols mark) start).ArePlaced (.ofSymbols symbols mark)
      lines.tail) :
    ∀ l ∈ lines.tail, l.header =
      (symbols.find? fun s => s.address = l.address).map fun s =>
        { address := l.address, name := s.name } := by
  induction hdivides with
  | nil => simp
  | @cons l rest lines hbytes hstep hbody hrest ih =>
    rw [List.tail_cons] at hplaced ⊢
    cases lines with
    | nil => simp
    | cons k lines =>
      have hne : rest ≠ [] := mt hrest.eq_nil_iff.mp (List.cons_ne_nil k lines)
      have hsize : l.bytes.length = insnSize :=
        (length_of_step_of_decodeZeroes hzeroes hstep hbody).resolve_right fun hlast =>
          hne hlast.2
      rw [List.length_append, hsize] at hroom
      rw [hsize] at hrest ih
      have hnext : (l.address + BitVec.ofNat 64 insnSize).toNat = l.address.toNat + insnSize :=
        Address.toNat_add (by omega)
      have hk : k.address = l.address + BitVec.ofNat 64 insnSize := hrest.address_of_cons
      have hdue : (Headers.behind (.ofSymbols symbols mark) l.address).AreDueAt symbols mark
          (l.address + BitVec.ofNat 64 insnSize) :=
        Headers.areDueAt_behind_word (by omega) haligned
      obtain ⟨hheader, hplaced⟩ := hplaced
      rw [hk, hdue.take_eq hsorted] at hheader hplaced
      rw [← hk] at hheader
      have haligned' : ∀ s ∈ symbols, s.address.toNat % insnSize =
          (l.address + BitVec.ofNat 64 insnSize).toNat % insnSize := by
        simpa only [hnext, Nat.add_mod_right] using haligned
      exact List.forall_mem_cons.mpr ⟨hheader, ih (by omega) haligned' hplaced⟩

/-- What the names of an address with symbols are. The text of a listing that is not a continuation
is made of lines that divide the data, each after its header. Every line at an address with symbols
has a header. In the first line it is the name that operands show which refer to the address, and
that of the last symbol there. In all other lines it is the name of the first symbol there. Zeroes
are decoded, and symbols lie whole words apart from the start. -/
theorem print_names_of_address (hsorted : symbols.Pairwise fun s t => s.address ≤ t.address)
    (haligned : ∀ s ∈ symbols, s.address.toNat % insnSize = start.toNat % insnSize)
    (mark : Style → String → String) (hzeroes : options.decodeZeroes = true) (sectionName : String)
    (hroom : start.toNat + data.length < sizeLimit) :
    let m := Markup.ofSymbols symbols mark
    ∃ (ls : List Line) (output : Output) (stop : Address),
      print m (.start options start) sectionName data true = (output, .start options stop) ∧
      output.fault = none ∧
      output.text =
        String.join (ls.map fun l => l.headerText ++ (l.bodyOutput m (.builtin options)).text) ∧
      ls.flatMap Line.bytes = data ∧
      ∀ before l after, ls = before ++ l :: after →
        l.address.toNat = start.toNat + (before.flatMap Line.bytes).length ∧
        ∀ s ∈ symbols, s.address = l.address → ∃ shown referred : Symbol,
          l.header = some { address := l.address, name := shown.name } ∧
          (∀ o : Operand, o.isAddress = true → o.kind = .imm (.const l.address) →
            InsnPrinter.operandText m o =
              .ok (mark .address (Numeral.hex l.address.toNat) ++
                (" <" ++ mark .symbol referred.name ++ ">"))) ∧
          (symbols.filter fun t => t.address = l.address).getLast? = some referred ∧
          if before = [] then shown = referred
          else (symbols.filter fun t => t.address = l.address).head? = some shown := by
  intro m
  have hm : m.IsLawful := Markup.isLawful_ofSymbols symbols mark
  obtain ⟨h, hstart, hnext, hfirst⟩ := Headers.exists_start hm sectionName start true
  obtain ⟨ls, hls, hdivides, hplaced⟩ := exists_lines_of_start hm options hstart hroom
  obtain ⟨hfault, htext⟩ := linesOutput_of_divides hm hdivides hroom
  refine ⟨ls, _, _, print_of_lines hls, hfault, htext, hdivides.flatMap_bytes,
    fun before l after hsplit => ⟨(hdivides.line_of_split hroom hsplit).2.2, fun s hs hsl => ?_⟩⟩
  rw [← hsl]
  have hmem : s ∈ symbols.filter fun t => t.address = s.address :=
    List.mem_filter.mpr ⟨hs, decide_eq_true rfl⟩
  have hlast := List.getLast?_eq_some_getLast (List.ne_nil_of_mem hmem)
  subst hsplit
  cases before with
  | nil =>
    refine ⟨_, _, ?_, fun _ => InsnPrinter.operandText_of_symbol hsorted hs hlast, hlast, rfl⟩
    have hl : l.address = start := hdivides.address_of_cons
    rw [← hl, ← hsl, Headers.start_of_symbol hsorted hs hlast] at hstart
    obtain rfl := Except.ok.inj hstart
    rw [hplaced.1, ← hsl]
    rfl
  | cons first before =>
    have hstop : first.address = start := hdivides.address_of_cons
    have hbehind := hplaced.2
    rw [hstop, Headers.take_of_first hnext (hfirst rfl)] at hbehind
    have hheader := header_eq_of_divides hsorted hzeroes hdivides hroom haligned hbehind l (by simp)
    have hhead := List.head?_eq_some_head (List.ne_nil_of_mem hmem)
    refine ⟨_, _, ?_, fun _ => InsnPrinter.operandText_of_symbol hsorted hs hlast, hlast, hhead⟩
    rw [hheader, ← hsl, ← List.head?_filter, hhead]
    rfl

/-- A branch to the next word, which has two symbols and is the last one of the data. -/
theorem print_names_of_branch_target :
    let symbols : List Symbol := [⟨0x1000, "main"⟩, ⟨0x1004, "first"⟩, ⟨0x1004, "second"⟩]
    let m := Markup.ofSymbols symbols fun _ text => text
    let data : List UInt8 := [0x01, 0x00, 0x00, 0x14, 0x1f, 0x20, 0x03, 0xd5]
    let options : Options := { decodeZeroes := true }
    symbols.Pairwise (fun s t => s.address ≤ t.address) ∧
      (∀ s ∈ symbols, s.address.toNat % insnSize = (0x1000 : Address).toNat % insnSize) ∧
      options.decodeZeroes = true ∧ (0x1000 : Address).toNat + data.length < sizeLimit ∧
      ∃ (ls : List Line) (output : Output) (stop : Address),
        print m (.start options 0x1000) ".text" data true = (output, .start options stop) ∧
        ls.flatMap Line.bytes = data ∧
        ∀ before l after, ls = before ++ l :: after → before ≠ [] → l.address = 0x1004 →
          l.header = some { address := 0x1004, name := "first" } ∧
          InsnPrinter.operandText m { kind := .imm (.const 0x1004), isAddress := true } =
            .ok "1004 <second>" := by
  intro symbols m data options
  have hsorted : symbols.Pairwise fun s t => s.address ≤ t.address := by decide
  have haligned : ∀ s ∈ symbols,
      s.address.toNat % insnSize = (0x1000 : Address).toNat % insnSize := by decide
  have hzeroes : options.decodeZeroes = true := rfl
  have hroom : (0x1000 : Address).toNat + data.length < sizeLimit := by decide
  obtain ⟨ls, output, stop, hprint, -, -, hbytes, hlines⟩ :=
    print_names_of_address hsorted haligned (fun _ text => text) hzeroes ".text" hroom
  refine ⟨hsorted, haligned, hzeroes, hroom, ls, output, stop, hprint, hbytes,
    fun before l after hsplit hbefore haddress => ?_⟩
  obtain ⟨-, hnames⟩ := hlines before l after hsplit
  obtain ⟨shown, referred, hheader, hoperand, hlast, hfirst⟩ :=
    hnames ⟨0x1004, "first"⟩ (by simp [symbols]) haddress.symm
  rw [if_neg hbefore] at hfirst
  rw [haddress] at hheader hoperand hlast hfirst
  have hshown : shown = ⟨0x1004, "first"⟩ := (Option.some.inj hfirst).symm
  have hreferred : referred = ⟨0x1004, "second"⟩ := (Option.some.inj hlast).symm
  rw [hheader, hoperand _ rfl rfl, hshown, hreferred]
  exact ⟨rfl, by decide +kernel⟩

/-- A branch shows the last one of the two symbols at the next word, and the header there is that of
the first one. -/
theorem print_gives_branch_target_two_names :
    let symbols : List Symbol := [⟨0x1000, "main"⟩, ⟨0x1004, "first"⟩, ⟨0x1004, "second"⟩]
    symbols.Pairwise (fun s t => s.address ≤ t.address) ∧
      (print (.ofSymbols symbols fun _ text => text) (.start { decodeZeroes := true } 0x1000)
        ".text" [0x01, 0x00, 0x00, 0x14, 0x1f, 0x20, 0x03, 0xd5] true).1.text =
        "\n0000000000001000 <main>:\n    1000:\t14000001 \tb\t1004 <second>\n" ++
          "\n0000000000001004 <first>:\n    1004:\td503201f \tnop\n" := by
  decide +kernel

end Symbols

end Listing

end A64Disassembler
