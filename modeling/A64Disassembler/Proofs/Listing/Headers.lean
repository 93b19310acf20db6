import A64Disassembler.Proofs.Listing.Text

/-!
# Which lines have the header of a symbol

A listing keeps the next symbol that is to be named, and looks for the one after it when a line
starts at that symbol. A symbol at which no line starts, because it lies inside an instruction or
inside a word that does not decode, is never named and never replaced. So a line at a symbol has the
header of that symbol exactly if lines start at all symbols before it.

Lines start at all symbols whose distance from the start of the listing is a multiple of the size of
an instruction: instructions and words that do not decode take up one word, and a folded run of
whole words ends at the next symbol at the latest.
-/

namespace A64Disassembler

section Symbols

variable {symbols : List Symbol} {mark : Style → String → String}

/-- The symbol that a list in ascending order gives for an address is the least one after it. -/
theorem Markup.least_of_symbolAfter_ofSymbols
    (hsorted : symbols.Pairwise fun s t => s.address ≤ t.address) {a : Address} {s : Symbol}
    (h : (ofSymbols symbols mark).symbolAfter a = some s) :
    s ∈ symbols ∧ a < s.address ∧ ∀ t ∈ symbols, a < t.address → s.address ≤ t.address := by
  obtain ⟨hs, before, after, rfl, hbefore⟩ := List.find?_eq_some_iff_append.mp h
  refine ⟨by simp, of_decide_eq_true hs, fun t ht hat => ?_⟩
  rcases List.mem_append.mp ht with ht | ht
  · simpa [hat] using hbefore t ht
  · rcases List.mem_cons.mp ht with rfl | ht
    · exact BitVec.le_refl _
    · have hrest := (List.pairwise_append.mp hsorted).2.1
      exact (List.pairwise_cons.mp hrest).1 t ht

/-- A list gives no symbol for an address only if none lies after it. -/
theorem Markup.not_lt_of_symbolAfter_ofSymbols {a : Address}
    (h : (ofSymbols symbols mark).symbolAfter a = none) : ∀ t ∈ symbols, ¬ a < t.address := by
  simpa [ofSymbols] using h

/-- The symbol that a list in ascending order gives for an address before one of its symbols does
not lie behind that one. -/
theorem Markup.exists_symbolAfter_ofSymbols
    (hsorted : symbols.Pairwise fun s t => s.address ≤ t.address) {a : Address} {t : Symbol}
    (ht : t ∈ symbols) (hat : a < t.address) :
    ∃ s, (ofSymbols symbols mark).symbolAfter a = some s ∧ s.address ≤ t.address := by
  cases hs : (ofSymbols symbols mark).symbolAfter a with
  | none => exact absurd hat (not_lt_of_symbolAfter_ofSymbols hs t ht)
  | some s => exact ⟨s, rfl, (least_of_symbolAfter_ofSymbols hsorted hs).2.2 t ht hat⟩

/-- A list in ascending order has one symbol at most at every address. -/
theorem Symbol.eq_of_address_eq (hsorted : symbols.Pairwise fun s t => s.address < t.address)
    {s t : Symbol} (hs : s ∈ symbols) (ht : t ∈ symbols) (h : s.address = t.address) : s = t := by
  have hnodup : (symbols.map Symbol.address).Nodup :=
    List.pairwise_map.mpr (hsorted.imp fun hlt => BitVec.ne_of_lt hlt)
  exact List.inj_on_of_nodup_map hnodup hs ht h

end Symbols

namespace Listing

variable {m : Markup} {options : Options} {address : Address} {data : List UInt8}
  {lines : List Line}

/-- The headers that are due after all symbols up to an address have been named. -/
def Headers.behind (m : Markup) (a : Address) : Headers :=
  { first := none, next := m.symbolAfter a }

/-- A line at the next symbol has its header. -/
theorem Headers.take_behind_of_eq {a : Address} {s : Symbol} (h : m.symbolAfter a = some s) :
    (behind m a).take m s.address =
      (some { address := s.address, name := s.name }, behind m s.address) := by
  simp [take, behind, h]

/-- A line that is not at the next symbol has no header. -/
theorem Headers.take_behind_of_ne {a x : Address}
    (h : ∀ s, m.symbolAfter a = some s → s.address ≠ x) :
    (behind m a).take m x = (none, behind m a) := by
  cases hs : m.symbolAfter a with
  | none => simp [take, behind, hs]
  | some s => simp [take, behind, hs, h s hs]

/-- No header is due a second time at the same address. -/
theorem Headers.take_behind_self (hm : m.IsLawful) (a : Address) :
    (behind m a).take m a = (none, behind m a) :=
  take_behind_of_ne fun _ hs => (BitVec.ne_of_lt (hm.lt_symbolAfter hs)).symm

/-- A first line with a name of its own leaves the symbols behind it to be named. -/
theorem Headers.take_of_first {h : Headers} {a : Address} (hnext : h.next = m.symbolAfter a)
    (hfirst : h.first ≠ none) : (h.take m a).2 = behind m a := by
  obtain ⟨name, hname⟩ := Option.ne_none_iff_exists'.mp hfirst
  simp [take, behind, hname, hnext]

/-- A line is made of whole words or is the last one, and a folded line ends at the next symbol at
the latest. -/
theorem length_of_step (hm : m.IsLawful) {l : Line} {rest : List UInt8}
    (hstep : nextBody m (.start options l.address) (l.bytes ++ rest) =
      .ok (l.body, l.bytes.length, .start options (l.address + BitVec.ofNat 64 l.bytes.length)))
    (hbody : l.body.IsSound (.builtin options) l.address l.bytes (rest = [])) :
    (l.bytes.length < insnSize ∧ rest = []) ∨
      l.bytes.length % insnSize = 0 ∧ (l.bytes.length = insnSize ∨
        ∀ s, m.symbolAfter l.address = some s →
          l.bytes.length ≤ (s.address - l.address).toNat) := by
  cases hl : l.body with
  | folded =>
    rw [hl] at hstep
    have hfold := foldedZeroes_of_nextBody hstep
    rw [foldedZeroes_eq hm] at hfold
    have hlength := Except.ok.inj hfold
    split_ifs at hlength
    obtain ⟨-, -, hwords, hsymbol⟩ := of_foldLength_eq_some hlength
    refine .inr ⟨hwords, .inr fun s hs => hsymbol _ ?_⟩
    have haddress : (Session.start options l.address).address = l.address := rfl
    rw [haddress, hs, Option.map_some]
  | insn i =>
    rw [hl] at hbody
    exact .inr ⟨by rw [hbody.1, Nat.mod_self], .inl hbody.1⟩
  | undecoded =>
    rw [hl] at hbody
    rcases hbody with ⟨hsize, -⟩ | hshort
    · exact .inr ⟨by rw [hsize, Nat.mod_self], .inl hsize⟩
    · exact .inl hshort

/-- A line is made of whole words and does not go past an address of the data that lies whole words
behind the line and that the next symbol never lies behind. -/
theorem length_of_step_before (hm : m.IsLawful) {l : Line} {rest : List UInt8}
    (hstep : nextBody m (.start options l.address) (l.bytes ++ rest) =
      .ok (l.body, l.bytes.length, .start options (l.address + BitVec.ofNat 64 l.bytes.length)))
    (hbody : l.body.IsSound (.builtin options) l.address l.bytes (rest = [])) {x : Address}
    (hlt : l.address < x) (hstop : x.toNat < l.address.toNat + (l.bytes.length + rest.length))
    (hwords : (x.toNat - l.address.toNat) % insnSize = 0)
    (hnext : ∀ a < x, ∃ s, m.symbolAfter a = some s ∧ s.address ≤ x) :
    l.bytes.length % insnSize = 0 ∧ l.address.toNat + l.bytes.length ≤ x.toNat := by
  have hltNat := BitVec.lt_def.mp hlt
  rcases length_of_step hm hstep hbody with ⟨hshort, rfl⟩ | ⟨hwhole, hsize | hsymbol⟩
  · rw [List.length_nil] at hstop
    simp only [insnSize] at hshort hwords
    omega
  · refine ⟨hwhole, ?_⟩
    simp only [insnSize] at hsize hwords
    omega
  · obtain ⟨s, hs, hsx⟩ := hnext l.address hlt
    have hle := hsymbol s hs
    rw [BitVec.toNat_sub_of_le (BitVec.le_of_lt (hm.lt_symbolAfter hs))] at hle
    have hsxNat := BitVec.le_def.mp hsx
    exact ⟨hwhole, by omega⟩

/-- A line starts at every address of the data that lies whole words behind the start and that the
next symbol never lies behind. -/
theorem Divides.exists_line_at (hm : m.IsLawful) (h : Divides m options address data lines)
    (hroom : address.toNat + data.length < sizeLimit) {x : Address}
    (hstart : address ≤ x) (hstop : x.toNat < address.toNat + data.length)
    (hwords : (x.toNat - address.toNat) % insnSize = 0)
    (hnext : ∀ a < x, ∃ s, m.symbolAfter a = some s ∧ s.address ≤ x) :
    ∃ l ∈ lines, l.address = x := by
  induction h with
  | nil => exact absurd (BitVec.le_def.mp hstart) (Nat.not_le.mpr hstop)
  | @cons l rest lines hbytes hstep hbody hrest ih =>
    by_cases hx : l.address = x
    · exact ⟨l, List.mem_cons_self, hx⟩
    · have hlt : l.address < x := BitVec.lt_of_le_ne hstart hx
      rw [List.length_append] at hroom hstop
      obtain ⟨hwhole, hle⟩ := length_of_step_before hm hstep hbody hlt hstop hwords hnext
      have haddress : (l.address + BitVec.ofNat 64 l.bytes.length).toNat =
          l.address.toNat + l.bytes.length := Address.toNat_add (by omega)
      obtain ⟨l', hl', hl'x⟩ := ih (by omega) (BitVec.le_def.mpr (by omega)) (by omega)
        (by simp only [insnSize] at *; omega)
      exact ⟨l', List.mem_cons_of_mem l hl', hl'x⟩

/-- Whether a line starts at every symbol between two addresses. -/
def LinesMeet (symbols : List Symbol) (low high : Address) (ls : List Line) : Prop :=
  ∀ s ∈ symbols, low < s.address → s.address < high → ∃ l ∈ ls, l.address = s.address

section Symbols

variable {symbols : List Symbol} {mark : Style → String → String} {start : Address}

/-- The first line behind an address has a header exactly if it is at a symbol and no other symbol
lies between. -/
theorem header_iff_of_first (hsorted : symbols.Pairwise fun s t => s.address < t.address)
    {a x : Address} (hlt : a < x) (h : Header) :
    ((Headers.behind (.ofSymbols symbols mark) a).take (.ofSymbols symbols mark) x).1 = some h ↔
      (∃ s ∈ symbols, s.address = x ∧ h = { address := x, name := s.name }) ∧
        LinesMeet symbols a x [] := by
  by_cases hnext : ∃ s, (Markup.ofSymbols symbols mark).symbolAfter a = some s ∧ s.address = x
  · obtain ⟨s, hs, rfl⟩ := hnext
    obtain ⟨hmem, -, hleast⟩ :=
      Markup.least_of_symbolAfter_ofSymbols (hsorted.imp BitVec.le_of_lt) hs
    rw [Headers.take_behind_of_eq hs]
    constructor
    · intro hh
      refine ⟨⟨s, hmem, rfl, (Option.some.inj hh).symm⟩, fun t ht hat hts => ?_⟩
      exact absurd (hleast t ht hat) (BitVec.not_le.mpr hts)
    · rintro ⟨⟨t, ht, hts, rfl⟩, -⟩
      rw [Symbol.eq_of_address_eq hsorted ht hmem hts]
  · have hne : ∀ s, (Markup.ofSymbols symbols mark).symbolAfter a = some s → s.address ≠ x :=
      fun s hs hx => hnext ⟨s, hs, hx⟩
    rw [Headers.take_behind_of_ne hne]
    refine iff_of_false (by simp) ?_
    rintro ⟨⟨t, ht, rfl, -⟩, hmeet⟩
    cases hs : (Markup.ofSymbols symbols mark).symbolAfter a with
    | none => exact Markup.not_lt_of_symbolAfter_ofSymbols hs t ht hlt
    | some s =>
      -- The next symbol lies before the line, and no line starts there.
      obtain ⟨hmem, has, hleast⟩ :=
        Markup.least_of_symbolAfter_ofSymbols (hsorted.imp BitVec.le_of_lt) hs
      have hst : s.address < t.address := BitVec.lt_of_le_ne (hleast t ht hlt) (hne s hs)
      simpa using hmeet s hmem has hst

/-- Behind a line at the next symbol, only the symbols behind the line matter. -/
theorem linesMeet_cons_of_eq (hsorted : symbols.Pairwise fun s t => s.address < t.address)
    {a x : Address} {l : Line} {before : List Line} {s : Symbol}
    (hs : (Markup.ofSymbols symbols mark).symbolAfter a = some s) (hl : l.address = s.address)
    (hbefore : ∀ l' ∈ before, l.address < l'.address) :
    LinesMeet symbols a x (l :: before) ↔ LinesMeet symbols l.address x before := by
  obtain ⟨-, has, hleast⟩ := Markup.least_of_symbolAfter_ofSymbols (hsorted.imp BitVec.le_of_lt) hs
  rw [← hl] at has hleast
  constructor
  · intro h t ht hlt htx
    obtain ⟨l', hl', haddress⟩ := h t ht (BitVec.lt_trans has hlt) htx
    rcases List.mem_cons.mp hl' with rfl | hmem
    · exact absurd hlt (haddress ▸ BitVec.lt_irrefl _)
    · exact ⟨l', hmem, haddress⟩
  · intro h t ht hat htx
    by_cases heq : l.address = t.address
    · exact ⟨l, List.mem_cons_self, heq⟩
    · obtain ⟨l', hl', haddress⟩ := h t ht (BitVec.lt_of_le_ne (hleast t ht hat) heq) htx
      exact ⟨l', List.mem_cons_of_mem l hl', haddress⟩

/-- A line that is not at the next symbol does not help to meet all symbols. -/
theorem linesMeet_cons_of_ne (hsorted : symbols.Pairwise fun s t => s.address < t.address)
    {a x : Address} {l : Line} {before : List Line}
    (hne : ∀ s, (Markup.ofSymbols symbols mark).symbolAfter a = some s → s.address ≠ l.address)
    (hbefore : ∀ l' ∈ before, l.address < l'.address) (hlx : l.address < x) :
    LinesMeet symbols a x (l :: before) ↔ LinesMeet symbols a x before := by
  constructor
  · intro h t ht hat htx
    obtain ⟨l', hl', haddress⟩ := h t ht hat htx
    rcases List.mem_cons.mp hl' with rfl | hmem
    · cases hs : (Markup.ofSymbols symbols mark).symbolAfter a with
      | none => exact absurd hat (Markup.not_lt_of_symbolAfter_ofSymbols hs t ht)
      | some s =>
        -- The line is at a symbol behind the next one, which then no line can meet.
        obtain ⟨hmem, has, hleast⟩ :=
          Markup.least_of_symbolAfter_ofSymbols (hsorted.imp BitVec.le_of_lt) hs
        have hsl : s.address < l'.address :=
          BitVec.lt_of_le_ne (haddress ▸ hleast t ht hat) (hne s hs)
        obtain ⟨k, hk, hks⟩ := h s hmem has (BitVec.lt_trans hsl hlx)
        rcases List.mem_cons.mp hk with rfl | hk
        · exact absurd hks.symm (hne s hs)
        · exact absurd (hks ▸ hbefore k hk) (BitVec.not_lt.mpr (BitVec.le_of_lt hsl))
    · exact ⟨l', hmem, haddress⟩
  · intro h t ht hat htx
    obtain ⟨l', hl', haddress⟩ := h t ht hat htx
    exact ⟨l', List.mem_cons_of_mem l hl', haddress⟩

/-- Among lines in ascending order, those at lower addresses stand before a line. -/
theorem mem_before_of_lt {before after : List Line} {k l : Line}
    (hascending : (before ++ l :: after).Pairwise fun k l => k.address < l.address)
    (hk : k ∈ before ++ l :: after) (hlt : k.address < l.address) : k ∈ before := by
  rcases List.mem_append.mp hk with hk | hk
  · exact hk
  · rcases List.mem_cons.mp hk with rfl | hk
    · exact absurd hlt (BitVec.lt_irrefl _)
    · have hrest := (List.pairwise_append.mp hascending).2.1
      have hgt := (List.pairwise_cons.mp hrest).1 k hk
      exact absurd hgt (BitVec.not_lt.mpr (BitVec.le_of_lt hlt))

/-- A line behind an address has the header of a symbol exactly if it is at the symbol and lines
before it start at all symbols between. -/
theorem header_iff_of_arePlaced (hsorted : symbols.Pairwise fun s t => s.address < t.address)
    {a : Address} {before after : List Line} {l : Line}
    (hplaced : (Headers.behind (.ofSymbols symbols mark) a).ArePlaced (.ofSymbols symbols mark)
      (before ++ l :: after))
    (hascending : (before ++ l :: after).Pairwise fun k l => k.address < l.address)
    (hbehind : ∀ l' ∈ before ++ l :: after, a < l'.address) (h : Header) :
    l.header = some h ↔
      (∃ s ∈ symbols, s.address = l.address ∧ h = { address := l.address, name := s.name }) ∧
        LinesMeet symbols a l.address before := by
  induction before generalizing a with
  | nil =>
    rw [hplaced.1]
    exact header_iff_of_first hsorted (hbehind l (by simp)) h
  | cons first before ih =>
    obtain ⟨-, hplaced⟩ := hplaced
    obtain ⟨hfirst, hascending⟩ := List.pairwise_cons.mp hascending
    have hbefore : ∀ l' ∈ before, first.address < l'.address := fun l' hl' =>
      hfirst l' (List.mem_append_left _ hl')
    by_cases hnext : ∃ s, (Markup.ofSymbols symbols mark).symbolAfter a = some s ∧
        s.address = first.address
    · obtain ⟨s, hs, hsfirst⟩ := hnext
      rw [← hsfirst, Headers.take_behind_of_eq hs, hsfirst] at hplaced
      rw [ih hplaced hascending hfirst, linesMeet_cons_of_eq hsorted hs hsfirst.symm hbefore]
    · have hne : ∀ s, (Markup.ofSymbols symbols mark).symbolAfter a = some s →
          s.address ≠ first.address := fun s hs hx => hnext ⟨s, hs, hx⟩
      rw [Headers.take_behind_of_ne hne] at hplaced
      have hbehind' : ∀ l' ∈ before ++ l :: after, a < l'.address := fun l' hl' =>
        hbehind l' (List.mem_cons_of_mem first hl')
      rw [ih hplaced hascending hbehind', linesMeet_cons_of_ne hsorted hne hbefore
        (hfirst l (by simp))]

/-- A line of a listing after the first one has the header of a symbol exactly if it is at the
symbol and lines before it start at all symbols behind the start. -/
theorem header_iff_of_divides (hsorted : symbols.Pairwise fun s t => s.address < t.address)
    {headers : Headers} (hnext : headers.next = (Markup.ofSymbols symbols mark).symbolAfter start)
    (hfirst : headers.first ≠ none) (hplaced : headers.ArePlaced (.ofSymbols symbols mark) lines)
    (hdivides : Divides (.ofSymbols symbols mark) options start data lines)
    (hroom : start.toNat + data.length < sizeLimit) {before after : List Line} {l : Line}
    (hlines : lines = before ++ l :: after) (hbefore : before ≠ []) (h : Header) :
    l.header = some h ↔
      (∃ s ∈ symbols, s.address = l.address ∧ h = { address := l.address, name := s.name }) ∧
        LinesMeet symbols start l.address before := by
  obtain ⟨first, before, rfl⟩ := List.exists_cons_of_ne_nil hbefore
  have hascending := hdivides.pairwise_address hroom
  have hsplit : lines = [] ++ first :: (before ++ l :: after) := hlines
  obtain ⟨-, -, haddress⟩ := hdivides.line_of_split hroom hsplit
  have hstart : first.address = start := BitVec.eq_of_toNat_eq (by simpa using haddress)
  subst hlines
  rw [List.cons_append, List.pairwise_cons] at hascending
  obtain ⟨-, hplaced⟩ := hplaced
  rw [hstart, Headers.take_of_first hnext hfirst, ← hstart] at hplaced
  rw [header_iff_of_arePlaced hsorted hplaced hascending.2 hascending.1, hstart]
  -- The first line starts at no symbol behind the start.
  refine and_congr_right fun _ => ⟨fun hmeet t ht hlt htx => ?_, fun hmeet t ht hlt htx => ?_⟩
  · obtain ⟨l', hl', hl't⟩ := hmeet t ht hlt htx
    exact ⟨l', List.mem_cons_of_mem first hl', hl't⟩
  · obtain ⟨l', hl', hl't⟩ := hmeet t ht hlt htx
    rcases List.mem_cons.mp hl' with rfl | hmem
    · exact absurd hlt (hl't ▸ hstart ▸ BitVec.lt_irrefl _)
    · exact ⟨l', hmem, hl't⟩

/-- Symbols get their headers until lines step over one of them. The text of a listing that is not a
continuation is made of lines that divide the data, each after its header. A line after the first
one has the header of a symbol exactly if it is at the symbol and lines before it start at all
symbols between the start and the line. -/
theorem print_header_iff (hsorted : symbols.Pairwise fun s t => s.address < t.address)
    (mark : Style → String → String) (options : Options) (sectionName : String)
    (hroom : start.toNat + data.length < sizeLimit) :
    let m := Markup.ofSymbols symbols mark
    ∃ (ls : List Line) (output : Output) (stop : Address),
      print m (.start options start) sectionName data true = (output, .start options stop) ∧
      output.fault = none ∧
      output.text =
        String.join (ls.map fun l => l.headerText ++ (l.bodyOutput m (.builtin options)).text) ∧
      ls.flatMap Line.bytes = data ∧
      ∀ before l after, ls = before ++ l :: after → before ≠ [] →
        l.address.toNat = start.toNat + (before.flatMap Line.bytes).length ∧
        ∀ h, l.header = some h ↔
          (∃ s ∈ symbols, s.address = l.address ∧ h = { address := l.address, name := s.name }) ∧
            ∀ s ∈ symbols, start < s.address → s.address < l.address →
              ∃ k ∈ before, k.address = s.address := by
  intro m
  have hm : m.IsLawful := Markup.isLawful_ofSymbols symbols mark
  obtain ⟨headers, ls, output, hnext, hfirst, hprint, hfault, htext, hdivides, hplaced⟩ :=
    exists_print hm options sectionName true hroom
  refine ⟨ls, output, _, hprint, hfault, htext, hdivides.flatMap_bytes,
    fun before l after hsplit hbefore => ⟨(hdivides.line_of_split hroom hsplit).2.2, fun h => ?_⟩⟩
  exact header_iff_of_divides hsorted hnext (hfirst rfl) hplaced hdivides hroom hsplit hbefore h

/-- A line at the second of two neighbouring symbols has its header. -/
theorem print_header_of_next_word :
    let symbols : List Symbol := [⟨0x1000, "first"⟩, ⟨0x1004, "second"⟩]
    let m := Markup.ofSymbols symbols fun _ text => text
    let data : List UInt8 := [0x1f, 0x20, 0x03, 0xd5, 0x1f, 0x20, 0x03, 0xd5]
    symbols.Pairwise (fun s t => s.address < t.address) ∧
      (0x1000 : Address).toNat + data.length < sizeLimit ∧
      ∃ (ls : List Line) (output : Output) (stop : Address),
        print m (.start {} 0x1000) ".text" data true = (output, .start {} stop) ∧
        output.text =
          String.join (ls.map fun l => l.headerText ++ (l.bodyOutput m (.builtin {})).text) ∧
        ∀ before l after, ls = before ++ l :: after → before ≠ [] → l.address = 0x1004 →
          l.header = some { address := 0x1004, name := "second" } := by
  intro symbols m data
  have hsorted : symbols.Pairwise fun s t => s.address < t.address := by decide
  have hroom : (0x1000 : Address).toNat + data.length < sizeLimit := by decide
  obtain ⟨ls, output, stop, hprint, -, htext, -, hlines⟩ :=
    print_header_iff hsorted (fun _ text => text) {} ".text" hroom
  refine ⟨hsorted, hroom, ls, output, stop, hprint, htext,
    fun before l after hsplit hbefore haddress => ?_⟩
  rw [(hlines before l after hsplit hbefore).2, haddress]
  refine ⟨⟨⟨0x1004, "second"⟩, by simp [symbols], rfl, rfl⟩, fun s hs hlt hgt => ?_⟩
  have hnone : ∀ s ∈ symbols, (0x1000 : Address) < s.address → ¬ s.address < 0x1004 := by decide
  exact absurd hgt (hnone s hs hlt)

/-- A symbol inside the first of three instructions takes away the header of the symbol at the
third. -/
theorem print_loses_header_behind_missed_symbol :
    let symbols : List Symbol := [⟨0x1002, "inside"⟩, ⟨0x1008, "behind"⟩]
    let nop : List UInt8 := [0x1f, 0x20, 0x03, 0xd5]
    symbols.Pairwise (fun s t => s.address < t.address) ∧
      (print (.ofSymbols symbols fun _ text => text) (.start {} 0x1000) ".text" (nop ++ nop ++ nop)
        true).1.text =
        "\n0000000000001000 <inside-0x2>:\n    1000:\td503201f \tnop\n" ++
          "    1004:\td503201f \tnop\n    1008:\td503201f \tnop\n" := by
  decide +kernel

/-- No header is lost if all symbols behind the start lie whole words behind it. Then a line after
the first one has a header exactly if it is at a symbol, and every symbol within the data has its
header. -/
theorem print_names_all_aligned_symbols
    (hsorted : symbols.Pairwise fun s t => s.address < t.address)
    (mark : Style → String → String) (options : Options) (sectionName : String)
    (hroom : start.toNat + data.length < sizeLimit)
    (haligned : ∀ s ∈ symbols, start < s.address →
      (s.address.toNat - start.toNat) % insnSize = 0) :
    let m := Markup.ofSymbols symbols mark
    ∃ (ls : List Line) (output : Output) (stop : Address),
      print m (.start options start) sectionName data true = (output, .start options stop) ∧
      output.fault = none ∧
      output.text =
        String.join (ls.map fun l => l.headerText ++ (l.bodyOutput m (.builtin options)).text) ∧
      (∀ before l after, ls = before ++ l :: after → before ≠ [] →
        ∀ h, l.header = some h ↔
          ∃ s ∈ symbols, s.address = l.address ∧ h = { address := l.address, name := s.name }) ∧
      ∀ s ∈ symbols, start < s.address → s.address.toNat < start.toNat + data.length →
        ∃ l ∈ ls, l.header = some { address := s.address, name := s.name } := by
  intro m
  have hm : m.IsLawful := Markup.isLawful_ofSymbols symbols mark
  obtain ⟨headers, ls, output, hnext, hfirst, hprint, hfault, htext, hdivides, hplaced⟩ :=
    exists_print hm options sectionName true hroom
  have hascending := hdivides.pairwise_address hroom
  have hle : symbols.Pairwise fun s t => s.address ≤ t.address := hsorted.imp BitVec.le_of_lt
  have hline : ∀ s ∈ symbols, start < s.address →
      s.address.toNat < start.toNat + data.length → ∃ l ∈ ls, l.address = s.address :=
    fun s hs hlt hstop => hdivides.exists_line_at hm hroom (BitVec.le_of_lt hlt) hstop
      (haligned s hs hlt) fun a ha => Markup.exists_symbolAfter_ofSymbols hle hs ha
  have hheader : ∀ before l after, ls = before ++ l :: after → before ≠ [] → ∀ h,
      l.header = some h ↔
        ∃ s ∈ symbols, s.address = l.address ∧ h = { address := l.address, name := s.name } := by
    intro before l after hsplit hbefore h
    rw [header_iff_of_divides hsorted hnext (hfirst rfl) hplaced hdivides hroom hsplit hbefore]
    refine and_iff_left fun s hs hlt hsl => ?_
    obtain ⟨-, -, haddress⟩ := hdivides.line_of_split hroom hsplit
    have hlength : (before.flatMap Line.bytes).length ≤ data.length := by
      rw [← hdivides.flatMap_bytes, hsplit, List.flatMap_append, List.length_append]
      exact Nat.le_add_right _ _
    have hslNat := BitVec.lt_def.mp hsl
    obtain ⟨k, hk, hks⟩ := hline s hs hlt (by omega)
    exact ⟨k, mem_before_of_lt (hsplit ▸ hascending) (hsplit ▸ hk) (hks ▸ hsl), hks⟩
  refine ⟨ls, output, _, hprint, hfault, htext, hheader, fun s hs hlt hstop => ?_⟩
  obtain ⟨l, hl, hls⟩ := hline s hs hlt hstop
  obtain ⟨before, after, hsplit⟩ := List.append_of_mem hl
  have hbefore : before ≠ [] := by
    rintro rfl
    obtain ⟨-, -, haddress⟩ := hdivides.line_of_split hroom hsplit
    have hltNat := BitVec.lt_def.mp hlt
    rw [← hls, haddress, List.flatMap_nil, List.length_nil] at hltNat
    omega
  exact ⟨l, hl, (hheader before l after hsplit hbefore _).mpr ⟨s, hs, hls.symm, by rw [hls]⟩⟩

end Symbols

end Listing

end A64Disassembler
