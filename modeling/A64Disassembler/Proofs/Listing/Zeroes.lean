import A64Disassembler.Proofs.Listing.Headers

/-!
# Which zeroes are folded

A run of zeroes is counted from the start of a line up to the next symbol or to the end of the data.
It is folded if it has four bytes at least and either is cut off there or has seven bytes at least,
and then as many whole words of it are folded as there are. So nothing but zeroes is hidden, what is
left of a run is less than a word, and a word of zeroes is shown only if the run is too short or is
ended early by another byte.
-/

namespace A64Disassembler

/-- The next symbol stays the same until it is reached. -/
theorem Markup.symbolAfter_ofSymbols_of_lt {symbols : List Symbol}
    {mark : Style → String → String} {a b : Address} (hab : a ≤ b)
    (hbefore : ∀ s, (Markup.ofSymbols symbols mark).symbolAfter a = some s → b < s.address) :
    (Markup.ofSymbols symbols mark).symbolAfter b =
      (Markup.ofSymbols symbols mark).symbolAfter a := by
  have hmono : ∀ t : Symbol, ¬ a < t.address → ¬ b < t.address := fun t hat hbt =>
    hat (BitVec.lt_def.mpr (Nat.lt_of_le_of_lt (BitVec.le_def.mp hab) (BitVec.lt_def.mp hbt)))
  cases hs : (Markup.ofSymbols symbols mark).symbolAfter a with
  | none =>
    refine List.find?_eq_none.mpr fun t ht => ?_
    simpa using hmono t (Markup.not_lt_of_symbolAfter_ofSymbols hs t ht)
  | some s =>
    obtain ⟨-, before, after, hsymbols, hnone⟩ := List.find?_eq_some_iff_append.mp hs
    refine List.find?_eq_some_iff_append.mpr
      ⟨decide_eq_true (hbefore s hs), before, after, hsymbols, fun t ht => ?_⟩
    simpa using hmono t (by simpa using hnone t ht)

namespace Listing

/-- The number of zeroes at the start of some bytes. -/
def zeroCount (bytes : List UInt8) : Nat :=
  (bytes.takeWhile (· == 0)).length

/-- The part of the data at an address that lies before the next symbol. -/
def upToSymbol (m : Markup) (address : Address) (data : List UInt8) : List UInt8 :=
  data.take (((m.symbolAfter address).map fun s => (s.address - address).toNat).getD data.length)

/-- There are no more zeroes than bytes. -/
theorem zeroCount_le_length (bytes : List UInt8) : zeroCount bytes ≤ bytes.length :=
  (List.takeWhile_prefix _).length_le

/-- Bytes that are cut off have all of their zeroes or as many as are left. -/
theorem zeroCount_take (count : Nat) (bytes : List UInt8) :
    zeroCount (bytes.take count) = min count (zeroCount bytes) := by
  rw [zeroCount, ← List.take_takeWhile, List.length_take, zeroCount]

/-- Zeroes in front of bytes are counted with them. -/
theorem zeroCount_append {zeroes : List UInt8} (h : ∀ byte ∈ zeroes, byte = 0)
    (bytes : List UInt8) : zeroCount (zeroes ++ bytes) = zeroes.length + zeroCount bytes := by
  rw [zeroCount, List.takeWhile_append_of_pos fun byte hbyte => beq_iff_eq.mpr (h byte hbyte),
    List.length_append, zeroCount]

/-- Zeroes that do not reach to the end of the bytes are ended by another byte. -/
theorem exists_getElem?_zeroCount {bytes : List UInt8} (h : zeroCount bytes ≠ bytes.length) :
    ∃ byte, bytes[zeroCount bytes]? = some byte ∧ byte ≠ 0 := by
  induction bytes with
  | nil => exact absurd rfl h
  | cons byte rest ih =>
    by_cases hbyte : byte = 0
    · subst hbyte
      have hcount : zeroCount (0 :: rest) = zeroCount rest + 1 := by simp [zeroCount]
      rw [hcount] at h ⊢
      exact ih (by simpa using h)
    · have hcount : zeroCount (byte :: rest) = 0 := by simp [zeroCount, hbyte]
      exact ⟨byte, by rw [hcount]; rfl, hbyte⟩

/-- The run of zeroes up to the next symbol is folded in whole words if it has four bytes at least
and either is not ended by another byte or has seven bytes at least. -/
theorem foldLength_eq_some_iff {toSymbol : Option Nat} {data window : List UInt8} {count : Nat}
    (hwindow : window = data.take (toSymbol.getD data.length)) :
    foldLength toSymbol data = some count ↔
      4 ≤ zeroCount window ∧ (zeroCount window = window.length ∨ 7 ≤ zeroCount window) ∧
        count = zeroCount window - zeroCount window % 4 := by
  have hle := zeroCount_le_length data
  have hrun : min (toSymbol.getD (zeroCount data)) (zeroCount data) = zeroCount window := by
    rw [hwindow, zeroCount_take]
    cases toSymbol with
    | none =>
      rw [Option.getD_none, Option.getD_none]
      omega
    | some distance => rfl
  have hcut : toSymbol = some (zeroCount window) ∨ (data.drop (zeroCount window)).isEmpty = true ↔
      zeroCount window = window.length := by
    rw [List.isEmpty_iff, List.drop_eq_nil_iff, hwindow, zeroCount_take, List.length_take]
    cases toSymbol with
    | none =>
      simp only [Option.getD_none, reduceCtorEq, false_or]
      omega
    | some distance =>
      simp only [Option.getD_some, Option.some.injEq]
      omega
  rw [foldLength, ← zeroCount, hrun, foldSize]
  simp only [hcut]
  split_ifs with hfold hwords
  · exact iff_of_false not_false (by omega)
  · rw [Option.some.injEq, eq_comm]
    omega
  · exact iff_of_false not_false (by omega)

section Lines

variable {m : Markup} {options : Options} {address : Address} {data : List UInt8}

/-- The first line is what a listing goes on with at its address, and the lines behind it divide the
data behind it. -/
theorem Divides.step_of_cons {l : Line} {after : List Line}
    (h : Divides m options address data (l :: after)) :
    l.address = address ∧ data = l.bytes ++ after.flatMap Line.bytes ∧
      nextBody m (.start options l.address) (l.bytes ++ after.flatMap Line.bytes) =
        .ok (l.body, l.bytes.length, .start options (l.address + BitVec.ofNat 64 l.bytes.length)) ∧
      l.body.IsSound (.builtin options) l.address l.bytes (after.flatMap Line.bytes = []) ∧
      Divides m options (l.address + BitVec.ofNat 64 l.bytes.length) (after.flatMap Line.bytes)
        after := by
  cases h with
  | cons hbytes hstep hbody hrest =>
    obtain rfl := hrest.flatMap_bytes
    exact ⟨rfl, rfl, hstep, hbody, hrest⟩

/-- How much is folded depends on the zeroes up to the next symbol. -/
theorem foldedZeroes_eq_some_iff (hm : m.IsLawful) (hzeroes : options.decodeZeroes = false)
    {count : Nat} :
    foldedZeroes m options address data = .ok (some count) ↔
      data.take 4 = List.replicate 4 0 ∧ 4 ≤ zeroCount (upToSymbol m address data) ∧
        (zeroCount (upToSymbol m address data) = (upToSymbol m address data).length ∨
          7 ≤ zeroCount (upToSymbol m address data)) ∧
        count = zeroCount (upToSymbol m address data) -
          zeroCount (upToSymbol m address data) % 4 := by
  rw [foldedZeroes_eq hm, Except.ok.injEq, hzeroes]
  simp only [Bool.false_eq_true, false_or]
  split_ifs with hword
  · exact iff_of_false not_false fun h => hword h.1
  · rw [foldLength_eq_some_iff rfl]
    exact (and_iff_right (not_not.mp hword)).symm

/-- A listing goes on with a folded line if there are zeroes to be folded. -/
theorem folded_of_foldedZeroes {s next : Session} {body : Body} {count folded : Nat}
    (h : nextBody m s data = .ok (body, count, next))
    (hfold : foldedZeroes m s.decoder.options s.address data = .ok (some folded)) :
    body = .folded := by
  obtain ⟨answer, hanswer, h⟩ := bind_eq_ok.mp h
  obtain rfl := Except.ok.inj (hfold.symm.trans hanswer)
  obtain ⟨skipped, -, h⟩ := bind_eq_ok.mp h
  cases h
  rfl

variable {l : Line} {rest : List UInt8} {next : Session}

/-- A folded line has as many whole words of zeroes as there are before the next symbol. -/
theorem length_of_folded (hm : m.IsLawful) (hzeroes : options.decodeZeroes = false)
    (hstep : nextBody m (.start options l.address) (l.bytes ++ rest) =
      .ok (l.body, l.bytes.length, next)) (hfolded : l.body = .folded) :
    4 ≤ zeroCount (upToSymbol m l.address (l.bytes ++ rest)) ∧
      l.bytes.length = zeroCount (upToSymbol m l.address (l.bytes ++ rest)) -
        zeroCount (upToSymbol m l.address (l.bytes ++ rest)) % 4 := by
  rw [hfolded] at hstep
  obtain ⟨-, hfour, -, hlength⟩ :=
    (foldedZeroes_eq_some_iff hm hzeroes).mp (foldedZeroes_of_nextBody hstep)
  exact ⟨hfour, hlength⟩

/-- A folded line does not go past the next symbol. -/
theorem add_length_le_of_folded (hm : m.IsLawful) (hzeroes : options.decodeZeroes = false)
    (hstep : nextBody m (.start options l.address) (l.bytes ++ rest) =
      .ok (l.body, l.bytes.length, next)) (hfolded : l.body = .folded) {s : Symbol}
    (hs : m.symbolAfter l.address = some s) :
    l.address.toNat + l.bytes.length ≤ s.address.toNat := by
  obtain ⟨-, hlength⟩ := length_of_folded hm hzeroes hstep hfolded
  have hle := zeroCount_le_length (upToSymbol m l.address (l.bytes ++ rest))
  have hwindow :
      (upToSymbol m l.address (l.bytes ++ rest)).length ≤ (s.address - l.address).toNat := by
    rw [upToSymbol, hs]
    exact List.length_take_le _ _
  have hlt := hm.lt_symbolAfter hs
  have hltNat := BitVec.lt_def.mp hlt
  rw [BitVec.toNat_sub_of_le (BitVec.le_of_lt hlt)] at hwindow
  omega

/-- What is left of a run behind a folded line is less than a word. -/
theorem zeroCount_drop_of_folded (hm : m.IsLawful) (hzeroes : options.decodeZeroes = false)
    (hstep : nextBody m (.start options l.address) (l.bytes ++ rest) =
      .ok (l.body, l.bytes.length, next)) (hfolded : l.body = .folded)
    (hbytes : ∀ byte ∈ l.bytes, byte = 0) :
    zeroCount ((upToSymbol m l.address (l.bytes ++ rest)).drop l.bytes.length) < 4 := by
  obtain ⟨hfour, hlength⟩ := length_of_folded hm hzeroes hstep hfolded
  have hle := zeroCount_le_length (upToSymbol m l.address (l.bytes ++ rest))
  have hprefix : l.bytes <+: upToSymbol m l.address (l.bytes ++ rest) :=
    List.prefix_of_prefix_length_le (List.prefix_append _ _) (List.take_prefix _ _) (by omega)
  have hcount := zeroCount_append hbytes
    ((upToSymbol m l.address (l.bytes ++ rest)).drop l.bytes.length)
  rw [List.prefix_iff_eq_append.mp hprefix] at hcount
  omega

/-- A word of zeroes is shown only if the zeroes before the next symbol are less than a word, or are
less than seven bytes and ended by another byte. -/
theorem zeroCount_of_shown (hm : m.IsLawful) (hzeroes : options.decodeZeroes = false)
    (hstep : nextBody m (.start options l.address) (l.bytes ++ rest) =
      .ok (l.body, l.bytes.length, next)) (hshown : l.body ≠ .folded)
    (hword : l.bytes.take 4 = List.replicate 4 0) :
    zeroCount (upToSymbol m l.address (l.bytes ++ rest)) < 4 ∨
      zeroCount (upToSymbol m l.address (l.bytes ++ rest)) ≤ 6 ∧
        ∃ byte, (upToSymbol m l.address (l.bytes ++ rest))[
          zeroCount (upToSymbol m l.address (l.bytes ++ rest))]? = some byte ∧ byte ≠ 0 := by
  by_contra hlong
  rw [not_or, not_and] at hlong
  have hlength : (l.bytes.take 4).length = 4 := by rw [hword, List.length_replicate]
  rw [List.length_take] at hlength
  have htake : (l.bytes ++ rest).take 4 = List.replicate 4 0 := by
    rw [List.take_append_of_le_length (by omega), hword]
  have hended : zeroCount (upToSymbol m l.address (l.bytes ++ rest)) =
      (upToSymbol m l.address (l.bytes ++ rest)).length ∨
        7 ≤ zeroCount (upToSymbol m l.address (l.bytes ++ rest)) := by
    by_contra hended
    rw [not_or] at hended
    exact hlong.2 (by omega) (exists_getElem?_zeroCount hended.1)
  have hfold : foldedZeroes m options l.address (l.bytes ++ rest) = .ok (some _) :=
    (foldedZeroes_eq_some_iff hm hzeroes).mpr ⟨htake, Nat.le_of_not_lt hlong.1, hended, rfl⟩
  exact hshown (folded_of_foldedZeroes hstep hfold)

/-- Behind a line that does not reach the next symbol, that symbol cuts off the data at the same
place. -/
theorem upToSymbol_behind (hm : m.IsLawful) {bytes : List UInt8}
    (hroom : address.toNat + bytes.length < sizeLimit)
    (hsame : m.symbolAfter (address + BitVec.ofNat 64 bytes.length) = m.symbolAfter address) :
    upToSymbol m (address + BitVec.ofNat 64 bytes.length) rest =
      (upToSymbol m address (bytes ++ rest)).drop bytes.length := by
  rw [upToSymbol, upToSymbol, hsame]
  cases hs : m.symbolAfter address with
  | none =>
    simp only [Option.map_none, Option.getD_none, List.take_length, List.drop_left]
  | some s =>
    have hbehind := BitVec.lt_def.mp (hm.lt_symbolAfter (hsame.trans hs))
    have hle := BitVec.le_of_lt (hm.lt_symbolAfter (hsame.trans hs))
    have hstart := BitVec.le_of_lt (hm.lt_symbolAfter hs)
    rw [Address.toNat_add hroom] at hbehind
    rw [Option.map_some, Option.getD_some, Option.map_some, Option.getD_some,
      BitVec.toNat_sub_of_le hle, BitVec.toNat_sub_of_le hstart, Address.toNat_add hroom,
      List.drop_take, List.drop_left, Nat.sub_sub]

end Lines

section Symbols

variable {symbols : List Symbol} {mark : Style → String → String} {options : Options}
  {start : Address} {data : List UInt8} {lines : List Line}

/-- A folded line stands directly behind another one only at the next symbol. -/
theorem address_of_folded_behind_folded (hzeroes : options.decodeZeroes = false) {k l : Line}
    {after : List Line} (h : Divides (.ofSymbols symbols mark) options start data (l :: k :: after))
    (hroom : start.toNat + data.length < sizeLimit) (hl : l.body = .folded)
    (hk : k.body = .folded) :
    ∃ s, (Markup.ofSymbols symbols mark).symbolAfter l.address = some s ∧
      k.address = s.address := by
  have hm := Markup.isLawful_ofSymbols symbols mark
  obtain ⟨rfl, hdata, hstep, hbody, hrest⟩ := h.step_of_cons
  obtain ⟨hkl, -, hstep', -, -⟩ := hrest.step_of_cons
  rw [hl] at hbody
  rw [hdata, List.length_append] at hroom
  have hkNat : k.address.toNat = l.address.toNat + l.bytes.length := by
    rw [hkl]
    exact Address.toNat_add (by omega)
  by_contra hno
  -- Without a symbol at the second line, both lines would belong to one run.
  have hbefore : ∀ s, (Markup.ofSymbols symbols mark).symbolAfter l.address = some s →
      k.address < s.address := by
    intro s hs
    have hle := add_length_le_of_folded hm hzeroes hstep hl hs
    rw [← hkNat, ← BitVec.le_def] at hle
    exact BitVec.lt_of_le_ne hle fun heq => hno ⟨s, hs, heq⟩
  have hsame := Markup.symbolAfter_ofSymbols_of_lt (BitVec.le_def.mpr (by omega)) hbefore
  have hless := zeroCount_drop_of_folded hm hzeroes hstep hl hbody
  rw [hkl] at hsame
  rw [← upToSymbol_behind hm (by omega) hsame, ← hkl] at hless
  have hfour := (length_of_folded hm hzeroes hstep' hk).1
  exact absurd hless (Nat.not_lt.mpr hfour)

/-- Folding hides nothing but zeroes, and all of them that it can. The text of a listing is made of
lines that divide the data, each after its header. A folded line has whole words of zeroes, one at
least, and does not go past a symbol behind its start. Fewer than four zeroes follow it before the
next symbol, the end of the data or another byte. The line behind it is folded as well only at that
symbol. A line that is not folded starts with a word of zeroes only if the zeroes from there on, up
to the next symbol and the end of the data, are less than four, or if they are at most six and ended
by another byte. -/
theorem print_folds_zeroes (hsorted : symbols.Pairwise fun s t => s.address ≤ t.address)
    (mark : Style → String → String) (hzeroes : options.decodeZeroes = false)
    (sectionName : String) (isFirst : Bool) (hroom : start.toNat + data.length < sizeLimit) :
    let m := Markup.ofSymbols symbols mark
    ∃ (ls : List Line) (output : Output) (stop : Address),
      print m (.start options start) sectionName data isFirst = (output, .start options stop) ∧
      output.fault = none ∧
      output.text =
        String.join (ls.map fun l => l.headerText ++ (l.bodyOutput m (.builtin options)).text) ∧
      ls.flatMap Line.bytes = data ∧
      ∀ before l after, ls = before ++ l :: after →
        let window := upToSymbol m l.address (l.bytes ++ after.flatMap Line.bytes)
        l.address.toNat = start.toNat + (before.flatMap Line.bytes).length ∧
        (l.body = .folded →
          (∀ byte ∈ l.bytes, byte = 0) ∧ 0 < l.bytes.length ∧ l.bytes.length % 4 = 0 ∧
          (∀ s ∈ symbols, l.address < s.address →
            l.address.toNat + l.bytes.length ≤ s.address.toNat) ∧
          zeroCount (window.drop l.bytes.length) < 4 ∧
          ∀ k, after.head? = some k → k.body = .folded →
            ∃ s, m.symbolAfter l.address = some s ∧ k.address = s.address) ∧
        (l.body ≠ .folded → l.bytes.take 4 = List.replicate 4 0 →
          zeroCount window < 4 ∨
            zeroCount window ≤ 6 ∧ ∃ byte, window[zeroCount window]? = some byte ∧ byte ≠ 0) := by
  intro m
  have hm : m.IsLawful := Markup.isLawful_ofSymbols symbols mark
  obtain ⟨-, ls, output, -, -, hprint, hfault, htext, hdivides, -⟩ :=
    exists_print hm options sectionName isFirst hroom
  refine ⟨ls, output, _, hprint, hfault, htext, hdivides.flatMap_bytes,
    fun before l after hsplit => ?_⟩
  obtain ⟨hbytes, -, haddress⟩ := hdivides.line_of_split hroom hsplit
  subst hsplit
  obtain ⟨here, rest, hhere, hdata, hsuffix⟩ := hdivides.exists_suffix
  obtain ⟨rfl, hrest, hstep, hbody, -⟩ := hsuffix.step_of_cons
  have hroom' : l.address.toNat + rest.length < sizeLimit := by
    rw [hdata, List.length_append] at hroom
    omega
  refine ⟨haddress, fun hfolded => ?_, zeroCount_of_shown hm hzeroes hstep⟩
  rw [hfolded] at hbody
  obtain ⟨-, hlength⟩ := length_of_folded hm hzeroes hstep hfolded
  refine ⟨hbody, List.length_pos_iff.mpr hbytes, by omega, fun s hs hlt => ?_,
    zeroCount_drop_of_folded hm hzeroes hstep hfolded hbody, fun k hk hkfolded => ?_⟩
  · obtain ⟨t, ht, hle⟩ := Markup.exists_symbolAfter_ofSymbols hsorted hs hlt
    exact Nat.le_trans (add_length_le_of_folded hm hzeroes hstep hfolded ht) (BitVec.le_def.mp hle)
  · obtain ⟨behind, rfl⟩ := List.head?_eq_some_iff.mp hk
    exact address_of_folded_behind_folded hzeroes hsuffix hroom' hfolded hkfolded

/-- Fifteen zeroes with a symbol behind two words of them: a folded line at the start has both
words, and a folded line behind it is at the symbol. -/
theorem print_folds_zeroes_up_to_symbol :
    let symbols : List Symbol := [⟨0x1008, "table"⟩]
    let m := Markup.ofSymbols symbols fun _ text => text
    let data : List UInt8 := List.replicate 15 0
    let options : Options := {}
    symbols.Pairwise (fun s t => s.address ≤ t.address) ∧ options.decodeZeroes = false ∧
      (0x1000 : Address).toNat + data.length < sizeLimit ∧
      ∃ (ls : List Line) (output : Output) (stop : Address),
        print m (.start options 0x1000) ".text" data true = (output, .start options stop) ∧
        ls.flatMap Line.bytes = data ∧
        ∀ l after, ls = l :: after → l.body = .folded → l.bytes.length = 8 ∧
          ∀ k, after.head? = some k → k.body = .folded → k.address = 0x1008 := by
  intro symbols m data options
  have hsorted : symbols.Pairwise fun s t => s.address ≤ t.address := by decide
  have hfold : options.decodeZeroes = false := rfl
  have hroom : (0x1000 : Address).toNat + data.length < sizeLimit := by decide
  obtain ⟨ls, output, stop, hprint, -, -, hbytes, hlines⟩ :=
    print_folds_zeroes hsorted (fun _ text => text) hfold ".text" true hroom
  refine ⟨hsorted, hfold, hroom, ls, output, stop, hprint, hbytes, fun l after hls hfolded => ?_⟩
  obtain ⟨haddress, hzeroes, -⟩ := hlines [] l after hls
  have hstart : l.address = 0x1000 := BitVec.eq_of_toNat_eq haddress
  obtain ⟨-, hpos, hwords, hbefore, hleft, hbehind⟩ := hzeroes hfolded
  rw [hls, List.flatMap_cons] at hbytes
  rw [hbytes, hstart] at hleft
  rw [hstart] at hbefore hbehind
  have hle : 0x1000 + l.bytes.length ≤ 0x1008 :=
    hbefore ⟨0x1008, "table"⟩ (by simp [symbols]) (by decide)
  refine ⟨?_, fun k hk hkfolded => ?_⟩
  · have hfour : l.bytes.length = 4 ∨ l.bytes.length = 8 := by omega
    refine hfour.resolve_left fun hfour => ?_
    rw [hfour] at hleft
    exact absurd hleft (by decide)
  · obtain ⟨s, hs, hks⟩ := hbehind k hk hkfolded
    cases hs
    exact hks

end Symbols

end Listing

end A64Disassembler
