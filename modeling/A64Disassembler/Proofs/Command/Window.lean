import A64Disassembler.Command.Run
import A64Disassembler.Proofs.Listing.Text

/-!
# The window of addresses that is listed

The command lists the part of its data that lies between the start and the stop address. The data
are cut first at the stop address and then at the start address; the second cut is measured from the
start of the data, and has nothing to cut if the stop address lies before the start address and both
lie inside the data. With all other bounds exactly the bytes in the window are listed, each at its
address.
-/

namespace A64Disassembler

/-- The elements of a sequence whose positions lie in an interval are next to each other. -/
theorem zipIdx_filter_interval {α : Type} (xs : List α) (first start stop : Nat) :
    (xs.zipIdx first).filter (fun x => start ≤ x.2 ∧ x.2 < stop) =
      ((xs.take (stop - first)).drop (start - first)).zipIdx (max first start) := by
  induction xs generalizing first with
  | nil => simp
  | cons x rest ih =>
    rw [List.zipIdx_cons, List.filter_cons, ih (first + 1)]
    by_cases hstop : first < stop
    · have htake : stop - first = stop - (first + 1) + 1 := by omega
      rw [htake, List.take_succ_cons]
      by_cases hstart : first < start
      · have hdrop : start - first = start - (first + 1) + 1 := by omega
        have hmax : max (first + 1) start = max first start := by omega
        rw [if_neg (by simp; omega), hdrop, List.drop_succ_cons, hmax]
      · have hdrop : start - first = 0 := by omega
        have hdrop' : start - (first + 1) = 0 := by omega
        have hmax : max (first + 1) start = max first start + 1 := by omega
        have hfirst : max first start = first := by omega
        rw [if_pos (by simp; omega), hdrop, hdrop', List.drop_zero, List.drop_zero,
          List.zipIdx_cons, hmax, hfirst]
    · have htake : stop - first = 0 := by omega
      have htake' : stop - (first + 1) = 0 := by omega
      rw [if_neg (by simp; omega), htake, htake', List.take_zero, List.take_zero, List.drop_nil,
        List.drop_nil, List.zipIdx_nil, List.zipIdx_nil]

/-- The bytes of an array are listed in order. -/
theorem toList_eq (data : ByteArray) : data.toList = data.data.toList := by
  have hloop : ∀ i done, ByteArray.toList.loop data i done =
      done.reverse ++ data.data.toList.drop i := by
    intro i done
    induction i, done using ByteArray.toList.loop.induct data with
    | case1 i done hmore ih =>
      have hnext : data.data.toList.drop i = data.get! i :: data.data.toList.drop (i + 1) := by
        rw [List.drop_eq_getElem_cons (by simpa using hmore)]
        simp [ByteArray.get!, getElem!_pos data.data i hmore]
      rw [ByteArray.toList.loop, if_pos hmore, ih, hnext, List.reverse_cons, List.append_assoc]
      rfl
    | case2 i done hdone =>
      rw [ByteArray.toList.loop, if_neg hdone,
        List.drop_of_length_le (by simpa using hdone), List.append_nil]
  unfold ByteArray.toList
  exact hloop 0 []

/-- A byte array has as many bytes as the list of them. -/
theorem length_toList (data : ByteArray) : data.toList.length = data.size := by
  rw [toList_eq]
  rfl

namespace Command

open Listing (Line Output)

/-- Whether data at an address lie before the start address or from the stop address on. -/
def LiesOutside (s : Settings) (address : Address) (size : Nat) : Prop :=
  s.stopAddress ≤ address ∨ address.toNat + size ≤ s.startAddress.toNat

/-- Whether the stop address lies before the start address and both lie inside the data. -/
def IsReversed (s : Settings) (address : Address) (size : Nat) : Prop :=
  address < s.stopAddress ∧ s.stopAddress < s.startAddress ∧
    s.startAddress.toNat < address.toNat + size

instance (s : Settings) (address : Address) (size : Nat) : Decidable (LiesOutside s address size) :=
  inferInstanceAs (Decidable (_ ∨ _))

instance (s : Settings) (address : Address) (size : Nat) : Decidable (IsReversed s address size) :=
  inferInstanceAs (Decidable (_ ∧ _))

variable {s : Settings} {address : Address} {data : List UInt8}

/-- Data outside of the window are not listed. -/
theorem window_of_liesOutside (hroom : address.toNat + data.length < sizeLimit)
    (h : LiesOutside s address data.length) : window s address data = .ok none := by
  refine bind_eq_ok.mpr ⟨_, Address.advance_eq_ok.mpr ⟨hroom, rfl⟩, if_pos ?_⟩
  exact h.imp_right fun hstart => BitVec.le_def.mpr (by rw [Address.toNat_add hroom]; exact hstart)

/-- The part of the data in front of the stop address. -/
theorem cut_at_stop (hroom : address.toNat + data.length < sizeLimit)
    (hstop : address < s.stopAddress) :
    (if s.stopAddress < address + BitVec.ofNat 64 data.length then
      data.take (s.stopAddress - address).toNat else data) =
      data.take (s.stopAddress.toNat - address.toNat) := by
  split
  case isTrue =>
    rw [BitVec.toNat_sub_of_le (BitVec.le_of_lt hstop)]
  case isFalse hlast =>
    rw [BitVec.lt_def, Address.toNat_add hroom] at hlast
    rw [List.take_of_length_le (by omega)]

/-- The address that a part of the data starts at, and its bytes. -/
def windowPart (s : Settings) (address : Address) (data : List UInt8) : Address × List UInt8 :=
  (if address < s.startAddress then s.startAddress else address,
    (data.take (s.stopAddress.toNat - address.toNat)).drop
      (s.startAddress.toNat - address.toNat))

/-- Data that reach into the window are cut at both of its bounds, if the second cut does not go
past the first one. -/
theorem window_of_not_liesOutside (hroom : address.toNat + data.length < sizeLimit)
    (h : ¬ LiesOutside s address data.length) :
    window s address data = if IsReversed s address data.length then .error .outOfBounds else
      .ok (some (windowPart s address data)) := by
  rw [LiesOutside, not_or, BitVec.not_le, Nat.not_le] at h
  obtain ⟨hstop, hstart⟩ := h
  have houtside : ¬ (s.stopAddress ≤ address ∨
      address + BitVec.ofNat 64 data.length ≤ s.startAddress) := by
    rw [not_or, BitVec.not_le, BitVec.not_le]
    exact ⟨hstop, BitVec.lt_def.mpr (by rw [Address.toNat_add hroom]; exact hstart)⟩
  unfold window windowPart
  rw [Address.advance_eq_ok.mpr ⟨hroom, rfl⟩]
  change (if _ then _ else _) = _
  rw [if_neg houtside, cut_at_stop hroom hstop]
  by_cases hbehind : address < s.startAddress
  · have hskipped := BitVec.toNat_sub_of_le (BitVec.le_of_lt hbehind)
    have hfirst : address.toNat < s.stopAddress.toNat := BitVec.lt_def.mp hstop
    rw [if_pos hbehind, if_pos hbehind, hskipped, List.length_take]
    by_cases hreversed : IsReversed s address data.length
    · have hless : s.stopAddress.toNat < s.startAddress.toNat := BitVec.lt_def.mp hreversed.2.1
      rw [if_pos hreversed, if_neg (by omega)]
      rfl
    · have hle : s.startAddress.toNat ≤ s.stopAddress.toNat :=
        Nat.le_of_not_lt fun hless => hreversed ⟨hstop, BitVec.lt_def.mpr hless, hstart⟩
      rw [if_neg hreversed, if_pos (by omega)]
      rfl
  · have hreversed : ¬ IsReversed s address data.length :=
      fun h => hbehind (BitVec.lt_trans h.1 h.2.1)
    have hle : s.startAddress.toNat ≤ address.toNat :=
      Nat.le_of_not_lt fun hless => hbehind (BitVec.lt_def.mpr hless)
    rw [if_neg hbehind, if_neg hbehind, if_neg hreversed, Nat.sub_eq_zero_of_le hle,
      List.drop_zero]
    rfl

/-- The part of the data in the window starts at the later one of the two first addresses. -/
theorem toNat_windowPart (s : Settings) (address : Address) (data : List UInt8) :
    (windowPart s address data).1.toNat = max address.toNat s.startAddress.toNat := by
  unfold windowPart
  dsimp only
  split
  case isTrue hbehind =>
    exact (Nat.max_eq_right (Nat.le_of_lt (BitVec.lt_def.mp hbehind))).symm
  case isFalse hbehind =>
    exact (Nat.max_eq_left (BitVec.le_def.mp (BitVec.not_lt.mp hbehind))).symm

/-- The part of the data in the window ends within the address space. -/
theorem windowPart_lt_sizeLimit (hroom : address.toNat + data.length < sizeLimit) :
    (windowPart s address data).1.toNat + (windowPart s address data).2.length < sizeLimit := by
  have hstart : s.startAddress.toNat < sizeLimit := s.startAddress.isLt
  rw [toNat_windowPart, windowPart, List.length_drop, List.length_take]
  omega

/-- The bytes of the part of the data in the window are those whose addresses lie in it. -/
theorem zipIdx_windowPart (s : Settings) (address : Address) (data : List UInt8) :
    (windowPart s address data).2.zipIdx (windowPart s address data).1.toNat =
      (data.zipIdx address.toNat).filter fun x =>
        s.startAddress.toNat ≤ x.2 ∧ x.2 < s.stopAddress.toNat := by
  rw [toNat_windowPart, zipIdx_filter_interval]
  rfl

/-- No byte of data that lie outside of the window has an address in it. -/
theorem filter_of_liesOutside (h : LiesOutside s address data.length) :
    ((data.zipIdx address.toNat).filter fun x =>
      s.startAddress.toNat ≤ x.2 ∧ x.2 < s.stopAddress.toNat) = [] := by
  rw [zipIdx_filter_interval]
  rcases h with hstop | hstart
  · rw [Nat.sub_eq_zero_of_le (BitVec.le_def.mp hstop), List.take_zero, List.drop_nil,
      List.zipIdx_nil]
  · rw [List.drop_of_length_le (by rw [List.length_take]; omega), List.zipIdx_nil]

/-- The line above the lines of a section, if any part of it is in the window. -/
def title (s : Settings) (name : String) (address : Address) (size : Nat) : String :=
  if LiesOutside s address size then "" else "\nDisassembly of section " ++ name ++ ":\n"

/-- Whether the lines of a listing show the bytes in the window, each at its address and none of
them twice. -/
structure ShowWindow (s : Settings) (m : Markup) (options : Options) (address : Address)
    (data : List UInt8) (ls : List Line) : Prop where
  /-- The bytes of the lines are those whose addresses lie in the window. -/
  bytes_eq : ls.flatMap (fun l => l.bytes.zipIdx l.address.toNat) =
    (data.zipIdx address.toNat).filter fun x =>
      s.startAddress.toNat ≤ x.2 ∧ x.2 < s.stopAddress.toNat
  /-- The first line is at the start of the data or at the start address. -/
  first : ∀ l ∈ ls.head?, l.address.toNat = max address.toNat s.startAddress.toNat
  /-- Every line is right about its bytes, and its text shows them. -/
  isSound : ∀ before l after, ls = before ++ l :: after → l.bytes ≠ [] ∧
    l.body.IsSound (.builtin options) l.address l.bytes (after = []) ∧
    l.body.HasText m (.builtin options) l.address l.bytes (l.bodyOutput m (.builtin options)).text

/-- The text of lines, each after its header. -/
def linesText (m : Markup) (options : Options) (ls : List Line) : String :=
  String.join (ls.map fun l => l.headerText ++ (l.bodyOutput m (.builtin options)).text)

variable {m : Markup} {options : Options}

/-- The listing of a section shows what lies in the window, unless the bounds of the window are
reversed inside the section. -/
theorem exists_sectionOutput (hm : m.IsLawful) (options : Options) (name : String)
    (hroom : address.toNat + data.length < sizeLimit)
    (hreversed : ¬ IsReversed s address data.length) :
    ∃ ls, (sectionOutput s m options name address data).fault = none ∧
      (sectionOutput s m options name address data).text =
        title s name address data.length ++ linesText m options ls ∧
      ShowWindow s m options address data ls := by
  unfold sectionOutput title
  by_cases houtside : LiesOutside s address data.length
  · rw [window_of_liesOutside hroom houtside, if_pos houtside]
    refine ⟨[], rfl, rfl, ?_, by simp, by simp⟩
    exact (filter_of_liesOutside houtside).symm
  · rw [window_of_not_liesOutside hroom houtside, if_neg hreversed, if_neg houtside]
    have hroom' := windowPart_lt_sizeLimit (s := s) hroom
    obtain ⟨-, ls, output, -, -, hprint, hfault, htext, hdivides, -⟩ :=
      Listing.exists_print hm options name true hroom'
    have hboth : (({ text := "\nDisassembly of section " ++ name ++ ":\n" } : Output).append
        (Listing.print m (.start options (windowPart s address data).1) name
          (windowPart s address data).2 true).1) =
        { text := "\nDisassembly of section " ++ name ++ ":\n" ++ linesText m options ls
          warnings := [] ++ output.warnings } := by
      rw [hprint, Output.append, hfault, htext]
      rfl
    refine ⟨ls, congrArg Output.fault hboth, congrArg Output.text hboth, ?_, ?_, ?_⟩
    · rw [hdivides.flatMap_zipIdx hroom', zipIdx_windowPart]
    · intro l hl
      obtain ⟨after, hls⟩ := List.head?_eq_some_iff.mp hl
      have hfirst : ls = [] ++ l :: after := hls
      obtain ⟨-, -, haddress⟩ := hdivides.line_of_split hroom' hfirst
      rw [haddress, toNat_windowPart]
      rfl
    · intro before l after hls
      obtain ⟨hbytes, hbody, -⟩ := hdivides.line_of_split hroom' hls
      exact ⟨hbytes, hbody, (l.bodyOutput_of_isSound hm hbody).2⟩

/-- The listing of a section fails if the bounds of the window are reversed inside the section. -/
theorem sectionOutput_of_isReversed (name : String)
    (hroom : address.toNat + data.length < sizeLimit)
    (hreversed : IsReversed s address data.length) :
    sectionOutput s m options name address data = { fault := some .outOfBounds } := by
  have hinside : ¬ LiesOutside s address data.length := by
    rw [LiesOutside, not_or, BitVec.not_le, Nat.not_le]
    exact ⟨hreversed.1, hreversed.2.2⟩
  rw [sectionOutput, window_of_not_liesOutside hroom hinside, if_pos hreversed]

section Run

variable (libraries : Libraries)

/-- The input is taken as instruction words if that is asked for, or if no library knows it. -/
theorem input_of_raw {library : Object.Library} {raw : Bool} {data : ByteArray}
    (hraw : raw = true ∨ library.kind? data = none) :
    library.input raw data = .ok (.raw data) := by
  rcases hraw with hraw | hkind
  · rw [Object.Library.input, if_pos hraw]
  · rw [Object.Library.input, hkind, ite_self]

/-- The command lists a file of instruction words as one section. -/
theorem runOn_of_raw {data : ByteArray} {warnings : List String} {endian : Endian}
    (hraw : s.raw = true ∨ libraries.object.kind? data = none)
    (hchoice : choose .little s.options = (warnings, .order endian)) :
    runOn libraries s data = { listing libraries s (.raw data) endian with
      stderr := warnings ++ (listing libraries s (.raw data) endian).stderr } := by
  unfold runOn
  rw [input_of_raw hraw]
  dsimp only [inputOrder?]
  rw [hchoice]

/-- The listing of instruction words is that of their section after the banner, and a fault of it is
the fault of the command. -/
theorem listing_of_raw (s : Settings) (data : ByteArray) (endian : Endian) :
    let output := sectionOutput s (markup libraries s (.raw data)) (decodeOptions s endian) "raw"
      s.loadAddress data.toList
    listing libraries s (.raw data) endian =
      { code := if output.fault = none then 0 else faultCode
        stdout := banner s (.raw data) endian ++ output.text } := by
  unfold listing
  dsimp only
  generalize sectionOutput s (markup libraries s (.raw data)) (decodeOptions s endian) "raw"
    s.loadAddress data.toList = output
  obtain ⟨text, warnings, fault⟩ := output
  cases fault with
  | none => rfl
  | some f => rfl

/-- The symbols of every input are given on their right side. -/
theorem isLawful_markup (s : Settings) (input : Object.Input) :
    (markup libraries s input).IsLawful :=
  Markup.isLawful_ofSymbols _ _

/-- The command lists of a file of instruction words exactly the bytes in the window, and none of
them if the data and the window have no address in common. It fails if and only if the stop address
lies before the start address and both lie inside the data. Nothing is assumed of the libraries. -/
theorem runOn_lists_window {data : ByteArray} {warnings : List String} {endian : Endian}
    (hraw : s.raw = true ∨ libraries.object.kind? data = none)
    (hchoice : choose .little s.options = (warnings, .order endian))
    (hroom : s.loadAddress.toNat + data.size < sizeLimit) :
    let m := markup libraries s (.raw data)
    let options := decodeOptions s endian
    (IsReversed s s.loadAddress data.size → runOn libraries s data =
      { code := faultCode
        stdout := banner s (.raw data) endian
        stderr := warnings }) ∧
    (¬ IsReversed s s.loadAddress data.size → ∃ ls,
      runOn libraries s data =
        { code := 0
          stdout := banner s (.raw data) endian ++ (title s "raw" s.loadAddress data.size ++
            linesText m options ls)
          stderr := warnings } ∧
      ShowWindow s m options s.loadAddress data.toList ls) := by
  intro m options
  rw [← length_toList] at hroom ⊢
  rw [runOn_of_raw libraries hraw hchoice]
  constructor
  · intro hreversed
    rw [listing_of_raw, sectionOutput_of_isReversed "raw" hroom hreversed]
    simp
  · intro hreversed
    obtain ⟨ls, hfault, htext, hshow⟩ :=
      exists_sectionOutput (isLawful_markup libraries s (.raw data)) options "raw" hroom hreversed
    refine ⟨ls, ?_, hshow⟩
    rw [listing_of_raw, hfault, htext, if_pos rfl, List.append_nil]

/-- Libraries that know neither object files nor mangled names, and leave all texts as they are. -/
def Libraries.bare : Libraries where
  object :=
    { kind? := fun _ => none
      slices := fun _ _ => .error "unknown"
      file := fun _ => .error "unknown" }
  rustName? _ := none
  cppName? _ := none
  paint _ text := text

/-- From sixteen bytes at 0x1000 a window of six bytes is listed, which ends inside a word. -/
theorem runOn_lists_half_word :
    let s : Settings :=
      { raw := true, loadAddress := 0x1000, startAddress := 0x1004, stopAddress := 0x100a }
    let data : ByteArray := ⟨#[0x1f, 0x20, 0x03, 0xd5, 0x1f, 0x20, 0x03, 0xd5, 0xc0, 0x03, 0x5f,
      0xd6, 0, 0, 0, 0]⟩
    (s.raw = true ∨ Libraries.bare.object.kind? data = none) ∧
      choose .little s.options = ([], .order .little) ∧
      s.loadAddress.toNat + data.size < sizeLimit ∧ ¬ IsReversed s s.loadAddress data.size ∧
      (runOn .bare s data).code = 0 ∧
      ∃ ls, ShowWindow s (markup .bare s (.raw data)) (decodeOptions s .little) s.loadAddress
          data.toList ls ∧
        ls.flatMap (fun l => l.bytes.zipIdx l.address.toNat) =
          [(0x1f, 0x1004), (0x20, 0x1005), (0x03, 0x1006), (0xd5, 0x1007), (0xc0, 0x1008),
            (0x03, 0x1009)] := by
  intro s data
  have hraw : s.raw = true ∨ Libraries.bare.object.kind? data = none := .inl rfl
  have hchoice : choose .little s.options = ([], .order .little) := rfl
  have hroom : s.loadAddress.toNat + data.size < sizeLimit := by decide
  have hreversed : ¬ IsReversed s s.loadAddress data.size := by decide
  obtain ⟨ls, hrun, hshow⟩ := (runOn_lists_window .bare hraw hchoice hroom).2 hreversed
  have hbytes := hshow.bytes_eq
  rw [toList_eq] at hbytes
  exact ⟨hraw, hchoice, hroom, hreversed, by rw [hrun], ls, hshow, hbytes.trans (by decide)⟩

/-- With a stop address before the start address, both of them inside the data, the command fails,
although no address lies in the window. -/
theorem runOn_fails_on_reversed_window :
    let s : Settings := { raw := true, startAddress := 16, stopAddress := 8 }
    let data : ByteArray := ⟨#[0x02, 0x00, 0x00, 0x94, 0xc0, 0x03, 0x5f, 0xd6, 0x20, 0x0c, 0x02,
      0x9b, 0x1f, 0x20, 0x03, 0xd5, 0, 0, 0, 0, 0, 0, 0, 0, 0xff, 0xff, 0xff, 0x17]⟩
    s.loadAddress.toNat + data.size < sizeLimit ∧
      ((data.toList.zipIdx s.loadAddress.toNat).filter fun x =>
        s.startAddress.toNat ≤ x.2 ∧ x.2 < s.stopAddress.toNat) = [] ∧
      (runOn .bare s data).code = faultCode := by
  intro s data
  have hroom : s.loadAddress.toNat + data.toList.length < sizeLimit := by
    rw [length_toList]
    decide
  have hreversed : IsReversed s s.loadAddress data.toList.length := by
    rw [length_toList]
    decide
  refine ⟨length_toList data ▸ hroom, by rw [toList_eq]; decide, ?_⟩
  rw [runOn_of_raw .bare (.inl rfl) rfl, listing_of_raw,
    sectionOutput_of_isReversed "raw" hroom hreversed]
  rfl

end Run

end Command

end A64Disassembler
