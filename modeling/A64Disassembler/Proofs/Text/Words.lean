import A64Disassembler.Text.Blank
import A64Disassembler.Text.Lines
import Mathlib.Data.List.Infix
import Mathlib.Data.List.TakeWhile

/-!
# Texts that are put together and taken apart

Words without blanks in them are got back from a text that has single blanks between them, so that
a normalized text stays as it is. A text that is cut at a separator is got back as it was if the
separator does not occur earlier. Items that are written with a separator between them are got back
if each of them is known from a text that begins with it, and lines are got back from a text if none
of them contains a line feed.
-/

namespace A64Disassembler.Text

section Words

/-- Characters of which none is a blank. -/
def IsSolid (text : List Char) : Prop :=
  text ≠ [] ∧ ∀ c ∈ text, isBlank c = false

/-- Characters that are no blanks go to the word that has begun. -/
theorem wordsFrom_append {word : List Char} (hword : ∀ c ∈ word, isBlank c = false)
    (current rest : List Char) :
    wordsFrom current (word ++ rest) = wordsFrom (word.reverse ++ current) rest := by
  induction word generalizing current with
  | nil => rfl
  | cons c word ih =>
    obtain ⟨hc, hrest⟩ := List.forall_mem_cons.mp hword
    rw [List.cons_append, wordsFrom, hc, if_neg Bool.false_ne_true, ih hrest, List.reverse_cons,
      List.append_assoc]
    rfl

/-- A text without blanks is one word. -/
theorem words_of_isSolid {word : List Char} (hword : IsSolid word) : words word = [word] := by
  have hfrom := wordsFrom_append hword.2 [] []
  rw [List.append_nil, List.append_nil] at hfrom
  simp [words, hfrom, wordsFrom, hword.1]

/-- A blank ends a word. -/
theorem words_append_blank {word : List Char} (hword : IsSolid word) {blank : Char}
    (hblank : isBlank blank = true) (rest : List Char) :
    words (word ++ blank :: rest) = word :: words rest := by
  have hne : word.reverse.isEmpty = false := by simpa using hword.1
  rw [words, wordsFrom_append hword.2, List.append_nil, wordsFrom, if_pos hblank, hne,
    if_neg Bool.false_ne_true, List.reverse_reverse]
  rfl

/-- Words with single spaces between them are got back. -/
theorem words_intercalate {ws : List (List Char)} (hws : ∀ word ∈ ws, IsSolid word) :
    words ([' '].intercalate ws) = ws := by
  induction ws with
  | nil => rfl
  | cons word rest ih =>
    obtain ⟨hword, hrest⟩ := List.forall_mem_cons.mp hws
    cases rest with
    | nil => simpa using words_of_isSolid hword
    | cons next rest =>
      rw [List.intercalate_cons_cons, List.append_assoc, List.singleton_append,
        words_append_blank hword (by decide), ih hrest]

/-- The words after a word that has begun are made of its characters and those of the text that are
no blanks. -/
theorem mem_wordsFrom {current text word : List Char} (hcurrent : ∀ c ∈ current, isBlank c = false)
    (h : word ∈ wordsFrom current text) :
    IsSolid word ∧ ∀ c ∈ word, c ∈ current ∨ c ∈ text := by
  have hbegun : ∀ {current text : List Char}, (∀ c ∈ current, isBlank c = false) →
      current.isEmpty ≠ true → IsSolid current.reverse ∧
        ∀ c ∈ current.reverse, c ∈ current ∨ c ∈ text := fun hcurrent hne =>
    ⟨⟨by simpa using hne, by simpa using hcurrent⟩, fun c hc => .inl (List.mem_reverse.mp hc)⟩
  induction text generalizing current with
  | nil =>
    rw [wordsFrom] at h
    split_ifs at h with hempty
    · cases h
    · rw [List.mem_singleton.mp h]
      exact hbegun hcurrent hempty
  | cons c rest ih =>
    -- The words behind a blank are those of the rest.
    have hafter : word ∈ wordsFrom [] rest →
        IsSolid word ∧ ∀ c' ∈ word, c' ∈ current ∨ c' ∈ c :: rest := fun h => by
      obtain ⟨hsolid, hmem⟩ := ih (by simp) h
      refine ⟨hsolid, fun c' hc' => .inr (List.mem_cons_of_mem c ?_)⟩
      exact (hmem c' hc').resolve_left List.not_mem_nil
    rw [wordsFrom] at h
    split_ifs at h with hblank hempty
    · exact hafter h
    · rcases List.mem_cons.mp h with rfl | h
      · exact hbegun hcurrent hempty
      · exact hafter h
    · have hsolid : ∀ c' ∈ c :: current, isBlank c' = false :=
        List.forall_mem_cons.mpr ⟨eq_false_of_ne_true hblank, hcurrent⟩
      obtain ⟨hword, hmem⟩ := ih hsolid h
      refine ⟨hword, fun c' hc' => ?_⟩
      rcases hmem c' hc' with hc' | hc'
      · rcases List.mem_cons.mp hc' with rfl | hc'
        · exact .inr List.mem_cons_self
        · exact .inl hc'
      · exact .inr (List.mem_cons_of_mem c hc')

/-- The words of a text have no blanks in them. -/
theorem isSolid_of_mem_words {text word : List Char} (h : word ∈ words text) : IsSolid word :=
  (mem_wordsFrom (by simp) h).1

/-- There is a word after one that has begun. -/
theorem wordsFrom_ne_nil {current : List Char} (hne : current ≠ []) (text : List Char) :
    wordsFrom current text ≠ [] := by
  induction text generalizing current with
  | nil => simp [wordsFrom, hne]
  | cons c rest ih =>
    rw [wordsFrom]
    split_ifs with hblank hempty
    · exact absurd (List.isEmpty_iff.mp hempty) hne
    · exact List.cons_ne_nil _ _
    · exact ih (List.cons_ne_nil c current)

/-- A text that does not begin with a blank has a word. -/
theorem words_ne_nil {c : Char} (hc : isBlank c = false) (rest : List Char) :
    words (c :: rest) ≠ [] := by
  rw [words, wordsFrom, hc, if_neg Bool.false_ne_true]
  exact wordsFrom_ne_nil (List.cons_ne_nil c []) rest

/-- Normalizing a text does not change its words, so that a normalized text stays as it is. -/
theorem normalize_normalize (text : List Char) : normalize (normalize text) = normalize text := by
  rw [normalize, normalize, words_intercalate fun _ => isSolid_of_mem_words]

/-- Texts with separators between them are made of their characters and those of the separator. -/
theorem mem_intercalate {separator : List Char} {ws : List (List Char)} {c : Char}
    (h : c ∈ separator.intercalate ws) : c ∈ separator ∨ ∃ word ∈ ws, c ∈ word := by
  induction ws with
  | nil => cases h
  | cons word rest ih =>
    cases rest with
    | nil => exact .inr ⟨word, List.mem_cons_self, by simpa using h⟩
    | cons next rest =>
      rw [List.intercalate_cons_cons, List.mem_append, List.mem_append] at h
      rcases h with (h | h) | h
      · exact .inr ⟨word, List.mem_cons_self, h⟩
      · exact .inl h
      · exact (ih h).imp_right fun ⟨w, hw, hc⟩ => ⟨w, List.mem_cons_of_mem word hw, hc⟩

/-- A normalized text is made of single spaces and of characters of the text that are no blanks. -/
theorem mem_normalize {text : List Char} {c : Char} (h : c ∈ normalize text) :
    c = ' ' ∨ isBlank c = false ∧ c ∈ text := by
  refine (mem_intercalate h).imp List.mem_singleton.mp fun ⟨word, hword, hc⟩ => ?_
  obtain ⟨hsolid, hmem⟩ := mem_wordsFrom (by simp) hword
  exact ⟨hsolid.2 c hc, (hmem c hc).resolve_left (by simp)⟩

end Words

section Trimming

/-- A text that neither begins nor ends with a blank. -/
structure IsTrimmed (text : List Char) : Prop where
  head : ∀ c, text.head? = some c → isBlank c = false
  last : ∀ c, text.getLast? = some c → isBlank c = false

variable {text blanks : List Char}

/-- Nothing is cut off before a character that is no blank. -/
theorem trimStart_of_head (h : ∀ c, text.head? = some c → isBlank c = false) :
    trimStart text = text := by
  cases text with
  | nil => rfl
  | cons c rest => exact List.dropWhile_cons_of_neg (by simpa using h c rfl)

/-- Spaces in a row are blanks. -/
theorem isBlank_of_mem_replicate {count : Nat} {c : Char} (h : c ∈ List.replicate count ' ') :
    isBlank c = true := by
  rw [List.eq_of_mem_replicate h]
  rfl

/-- Blanks are cut off at the start. -/
theorem trimStart_append (hblanks : ∀ c ∈ blanks, isBlank c = true) (text : List Char) :
    trimStart (blanks ++ text) = trimStart text :=
  List.dropWhile_append_of_pos hblanks

/-- Nothing is cut off up to the last character that is no blank. -/
theorem trimEnd_append_cons {c : Char} (hc : isBlank c = false) (before after : List Char) :
    trimEnd (before ++ c :: after) = before ++ c :: trimEnd after := by
  have hdrop : (c :: before.reverse).dropWhile isBlank = c :: before.reverse :=
    List.dropWhile_cons_of_neg (by simpa using hc)
  have hreverse : (before ++ c :: after).reverse = after.reverse ++ c :: before.reverse := by simp
  rw [trimEnd, trimEnd, hreverse, List.dropWhile_append, hdrop]
  split_ifs with hempty
  · simp [List.isEmpty_iff.mp hempty]
  · simp

/-- Blanks at the end of a text are cut off. -/
theorem trim_append_blanks (htext : IsTrimmed text) (hne : text ≠ [])
    (hblanks : ∀ c ∈ blanks, isBlank c = true) : trim (text ++ blanks) = text := by
  have hempty : trimEnd blanks = [] := by
    rw [trimEnd, List.reverse_eq_nil_iff, List.dropWhile_eq_nil_iff]
    exact fun c hc => hblanks c (List.mem_reverse.mp hc)
  have hhead : ∀ c, (text ++ blanks).head? = some c → isBlank c = false := fun c hc =>
    htext.head c (by rwa [List.head?_append_of_ne_nil _ hne] at hc)
  rw [trim, trimStart_of_head hhead]
  obtain ⟨before, c, rfl⟩ := text.eq_nil_or_concat'.resolve_left hne
  have hc : isBlank c = false := htext.last c (by simp)
  rw [List.append_assoc, List.singleton_append, trimEnd_append_cons hc, hempty]

/-- A text without blanks around it stays as it is. -/
theorem trim_of_isTrimmed (htext : IsTrimmed text) : trim text = text := by
  by_cases hne : text = []
  · rw [hne]
    rfl
  · have hnone : ∀ c ∈ [], isBlank c = true := by simp
    simpa using trim_append_blanks htext hne hnone

/-- Nothing is left of blanks. -/
theorem trim_of_blanks (hblanks : ∀ c ∈ blanks, isBlank c = true) : trim blanks = [] := by
  rw [trim, trimStart, List.dropWhile_eq_nil_iff.mpr hblanks]
  rfl

/-- What stands between a text and a character that is no blank is not cut off. -/
theorem mem_trim (htext : IsTrimmed text) (hne : text ≠ []) {middle : List Char} {c d : Char}
    (hd : d ∈ middle) (hc : isBlank c = false) (after : List Char) :
    d ∈ trim (text ++ (middle ++ c :: after)) := by
  have hhead : ∀ c', (text ++ (middle ++ c :: after)).head? = some c' → isBlank c' = false :=
    fun c' hc' => htext.head c' (by rwa [List.head?_append_of_ne_nil _ hne] at hc')
  rw [trim, trimStart_of_head hhead, ← List.append_assoc, trimEnd_append_cons hc]
  simp [hd]

/-- A text without blanks at all has none around it. -/
theorem IsSolid.isTrimmed (h : IsSolid text) : IsTrimmed text where
  head c hc := h.2 c (List.mem_of_head? hc)
  last c hc := h.2 c (List.mem_of_getLast? hc)

/-- Blanks inside a text are not around it. -/
theorem IsTrimmed.append {front back : List Char} (hfront : IsTrimmed front)
    (hback : IsTrimmed back) (hne : front ≠ []) (hne' : back ≠ []) (middle : List Char) :
    IsTrimmed (front ++ (middle ++ back)) where
  head c hc := hfront.head c (by rwa [List.head?_append_of_ne_nil _ hne] at hc)
  last c hc := hback.last c (by
    rwa [← List.append_assoc, List.getLast?_append_of_ne_nil _ hne'] at hc)

/-- Words with single spaces between them have no blanks around them. -/
theorem isTrimmed_intercalate {ws : List (List Char)} (hne : ws ≠ [])
    (hws : ∀ word ∈ ws, IsSolid word) :
    IsTrimmed ([' '].intercalate ws) ∧ [' '].intercalate ws ≠ [] := by
  induction ws with
  | nil => exact absurd rfl hne
  | cons word rest ih =>
    obtain ⟨hword, hrest⟩ := List.forall_mem_cons.mp hws
    cases rest with
    | nil =>
      rw [List.intercalate_singleton]
      exact ⟨hword.isTrimmed, hword.1⟩
    | cons next rest =>
      obtain ⟨htrimmed, hjoin⟩ := ih (by simp) hrest
      rw [List.intercalate_cons_cons, List.append_assoc]
      exact ⟨hword.isTrimmed.append htrimmed hword.1 hjoin [' '], by simp [hword.1]⟩

/-- A normalized text has no blanks around it. -/
theorem isTrimmed_normalize (text : List Char) : IsTrimmed (normalize text) := by
  by_cases hne : words text = []
  · rw [normalize, hne]
    exact ⟨fun c hc => absurd hc (by simp), fun c hc => absurd hc (by simp)⟩
  · exact (isTrimmed_intercalate hne fun _ => isSolid_of_mem_words).1

/-- A text that does not begin with a blank is not empty when it is normalized. -/
theorem normalize_ne_nil {c : Char} (hc : isBlank c = false) (rest : List Char) :
    normalize (c :: rest) ≠ [] :=
  (isTrimmed_intercalate (words_ne_nil hc rest) fun _ => isSolid_of_mem_words).2

end Trimming

section Separators

variable {separator before after text : List Char}

/-- A text in which a separator does not occur is not cut. -/
theorem splitOnce_eq_none (h : ¬ separator <:+: text) : splitOnce separator text = none := by
  induction text with
  | nil =>
    have hne : separator.isEmpty = false := by simpa using h
    rw [splitOnce, hne]
    rfl
  | cons c rest ih =>
    rw [List.infix_cons_iff, not_or] at h
    rw [splitOnce, if_neg fun hprefix => h.1 (List.isPrefixOf_iff_prefix.mp hprefix), ih h.2]
    rfl

/-- A text is cut at the first occurrence of a separator, which is where the text before it and all
but the last character of the separator have no occurrence. -/
theorem splitOnce_append (hne : separator ≠ [])
    (h : ¬ separator <:+: before ++ separator.dropLast) (after : List Char) :
    splitOnce separator (before ++ (separator ++ after)) = some (before, after) := by
  induction before with
  | nil =>
    obtain ⟨c, rest, rfl⟩ := List.exists_cons_of_ne_nil hne
    have hprefix : (c :: rest).isPrefixOf (c :: (rest ++ after)) = true :=
      List.isPrefixOf_iff_prefix.mpr (List.prefix_append (c :: rest) after)
    rw [List.nil_append, List.cons_append, splitOnce, if_pos hprefix]
    exact congrArg (fun text => some ([], text)) List.drop_left
  | cons c before ih =>
    rw [List.cons_append, List.infix_cons_iff, not_or] at h
    have hfirst : separator.isPrefixOf (c :: (before ++ (separator ++ after))) ≠ true := by
      intro hprefix
      -- An occurrence at the start would end before the separator does.
      refine h.1 (List.prefix_of_prefix_length_le (List.isPrefixOf_iff_prefix.mp hprefix) ?_ ?_)
      · refine (List.prefix_cons_inj c).mpr ((List.prefix_append_right_inj before).mpr ?_)
        exact (List.dropLast_prefix separator).trans (List.prefix_append separator after)
      · rw [List.length_cons, List.length_append, List.length_dropLast]
        omega
    rw [List.cons_append, splitOnce, if_neg hfirst, ih h.2]
    rfl

/-- A separator does not cut a text before the first occurrence of its first character. -/
theorem splitOnce_append_of_not_mem {s : Char} {more : List Char} (h : s ∉ before)
    (text : List Char) :
    splitOnce (s :: more) (before ++ text) =
      (splitOnce (s :: more) text).map fun (head, tail) => (before ++ head, tail) := by
  induction before with
  | nil => simp
  | cons c before ih =>
    rw [List.mem_cons, not_or] at h
    have hfirst : (s :: more).isPrefixOf (c :: (before ++ text)) ≠ true := by simp [h.1]
    rw [List.cons_append, splitOnce, if_neg hfirst, ih h.2, Option.map_map]
    rfl

/-- Two characters in a row stand in the first or in the second part of a text, or on both sides of
the cut. -/
theorem pair_infix_append {p q : Char} (h : [p, q] <:+: before ++ after) :
    [p, q] <:+: before ∨ [p, q] <:+: after ∨ (before.getLast? = some p ∧ after.head? = some q) := by
  rcases List.infix_append_iff.mp h with h | h | ⟨front, back, hparts, hfront, hback⟩
  · exact .inl h
  · exact .inr (.inl h)
  · match front, back with
    | [], _ =>
      obtain rfl := hparts
      exact .inr (.inl hback.isInfix)
    | [_], _ =>
      obtain ⟨rfl, rfl⟩ := List.cons.inj hparts
      obtain ⟨start, rfl⟩ := hfront
      obtain ⟨rest, rfl⟩ := hback
      exact .inr (.inr ⟨by simp, by simp⟩)
    | _ :: _ :: more, back =>
      obtain ⟨rfl, rfl, hnil⟩ : p = _ ∧ q = _ ∧ [] = more ++ back := by simpa using hparts
      obtain ⟨rfl, -⟩ := List.append_eq_nil_iff.mp hnil.symm
      exact .inl hfront.isInfix

/-- Two characters in a row are not in front of the first occurrence of the one on the left. -/
theorem pair_infix_of_append {p q : Char} (h : [p, q] <:+: before ++ after) (hp : p ∉ before) :
    [p, q] <:+: after := by
  rcases pair_infix_append h with h | h | ⟨hlast, -⟩
  · exact absurd (h.mem List.mem_cons_self) hp
  · exact h
  · exact absurd (List.mem_of_getLast? hlast) hp

/-- Words with single spaces between them and behind them have no two spaces in a row. -/
theorem not_spaces_infix_intercalate {ws : List (List Char)} (hne : ws ≠ [])
    (hws : ∀ word ∈ ws, IsSolid word) : ¬ [' ', ' '] <:+: [' '].intercalate ws ++ [' '] := by
  have hsingle : ¬ [' ', ' '] <:+: [' '] := fun h => absurd h.length_le (by decide)
  have hspace : ∀ {word : List Char}, IsSolid word → ' ' ∉ word := fun hword hmem =>
    absurd (hword.2 ' ' hmem) (by decide)
  induction ws with
  | nil => exact absurd rfl hne
  | cons word rest ih =>
    obtain ⟨hword, hrest⟩ := List.forall_mem_cons.mp hws
    intro h
    cases rest with
    | nil =>
      rw [List.intercalate_singleton] at h
      exact hsingle (pair_infix_of_append h (hspace hword))
    | cons next rest =>
      rw [List.intercalate_cons_cons, List.append_assoc, List.append_assoc] at h
      rcases pair_infix_append (pair_infix_of_append h (hspace hword)) with h | h | ⟨-, hhead⟩
      · exact hsingle h
      · exact ih (by simp) hrest h
      · -- The next word does not begin with a space.
        obtain ⟨htrimmed, hjoin⟩ := isTrimmed_intercalate (List.cons_ne_nil next rest) hrest
        rw [List.head?_append_of_ne_nil _ hjoin] at hhead
        exact absurd (htrimmed.head ' ' hhead) (by decide)

end Separators

section Joining

/-- A text that is divided where a property of characters ends is divided in one way only. -/
theorem append_inj_of_all {p : Char → Bool} {front front' rest rest' : List Char}
    (hfront : ∀ c ∈ front, p c = true) (hfront' : ∀ c ∈ front', p c = true)
    (hrest : ∀ c, rest.head? = some c → p c = false)
    (hrest' : ∀ c, rest'.head? = some c → p c = false) (h : front ++ rest = front' ++ rest') :
    front = front' ∧ rest = rest' := by
  have htake : ∀ {front rest : List Char}, (∀ c ∈ front, p c = true) →
      (∀ c, rest.head? = some c → p c = false) → (front ++ rest).takeWhile p = front := by
    intro front rest hfront hrest
    rw [List.takeWhile_append_of_pos hfront]
    cases rest with
    | nil => simp
    | cons c rest => simp [hrest c rfl]
  obtain rfl : front = front' := by rw [← htake hfront hrest, h, htake hfront' hrest']
  exact ⟨rfl, List.append_cancel_left h⟩

variable {α : Type} {separator : List Char} {write : α → List Char}

/-- What stands behind the first of the items that are joined by a separator. -/
def behindFirst (separator : List Char) : List (List Char) → List Char
  | [] => []
  | next :: items => separator ++ separator.intercalate (next :: items)

/-- Joined items begin with the first one. -/
theorem intercalate_cons (first : List Char) (items : List (List Char)) :
    separator.intercalate (first :: items) = first ++ behindFirst separator items := by
  cases items with
  | nil => simp [behindFirst]
  | cons next items => rw [List.intercalate_cons_cons, List.append_assoc, behindFirst]

/-- What stands behind the first item tells what the next ones are joined to. -/
theorem intercalate_eq_of_behindFirst_eq (hseparator : separator ≠ [])
    {items items' : List (List Char)}
    (h : behindFirst separator items = behindFirst separator items') :
    separator.intercalate items = separator.intercalate items' := by
  cases items with
  | nil =>
    cases items' with
    | nil => rfl
    | cons next items' => exact absurd (List.append_eq_nil_iff.mp h.symm).1 hseparator
  | cons next items =>
    cases items' with
    | nil => exact absurd (List.append_eq_nil_iff.mp h).1 hseparator
    | cons next' items' => exact List.append_cancel_left h

/-- Lists that are written with a separator between their items are the same if their texts are, if
no item has an empty text and an item is told from its text and what may stand behind it. -/
theorem eq_of_intercalate_eq {P : List Char → Prop} (hseparator : separator ≠ []) (hnil : P [])
    {as bs : List α} (hne : ∀ a, a ∈ as ∨ a ∈ bs → write a ≠ [])
    (hends : ∀ a, a ∈ as ∨ a ∈ bs → ∀ rest, P (separator ++ (write a ++ rest)))
    (hwrite : ∀ a b, (a, b) ∈ as.zip bs → ∀ rest rest', P rest → P rest' →
      write a ++ rest = write b ++ rest' → a = b ∧ rest = rest')
    (h : separator.intercalate (as.map write) = separator.intercalate (bs.map write)) :
    as = bs := by
  -- What stands behind an item begins with the text of the next one.
  have hbehind : ∀ {items : List α}, (∀ a ∈ items, ∀ rest, P (separator ++ (write a ++ rest))) →
      P (behindFirst separator (items.map write)) := by
    intro items hitems
    cases items with
    | nil => exact hnil
    | cons next items =>
      rw [List.map_cons, behindFirst, intercalate_cons]
      exact hitems next List.mem_cons_self _
  induction as generalizing bs with
  | nil =>
    cases bs with
    | nil => rfl
    | cons b bs =>
      rw [List.map_cons, intercalate_cons] at h
      exact absurd (List.append_eq_nil_iff.mp h.symm).1 (hne b (.inr List.mem_cons_self))
  | cons a as ih =>
    cases bs with
    | nil =>
      rw [List.map_cons, intercalate_cons] at h
      exact absurd (List.append_eq_nil_iff.mp h).1 (hne a (.inl List.mem_cons_self))
    | cons b bs =>
      rw [List.map_cons, List.map_cons, intercalate_cons, intercalate_cons] at h
      have hmem : ∀ {c}, c ∈ as ∨ c ∈ bs → c ∈ a :: as ∨ c ∈ b :: bs :=
        Or.imp (List.mem_cons_of_mem _) (List.mem_cons_of_mem _)
      have has := hbehind fun c hc => hends c (hmem (.inl hc))
      have hbs := hbehind fun c hc => hends c (hmem (.inr hc))
      obtain ⟨rfl, hrest⟩ := hwrite a b List.mem_cons_self _ _ has hbs h
      exact congrArg (a :: ·) (ih (fun c hc => hne c (hmem hc)) (fun c hc => hends c (hmem hc))
        (fun c d hcd => hwrite c d (List.mem_cons_of_mem _ hcd))
        (intercalate_eq_of_behindFirst_eq hseparator hrest))

end Joining

section Lines

/-- Characters without a line feed and without a carriage return at their end. -/
structure IsLine (line : List Char) : Prop where
  noFeed : '\n' ∉ line
  noReturn : line.getLast? ≠ some '\r'

/-- Characters that are no line feeds go to the line that has begun. -/
theorem linesFrom_append {line : List Char} (hfeed : '\n' ∉ line) (current rest : List Char) :
    linesFrom current (line ++ rest) = linesFrom (line.reverse ++ current) rest := by
  induction line generalizing current with
  | nil => rfl
  | cons c line ih =>
    rw [List.mem_cons, not_or] at hfeed
    rw [List.cons_append, linesFrom.eq_3 _ _ _ fun hc => hfeed.1 hc.symm, ih hfeed.2,
      List.reverse_cons, List.append_assoc]
    rfl

/-- A line in front of a line feed is got back from a text. -/
theorem lines_append {line : List Char} (hline : IsLine line) (rest : List Char) :
    lines (line ++ '\n' :: rest) = line :: lines rest := by
  have hfinish : finishLine line.reverse = line := by
    unfold finishLine
    split
    · rename_i before hreverse
      have hlast : line = before.reverse ++ ['\r'] := by simpa using congrArg List.reverse hreverse
      exact absurd (by simp [hlast]) hline.noReturn
    · exact List.reverse_reverse line
  rw [lines, linesFrom_append hline.noFeed, List.append_nil, linesFrom, hfinish]
  rfl

/-- Lines are got back from a text in which a line feed is behind each of them. -/
theorem lines_flatMap {ls : List (List Char)} (hls : ∀ line ∈ ls, IsLine line) :
    lines (ls.flatMap fun line => line ++ ['\n']) = ls := by
  induction ls with
  | nil => rfl
  | cons line rest ih =>
    obtain ⟨hline, hrest⟩ := List.forall_mem_cons.mp hls
    rw [List.flatMap_cons, List.append_assoc, List.singleton_append, lines_append hline, ih hrest]

/-- Whether a text is made of lines. A line feed is behind each of them, or a carriage return and a
line feed; the last one may go without, if it is not empty. -/
inductive HasLines : List Char → List (List Char) → Prop
  | nil : HasLines [] []
  | last {line : List Char} (hfeed : '\n' ∉ line) (hne : line ≠ []) : HasLines line [line]
  | feed {line rest : List Char} {ls : List (List Char)} (hline : IsLine line)
      (hrest : HasLines rest ls) : HasLines (line ++ '\n' :: rest) (line :: ls)
  | returnFeed {line rest : List Char} {ls : List (List Char)} (hfeed : '\n' ∉ line)
      (hrest : HasLines rest ls) : HasLines (line ++ '\r' :: '\n' :: rest) (line :: ls)

/-- The lines that a text is made of are got back. -/
theorem HasLines.lines_eq {text : List Char} {ls : List (List Char)} (h : HasLines text ls) :
    lines text = ls := by
  induction h with
  | nil => rfl
  | last hfeed hne =>
    have hfrom := linesFrom_append hfeed [] []
    rw [List.append_nil, List.append_nil] at hfrom
    simp [lines, hfrom, linesFrom, hne]
  | feed hline _ ih => rw [lines_append hline, ih]
  | @returnFeed line rest _ hfeed _ ih =>
    have hfinish : finishLine ('\r' :: line.reverse) = line := line.reverse_reverse
    rw [lines, linesFrom_append hfeed, List.append_nil, linesFrom.eq_3 _ _ _ (by decide), linesFrom,
      hfinish, ← lines, ih]

/-- A text behind a line that has begun is made of the lines that are found in it. -/
theorem hasLines_linesFrom {current : List Char} (hfeed : '\n' ∉ current) (text : List Char) :
    HasLines (current.reverse ++ text) (linesFrom current text) := by
  induction text generalizing current with
  | nil =>
    rw [linesFrom, List.append_nil]
    split_ifs with hempty
    · rw [List.isEmpty_iff.mp hempty]
      exact .nil
    · exact .last (by simpa using hfeed) (by simpa using hempty)
  | cons c rest ih =>
    by_cases hc : c = '\n'
    · subst hc
      have hrest : HasLines rest (linesFrom [] rest) := ih List.not_mem_nil
      rw [linesFrom]
      unfold finishLine
      split
      · rename_i before
        rw [List.reverse_cons, List.append_assoc]
        exact .returnFeed (by simpa using hfeed) hrest
      · rename_i hreturn
        refine .feed ⟨by simpa using hfeed, fun hlast => ?_⟩ hrest
        obtain ⟨before, hbefore⟩ := List.getLast?_eq_some_iff.mp hlast
        exact hreturn before.reverse (by simpa using congrArg List.reverse hbefore)
    · rw [linesFrom.eq_3 _ _ _ hc]
      have hnext := ih (List.mem_cons.not.mpr (not_or.mpr ⟨Ne.symm hc, hfeed⟩))
      rwa [List.reverse_cons, List.append_assoc] at hnext

/-- Every text is made of lines in exactly one way. -/
theorem hasLines_iff {text : List Char} {ls : List (List Char)} :
    HasLines text ls ↔ lines text = ls :=
  ⟨HasLines.lines_eq, fun h => h ▸ hasLines_linesFrom List.not_mem_nil text⟩

end Lines

end A64Disassembler.Text
