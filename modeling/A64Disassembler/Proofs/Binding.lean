import A64Disassembler.Proofs.Expr.Order
import Mathlib.Data.Finset.Card

/-!
# A binding is a finite map

The effects of a binding are kept in strictly ascending order of their locations, so that there is
at most one on each location. Setting a location changes its value and no other one. After any
number of settings, every location that was set has the reduced form of its last value, and no other
location has a value.
-/

namespace A64Disassembler.Binding

variable {location : Location} {value : Expr} {effects : List (Location × Expr)}
  {effect : Location × Expr}

/-- Whether effects are in strictly ascending order of their locations. -/
def IsAscending (effects : List (Location × Expr)) : Prop :=
  (effects.map Prod.fst).Pairwise fun l m => compare l m = .lt

/-- An inserted effect is new, and the others are those from before. -/
theorem mem_insert (h : effect ∈ insert location value effects) :
    effect = (location, value) ∨ effect ∈ effects := by
  induction effects with
  | nil => exact .inl (List.mem_singleton.mp h)
  | cons first rest ih =>
    obtain ⟨l, v⟩ := first
    rw [insert] at h
    split at h
    · exact List.mem_cons.mp h
    · exact (List.mem_cons.mp h).imp_right (List.mem_cons_of_mem _)
    · rcases List.mem_cons.mp h with rfl | h
      · exact .inr List.mem_cons_self
      · exact (ih h).imp_right (List.mem_cons_of_mem _)

/-- An effect that is inserted is there. -/
theorem mem_insert_self : (location, value) ∈ insert location value effects := by
  induction effects with
  | nil => exact List.mem_singleton_self _
  | cons first rest ih =>
    rw [insert]
    split
    · exact List.mem_cons_self
    · exact List.mem_cons_self
    · exact List.mem_cons_of_mem _ ih

/-- The effects on other locations stay. -/
theorem mem_insert_of_ne (h : effect ∈ effects) (hne : effect.1 ≠ location) :
    effect ∈ insert location value effects := by
  induction effects with
  | nil => cases h
  | cons first rest ih =>
    obtain ⟨l, v⟩ := first
    rw [insert]
    split
    case h_1 => exact List.mem_cons_of_mem _ h
    case h_2 hcompare =>
      obtain rfl : location = l := Std.LawfulEqOrd.eq_of_compare hcompare
      rcases List.mem_cons.mp h with rfl | h
      · exact absurd rfl hne
      · exact List.mem_cons_of_mem _ h
    case h_3 =>
      rcases List.mem_cons.mp h with rfl | h
      · exact List.mem_cons_self
      · exact List.mem_cons_of_mem _ (ih h)

/-- Inserting an effect keeps the ascending order. -/
theorem IsAscending.insert (h : IsAscending effects) (location : Location) (value : Expr) :
    IsAscending (insert location value effects) := by
  induction effects with
  | nil => exact List.pairwise_singleton _ _
  | cons first rest ih =>
    obtain ⟨l, v⟩ := first
    obtain ⟨hfirst, hrest⟩ := List.pairwise_cons.mp h
    rw [Binding.insert]
    split
    case h_1 hcompare =>
      refine List.pairwise_cons.mpr ⟨fun m hm => ?_, h⟩
      rcases List.mem_cons.mp hm with rfl | hm
      · exact hcompare
      · exact Std.TransCmp.lt_trans hcompare (hfirst m hm)
    case h_2 hcompare =>
      obtain rfl : location = l := Std.LawfulEqOrd.eq_of_compare hcompare
      exact h
    case h_3 hcompare =>
      refine List.pairwise_cons.mpr ⟨fun m hm => ?_, ih hrest⟩
      obtain ⟨effect, heffect, rfl⟩ := List.mem_map.mp hm
      rcases mem_insert heffect with rfl | heffect
      · exact Std.OrientedCmp.gt_iff_lt.mp hcompare
      · exact hfirst _ (List.mem_map_of_mem heffect)

/-- No location occurs twice in ascending effects. -/
theorem IsAscending.nodup (h : IsAscending effects) : (effects.map Prod.fst).Nodup := by
  refine List.Pairwise.imp (fun hlt heq => ?_) h
  rw [heq, Std.ReflOrd.compare_self] at hlt
  cases hlt

variable {b : Binding}

/-- In ascending effects, the value of a location is that of the effect on it. -/
theorem get?_eq_some_iff (h : IsAscending b.effects) :
    b.get? location = some value ↔ (location, value) ∈ b.effects := by
  rw [get?, Option.map_eq_some_iff]
  constructor
  · rintro ⟨⟨l, v⟩, hfind, rfl⟩
    have hcompare := List.find?_some hfind
    obtain rfl : location = l := Std.LawfulEqOrd.eq_of_compare (by simpa using hcompare)
    exact List.mem_of_find?_eq_some hfind
  · intro hmem
    have hsome : (b.effects.find? fun e => compare location e.1 == .eq).isSome :=
      List.find?_isSome.mpr ⟨_, hmem, by simp⟩
    obtain ⟨⟨l, v⟩, hfind⟩ := Option.isSome_iff_exists.mp hsome
    have hcompare := List.find?_some hfind
    obtain rfl : location = l := Std.LawfulEqOrd.eq_of_compare (by simpa using hcompare)
    have hmem' := List.mem_of_find?_eq_some hfind
    have hsame := List.inj_on_of_nodup_map h.nodup hmem' hmem rfl
    exact ⟨_, hfind, congrArg Prod.snd hsame⟩

/-- A location has a value if and only if there is an effect on it. -/
theorem isSome_get?_iff (b : Binding) (location : Location) :
    (b.get? location).isSome ↔ location ∈ b.effects.map Prod.fst := by
  simp [get?, List.find?_isSome]

/-- Setting a location gives it the reduced form of the value and changes no other location. -/
theorem get?_set (h : IsAscending b.effects) (l : Location) :
    (b.set location value).get? l = if location = l then some value.reduce else b.get? l := by
  have hset : IsAscending (b.set location value).effects := h.insert location value.reduce
  split
  case isTrue heq =>
    subst heq
    exact (get?_eq_some_iff hset).mpr mem_insert_self
  case isFalse hne =>
    refine Option.ext fun v => ?_
    rw [get?_eq_some_iff hset, get?_eq_some_iff h]
    refine ⟨fun hmem => ?_, fun hmem => mem_insert_of_ne hmem (Ne.symm hne)⟩
    exact (mem_insert hmem).resolve_left fun heq => hne (congrArg Prod.fst heq).symm

/-- The binding after settings in a row. -/
def setAll (b : Binding) (settings : List (Location × Expr)) : Binding :=
  settings.foldl (fun b s => b.set s.1 s.2) b

/-- The value in the last of the settings of a location. -/
def lastValue? (settings : List (Location × Expr)) (location : Location) : Option Expr :=
  (settings.reverse.find? fun s => s.1 = location).map Prod.snd

/-- A binding without effects has them in order, and settings keep the order. -/
theorem isAscending_setAll (settings : List (Location × Expr)) :
    IsAscending (empty.setAll settings).effects := by
  induction settings using List.reverseRecOn with
  | nil => exact List.Pairwise.nil
  | append_singleton settings s ih =>
    rw [setAll, List.foldl_concat]
    exact ih.insert s.1 s.2.reduce

/-- After settings in a row, a location has the reduced form of its last value. -/
theorem get?_setAll (settings : List (Location × Expr)) (location : Location) :
    (empty.setAll settings).get? location = (lastValue? settings location).map Expr.reduce := by
  -- The last setting decides about its own location, and the ones before it about the others.
  induction settings using List.reverseRecOn with
  | nil => rfl
  | append_singleton settings s ih =>
    have hascending := isAscending_setAll settings
    rw [setAll, List.foldl_concat, ← setAll, get?_set hascending, ih, lastValue?, lastValue?,
      List.reverse_concat, List.find?_cons]
    by_cases heq : s.1 = location <;> simp [heq]

/-- A location has a last value if and only if it is set. -/
theorem isSome_lastValue?_iff (settings : List (Location × Expr)) (location : Location) :
    (lastValue? settings location).isSome ↔ location ∈ settings.map Prod.fst := by
  simp [lastValue?, List.find?_isSome]

/-- The locations of a binding after settings in a row are those that were set. -/
theorem mem_locations_setAll (settings : List (Location × Expr)) (location : Location) :
    location ∈ (empty.setAll settings).effects.map Prod.fst ↔ location ∈ settings.map Prod.fst := by
  rw [← isSome_get?_iff, get?_setAll, Option.isSome_map, isSome_lastValue?_iff]

/-- A binding is a finite map in which the last write wins. After settings in a row, a location has
the reduced form of the value that it was set to last, or none if it was not set. There are as many
effects as different locations, each location that was set has exactly one of them, with its value,
and they are in strictly ascending order. The order is total, and only a location and itself are
equal in it. -/
theorem setAll_is_finite_map (settings : List (Location × Expr)) :
    let b := empty.setAll settings
    let locations := b.effects.map Prod.fst
    (∀ l, b.get? l = (lastValue? settings l).map Expr.reduce) ∧
      b.size = (settings.map Prod.fst).toFinset.card ∧
      (∀ l, locations.count l = if l ∈ settings.map Prod.fst then 1 else 0) ∧
      (∀ l v, (l, v) ∈ b.effects ↔ b.get? l = some v) ∧
      locations.Pairwise (fun l m => compare l m = .lt) ∧
      Std.TransOrd Location ∧ Std.LawfulEqOrd Location := by
  intro b locations
  have hascending : IsAscending b.effects := isAscending_setAll settings
  have hmem : ∀ l, l ∈ locations ↔ l ∈ settings.map Prod.fst := mem_locations_setAll settings
  refine ⟨get?_setAll settings, ?_, fun l => ?_,
    fun l v => (get?_eq_some_iff hascending).symm, hascending, inferInstance, inferInstance⟩
  · have hsame : locations.toFinset = (settings.map Prod.fst).toFinset :=
      Finset.ext fun l => by rw [List.mem_toFinset, List.mem_toFinset, hmem]
    rw [← hsame, List.toFinset_card_of_nodup hascending.nodup, List.length_map]
    rfl
  · split
    case isTrue hset => exact List.count_eq_one_of_mem hascending.nodup ((hmem l).mpr hset)
    case isFalse hunset => exact List.count_eq_zero_of_not_mem fun h => hunset ((hmem l).mp h)

end A64Disassembler.Binding
