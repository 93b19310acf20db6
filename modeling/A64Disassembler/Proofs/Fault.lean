import A64Disassembler.Fault

/-!
# Successes and faults of steps in a row

A step after another one succeeds if both do, and what fails is the first step or, after its
success, the second one. Steps over a list succeed if each of them does.
-/

namespace A64Disassembler

/-- A step after a success goes on with its result. -/
theorem ok_bind {ε α β : Type} (a : α) (f : α → Except ε β) : (Except.ok a >>= f) = f a :=
  rfl

/-- A step after another one succeeds exactly if both succeed. -/
theorem bind_eq_ok {ε α β : Type} {x : Except ε α} {f : α → Except ε β} {b : β} :
    (x >>= f) = .ok b ↔ ∃ a, x = .ok a ∧ f a = .ok b := by
  cases x with
  | error e => simp [bind, Except.bind]
  | ok a => simp [bind, Except.bind]

/-- A step after another one fails exactly if the other one fails or it fails itself. -/
theorem bind_eq_error {ε α β : Type} {x : Except ε α} {f : α → Except ε β} {e : ε} :
    (x >>= f) = .error e ↔ x = .error e ∨ ∃ a, x = .ok a ∧ f a = .error e := by
  cases x with
  | error e' => simp [bind, Except.bind]
  | ok a => simp [bind, Except.bind]

/-- A function that succeeds on every member of a list succeeds on the list. -/
theorem exists_mapM_eq_ok {ε α β : Type} {f : α → Except ε β} {xs : List α}
    (h : ∀ x ∈ xs, ∃ y, f x = .ok y) : ∃ ys, xs.mapM f = .ok ys := by
  induction xs with
  | nil => exact ⟨[], rfl⟩
  | cons x rest ih =>
    obtain ⟨y, hy⟩ := h x List.mem_cons_self
    obtain ⟨ys, hys⟩ := ih fun z hz => h z (List.mem_cons_of_mem x hz)
    refine ⟨y :: ys, ?_⟩
    rw [List.mapM_cons]
    exact bind_eq_ok.mpr ⟨y, hy, bind_eq_ok.mpr ⟨ys, hys, rfl⟩⟩

/-- The results of a function on a list are those on its members. -/
theorem exists_of_mem_mapM {ε α β : Type} {f : α → Except ε β} {xs : List α} {ys : List β}
    (h : xs.mapM f = .ok ys) : ∀ y ∈ ys, ∃ x ∈ xs, f x = .ok y := by
  induction xs generalizing ys with
  | nil =>
    cases h
    simp
  | cons x rest ih =>
    rw [List.mapM_cons] at h
    obtain ⟨y, hy, h⟩ := bind_eq_ok.mp h
    obtain ⟨more, hmore, h⟩ := bind_eq_ok.mp h
    cases h
    refine List.forall_mem_cons.mpr ⟨⟨x, List.mem_cons_self, hy⟩, fun z hz => ?_⟩
    obtain ⟨w, hw, hz⟩ := ih hmore z hz
    exact ⟨w, List.mem_cons_of_mem x hw, hz⟩

/-- An address within the address space is as far behind another one as it was advanced. -/
theorem Address.toNat_add {a : Address} {count : Nat} (h : a.toNat + count < sizeLimit) :
    (a + BitVec.ofNat 64 count).toNat = a.toNat + count := by
  rw [BitVec.toNat_add, BitVec.toNat_ofNat, Nat.add_mod_mod]
  exact Nat.mod_eq_of_lt h

/-- There is no address behind the end of the address space. -/
theorem Address.advance_eq_error {a : Address} {count : Nat} {f : Fault} :
    a.advance count = .error f ↔ f = .overflow ∧ sizeLimit ≤ a.toNat + count := by
  unfold Address.advance
  split
  · simp only [reduceCtorEq, false_iff, not_and]
    omega
  · simp_all [eq_comm]

end A64Disassembler
