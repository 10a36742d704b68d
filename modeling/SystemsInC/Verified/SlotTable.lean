import Mathlib.Data.Finset.Insert
import Mathlib.Data.Finset.Erase
import Mathlib.Data.List.FinRange
import Mathlib.Logic.Function.Basic

/-!
# A table of slots

A table has a fixed number of slots; a slot that holds the value `free` is empty.
`store` puts a value into the first empty slot and does nothing in a full table,
and `release` empties a slot.

`Holds` relates the table to the set of values that are in use: each slot that is
not empty has one of its own.  `Covers` is the other half: no value in use is
missing.  A full table breaks it at the next `store`, and nothing but that does.
-/

namespace SystemsInC.Verified.SlotTable

variable {n : Nat} {α : Type*} {free x : α} {slots : Fin n → α} {i j : Fin n}
  {used : Finset α}

/-- No slot is empty. -/
def Full (free : α) (slots : Fin n → α) : Prop := ∀ i, slots i ≠ free

def release (free : α) (slots : Fin n → α) (i : Fin n) : Fin n → α :=
  Function.update slots i free

/-! ## The values in use -/

/-- The slots that are not empty hold values in use, and no two of them the same one. -/
structure Holds (free : α) (slots : Fin n → α) (used : Finset α) : Prop where
  mem : ∀ i, slots i ≠ free → slots i ∈ used
  inj : ∀ i j, slots i ≠ free → slots i = slots j → i = j
  free_not_mem : free ∉ used

/-- Each value in use is in a slot. -/
def Covers (slots : Fin n → α) (used : Finset α) : Prop := ∀ x ∈ used, ∃ i, slots i = x

theorem Holds.empty : Holds free (fun _ : Fin n => free) ∅ where
  mem _ h := absurd rfl h
  inj _ _ h := absurd rfl h
  free_not_mem := Finset.notMem_empty free

/-- The values in use are in one slot each. -/
theorem Holds.existsUnique (h : Holds free slots used) (hcovers : Covers slots used)
    (hx : x ∈ used) : ∃! i, slots i = x := by
  have ⟨i, hi⟩ := hcovers x hx
  refine ⟨i, hi, fun j hj => ?_⟩
  have hne : slots j ≠ free := by
    rw [hj]
    exact fun heq => h.free_not_mem (heq ▸ hx)
  exact h.inj j i hne (hj.trans hi.symm)

theorem Holds.ne_of_not_mem (h : Holds free slots used) (hx : x ∉ used) (hne : x ≠ free)
    (i : Fin n) : slots i ≠ x := by
  intro heq
  have hmem := h.mem i (by rw [heq]; exact hne)
  exact hx (heq ▸ hmem)

/-- What is in no slot does not come into one when another is emptied. -/
theorem release_ne (hne : x ≠ free) (h : ∀ j, slots j ≠ x) (j : Fin n) :
    release free slots i j ≠ x := by
  unfold release
  by_cases hij : j = i
  · rw [hij, Function.update_self]
    exact hne.symm
  · rw [Function.update_of_ne hij]
    exact h j

variable [DecidableEq α]

/-! ## Storing a value -/

/-- The first empty slot. -/
def firstFree (free : α) (slots : Fin n → α) : Option (Fin n) :=
  (List.finRange n).find? (fun i => slots i = free)

def store (free : α) (slots : Fin n → α) (x : α) : Fin n → α :=
  match firstFree free slots with
  | some i => Function.update slots i x
  | none => slots

instance (free : α) (slots : Fin n → α) : Decidable (Full free slots) := by
  unfold Full
  infer_instance

theorem firstFree_eq_none_iff : firstFree free slots = none ↔ Full free slots := by
  simp [firstFree, Full, List.find?_eq_none]

theorem slots_firstFree (h : firstFree free slots = some i) : slots i = free := by
  simpa using List.find?_some h

theorem store_of_full (h : Full free slots) (x : α) : store free slots x = slots := by
  rw [store, firstFree_eq_none_iff.mpr h]

theorem exists_store (h : ¬ Full free slots) (x : α) :
    ∃ i, slots i = free ∧ store free slots x = Function.update slots i x := by
  have hsome : firstFree free slots ≠ none := fun hnone => h (firstFree_eq_none_iff.mp hnone)
  have ⟨i, hi⟩ := Option.ne_none_iff_exists'.mp hsome
  exact ⟨i, slots_firstFree hi, by rw [store, hi]⟩

/-! ### What that does to the values in use -/

theorem Holds.insert (h : Holds free slots used) (hne : x ≠ free) :
    Holds free slots (insert x used) where
  mem i hi := Finset.mem_insert_of_mem (h.mem i hi)
  inj := h.inj
  free_not_mem hmem := by
    rcases Finset.mem_insert.mp hmem with heq | hused
    · exact hne heq.symm
    · exact h.free_not_mem hused

/-- A new value is stored. -/
theorem Holds.store (h : Holds free slots used) (hx : x ∉ used) (hne : x ≠ free) :
    Holds free (store free slots x) (Insert.insert x used) := by
  by_cases hfull : Full free slots
  · rw [store_of_full hfull]
    exact h.insert hne
  · have ⟨i, hi, heq⟩ := exists_store hfull x
    have hother := h.ne_of_not_mem hx hne
    rw [heq]
    constructor
    · intro j hj
      by_cases hij : j = i
      · rw [hij, Function.update_self]
        exact Finset.mem_insert_self x used
      · rw [Function.update_of_ne hij] at hj ⊢
        exact Finset.mem_insert_of_mem (h.mem j hj)
    · intro j k hj hjk
      by_cases hij : j = i
      · by_cases hik : k = i
        · rw [hij, hik]
        · rw [hij, Function.update_self, Function.update_of_ne hik] at hjk
          exact absurd hjk.symm (hother k)
      · rw [Function.update_of_ne hij] at hj hjk
        by_cases hik : k = i
        · rw [hik, Function.update_self] at hjk
          exact absurd hjk (hother j)
        · rw [Function.update_of_ne hik] at hjk
          exact h.inj j k hj hjk
    · exact (h.insert hne).free_not_mem

theorem Covers.store (h : Covers slots used) (hholds : Holds free slots used)
    (hfull : ¬ Full free slots) (x : α) : Covers (store free slots x) (Insert.insert x used) := by
  have ⟨i, hi, heq⟩ := exists_store hfull x
  rw [heq]
  intro y hy
  rcases Finset.mem_insert.mp hy with rfl | hy
  · exact ⟨i, Function.update_self ..⟩
  · have ⟨j, hj⟩ := h y hy
    have hij : j ≠ i := by
      intro hij
      rw [hij, hi] at hj
      exact hholds.free_not_mem (hj ▸ hy)
    exact ⟨j, by rw [Function.update_of_ne hij, hj]⟩

/-- A full table does not take a new value. -/
theorem Holds.not_stored (h : Holds free slots used) (hfull : Full free slots) (hx : x ∉ used)
    (hne : x ≠ free) (i : Fin n) : SlotTable.store free slots x i ≠ x := by
  rw [store_of_full hfull]
  exact h.ne_of_not_mem hx hne i

/-- A slot is emptied together with the use of its value. -/
theorem Holds.release (h : Holds free slots used) :
    Holds free (release free slots i) (used.erase (slots i)) where
  mem j hj := by
    unfold SlotTable.release at hj ⊢
    by_cases hij : j = i
    · rw [hij, Function.update_self] at hj
      contradiction
    · rw [Function.update_of_ne hij] at hj ⊢
      refine Finset.mem_erase.mpr ⟨fun heq => hij (h.inj j i hj heq), h.mem j hj⟩
  inj j k hj hjk := by
    unfold SlotTable.release at hj hjk
    by_cases hij : j = i
    · rw [hij, Function.update_self] at hj
      contradiction
    · rw [Function.update_of_ne hij] at hj hjk
      by_cases hik : k = i
      · rw [hik, Function.update_self] at hjk
        contradiction
      · rw [Function.update_of_ne hik] at hjk
        exact h.inj j k hj hjk
  free_not_mem hmem := h.free_not_mem (Finset.mem_of_mem_erase hmem)

theorem Covers.release (h : Covers slots used) :
    Covers (release free slots i) (used.erase (slots i)) := by
  intro x hx
  have ⟨hne, hmem⟩ := Finset.mem_erase.mp hx
  have ⟨j, hj⟩ := h x hmem
  have hij : j ≠ i := by
    intro hij
    rw [hij] at hj
    exact hne hj.symm
  exact ⟨j, by rw [SlotTable.release, Function.update_of_ne hij, hj]⟩

end SystemsInC.Verified.SlotTable
