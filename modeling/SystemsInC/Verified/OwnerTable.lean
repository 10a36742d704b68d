import Mathlib.Data.Option.Basic
import Mathlib.Logic.Function.Basic

/-!
# A table with owners

A table gives each key in use its owner, and keys that are given up come back into use.  `Owns`
relates it to the key that each owner holds: an owner has one key at most and no two owners the
same one, so whoever looks up the key that it holds finds itself.
-/

namespace SystemsInC.Verified.OwnerTable

variable {κ ι : Type*} {table : κ → Option ι} {held : ι → Option κ} {k : κ} {i j : ι}

/-- The keys in use are those that are held. -/
def Owns (table : κ → Option ι) (held : ι → Option κ) : Prop :=
  ∀ k i, table k = some i ↔ held i = some k

theorem owns_empty : Owns (fun _ : κ => (none : Option ι)) (fun _ => none) :=
  fun _ _ => ⟨nofun, nofun⟩

theorem Owns.unique (h : Owns table held) (hi : held i = some k) (hj : held j = some k) :
    i = j := by
  have hk := (h k i).mpr hi
  rw [(h k j).mpr hj] at hk
  exact (Option.some.inj hk).symm

/-- Where nobody holds a key none is in use. -/
theorem Owns.eq_none (h : Owns table held) (hnone : ∀ i, held i = none) (k : κ) :
    table k = none := by
  cases hk : table k with
  | none => rfl
  | some i =>
      have hheld := (h k i).mp hk
      rw [hnone i] at hheld
      cases hheld

variable [DecidableEq κ] [DecidableEq ι]

theorem Owns.acquire (h : Owns table held) (hk : table k = none) (hi : held i = none) :
    Owns (Function.update table k (some i)) (Function.update held i (some k)) := by
  intro k' j
  by_cases hkk : k' = k
  · rw [hkk, Function.update_self]
    by_cases hij : j = i
    · rw [hij, Function.update_self]
      exact ⟨fun _ => rfl, fun _ => rfl⟩
    · rw [Function.update_of_ne hij, ← h k j, hk]
      exact ⟨fun heq => absurd (Option.some.inj heq).symm hij, nofun⟩
  · rw [Function.update_of_ne hkk]
    by_cases hij : j = i
    · rw [hij, Function.update_self, h k' i, hi]
      exact ⟨nofun, fun heq => absurd (Option.some.inj heq).symm hkk⟩
    · rw [Function.update_of_ne hij]
      exact h k' j

theorem Owns.release (h : Owns table held) (hi : held i = some k) :
    Owns (Function.update table k none) (Function.update held i none) := by
  intro k' j
  by_cases hkk : k' = k
  · rw [hkk, Function.update_self]
    by_cases hij : j = i
    · rw [hij, Function.update_self]
      exact ⟨nofun, nofun⟩
    · rw [Function.update_of_ne hij]
      exact ⟨nofun, fun hj => absurd (h.unique hj hi) hij⟩
  · rw [Function.update_of_ne hkk]
    by_cases hij : j = i
    · rw [hij, Function.update_self, h k' i, hi]
      exact ⟨fun heq => absurd (Option.some.inj heq).symm hkk, nofun⟩
    · rw [Function.update_of_ne hij]
      exact h k' j

end SystemsInC.Verified.OwnerTable
