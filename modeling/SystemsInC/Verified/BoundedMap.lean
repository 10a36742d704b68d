import Mathlib.Data.Finset.Card
import Mathlib.Data.List.Nodup

/-!
# A map with room for so many keys

`BoundedMap κ ν limit` binds at most `limit` keys; the bound is part of the
type.  Binding a key that is there, or a new one while there is room, gives the
key its value; a new key without room changes nothing.

A table of entries with distinct keys represents such a map.  It is searched
from its start, an entry is updated in its place, and a new one goes to the end.
-/

namespace SystemsInC.Verified

variable {κ ν : Type*} {limit : Nat}

/-- A map with at most `limit` keys. -/
structure BoundedMap (κ ν : Type*) (limit : Nat) where
  keys : Finset κ
  value : κ → Option ν
  mem_keys : ∀ k, k ∈ keys ↔ value k ≠ none
  card_le : keys.card ≤ limit

namespace BoundedMap

/-- The map without keys. -/
def empty : BoundedMap κ ν limit :=
  { keys := ∅
    value := fun _ => none
    mem_keys := fun k => by simp
    card_le := Nat.zero_le _ }

/-- The key is there, or there is room for it. -/
def Accepts (m : BoundedMap κ ν limit) (k : κ) : Prop := m.value k ≠ none ∨ m.keys.card < limit

section Bind

variable [DecidableEq κ]

/-- Give the key a value that the map accepts. -/
def insert (m : BoundedMap κ ν limit) (k : κ) (v : ν) (h : m.Accepts k) :
    BoundedMap κ ν limit where
  keys := Insert.insert k m.keys
  value := Function.update m.value k (some v)
  mem_keys := by
    intro x
    by_cases hx : x = k
    · simp [hx]
    · simp [hx, m.mem_keys]
  card_le := by
    rcases h with hmem | hroom
    · rw [Finset.insert_eq_self.mpr ((m.mem_keys k).mpr hmem)]
      exact m.card_le
    · exact (Finset.card_insert_le _ _).trans hroom

open Classical in
/-- Give the key a value, if the map accepts it. -/
noncomputable def set (m : BoundedMap κ ν limit) (k : κ) (v : ν) : BoundedMap κ ν limit :=
  if h : m.Accepts k then m.insert k v h else m

variable {m : BoundedMap κ ν limit} {k : κ} {v : ν}

theorem set_value (h : m.Accepts k) : (m.set k v).value = Function.update m.value k (some v) := by
  rw [set, dif_pos h]
  rfl

theorem set_of_not_accepts (h : ¬ m.Accepts k) : m.set k v = m := by
  rw [set, dif_neg h]

/-- Another key keeps its value. -/
theorem set_value_ne {x : κ} (hx : x ≠ k) : (m.set k v).value x = m.value x := by
  by_cases h : m.Accepts k
  · rw [set_value h, Function.update_of_ne hx]
  · rw [set_of_not_accepts h]

end Bind

/-! ## Tables -/

/-- The entries of the table are the bindings of the map, each key once. -/
structure Represents (t : List (κ × ν)) (m : BoundedMap κ ν limit) : Prop where
  nodup : (t.map Prod.fst).Nodup
  mem_iff : ∀ k v, (k, v) ∈ t ↔ m.value k = some v

namespace Represents

variable {t : List (κ × ν)} {m : BoundedMap κ ν limit} {k : κ} {v : ν}

theorem empty : Represents [] (BoundedMap.empty : BoundedMap κ ν limit) :=
  ⟨List.nodup_nil, fun _ _ => by simp [BoundedMap.empty]⟩

theorem mem_keys (h : Represents t m) (k : κ) : k ∈ t.map Prod.fst ↔ k ∈ m.keys := by
  rw [m.mem_keys, List.mem_map]
  constructor
  · rintro ⟨⟨k', v⟩, hmem, rfl⟩
    rw [(h.mem_iff k' v).mp hmem]
    exact Option.some_ne_none v
  · intro hne
    have ⟨v, hv⟩ := Option.ne_none_iff_exists'.mp hne
    exact ⟨(k, v), (h.mem_iff k v).mpr hv, rfl⟩

/-- The table has as many entries as the map has keys. -/
theorem length_eq (h : Represents t m) : t.length = m.keys.card := by
  classical
  have hkeys : (t.map Prod.fst).toFinset = m.keys := by
    ext k
    rw [List.mem_toFinset]
    exact h.mem_keys k
  rw [← hkeys, List.toFinset_card_of_nodup h.nodup, List.length_map]

theorem length_le (h : Represents t m) : t.length ≤ limit := h.length_eq ▸ m.card_le

section Search

variable [DecidableEq κ]

/-- The search finds the value of the key. -/
theorem find (h : Represents t m) (k : κ) :
    (t.find? (fun e => e.1 = k)).map Prod.snd = m.value k := by
  cases hfind : t.find? (fun e => e.1 = k) with
  | none =>
      cases hv : m.value k with
      | none => rfl
      | some v =>
          have hno := List.find?_eq_none.mp hfind (k, v) ((h.mem_iff k v).mpr hv)
          simp at hno
  | some e =>
      have hkey : e.1 = k := by simpa using List.find?_some hfind
      subst hkey
      exact ((h.mem_iff e.1 e.2).mp (List.mem_of_find?_eq_some hfind)).symm

/-- Without an entry for the key the map does not bind it. -/
theorem value_eq_none (h : Represents t m) (hnone : t.findIdx? (fun e => e.1 = k) = none) :
    m.value k = none := by
  rw [← h.find k, List.find?_eq_none.mpr]
  · rfl
  · simpa using hnone

/-- The entry that the search finds, with what stands before and behind it. -/
theorem split_of_findIdx? {i : Nat} (hi : t.findIdx? (fun e => e.1 = k) = some i) :
    ∃ l₁ w l₂, t = l₁ ++ (k, w) :: l₂ ∧ ∀ e, t.set i e = l₁ ++ e :: l₂ := by
  have ⟨hlt, hkey, _⟩ := List.findIdx?_eq_some_iff_getElem.mp hi
  have hentry : t[i] = (k, t[i].2) := by
    have hfst : t[i].1 = k := by simpa using hkey
    rw [← hfst]
  refine ⟨t.take i, t[i].2, t.drop (i + 1), ?_, fun e => List.set_eq_take_append_cons_drop.trans ?_⟩
  · rw [← hentry, List.getElem_cons_drop, List.take_append_drop]
  · rw [if_pos hlt]

/-- An entry's value is changed in its place. -/
theorem update {i : Nat} (h : Represents t m) (hi : t.findIdx? (fun e => e.1 = k) = some i)
    (v : ν) : Represents (t.set i (k, v)) (m.set k v) := by
  have ⟨l₁, w, l₂, ht, hset⟩ := split_of_findIdx? hi
  have hmem : (k, w) ∈ t := by simp [ht]
  have haccepts : m.Accepts k := .inl (by simp [(h.mem_iff k w).mp hmem])
  have hnodup : ((t.set i (k, v)).map Prod.fst).Nodup := by
    have hkeys : (t.set i (k, v)).map Prod.fst = t.map Prod.fst := by
      rw [hset, ht, List.map_append, List.map_append]
      rfl
    rw [hkeys]
    exact h.nodup
  refine ⟨hnodup, fun x w' => ?_⟩
  rw [set_value haccepts]
  by_cases hx : x = k
  · subst hx
    have hnew : (x, v) ∈ t.set i (x, v) := by simp [hset]
    rw [Function.update_self]
    constructor
    · intro hold
      exact congrArg some (Prod.mk.inj (List.inj_on_of_nodup_map hnodup hnew hold rfl)).2
    · intro heq
      exact Option.some.inj heq ▸ hnew
  · rw [Function.update_of_ne hx, ← h.mem_iff, hset, ht]
    simp [hx]

/-- A new key goes to the end of the table. -/
theorem append (h : Represents t m) (hnone : t.findIdx? (fun e => e.1 = k) = none)
    (hroom : t.length < limit) (v : ν) : Represents (t ++ [(k, v)]) (m.set k v) := by
  have hv := h.value_eq_none hnone
  have haccepts : m.Accepts k := .inr (h.length_eq ▸ hroom)
  have hnew : k ∉ t.map Prod.fst := by
    rw [h.mem_keys, m.mem_keys]
    exact not_not_intro hv
  refine ⟨?_, fun x w => ?_⟩
  · rw [List.map_append]
    exact h.nodup.append (List.nodup_singleton k) (by simpa using hnew)
  · rw [set_value haccepts, List.mem_append, List.mem_singleton]
    by_cases hx : x = k
    · subst hx
      have hold : (x, w) ∉ t := fun hmem => hnew (List.mem_map_of_mem hmem)
      rw [Function.update_self]
      simp [hold, eq_comm]
    · rw [Function.update_of_ne hx, h.mem_iff]
      simp [hx]

/-- A new key without room for it changes nothing. -/
theorem full (h : Represents t m) (hnone : t.findIdx? (fun e => e.1 = k) = none)
    (hfull : ¬ t.length < limit) (v : ν) : m.set k v = m := by
  apply set_of_not_accepts
  rintro (hv | hroom)
  · exact hv (h.value_eq_none hnone)
  · exact hfull (h.length_eq ▸ hroom)

end Search

end Represents

end BoundedMap

end SystemsInC.Verified
