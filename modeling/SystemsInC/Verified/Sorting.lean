import Mathlib.Data.List.Perm.Basic
import Mathlib.Data.List.Sort

/-!
# Comparators and sorted lists

A comparator answers two records with a number whose sign is their order; one that
overflows has no answer.  `Sorts qsort` is what a library promises of its `qsort`: an
ordered permutation for every comparator that is `Consistent` on the records.

In a sorted list the records that meet a lower bound stand behind those that do not,
`Rising`; the place where they begin then tells which records a filter keeps,
`filter_eq_drop`.
-/

namespace SystemsInC.Verified.Sorting

variable {α : Type*}

/-! ## Comparators -/

/-- `a` may stand before `b`. -/
def Before (cmp : α → α → Option Int) (a b : α) : Prop := ∃ c, cmp a b = some c ∧ c ≤ 0

instance (cmp : α → α → Option Int) (a b : α) : Decidable (Before cmp a b) :=
  match h : cmp a b with
  | none => .isFalse (fun ⟨_, hc, _⟩ => by simp [h] at hc)
  | some c =>
      if hle : c ≤ 0 then .isTrue ⟨c, h, hle⟩
      else .isFalse (fun ⟨_, hc, hc'⟩ => by
        rw [h] at hc
        cases hc
        exact hle hc')

/-- The comparator orders the records: it answers any two of them, with opposite signs when
they change places, and its order is transitive. -/
structure Consistent (cmp : α → α → Option Int) (xs : List α) : Prop where
  opposite : ∀ a ∈ xs, ∀ b ∈ xs,
    ∃ c c', cmp a b = some c ∧ cmp b a = some c' ∧ (c ≤ 0 ↔ 0 ≤ c')
  trans : ∀ a ∈ xs, ∀ b ∈ xs, ∀ c ∈ xs, Before cmp a b → Before cmp b c → Before cmp a c

/-- What `qsort` promises. -/
def Sorts (qsort : (α → α → Option Int) → List α → Option (List α)) : Prop :=
  ∀ cmp xs, Consistent cmp xs →
    ∃ ys, qsort cmp xs = some ys ∧ ys.Perm xs ∧ ys.Pairwise (Before cmp)

theorem Consistent.total {cmp : α → α → Option Int} {xs : List α} (h : Consistent cmp xs)
    {a b : α} (ha : a ∈ xs) (hb : b ∈ xs) : Before cmp a b ∨ Before cmp b a := by
  have ⟨c, c', hc, hc', hsign⟩ := h.opposite a ha b hb
  by_cases hle : c ≤ 0
  · exact .inl ⟨c, hc, hle⟩
  · have hneg : ¬ 0 ≤ c' := fun hpos => hle (hsign.mpr hpos)
    exact .inr ⟨c', hc', by omega⟩

/-- A `qsort` that merges. -/
def mergingQsort (cmp : α → α → Option Int) (xs : List α) : Option (List α) :=
  some ((xs.attach.mergeSort (fun a b => decide (Before cmp a.1 b.1))).map Subtype.val)

theorem sorts_mergingQsort : Sorts (mergingQsort (α := α)) := by
  intro cmp xs h
  have htrans : ∀ a b c : { x // x ∈ xs }, decide (Before cmp a.1 b.1) = true →
      decide (Before cmp b.1 c.1) = true → decide (Before cmp a.1 c.1) = true := by
    intro a b c hab hbc
    rw [decide_eq_true_eq] at hab hbc ⊢
    exact h.trans a.1 a.2 b.1 b.2 c.1 c.2 hab hbc
  have htotal : ∀ a b : { x // x ∈ xs },
      (decide (Before cmp a.1 b.1) || decide (Before cmp b.1 a.1)) = true := by
    intro a b
    rw [Bool.or_eq_true, decide_eq_true_eq, decide_eq_true_eq]
    exact h.total a.2 b.2
  refine ⟨_, rfl, ?_, ?_⟩
  · have hperm := (List.mergeSort_perm xs.attach
      (fun a b => decide (Before cmp a.1 b.1))).map Subtype.val
    rwa [List.attach_map_subtype_val] at hperm
  · have hsorted := List.pairwise_mergeSort htrans htotal xs.attach
    rw [List.pairwise_map]
    exact hsorted.imp (fun hab => of_decide_eq_true hab)

/-! ## The place where a condition begins to hold -/

section Threshold

variable {p : α → Prop} {xs : List α} {k : Nat}

/-- What holds of a record holds of those behind it. -/
def Rising (p : α → Prop) (xs : List α) : Prop := xs.Pairwise (fun a b => p a → p b)

theorem Rising.of_le (h : Rising p xs) {i j : Nat} {a b : α} (hij : i ≤ j)
    (ha : xs[i]? = some a) (hb : xs[j]? = some b) (hpa : p a) : p b := by
  rcases Nat.lt_or_eq_of_le hij with hlt | rfl
  · have ⟨hi, hai⟩ := List.getElem?_eq_some_iff.mp ha
    have ⟨hj, hbj⟩ := List.getElem?_eq_some_iff.mp hb
    have hpair := List.pairwise_iff_getElem.mp h i j hi hj hlt
    rw [hai, hbj] at hpair
    exact hpair hpa
  · rw [ha] at hb
    exact Option.some.inj hb ▸ hpa

/-- `p` begins to hold at `k`. -/
structure BeginsAt (p : α → Prop) (xs : List α) (k : Nat) : Prop where
  le : k ≤ xs.length
  before : ∀ i a, i < k → xs[i]? = some a → ¬ p a
  behind : ∀ i a, k ≤ i → xs[i]? = some a → p a

theorem BeginsAt.filter_eq_drop [DecidablePred p] (h : BeginsAt p xs k) :
    xs.filter (fun a => decide (p a)) = xs.drop k := by
  have htake : (xs.take k).filter (fun a => decide (p a)) = [] := by
    rw [List.filter_eq_nil_iff]
    intro a ha
    have ⟨i, hi, hget⟩ := List.mem_iff_getElem.mp ha
    have hik : i < k := by
      rw [List.length_take] at hi
      omega
    rw [decide_eq_true_eq]
    refine h.before i a hik ?_
    rw [← hget, List.getElem_take, List.getElem?_eq_getElem]
  have hdrop : (xs.drop k).filter (fun a => decide (p a)) = xs.drop k := by
    rw [List.filter_eq_self]
    intro a ha
    have ⟨i, hi, hget⟩ := List.mem_iff_getElem.mp ha
    rw [decide_eq_true_eq]
    refine h.behind (k + i) a (by omega) ?_
    rw [← hget, ← List.getElem?_drop, List.getElem?_eq_getElem]
  have hsplit := List.filter_append (p := fun a => decide (p a)) (xs.take k) (xs.drop k)
  rw [List.take_append_drop, htake, hdrop, List.nil_append] at hsplit
  exact hsplit

end Threshold

end SystemsInC.Verified.Sorting
