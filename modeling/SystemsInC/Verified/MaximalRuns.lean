import Mathlib.Algebra.BigOperators.Group.Finset.Piecewise
import Mathlib.Data.Finset.Prod
import Mathlib.Data.Nat.Find

/-!
# Maximal runs of a list

A run of `p` is a stretch of positions whose entries all satisfy `p`; it is
maximal if it cannot be made longer at either end.  `runs` counts the places where
one starts, and `starts_append` says what that count loses where a list is cut.
-/

namespace SystemsInC.Verified.MaximalRuns

variable {α : Type*} {p : α → Bool}

/-- The entry at a position satisfies `p`. -/
def holdsAt (p : α → Bool) (l : List α) (i : Nat) : Bool := (l[i]?).any p

/-- The positions from `i` up to but without `j` are a maximal run. -/
def IsRun (p : α → Bool) (l : List α) (i j : Nat) : Prop :=
  i < j ∧ (∀ k < j, i ≤ k → holdsAt p l k = true) ∧
    (i = 0 ∨ holdsAt p l (i - 1) = false) ∧ holdsAt p l j = false

instance (p : α → Bool) (l : List α) (i j : Nat) : Decidable (IsRun p l i j) := by
  unfold IsRun
  infer_instance

/-- The maximal runs of a list, as pairs of positions. -/
def maximalRuns (p : α → Bool) (l : List α) : Finset (Nat × Nat) :=
  ((Finset.range (l.length + 1)) ×ˢ (Finset.range (l.length + 1))).filter
    (fun run => IsRun p l run.1 run.2)

/-- The number of places where a run starts; `inside` says that one has started before
the list. -/
def starts (p : α → Bool) : Bool → List α → Nat
  | _, [] => 0
  | inside, x :: l => (if p x && !inside then 1 else 0) + starts p (p x) l

/-- The number of runs of a list. -/
def runs (p : α → Bool) (l : List α) : Nat := starts p false l

/-! ## Counting the starts counts the runs -/

@[simp] theorem holdsAt_cons_zero (x : α) (l : List α) : holdsAt p (x :: l) 0 = p x := rfl

@[simp] theorem holdsAt_cons_succ (x : α) (l : List α) (i : Nat) :
    holdsAt p (x :: l) (i + 1) = holdsAt p l i := by
  simp [holdsAt]

theorem holdsAt_of_le {l : List α} {i : Nat} (h : l.length ≤ i) : holdsAt p l i = false := by
  simp [holdsAt, List.getElem?_eq_none h]

theorem lt_of_holdsAt {l : List α} {i : Nat} (h : holdsAt p l i = true) : i < l.length := by
  by_contra hle
  rw [holdsAt_of_le (Nat.not_lt.mp hle)] at h
  contradiction

/-- A run starts at a position. -/
def startsAt (p : α → Bool) (inside : Bool) (l : List α) : Nat → Bool
  | 0 => holdsAt p l 0 && !inside
  | i + 1 => holdsAt p l (i + 1) && !holdsAt p l i

theorem startsAt_cons_succ (inside : Bool) (x : α) (l : List α) (i : Nat) :
    startsAt p inside (x :: l) (i + 1) = startsAt p (p x) l i := by
  cases i with
  | zero => simp [startsAt]
  | succ i => simp [startsAt]

theorem starts_eq_card (p : α → Bool) (inside : Bool) (l : List α) :
    starts p inside l =
      ((Finset.range l.length).filter (fun i => startsAt p inside l i = true)).card := by
  induction l generalizing inside with
  | nil => rfl
  | cons x l ih =>
      rw [starts, ih, Finset.card_filter, Finset.card_filter, List.length_cons,
        Finset.sum_range_succ', Nat.add_comm]
      congr 1
      apply Finset.sum_congr rfl
      intro i _
      rw [startsAt_cons_succ]

theorem startsAt_false_iff (l : List α) (i : Nat) :
    startsAt p false l i = true ↔
      holdsAt p l i = true ∧ (i = 0 ∨ holdsAt p l (i - 1) = false) := by
  cases i with
  | zero => simp [startsAt]
  | succ i => simp [startsAt]

/-- A run that has started ends. -/
theorem exists_end {l : List α} {i : Nat} (h : startsAt p false l i = true) :
    ∃ j, IsRun p l i j := by
  rw [startsAt_false_iff] at h
  have hstop : ∃ j, i ≤ j ∧ holdsAt p l j = false :=
    ⟨max i l.length, Nat.le_max_left _ _, holdsAt_of_le (Nat.le_max_right _ _)⟩
  obtain ⟨hle, hend⟩ := Nat.find_spec hstop
  refine ⟨Nat.find hstop, ?_, ?_, h.2, hend⟩
  · apply Nat.lt_of_le_of_ne hle
    intro heq
    rw [← heq, h.1] at hend
    contradiction
  · intro k hk hik
    have hmin := Nat.find_min hstop hk
    simpa [hik] using hmin

/-- A run has one end. -/
theorem IsRun.end_unique {l : List α} {i j j' : Nat} (h : IsRun p l i j) (h' : IsRun p l i j') :
    j = j' := by
  obtain ⟨hlt, hin, -, hend⟩ := h
  obtain ⟨hlt', hin', -, hend'⟩ := h'
  rcases Nat.lt_trichotomy j j' with hj | hj | hj
  · rw [hin' j hj (Nat.le_of_lt hlt)] at hend
    contradiction
  · exact hj
  · rw [hin j' hj (Nat.le_of_lt hlt')] at hend'
    contradiction

theorem IsRun.startsAt {l : List α} {i j : Nat} (h : IsRun p l i j) :
    startsAt p false l i = true := by
  rw [startsAt_false_iff]
  exact ⟨h.2.1 i h.1 (Nat.le_refl i), h.2.2.1⟩

theorem IsRun.end_le {l : List α} {i j : Nat} (h : IsRun p l i j) : j ≤ l.length := by
  have hlast := lt_of_holdsAt (h.2.1 (j - 1) (by have := h.1; omega) (by have := h.1; omega))
  have hlt := h.1
  omega

/-- **Runs are counted by their starts.** -/
theorem card_maximalRuns (p : α → Bool) (l : List α) : (maximalRuns p l).card = runs p l := by
  rw [runs, starts_eq_card]
  apply Finset.card_bij (fun run _ => run.1)
  · intro run hrun
    rw [maximalRuns, Finset.mem_filter] at hrun
    rw [Finset.mem_filter, Finset.mem_range]
    have hlt := hrun.2.1
    have hle := hrun.2.end_le
    exact ⟨by omega, hrun.2.startsAt⟩
  · intro run hrun run' hrun' heq
    rw [maximalRuns, Finset.mem_filter] at hrun hrun'
    apply Prod.ext heq
    apply hrun.2.end_unique
    rw [heq]
    exact hrun'.2
  · intro i hi
    rw [Finset.mem_filter, Finset.mem_range] at hi
    obtain ⟨j, hrun⟩ := exists_end hi.2
    refine ⟨(i, j), ?_, rfl⟩
    rw [maximalRuns, Finset.mem_filter, Finset.mem_product, Finset.mem_range, Finset.mem_range]
    have hle := hrun.end_le
    exact ⟨⟨by omega, by omega⟩, hrun⟩

/-! ## Cutting a list -/

/-- The last entry satisfies `p`; for an empty list the one before it. -/
def endsInside (p : α → Bool) (inside : Bool) (l : List α) : Bool :=
  (l.getLast?).elim inside p

theorem endsInside_cons (inside : Bool) (x : α) (l : List α) :
    endsInside p inside (x :: l) = endsInside p (p x) l := by
  cases l with
  | nil => rfl
  | cons y l => simp [endsInside, List.getLast?_cons]

theorem starts_append (p : α → Bool) (inside : Bool) (l l' : List α) :
    starts p inside (l ++ l') = starts p inside l + starts p (endsInside p inside l) l' := by
  induction l generalizing inside with
  | nil => simp [starts, endsInside]
  | cons x l ih =>
      rw [List.cons_append, starts, starts, ih, endsInside_cons]
      omega

/-- The cut goes through a run. -/
def splits (p : α → Bool) (l l' : List α) : Bool := endsInside p false l && holdsAt p l' 0

/-- A run that is cut is counted on both sides. -/
theorem runs_append (p : α → Bool) (l l' : List α) :
    runs p (l ++ l') + (if splits p l l' then 1 else 0) = runs p l + runs p l' := by
  rw [runs, starts_append, runs, runs]
  cases l' with
  | nil => simp [starts, splits, holdsAt]
  | cons y l' =>
      cases hinside : endsInside p false l <;> cases hy : p y <;>
        simp [starts, splits, hinside, hy]
      omega

end SystemsInC.Verified.MaximalRuns
