import Mathlib.Data.List.Basic

/-!
# Iterators that are pulled

An iterator answers `next` with an item or with NULL and moves on; a `next` that goes
wrong has no result.  `Yields next R` says that in a state `s` with `R s xs` the items
`xs` are still to come, in this order, and NULL after them for good.

`seek` is the loop of a filter, which pulls until an item passes its test, and `drain`
the loop of a consumer, which pulls until NULL.  A filter over an iterator yields what
its test keeps, `Yields.seek`; calls one after the other get the items one by one,
`Yields.calls`; and a consumer gets what is left, `Yields.drain`.
-/

namespace SystemsInC.Verified.PullIterator

variable {σ α β : Type*}

abbrev Next (σ α : Type*) := σ → Option (Option α × σ)

/-- The items of `xs` are to come in a state with `R s xs`, and then NULL. -/
structure Yields (next : Next σ α) (R : σ → List α → Prop) : Prop where
  item : ∀ s x xs, R s (x :: xs) → ∃ s', next s = some (some x, s') ∧ R s' xs
  null : ∀ s, R s [] → ∃ s', next s = some (none, s') ∧ R s' []

/-- `while ((rec = next()) != NULL) if (keep(rec)) return rec; return rec;` -/
def seek (keep : α → Bool) (next : Next σ α) : Nat → Next σ α
  | 0, _ => none
  | fuel + 1, s => do
      let (rec, s) ← next s
      match rec with
      | none => return (none, s)
      | some r => if keep r then return (some r, s) else seek keep next fuel s

/-- `while ((rec = next()) != NULL) emit(rec);` -/
def drain (emit : α → σ → σ) (next : Next σ α) : Nat → σ → Option σ
  | 0, _ => none
  | fuel + 1, s =>
      match next s with
      | none => none
      | some (none, s) => some s
      | some (some r, s) => drain emit next fuel (emit r s)

/-- The answers to `n` calls of `next`. -/
def calls (next : Next σ α) : Nat → σ → Option (List (Option α) × σ)
  | 0, s => some ([], s)
  | n + 1, s => do
      let (rec, s) ← next s
      let (recs, s) ← calls next n s
      return (rec :: recs, s)

variable {next : Next σ α} {R : σ → List α → Prop} {s : σ} {xs : List α}

/-! ## Filters -/

/-- What a filter has still to yield: what its test keeps of the items below it. -/
def Kept (keep : α → Bool) (R : σ → List α → Prop) (fuel : Nat) (s : σ) (ys : List α) : Prop :=
  ∃ xs, R s xs ∧ xs.length < fuel ∧ ys = xs.filter keep

theorem Yields.seek_eq (h : Yields next R) (keep : α → Bool) {fuel : Nat} (hR : R s xs)
    (hfuel : xs.length < fuel) :
    ∃ s' xs', seek keep next fuel s = some ((xs.filter keep).head?, s') ∧ R s' xs' ∧
      xs'.length ≤ xs.length ∧ xs'.filter keep = (xs.filter keep).tail := by
  induction fuel generalizing s xs with
  | zero => omega
  | succ fuel ih =>
      cases xs with
      | nil =>
          have ⟨s', hnext, hR'⟩ := h.null s hR
          exact ⟨s', [], by rw [seek, hnext]; rfl, hR', Nat.le_refl _, rfl⟩
      | cons x xs =>
          have ⟨s', hnext, hR'⟩ := h.item s x xs hR
          rw [List.length_cons] at hfuel
          by_cases hx : keep x = true
          · refine ⟨s', xs, ?_, hR', by simp, ?_⟩
            · rw [seek, hnext, List.filter_cons_of_pos hx]
              simp only [Option.bind_eq_bind, Option.bind_some, if_pos hx]
              rfl
            · rw [List.filter_cons_of_pos hx, List.tail_cons]
          · have ⟨s'', xs'', hseek, hR'', hlen, htail⟩ := ih hR' (by omega)
            rw [List.filter_cons_of_neg hx]
            refine ⟨s'', xs'', ?_, hR'', by rw [List.length_cons]; omega, htail⟩
            rw [seek, hnext]
            simp only [Option.bind_eq_bind, Option.bind_some, if_neg hx]
            exact hseek

theorem Yields.seek (h : Yields next R) (keep : α → Bool) (fuel : Nat) :
    Yields (seek keep next fuel) (Kept keep R fuel) where
  item s y ys hkept := by
    have ⟨xs, hR, hfuel, heq⟩ := hkept
    have ⟨s', xs', hseek, hR', hlen, htail⟩ := h.seek_eq keep hR hfuel
    rw [← heq] at hseek htail
    exact ⟨s', hseek, xs', hR', by omega, htail.symm⟩
  null s hkept := by
    have ⟨xs, hR, hfuel, heq⟩ := hkept
    have ⟨s', xs', hseek, hR', hlen, htail⟩ := h.seek_eq keep hR hfuel
    rw [← heq] at hseek htail
    exact ⟨s', hseek, xs', hR', by omega, htail.symm⟩

/-! ## Consumers -/

/-- The `i`-th of the calls gets the `i`-th item, and NULL when there is none. -/
theorem Yields.calls (h : Yields next R) (n : Nat) (hR : R s xs) :
    ∃ s', calls next n s = some ((List.range n).map (fun i => xs[i]?), s') ∧
      R s' (xs.drop n) := by
  induction n generalizing s xs with
  | zero => exact ⟨s, rfl, hR⟩
  | succ n ih =>
      cases xs with
      | nil =>
          have ⟨s₁, hnext, hR₁⟩ := h.null s hR
          have ⟨s₂, hcalls, hR₂⟩ := ih hR₁
          refine ⟨s₂, ?_, by simpa using hR₂⟩
          rw [PullIterator.calls, hnext, List.range_succ_eq_map]
          simp only [Option.bind_eq_bind, Option.bind_some, hcalls]
          simp [Function.comp_def]
      | cons x xs =>
          have ⟨s₁, hnext, hR₁⟩ := h.item s x xs hR
          have ⟨s₂, hcalls, hR₂⟩ := ih hR₁
          refine ⟨s₂, ?_, hR₂⟩
          rw [PullIterator.calls, hnext, List.range_succ_eq_map]
          simp only [Option.bind_eq_bind, Option.bind_some, hcalls]
          simp [Function.comp_def]

/-- A consumer gets the items that are left, in their order; `p` is what has been printed. -/
theorem Yields.drain {P : List β → σ → List α → Prop} (h : ∀ p, Yields next (P p))
    (emit : α → σ → σ) (line : α → β)
    (hemit : ∀ p s x xs, P p s xs → P (p ++ [line x]) (emit x s) xs) {p : List β} {fuel : Nat}
    (hP : P p s xs) (hfuel : xs.length < fuel) :
    ∃ s', drain emit next fuel s = some s' ∧ P (p ++ xs.map line) s' [] := by
  induction fuel generalizing s xs p with
  | zero => omega
  | succ fuel ih =>
      cases xs with
      | nil =>
          have ⟨s', hnext, hP'⟩ := (h p).null s hP
          refine ⟨s', ?_, by simpa using hP'⟩
          rw [PullIterator.drain, hnext]
      | cons x xs =>
          have ⟨s', hnext, hP'⟩ := (h p).item s x xs hP
          rw [List.length_cons] at hfuel
          have ⟨s'', hdrain, hP''⟩ := ih (hemit p s' x xs hP') (by omega)
          refine ⟨s'', ?_, ?_⟩
          · rw [PullIterator.drain, hnext]
            exact hdrain
          · rw [List.map_cons, ← List.singleton_append, ← List.append_assoc]
            exact hP''

end SystemsInC.Verified.PullIterator
