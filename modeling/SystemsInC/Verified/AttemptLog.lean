import Mathlib.Data.List.Basic

/-!
# Attempts to fill slots

A log lists attempts at numbered slots, the first one first, each successful or not.
`FilledTo log k` holds of a log in which the slots below `k` and no others are filled,
and no slot is attempted behind its success; `Spoiled log k` says that a slot below `k`
is empty or that one is attempted again.

A loop that stands at slot `k` and only attempts that slot keeps `FilledTo` as long as it
moves on exactly behind a success.  Once it does anything else its log is spoiled, and
stays so.
-/

namespace SystemsInC.Verified.AttemptLog

structure Attempt where
  slot : Nat
  success : Bool
  deriving DecidableEq

def Filled (log : List Attempt) (slot : Nat) : Prop := ⟨slot, true⟩ ∈ log

/-- No slot is attempted behind its success. -/
def Once (log : List Attempt) : Prop :=
  log.Pairwise (fun a b => a.success = true → b.slot ≠ a.slot)

structure FilledTo (log : List Attempt) (k : Nat) : Prop where
  filled_iff : ∀ slot, Filled log slot ↔ slot < k
  once : Once log

def Spoiled (log : List Attempt) (k : Nat) : Prop := (∃ slot < k, ¬ Filled log slot) ∨ ¬ Once log

variable {log : List Attempt} {k k' slot : Nat} {success : Bool}

theorem filled_concat_iff :
    Filled (log ++ [⟨k, success⟩]) slot ↔ Filled log slot ∨ slot = k ∧ success = true := by
  rw [Filled, List.mem_append, List.mem_singleton, Attempt.mk.injEq, Filled, eq_comm (a := true)]

theorem once_concat_iff : Once (log ++ [⟨k, success⟩]) ↔ Once log ∧ ¬ Filled log k := by
  rw [Once, List.pairwise_append]
  constructor
  · intro ⟨honce, _, hlast⟩
    exact ⟨honce, fun hfilled => hlast _ hfilled _ List.mem_cons_self rfl rfl⟩
  · intro ⟨honce, hempty⟩
    refine ⟨honce, List.pairwise_singleton _ _, fun a ha b hb hsuccess heq => hempty ?_⟩
    have hslot : k = a.slot := by
      rw [List.mem_singleton.mp hb] at heq
      exact heq
    have hsame : (⟨k, true⟩ : Attempt) = a := by
      rw [hslot, ← hsuccess]
    rw [Filled, hsame]
    exact ha

/-! ## Attempts at the next slot -/

theorem filledTo_nil : FilledTo [] 0 where
  filled_iff _ := ⟨fun h => absurd h List.not_mem_nil, fun h => absurd h (Nat.not_lt_zero _)⟩
  once := .nil

theorem FilledTo.empty (h : FilledTo log k) : ¬ Filled log k := fun hfilled =>
  Nat.lt_irrefl k ((h.filled_iff k).mp hfilled)

theorem FilledTo.fail (h : FilledTo log k) : FilledTo (log ++ [⟨k, false⟩]) k where
  filled_iff slot := by
    rw [filled_concat_iff, h.filled_iff]
    simp
  once := once_concat_iff.mpr ⟨h.once, h.empty⟩

theorem FilledTo.succeed (h : FilledTo log k) : FilledTo (log ++ [⟨k, true⟩]) (k + 1) where
  filled_iff slot := by
    rw [filled_concat_iff, h.filled_iff]
    simp only [and_true]
    omega
  once := once_concat_iff.mpr ⟨h.once, h.empty⟩

/-- Moving on behind a failure leaves a slot empty. -/
theorem FilledTo.skip (h : FilledTo log k) : Spoiled (log ++ [⟨k, false⟩]) (k + 1) := by
  refine .inl ⟨k, Nat.lt_succ_self k, ?_⟩
  rw [filled_concat_iff]
  simpa using h.empty

/-! ## Spoiled logs -/

/-- An attempt at a slot that is filled spoils the log. -/
theorem Filled.spoiled (h : Filled log k) (success : Bool) (k' : Nat) :
    Spoiled (log ++ [⟨k, success⟩]) k' := .inr (fun honce => (once_concat_iff.mp honce).2 h)

/-- No further attempt mends a log. -/
theorem Spoiled.concat (h : Spoiled log k) (hk : k ≤ k') (success : Bool) :
    Spoiled (log ++ [⟨k, success⟩]) k' := by
  rcases h with ⟨slot, hslot, hempty⟩ | htwice
  · refine .inl ⟨slot, by omega, ?_⟩
    rw [filled_concat_iff]
    rintro (hfilled | ⟨heq, _⟩)
    · exact hempty hfilled
    · omega
  · exact .inr (fun honce => htwice (once_concat_iff.mp honce).1)

end SystemsInC.Verified.AttemptLog
