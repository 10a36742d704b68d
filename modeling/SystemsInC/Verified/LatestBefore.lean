import Mathlib.Data.List.Basic

/-!
# The latest entry not above a bound

A list whose stamps strictly decrease answers "which entry has the largest stamp
not above `x`" with its first entry that qualifies.
-/

namespace SystemsInC.Verified.LatestBefore

variable {α β : Type*}

/-- The answer to the question, for any list: `none` when no entry qualifies. -/
def IsLatest (stamp : α → Nat) (x : Nat) (l : List α) : Option α → Prop
  | some a => a ∈ l ∧ stamp a ≤ x ∧ ∀ b ∈ l, stamp b ≤ x → stamp b ≤ stamp a
  | none => ∀ b ∈ l, ¬ stamp b ≤ x

/-- The first entry whose stamp is not above `x`. -/
def latest (stamp : α → Nat) (x : Nat) (l : List α) : Option α :=
  l.find? (fun a => decide (stamp a ≤ x))

/-- Stamps strictly decrease along the list. -/
def Decreasing (stamp : α → Nat) (l : List α) : Prop :=
  l.Pairwise (fun newer older => stamp older < stamp newer)

theorem isLatest_latest {stamp : α → Nat} {l : List α} (h : Decreasing stamp l) (x : Nat) :
    IsLatest stamp x l (latest stamp x l) := by
  induction l with
  | nil => simp [latest, IsLatest]
  | cons a l ih =>
      obtain ⟨hnewest, hrest⟩ := List.pairwise_cons.mp h
      by_cases ha : stamp a ≤ x
      · have hfirst : latest stamp x (a :: l) = some a := by
          simp [latest, ha]
        rw [hfirst]
        refine ⟨by simp, ha, fun b hb hbx => ?_⟩
        rcases List.mem_cons.mp hb with rfl | hb
        · exact Nat.le_refl _
        · exact Nat.le_of_lt (hnewest b hb)
      · have hskip : latest stamp x (a :: l) = latest stamp x l := by
          simp [latest, ha]
        rw [hskip]
        have htail := ih hrest
        cases hl : latest stamp x l with
        | none =>
            rw [hl] at htail
            intro b hb
            rcases List.mem_cons.mp hb with rfl | hb
            · exact ha
            · exact htail b hb
        | some c =>
            rw [hl] at htail
            obtain ⟨hc, hcx, hmax⟩ := htail
            refine ⟨by simp [hc], hcx, fun b hb hbx => ?_⟩
            rcases List.mem_cons.mp hb with rfl | hb
            · exact absurd hbx ha
            · exact hmax b hb hbx

theorem latest_map (stamp : β → Nat) (f : α → β) (x : Nat) (l : List α) :
    latest stamp x (l.map f) = (latest (fun a => stamp (f a)) x l).map f := by
  rw [latest, List.find?_map]
  rfl

theorem latest_append (stamp : α → Nat) (x : Nat) (l m : List α) :
    latest stamp x (l ++ m) = (latest stamp x l).or (latest stamp x m) := by
  rw [latest, List.find?_append]
  rfl

/-- A list that only grows by entries above `x` keeps its answer for `x`. -/
theorem latest_cons_of_lt {stamp : α → Nat} {x : Nat} {a : α} (l : List α)
    (h : x < stamp a) : latest stamp x (a :: l) = latest stamp x l := by
  have hskip : ¬ stamp a ≤ x := by omega
  simp [latest, hskip]

end SystemsInC.Verified.LatestBefore
