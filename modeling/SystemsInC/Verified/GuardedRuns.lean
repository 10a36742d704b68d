import Mathlib.Algebra.BigOperators.Group.Finset.Basic
import Mathlib.Algebra.Order.BigOperators.Group.Finset

/-!
# Runs of a partial step function

A system is a partial function `step : σ → α → Option σ`: an action that is not
enabled gives `none`.  `run` executes a list of actions.  `Reach step ok s₀`
holds of the states that actions admitted by `ok` reach from `s₀`; an invariant
only has to survive admitted steps.  With `ok` true everywhere these are all
reachable states.
-/

namespace SystemsInC.Verified.GuardedRuns

variable {σ α : Type*} {step : σ → α → Option σ} {ok : σ → α → Prop} {s₀ s s' : σ} {as : List α}

/-- Execute a list of actions, the first one first. -/
def run (step : σ → α → Option σ) (s : σ) : List α → Option σ
  | [] => some s
  | a :: as => (step s a).bind (fun s' => run step s' as)

theorem run_append (s : σ) (as bs : List α) :
    run step s (as ++ bs) = (run step s as).bind (fun s' => run step s' bs) := by
  induction as generalizing s with
  | nil => rfl
  | cons a as ih =>
      rw [List.cons_append, run, run, Option.bind_assoc]
      exact congrArg _ (funext ih)

/-- The states that steps admitted by `ok` reach. -/
inductive Reach (step : σ → α → Option σ) (ok : σ → α → Prop) (s₀ : σ) : σ → Prop
  | refl : Reach step ok s₀ s₀
  | step {s s' : σ} (a : α) :
      Reach step ok s₀ s → ok s a → step s a = some s' → Reach step ok s₀ s'

/-- An invariant of the admitted steps holds in every state that they reach. -/
theorem Reach.keeps {P : σ → Prop} (hinit : P s₀)
    (hstep : ∀ s a s', P s → ok s a → step s a = some s' → P s') (h : Reach step ok s₀ s) :
    P s := by
  induction h with
  | refl => exact hinit
  | step a _ hok hs ih => exact hstep _ a _ ih hok hs

/-- A run without a condition on its steps reaches its last state. -/
theorem Reach.extend (h : Reach step (fun _ _ => True) s₀ s) (hrun : run step s as = some s') :
    Reach step (fun _ _ => True) s₀ s' := by
  induction as generalizing s with
  | nil =>
      cases hrun
      exact h
  | cons a as ih =>
      obtain ⟨s₁, hs, hrest⟩ := Option.bind_eq_some_iff.mp hrun
      exact ih (.step a h trivial hs) hrest

theorem Reach.of_run (hrun : run step s as = some s') :
    Reach step (fun _ _ => True) s s' :=
  Reach.refl.extend hrun

/-! ## Runs that meet a condition -/

/-- Each action of the run is admitted in the state in which it is taken. -/
def Admitted (step : σ → α → Option σ) (ok : σ → α → Prop) (s : σ) : List α → Prop
  | [] => True
  | a :: as => ok s a ∧ ∀ s', step s a = some s' → Admitted step ok s' as

theorem Admitted.cons {a : α} (hs : step s a = some s') (hok : ok s a)
    (hrest : Admitted step ok s' as) : Admitted step ok s (a :: as) := by
  refine ⟨hok, fun s₁ hs₁ => ?_⟩
  have heq : s' = s₁ := Option.some.inj (hs.symm.trans hs₁)
  exact heq ▸ hrest

/-- The start of an admitted run is admitted. -/
theorem Admitted.of_initial {bs : List α} (h : Admitted step ok s as) (hpre : bs <+: as) :
    Admitted step ok s bs := by
  induction as generalizing s bs with
  | nil =>
      rw [List.prefix_nil.mp hpre]
      trivial
  | cons a as ih =>
      cases bs with
      | nil => trivial
      | cons b bs =>
          have ⟨heq, hrest⟩ := List.cons_prefix_cons.mp hpre
          subst heq
          exact ⟨h.1, fun s' hs => ih (h.2 s' hs) hrest⟩

theorem Reach.extend_admitted (h : Reach step ok s₀ s) (hok : Admitted step ok s as)
    (hrun : run step s as = some s') : Reach step ok s₀ s' := by
  induction as generalizing s with
  | nil =>
      cases hrun
      exact h
  | cons a as ih =>
      obtain ⟨s₁, hs, hrest⟩ := Option.bind_eq_some_iff.mp hrun
      exact ih (.step a h hok.1 hs) (hok.2 s₁ hs) hrest

/-- A run whose actions are all admitted reaches its last state by admitted
steps. -/
theorem Reach.of_admitted (hok : Admitted step ok s as) (hrun : run step s as = some s') :
    Reach step ok s s' :=
  Reach.refl.extend_admitted hok hrun

/-- The system that refuses an action that is not admitted. -/
def guarded (step : σ → α → Option σ) (ok : σ → α → Prop) [∀ s a, Decidable (ok s a)]
    (s : σ) (a : α) : Option σ :=
  if ok s a then step s a else none

/-- Its runs are runs of the system itself. -/
theorem run_of_guarded [∀ s a, Decidable (ok s a)]
    (hrun : run (guarded step ok) s as = some s') : run step s as = some s' := by
  induction as generalizing s with
  | nil => exact hrun
  | cons a as ih =>
      have ⟨s₁, hs, hrest⟩ := Option.bind_eq_some_iff.mp hrun
      rw [guarded, Option.ite_none_right_eq_some] at hs
      rw [run, hs.2]
      exact ih hrest

/-- And they are admitted. -/
theorem Admitted.of_guarded [∀ s a, Decidable (ok s a)]
    (hrun : run (guarded step ok) s as = some s') : Admitted step ok s as := by
  induction as generalizing s with
  | nil => trivial
  | cons a as ih =>
      have ⟨s₁, hs, hrest⟩ := Option.bind_eq_some_iff.mp hrun
      rw [guarded, Option.ite_none_right_eq_some] at hs
      exact .cons hs.2 hs.1 (ih hrest)

theorem Reach.of_guarded [∀ s a, Decidable (ok s a)] (h : Reach step ok s₀ s)
    (hrun : run (guarded step ok) s as = some s') : Reach step ok s₀ s' :=
  h.extend_admitted (.of_guarded hrun) (run_of_guarded hrun)

/-- A run that is not admitted has a first action that is not. -/
theorem Reach.exists_not_admitted (h : Reach step ok s₀ s) (hnot : ¬ Admitted step ok s as)
    (hrun : run step s as = some s') :
    ∃ s₁ a s₂ bs, Reach step ok s₀ s₁ ∧ ¬ ok s₁ a ∧ step s₁ a = some s₂ ∧
      run step s₂ bs = some s' := by
  induction as generalizing s with
  | nil => exact absurd trivial hnot
  | cons a as ih =>
      obtain ⟨s₁, hs, hrest⟩ := Option.bind_eq_some_iff.mp hrun
      by_cases ha : ok s a
      · have hnext : ¬ Admitted step ok s₁ as := by
          intro hok
          refine hnot ⟨ha, fun s₂ hs₂ => ?_⟩
          have heq : s₁ = s₂ := Option.some.inj (hs.symm.trans hs₂)
          exact heq ▸ hok
        exact ih (.step a h ha hs) hnext hrest
      · exact ⟨s, a, s₁, as, h, ha, hs, hrest⟩

/-- Admitted steps keep `P`, the first one that is not admitted makes it `Q`, and
nothing mends that: so the last state of a run tells whether the run was admitted. -/
theorem good_or_bad {P Q : σ → Prop}
    (hkeep : ∀ s a s', P s → ok s a → step s a = some s' → P s')
    (hbreak : ∀ s a s', P s → ¬ ok s a → step s a = some s' → Q s')
    (hstay : ∀ s a s', Q s → step s a = some s' → Q s')
    (hinit : P s) (hrun : run step s as = some s') :
    P s' ∧ Admitted step ok s as ∨ Q s' ∧ ¬ Admitted step ok s as := by
  by_cases hok : Admitted step ok s as
  · exact .inl ⟨(Reach.of_admitted hok hrun).keeps hinit hkeep, hok⟩
  · have ⟨s₁, a, s₂, bs, hreach, ha, hs, hrest⟩ := Reach.refl.exists_not_admitted hok hrun
    have hbad := hbreak s₁ a s₂ (hreach.keeps hinit hkeep) ha hs
    exact .inr ⟨(Reach.of_run hrest).keeps hbad (fun s a s' h _ => hstay s a s' h), hok⟩

/-- Where every step that is not admitted shows in the next state, `P` holds all along a run
if and only if the run is admitted. -/
theorem forall_run_iff_admitted {P Q : σ → Prop} (hpq : ∀ s, Q s → P s) (hinit : Q s)
    (hkeep : ∀ s a s', Q s → ok s a → step s a = some s' → Q s')
    (hbreak : ∀ s a s', Q s → ¬ ok s a → step s a = some s' → ¬ P s')
    (hrun : run step s as = some s') :
    (∀ pre s₁, pre <+: as → run step s pre = some s₁ → P s₁) ↔ Admitted step ok s as := by
  constructor
  · intro hall
    induction as generalizing s with
    | nil => trivial
    | cons a as ih =>
        have ⟨s₁, hs, hrest⟩ := Option.bind_eq_some_iff.mp hrun
        have hok : ok s a := by
          by_contra hnot
          have hsingle : run step s [a] = some s₁ := by rw [run, hs]; rfl
          have hpre : [a] <+: a :: as := List.cons_prefix_cons.mpr ⟨rfl, List.nil_prefix⟩
          exact hbreak s a s₁ hinit hnot hs (hall [a] s₁ hpre hsingle)
        refine .cons hs hok (ih (hkeep s a s₁ hinit hok hs) hrest ?_)
        intro pre s₂ hpre hrun₂
        refine hall (a :: pre) s₂ (List.cons_prefix_cons.mpr ⟨rfl, hpre⟩) ?_
        rw [run, hs]
        exact hrun₂
  · intro hok pre s₁ hpre hrun₁
    have hadmitted : Admitted step ok s pre := hok.of_initial hpre
    exact hpq s₁ ((Reach.of_admitted hadmitted hrun₁).keeps hinit hkeep)

/-- Where an invariant holds and each step takes something off a measure, the measure bounds the
length of a run. -/
theorem length_add_le_of_keeps {P : σ → Prop} {μ : σ → Nat}
    (hkeep : ∀ s a s', P s → step s a = some s' → P s')
    (hdec : ∀ s a s', P s → step s a = some s' → μ s' < μ s)
    (hinit : P s) (hrun : run step s as = some s') : as.length + μ s' ≤ μ s := by
  induction as generalizing s with
  | nil =>
      cases hrun
      simp
  | cons a as ih =>
      obtain ⟨s₁, hs, hrest⟩ := Option.bind_eq_some_iff.mp hrun
      have hstep := hdec s a s₁ hinit hs
      have htail := ih (hkeep s a s₁ hinit hs) hrest
      rw [List.length_cons]
      omega

/-- Each step takes something off a measure, so the measure bounds the length of
a run. -/
theorem length_add_le {μ : σ → Nat} (hdec : ∀ s a s', step s a = some s' → μ s' < μ s)
    (hrun : run step s as = some s') : as.length + μ s' ≤ μ s :=
  length_add_le_of_keeps (P := fun _ => True) (fun _ _ _ _ _ => trivial)
    (fun s a s' _ => hdec s a s') trivial hrun

/-- So every run goes on to a state in which no action is enabled. -/
theorem Reach.exists_final {μ : σ → Nat} (hdec : ∀ s a s', step s a = some s' → μ s' < μ s)
    (h : Reach step (fun _ _ => True) s₀ s) :
    ∃ s', Reach step (fun _ _ => True) s₀ s' ∧ ∀ a, step s' a = none := by
  induction hn : μ s using Nat.strong_induction_on generalizing s with
  | _ n ih =>
      by_cases hfinal : ∀ a, step s a = none
      · exact ⟨s, h, hfinal⟩
      · have ⟨a, ha⟩ := not_forall.mp hfinal
        have ⟨s', hs⟩ := Option.ne_none_iff_exists'.mp ha
        have hlt := hdec s a s' hs
        exact ih (μ s') (hn ▸ hlt) (.step a h trivial hs) rfl

/-- A loop has one round less to go. -/
theorem rounds_succ {n i c : Nat} (h : i < n) : (n - (i + 1)) * c + c = (n - i) * c := by
  have heq : n - i = n - (i + 1) + 1 := by omega
  rw [heq, Nat.succ_mul]

/-! ## Simulation -/

section Simulation

variable {τ : Type*} {abstract : τ → α → Option τ} {R : σ → τ → Prop} {t : τ}

/-- Where related states have related successors under every admitted action, every admitted
run is defined and is a run of the abstract system. -/
theorem run_simulates
    (hsim : ∀ s t a, R s t → ok s a → ∃ s' t', step s a = some s' ∧ abstract t a = some t' ∧
      R s' t')
    (hR : R s t) (hok : Admitted step ok s as) :
    ∃ s' t', run step s as = some s' ∧ run abstract t as = some t' ∧ R s' t' := by
  induction as generalizing s t with
  | nil => exact ⟨s, t, rfl, rfl, hR⟩
  | cons a as ih =>
      have ⟨s₁, t₁, hs, ht, hR₁⟩ := hsim s t a hR hok.1
      have ⟨s', t', hrun, habstract, hR'⟩ := ih hR₁ (hok.2 s₁ hs)
      refine ⟨s', t', ?_, ?_, hR'⟩
      · rw [run, hs]
        exact hrun
      · rw [run, ht]
        exact habstract

end Simulation

/-! ## High-water marks -/

section HighWater

variable {level : σ → Nat} {mark : σ → α → Nat} {falls : α → Bool}

/-- Where a step raises a level to a mark at most, the level does not exceed the marks that the
run has met. -/
theorem level_le_mark
    (hstep : ∀ s a s', step s a = some s' → level s' ≤ max (level s) (mark s a))
    (hrun : run step s as = some s') :
    level s' ≤ level s ∨
      ∃ bs a t, bs ++ [a] <+: as ∧ run step s bs = some t ∧ level s' ≤ mark t a := by
  induction as generalizing s with
  | nil =>
      cases hrun
      exact .inl (Nat.le_refl _)
  | cons a as ih =>
      have ⟨s₁, hs, hrest⟩ := Option.bind_eq_some_iff.mp hrun
      rcases ih hrest with hle | ⟨bs, b, t, hpre, ht, hle⟩
      · rcases le_max_iff.mp (hle.trans (hstep s a s₁ hs)) with hlevel | hmark
        · exact .inl hlevel
        · exact .inr ⟨[], a, s, List.cons_prefix_cons.mpr ⟨rfl, List.nil_prefix⟩, rfl, hmark⟩
      · refine .inr ⟨a :: bs, b, t, List.cons_prefix_cons.mpr ⟨rfl, hpre⟩, ?_, hle⟩
        rw [run, hs]
        exact ht

/-- Where it falls by one at most, and at some actions only, the level stays up to their number
below the marks. -/
theorem mark_le_level
    (hstep : ∀ s a s', step s a = some s' →
      max (level s) (mark s a) ≤ level s' + if falls a then 1 else 0)
    (hrun : run step s as = some s') :
    level s ≤ level s' + as.countP falls ∧
      ∀ bs a t, bs ++ [a] <+: as → run step s bs = some t →
        mark t a ≤ level s' + as.countP falls := by
  induction as generalizing s with
  | nil =>
      cases hrun
      exact ⟨Nat.le_refl _, fun bs a t hpre => by simp at hpre⟩
  | cons a as ih =>
      have ⟨s₁, hs, hrest⟩ := Option.bind_eq_some_iff.mp hrun
      have ⟨hlevel, hmarks⟩ := ih hrest
      have ⟨hle, hmark⟩ := max_le_iff.mp (hstep s a s₁ hs)
      rw [List.countP_cons]
      refine ⟨by omega, fun bs b t hpre ht => ?_⟩
      cases bs with
      | nil =>
          have heq := (List.cons_prefix_cons.mp hpre).1
          cases ht
          rw [heq]
          omega
      | cons b' bs =>
          have ⟨heq, hpre'⟩ := List.cons_prefix_cons.mp hpre
          rw [heq, run, hs, Option.bind_some] at ht
          have hlater := hmarks bs b t hpre' ht
          omega

end HighWater

/-! ## Sums over the parties -/

section Sums

variable {ι : Type*} [Fintype ι] {f g : ι → Nat} {i : ι}

/-- One party moves by one, the others stay. -/
theorem sum_succ (hi : g i = f i + 1) (hne : ∀ j, j ≠ i → g j = f j) :
    ∑ j, g j = ∑ j, f j + 1 := by
  classical
  have hrest : ∑ j ∈ Finset.univ.erase i, g j = ∑ j ∈ Finset.univ.erase i, f j :=
    Finset.sum_congr rfl (fun j hj => hne j (Finset.ne_of_mem_erase hj))
  rw [← Finset.add_sum_erase _ g (Finset.mem_univ i),
    ← Finset.add_sum_erase _ f (Finset.mem_univ i), hrest, hi]
  omega

/-- One party moves by any amount, the others stay. -/
theorem sum_update_add {β : Type*} [DecidableEq ι] (w : β → Nat) (h : ι → β) (i : ι) (b : β) :
    ∑ j, w (Function.update h i b j) + w (h i) = ∑ j, w (h j) + w b := by
  have hrest : ∑ j ∈ Finset.univ.erase i, w (Function.update h i b j) =
      ∑ j ∈ Finset.univ.erase i, w (h j) :=
    Finset.sum_congr rfl
      (fun j hj => by rw [Function.update_of_ne (Finset.ne_of_mem_erase hj)])
  rw [← Finset.add_sum_erase _ _ (Finset.mem_univ i),
    ← Finset.add_sum_erase _ (fun j => w (h j)) (Finset.mem_univ i), hrest,
    Function.update_self]
  omega

/-- Where the sums agree below pointwise bounds, no party is short of its bound. -/
theorem eq_of_sum_eq (hle : ∀ j, f j ≤ g j) (hsum : ∑ j, f j = ∑ j, g j) (i : ι) : f i = g i :=
  (Finset.sum_eq_sum_iff_of_le (fun j _ => hle j)).mp hsum i (Finset.mem_univ i)

end Sums

end SystemsInC.Verified.GuardedRuns
