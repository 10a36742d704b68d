import SystemsInC.Ports.MvccLocks

/-!
# Who is sacrificed

`detect_deadlock` searches the whole matrix, and the thread that gets the verdict
`-1` clears its edges in a later critical section.  A thread that is blocked in
between gets the same verdict for a cycle that it has no part in.  Without such a
left-over cycle the verdict falls on a member of the cycle.
-/

namespace SystemsInC.Ports.MvccVictim

open SystemsInC.Verified.AcyclicRelation
open SystemsInC.Ports.WaitForGraph
open SystemsInC.Ports.MvccStore
open SystemsInC.Ports.MvccInterleaving
open SystemsInC.Ports.MvccLocks

/-- The transaction lies on a directed cycle of the matrix. -/
def OnCycle (waitFor : TxId → TxId → Bool) (t : TxId) : Prop :=
  Relation.TransGen (Waits waitFor) t t

/-- The edge of a blocked write leaves the other rows alone. -/
theorem waits_of_addEdge {st : Mvcc} {t owner i j : TxId}
    (h : Waits (addEdge st t owner).waitFor i j ∧ i ≠ t) : Waits st.waitFor i j := by
  obtain ⟨hij, hit⟩ := h
  rw [Waits, addEdge_waitFor, if_neg (fun heq => hit heq.1)] at hij
  exact hij

/-- The verdict falls on a member of a cycle, unless another thread that has been
told to abort still lies on one. -/
theorem onCycle_of_deadlock {s : Sys} (hlock : LockInv s) {t owner : TxId}
    (hidle : s.pc t = .idle)
    (hdetect : detectDeadlock (addEdge s.mem t owner).waitFor = true)
    (hclean : ∀ u, u ≠ t → Doomed s u → ¬ OnCycle s.mem.waitFor u) :
    OnCycle (addEdge s.mem t owner).waitFor t := by
  obtain ⟨a, hcycle⟩ := (detectDeadlock_iff _).mp hdetect
  by_contra hout
  -- a cycle that avoids `t` was there before its edge
  have hold : OnCycle s.mem.waitFor a := by
    apply Relation.TransGen.mono (fun i j hij => waits_of_addEdge hij)
    apply cycle_avoids (P := fun i => i = t) _ hcycle
    rintro b rfl
    exact hout
  -- and a cycle of the matrix needs an edge of a thread that has been told to abort
  apply hlock.acyclic a
  apply cycle_avoids _ hold
  intro u hdoomed
  apply hclean u _ hdoomed
  rintro rfl
  obtain ⟨kname, value, hpc⟩ := hdoomed
  rw [hidle] at hpc
  contradiction

/-! ## Schedules -/

/-- Whenever `try_acquire_lock` returns `-1`, its transaction lies on a cycle of the
matrix of that critical section. -/
def VictimsOnCycle (as : List Act) : Prop :=
  ∀ pre t kname value k, pre ++ [.call (.txWrite (some t) kname value)] <+: as →
    Ready (Sys.init.run pre) t → findKeyIndex (Sys.init.run pre).mem kname = some k →
    (tryAcquireLock (Sys.init.run pre).mem t k).1 = -1 →
    OnCycle (tryAcquireLock (Sys.init.run pre).mem t k).2.waitFor t

/-- Whenever `try_acquire_lock` finds the key locked by another transaction, no
other thread between its verdict and its clean-up lies on a cycle of the matrix. -/
def VictimsCleaned (as : List Act) : Prop :=
  ∀ pre t kname value k owner, pre ++ [.call (.txWrite (some t) kname value)] <+: as →
    Ready (Sys.init.run pre) t → findKeyIndex (Sys.init.run pre).mem kname = some k →
    ((Sys.init.run pre).mem.store k).lockedBy = some owner → owner ≠ t →
    ∀ u, u ≠ t → Doomed (Sys.init.run pre) u → ¬ OnCycle (Sys.init.run pre).mem.waitFor u

/-- The verdict `-1` comes from the search of the matrix with the new edge. -/
theorem tryAcquireLock_deadlock {st : Mvcc} {t : TxId} {k : Key}
    (h : (tryAcquireLock st t k).1 = -1) :
    ∃ owner, (st.store k).lockedBy = some owner ∧ owner ≠ t ∧
      detectDeadlock (addEdge st t owner).waitFor = true ∧
      (tryAcquireLock st t k).2 = addEdge st t owner := by
  unfold tryAcquireLock at h ⊢
  cases howner : (st.store k).lockedBy with
  | none => simp [howner] at h
  | some owner =>
      by_cases hself : owner = t
      · simp [howner, hself] at h
      · by_cases hdetect : detectDeadlock (addEdge st t owner).waitFor = true
        · exact ⟨owner, rfl, hself, hdetect, by simp [hself, hdetect]⟩
        · simp [howner, hself, hdetect] at h

/-- **Only a member of a cycle is sacrificed**, as long as the victims before it
have cleaned up. -/
theorem victimsOnCycle_of_cleaned (as : List Act) (h : VictimsCleaned as) :
    VictimsOnCycle as := by
  intro pre t kname value k hpre hready hkey hverdict
  obtain ⟨owner, howner, hne, hdetect, hafter⟩ := tryAcquireLock_deadlock hverdict
  rw [hafter]
  apply onCycle_of_deadlock (lockInv_run pre) hready.idle hdetect
  exact h pre t kname value k owner hpre hready hkey howner hne

instance (s : Sys) (t : TxId) : Decidable (Doomed s t) :=
  match h : s.pc t with
  | .deadlocked kname value => .isTrue ⟨kname, value, h⟩
  | .idle => .isFalse (by simp [Doomed, h])
  | .acquired _ _ _ => .isFalse (by simp [Doomed, h])
  | .committing _ => .isFalse (by simp [Doomed, h])

/-- Two transactions lock a key each, the first waits for the second, and the
second closes the cycle. -/
def twoTransactions : List Act :=
  [.call (.beginTx 0), .call (.beginTx 1), .call (.txWrite (some 0) (keyName 0) [97, 0]),
    .resume 0, .call (.txWrite (some 1) (keyName 1) [98, 0]), .resume 1,
    .call (.txWrite (some 0) (keyName 1) [99, 0]), .call (.txWrite (some 1) (keyName 0) [100, 0])]

theorem victimsOnCycle_of_cleaned_two : VictimsOnCycle twoTransactions := by
  apply victimsOnCycle_of_cleaned
  intro pre t kname value k owner hpre hready hkey howner hne u hu hdoomed
  -- before the last choice nobody has been told to abort
  have hnone : ∀ n < twoTransactions.length,
      ∀ u, ¬ Doomed (Sys.init.run (twoTransactions.take n)) u := by
    decide
  have hlen := hpre.length_le
  rw [List.length_append, List.length_singleton] at hlen
  have htake := List.prefix_iff_eq_take.mp ((List.prefix_append pre _).trans hpre)
  rw [htake] at hdoomed
  exact absurd hdoomed (hnone pre.length hlen u)

/-- The same two, and a fourth transaction that is blocked on a key of the third
before the second has cleaned up. -/
def bystander : List Act :=
  [.call (.beginTx 0), .call (.beginTx 1), .call (.beginTx 2), .call (.beginTx 3),
    .call (.txWrite (some 0) (keyName 0) [97, 0]), .resume 0,
    .call (.txWrite (some 1) (keyName 1) [98, 0]), .resume 1,
    .call (.txWrite (some 2) (keyName 2) [101, 0]), .resume 2,
    .call (.txWrite (some 0) (keyName 1) [99, 0]), .call (.txWrite (some 1) (keyName 0) [100, 0])]

theorem not_victimsOnCycle_bystander : ¬ ∀ as : List Act, VictimsOnCycle as := by
  intro h
  have hcycle := h (bystander ++ [.call (.txWrite (some 3) (keyName 2) [102, 0])]) bystander 3
    (keyName 2) [102, 0] 2 (List.prefix_refl _) ⟨by decide, by decide⟩ (by decide) (by decide)
  -- transaction 3 waits for transaction 2 only, which waits for nobody
  revert hcycle
  apply not_cycle_of_closed (fun j => j = 2)
  · unfold Waits
    decide
  · unfold Waits
    decide
  · decide

end SystemsInC.Ports.MvccVictim
