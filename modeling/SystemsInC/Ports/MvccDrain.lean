import Mathlib.Data.Fintype.EquivFin
import SystemsInC.Ports.MvccLocks

/-!
# The store can always be drained

Whatever the threads have done so far, let each of them end the call it is in.  Then
the transactions that are still ACTIVE can all commit, one after another, and each of
them at a moment when it waits for nobody: the wait-for matrix has no cycle, and a
commit takes the edges to its transaction out of it.
-/

namespace SystemsInC.Ports.MvccDrain

open SystemsInC.Verified.AcyclicRelation
open SystemsInC.Ports.WaitForGraph
open SystemsInC.Ports.MvccStore
open SystemsInC.Ports.MvccInterleaving
open SystemsInC.Ports.MvccLocks

/-- Each thread goes on to the end of its call. -/
def settle : List Act := (List.finRange maxTransactions).map .resume

/-- No transaction is ACTIVE, no key is locked, and nobody waits. -/
structure Quiet (st : Mvcc) : Prop where
  ended : ∀ t, (st.txs t).state ≠ .active
  unlocked : ∀ k, (st.store k).lockedBy = none
  unwaited : ∀ i j, st.waitFor i j = false

/-- The transactions commit in this order; each is ACTIVE and waits for nobody when its
turn comes, its `tx_commit` returns 0, and in the end the store is quiet. -/
def Drains : Mvcc → List TxId → Prop
  | st, [] => Quiet st
  | st, t :: rest =>
      (st.txs t).state = .active ∧ (∀ j, st.waitFor t j = false) ∧
        (txCommit st (some t)).1 = 0 ∧ Drains (txCommit st (some t)).2.2 rest

/-! ## The end of the calls -/

theorem resume_pc (s : Sys) (t u : TxId) :
    (s.resume t).pc u = if u = t then .idle else s.pc u := by
  unfold Sys.resume
  split
  case h_1 hpc =>
      split
      · rename_i heq
        rw [heq, hpc]
      · rfl
  all_goals exact Function.update_apply s.pc t .idle u

theorem pc_run_resume (ts : List TxId) (s : Sys) (u : TxId) :
    (s.run (ts.map .resume)).pc u = if u ∈ ts then .idle else s.pc u := by
  induction ts generalizing s with
  | nil => rfl
  | cons t ts ih =>
      rw [List.map_cons, Sys.run, ih, Sys.step, resume_pc]
      by_cases hrest : u ∈ ts
      · rw [if_pos hrest, if_pos (List.mem_cons_of_mem t hrest)]
      · rw [if_neg hrest]
        by_cases hut : u = t
        · rw [if_pos hut, if_pos (hut ▸ List.mem_cons_self)]
        · rw [if_neg hut, if_neg (by simp [hut, hrest])]

/-- Every thread is between two calls then. -/
theorem settle_atRest (s : Sys) :
    s.run settle = Sys.atRest (s.run settle).mem (s.run settle).hist := by
  have hpc : (s.run settle).pc = fun _ => .idle := by
    funext u
    rw [settle, pc_run_resume, if_pos (List.mem_finRange u)]
  rw [Sys.atRest, ← hpc]

/-! ## One commit -/

theorem lockInv_from {s : Sys} (hs : LockInv s) (as : List Act) : LockInv (s.run as) :=
  Sys.run_induction s as (fun _ _ _ _ h hs => lockInv_step h hs) hs

section OneCommit

variable {st : Mvcc} {hist : List Entry} {t : TxId}

theorem txCommit_active (hactive : (st.txs t).state = .active) :
    txCommit st (some t) =
      (0, st.globalTs, commitSection { st with draws := st.draws + 1 } t st.globalTs) := by
  rw [txCommit, if_neg (not_not_intro hactive)]
  rfl

/-- A commit keeps the invariant of the lock manager. -/
theorem lockInv_commit (hs : LockInv (Sys.atRest st hist)) :
    ∃ hist', LockInv (Sys.atRest (txCommit st (some t)).2.2 hist') := by
  have hrun := lockInv_from hs (callActs (.txCommit (some t)))
  rw [run_callActs] at hrun
  exact ⟨_, hrun⟩

/-- The other transactions are as ACTIVE as before. -/
theorem active_commit (hactive : (st.txs t).state = .active) (u : TxId) :
    ((txCommit st (some t)).2.2.txs u).state = .active ↔
      u ≠ t ∧ (st.txs u).state = .active := by
  rw [txCommit_active hactive]
  simp only [commitSection_txs, Function.update_apply]
  split
  · rename_i heq
    simp [heq]
  · rename_i hne
    simp [hne]

/-- Of the ACTIVE transactions one waits for nobody. -/
theorem exists_unblocked (hs : LockInv (Sys.atRest st hist))
    (hactive : (st.txs t).state = .active) :
    ∃ u, (st.txs u).state = .active ∧ ∀ j, st.waitFor u j = false := by
  obtain ⟨u, hu, hlast⟩ := hs.acyclic_atRest.exists_sink
    (S := {u | (st.txs u).state = .active}) ⟨t, hactive⟩
  refine ⟨u, hu, fun j => ?_⟩
  by_contra hwaits
  have hedge : st.waitFor u j = true := by simpa using hwaits
  exact hlast j (hs.edge u j hedge).2.2.1 hedge

theorem quiet_of_none_active (hs : LockInv (Sys.atRest st hist))
    (hended : ∀ t, (st.txs t).state ≠ .active) : Quiet st where
  ended := hended
  unlocked := by
    intro k
    cases hlock : (st.store k).lockedBy with
    | none => rfl
    | some t => exact absurd (hs.owner k t hlock) (hended t)
  unwaited := by
    intro i j
    by_contra hwaits
    have hedge : st.waitFor i j = true := by simpa using hwaits
    exact hended i (hs.edge i j hedge).2.1

end OneCommit

/-! ## All of them -/

/-- The transactions that are ACTIVE. -/
def activeTxs (st : Mvcc) : Finset TxId := {t | (st.txs t).state = .active}

theorem mem_activeTxs {st : Mvcc} {t : TxId} :
    t ∈ activeTxs st ↔ (st.txs t).state = .active := by
  simp [activeTxs]

theorem activeTxs_commit {st : Mvcc} {t : TxId} (hactive : (st.txs t).state = .active) :
    activeTxs (txCommit st (some t)).2.2 = (activeTxs st).erase t := by
  ext u
  rw [mem_activeTxs, active_commit hactive, Finset.mem_erase, mem_activeTxs]

theorem exists_drains (st : Mvcc) (hist : List Entry) (hs : LockInv (Sys.atRest st hist)) :
    ∃ order : List TxId, order.Nodup ∧ (∀ t, t ∈ order ↔ (st.txs t).state = .active) ∧
      Drains st order := by
  induction hcount : (activeTxs st).card generalizing st hist with
  | zero =>
      have hnone : ∀ t, (st.txs t).state ≠ .active := by
        intro t ht
        rw [Finset.card_eq_zero] at hcount
        exact absurd (mem_activeTxs.mpr ht) (by simp [hcount])
      exact ⟨[], .nil, fun t => by simpa using hnone t, quiet_of_none_active hs hnone⟩
  | succ n ih =>
      obtain ⟨t, ht⟩ := Finset.card_pos.mp (by omega : 0 < (activeTxs st).card)
      obtain ⟨u, hu, hfree⟩ := exists_unblocked hs (mem_activeTxs.mp ht)
      obtain ⟨hist', hs'⟩ := lockInv_commit (t := u) hs
      have hrest : (activeTxs (txCommit st (some u)).2.2).card = n := by
        rw [activeTxs_commit hu, Finset.card_erase_of_mem (mem_activeTxs.mpr hu), hcount]
        rfl
      obtain ⟨order, hnodup, hmem, hdrains⟩ := ih _ hist' hs' hrest
      refine ⟨u :: order, ?_, ?_, hu, hfree, by rw [txCommit_active hu], hdrains⟩
      · refine List.nodup_cons.mpr ⟨fun hin => ?_, hnodup⟩
        exact ((active_commit hu u).mp ((hmem u).mp hin)).1 rfl
      · intro v
        rw [List.mem_cons, hmem, active_commit hu]
        by_cases hv : v = u
        · simp [hv, hu]
        · simp [hv]

/-- **The store can always be drained.**  After any interleaving of calls, once every
thread has ended the call it is in, there is an order in which exactly the ACTIVE
transactions commit, each while it waits for nobody, and after which no key is locked. -/
theorem store_drains (as : List Act) :
    ∃ order : List TxId, order.Nodup ∧
      (∀ t, t ∈ order ↔ (((Sys.init.run as).run settle).mem.txs t).state = .active) ∧
      Drains ((Sys.init.run as).run settle).mem order := by
  have hs := lockInv_from (lockInv_run as) settle
  rw [settle_atRest] at hs
  exact exists_drains _ _ hs

end SystemsInC.Ports.MvccDrain
