import Mathlib.Data.List.Induction
import SystemsInC.Ports.MvccHistory

/-!
# The outcome of a transaction

A transaction ends COMMITTED or ABORTED.  `tx_read`, `tx_write` and `tx_commit`
refuse a transaction that is not ACTIVE; `tx_abort` does not look at the state.
`irrevocable_iff` shows that a `tx_abort` of a COMMITTED transaction is the only
call that takes an outcome back, and that without one every outcome is true: an
ABORTED transaction has put no version into a chain, and the writes of a
COMMITTED one are all there.
-/

namespace SystemsInC.Ports.MvccOutcome

open SystemsInC.Verified.CString
open SystemsInC.Ports.MvccStore
open SystemsInC.Ports.MvccInterleaving
open SystemsInC.Ports.MvccLocks
open SystemsInC.Ports.MvccChains
open SystemsInC.Ports.MvccHistory

/-- The transaction has an outcome. -/
def Ended (st : TxState) : Prop := st = .committed ∨ st = .aborted

/-- The call begins a new incarnation of `t`. -/
def Begins (c : Call) (t : TxId) : Prop := ∃ id, c = .beginTx id ∧ txOfId id = some t

/-- The state of `t` after a sequence of calls. -/
def stateAfter (calls : List Call) (t : TxId) : TxState := ((runCalls calls).1.txs t).state

/-- The chain of `k` after a sequence of calls. -/
def chainAfter (calls : List Call) (k : Key) : List Version :=
  ((runCalls calls).1.store k).versions

/-! ## Steps leave an outcome alone -/

/-- Only `begin_tx` and `tx_abort` of a transaction change its state once it has ended. -/
theorem Step.state_eq {s s' : Sys} {a : Act} (h : Step s a s') (hlock : LockInv s) {t : TxId}
    (hended : (s.mem.txs t).state ≠ .active) (hbegin : ¬ a.Begins t)
    (habort : a ≠ .call (.txAbort (some t))) :
    (s'.mem.txs t).state = (s.mem.txs t).state := by
  -- a thread inside a call belongs to an ACTIVE transaction, so not to `t`
  have hother : ∀ u, s.pc u ≠ .idle → t ≠ u := by
    rintro u hu rfl
    exact hended (hlock.busy t hu)
  cases h with
  | begin u id hid hidle =>
      have htu : t ≠ u := by
        rintro rfl
        exact hbegin ⟨id, rfl, hid⟩
      simp [Sys.record, htu]
  | buffer u kname value k writes hpc hwrites =>
      simp [Sys.finish, hother u (by simp [hpc])]
  | cleanup u kname value hpc => simp [Sys.finish, hother u (by simp [hpc])]
  | install u ts hpc => simp [Sys.finish, hother u (by simp [hpc])]
  | abort u hidle =>
      have htu : t ≠ u := by
        rintro rfl
        exact habort rfl
      simp [Sys.record, htu]
  | _ => rfl

/-! ## Calls -/

theorem runCalls_concat (pre : List Call) (c : Call) :
    runCalls (pre ++ [c]) =
      ((perform (runCalls pre).1 c).1, (perform (runCalls pre).1 c).2 :: (runCalls pre).2) :=
  performAll_append pre [c] (initStore, [])

theorem stateAfter_concat {pre : List Call} {c : Call} {t : TxId}
    (hended : Ended (stateAfter pre t)) (hbegin : ¬ Begins c t)
    (habort : c ≠ .txAbort (some t)) : stateAfter (pre ++ [c]) t = stateAfter pre t := by
  have hinactive : stateAfter pre t ≠ .active := by
    rcases hended with h | h <;> simp [h]
  have h := Sys.run_induction
    (P := fun s => LockInv s ∧ (s.mem.txs t).state = stateAfter pre t)
    (Sys.atRest (runCalls pre).1 (runCalls pre).2) (callActs c)
    (fun a ha s s' hstep hs => by
      refine ⟨lockInv_step hstep hs.1, ?_⟩
      rw [← hs.2] at hinactive ⊢
      apply Step.state_eq hstep hs.1 hinactive
      · rintro ⟨id, rfl, hid⟩
        have hc : Call.beginTx id = c := by simpa [callActs] using ha
        exact hbegin ⟨id, hc.symm, hid⟩
      · rintro rfl
        have hc : Call.txAbort (some t) = c := by simpa [callActs] using ha
        exact habort hc.symm)
    ⟨lockInv_runCalls pre, rfl⟩
  rw [run_callActs] at h
  rw [stateAfter, runCalls_concat]
  exact h.2

theorem tryAcquireLock_versions (st : Mvcc) (t : TxId) (k k' : Key) :
    ((tryAcquireLock st t k).2.store k').versions = (st.store k').versions := by
  unfold tryAcquireLock
  split
  · exact acquireLock_versions st t k k'
  · split
    · exact acquireLock_versions st t k k'
    · split <;> rfl

theorem txWrite_versions (st : Mvcc) (t : Option TxId) (kname value : Bytes) (k : Key) :
    ((txWrite st t kname value).2.store k).versions = (st.store k).versions := by
  cases t with
  | none => rfl
  | some t =>
      unfold txWrite
      dsimp only
      split
      · rfl
      · split
        · rfl
        · rename_i kidx _
          have hlock := tryAcquireLock_versions st t kidx k
          split
          · rw [deadlockSection_versions]
            exact hlock
          · split
            · exact hlock
            · unfold bufferSection
              split <;> exact hlock

/-- Only a `tx_commit` that succeeds changes a chain. -/
theorem chainAfter_concat {pre : List Call} {c : Call} {k : Key}
    (hcommit : ∀ t, c = .txCommit (some t) → stateAfter pre t ≠ .active) :
    chainAfter (pre ++ [c]) k = chainAfter pre k := by
  rw [chainAfter, runCalls_concat]
  cases c with
  | beginTx id =>
      simp only [perform, beginTx]
      split <;> rfl
  | txRead t kname outLen => rfl
  | txWrite t kname value => exact txWrite_versions _ t kname value k
  | txCommit t =>
      cases t with
      | none => rfl
      | some t =>
          have hstate : ((runCalls pre).1.txs t).state ≠ .active := hcommit t rfl
          simp [perform, txCommit, hstate, chainAfter]
  | txAbort t =>
      cases t with
      | none => rfl
      | some t => exact abortSection_versions _ t k

theorem stateAfter_txCommit {pre : List Call} {t : TxId} (h : stateAfter pre t = .active) :
    stateAfter (pre ++ [.txCommit (some t)]) t = .committed := by
  have hstate : ((runCalls pre).1.txs t).state = .active := h
  rw [stateAfter, runCalls_concat]
  simp [perform, txCommit, hstate]

theorem stateAfter_txAbort (pre : List Call) (t : TxId) :
    stateAfter (pre ++ [.txAbort (some t)]) t = .aborted := by
  rw [stateAfter, runCalls_concat]
  simp [perform, txAbort]

/-! ## The writes of a COMMITTED transaction -/

/-- The last commit of a COMMITTED transaction took all it had written. -/
def CommitsLast (s : Sys) : Prop :=
  ∀ t, (s.mem.txs t).state = .committed →
    ∃ c ∈ commits s.hist, ∀ k, c.wrote k = lastOwnWrite s.hist t k

/-- A step that commits nobody and adds no write to a COMMITTED transaction. -/
theorem CommitsLast.frame {s s' : Sys} (hs : CommitsLast s)
    (hcommits : commits s'.hist = commits s.hist)
    (hstate : ∀ t, (s'.mem.txs t).state = .committed → (s.mem.txs t).state = .committed ∧
      ∀ k, lastOwnWrite s'.hist t k = lastOwnWrite s.hist t k) : CommitsLast s' := by
  intro t ht
  obtain ⟨hbefore, hown⟩ := hstate t ht
  obtain ⟨c, hc, hwrote⟩ := hs t hbefore
  refine ⟨c, by rw [hcommits]; exact hc, fun k => ?_⟩
  rw [hown, hwrote]

theorem commitsLast_step {s s' : Sys} {a : Act} (h : Step s a s') (hlock : LockInv s)
    (hs : CommitsLast s) : CommitsLast s' := by
  cases h with
  | stutter => exact hs
  | silent _ e he =>
      exact hs.frame (commits_silent he s.hist)
        (fun t ht => ⟨ht, fun k => lastOwnWrite_silent he s.hist t k⟩)
  | begin u id hid hidle =>
      refine hs.frame rfl (fun t ht => ?_)
      have htu : t ≠ u := by
        rintro rfl
        simp [Sys.record] at ht
      simpa [Sys.record, htu, lastOwnWrite, Ne.symm htu] using ht
  | block u owner kname value k hready hkey howner hne hdetect =>
      exact hs.frame rfl (fun t ht => ⟨ht, fun k' => by simp [Sys.record, lastOwnWrite]⟩)
  | buffer u kname value k writes hpc hwrites =>
      refine hs.frame rfl (fun t ht => ?_)
      have hactive : (s.mem.txs u).state = .active := hlock.busy u (by simp [hpc])
      have htu : t ≠ u := by
        rintro rfl
        simp [Sys.finish, hactive] at ht
      simpa [Sys.finish, htu, lastOwnWrite, Ne.symm htu] using ht
  | bufferFull u kname value k hpc hwrites =>
      exact absurd hwrites (hlock.buffer_not_full u k value)
  | cleanup u kname value hpc =>
      refine hs.frame rfl (fun t ht => ?_)
      have htu : t ≠ u := by
        rintro rfl
        simp [Sys.finish] at ht
      simpa [Sys.finish, htu, lastOwnWrite] using ht
  | install u ts hpc =>
      intro t ht
      by_cases htu : t = u
      · subst htu
        exact ⟨_, List.mem_cons_self, fun k => rfl⟩
      · have hbefore : (s.mem.txs t).state = .committed := by
          simpa [Sys.finish, htu] using ht
        obtain ⟨c, hc, hwrote⟩ := hs t hbefore
        exact ⟨c, List.mem_cons_of_mem _ hc, hwrote⟩
  | abort u hidle =>
      refine hs.frame rfl (fun t ht => ?_)
      have htu : t ≠ u := by
        rintro rfl
        simp [Sys.record] at ht
      simpa [Sys.record, htu, lastOwnWrite] using ht
  | _ => exact hs.frame rfl (fun t ht => ⟨ht, fun k => rfl⟩)

/-- The chains hold what a COMMITTED transaction has written. -/
theorem committed_writes (calls : List Call) {t : TxId} (h : stateAfter calls t = .committed) :
    ∃ ts, ∀ k value, lastOwnWrite (runCalls calls).2 t k = some value →
      (ts, strncpy value valueLen) ∈ (chainAfter calls k).map versionStamp := by
  have hinv := Sys.run_induction (P := fun s => LockInv s ∧ CommitsLast s) Sys.init
    (sequential calls)
    (fun _ _ s s' hstep hs => ⟨lockInv_step hstep hs.1, commitsLast_step hstep hs.1 hs.2⟩)
    ⟨lockInv_init, fun t ht => by simp [Sys.init, initStore] at ht⟩
  have hhist := histInv_run (sequential calls)
  rw [run_sequential] at hinv hhist
  obtain ⟨c, hc, hwrote⟩ := hinv.2 t h
  refine ⟨c.commitTs, fun k value hvalue => ?_⟩
  have hsome : c.wrote k = some value := (hwrote k).trans hvalue
  have hchain := hhist.chain k
  rw [chainAfter]
  show _ ∈ ((Sys.atRest (runCalls calls).1 (runCalls calls).2).mem.store k).versions.map _
  rw [hchain, List.mem_append, List.mem_map]
  left
  refine ⟨c, ?_, ?_⟩
  · rw [commitsOf, List.mem_filter, hsome]
    exact ⟨hc, rfl⟩
  · simp [Commit.stamp, sourceValue, hsome]

/-! ## Whole sequences -/

/-- Outcomes are irrevocable and true along a sequence of calls. -/
structure Irrevocable (calls : List Call) : Prop where
  /-- Until the next `begin_tx` an outcome stays. -/
  stable : ∀ pre c, pre ++ [c] <+: calls → ∀ t, Ended (stateAfter pre t) → ¬ Begins c t →
    stateAfter (pre ++ [c]) t = stateAfter pre t
  /-- No call of an incarnation that is ABORTED has changed a chain. -/
  aborted : ∀ pre c post, pre ++ c :: post <+: calls → ∀ t, c.tx = some t →
    (∀ d ∈ post, ¬ Begins d t) → stateAfter (pre ++ c :: post) t = .aborted →
    ∀ k, chainAfter (pre ++ [c]) k = chainAfter pre k
  /-- All writes of an incarnation that is COMMITTED are in the chains. -/
  committed : ∀ pre, pre <+: calls → ∀ t, stateAfter pre t = .committed →
    ∃ ts, ∀ k value, lastOwnWrite (runCalls pre).2 t k = some value →
      (ts, strncpy value valueLen) ∈ (chainAfter pre k).map versionStamp

/-- No call of the sequence aborts a transaction that is COMMITTED. -/
def NoLateAbort (calls : List Call) : Prop :=
  ∀ pre t, pre ++ [.txAbort (some t)] <+: calls → stateAfter pre t ≠ .committed

theorem stateAfter_stable {calls : List Call} (h : NoLateAbort calls) {pre : List Call}
    {c : Call} (hpre : pre ++ [c] <+: calls) {t : TxId} (hended : Ended (stateAfter pre t))
    (hbegin : ¬ Begins c t) : stateAfter (pre ++ [c]) t = stateAfter pre t := by
  by_cases habort : c = .txAbort (some t)
  · subst habort
    have hstate : stateAfter pre t = .aborted := hended.resolve_left (h pre t hpre)
    rw [stateAfter_txAbort, hstate]
  · exact stateAfter_concat hended hbegin habort

/-- A COMMITTED transaction stays so until it begins again. -/
theorem committed_stable {calls : List Call} (h : NoLateAbort calls) (pre post : List Call)
    (hpost : pre ++ post <+: calls) {t : TxId} (hstate : stateAfter pre t = .committed)
    (hbegin : ∀ d ∈ post, ¬ Begins d t) : stateAfter (pre ++ post) t = .committed := by
  induction post using List.reverseRecOn with
  | nil => rwa [List.append_nil]
  | append_singleton post d ih =>
      rw [← List.append_assoc] at hpost ⊢
      have hshort := (List.prefix_append (pre ++ post) [d]).trans hpost
      have hmid := ih hshort (fun e he => hbegin e (List.mem_append_left _ he))
      rw [stateAfter_stable h hpost (Or.inl hmid) (hbegin d (by simp)), hmid]

/-- **Only a late `tx_abort` takes an outcome back.** -/
theorem irrevocable_iff (calls : List Call) : Irrevocable calls ↔ NoLateAbort calls := by
  constructor
  · intro h pre t hpre hstate
    have hkept := h.stable pre _ hpre t (Or.inl hstate) (by rintro ⟨id, hid, -⟩; simp at hid)
    rw [stateAfter_txAbort, hstate] at hkept
    contradiction
  · intro h
    constructor
    · exact fun pre c hpre t hended hbegin => stateAfter_stable h hpre hended hbegin
    · intro pre c post hpost t htx hbegin hstate k
      apply chainAfter_concat
      rintro u rfl hactive
      -- the call would have made its transaction COMMITTED, and so it would still be
      obtain rfl : u = t := Option.some.inj htx
      rw [List.append_cons] at hpost hstate
      rw [committed_stable h _ post hpost (stateAfter_txCommit hactive) hbegin] at hstate
      contradiction
    · exact fun pre _ t hstate => committed_writes pre hstate

/-- The end of `main` for a transaction that has committed before: the store holds
its version and the state says ABORTED. -/
theorem not_irrevocable_lateAbort : ¬ ∀ calls : List Call, Irrevocable calls := by
  intro h
  have hrun := h [.beginTx 1, .txWrite (some 1) (keyName 0) [97, 0], .txCommit (some 1),
    .txAbort (some 1)]
  have hchain := hrun.aborted [.beginTx 1, .txWrite (some 1) (keyName 0) [97, 0]]
    (.txCommit (some 1)) [.txAbort (some 1)] (List.prefix_refl _) 1 rfl
    (by simp [Begins]) (by decide) 0
  have hlen := congrArg List.length hchain
  revert hlen
  decide

end SystemsInC.Ports.MvccOutcome
