import SystemsInC.Ports.MvccOutcome
import SystemsInC.Ports.MvccVictim

/-!
# Who waits for whom

A transaction waits for the owner of the key on which its last `tx_write` was
blocked.  The wait-for matrix follows that relation only as long as nobody turns
away from a key he waits for and no lock is handed on: the edge to the earlier
owner stays, and none is made to the later one.  `exactVerdicts_of_orderly` shows
that without such calls matrix and relation are the same, and then a deadlock
verdict is given exactly when there is a deadlock.
-/

namespace SystemsInC.Ports.MvccDeadlock

open SystemsInC.Verified.CString
open SystemsInC.Verified.AcyclicRelation
open SystemsInC.Ports.WaitForGraph
open SystemsInC.Ports.MvccStore
open SystemsInC.Ports.MvccInterleaving
open SystemsInC.Ports.MvccLocks
open SystemsInC.Ports.MvccHistory
open SystemsInC.Ports.MvccOutcome
open SystemsInC.Ports.MvccVictim

/-! ## Waiting -/

/-- The key on which the last `tx_write` of the incarnation of `t` was blocked. -/
def blockedOn : List Entry → TxId → Option Key
  | [], _ => none
  | .beginTx _ ret _ :: h, t => if ret = some t then none else blockedOn h t
  | .txWrite t' kname _ ret :: h, t =>
      if t' = some t then (if ret = 1 then keyOf kname else none) else blockedOn h t
  | .txRead _ _ _ _ _ :: h, t => blockedOn h t
  | .txCommit _ _ _ :: h, t => blockedOn h t
  | .txAbort _ :: h, t => blockedOn h t

/-- Transaction `i` is ACTIVE, and the key on which it was blocked last is locked by `j`. -/
def WaitingFor (s : Mvcc × List Entry) (i j : TxId) : Prop :=
  (s.1.txs i).state = .active ∧ ∃ k, blockedOn s.2 i = some k ∧ (s.1.store k).lockedBy = some j

/-- Waiting, and `t` for `owner` as well. -/
def WaitingWith (s : Mvcc × List Entry) (t owner i j : TxId) : Prop :=
  WaitingFor s i j ∨ (i = t ∧ j = owner)

/-- In this state a `tx_write` that finds its key locked by another transaction is
aborted if its waiting closes a cycle, and blocked if not. -/
def ExactVerdict (s : Mvcc × List Entry) : Prop :=
  ∀ t kname value k owner, (s.1.txs t).state = .active → keyOf kname = some k →
    (s.1.store k).lockedBy = some owner → owner ≠ t →
    (Relation.TransGen (WaitingWith s t owner) t t →
      (txWrite s.1 (some t) kname value).1 = -1 ∧
        ((txWrite s.1 (some t) kname value).2.txs t).state = .aborted) ∧
    (¬ Relation.TransGen (WaitingWith s t owner) t t →
      (txWrite s.1 (some t) kname value).1 = 1 ∧
        ((txWrite s.1 (some t) kname value).2.txs t).state = .active)

/-- The matrix is the waiting relation. -/
def Recorded (s : Mvcc × List Entry) : Prop :=
  ∀ i j, Waits s.1.waitFor i j ↔ WaitingFor s i j

/-- What a call must not do for the matrix to stay right. -/
def Orderly (s : Mvcc × List Entry) : Call → Prop
  | .txWrite (some t) kname _ =>
      (s.1.txs t).state = .active →
      match keyOf kname with
      -- a waiting transaction does not turn to a key that does not exist,
      | none => ∀ j, ¬ WaitingFor s t j
      | some k =>
          match (s.1.store k).lockedBy with
          -- nobody takes a free lock for which another transaction waits,
          | none => ∀ u, u ≠ t → (s.1.txs u).state = .active → blockedOn s.2 u ≠ some k
          -- and a waiting transaction that is blocked again has the same owner to wait for
          | some owner => owner ≠ t → Relation.TransGen (WaitingWith s t owner) t t ∨
              ∀ j, WaitingFor s t j → j = owner
  -- nobody begins anew who is waited for
  | .beginTx id => ∀ t, txOfId id = some t → ∀ u, ¬ WaitingFor s u t
  | _ => True

/-! ## Verdicts -/

theorem waits_addEdge_iff {s : Mvcc × List Entry} (hs : Recorded s) (t owner i j : TxId) :
    Waits (addEdge s.1 t owner).waitFor i j ↔ WaitingWith s t owner i j := by
  rw [WaitingWith, ← hs i j, Waits, addEdge_waitFor, Waits]
  by_cases hnew : i = t ∧ j = owner
  · simp [hnew]
  · simp [hnew]

/-- With a matrix that is right and acyclic the search looks for a cycle through `t`. -/
theorem detectDeadlock_iff_waiting {s : Mvcc × List Entry} (hs : Recorded s)
    (hacyclic : Acyclic (Waits s.1.waitFor)) (t owner : TxId) :
    detectDeadlock (addEdge s.1 t owner).waitFor = true ↔
      Relation.TransGen (WaitingWith s t owner) t t := by
  have hrel : Waits (addEdge s.1 t owner).waitFor = WaitingWith s t owner := by
    funext i j
    exact propext (waits_addEdge_iff hs t owner i j)
  rw [← hrel, detectDeadlock_iff]
  constructor
  · rintro ⟨a, hcycle⟩
    by_contra hout
    apply hacyclic a
    apply Relation.TransGen.mono (fun i j hij => waits_of_addEdge hij)
    apply cycle_avoids (P := fun i => i = t) _ hcycle
    rintro b rfl
    exact hout
  · exact fun hcycle => ⟨t, hcycle⟩

/-! ## What `tx_write` can do -/

/-- The four ways in which `tx_write` ends. -/
inductive Wrote (st : Mvcc) (t : TxId) (kname value : Bytes) : Int × Mvcc → Prop
  | refused (h : (st.txs t).state ≠ .active ∨ keyOf kname = none) :
      Wrote st t kname value (-1, st)
  | acquired (k : Key) (writes : List (Key × Bytes)) (hactive : (st.txs t).state = .active)
      (hkey : keyOf kname = some k)
      (hfree : (st.store k).lockedBy = none ∨ (st.store k).lockedBy = some t) :
      Wrote st t kname value
        (0, (acquireLock st t k).setTx t { st.txs t with writes := writes })
  | blocked (k : Key) (owner : TxId) (hactive : (st.txs t).state = .active)
      (hkey : keyOf kname = some k) (howner : (st.store k).lockedBy = some owner)
      (hne : owner ≠ t) (hdetect : detectDeadlock (addEdge st t owner).waitFor = false) :
      Wrote st t kname value (1, addEdge st t owner)
  | deadlocked (k : Key) (owner : TxId) (hactive : (st.txs t).state = .active)
      (hkey : keyOf kname = some k) (howner : (st.store k).lockedBy = some owner)
      (hne : owner ≠ t) (hdetect : detectDeadlock (addEdge st t owner).waitFor = true) :
      Wrote st t kname value (-1, deadlockSection (addEdge st t owner) t)

theorem txWrite_wrote {st : Mvcc} {hist : List Entry} (hlock : LockInv (Sys.atRest st hist))
    (hnames : NamesFixed st) (t : TxId) (kname value : Bytes) :
    Wrote st t kname value (txWrite st (some t) kname value) := by
  unfold txWrite
  dsimp only
  rw [findKeyIndex_eq hnames]
  by_cases hactive : (st.txs t).state = .active
  · rw [if_neg (not_not_intro hactive)]
    cases hkey : keyOf kname with
    | none => exact .refused (Or.inr hkey)
    | some k =>
        -- there is room in the buffer of a transaction between its calls
        have hbuffer : ∀ st' : Mvcc, st' = acquireLock st t k →
            ((st.store k).lockedBy = none ∨ (st.store k).lockedBy = some t) →
            Wrote st t kname value (bufferSection st' t k value) := by
          rintro st' rfl hfree
          unfold bufferSection
          rw [acquireLock_txs]
          cases hwrites : bufferEntry (st.txs t).writes k value with
          | none => exact absurd hwrites (hlock.buffer_not_full t k value)
          | some writes => exact .acquired k writes hactive hkey hfree
        cases howner : (st.store k).lockedBy with
        | none =>
            simp only [tryAcquireLock, howner]
            exact hbuffer _ rfl (Or.inl howner)
        | some owner =>
            simp only [tryAcquireLock, howner]
            by_cases hself : owner = t
            · simp only [if_pos hself]
              exact hbuffer _ rfl (Or.inr (hself ▸ howner))
            · simp only [if_neg hself]
              by_cases hdetect : detectDeadlock (addEdge st t owner).waitFor = true
              · simp only [if_pos hdetect]
                exact .deadlocked k owner hactive hkey howner hself hdetect
              · simp only [if_neg hdetect]
                exact .blocked k owner hactive hkey howner hself (by simpa using hdetect)
  · rw [if_pos hactive]
    exact .refused (Or.inl hactive)

/-! ## Orderly calls keep the matrix right -/

section OneCall

variable {st : Mvcc} {hist : List Entry}

/-- A section that ends `t`, where the other rows were right before it. -/
theorem recorded_released {st' : Mvcc} {hist' : List Entry} {t : TxId}
    (hs : ∀ i, i ≠ t → ∀ j, Waits st.waitFor i j ↔ WaitingFor (st, hist) i j)
    (hrel : Released st st' t) (hblocked : ∀ i, i ≠ t → blockedOn hist' i = blockedOn hist i) :
    Recorded (st', hist') := by
  intro i j
  have hedge := hrel.waitFor i j
  by_cases hit : i = t
  · subst hit
    rw [Waits, hedge]
    simp [WaitingFor, hrel.ended]
  · have hrow := hs i hit j
    unfold Waits WaitingFor at hrow ⊢
    dsimp only at hrow ⊢
    simp only [hedge, hrel.others i hit, hblocked i hit, hrel.lockedBy_iff]
    by_cases hjt : j = t
    · simp [hjt]
    · simp [hit, hjt, hrow]

/-- A call that changes neither the edges nor the locks nor who is ACTIVE. -/
theorem Recorded.congr {hist' : List Entry} (hs : Recorded (st, hist))
    (hblocked : ∀ i, (st.txs i).state = .active → blockedOn hist' i = blockedOn hist i) :
    Recorded (st, hist') := by
  intro i j
  rw [hs i j]
  unfold WaitingFor
  dsimp only
  constructor
  · rintro ⟨hactive, hkey⟩
    rw [hblocked i hactive]
    exact ⟨hactive, hkey⟩
  · rintro ⟨hactive, hkey⟩
    rw [hblocked i hactive] at hkey
    exact ⟨hactive, hkey⟩

theorem recorded_begin (hs : Recorded (st, hist)) {t : TxId} {id : Int} {ts : Nat}
    (hfree : ∀ u, ¬ WaitingFor (st, hist) u t) :
    Recorded (beginSection st t, .beginTx id (some t) ts :: hist) := by
  intro i j
  have hrow := hs i j
  have hcolumn := hfree i
  unfold Waits WaitingFor at hrow
  unfold WaitingFor at hcolumn ⊢
  rw [Waits, beginSection_waitFor]
  simp only [beginSection_txs, beginSection_store, blockedOn, Option.some.injEq] at hrow hcolumn ⊢
  by_cases hit : i = t
  · simp [hit]
  · rw [if_neg (Ne.symm hit), Function.update_of_ne hit]
    by_cases hjt : j = t
    · subst hjt
      simpa using hcolumn
    · simp [hit, hjt, hrow]

/-- A write that is refused to a transaction that does not wait. -/
theorem recorded_refused (hs : Recorded (st, hist)) {t : TxId} {kname value : Bytes}
    (hnobody : ∀ j, ¬ WaitingFor (st, hist) t j) :
    Recorded (st, .txWrite (some t) kname value (-1) :: hist) := by
  intro i j
  rw [hs i j]
  by_cases hit : i = t
  · subst hit
    exact iff_of_false (hnobody j) (by simp [WaitingFor, blockedOn])
  · simp [WaitingFor, blockedOn, Ne.symm hit]

theorem recorded_acquired (hs : Recorded (st, hist)) {t : TxId} {k : Key} {kname value : Bytes}
    {writes : List (Key × Bytes)}
    (hfree : (st.store k).lockedBy = none ∨ (st.store k).lockedBy = some t)
    (hnobody : (st.store k).lockedBy = none →
      ∀ u, u ≠ t → (st.txs u).state = .active → blockedOn hist u ≠ some k) :
    Recorded ((acquireLock st t k).setTx t { st.txs t with writes := writes },
      .txWrite (some t) kname value 0 :: hist) := by
  intro i j
  have hrow := hs i j
  unfold Waits WaitingFor at hrow ⊢
  simp only [setTx_waitFor, setTx_store, setTx_txs, acquireLock_waitFor, acquireLock_txs,
    acquireLock_lockedBy, blockedOn, Option.some.injEq] at hrow ⊢
  by_cases hit : i = t
  · simp [hit]
  · rw [if_neg hit, if_neg (Ne.symm hit), Function.update_of_ne hit, hrow]
    refine and_congr_right (fun hactive => exists_congr (fun k' => and_congr_right ?_))
    intro hblocked
    by_cases hk : k' = k
    · subst hk
      rcases hfree with hnone | hself
      · exact absurd hblocked (hnobody hnone i hit hactive)
      · rw [if_pos rfl, hself]
    · rw [if_neg hk]

theorem recorded_blocked (hs : Recorded (st, hist)) {t owner : TxId} {k : Key}
    {kname value : Bytes} (hactive : (st.txs t).state = .active) (hkey : keyOf kname = some k)
    (howner : (st.store k).lockedBy = some owner)
    (hsame : ∀ j, WaitingFor (st, hist) t j → j = owner) :
    Recorded (addEdge st t owner, .txWrite (some t) kname value 1 :: hist) := by
  intro i j
  have hrow := hs i j
  unfold Waits at hrow ⊢
  rw [addEdge_waitFor]
  by_cases hit : i = t
  · subst hit
    simp only [WaitingFor, addEdge_txs, addEdge_store, blockedOn, if_true, hactive, hkey,
      Option.some.injEq, exists_eq_left', howner, true_and]
    by_cases hj : j = owner
    · simp [hj]
    · rw [if_neg hj, hrow]
      exact iff_of_false (fun hwait => hj (hsame j hwait)) (Ne.symm hj)
  · rw [if_neg (fun heq => hit heq.1), hrow]
    simp [WaitingFor, blockedOn, Ne.symm hit]

/-- The edge of a write that closes a cycle goes with the writer's row. -/
theorem recorded_deadlocked (hs : Recorded (st, hist)) {t owner : TxId} {kname value : Bytes} :
    Recorded (deadlockSection (addEdge st t owner) t,
      .txWrite (some t) kname value (-1) :: hist) := by
  have hrows : ∀ i, i ≠ t → ∀ j, Waits (addEdge st t owner).waitFor i j ↔
      WaitingFor (addEdge st t owner, hist) i j := by
    intro i hit j
    have hrow := hs i j
    unfold Waits at hrow ⊢
    rw [addEdge_waitFor, if_neg (fun heq => hit heq.1), hrow]
    rfl
  apply recorded_released hrows (released_deadlockSection _ t)
  intro i hit
  simp [blockedOn, Ne.symm hit]

end OneCall

/-! ## Sequences of calls -/

/-- Every call of the sequence is orderly where it is made. -/
def OrderlyCalls (calls : List Call) : Prop :=
  ∀ pre c, pre ++ [c] <+: calls → Orderly (runCalls pre) c

theorem namesFixed_runCalls (calls : List Call) : NamesFixed (runCalls calls).1 := by
  have h := Sys.run_namesFixed (sequential calls)
  rw [run_sequential] at h
  exact h

theorem recorded_txWrite {s : Mvcc × List Entry} (hs : Recorded s)
    (hlock : LockInv (Sys.atRest s.1 s.2)) (hnames : NamesFixed s.1) (t : TxId)
    (kname value : Bytes) (horderly : Orderly s (.txWrite (some t) kname value)) :
    Recorded ((txWrite s.1 (some t) kname value).2,
      .txWrite (some t) kname value (txWrite s.1 (some t) kname value).1 :: s.2) := by
  obtain ⟨st, hist⟩ := s
  have hwrote := txWrite_wrote hlock hnames t kname value
  generalize txWrite st (some t) kname value = res at hwrote
  unfold Orderly at horderly
  dsimp only at horderly hwrote ⊢
  cases hwrote with
  | refused h =>
      apply recorded_refused hs
      intro j hwait
      have hkey := h.resolve_left (not_not_intro hwait.1)
      have hnobody := horderly hwait.1
      rw [hkey] at hnobody
      exact hnobody j hwait
  | acquired k writes hactive hkey hfree =>
      apply recorded_acquired hs hfree
      intro hnone
      have h := horderly hactive
      rw [hkey] at h
      simpa [hnone] using h
  | blocked k owner hactive hkey howner hne hdetect =>
      apply recorded_blocked hs hactive hkey howner
      have h := horderly hactive
      simp only [hkey, howner] at h
      -- the search has found no cycle
      have hnocycle := (detectDeadlock_iff_waiting hs hlock.acyclic_atRest t owner).not.mp
        (by simp [hdetect])
      exact (h hne).resolve_left hnocycle
  | deadlocked k owner hactive hkey howner hne hdetect => exact recorded_deadlocked hs

theorem recorded_perform {s : Mvcc × List Entry} (hs : Recorded s)
    (hlock : LockInv (Sys.atRest s.1 s.2)) (hnames : NamesFixed s.1) (c : Call)
    (horderly : Orderly s c) :
    Recorded ((perform s.1 c).1, (perform s.1 c).2 :: s.2) := by
  obtain ⟨st, hist⟩ := s
  have hrows : ∀ t, ∀ i, i ≠ t → ∀ j, Waits st.waitFor i j ↔ WaitingFor (st, hist) i j :=
    fun _ i _ j => hs i j
  cases c with
  | beginTx id =>
      simp only [perform, beginTx]
      cases hid : txOfId id with
      | none => exact hs.congr (fun i _ => by simp [blockedOn])
      | some t => exact recorded_begin hs (horderly t hid)
  | txRead t kname outLen => exact hs.congr (fun i _ => rfl)
  | txWrite t kname value =>
      cases t with
      | none => exact hs.congr (fun i _ => by simp [perform, txWrite, blockedOn])
      | some t => exact recorded_txWrite hs hlock hnames t kname value horderly
  | txCommit t =>
      cases t with
      | none => exact hs.congr (fun i _ => rfl)
      | some t =>
          by_cases hactive : (st.txs t).state = .active
          · simp only [perform, txCommit, hactive, ne_eq, not_true_eq_false, if_false]
            have hdraw : ∀ i, i ≠ t → ∀ j, Waits st.fetchAddTs.2.waitFor i j ↔
                WaitingFor (st.fetchAddTs.2, hist) i j := hrows t
            exact recorded_released hdraw (released_commitSection st.fetchAddTs.2 t _)
              (fun i _ => rfl)
          · simp only [perform, txCommit, ne_eq, hactive, not_false_eq_true, if_true]
            exact hs.congr (fun i _ => rfl)
  | txAbort t =>
      cases t with
      | none => exact hs.congr (fun i _ => rfl)
      | some t =>
          exact recorded_released (hrows t) (released_abortSection st t) (fun i _ => rfl)

theorem recorded_runCalls (calls : List Call) (h : OrderlyCalls calls) :
    Recorded (runCalls calls) := by
  induction calls using List.reverseRecOn with
  | nil =>
      intro i j
      exact iff_of_false (by simp [Waits, runCalls, performAll, initStore])
        (by simp [WaitingFor, runCalls, performAll, initStore])
  | append_singleton pre c ih =>
      have hpre : OrderlyCalls pre :=
        fun pre' d hd => h pre' d (hd.trans (List.prefix_append pre [c]))
      rw [runCalls_concat]
      exact recorded_perform (ih hpre) (lockInv_runCalls pre) (namesFixed_runCalls pre) c
        (h pre c (List.prefix_refl _))

/-- **Deadlock verdicts are exact** after calls that keep the matrix right. -/
theorem exactVerdicts_of_orderly (calls : List Call) (h : OrderlyCalls calls) :
    ExactVerdict (runCalls calls) := by
  intro t kname value k owner hactive hkey howner hne
  have hlock := lockInv_runCalls calls
  have hiff := detectDeadlock_iff_waiting (recorded_runCalls calls h) hlock.acyclic_atRest t owner
  have hwrote := txWrite_wrote hlock (namesFixed_runCalls calls) t kname value
  generalize txWrite (runCalls calls).1 (some t) kname value = res at hwrote
  cases hwrote with
  | refused hrefused => simp [hactive, hkey] at hrefused
  | acquired k' writes _ hkey' hfree =>
      obtain rfl := Option.some.inj (hkey.symm.trans hkey')
      simp [howner, hne] at hfree
  | blocked k' owner' _ hkey' howner' _ hdetect =>
      obtain rfl := Option.some.inj (hkey.symm.trans hkey')
      obtain rfl := Option.some.inj (howner.symm.trans howner')
      rw [hdetect] at hiff
      exact ⟨fun hcycle => absurd (hiff.mpr hcycle) (by simp), fun _ => ⟨rfl, hactive⟩⟩
  | deadlocked k' owner' _ hkey' howner' _ hdetect =>
      obtain rfl := Option.some.inj (hkey.symm.trans hkey')
      obtain rfl := Option.some.inj (howner.symm.trans howner')
      exact ⟨fun _ => ⟨rfl, by simp⟩, fun hno => absurd (hiff.mp hdetect) hno⟩

instance (s : Mvcc × List Entry) (i j : TxId) : Decidable (WaitingFor s i j) := by
  unfold WaitingFor
  infer_instance

theorem orderlyCalls_nil : OrderlyCalls [] := by
  intro pre c hpre
  simp at hpre

theorem orderlyCalls_concat {calls : List Call} (h : OrderlyCalls calls) {c : Call}
    (hc : Orderly (runCalls calls) c) : OrderlyCalls (calls ++ [c]) := by
  intro pre d hpre
  rcases List.prefix_concat_iff.mp hpre with heq | hold
  · obtain ⟨rfl, hd⟩ := List.append_inj' heq rfl
    rwa [List.singleton_inj.mp hd]
  · exact h pre d hold

/-- A `tx_write` of a key that is free and that nobody waits for. -/
theorem orderly_free {s : Mvcc × List Entry} {t : TxId} {kname value : Bytes} {k : Key}
    (hkey : keyOf kname = some k) (hfree : (s.1.store k).lockedBy = none)
    (hnobody : ∀ u, blockedOn s.2 u ≠ some k) : Orderly s (.txWrite (some t) kname value) := by
  intro hactive
  rw [hkey]
  simp only [hfree]
  exact fun u _ _ => hnobody u

/-- A `tx_write` of a locked key by a transaction that waits for nobody yet. -/
theorem orderly_locked {s : Mvcc × List Entry} {t owner : TxId} {kname value : Bytes} {k : Key}
    (hkey : keyOf kname = some k) (howner : (s.1.store k).lockedBy = some owner)
    (hfirst : ∀ j, ¬ WaitingFor s t j) : Orderly s (.txWrite (some t) kname value) := by
  intro hactive
  rw [hkey]
  simp only [howner]
  exact fun _ => Or.inr (fun j hj => absurd hj (hfirst j))

/-- Two transactions lock a key each, and the first waits for the second. -/
def oneWaits : List Call :=
  [] ++ [.beginTx 0] ++ [.beginTx 1] ++ [.txWrite (some 0) (keyName 0) [97, 0]] ++
    [.txWrite (some 1) (keyName 1) [98, 0]] ++ [.txWrite (some 0) (keyName 1) [99, 0]]

theorem exactVerdicts_of_orderly_oneWaits : ExactVerdict (runCalls oneWaits) := by
  apply exactVerdicts_of_orderly
  apply orderlyCalls_concat
  · apply orderlyCalls_concat
    · apply orderlyCalls_concat
      · apply orderlyCalls_concat
        · apply orderlyCalls_concat orderlyCalls_nil
          intro t _ u
          revert t u
          decide
        · intro t _ u
          revert t u
          decide
      · exact orderly_free (k := 0) (by decide) (by decide) (by decide)
    · exact orderly_free (k := 1) (by decide) (by decide) (by decide)
  · exact orderly_locked (k := 1) (by decide) rfl (by decide)

/-- Transaction 0 has turned from the key of transaction 1 to that of transaction 2;
the edge to transaction 1 is still there when that one asks for the key of
transaction 0. -/
def turnsAway : List Call :=
  [.beginTx 0, .beginTx 1, .beginTx 2, .txWrite (some 0) (keyName 0) [97, 0],
    .txWrite (some 1) (keyName 1) [98, 0], .txWrite (some 2) (keyName 2) [99, 0],
    .txWrite (some 0) (keyName 1) [100, 0], .txWrite (some 0) (keyName 2) [101, 0]]

theorem not_exactVerdicts_turnsAway : ¬ ∀ calls : List Call, ExactVerdict (runCalls calls) := by
  intro h
  have hexact := (h turnsAway 1 (keyName 0) [102, 0] 0 0 (by decide) (by decide) (by decide)
    (by decide)).2
  have hnocycle : ¬ Relation.TransGen (WaitingWith (runCalls turnsAway) 1 0) 1 1 := by
    -- 1 waits for 0, who waits for 2, who waits for nobody
    apply not_cycle_of_closed (fun j => j = 0 ∨ j = 2)
    · unfold WaitingWith
      decide
    · unfold WaitingWith
      decide
    · decide
  have hcode := (hexact hnocycle).1
  revert hcode
  decide

end SystemsInC.Ports.MvccDeadlock
