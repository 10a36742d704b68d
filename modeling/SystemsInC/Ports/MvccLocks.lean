import SystemsInC.Ports.MvccInterleaving

/-!
# The lock manager

States, key locks, write buffers and the wait-for matrix are updated piecemeal
by six sections.  `LockInv` is what they maintain together, for every
interleaving of the threads; `lockManager` reads off what it says between calls
that are made one at a time.

While a thread is between the deadlock verdict and its clean-up, the matrix does
have a cycle.  The invariant therefore leaves out the edges of such a thread: the
verdict adds no other edge, and the clean-up removes them all.
-/

namespace SystemsInC.Ports.MvccLocks

open SystemsInC.Verified.CString
open SystemsInC.Verified.AcyclicRelation
open SystemsInC.Ports.WaitForGraph
open SystemsInC.Ports.MvccStore
open SystemsInC.Ports.MvccInterleaving

/-! ## The invariant -/

/-- Thread `t` has been told to abort and has not cleaned up yet. -/
def Doomed (s : Sys) (t : TxId) : Prop := ∃ kname value, s.pc t = .deadlocked kname value

/-- The edges of the wait-for matrix that do not leave a doomed thread. -/
def LiveEdge (s : Sys) (i j : TxId) : Prop := s.mem.waitFor i j = true ∧ ¬ Doomed s i

structure LockInv (s : Sys) : Prop where
  owner : ∀ k t, (s.mem.store k).lockedBy = some t → (s.mem.txs t).state = .active
  busy : ∀ t, s.pc t ≠ .idle → (s.mem.txs t).state = .active
  held : ∀ t, (s.mem.txs t).state = .active →
    ∀ k ∈ bufferedKeys (s.mem.txs t).writes, (s.mem.store k).lockedBy = some t
  acquired : ∀ t kname value k, s.pc t = .acquired kname value k →
    (s.mem.store k).lockedBy = some t
  nodup : ∀ t, (bufferedKeys (s.mem.txs t).writes).Nodup
  edge : ∀ i j, s.mem.waitFor i j = true →
    i ≠ j ∧ (s.mem.txs i).state = .active ∧ (s.mem.txs j).state = .active ∧
      ∃ k, (s.mem.store k).lockedBy = some j
  acyclic : Acyclic (LiveEdge s)

theorem lockInv_init : LockInv Sys.init := by
  refine
    { owner := by simp [Sys.init, initStore]
      busy := by simp [Sys.init]
      held := by simp [Sys.init, initStore]
      acquired := by simp [Sys.init]
      nodup := by simp [Sys.init, initStore, bufferedKeys]
      edge := by simp [Sys.init, initStore]
      acyclic := ?_ }
  intro t hcycle
  obtain ⟨u, hedge, -⟩ := Relation.TransGen.head'_iff.mp hcycle
  simp [LiveEdge, Sys.init, initStore] at hedge

/-- A thread that is not inside a call is not doomed. -/
private theorem not_doomed_of_idle {s : Sys} {t : TxId} (h : s.pc t = .idle) :
    ¬ Doomed s t := by
  rintro ⟨kname, value, hpc⟩
  simp [h] at hpc

/-- Distinct keys leave room in the buffer: the branch "write buffer full" of
`tx_write` is never taken. -/
theorem LockInv.buffer_not_full {s : Sys} (hs : LockInv s) (t : TxId) (k : Key)
    (value : Bytes) : bufferEntry (s.mem.txs t).writes k value ≠ none := by
  intro hfull
  have hlen : (bufferedKeys (s.mem.txs t).writes).length ≤ Fintype.card Key :=
    (hs.nodup t).length_le_card
  obtain ⟨-, hge⟩ := bufferEntry_eq_none hfull
  simp only [bufferedKeys, List.length_map, Fintype.card_fin, maxKeys] at hlen
  simp only [maxWritesPerTx] at hge
  omega

/-! ## Steps that do not end a transaction -/

theorem LockInv.congr {s s' : Sys} (hs : LockInv s) (hmem : s'.mem = s.mem)
    (hpc : s'.pc = s.pc) : LockInv s' := by
  obtain ⟨mem, pc, hist⟩ := s
  obtain ⟨mem', pc', hist'⟩ := s'
  simp only at hmem hpc
  subst hmem hpc
  exact
    { owner := hs.owner
      busy := hs.busy
      held := hs.held
      acquired := hs.acquired
      nodup := hs.nodup
      edge := hs.edge
      acyclic := hs.acyclic }

/-- `begin_tx` clears the edges of its transaction and its buffer; the locks that
an earlier incarnation of the id may hold stay. -/
theorem LockInv.begin {s : Sys} (hs : LockInv s) (t : TxId) (e : Entry) :
    LockInv (s.record (beginSection s.mem t) e) := by
  have hstate : ∀ u, (s.mem.txs u).state = .active →
      ((beginSection s.mem t).txs u).state = .active := by
    intro u hu
    by_cases hut : u = t
    · subst hut; simp
    · simpa [hut] using hu
  refine
    { owner := fun k u hk => hstate u (hs.owner k u hk)
      busy := fun u hu => hstate u (hs.busy u hu)
      held := ?_
      acquired := hs.acquired
      nodup := ?_
      edge := ?_
      acyclic := hs.acyclic.mono ?_ }
  · intro u hu k hk
    by_cases hut : u = t
    · subst hut; simp [Sys.record, bufferedKeys] at hk
    · simp only [Sys.record, beginSection_txs, Function.update_of_ne hut] at hu hk
      exact hs.held u hu k hk
  · intro u
    by_cases hut : u = t
    · subst hut; simp [Sys.record, bufferedKeys]
    · simpa [Sys.record, hut] using hs.nodup u
  · intro i j hij
    simp only [Sys.record, beginSection_waitFor] at hij
    split at hij
    · simp at hij
    · obtain ⟨hne, hi, hj, hlock⟩ := hs.edge i j hij
      exact ⟨hne, hstate i hi, hstate j hj, hlock⟩
  · rintro i j ⟨hij, hlive⟩
    simp only [Sys.record, beginSection_waitFor] at hij
    split at hij
    · simp at hij
    · exact ⟨hij, hlive⟩

/-- A thread that stops inside a call belongs to an ACTIVE transaction. -/
private theorem LockInv.busy_suspend {s : Sys} (hs : LockInv s) {t : TxId} (hready : Ready s t)
    (pc : Pc) (u : TxId) (hu : Function.update s.pc t pc u ≠ .idle) :
    (s.mem.txs u).state = .active := by
  by_cases hut : u = t
  · subst hut
    exact hready.active
  · rw [Function.update_of_ne hut] at hu
    exact hs.busy u hu

/-- A thread that stops elsewhere leaves the acquired locks to the other threads. -/
private theorem LockInv.acquired_suspend {s : Sys} (hs : LockInv s) {t : TxId} {pc : Pc}
    (hpc : ∀ kname value k, pc ≠ .acquired kname value k) (u : TxId) (kname value : Bytes)
    (k : Key) (hu : Function.update s.pc t pc u = .acquired kname value k) :
    (s.mem.store k).lockedBy = some u := by
  by_cases hut : u = t
  · subst hut
    rw [Function.update_self] at hu
    exact absurd hu (hpc kname value k)
  · rw [Function.update_of_ne hut] at hu
    exact hs.acquired u kname value k hu

/-- Taking a free lock, or one that is already the thread's own. -/
theorem LockInv.acquire {s : Sys} (hs : LockInv s) {t : TxId} {k : Key} (hready : Ready s t)
    (hfree : (s.mem.store k).lockedBy = none ∨ (s.mem.store k).lockedBy = some t)
    (kname value : Bytes) :
    LockInv (s.suspend t (acquireLock s.mem t k) (.acquired kname value k)) := by
  have hkeep : ∀ k' u, (s.mem.store k').lockedBy = some u →
      ((acquireLock s.mem t k).store k').lockedBy = some u := by
    intro k' u hk'
    rw [acquireLock_lockedBy]
    split
    · subst k'
      rcases hfree with hnone | hself
      · simp [hnone] at hk'
      · exact hself.symm.trans hk'
    · exact hk'
  refine
    { owner := ?_
      busy := hs.busy_suspend hready _
      held := fun u hu k' hk' => hkeep k' u (hs.held u hu k' hk')
      acquired := ?_
      nodup := hs.nodup
      edge := ?_
      acyclic := hs.acyclic.mono ?_ }
  · intro k' u hk'
    simp only [Sys.suspend, acquireLock_lockedBy] at hk'
    split at hk'
    · obtain rfl := Option.some.inj hk'
      exact hready.active
    · exact hs.owner k' u hk'
  · intro u kname' value' k' hpc
    by_cases hut : u = t
    · subst hut
      simp only [Sys.suspend, Function.update_self, Pc.acquired.injEq] at hpc
      obtain ⟨-, -, rfl⟩ := hpc
      simp [Sys.suspend, acquireLock_lockedBy]
    · simp only [Sys.suspend, Function.update_of_ne hut] at hpc
      exact hkeep k' u (hs.acquired u kname' value' k' hpc)
  · intro i j hij
    simp only [Sys.suspend, acquireLock_waitFor] at hij
    split at hij
    · simp at hij
    · obtain ⟨hne, hi, hj, k', hk'⟩ := hs.edge i j hij
      exact ⟨hne, hi, hj, k', hkeep k' j hk'⟩
  · rintro i j ⟨hij, hlive⟩
    simp only [Sys.suspend, acquireLock_waitFor] at hij
    split at hij
    · simp at hij
    · rename_i hit
      refine ⟨hij, ?_⟩
      rintro ⟨kname', value', hpc⟩
      exact hlive ⟨kname', value', (Function.update_of_ne hit _ _).trans hpc⟩

/-- The edge to the owner of a lock joins two different ACTIVE transactions. -/
private theorem LockInv.edge_addEdge {s : Sys} (hs : LockInv s) {t owner : TxId} {k : Key}
    (hactive : (s.mem.txs t).state = .active)
    (howner : (s.mem.store k).lockedBy = some owner) (hne : owner ≠ t) :
    ∀ i j, (addEdge s.mem t owner).waitFor i j = true →
      i ≠ j ∧ (s.mem.txs i).state = .active ∧ (s.mem.txs j).state = .active ∧
        ∃ k, (s.mem.store k).lockedBy = some j := by
  intro i j hij
  rw [addEdge_waitFor] at hij
  split at hij
  · obtain ⟨rfl, rfl⟩ := ‹i = t ∧ j = owner›
    exact ⟨hne.symm, hactive, hs.owner k j howner, k, howner⟩
  · exact hs.edge i j hij

/-- A blocked write adds an edge that closes no cycle. -/
theorem LockInv.block {s : Sys} (hs : LockInv s) {t owner : TxId} {k : Key}
    (hready : Ready s t) (howner : (s.mem.store k).lockedBy = some owner) (hne : owner ≠ t)
    (hdetect : detectDeadlock (addEdge s.mem t owner).waitFor = false) (e : Entry) :
    LockInv (s.record (addEdge s.mem t owner) e) :=
  { owner := hs.owner
    busy := hs.busy
    held := hs.held
    acquired := hs.acquired
    nodup := hs.nodup
    edge := hs.edge_addEdge hready.active howner hne
    acyclic := (acyclic_of_detectDeadlock_eq_false _ hdetect).mono (fun _ _ h => h.1) }

/-- The verdict dooms the thread, so none of its edges count any more. -/
theorem LockInv.deadlock {s : Sys} (hs : LockInv s) {t owner : TxId} {k : Key}
    (hready : Ready s t) (howner : (s.mem.store k).lockedBy = some owner) (hne : owner ≠ t)
    (kname value : Bytes) :
    LockInv (s.suspend t (addEdge s.mem t owner) (.deadlocked kname value)) := by
  refine
    { owner := hs.owner
      busy := hs.busy_suspend hready _
      held := hs.held
      acquired := hs.acquired_suspend (by simp)
      nodup := hs.nodup
      edge := hs.edge_addEdge hready.active howner hne
      acyclic := hs.acyclic.mono ?_ }
  · rintro i j ⟨hij, hlive⟩
    have hit : i ≠ t := by
      rintro rfl
      exact hlive ⟨kname, value, by simp [Sys.suspend]⟩
    simp only [Sys.suspend, addEdge_waitFor, hit, false_and, if_false] at hij
    refine ⟨hij, ?_⟩
    rintro ⟨kname', value', hpc⟩
    exact hlive ⟨kname', value', by simpa [Sys.suspend, hit] using hpc⟩

/-- Buffering a value for a key whose lock the thread holds. -/
theorem LockInv.buffer {s : Sys} (hs : LockInv s) {t : TxId} {kname value : Bytes} {k : Key}
    (hpc : s.pc t = .acquired kname value k) {writes : List (Key × Bytes)}
    (hwrites : bufferEntry (s.mem.txs t).writes k value = some writes) (e : Entry) :
    LockInv (s.finish t (s.mem.setTx t { s.mem.txs t with writes := writes }) e) := by
  have hstate : ∀ u, ((s.mem.setTx t { s.mem.txs t with writes := writes }).txs u).state =
      (s.mem.txs u).state := by
    intro u
    by_cases hut : u = t
    · subst hut; simp
    · simp [hut]
  have hidle : ∀ u pc, (s.finish t (s.mem.setTx t { s.mem.txs t with writes := writes }) e).pc u =
      pc → pc ≠ .idle → s.pc u = pc := by
    intro u pc hu hne
    by_cases hut : u = t
    · subst hut; simp [Sys.finish] at hu; exact absurd hu.symm hne
    · simpa [Sys.finish, hut] using hu
  refine
    { owner := fun k' u hk' => (hstate u).trans (hs.owner k' u hk')
      busy := fun u hu => (hstate u).trans (hs.busy u (by rw [hidle u _ rfl hu]; exact hu))
      held := ?_
      acquired := fun u kname' value' k' hu =>
        hs.acquired u kname' value' k' (hidle u _ hu (by simp))
      nodup := ?_
      edge := ?_
      acyclic := hs.acyclic.mono ?_ }
  · intro u hu k' hk'
    by_cases hut : u = t
    · subst hut
      simp only [Sys.finish, setTx_txs, Function.update_self] at hu hk'
      rcases bufferEntry_keys hwrites with ⟨-, hkeys⟩ | ⟨-, hkeys⟩
      · rw [hkeys] at hk'
        exact hs.held u hu k' hk'
      · rw [hkeys, List.mem_append, List.mem_singleton] at hk'
        rcases hk' with hk' | rfl
        · exact hs.held u hu k' hk'
        · exact hs.acquired u kname value k' hpc
    · simp only [Sys.finish, setTx_txs, Function.update_of_ne hut] at hu hk'
      exact hs.held u hu k' hk'
  · intro u
    by_cases hut : u = t
    · subst hut
      simp only [Sys.finish, setTx_txs, Function.update_self]
      rcases bufferEntry_keys hwrites with ⟨-, hkeys⟩ | ⟨hnew, hkeys⟩
      · rw [hkeys]; exact hs.nodup u
      · rw [hkeys]
        exact List.nodup_append'.mpr ⟨hs.nodup u, List.nodup_singleton k,
          List.disjoint_singleton.mpr hnew⟩
    · simpa [Sys.finish, hut] using hs.nodup u
  · intro i j hij
    obtain ⟨hne, hi, hj, hlock⟩ := hs.edge i j hij
    exact ⟨hne, (hstate i).trans hi, (hstate j).trans hj, hlock⟩
  · rintro i j ⟨hij, hlive⟩
    refine ⟨hij, ?_⟩
    rintro ⟨kname', value', hi⟩
    by_cases hit : i = t
    · subst hit; simp [hpc] at hi
    · exact hlive ⟨kname', value', by simpa [Sys.finish, hit] using hi⟩

/-- Drawing a commit timestamp touches no lock. -/
theorem LockInv.draw {s : Sys} (hs : LockInv s) {t : TxId} (hready : Ready s t) (ts : Nat) :
    LockInv (s.suspend t s.mem.fetchAddTs.2 (.committing ts)) := by
  refine
    { owner := hs.owner
      busy := hs.busy_suspend hready _
      held := hs.held
      acquired := hs.acquired_suspend (by simp)
      nodup := hs.nodup
      edge := hs.edge
      acyclic := hs.acyclic.mono ?_ }
  · rintro i j ⟨hij, hlive⟩
    refine ⟨hij, ?_⟩
    rintro ⟨kname, value, hi⟩
    by_cases hit : i = t
    · subst hit; simp [hready.idle] at hi
    · exact hlive ⟨kname, value, by simpa [Sys.suspend, hit] using hi⟩

/-! ## Steps that end a transaction

A deadlock clean-up, a commit and an abort all free the locks of one
transaction, clear its row and column and leave ACTIVE.
-/

/-- What the three sections have in common. -/
structure Released (st st' : Mvcc) (t : TxId) : Prop where
  lockedBy : ∀ k, (st'.store k).lockedBy =
    if (st.store k).lockedBy = some t then none else (st.store k).lockedBy
  waitFor : ∀ i j, st'.waitFor i j = if i = t ∨ j = t then false else st.waitFor i j
  ended : (st'.txs t).state ≠ .active
  writes : (st'.txs t).writes = (st.txs t).writes ∨ (st'.txs t).writes = []
  others : ∀ u, u ≠ t → st'.txs u = st.txs u

theorem Released.lockedBy_iff {st st' : Mvcc} {t : TxId} (h : Released st st' t) (k : Key)
    (u : TxId) :
    (st'.store k).lockedBy = some u ↔ (st.store k).lockedBy = some u ∧ u ≠ t := by
  rw [h.lockedBy]
  by_cases hown : (st.store k).lockedBy = some t
  · rw [if_pos hown, hown]
    simp only [reduceCtorEq, Option.some.injEq, false_iff, not_and, not_not]
    exact Eq.symm
  · rw [if_neg hown]
    constructor
    · intro hu
      refine ⟨hu, ?_⟩
      rintro rfl
      exact hown hu
    · exact And.left

theorem released_deadlockSection (st : Mvcc) (t : TxId) :
    Released st (deadlockSection st t) t :=
  { lockedBy := fun k => deadlockSection_lockedBy st t k
    waitFor := fun i j => deadlockSection_waitFor st t i j
    ended := by simp
    writes := Or.inl (by simp)
    others := fun u hu => by simp [hu] }

theorem released_commitSection (st : Mvcc) (t : TxId) (ts : Nat) :
    Released st (commitSection st t ts) t :=
  { lockedBy := fun k => commitSection_lockedBy st t k ts
    waitFor := fun i j => commitSection_waitFor st t ts i j
    ended := by simp
    writes := Or.inl (by simp)
    others := fun u hu => by simp [hu] }

theorem released_abortSection (st : Mvcc) (t : TxId) :
    Released st (abortSection st t) t :=
  { lockedBy := fun k => abortSection_lockedBy st t k
    waitFor := fun i j => abortSection_waitFor st t i j
    ended := by simp
    writes := Or.inr (by simp)
    others := fun u hu => by simp [hu] }

/-- Ending a transaction keeps the invariant, whichever section does it. -/
theorem LockInv.released {s s' : Sys} (hs : LockInv s) {t : TxId}
    (hrel : Released s.mem s'.mem t) (hidle : s'.pc t = .idle)
    (hpc : ∀ u, u ≠ t → s'.pc u = s.pc u) : LockInv s' := by
  have hkeep : ∀ k u, u ≠ t → (s.mem.store k).lockedBy = some u →
      (s'.mem.store k).lockedBy = some u :=
    fun k u hut hk => (hrel.lockedBy_iff k u).mpr ⟨hk, hut⟩
  have hback : ∀ k u, (s'.mem.store k).lockedBy = some u →
      u ≠ t ∧ (s.mem.store k).lockedBy = some u :=
    fun k u hk => ((hrel.lockedBy_iff k u).mp hk).symm
  have hbusy : ∀ u, s'.pc u ≠ .idle → u ≠ t := by
    rintro u hu rfl
    exact hu hidle
  -- the edges that are left are old ones between other transactions
  have hedge : ∀ i j, s'.mem.waitFor i j = true → i ≠ t ∧ j ≠ t ∧ s.mem.waitFor i j = true := by
    intro i j hij
    rw [hrel.waitFor] at hij
    by_cases hout : i = t ∨ j = t
    · rw [if_pos hout] at hij
      contradiction
    · rw [if_neg hout] at hij
      obtain ⟨hit, hjt⟩ := not_or.mp hout
      exact ⟨hit, hjt, hij⟩
  refine
    { owner := ?_
      busy := ?_
      held := ?_
      acquired := ?_
      nodup := ?_
      edge := ?_
      acyclic := hs.acyclic.mono ?_ }
  · intro k u hk
    obtain ⟨hut, hk⟩ := hback k u hk
    rw [hrel.others u hut]
    exact hs.owner k u hk
  · intro u hu
    have hut := hbusy u hu
    rw [hrel.others u hut]
    exact hs.busy u (by rwa [hpc u hut] at hu)
  · intro u hu k hk
    have hut : u ≠ t := by
      rintro rfl
      exact hrel.ended hu
    rw [hrel.others u hut] at hu hk
    exact hkeep k u hut (hs.held u hu k hk)
  · intro u kname value k hu
    have hut := hbusy u (by simp [hu])
    exact hkeep k u hut (hs.acquired u kname value k (by rwa [hpc u hut] at hu))
  · intro u
    by_cases hut : u = t
    · subst hut
      rcases hrel.writes with hw | hw
      · rw [hw]; exact hs.nodup u
      · simp [hw, bufferedKeys]
    · rw [hrel.others u hut]
      exact hs.nodup u
  · intro i j hij
    obtain ⟨hit, hjt, hold⟩ := hedge i j hij
    obtain ⟨hne, hi, hj, k, hk⟩ := hs.edge i j hold
    rw [hrel.others i hit, hrel.others j hjt]
    exact ⟨hne, hi, hj, k, hkeep k j hjt hk⟩
  · rintro i j ⟨hij, hlive⟩
    obtain ⟨hit, -, hold⟩ := hedge i j hij
    refine ⟨hold, ?_⟩
    rintro ⟨kname, value, hi⟩
    exact hlive ⟨kname, value, (hpc i hit).trans hi⟩

/-! ## Every step, every run -/

theorem lockInv_step {s s' : Sys} {a : Act} (h : Step s a s') (hs : LockInv s) : LockInv s' := by
  cases h with
  | stutter => exact hs
  | silent _ e he => exact hs.congr rfl rfl
  | begin t id hid hidle => exact hs.begin t _
  | acquire t kname value k hready hkey hfree => exact hs.acquire hready hfree kname value
  | block t owner kname value k hready hkey howner hne hdetect =>
      exact hs.block hready howner hne hdetect _
  | deadlock t owner kname value k hready hkey howner hne hdetect =>
      exact hs.deadlock hready howner hne kname value
  | buffer t kname value k writes hpc hwrites => exact hs.buffer hpc hwrites _
  | bufferFull t kname value k hpc hwrites => exact absurd hwrites (hs.buffer_not_full t k value)
  | cleanup t kname value hpc =>
      exact hs.released (released_deadlockSection s.mem t) (by simp [Sys.finish])
        (fun u hu => by simp [Sys.finish, hu])
  | draw t hready => exact hs.draw hready _
  | install t ts hpc =>
      exact hs.released (released_commitSection s.mem t ts) (by simp [Sys.finish])
        (fun u hu => by simp [Sys.finish, hu])
  | abort t hidle =>
      exact hs.released (released_abortSection s.mem t) hidle (fun u _ => rfl)

theorem lockInv_run (as : List Act) : LockInv (Sys.init.run as) :=
  Sys.run_induction Sys.init as (fun _ _ _ _ h hs => lockInv_step h hs) lockInv_init

/-! ## Between calls made one at a time -/

theorem tryAcquireLock_txs (st : Mvcc) (t : TxId) (k : Key) :
    (tryAcquireLock st t k).2.txs = st.txs := by
  unfold tryAcquireLock
  split
  · rfl
  · split
    · rfl
    · split <;> rfl

/-- The state between two calls of a sequence satisfies the invariant. -/
theorem lockInv_runCalls (calls : List Call) :
    LockInv (Sys.atRest (runCalls calls).1 (runCalls calls).2) := by
  have h := lockInv_run (sequential calls)
  rwa [run_sequential] at h

/-- With every thread between calls the wait-for matrix itself is acyclic. -/
theorem LockInv.acyclic_atRest {st : Mvcc} {hist : List Entry}
    (hs : LockInv (Sys.atRest st hist)) : Acyclic (Waits st.waitFor) := by
  refine hs.acyclic.mono (fun i j hij => ⟨hij, ?_⟩)
  exact not_doomed_of_idle rfl

/-- **The lock manager between calls.**  After any sequence of calls: key locks
belong to ACTIVE transactions; the keys an ACTIVE transaction has buffered are
distinct and locked by it, so two ACTIVE transactions share none and a `tx_write`
never finds its buffer full; every wait-for edge joins two different ACTIVE
transactions and ends at the holder of a lock; and the edges form no cycle. -/
theorem lockManager (calls : List Call) :
    let st := (runCalls calls).1
    (∀ k t, (st.store k).lockedBy = some t → (st.txs t).state = .active) ∧
    (∀ t, (st.txs t).state = .active →
      (bufferedKeys (st.txs t).writes).Nodup ∧
        ∀ k ∈ bufferedKeys (st.txs t).writes, (st.store k).lockedBy = some t) ∧
    (∀ t u, t ≠ u → (st.txs t).state = .active → (st.txs u).state = .active →
      ∀ k ∈ bufferedKeys (st.txs t).writes, k ∉ bufferedKeys (st.txs u).writes) ∧
    (∀ t k value, bufferEntry ((tryAcquireLock st t k).2.txs t).writes k value ≠ none) ∧
    (∀ i j, st.waitFor i j = true →
      i ≠ j ∧ (st.txs i).state = .active ∧ (st.txs j).state = .active ∧
        ∃ k, (st.store k).lockedBy = some j) ∧
    Acyclic (Waits st.waitFor) := by
  have hinv := lockInv_runCalls calls
  refine ⟨hinv.owner, fun t ht => ⟨hinv.nodup t, hinv.held t ht⟩, ?_, ?_, hinv.edge,
    hinv.acyclic_atRest⟩
  · intro t u htu ht hu k hkt hku
    have hown : some t = some u := (hinv.held t ht k hkt).symm.trans (hinv.held u hu k hku)
    exact htu (Option.some.inj hown)
  · intro t k value
    rw [tryAcquireLock_txs]
    exact hinv.buffer_not_full t k value

end SystemsInC.Ports.MvccLocks
