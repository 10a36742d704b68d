import SystemsInC.Ports.MvccSnapshot

/-!
# Two writers of one key

`tx_write` locks the key until its transaction ends, and that is all the program
does about two writers: nobody compares a `start_ts` with the head of the chain.
So the periods in which two committed transactions hold a key are disjoint
(`writers_apart`), but the second of them may have begun before the first
committed, and then it replaces a version that its snapshot does not contain.
-/

namespace SystemsInC.Ports.MvccLostUpdate

open SystemsInC.Verified.CString
open SystemsInC.Ports.MvccStore
open SystemsInC.Ports.MvccInterleaving
open SystemsInC.Ports.MvccLocks
open SystemsInC.Ports.MvccChains
open SystemsInC.Ports.MvccHistory
open SystemsInC.Ports.MvccSnapshot

/-- The history at the second of two commits: the first after `cs₁`, the second
after `cs₂` as well. -/
def untilSecondCommit (cs₁ cs₂ : List Call) (t : TxId) : List Call :=
  cs₁ ++ .txCommit (some t) :: cs₂

/-- After `cs₁` transaction `t` commits, after `cs₂` transaction `u` does, and
both have a write to `k` in their buffers. -/
structure BothCommit (cs₁ cs₂ : List Call) (t u : TxId) (k : Key) : Prop where
  first : (txCommit (runCalls cs₁).1 (some t)).1 = 0
  firstWrote : (lastOwnWrite (runCalls cs₁).2 t k).isSome
  second : (txCommit (runCalls (untilSecondCommit cs₁ cs₂ t)).1 (some u)).1 = 0
  secondWrote : (lastOwnWrite (runCalls (untilSecondCommit cs₁ cs₂ t)).2 u k).isSome

theorem active_of_txCommit {st : Mvcc} {t : TxId} (h : (txCommit st (some t)).1 = 0) :
    (st.txs t).state = .active := by
  by_contra hactive
  simp [txCommit, hactive] at h

theorem draws_txCommit {st : Mvcc} {t : TxId} (h : (st.txs t).state = .active) :
    (txCommit st (some t)).2.2.draws = st.draws + 1 := by
  simp [txCommit, h, Mvcc.fetchAddTs]

theorem not_active_txCommit {st : Mvcc} {t : TxId} (h : (st.txs t).state = .active) :
    ((txCommit st (some t)).2.2.txs t).state ≠ .active := by
  simp [txCommit, h]

theorem runCalls_untilSecondCommit (cs₁ cs₂ : List Call) (t : TxId) :
    runCalls (untilSecondCommit cs₁ cs₂ t) =
      performAll cs₂ ((perform (runCalls cs₁).1 (.txCommit (some t))).1,
        (perform (runCalls cs₁).1 (.txCommit (some t))).2 :: (runCalls cs₁).2) :=
  performAll_append cs₁ _ (initStore, [])

/-! ## Calls that do not begin a transaction -/

/-- Without `begin_tx` a transaction that is ACTIVE in the end was all along. -/
theorem active_of_performAll {u : TxId} (calls : List Call)
    (hno : ∀ id, Call.beginTx id ∈ calls → txOfId id ≠ some u) (s : Mvcc × List Entry)
    (hactive : ((performAll calls s).1.txs u).state = .active) :
    (s.1.txs u).state = .active := by
  have hrun := run_sequential_atRest calls s
  have h := Sys.run_induction
    (P := fun r => (r.mem.txs u).state = .active → (s.1.txs u).state = .active)
    (Sys.atRest s.1 s.2) (sequential calls)
    (fun a ha r r' hstep hr hu => hr (hstep.active_before (by
      rintro ⟨id, rfl, hid⟩
      exact hno id (mem_of_call_mem_sequential ha) hid) hu))
    (fun hu => hu)
  rw [hrun] at h
  exact h hactive

theorem draws_le_performAll (calls : List Call) (s : Mvcc × List Entry) :
    s.1.draws ≤ (performAll calls s).1.draws := by
  have h := Sys.draws_le_run (Sys.atRest s.1 s.2) (sequential calls)
  rw [run_sequential_atRest] at h
  exact h

/-- A `start_ts` drawn after `b` increments stays above `b`. -/
theorem lt_startTs_performAll {u : TxId} {b : Nat} (calls : List Call) (s : Mvcc × List Entry)
    (hb : b ≤ s.1.draws) (hstart : b < (s.1.txs u).startTs)
    (hwrap : NoWrap (performAll calls s).1) :
    b < ((performAll calls s).1.txs u).startTs := by
  have h := Sys.run_induction
    (P := fun r => NoWrap r.mem → b ≤ r.mem.draws ∧ b < (r.mem.txs u).startTs)
    (Sys.atRest s.1 s.2) (sequential calls)
    (fun a _ r r' hstep hr hw => by
      have hle := hstep.draws_le
      have hw' : NoWrap r.mem := Nat.lt_of_le_of_lt hle hw
      obtain ⟨hdraws, hlt⟩ := hr hw'
      rcases hstep.startTs_cases u with hkeep | ⟨hdrawn, -⟩
      · rw [hkeep]
        omega
      · rw [hdrawn, globalTs_of_noWrap hw']
        omega)
    (fun _ => ⟨hb, hstart⟩)
  rw [run_sequential_atRest] at h
  exact (h hwrap).2

/-- An ACTIVE transaction that has written a key holds its lock. -/
theorem lockedBy_of_wrote (cs : List Call) {v : TxId} {k : Key}
    (hv : ((runCalls cs).1.txs v).state = .active)
    (hwrote : (lastOwnWrite (runCalls cs).2 v k).isSome) :
    ((runCalls cs).1.store k).lockedBy = some v := by
  have hlock := lockInv_runCalls cs
  have hhist := histInv_run (sequential cs)
  rw [run_sequential] at hhist
  refine hlock.held v hv k ?_
  by_contra hk
  have hown := hhist.own v hv k
  rw [show buffered ((Sys.atRest (runCalls cs).1 (runCalls cs).2).mem.txs v).writes k =
    none from (buffered_eq_none_iff _ k).mpr hk] at hown
  have hnone : lastOwnWrite (runCalls cs).2 v k = none :=
    Option.map_eq_none_iff.mp hown.symm
  simp [hnone] at hwrote

/-- A transaction that begins after a commit starts above its timestamp. -/
theorem commitTs_lt_startTs {cs₁ cs₂ : List Call} {t u : TxId} {id : Int}
    (hactive : ((runCalls cs₁).1.txs t).state = .active) (hmem : Call.beginTx id ∈ cs₂)
    (hid : txOfId id = some u) (hwrap : NoWrap (runCalls (untilSecondCommit cs₁ cs₂ t)).1) :
    (runCalls cs₁).1.globalTs <
      ((runCalls (untilSecondCommit cs₁ cs₂ t)).1.txs u).startTs := by
  obtain ⟨as, bs, rfl⟩ := List.append_of_mem hmem
  rw [runCalls_untilSecondCommit, performAll_append] at hwrap ⊢
  generalize hs : performAll as ((perform (runCalls cs₁).1 (.txCommit (some t))).1,
    (perform (runCalls cs₁).1 (.txCommit (some t))).2 :: (runCalls cs₁).2) = s at hwrap ⊢
  have hdrawn : (runCalls cs₁).1.draws + 1 ≤ s.1.draws := by
    have hle := draws_le_performAll as
      ((perform (runCalls cs₁).1 (.txCommit (some t))).1,
        (perform (runCalls cs₁).1 (.txCommit (some t))).2 :: (runCalls cs₁).2)
    rw [hs] at hle
    exact (draws_txCommit hactive).symm.trans_le hle
  have hbegun : performAll (.beginTx id :: bs) s =
      performAll bs (beginSection s.1 u, (perform s.1 (.beginTx id)).2 :: s.2) := by
    simp [performAll, perform, beginTx, hid]
  rw [hbegun] at hwrap ⊢
  have hwrap' : NoWrap (beginSection s.1 u) :=
    Nat.lt_of_le_of_lt (draws_le_performAll bs (beginSection s.1 u, _)) hwrap
  have hwrap₀ : NoWrap s.1 := by
    unfold NoWrap at hwrap' ⊢
    rw [beginSection_draws] at hwrap'
    omega
  have hwrap₁ : NoWrap (runCalls cs₁).1 := by
    unfold NoWrap at hwrap₀ ⊢
    omega
  rw [globalTs_of_noWrap hwrap₁]
  apply lt_startTs_performAll bs _ _ _ hwrap
  · rw [beginSection_draws]
    omega
  · rw [beginSection_txs, Function.update_self]
    show 1 + (runCalls cs₁).1.draws < s.1.globalTs
    rw [globalTs_of_noWrap hwrap₀]
    omega

/-- A transaction that stays ACTIVE over the commit of a writer has not written its
key. -/
theorem not_wrote_of_active {cs₁ cs₂ : List Call} {t u : TxId} {k : Key}
    (h : BothCommit cs₁ cs₂ t u k)
    (hno : ∀ id, Call.beginTx id ∈ cs₂ → txOfId id ≠ some u) :
    lastOwnWrite (runCalls cs₁).2 u k = none := by
  have hactive := active_of_txCommit h.first
  have hactive₂ := active_of_txCommit h.second
  rw [runCalls_untilSecondCommit] at hactive₂
  -- `u` was ACTIVE when `t` committed, so it is another transaction
  have hu : ((txCommit (runCalls cs₁).1 (some t)).2.2.txs u).state = .active :=
    active_of_performAll cs₂ hno _ hactive₂
  have hut : u ≠ t := by
    rintro rfl
    exact not_active_txCommit hactive hu
  have hu₁ : ((runCalls cs₁).1.txs u).state = .active := by
    simpa [txCommit, hactive, hut, Mvcc.fetchAddTs] using hu
  rw [← Option.not_isSome_iff_eq_none]
  intro hwrote
  have howner : some t = some u :=
    (lockedBy_of_wrote cs₁ hactive h.firstWrote).symm.trans (lockedBy_of_wrote cs₁ hu₁ hwrote)
  exact hut (Option.some.inj howner).symm

/-- **The periods in which two committed writers hold a key are disjoint.**  If
`t` commits first, then either `u` began after that, with a `start_ts` above the
commit timestamp of `t`, or no `tx_write` of `u` to the key had returned `0`
before. -/
theorem writers_apart (cs₁ cs₂ : List Call) (t u : TxId) (k : Key)
    (h : BothCommit cs₁ cs₂ t u k) :
    ((∃ id, Call.beginTx id ∈ cs₂ ∧ txOfId id = some u) ∧
      (NoWrap (runCalls (untilSecondCommit cs₁ cs₂ t)).1 →
        (runCalls cs₁).1.globalTs <
          ((runCalls (untilSecondCommit cs₁ cs₂ t)).1.txs u).startTs)) ∨
    lastOwnWrite (runCalls cs₁).2 u k = none := by
  by_cases hbegin : ∃ id, Call.beginTx id ∈ cs₂ ∧ txOfId id = some u
  · left
    refine ⟨hbegin, ?_⟩
    intro hwrap
    obtain ⟨id, hmem, hid⟩ := hbegin
    exact commitTs_lt_startTs (active_of_txCommit h.first) hmem hid hwrap
  · right
    apply not_wrote_of_active h
    intro id hmem hid
    exact hbegin ⟨id, hmem, hid⟩

/-- Transaction 1 writes and commits `key0` while transaction 0 is ACTIVE. -/
def overlapFirst : List Call :=
  [.beginTx 0, .beginTx 1, .txWrite (some 1) (keyName 0) [97, 0]]

/-- Transaction 0 then writes `key0` too. -/
def overlapSecond : List Call := [.txWrite (some 0) (keyName 0) [98, 0]]

theorem writers_apart_overlap :
    ((∃ id, Call.beginTx id ∈ overlapSecond ∧ txOfId id = some 0) ∧
      (NoWrap (runCalls (untilSecondCommit overlapFirst overlapSecond 1)).1 →
        (runCalls overlapFirst).1.globalTs <
          ((runCalls (untilSecondCommit overlapFirst overlapSecond 1)).1.txs 0).startTs)) ∨
    lastOwnWrite (runCalls overlapFirst).2 0 0 = none := by
  refine writers_apart overlapFirst overlapSecond 1 0 0 ?_
  exact
    { first := by decide
      firstWrote := by decide
      second := by decide
      secondWrote := by decide }

/-- Their lifetimes overlap: transaction 0 replaces a version that was committed
after its own snapshot. -/
theorem not_lifetimes_apart_overlap :
    ¬ ∀ (cs₁ cs₂ : List Call) (t u : TxId) (k : Key), BothCommit cs₁ cs₂ t u k →
      (runCalls cs₁).1.globalTs ≤
          ((runCalls (untilSecondCommit cs₁ cs₂ t)).1.txs u).startTs ∨
        (runCalls (untilSecondCommit cs₁ cs₂ t)).1.globalTs ≤
          ((runCalls cs₁).1.txs t).startTs := by
  intro h
  have hapart := h overlapFirst overlapSecond 1 0 0
    { first := by decide
      firstWrote := by decide
      second := by decide
      secondWrote := by decide }
  revert hapart
  decide

end SystemsInC.Ports.MvccLostUpdate
