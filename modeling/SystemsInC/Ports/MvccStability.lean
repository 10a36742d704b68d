import SystemsInC.Ports.MvccSnapshot

/-!
# When reads are stable

A commit draws its timestamp before it takes the lock under which it installs
its writes.  A transaction that begins between the two has a `start_ts` above a
commit that is not in the chains yet, so its snapshot grows when that commit is
installed.  `Settled` says that no such commit of the key is pending.  Once it
holds for an ACTIVE transaction it goes on holding, since every later timestamp
exceeds `start_ts`, and the reads of the key are stable.
-/

namespace SystemsInC.Ports.MvccStability

open SystemsInC.Verified.CString
open SystemsInC.Verified.LatestBefore
open SystemsInC.Ports.MvccStore
open SystemsInC.Ports.MvccInterleaving
open SystemsInC.Ports.MvccLocks
open SystemsInC.Ports.MvccChains
open SystemsInC.Ports.MvccHistory
open SystemsInC.Ports.MvccSnapshot

/-! ## Settled snapshots -/

/-- No thread that drew a commit timestamp up to `ts` has yet to install `k`. -/
def Settled (s : Sys) (ts : Nat) (k : Key) : Prop :=
  ∀ u commitTs, s.pc u = .committing commitTs → commitTs ≤ ts →
    k ∉ bufferedKeys (s.mem.txs u).writes

/-- What the reads of `k` by transaction `t` depend on, pinned to `ts`, the
buffered value `own` and the commit `src`. -/
structure Frozen (t : TxId) (k : Key) (ts : Nat) (own : Option Bytes) (src : Option Commit)
    (s : Sys) : Prop where
  startTs : (s.mem.txs t).startTs = ts
  buffer : buffered (s.mem.txs t).writes k = own
  notWriting : ∀ kname value, s.pc t ≠ .acquired kname value k
  settled : Settled s ts k
  source : snapshotSource (commits s.hist) ts k = src

variable {t : TxId} {k : Key} {ts : Nat} {own : Option Bytes} {src : Option Commit}

/-- Between two calls of `t` a settled snapshot is pinned to what it is now. -/
theorem Frozen.of_settled {s : Sys} (hidle : s.pc t = .idle)
    (hsettled : Settled s (s.mem.txs t).startTs k) :
    Frozen t k (s.mem.txs t).startTs (buffered (s.mem.txs t).writes k)
      (snapshotSource (commits s.hist) (s.mem.txs t).startTs k) s where
  startTs := rfl
  buffer := rfl
  notWriting kname value hpc := by simp [hidle] at hpc
  settled := hsettled
  source := rfl

/-- A step that installs nothing, draws nothing and leaves the record of `t`
alone. -/
theorem Frozen.frame {s s' : Sys} (hs : Frozen t k ts own src s)
    (hstart : (s'.mem.txs t).startTs = (s.mem.txs t).startTs)
    (hbuffer : buffered (s'.mem.txs t).writes k = buffered (s.mem.txs t).writes k)
    (hwriting : ∀ kname value, s'.pc t = .acquired kname value k →
      s.pc t = .acquired kname value k)
    (hpending : ∀ u commitTs, s'.pc u = .committing commitTs →
      s.pc u = .committing commitTs ∧ (s'.mem.txs u).writes = (s.mem.txs u).writes)
    (hcommits : commits s'.hist = commits s.hist) : Frozen t k ts own src s' := by
  refine
    { startTs := hstart.trans hs.startTs
      buffer := hbuffer.trans hs.buffer
      notWriting := fun kname value hpc => hs.notWriting kname value (hwriting kname value hpc)
      settled := fun u commitTs hpc hle => ?_
      source := by rw [hcommits]; exact hs.source }
  obtain ⟨hpc', hwrites⟩ := hpending u commitTs hpc
  rw [hwrites]
  exact hs.settled u commitTs hpc' hle

/-- A timestamp drawn now exceeds the `start_ts` of every ACTIVE transaction. -/
theorem Frozen.draw {s : Sys} (hs : Frozen t k ts own src s) (hchain : ChainInv s)
    (hwrap : NoWrap s.mem) (hactive : (s.mem.txs t).state = .active) (u : TxId) :
    Frozen t k ts own src (s.suspend u s.mem.fetchAddTs.2 (.committing s.mem.globalTs)) := by
  refine
    { startTs := hs.startTs
      buffer := hs.buffer
      notWriting := fun kname value hpc => ?_
      settled := fun v commitTs hpc hle => ?_
      source := hs.source }
  · by_cases htu : t = u
    · subst htu
      simp [Sys.suspend] at hpc
    · exact hs.notWriting kname value (by simpa [Sys.suspend, htu] using hpc)
  · by_cases hvu : v = u
    · subst hvu
      simp only [Sys.suspend, Function.update_self, Pc.committing.injEq] at hpc
      have hstarted := (hchain.started t hactive).2
      rw [hs.startTs] at hstarted
      rw [globalTs_of_noWrap hwrap] at hpc
      omega
    · exact hs.settled v commitTs (by simpa [Sys.suspend, hvu] using hpc) hle

/-- Installing either leaves the chain of `k` alone or puts a commit above `ts`
in front of it. -/
theorem Frozen.install {s : Sys} (hs : Frozen t k ts own src s) (hlock : LockInv s)
    (hhist : HistInv s) {u : TxId} {commitTs : Nat} (hpc : s.pc u = .committing commitTs)
    (htu : t ≠ u) :
    Frozen t k ts own src
      (s.finish u (commitSection s.mem u commitTs) (.txCommit (some u) 0 commitTs)) := by
  refine
    { startTs := by simpa [Sys.finish, htu] using hs.startTs
      buffer := by simpa [Sys.finish, htu] using hs.buffer
      notWriting := fun kname value hpc' =>
        hs.notWriting kname value (by simpa [Sys.finish, htu] using hpc')
      settled := fun v ts' hpc' hle => ?_
      source := ?_ }
  · have hvu : v ≠ u := by
      rintro rfl
      simp [Sys.finish] at hpc'
    simp only [Sys.finish, Function.update_of_ne hvu, commitSection_txs] at hpc' ⊢
    exact hs.settled v ts' hpc' hle
  · have hactive : (s.mem.txs u).state = .active := hlock.busy u (by simp [hpc])
    have hown := hhist.own u hactive k
    have hsource : latest Commit.commitTs ts (commitsOf (commits s.hist) k) = src := hs.source
    simp only [Sys.finish, commits, if_true, snapshotSource]
    rw [commitsOf_cons]
    by_cases hle : commitTs ≤ ts
    · have hfree := (buffered_eq_none_iff _ k).mpr (hs.settled u commitTs hpc hle)
      have hwrote : lastOwnWrite s.hist u k = none := by
        rw [hfree] at hown
        exact Option.map_eq_none_iff.mp hown.symm
      simpa [hwrote] using hsource
    · split
      · rw [latest_cons_of_lt _ (by simpa using hle)]
        exact hsource
      · exact hsource

/-- Between the two reads the program neither begins `t` nor lets it write `k`. -/
structure Leaves (a : Act) (t : TxId) (k : Key) : Prop where
  noBegin : ¬ a.Begins t
  noWrite : ∀ kname value, keyOf kname = some k → a ≠ .call (.txWrite (some t) kname value)

/-- A thread that is at some place after another one moved was there before. -/
theorem pc_of_update {s : Sys} {u v : TxId} {p q : Pc} (hpq : p ≠ q)
    (h : Function.update s.pc u p v = q) : v ≠ u ∧ s.pc v = q := by
  have hvu : v ≠ u := by
    rintro rfl
    exact hpq (by simpa using h)
  exact ⟨hvu, by simpa [hvu] using h⟩

/-- Another transaction begins or aborts. -/
theorem Frozen.record {s : Sys} (hs : Frozen t k ts own src s) {u : TxId} {mem : Mvcc} {e : Entry}
    (htu : t ≠ u) (hidle : s.pc u = .idle) (hothers : ∀ v ≠ u, mem.txs v = s.mem.txs v)
    (hcommits : commits (e :: s.hist) = commits s.hist) :
    Frozen t k ts own src (s.record mem e) := by
  have hsame := hothers t htu
  refine hs.frame (congrArg _ hsame) (congrArg (fun tx => buffered tx.writes k) hsame)
    (fun _ _ hpc => hpc) (fun v commitTs hpc => ⟨hpc, ?_⟩) hcommits
  have hvu : v ≠ u := by
    rintro rfl
    rw [show s.pc v = .committing commitTs from hpc] at hidle
    contradiction
  exact congrArg _ (hothers v hvu)

/-- A call ends that does not commit. -/
theorem Frozen.finish {s : Sys} (hs : Frozen t k ts own src s) {u : TxId} {mem : Mvcc} {e : Entry}
    (hothers : ∀ v ≠ u, mem.txs v = s.mem.txs v)
    (hself : t = u → (mem.txs t).startTs = (s.mem.txs t).startTs ∧
      buffered (mem.txs t).writes k = buffered (s.mem.txs t).writes k)
    (hcommits : commits (e :: s.hist) = commits s.hist) :
    Frozen t k ts own src (s.finish u mem e) := by
  have ⟨hstart, hbuffer⟩ : (mem.txs t).startTs = (s.mem.txs t).startTs ∧
      buffered (mem.txs t).writes k = buffered (s.mem.txs t).writes k := by
    by_cases htu : t = u
    · exact hself htu
    · rw [hothers t htu]
      exact ⟨rfl, rfl⟩
  refine hs.frame hstart hbuffer (fun _ _ hpc => (pc_of_update (by simp) hpc).2)
    (fun v commitTs hpc => ?_) hcommits
  have ⟨hvu, hpc'⟩ := pc_of_update (by simp) hpc
  exact ⟨hpc', congrArg _ (hothers v hvu)⟩

/-- A lock for another key, or for another transaction. -/
theorem Frozen.acquire {s : Sys} (hs : Frozen t k ts own src s) {u : TxId} {kname value : Bytes}
    {k' : Key} (hother : t = u → k' ≠ k) :
    Frozen t k ts own src (s.suspend u (acquireLock s.mem u k') (.acquired kname value k')) := by
  refine hs.frame rfl rfl (fun kname' value' hpc => ?_)
    (fun v commitTs hpc => ⟨(pc_of_update (by simp) hpc).2, rfl⟩) rfl
  by_cases htu : t = u
  · subst htu
    simp only [Sys.suspend, Function.update_self, Pc.acquired.injEq] at hpc
    exact absurd hpc.2.2 (hother rfl)
  · simpa [Sys.suspend, htu] using hpc

theorem frozen_step {s s' : Sys} {a : Act} (h : Step s a s') (ha : Leaves a t k)
    (hlock : LockInv s) (hnames : NamesFixed s.mem) (hchain : ChainInv s) (hhist : HistInv s)
    (hwrap : NoWrap s.mem) (hactive : (s'.mem.txs t).state = .active)
    (hs : Frozen t k ts own src s) : Frozen t k ts own src s' := by
  have hbefore := h.active_before ha.noBegin hactive
  cases h with
  | stutter => exact hs
  | silent _ e he =>
      exact hs.frame rfl rfl (fun _ _ hpc => hpc) (fun _ _ hpc => ⟨hpc, rfl⟩)
        (commits_silent he s.hist)
  | begin u id hid hidle =>
      have htu : t ≠ u := by
        rintro rfl
        exact ha.noBegin ⟨id, rfl, hid⟩
      exact hs.record htu hidle (fun v hvu => by simp [hvu]) rfl
  | acquire u kname value k' hready hkey hfree =>
      refine hs.acquire ?_
      rintro rfl rfl
      rw [findKeyIndex_eq hnames] at hkey
      exact ha.noWrite kname value hkey rfl
  | block u owner kname value k' hready hkey howner hne hdetect =>
      exact hs.frame rfl rfl (fun _ _ hpc => hpc) (fun _ _ hpc => ⟨hpc, rfl⟩) rfl
  | deadlock u owner kname value k' hready hkey howner hne hdetect =>
      exact hs.frame rfl rfl (fun _ _ hpc => (pc_of_update (by simp) hpc).2)
        (fun v commitTs hpc => ⟨(pc_of_update (by simp) hpc).2, rfl⟩) rfl
  | buffer u kname value k' writes hpc hwrites =>
      refine hs.finish (fun v hvu => by simp [hvu]) ?_ rfl
      rintro rfl
      have hkk : k' ≠ k := by
        rintro rfl
        exact hs.notWriting kname value hpc
      simp [bufferEntry_buffered hwrites, hkk]
  | bufferFull u kname value k' hpc hwrites =>
      exact absurd hwrites (hlock.buffer_not_full u k' value)
  | cleanup u kname value hpc =>
      have htu : t ≠ u := by
        rintro rfl
        simp [Sys.finish] at hactive
      exact hs.finish (fun v hvu => by simp [hvu]) (fun heq => absurd heq htu) rfl
  | draw u hready => exact hs.draw hchain hwrap hbefore u
  | install u commitTs hpc =>
      have htu : t ≠ u := by
        rintro rfl
        simp [Sys.finish] at hactive
      exact hs.install hlock hhist hpc htu
  | abort u hidle =>
      have htu : t ≠ u := by
        rintro rfl
        simp [Sys.record] at hactive
      exact hs.record htu hidle (fun v hvu => by simp [hvu]) rfl

/-- What the reads of `k` depend on stays pinned until `t` ends. -/
theorem frozen_run {s : Sys} (as : List Act) (has : ∀ a ∈ as, Leaves a t k) (hlock : LockInv s)
    (hnames : NamesFixed s.mem) (hchain : ChainInv s) (hhist : HistInv s)
    (hwrap : NoWrap (s.run as).mem) (hactive : ((s.run as).mem.txs t).state = .active)
    (hs : Frozen t k ts own src s) : Frozen t k ts own src (s.run as) := by
  have h := Sys.run_induction
    (P := fun s => LockInv s ∧ NamesFixed s.mem ∧ HistInv s ∧ (NoWrap s.mem → ChainInv s ∧
      ((s.mem.txs t).state = .active → Frozen t k ts own src s)))
    s as
    (fun a ha s s' hstep hs => by
      obtain ⟨hlock, hnames, hhist, hrest⟩ := hs
      refine ⟨lockInv_step hstep hlock, hstep.namesFixed hnames,
        histInv_step hstep hlock hnames hhist, fun hw => ?_⟩
      have hw' : NoWrap s.mem := Nat.lt_of_le_of_lt hstep.draws_le hw
      obtain ⟨hchain, hfrozen⟩ := hrest hw'
      refine ⟨chainInv_step hstep hlock hw hchain, fun hactive => ?_⟩
      exact frozen_step hstep (has a ha) hlock hnames hchain hhist hw' hactive
        (hfrozen (hstep.active_before (has a ha).noBegin hactive)))
    ⟨hlock, hnames, hhist, fun _ => ⟨hchain, fun _ => hs⟩⟩
  exact (h.2.2.2 hwrap).2 hactive

/-- The condition is exact: as long as a commit up to `ts` is pending on `k`, its
installation changes the source of the reads of `k` at `ts`. -/
theorem source_changes_of_not_settled {s : Sys} (hlock : LockInv s) (hchain : ChainInv s)
    (hhist : HistInv s) (h : ¬ Settled s ts k) :
    ∃ u, snapshotSource (commits (s.step (.resume u)).hist) ts k ≠
      snapshotSource (commits s.hist) ts k := by
  unfold Settled at h
  push Not at h
  obtain ⟨u, commitTs, hpc, hle, hk⟩ := h
  refine ⟨u, ?_⟩
  have hactive : (s.mem.txs u).state = .active := hlock.busy u (by simp [hpc])
  have hwrote : (lastOwnWrite s.hist u k).isSome := by
    have hown := hhist.own u hactive k
    cases hlast : lastOwnWrite s.hist u k with
    | none =>
        rw [hlast, Option.map_none] at hown
        exact absurd hk ((buffered_eq_none_iff _ k).mp hown)
    | some value => rfl
  have hnew : ∃ c, snapshotSource (commits (s.step (.resume u)).hist) ts k = some c ∧
      c.commitTs = commitTs := by
    refine ⟨⟨u, openStart s.hist u, commitTs, lastOwnWrite s.hist u⟩, ?_, rfl⟩
    simp [Sys.step, Sys.resume, hpc, Sys.finish, commits, snapshotSource, commitsOf_cons, hwrote,
      latest, hle]
  obtain ⟨c, hc, hcts⟩ := hnew
  rw [hc]
  intro heq
  -- the old source is in the chain, so it is older than the pending timestamp
  have hmem : c ∈ commitsOf (commits s.hist) k := List.mem_of_find?_eq_some heq.symm
  have hstamp : c.stamp k ∈ (s.mem.store k).versions.map versionStamp := by
    rw [hhist.chain k]
    exact List.mem_append_left _ (List.mem_map_of_mem hmem)
  obtain ⟨v, hv, hvc⟩ := List.mem_map.mp hstamp
  have hbegin : v.beginTs = c.commitTs := congrArg Prod.fst hvc
  have hold := (hchain.pending u commitTs hpc).2.2 k hk v hv
  omega

/-! ## Two reads -/

/-- The schedule up to the second read: `as₁`, the first read, `as₂`. -/
def untilSecondRead (as₁ as₂ : List Act) (t : TxId) (kname : Bytes) (outLen : Nat) : List Act :=
  as₁ ++ .call (.txRead (some t) kname outLen) :: as₂

/-- Thread `t` makes the same call of `tx_read` after `as₁` and after `as₂`, and
in between its transaction is not begun again and does not write the key. -/
structure TwoReads (as₁ as₂ : List Act) (t : TxId) (kname : Bytes) (k : Key)
    (outLen : Nat) : Prop where
  key : keyOf kname = some k
  first : Ready (Sys.init.run as₁) t
  second : Ready (Sys.init.run (untilSecondRead as₁ as₂ t kname outLen)) t
  between : ∀ a ∈ as₂, Leaves a t k
  noWrap : NoWrap (Sys.init.run (untilSecondRead as₁ as₂ t kname outLen)).mem

/-- The two reads copy out the same bytes; without an own write these are the
value of the commit with the largest timestamp not above `start_ts`. -/
structure StableRead (as₁ as₂ : List Act) (t : TxId) (kname : Bytes) (k : Key)
    (outLen : Nat) : Prop where
  same : txRead (Sys.init.run (untilSecondRead as₁ as₂ t kname outLen)).mem (some t) kname outLen =
    txRead (Sys.init.run as₁).mem (some t) kname outLen
  succeeds : (txRead (Sys.init.run as₁).mem (some t) kname outLen).1 = 0
  snapshot : lastOwnWrite (Sys.init.run as₁).hist t k = none →
    ∃ src, IsSnapshot (commits (Sys.init.run (untilSecondRead as₁ as₂ t kname outLen)).hist)
        ((Sys.init.run as₁).mem.txs t).startTs k src ∧
      (txRead (Sys.init.run as₁).mem (some t) kname outLen).2 =
        strncpy (strncpy (sourceValue k src) valueLen) outLen

/-- **Reads of a settled snapshot are stable**, in every interleaving. -/
theorem read_stable (as₁ as₂ : List Act) (t : TxId) (kname : Bytes) (k : Key) (outLen : Nat)
    (h : TwoReads as₁ as₂ t kname k outLen)
    (hsettled : Settled (Sys.init.run as₁) ((Sys.init.run as₁).mem.txs t).startTs k) :
    StableRead as₁ as₂ t kname k outLen := by
  obtain ⟨hkey, hfirst, hsecond, hbetween, hwrap⟩ := h
  have hsplit : Sys.init.run (untilSecondRead as₁ as₂ t kname outLen) =
      (Sys.init.run as₁).run (.call (.txRead (some t) kname outLen) :: as₂) :=
    Sys.run_append Sys.init as₁ _
  have hwrap₂ := hwrap
  have hactive₂ := hsecond.active
  rw [hsplit] at hwrap₂ hactive₂
  have hwrap₁ : NoWrap (Sys.init.run as₁).mem :=
    Nat.lt_of_le_of_lt (Sys.draws_le_run _ _) hwrap₂
  have hnames := Sys.run_namesFixed as₁
  have hlock := lockInv_run as₁
  have hchain := chainInv_run as₁ hwrap₁
  have hhist := histInv_run as₁
  -- the first read leaves the snapshot alone like the actions after it
  have hleaves : ∀ a ∈ .call (.txRead (some t) kname outLen) :: as₂, Leaves a t k := by
    intro a ha
    rcases List.mem_cons.mp ha with rfl | ha
    · exact ⟨by simp [Act.Begins], fun _ _ _ => by simp⟩
    · exact hbetween a ha
  have hlast := frozen_run _ hleaves hlock hnames hchain hhist hwrap₂ hactive₂
    (Frozen.of_settled hfirst.idle hsettled)
  rw [← hsplit] at hlast
  have hvalue₁ := txRead_eq hnames hchain hhist hwrap₁ hfirst.active hkey outLen
  have hvalue₂ := txRead_eq (Sys.run_namesFixed _) (chainInv_run _ hwrap) (histInv_run _) hwrap
    hsecond.active hkey outLen
  have hstored : storedValue (Sys.init.run (untilSecondRead as₁ as₂ t kname outLen)) t k =
      storedValue (Sys.init.run as₁) t k := by
    unfold storedValue
    rw [hlast.buffer, hlast.startTs, hlast.source]
  refine
    { same := by rw [hvalue₁, hvalue₂, hstored]
      succeeds := by rw [hvalue₁]
      snapshot := fun hnone => ?_ }
  have hbuffer : buffered ((Sys.init.run as₁).mem.txs t).writes k = none := by
    rw [hhist.own t hfirst.active k, hnone, Option.map_none]
  refine ⟨_, isSnapshot_snapshotSource (chainInv_run _ hwrap) (histInv_run _) _ k, ?_⟩
  rw [hlast.source, hvalue₁, storedValue, hbuffer]

/-- Transaction 1 has drawn its commit timestamp for `key0` and not installed it
when transaction 0 begins. -/
def pendingCommit : List Act :=
  [.call (.beginTx 1), .call (.txWrite (some 1) (keyName 0) [97, 0]), .resume 1,
   .call (.txCommit (some 1)), .call (.beginTx 0)]

theorem leaves_resume (u t : TxId) (k : Key) : ∀ a ∈ [Act.resume u], Leaves a t k := by
  intro a ha
  obtain rfl := List.mem_singleton.mp ha
  constructor
  · rintro ⟨id, hid, -⟩
    contradiction
  · intro kname value hkey
    exact Act.noConfusion

theorem twoReads_pendingCommit : TwoReads pendingCommit [.resume 1] 0 (keyName 0) 0 32 :=
  { key := by decide
    first := ⟨by decide, by decide⟩
    second := ⟨by decide, by decide⟩
    between := leaves_resume 1 0 0
    noWrap := by
      unfold NoWrap
      decide }

/-- The installation of the pending commit changes what transaction 0 reads. -/
theorem not_read_stable_pendingCommit :
    ¬ ∀ as₁ as₂ t kname k outLen, TwoReads as₁ as₂ t kname k outLen →
      StableRead as₁ as₂ t kname k outLen := by
  intro h
  have hsame := (h _ _ _ _ _ _ twoReads_pendingCommit).same
  revert hsame
  decide

/-- The other order: transaction 0 begins before transaction 1 draws. -/
def laterCommit : List Act :=
  [.call (.beginTx 1), .call (.txWrite (some 1) (keyName 0) [97, 0]), .resume 1,
   .call (.beginTx 0), .call (.txCommit (some 1))]

theorem read_stable_laterCommit : StableRead laterCommit [.resume 1] 0 (keyName 0) 0 32 := by
  apply read_stable laterCommit [.resume 1] 0 (keyName 0) 0 32
  · exact
      { key := by decide
        first := ⟨by decide, by decide⟩
        second := ⟨by decide, by decide⟩
        between := leaves_resume 1 0 0
        noWrap := by
          unfold NoWrap
          decide }
  · intro u commitTs hpc hle
    have hidle : ∀ u, u ≠ 1 → (Sys.init.run laterCommit).pc u = .idle := by decide
    have hone : u = 1 := by
      by_contra hu
      simp [hidle u hu] at hpc
    subst hone
    have hdrawn : (Sys.init.run laterCommit).pc 1 = .committing 3 := by decide
    have hstart : ((Sys.init.run laterCommit).mem.txs 0).startTs = 2 := by decide
    rw [hdrawn] at hpc
    obtain rfl := Pc.committing.inj hpc
    omega

end SystemsInC.Ports.MvccStability
