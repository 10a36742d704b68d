import SystemsInC.Ports.MvccSnapshot

/-!
# Values as strings

A value goes through three arrays of 32 bytes: the write buffer, the installed
version and the buffer of a reader.  `strncpy` with the whole size of the array
leaves no NUL behind a string of 32 bytes or more, so the arrays hold strings
along exactly those schedules that buffer shorter values only
(`valuesSurvive_iff`).  For 31 bytes there is still room.
-/

namespace SystemsInC.Ports.MvccValues

open SystemsInC.Verified.CString
open SystemsInC.Verified.LatestBefore
open SystemsInC.Ports.MvccStore
open SystemsInC.Ports.MvccInterleaving
open SystemsInC.Ports.MvccLocks
open SystemsInC.Ports.MvccChains
open SystemsInC.Ports.MvccHistory
open SystemsInC.Ports.MvccSnapshot

/-! ## What has to hold -/

/-- One of the first 32 bytes is a NUL. -/
def Terminated (mem : Bytes) : Prop := 0 ∈ mem.take valueLen

instance (mem : Bytes) : Decidable (Terminated mem) := by
  unfold Terminated
  infer_instance

/-- `tx_read` of transaction `t` with a buffer of 32 bytes succeeds with the first
31 bytes of `value` as a string. -/
def ReadsBack (st : Mvcc) (t : TxId) (kname value : Bytes) : Prop :=
  ∃ out, txRead st (some t) kname valueLen = (0, out) ∧ Terminated out ∧
    cstr out = (cstr value).take (valueLen - 1)

/-- The values in a state are strings, and readers get what was written: an ACTIVE
transaction its own last write, and the value of the last commit to the key when
it began after that commit and has not written the key itself. -/
structure ValuesSurvive (s : Sys) : Prop where
  buffers : ∀ t, ∀ e ∈ (s.mem.txs t).writes, Terminated e.2
  versions : ∀ k, ∀ v ∈ (s.mem.store k).versions, Terminated v.value
  outs : ∀ t kname out, txRead s.mem t kname valueLen = (0, out) → Terminated out
  own : ∀ t kname k value, (s.mem.txs t).state = .active → keyOf kname = some k →
    lastOwnWrite s.hist t k = some value → ReadsBack s.mem t kname value
  later : ∀ t ts newer older u id startTs kname k value,
    s.hist = newer ++ .txCommit (some t) 0 ts :: older →
    keyOf kname = some k → lastOwnWrite older t k = some value →
    commitsOf (commits s.hist) k = commitsOf (commits (.txCommit (some t) 0 ts :: older)) k →
    .beginTx id (some u) startTs ∈ newer → (s.mem.txs u).state = .active →
    lastOwnWrite s.hist u k = none → ReadsBack s.mem u kname value

/-- The choice does not let a thread copy 32 bytes or more into its write buffer. -/
def ShortCopy (s : Sys) (a : Act) : Prop :=
  ∀ t kname value k, a = .resume t → s.pc t = .acquired kname value k →
    (cstr value).length < valueLen

theorem terminated_strncpy_iff {value : Bytes} :
    Terminated (strncpy value valueLen) ↔ (cstr value).length < valueLen := by
  rw [Terminated, List.take_of_length_le (by rw [length_strncpy]), zero_mem_strncpy_iff]

/-- A copy of a string is a string. -/
theorem Terminated.copy {mem : Bytes} (h : Terminated mem) :
    Terminated (strncpy mem valueLen) :=
  terminated_strncpy_iff.mpr (length_cstr_lt_of_zero_mem h)

/-! ## The arrays -/

/-- Buffering puts one copy of the value into the buffer. -/
theorem mem_bufferEntry {writes writes' : List (Key × Bytes)} {k : Key} {value : Bytes}
    (h : bufferEntry writes k value = some writes') {e : Key × Bytes} (he : e ∈ writes') :
    e ∈ writes ∨ e.2 = strncpy value valueLen := by
  have hupdate : ∀ ws : List (Key × Bytes), e ∈ updateEntry k value ws →
      e ∈ ws ∨ e.2 = strncpy value valueLen := by
    intro ws
    induction ws with
    | nil => exact fun hmem => .inl hmem
    | cons d ws ih =>
        intro hmem
        rw [updateEntry] at hmem
        split at hmem
        · rcases List.mem_cons.mp hmem with rfl | hmem
          · exact .inr rfl
          · exact .inl (List.mem_cons_of_mem d hmem)
        · rcases List.mem_cons.mp hmem with rfl | hmem
          · exact .inl (by simp)
          · exact (ih hmem).imp_left (List.mem_cons_of_mem d)
  unfold bufferEntry at h
  split at h
  · obtain rfl := Option.some.inj h
    exact hupdate writes he
  · split at h
    · simp at h
    · obtain rfl := Option.some.inj h
      rcases List.mem_append.mp he with hmem | hnew
      · exact .inl hmem
      · exact .inr (by rw [List.mem_singleton.mp hnew])

/-- A buffered value is one of the entries. -/
theorem mem_of_buffered {writes : List (Key × Bytes)} {k : Key} {value : Bytes}
    (h : buffered writes k = some value) : ∃ e ∈ writes, e.2 = value := by
  obtain ⟨e, he, hvalue⟩ := Option.map_eq_some_iff.mp h
  exact ⟨e, List.mem_of_find?_eq_some he, hvalue⟩

/-- The values of a chain after an installation. -/
theorem value_mem_installVersion {ts : Nat} {value : Bytes} {vs : List Version} {v : Version}
    (h : v ∈ installVersion ts value vs) :
    v.value = strncpy value valueLen ∨ ∃ w ∈ vs, w.value = v.value := by
  rcases List.mem_cons.mp h with rfl | h
  · exact .inl rfl
  · cases vs with
    | nil => simp [retireHead] at h
    | cons w rest =>
        rcases List.mem_cons.mp h with rfl | h
        · exact .inr ⟨w, by simp, rfl⟩
        · exact .inr ⟨v, by simp [h], rfl⟩

/-- Buffers and versions hold strings. -/
structure Stored (s : Sys) : Prop where
  buffers : ∀ t, ∀ e ∈ (s.mem.txs t).writes, Terminated e.2
  versions : ∀ k, ∀ v ∈ (s.mem.store k).versions, Terminated v.value

theorem stored_init : Stored Sys.init := by
  refine
    { buffers := by simp [Sys.init, initStore]
      versions := fun k v hv => ?_ }
  rw [List.mem_singleton.mp hv]
  decide

/-- A step that adds neither a buffered value nor a version. -/
theorem Stored.frame {s s' : Sys} (hs : Stored s)
    (hwrites : ∀ t, ∀ e ∈ (s'.mem.txs t).writes, e ∈ (s.mem.txs t).writes)
    (hversions : ∀ k, (s'.mem.store k).versions = (s.mem.store k).versions) : Stored s' :=
  { buffers := fun t e he => hs.buffers t e (hwrites t e he)
    versions := fun k v hv => hs.versions k v (by rwa [hversions] at hv) }

/-- Changing one transaction record touches no other buffer. -/
private theorem writes_of_update (txs : TxId → Transaction) (t : TxId) (tx : Transaction)
    (htx : ∀ e ∈ tx.writes, e ∈ (txs t).writes) (u : TxId) (e : Key × Bytes)
    (he : e ∈ (Function.update txs t tx u).writes) : e ∈ (txs u).writes := by
  by_cases hut : u = t
  · subst hut
    rw [Function.update_self] at he
    exact htx e he
  · rwa [Function.update_of_ne hut] at he

theorem Stored.buffer {s : Sys} (hs : Stored s) {t : TxId} {k : Key} {value : Bytes}
    (hshort : (cstr value).length < valueLen) {writes : List (Key × Bytes)}
    (hwrites : bufferEntry (s.mem.txs t).writes k value = some writes) (e : Entry) :
    Stored (s.finish t (s.mem.setTx t { s.mem.txs t with writes := writes }) e) := by
  refine
    { buffers := fun u d hd => ?_
      versions := hs.versions }
  by_cases hut : u = t
  · subst hut
    simp only [Sys.finish, setTx_txs, Function.update_self] at hd
    rcases mem_bufferEntry hwrites hd with hold | hnew
    · exact hs.buffers u d hold
    · rw [hnew]
      exact terminated_strncpy_iff.mpr hshort
  · simp only [Sys.finish, setTx_txs, Function.update_of_ne hut] at hd
    exact hs.buffers u d hd

theorem Stored.install {s : Sys} (hs : Stored s) (hlock : LockInv s) (t : TxId) (ts : Nat)
    (e : Entry) : Stored (s.finish t (commitSection s.mem t ts) e) := by
  refine
    { buffers := fun u d hd => hs.buffers u d
        (writes_of_update s.mem.txs t { s.mem.txs t with state := .committed }
          (fun _ hmem => hmem) u d hd)
      versions := fun k v hv => ?_ }
  simp only [Sys.finish] at hv
  rw [commitSection_versions s.mem t k ts (hlock.nodup t)] at hv
  cases hbuf : buffered (s.mem.txs t).writes k with
  | none =>
      rw [hbuf] at hv
      exact hs.versions k v hv
  | some value =>
      rw [hbuf] at hv
      rcases value_mem_installVersion hv with hnew | ⟨w, hw, heq⟩
      · obtain ⟨d, hd, hvalue⟩ := mem_of_buffered hbuf
        rw [hnew, ← hvalue]
        exact (hs.buffers t d hd).copy
      · rw [← heq]
        exact hs.versions k w hw

theorem stored_step {s s' : Sys} {a : Act} (h : Step s a s') (hlock : LockInv s)
    (hshort : ShortCopy s a) (hs : Stored s) : Stored s' := by
  cases h with
  | stutter => exact hs
  | silent => exact ⟨hs.1, hs.2⟩
  | begin t id hid hidle =>
      exact hs.frame (writes_of_update s.mem.txs t _ (by simp)) (fun _ => rfl)
  | acquire t kname value k hready hkey hfree =>
      exact hs.frame (fun _ _ he => he) (fun _ => acquireLock_versions s.mem t k _)
  | block t owner kname value k hready hkey howner hne hdetect => exact ⟨hs.1, hs.2⟩
  | deadlock t owner kname value k hready hkey howner hne hdetect => exact ⟨hs.1, hs.2⟩
  | buffer t kname value k writes hpc hwrites =>
      exact hs.buffer (hshort t kname value k rfl hpc) hwrites _
  | bufferFull t kname value k hpc hwrites => exact ⟨hs.1, hs.2⟩
  | cleanup t kname value hpc =>
      exact hs.frame (writes_of_update s.mem.txs t { s.mem.txs t with state := .aborted }
        (fun _ hmem => hmem)) (fun k => deadlockSection_versions s.mem t k)
  | draw t hready => exact ⟨hs.1, hs.2⟩
  | install t ts hpc => exact hs.install hlock t ts _
  | abort t hidle =>
      exact hs.frame (writes_of_update s.mem.txs t _ (by simp))
        (fun k => abortSection_versions s.mem t k)

/-- A read copies a string out of a buffer or out of a version. -/
theorem Stored.read {s : Sys} (hs : Stored s) {t : Option TxId} {kname out : Bytes}
    (h : txRead s.mem t kname valueLen = (0, out)) : Terminated out := by
  cases t with
  | none => simp [txRead] at h
  | some t =>
      rw [txRead] at h
      split at h
      · simp at h
      · split at h
        · simp at h
        · rw [readSection] at h
          split at h
          · rename_i e he
            have hout : strncpy e.2 valueLen = out := congrArg Prod.snd h
            rw [← hout]
            exact (hs.buffers t e (List.mem_of_find?_eq_some he)).copy
          · split at h
            · rename_i v hv
              have hout : strncpy v.value valueLen = out := congrArg Prod.snd h
              rw [← hout]
              exact (hs.versions _ v (List.mem_of_find?_eq_some hv)).copy
            · simp at h

/-! ## Transactions that begin after a commit -/

/-- The timestamp of a completed commit is below the `start_ts` of every
transaction that has begun since. -/
def BegunLater (s : Sys) : Prop :=
  ∀ newer t ts older, s.hist = newer ++ .txCommit (some t) 0 ts :: older →
    ts ≤ s.mem.draws ∧ ∀ id u startTs, .beginTx id (some u) startTs ∈ newer →
      (s.mem.txs u).state = .active → ts < (s.mem.txs u).startTs

/-- A step between two records. -/
theorem BegunLater.suspend {s s' : Sys} (hs : BegunLater s) (hhist : s'.hist = s.hist)
    (hdraws : s.mem.draws ≤ s'.mem.draws) (htxs : s'.mem.txs = s.mem.txs) : BegunLater s' := by
  intro newer t ts older hsplit
  rw [hhist] at hsplit
  obtain ⟨hts, hbegun⟩ := hs newer t ts older hsplit
  rw [htxs]
  exact ⟨Nat.le_trans hts hdraws, hbegun⟩

/-- A record of a call that begins no transaction. -/
theorem BegunLater.record {s s' : Sys} (hs : BegunLater s) {e : Entry}
    (hhist : s'.hist = e :: s.hist) (hdraws : s'.mem.draws = s.mem.draws)
    (hbegin : ∀ id u startTs, e ≠ .beginTx id (some u) startTs)
    (hcommit : ∀ t ts, e = .txCommit (some t) 0 ts → ts ≤ s.mem.draws)
    (htxs : ∀ u, (s'.mem.txs u).state = .active →
      (s.mem.txs u).state = .active ∧ (s'.mem.txs u).startTs = (s.mem.txs u).startTs) :
    BegunLater s' := by
  intro newer t ts older hsplit
  rw [hhist] at hsplit
  rw [hdraws]
  rcases List.cons_eq_append_iff.mp hsplit with ⟨rfl, hhead⟩ | ⟨rest, rfl, hrest⟩
  · have heq : e = .txCommit (some t) 0 ts := (List.cons.inj hhead).1.symm
    exact ⟨hcommit t ts heq, by simp⟩
  · obtain ⟨hts, hbegun⟩ := hs rest t ts older hrest
    refine ⟨hts, fun id u startTs hmem hu => ?_⟩
    obtain ⟨hactive, hstart⟩ := htxs u hu
    rw [hstart]
    rcases List.mem_cons.mp hmem with heq | hmem
    · exact absurd heq.symm (hbegin id u startTs)
    · exact hbegun id u startTs hmem hactive

theorem BegunLater.begin {s : Sys} (hs : BegunLater s) (hwrap : NoWrap s.mem) (t : TxId)
    (id : Int) : BegunLater
      (s.record (beginSection s.mem t) (.beginTx id (some t) s.mem.globalTs)) := by
  have hglobal := globalTs_of_noWrap hwrap
  intro newer t' ts older hsplit
  rcases List.cons_eq_append_iff.mp hsplit with ⟨rfl, hhead⟩ | ⟨rest, rfl, hrest⟩
  · cases hhead
  · obtain ⟨hts, hbegun⟩ := hs rest t' ts older hrest
    refine ⟨Nat.le_succ_of_le hts, fun id' u startTs hmem hu => ?_⟩
    simp only [Sys.record, beginSection_txs] at hu ⊢
    by_cases hut : u = t
    · subst hut
      rw [Function.update_self]
      show ts < s.mem.globalTs
      omega
    · rw [Function.update_of_ne hut] at hu ⊢
      rcases List.mem_cons.mp hmem with heq | hmem
      · simp only [Entry.beginTx.injEq, Option.some.injEq] at heq
        exact absurd heq.2.1 hut
      · exact hbegun id' u startTs hmem hu

/-- Ending or filling a transaction record leaves the ACTIVE ones their start. -/
private theorem started_of_update (txs : TxId → Transaction) (t : TxId) (tx : Transaction)
    (htx : tx.state = .active → (txs t).state = .active ∧ tx.startTs = (txs t).startTs)
    (u : TxId) (hu : (Function.update txs t tx u).state = .active) :
    (txs u).state = .active ∧ (Function.update txs t tx u).startTs = (txs u).startTs := by
  by_cases hut : u = t
  · subst hut
    rw [Function.update_self] at hu ⊢
    exact htx hu
  · rw [Function.update_of_ne hut] at hu ⊢
    exact ⟨hu, rfl⟩

theorem begunLater_step {s s' : Sys} {a : Act} (h : Step s a s') (hchain : ChainInv s)
    (hwrap : NoWrap s.mem) (hs : BegunLater s) : BegunLater s' := by
  cases h with
  | stutter => exact hs
  | silent _ e he =>
      refine hs.record rfl rfl (fun id u startTs heq => ?_) (fun t ts heq => ?_)
        (fun _ hu => ⟨hu, rfl⟩)
      · subst heq
        cases he
      · subst heq
        exact absurd rfl he
  | begin t id hid hidle => exact hs.begin hwrap t id
  | acquire t kname value k hready hkey hfree => exact hs.suspend rfl (Nat.le_refl _) rfl
  | block t owner kname value k hready hkey howner hne hdetect =>
      exact hs.record rfl rfl (by simp) (by simp) (fun _ hu => ⟨hu, rfl⟩)
  | deadlock t owner kname value k hready hkey howner hne hdetect =>
      exact hs.suspend rfl (Nat.le_refl _) rfl
  | buffer t kname value k writes hpc hwrites =>
      exact hs.record rfl rfl (by simp) (by simp)
        (started_of_update s.mem.txs t { s.mem.txs t with writes := writes }
          (fun ht => ⟨ht, rfl⟩))
  | bufferFull t kname value k hpc hwrites =>
      exact hs.record rfl rfl (by simp) (by simp) (fun _ hu => ⟨hu, rfl⟩)
  | cleanup t kname value hpc =>
      exact hs.record rfl rfl (by simp) (by simp) (started_of_update s.mem.txs t _ (by simp))
  | draw t hready => exact hs.suspend rfl (Nat.le_succ _) rfl
  | install t ts hpc =>
      refine hs.record rfl rfl (by simp) (fun t' ts' heq => ?_) (started_of_update s.mem.txs t _ (by simp))
      cases heq
      exact (hchain.pending t ts hpc).1
  | abort t hidle =>
      exact hs.record rfl rfl (by simp) (by simp) (started_of_update s.mem.txs t _ (by simp))

theorem begunLater_run (as : List Act) (hwrap : NoWrap (Sys.init.run as).mem) :
    BegunLater (Sys.init.run as) := by
  have h := Sys.run_induction
    (P := fun s => LockInv s ∧ (NoWrap s.mem → ChainInv s ∧ BegunLater s)) Sys.init as
    (fun _ _ s s' hstep hs => ⟨lockInv_step hstep hs.1, fun hw => by
      have hw' : NoWrap s.mem := Nat.lt_of_le_of_lt hstep.draws_le hw
      obtain ⟨hchain, hbegun⟩ := hs.2 hw'
      exact ⟨chainInv_step hstep hs.1 hw hchain, begunLater_step hstep hchain hw' hbegun⟩⟩)
    ⟨lockInv_init, fun _ => ⟨chainInv_init, fun newer t ts older hsplit => by
      simp [Sys.init] at hsplit⟩⟩
  exact (h.2 hwrap).2

/-! ## What readers get -/

/-- A read of a stored copy of `value` gives its first 31 bytes. -/
theorem Stored.readsBack {s : Sys} (hs : Stored s) (hnames : NamesFixed s.mem)
    (hchain : ChainInv s) (hhist : HistInv s) (hwrap : NoWrap s.mem) {t : TxId}
    (hactive : (s.mem.txs t).state = .active) {kname value : Bytes} {k : Key}
    (hkey : keyOf kname = some k) (hstored : storedValue s t k = strncpy value valueLen) :
    ReadsBack s.mem t kname value := by
  have hread : txRead s.mem (some t) kname valueLen = (0, strncpy value valueLen) := by
    rw [txRead_eq hnames hchain hhist hwrap hactive hkey, hstored, strncpy_strncpy]
  have hout : Terminated (strncpy value valueLen) := hs.read hread
  have hshort : (cstr value).length < valueLen := terminated_strncpy_iff.mp hout
  refine ⟨_, hread, hout, ?_⟩
  rw [cstr_strncpy, List.take_of_length_le (by omega), List.take_of_length_le (by omega)]

/-- The commit that `tx_commit` recorded is the snapshot of every transaction that
has begun since, as long as no other one wrote the key. -/
theorem snapshotSource_of_begun {s : Sys} (hbegun : BegunLater s) {t u : TxId} {ts : Nat}
    {newer older : List Entry} (hsplit : s.hist = newer ++ .txCommit (some t) 0 ts :: older)
    {k : Key} {value : Bytes} (hown : lastOwnWrite older t k = some value)
    (hlatest : commitsOf (commits s.hist) k =
      commitsOf (commits (.txCommit (some t) 0 ts :: older)) k)
    {id : Int} {startTs : Nat} (hbegin : .beginTx id (some u) startTs ∈ newer)
    (hactive : (s.mem.txs u).state = .active) :
    sourceValue k (snapshotSource (commits s.hist) (s.mem.txs u).startTs k) = value := by
  obtain ⟨-, hlater⟩ := hbegun newer t ts older hsplit
  have hlt : ts ≤ (s.mem.txs u).startTs := Nat.le_of_lt (hlater id u startTs hbegin hactive)
  rw [snapshotSource, hlatest, commits, if_pos rfl, commitsOf_cons]
  simp only [hown, Option.isSome_some, if_true, latest, List.find?_cons, decide_eq_true hlt,
    sourceValue, Option.getD_some]

/-- Strings in the arrays make everything else hold. -/
theorem Stored.valuesSurvive {s : Sys} (hs : Stored s) (hnames : NamesFixed s.mem)
    (hchain : ChainInv s) (hhist : HistInv s) (hbegun : BegunLater s) (hwrap : NoWrap s.mem) :
    ValuesSurvive s :=
  { buffers := hs.buffers
    versions := hs.versions
    outs := fun _ _ _ h => hs.read h
    own := by
      intro t kname k value hactive hkey hown
      refine hs.readsBack hnames hchain hhist hwrap hactive hkey ?_
      rw [storedValue, hhist.own t hactive k, hown, Option.map_some]
    later := by
      intro t ts newer older u id startTs kname k value hsplit hkey hwrote hlatest hbegin hactive
        hown
      refine hs.readsBack hnames hchain hhist hwrap hactive hkey ?_
      rw [storedValue, hhist.own u hactive k, hown, Option.map_none]
      exact congrArg (strncpy · valueLen)
        (snapshotSource_of_begun hbegun hsplit hwrote hlatest hbegin hactive) }

/-! ## Every schedule -/

/-- A copy of 32 bytes or more is left without a NUL in the write buffer. -/
theorem ValuesSurvive.shortCopy {s : Sys} {a : Act} (hlock : LockInv s)
    (h : ValuesSurvive (s.step a)) : ShortCopy s a := by
  intro t kname value k ha hpc
  subst ha
  cases hwrites : bufferEntry (s.mem.txs t).writes k value with
  | none => exact absurd hwrites (hlock.buffer_not_full t k value)
  | some writes =>
      have hstep : s.step (.resume t) =
          s.finish t (s.mem.setTx t { s.mem.txs t with writes := writes })
            (.txWrite (some t) kname value 0) := by
        simp only [Sys.step, Sys.resume, hpc, bufferSection, hwrites]
      have hbuffered : buffered writes k = some (strncpy value valueLen) := by
        rw [bufferEntry_buffered hwrites k, if_pos rfl]
      obtain ⟨e, he, hvalue⟩ := mem_of_buffered hbuffered
      rw [hstep] at h
      have hterminated := h.buffers t e (by simpa [Sys.finish] using he)
      rw [hvalue] at hterminated
      exact terminated_strncpy_iff.mp hterminated

theorem stored_run (as : List Act)
    (hshort : ∀ pre a, pre ++ [a] <+: as → ShortCopy (Sys.init.run pre) a) :
    Stored (Sys.init.run as) := by
  induction as using List.reverseRecOn with
  | nil => exact stored_init
  | append_singleton as a ih =>
      have hs := ih (fun pre b hpre => hshort pre b (hpre.trans (List.prefix_append _ _)))
      rw [Sys.run_append]
      exact stored_step (Sys.step_cases _ a) (lockInv_run as)
        (hshort as a (List.prefix_refl _)) hs

/-- **Values survive as strings** along a schedule that draws fewer than `2 ^ 64 - 1`
timestamps, if and only if no thread copies a value of 32 bytes or more into its
write buffer. -/
theorem valuesSurvive_iff (as : List Act) (hwrap : NoWrap (Sys.init.run as).mem) :
    (∀ pre, pre <+: as → ValuesSurvive (Sys.init.run pre)) ↔
      ∀ pre a, pre ++ [a] <+: as → ShortCopy (Sys.init.run pre) a := by
  constructor
  · intro h pre a hpre
    have hafter := h _ hpre
    rw [Sys.run_append] at hafter
    exact hafter.shortCopy (lockInv_run pre)
  · intro hshort pre hpre
    obtain ⟨rest, rfl⟩ := id hpre
    have hwrap' : NoWrap (Sys.init.run pre).mem := by
      rw [Sys.run_append] at hwrap
      exact Nat.lt_of_le_of_lt (Sys.draws_le_run _ rest) hwrap
    have hstored : Stored (Sys.init.run pre) :=
      stored_run pre (fun b a hb => hshort b a (hb.trans hpre))
    exact hstored.valuesSurvive (Sys.run_namesFixed pre) (chainInv_run pre hwrap')
      (histInv_run pre) (begunLater_run pre hwrap') hwrap'

/-- Transaction 0 commits a value of `n` bytes to `key0`; then transaction 1 begins. -/
def commitOfLength (n : Nat) : List Act :=
  [.call (.beginTx 0), .call (.txWrite (some 0) (keyName 0) (List.replicate n 97 ++ [0])),
   .resume 0, .call (.txCommit (some 0)), .resume 0, .call (.beginTx 1)]

theorem valuesSurvive_iff_commitOfLength :
    (∀ pre, pre <+: commitOfLength 31 → ValuesSurvive (Sys.init.run pre)) ↔
      ∀ pre a, pre ++ [a] <+: commitOfLength 31 → ShortCopy (Sys.init.run pre) a :=
  valuesSurvive_iff (commitOfLength 31) (by unfold NoWrap; decide)

/-- Of 32 bytes none is a NUL, in the buffer, in the version and in what transaction 1
reads. -/
theorem not_valuesSurvive_commitOfLength :
    ¬ ∀ pre, pre <+: commitOfLength 32 → ValuesSurvive (Sys.init.run pre) := by
  intro h
  have hall := h _ (List.prefix_refl _)
  have hread := hall.outs (some 1) (keyName 0) (List.replicate 32 97) (by decide +kernel)
  revert hread
  decide

end SystemsInC.Ports.MvccValues
