import SystemsInC.Verified.LatestBefore
import SystemsInC.Ports.MvccChains

/-!
# What a history says about the store

The abstract snapshot store is read off the completed calls alone: a
transaction's own writes are those that returned `0` since it last began, and a
commit is the set of writes its transaction had at that moment, stamped with the
commit timestamp.  `HistInv` and `LifeInv` connect it to the globals of the
program: write buffers hold the own writes, chains hold the commits in the order
of their timestamps, and `start_ts` of an ACTIVE transaction identifies its
incarnation.
-/

namespace SystemsInC.Ports.MvccHistory

open SystemsInC.Verified.CString
open SystemsInC.Verified.LatestBefore
open SystemsInC.Ports.MvccStore
open SystemsInC.Ports.MvccInterleaving
open SystemsInC.Ports.MvccLocks
open SystemsInC.Ports.MvccChains

/-! ## The abstract store of a history -/

/-- The key a name stands for. -/
def keyOf (kname : Bytes) : Option Key :=
  (List.finRange maxKeys).find? (fun i => decide (strcmpEq (keyName i) kname))

theorem findKeyIndex_eq {st : Mvcc} (h : NamesFixed st) (kname : Bytes) :
    findKeyIndex st kname = keyOf kname := by
  have hname : ∀ i, (st.store i).name = keyName i := h
  simp only [findKeyIndex, keyOf, hname]

/-- The last write of `t` to `k` that returned `0`, among those since `t` last
began. -/
def lastOwnWrite : List Entry → TxId → Key → Option Bytes
  | [], _, _ => none
  | .beginTx _ ret _ :: h, t, k => if ret = some t then none else lastOwnWrite h t k
  | .txWrite t' kname value ret :: h, t, k =>
      if ret = 0 ∧ t' = some t ∧ keyOf kname = some k then some value
      else lastOwnWrite h t k
  | .txRead _ _ _ _ _ :: h, t, k => lastOwnWrite h t k
  | .txCommit _ _ _ :: h, t, k => lastOwnWrite h t k
  | .txAbort _ :: h, t, k => lastOwnWrite h t k

/-- The `start_ts` of the incarnation of `t` that is still open: begun, and
neither committed nor aborted.  A `tx_write` to a known key that returns `-1` is
a deadlock abort. -/
def openStart : List Entry → TxId → Option Nat
  | [], _ => none
  | .beginTx _ ret startTs :: h, t => if ret = some t then some startTs else openStart h t
  | .txWrite t' kname _ ret :: h, t =>
      if ret = -1 ∧ t' = some t ∧ (keyOf kname).isSome then none else openStart h t
  | .txRead _ _ _ _ _ :: h, t => openStart h t
  | .txCommit t' ret _ :: h, t => if ret = 0 ∧ t' = some t then none else openStart h t
  | .txAbort t' :: h, t => if t' = some t then none else openStart h t

/-- A commit: whose incarnation, when, and what it wrote. -/
structure Commit where
  tx : TxId
  startTs : Option Nat
  commitTs : Nat
  wrote : Key → Option Bytes

/-- The commits of a history, newest installation first. -/
def commits : List Entry → List Commit
  | [] => []
  | .txCommit (some t) ret commitTs :: h =>
      if ret = 0 then
        { tx := t
          startTs := openStart h t
          commitTs := commitTs
          wrote := lastOwnWrite h t } :: commits h
      else commits h
  | .txCommit none _ _ :: h => commits h
  | .beginTx _ _ _ :: h => commits h
  | .txRead _ _ _ _ _ :: h => commits h
  | .txWrite _ _ _ _ :: h => commits h
  | .txAbort _ :: h => commits h

/-- The incarnations that ended in `tx_abort` or in a deadlock abort, by
transaction and `start_ts`. -/
def aborted : List Entry → List (TxId × Nat)
  | [] => []
  | .txAbort t :: h => (t.bind (fun t => (openStart h t).map (t, ·))).toList ++ aborted h
  | .txWrite t kname _ ret :: h =>
      if ret = -1 ∧ (keyOf kname).isSome then
        (t.bind (fun t => (openStart h t).map (t, ·))).toList ++ aborted h
      else aborted h
  | .beginTx _ _ _ :: h => aborted h
  | .txRead _ _ _ _ _ :: h => aborted h
  | .txCommit _ _ _ :: h => aborted h

/-- The commits that wrote `k`. -/
def commitsOf (log : List Commit) (k : Key) : List Commit :=
  log.filter (fun c => (c.wrote k).isSome)

theorem commitsOf_cons (c : Commit) (log : List Commit) (k : Key) :
    commitsOf (c :: log) k =
      if (c.wrote k).isSome then c :: commitsOf log k else commitsOf log k :=
  List.filter_cons

/-- `src` is the commit with the largest timestamp not above `ts` that wrote `k`;
`none` stands for the initial version. -/
def IsSnapshot (log : List Commit) (ts : Nat) (k : Key) (src : Option Commit) : Prop :=
  IsLatest Commit.commitTs ts (commitsOf log k) src

/-- The value a source gives to `k`; the initial version holds `"-"`. -/
def sourceValue (k : Key) : Option Commit → Bytes
  | some c => (c.wrote k).getD []
  | none => initialVersion.value

/-! ## Entries that leave the abstract store alone -/

theorem lastOwnWrite_silent {st : Mvcc} {e : Entry} (he : e.Silent st) (h : List Entry)
    (t : TxId) (k : Key) : lastOwnWrite (e :: h) t k = lastOwnWrite h t k := by
  cases e <;> simp_all [Entry.Silent, lastOwnWrite]

theorem commits_silent {st : Mvcc} {e : Entry} (he : e.Silent st) (h : List Entry) :
    commits (e :: h) = commits h := by
  cases e with
  | txCommit t ret ts => cases t <;> simp_all [Entry.Silent, commits]
  | _ => rfl

/-! ## Buffers hold own writes, chains hold commits -/

/-- The begin and the value of a version. -/
def versionStamp (v : Version) : Nat × Bytes := (v.beginTs, v.value)

/-- What a commit contributes to the chain of `k`. -/
def Commit.stamp (k : Key) (c : Commit) : Nat × Bytes :=
  (c.commitTs, strncpy (sourceValue k (some c)) valueLen)

structure HistInv (s : Sys) : Prop where
  own : ∀ t, (s.mem.txs t).state = .active → ∀ k,
    buffered (s.mem.txs t).writes k = (lastOwnWrite s.hist t k).map (strncpy · valueLen)
  known : ∀ t kname value k, s.pc t = .acquired kname value k → keyOf kname = some k
  chain : ∀ k, (s.mem.store k).versions.map versionStamp =
    (commitsOf (commits s.hist) k).map (Commit.stamp k) ++ [versionStamp initialVersion]

theorem histInv_init : HistInv Sys.init := by
  refine
    { own := by simp [Sys.init, initStore]
      known := by simp [Sys.init]
      chain := fun k => rfl }

/-- A step that installs nothing and buffers nothing. -/
theorem HistInv.frame {s s' : Sys} (hs : HistInv s)
    (hversions : ∀ k, (s'.mem.store k).versions = (s.mem.store k).versions)
    (hcommits : commits s'.hist = commits s.hist)
    (hactive : ∀ t, (s'.mem.txs t).state = .active →
      (s.mem.txs t).state = .active ∧ (s'.mem.txs t).writes = (s.mem.txs t).writes ∧
        ∀ k, lastOwnWrite s'.hist t k = lastOwnWrite s.hist t k)
    (hknown : ∀ t kname value k, s'.pc t = .acquired kname value k →
      keyOf kname = some k ∨ s.pc t = .acquired kname value k) : HistInv s' := by
  refine
    { own := fun t ht k => ?_
      known := fun t kname value k hpc => ?_
      chain := fun k => by rw [hversions, hcommits]; exact hs.chain k }
  · obtain ⟨ht', hwrites, hown⟩ := hactive t ht
    rw [hwrites, hown]
    exact hs.own t ht' k
  · rcases hknown t kname value k hpc with hkey | hpc'
    · exact hkey
    · exact hs.known t kname value k hpc'

theorem HistInv.begin {s : Sys} (hs : HistInv s) (t : TxId) (id : Int) (ts : Nat) :
    HistInv (s.record (beginSection s.mem t) (.beginTx id (some t) ts)) := by
  refine
    { own := fun u hu k => ?_
      known := hs.known
      chain := hs.chain }
  by_cases hut : u = t
  · subst hut
    simp [Sys.record, lastOwnWrite]
  · have htu : some t ≠ some u := by simpa using Ne.symm hut
    simp only [Sys.record, beginSection_txs, Function.update_of_ne hut, lastOwnWrite,
      if_neg htu] at hu ⊢
    exact hs.own u hu k

theorem HistInv.buffer {s : Sys} (hs : HistInv s) {t : TxId} {kname value : Bytes} {k : Key}
    (hpc : s.pc t = .acquired kname value k) {writes : List (Key × Bytes)}
    (hwrites : bufferEntry (s.mem.txs t).writes k value = some writes) :
    HistInv (s.finish t (s.mem.setTx t { s.mem.txs t with writes := writes })
      (.txWrite (some t) kname value 0)) := by
  have hkey : keyOf kname = some k := hs.known t kname value k hpc
  refine
    { own := fun u hu k' => ?_
      known := fun u kname' value' k' hpc' => ?_
      chain := hs.chain }
  · by_cases hut : u = t
    · subst hut
      simp only [Sys.finish, setTx_txs, Function.update_self, lastOwnWrite, true_and,
        hkey, Option.some.injEq] at hu ⊢
      rw [bufferEntry_buffered hwrites k', hs.own u hu k']
      split <;> simp
    · have htu : some t ≠ some u := by simpa using Ne.symm hut
      simp only [Sys.finish, setTx_txs, Function.update_of_ne hut, lastOwnWrite, htu,
        false_and, and_false, if_false] at hu ⊢
      exact hs.own u hu k'
  · by_cases hut : u = t
    · subst hut
      simp [Sys.finish] at hpc'
    · simp only [Sys.finish, Function.update_of_ne hut] at hpc'
      exact hs.known u kname' value' k' hpc'

/-- An installed version holds what its transaction last wrote. -/
private theorem stamp_installVersion (ts : Nat) (value : Bytes) (vs : List Version) :
    (installVersion ts value vs).map versionStamp =
      (ts, strncpy value valueLen) :: vs.map versionStamp := by
  cases vs <;> rfl

theorem HistInv.install {s : Sys} (hs : HistInv s) (hlock : LockInv s) {t : TxId} {ts : Nat}
    (hpc : s.pc t = .committing ts) :
    HistInv (s.finish t (commitSection s.mem t ts) (.txCommit (some t) 0 ts)) := by
  have hactive : (s.mem.txs t).state = .active := hlock.busy t (by simp [hpc])
  refine
    { own := fun u hu k => ?_
      known := fun u kname value k hpc' => ?_
      chain := fun k => ?_ }
  · have hut : u ≠ t := by
      rintro rfl
      simp [Sys.finish] at hu
    simp only [Sys.finish, commitSection_txs, Function.update_of_ne hut, lastOwnWrite] at hu ⊢
    exact hs.own u hu k
  · have hut : u ≠ t := by
      rintro rfl
      simp [Sys.finish] at hpc'
    simp only [Sys.finish, Function.update_of_ne hut] at hpc'
    exact hs.known u kname value k hpc'
  · have hown := hs.own t hactive k
    simp only [Sys.finish, commits, if_true]
    rw [commitSection_versions s.mem t k ts (hlock.nodup t), hown, commitsOf_cons]
    rcases Option.eq_none_or_eq_some (lastOwnWrite s.hist t k) with hlast | ⟨value, hlast⟩
    · simpa only [hlast, Option.map_none, Option.isSome_none, Bool.false_eq_true, if_false]
        using hs.chain k
    · simp only [hlast, Option.map_some, Option.isSome_some, if_true, stamp_installVersion,
        strncpy_strncpy, List.map_cons, List.cons_append, hs.chain k]
      simp [Commit.stamp, sourceValue, hlast]

theorem histInv_step {s s' : Sys} {a : Act} (h : Step s a s') (hlock : LockInv s)
    (hnames : NamesFixed s.mem) (hs : HistInv s) : HistInv s' := by
  have hidle : ∀ {t u : TxId} {kname value : Bytes} {k : Key} (p : Pc),
      (∀ kname value k, p ≠ .acquired kname value k) →
      Function.update s.pc t p u = .acquired kname value k →
      s.pc u = .acquired kname value k := by
    intro t u kname value k p hp hu
    by_cases hut : u = t
    · subst hut
      rw [Function.update_self] at hu
      exact absurd hu (hp kname value k)
    · rwa [Function.update_of_ne hut] at hu
  cases h with
  | stutter => exact hs
  | silent _ e he =>
      exact hs.frame (fun _ => rfl) (commits_silent he s.hist)
        (fun u hu => ⟨hu, rfl, fun k => lastOwnWrite_silent he s.hist u k⟩)
        (fun _ _ _ _ hpc => Or.inr hpc)
  | begin t id hid hidle => exact hs.begin t id _
  | acquire t kname value k hready hkey hfree =>
      refine hs.frame (fun _ => by simp [Sys.suspend]) rfl
        (fun u hu => ⟨hu, rfl, fun _ => rfl⟩) (fun u kname' value' k' hpc => ?_)
      by_cases hut : u = t
      · subst hut
        simp only [Sys.suspend, Function.update_self, Pc.acquired.injEq] at hpc
        obtain ⟨rfl, rfl, rfl⟩ := hpc
        exact Or.inl ((findKeyIndex_eq hnames kname).symm.trans hkey)
      · exact Or.inr (by simpa [Sys.suspend, hut] using hpc)
  | block t owner kname value k hready hkey howner hne hdetect =>
      exact hs.frame (fun _ => rfl) rfl
        (fun u hu => ⟨hu, rfl, fun k' => by simp [Sys.record, lastOwnWrite]⟩)
        (fun _ _ _ _ hpc => Or.inr hpc)
  | deadlock t owner kname value k hready hkey howner hne hdetect =>
      exact hs.frame (fun _ => rfl) rfl (fun u hu => ⟨hu, rfl, fun _ => rfl⟩)
        (fun u _ _ _ hpc => Or.inr (hidle _ (by simp) hpc))
  | buffer t kname value k writes hpc hwrites => exact hs.buffer hpc hwrites
  | bufferFull t kname value k hpc hwrites =>
      exact absurd hwrites (hlock.buffer_not_full t k value)
  | cleanup t kname value hpc =>
      refine hs.frame (fun k => deadlockSection_versions s.mem t k) rfl (fun u hu => ?_)
        (fun u _ _ _ hpc => Or.inr (hidle _ (by simp) hpc))
      have hut : u ≠ t := by
        rintro rfl
        simp [Sys.finish] at hu
      simpa [Sys.finish, hut, lastOwnWrite] using hu
  | draw t hready =>
      exact hs.frame (fun _ => rfl) rfl (fun u hu => ⟨hu, rfl, fun _ => rfl⟩)
        (fun u _ _ _ hpc => Or.inr (hidle _ (by simp) hpc))
  | install t ts hpc => exact hs.install hlock hpc
  | abort t hidle =>
      refine hs.frame (fun k => abortSection_versions s.mem t k) rfl (fun u hu => ?_)
        (fun _ _ _ _ hpc => Or.inr hpc)
      have hut : u ≠ t := by
        rintro rfl
        simp [Sys.record] at hu
      simpa [Sys.record, hut, lastOwnWrite] using hu

theorem histInv_run (as : List Act) : HistInv (Sys.init.run as) := by
  have h := Sys.run_induction
    (P := fun s => LockInv s ∧ NamesFixed s.mem ∧ HistInv s) Sys.init as
    (fun _ _ s s' hstep hs => ⟨lockInv_step hstep hs.1, hstep.namesFixed hs.2.1,
      histInv_step hstep hs.1 hs.2.1 hs.2.2⟩)
    ⟨lockInv_init, fun _ => rfl, histInv_init⟩
  exact h.2.2

/-! ## Incarnations

An incarnation is named by its transaction and its `start_ts`.  As long as the
counter has not wrapped no two incarnations share a name, so one that committed
is never among those that aborted.
-/

structure LifeInv (s : Sys) : Prop where
  opened : ∀ t, openStart s.hist t =
    if (s.mem.txs t).state = .active then some (s.mem.txs t).startTs else none
  doomedKnown : ∀ t kname value, s.pc t = .deadlocked kname value → (keyOf kname).isSome
  commitsOld : ∀ c ∈ commits s.hist, ∃ x, c.startTs = some x ∧ x ≤ s.mem.draws ∧
    ((s.mem.txs c.tx).state = .active → x < (s.mem.txs c.tx).startTs)
  abortedOld : ∀ p ∈ aborted s.hist, p.2 ≤ s.mem.draws ∧
    ((s.mem.txs p.1).state = .active → p.2 < (s.mem.txs p.1).startTs)
  apart : ∀ c ∈ commits s.hist, ∀ p ∈ aborted s.hist, c.tx = p.1 → c.startTs ≠ some p.2

/-- A step that begins and ends nothing. -/
theorem LifeInv.frame {s s' : Sys} (hs : LifeInv s)
    (hopen : ∀ t, openStart s'.hist t = openStart s.hist t)
    (hcommits : commits s'.hist = commits s.hist)
    (haborted : aborted s'.hist = aborted s.hist)
    (hdraws : s.mem.draws ≤ s'.mem.draws)
    (htxs : ∀ t, (s'.mem.txs t).state = (s.mem.txs t).state ∧
      (s'.mem.txs t).startTs = (s.mem.txs t).startTs)
    (hdoomed : ∀ t kname value, s'.pc t = .deadlocked kname value →
      (keyOf kname).isSome ∨ s.pc t = .deadlocked kname value) : LifeInv s' := by
  refine
    { opened := fun t => ?_
      doomedKnown := fun t kname value hpc => ?_
      commitsOld := fun c hc => ?_
      abortedOld := fun p hp => ?_
      apart := by rw [hcommits, haborted]; exact hs.apart }
  · rw [hopen, (htxs t).1, (htxs t).2]
    exact hs.opened t
  · rcases hdoomed t kname value hpc with hkey | hpc'
    · exact hkey
    · exact hs.doomedKnown t kname value hpc'
  · rw [hcommits] at hc
    obtain ⟨x, hx, hle, hlt⟩ := hs.commitsOld c hc
    rw [(htxs c.tx).1, (htxs c.tx).2]
    exact ⟨x, hx, Nat.le_trans hle hdraws, hlt⟩
  · rw [haborted] at hp
    obtain ⟨hle, hlt⟩ := hs.abortedOld p hp
    rw [(htxs p.1).1, (htxs p.1).2]
    exact ⟨Nat.le_trans hle hdraws, hlt⟩

theorem LifeInv.begin {s : Sys} (hs : LifeInv s) (hwrap : NoWrap s.mem) (t : TxId) (id : Int) :
    LifeInv (s.record (beginSection s.mem t) (.beginTx id (some t) s.mem.globalTs)) := by
  have hts := globalTs_of_noWrap hwrap
  have hfresh : ∀ u x, x ≤ s.mem.draws →
      ((s.mem.txs u).state = .active → x < (s.mem.txs u).startTs) →
      (((beginSection s.mem t).txs u).state = .active →
        x < ((beginSection s.mem t).txs u).startTs) := by
    intro u x hx hlt
    by_cases hut : u = t
    · subst hut
      simp only [beginSection_txs, Function.update_self, hts, true_implies]
      omega
    · simpa [hut] using hlt
  refine
    { opened := fun u => ?_
      doomedKnown := hs.doomedKnown
      commitsOld := fun c hc => ?_
      abortedOld := fun p hp => ?_
      apart := hs.apart }
  · by_cases hut : u = t
    · subst hut
      simp [Sys.record, openStart]
    · have htu : some t ≠ some u := by simpa using Ne.symm hut
      simp only [Sys.record, openStart, beginSection_txs, Function.update_of_ne hut, if_neg htu]
      exact hs.opened u
  · obtain ⟨x, hx, hle, hlt⟩ := hs.commitsOld c hc
    exact ⟨x, hx, Nat.le_succ_of_le hle, hfresh c.tx x hle hlt⟩
  · obtain ⟨hle, hlt⟩ := hs.abortedOld p hp
    exact ⟨Nat.le_succ_of_le hle, hfresh p.1 p.2 hle hlt⟩

/-- The globals after a section that ended the ACTIVE transaction `t`. -/
structure Ended (s s' : Sys) (t : TxId) : Prop where
  draws : s'.mem.draws = s.mem.draws
  notActive : (s'.mem.txs t).state ≠ .active
  others : ∀ u, u ≠ t → s'.mem.txs u = s.mem.txs u
  closed : ∀ u, openStart s'.hist u = if u = t then none else openStart s.hist u
  doomed : ∀ u kname value, s'.pc u = .deadlocked kname value → s.pc u = .deadlocked kname value

/-- A name that is older than the incarnation it could be taken for stays so. -/
theorem Ended.keeps {s s' : Sys} {t : TxId} (hend : Ended s s' t) (u : TxId) {x : Nat}
    (hlt : (s.mem.txs u).state = .active → x < (s.mem.txs u).startTs)
    (hu : (s'.mem.txs u).state = .active) : x < (s'.mem.txs u).startTs := by
  have hut : u ≠ t := by
    rintro rfl
    exact hend.notActive hu
  rw [hend.others u hut] at hu ⊢
  exact hlt hu

/-- No commit so far is one of an incarnation that is still ACTIVE. -/
theorem LifeInv.commit_ne {s : Sys} (hs : LifeInv s) {c : Commit} (hc : c ∈ commits s.hist)
    (hactive : (s.mem.txs c.tx).state = .active) : c.startTs ≠ some (s.mem.txs c.tx).startTs := by
  obtain ⟨x, hx, -, hlt⟩ := hs.commitsOld c hc
  have hlt' := hlt hactive
  intro heq
  rw [hx] at heq
  exact absurd (Option.some.inj heq) (Nat.ne_of_lt hlt')

/-- No abort so far is one of an incarnation that is still ACTIVE. -/
theorem LifeInv.abort_ne {s : Sys} (hs : LifeInv s) {p : TxId × Nat} (hp : p ∈ aborted s.hist)
    (hactive : (s.mem.txs p.1).state = .active) : p.2 ≠ (s.mem.txs p.1).startTs :=
  Nat.ne_of_lt ((hs.abortedOld p hp).2 hactive)

/-- Ending `t` adds the name of its incarnation to the commits or to the aborts. -/
theorem LifeInv.ended {s s' : Sys} (hs : LifeInv s) (hchain : ChainInv s) {t : TxId}
    (hend : Ended s s' t)
    (hcommits : ∀ c ∈ commits s'.hist, c ∈ commits s.hist ∨
      (c.tx = t ∧ (s.mem.txs t).state = .active ∧ c.startTs = some (s.mem.txs t).startTs ∧
        aborted s'.hist = aborted s.hist))
    (haborted : ∀ p ∈ aborted s'.hist, p ∈ aborted s.hist ∨
      (p.1 = t ∧ (s.mem.txs t).state = .active ∧ p.2 = (s.mem.txs t).startTs ∧
        commits s'.hist = commits s.hist)) : LifeInv s' := by
  refine
    { opened := fun u => ?_
      doomedKnown := fun u kname value hpc => hs.doomedKnown u kname value
        (hend.doomed u kname value hpc)
      commitsOld := fun c hc => ?_
      abortedOld := fun p hp => ?_
      apart := fun c hc p hp hcp => ?_ }
  · rw [hend.closed]
    by_cases hut : u = t
    · subst hut
      rw [if_pos rfl, if_neg hend.notActive]
    · rw [if_neg hut, hend.others u hut]
      exact hs.opened u
  · rw [hend.draws]
    rcases hcommits c hc with hc | ⟨rfl, hactive, hstart, -⟩
    · obtain ⟨x, hx, hle, hlt⟩ := hs.commitsOld c hc
      exact ⟨x, hx, hle, hend.keeps c.tx hlt⟩
    · exact ⟨_, hstart, (hchain.started c.tx hactive).2, fun hu => absurd hu hend.notActive⟩
  · rw [hend.draws]
    rcases haborted p hp with hp | ⟨rfl, hactive, hstart, -⟩
    · obtain ⟨hle, hlt⟩ := hs.abortedOld p hp
      exact ⟨hle, hend.keeps p.1 hlt⟩
    · rw [hstart]
      exact ⟨(hchain.started p.1 hactive).2, fun hu => absurd hu hend.notActive⟩
  · rcases hcommits c hc with hold | ⟨rfl, hactive, hstart, hsame⟩
    · rcases haborted p hp with hp | ⟨rfl, hactive, hstart, -⟩
      · exact hs.apart c hold p hp hcp
      · rw [hstart, ← hcp]
        exact hs.commit_ne hold (hcp ▸ hactive)
    · rw [hsame] at hp
      intro heq
      rw [hstart, hcp] at heq
      exact hs.abort_ne hp (hcp ▸ hactive) (Option.some.inj heq).symm

/-- An update that leaves a thread's place names no new doomed thread. -/
private theorem update_deadlocked {pc : TxId → Pc} {t u : TxId} {p : Pc}
    {kname value : Bytes} (hp : ∀ kname value, p ≠ .deadlocked kname value)
    (h : Function.update pc t p u = .deadlocked kname value) :
    pc u = .deadlocked kname value := by
  by_cases hut : u = t
  · subst hut
    rw [Function.update_self] at h
    exact absurd h (hp kname value)
  · rwa [Function.update_of_ne hut] at h

theorem LifeInv.cleanup {s : Sys} (hs : LifeInv s) (hlock : LockInv s) (hchain : ChainInv s)
    {t : TxId} {kname value : Bytes} (hpc : s.pc t = .deadlocked kname value) :
    LifeInv (s.finish t (deadlockSection s.mem t) (.txWrite (some t) kname value (-1))) := by
  have hkey : (keyOf kname).isSome := hs.doomedKnown t kname value hpc
  have hactive : (s.mem.txs t).state = .active := hlock.busy t (by simp [hpc])
  have hopen : openStart s.hist t = some (s.mem.txs t).startTs := by
    rw [hs.opened, if_pos hactive]
  have hend : Ended s
      (s.finish t (deadlockSection s.mem t) (.txWrite (some t) kname value (-1))) t :=
    { draws := rfl
      notActive := by simp [Sys.finish]
      others := fun u hu => by simp [Sys.finish, hu]
      closed := fun u => by
        simp only [Sys.finish, openStart, true_and, hkey, and_true, Option.some.injEq,
          eq_comm (a := t)]
      doomed := fun u _ _ h => update_deadlocked (by simp) h }
  refine hs.ended hchain hend (fun c hc => Or.inl hc) (fun p hp => ?_)
  · simp only [Sys.finish, aborted, hkey, and_self, if_true, Option.bind_some, hopen,
      Option.map_some, Option.toList_some, List.singleton_append, List.mem_cons] at hp
    rcases hp with rfl | hp
    · exact Or.inr ⟨rfl, hactive, rfl, rfl⟩
    · exact Or.inl hp

theorem LifeInv.install {s : Sys} (hs : LifeInv s) (hlock : LockInv s) (hchain : ChainInv s)
    {t : TxId} {ts : Nat} (hpc : s.pc t = .committing ts) :
    LifeInv (s.finish t (commitSection s.mem t ts) (.txCommit (some t) 0 ts)) := by
  have hactive : (s.mem.txs t).state = .active := hlock.busy t (by simp [hpc])
  have hopen : openStart s.hist t = some (s.mem.txs t).startTs := by
    rw [hs.opened, if_pos hactive]
  have hend : Ended s (s.finish t (commitSection s.mem t ts) (.txCommit (some t) 0 ts)) t :=
    { draws := rfl
      notActive := by simp [Sys.finish]
      others := fun u hu => by simp [Sys.finish, hu]
      closed := fun u => by
        simp only [Sys.finish, openStart, true_and, Option.some.injEq, eq_comm (a := t)]
      doomed := fun u _ _ h => update_deadlocked (by simp) h }
  refine hs.ended hchain hend (fun c hc => ?_) (fun p hp => Or.inl hp)
  · simp only [Sys.finish, commits, if_true, List.mem_cons] at hc
    rcases hc with rfl | hc
    · exact Or.inr ⟨rfl, hactive, hopen, rfl⟩
    · exact Or.inl hc

theorem LifeInv.abort {s : Sys} (hs : LifeInv s) (hchain : ChainInv s) (t : TxId) :
    LifeInv (s.record (abortSection s.mem t) (.txAbort (some t))) := by
  have hend : Ended s (s.record (abortSection s.mem t) (.txAbort (some t))) t :=
    { draws := rfl
      notActive := by simp [Sys.record]
      others := fun u hu => by simp [Sys.record, hu]
      closed := fun u => by
        simp only [Sys.record, openStart, Option.some.injEq, eq_comm (a := t)]
      doomed := fun _ _ _ h => h }
  refine hs.ended hchain hend (fun c hc => Or.inl hc) (fun p hp => ?_)
  · simp only [Sys.record, aborted, Option.bind_some, hs.opened t] at hp
    by_cases hactive : (s.mem.txs t).state = .active
    · simp only [if_pos hactive, Option.map_some, Option.toList_some, List.singleton_append,
        List.mem_cons] at hp
      rcases hp with rfl | hp
      · exact Or.inr ⟨rfl, hactive, rfl, rfl⟩
      · exact Or.inl hp
    · simp only [if_neg hactive, Option.map_none, Option.toList_none, List.nil_append] at hp
      exact Or.inl hp

/-- A failed write of an ACTIVE transaction has an unknown key. -/
private theorem openStart_of_silent_write {s : Sys} (hs : LifeInv s) (hnames : NamesFixed s.mem)
    {t : Option TxId} {kname : Bytes} (hkey : (keyOf kname).isSome)
    (hfail : ∀ u, t = some u → (s.mem.txs u).state = .active →
      findKeyIndex s.mem kname = none) (u : TxId) (htu : t = some u) :
    openStart s.hist u = none := by
  rw [hs.opened, if_neg]
  intro hactive
  have hnone := hfail u htu hactive
  rw [findKeyIndex_eq hnames] at hnone
  simp [hnone] at hkey

theorem LifeInv.silent {s : Sys} (hs : LifeInv s) (hnames : NamesFixed s.mem) {e : Entry}
    (he : e.Silent s.mem) : LifeInv (s.record s.mem e) := by
  have hopen : ∀ t, openStart (e :: s.hist) t = openStart s.hist t := by
    intro t
    cases e with
    | txWrite t' kname value ret =>
        simp only [openStart]
        split
        · rename_i hcond
          obtain ⟨-, htt, hkey⟩ := hcond
          exact (openStart_of_silent_write hs hnames hkey he.2 t htt).symm
        · rfl
    | _ => simp_all [openStart, Entry.Silent]
  have haborted : aborted (e :: s.hist) = aborted s.hist := by
    cases e with
    | txWrite t' kname value ret =>
        simp only [aborted]
        split
        · rename_i hcond
          cases t' with
          | none => rfl
          | some t =>
              simp [openStart_of_silent_write hs hnames hcond.2 he.2 t rfl]
        · rfl
    | txAbort t' =>
        have hnone : t' = none := he
        subst hnone
        rfl
    | _ => rfl
  exact hs.frame hopen (commits_silent he s.hist) haborted (Nat.le_refl _)
    (fun _ => ⟨rfl, rfl⟩) (fun _ _ _ h => Or.inr h)

end SystemsInC.Ports.MvccHistory
