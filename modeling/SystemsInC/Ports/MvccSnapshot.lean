import SystemsInC.Ports.MvccHistory

/-!
# Reads return the snapshot

`readSection_eq` says what `tx_read` copies out in any reachable state: the
transaction's buffered value if it has one, and otherwise the value of the
latest commit in the chain that is not newer than `start_ts`.  Between calls
made one at a time this is the abstract snapshot store of `MvccHistory`
(`txRead_refines_snapshot`).
-/

namespace SystemsInC.Ports.MvccSnapshot

open SystemsInC.Verified.CString
open SystemsInC.Verified.LatestBefore
open SystemsInC.Ports.MvccStore
open SystemsInC.Ports.MvccInterleaving
open SystemsInC.Ports.MvccLocks
open SystemsInC.Ports.MvccChains
open SystemsInC.Ports.MvccHistory

/-! ## The source of a read -/

/-- The commit a reader with `start_ts = ts` gets `k` from, among the commits
installed so far. -/
def snapshotSource (log : List Commit) (ts : Nat) (k : Key) : Option Commit :=
  latest Commit.commitTs ts (commitsOf log k)

/-- The bytes stored for `k` as the transaction `t` sees them. -/
def storedValue (s : Sys) (t : TxId) (k : Key) : Bytes :=
  match buffered (s.mem.txs t).writes k with
  | some value => value
  | none =>
      strncpy (sourceValue k (snapshotSource (commits s.hist) (s.mem.txs t).startTs k)) valueLen

/-- Each chain keeps its commits in the order of their timestamps. -/
theorem commitsOf_decreasing {s : Sys} (hchain : ChainInv s) (hhist : HistInv s) (k : Key) :
    Decreasing Commit.commitTs (commitsOf (commits s.hist) k) := by
  have hversions : Decreasing Prod.fst ((s.mem.store k).versions.map versionStamp) :=
    List.pairwise_map.mpr (hchain.tiled k).decreasing
  rw [hhist.chain k] at hversions
  exact List.pairwise_map.mp (List.pairwise_append.mp hversions).1

theorem isSnapshot_snapshotSource {s : Sys} (hchain : ChainInv s) (hhist : HistInv s)
    (ts : Nat) (k : Key) :
    IsSnapshot (commits s.hist) ts k (snapshotSource (commits s.hist) ts k) :=
  isLatest_latest (commitsOf_decreasing hchain hhist k) ts

/-- The version a reader finds in the chain holds the value of its source. -/
theorem visible_version {s : Sys} (hchain : ChainInv s) (hhist : HistInv s)
    (hwrap : NoWrap s.mem) {t : TxId} (hactive : (s.mem.txs t).state = .active) (k : Key) :
    ∃ v, (s.mem.store k).versions.find? (Version.visible (s.mem.txs t).startTs) = some v ∧
      cstr v.value = cstr (strncpy (sourceValue k
        (snapshotSource (commits s.hist) (s.mem.txs t).startTs k)) valueLen) := by
  obtain ⟨hpos, hle⟩ := hchain.started t hactive
  have hlt : (s.mem.txs t).startTs < ulongMax := by
    unfold NoWrap at hwrap
    unfold ulongMax
    omega
  have hinitial : latest Prod.fst (s.mem.txs t).startTs [versionStamp initialVersion] =
      some (versionStamp initialVersion) := by
    simp [latest, versionStamp, initialVersion, hpos]
  have hfound : (latest Version.beginTs (s.mem.txs t).startTs (s.mem.store k).versions).map
      versionStamp = ((snapshotSource (commits s.hist) (s.mem.txs t).startTs k).map
        (Commit.stamp k)).or (some (versionStamp initialVersion)) := by
    calc (latest Version.beginTs (s.mem.txs t).startTs (s.mem.store k).versions).map versionStamp
        = latest Prod.fst (s.mem.txs t).startTs ((s.mem.store k).versions.map versionStamp) :=
          (latest_map Prod.fst versionStamp _ _).symm
      _ = ((snapshotSource (commits s.hist) (s.mem.txs t).startTs k).map
            (Commit.stamp k)).or (some (versionStamp initialVersion)) := by
          rw [hhist.chain k, latest_append, latest_map, hinitial]
          rfl
  rw [(hchain.tiled k).find?_visible hlt]
  cases hsrc : snapshotSource (commits s.hist) (s.mem.txs t).startTs k with
  | none =>
      rw [hsrc, Option.map_none, Option.none_or, Option.map_eq_some_iff] at hfound
      obtain ⟨v, hv, hstamp⟩ := hfound
      refine ⟨v, hv, ?_⟩
      have hvalue : v.value = initialVersion.value := congrArg Prod.snd hstamp
      have hsource : sourceValue k none = initialVersion.value := rfl
      rw [hvalue, hsource]
      decide
  | some c =>
      rw [hsrc, Option.map_some, Option.some_or, Option.map_eq_some_iff] at hfound
      obtain ⟨v, hv, hstamp⟩ := hfound
      refine ⟨v, hv, ?_⟩
      have hvalue : v.value = strncpy (sourceValue k (some c)) valueLen :=
        congrArg Prod.snd hstamp
      rw [hvalue]

/-- **What a read copies out**, in any reachable state of any interleaving. -/
theorem readSection_eq {s : Sys} (hchain : ChainInv s) (hhist : HistInv s)
    (hwrap : NoWrap s.mem) {t : TxId} (hactive : (s.mem.txs t).state = .active) (k : Key)
    (outLen : Nat) :
    readSection s.mem t k outLen = (0, strncpy (storedValue s t k) outLen) := by
  unfold readSection storedValue buffered
  cases hfind : (s.mem.txs t).writes.find? (fun e => decide (e.1 = k)) with
  | some e => rfl
  | none =>
      obtain ⟨v, hv, hvalue⟩ := visible_version hchain hhist hwrap hactive k
      simp only [hv, Option.map_none]
      rw [strncpy_congr hvalue]

theorem txRead_eq {s : Sys} (hnames : NamesFixed s.mem) (hchain : ChainInv s)
    (hhist : HistInv s) (hwrap : NoWrap s.mem) {t : TxId}
    (hactive : (s.mem.txs t).state = .active) {kname : Bytes} {k : Key}
    (hkey : keyOf kname = some k) (outLen : Nat) :
    txRead s.mem (some t) kname outLen = (0, strncpy (storedValue s t k) outLen) := by
  have hidx : findKeyIndex s.mem kname = some k := (findKeyIndex_eq hnames kname).trans hkey
  simp only [txRead, hactive, ne_eq, not_true_eq_false, if_false, hidx]
  exact readSection_eq hchain hhist hwrap hactive k outLen

/-! ## Short values survive -/

/-- While `t` is open with `start_ts = ts`, only newer commits join those of `base`. -/
structure Pinned (t : TxId) (ts : Nat) (base : List Commit) (s : Sys) : Prop where
  startTs : (s.mem.txs t).startTs = ts
  pending : ∀ u commitTs, s.pc u = .committing commitTs → ts < commitTs
  newer : ∃ later, commits s.hist = later ++ base ∧ ∀ c ∈ later, ts < c.commitTs

section Pinned

variable {t : TxId} {ts : Nat} {base : List Commit} {s s' : Sys}

/-- A step that draws nothing and installs nothing. -/
theorem Pinned.frame (hs : Pinned t ts base s)
    (hstart : (s'.mem.txs t).startTs = (s.mem.txs t).startTs)
    (hpending : ∀ u commitTs, s'.pc u = .committing commitTs → s.pc u = .committing commitTs)
    (hcommits : commits s'.hist = commits s.hist) : Pinned t ts base s' where
  startTs := hstart.trans hs.startTs
  pending u commitTs hpc := hs.pending u commitTs (hpending u commitTs hpc)
  newer := by
    rw [hcommits]
    exact hs.newer

/-- The thread of a step is nowhere inside `tx_commit` behind it. -/
theorem committing_of_update {u v : TxId} {pc : Pc} {commitTs : Nat}
    (hne : pc ≠ .committing commitTs)
    (h : Function.update s.pc u pc v = .committing commitTs) : s.pc v = .committing commitTs := by
  by_cases hvu : v = u
  · subst hvu
    rw [Function.update_self] at h
    exact absurd h hne
  · rwa [Function.update_of_ne hvu] at h

theorem Pinned.draw (hs : Pinned t ts base s) (hchain : ChainInv s) (hwrap : NoWrap s.mem)
    (hactive : (s.mem.txs t).state = .active) (u : TxId) :
    Pinned t ts base (s.suspend u s.mem.fetchAddTs.2 (.committing s.mem.globalTs)) where
  startTs := hs.startTs
  newer := hs.newer
  pending v commitTs hpc := by
    by_cases hvu : v = u
    · subst hvu
      simp only [Sys.suspend, Function.update_self, Pc.committing.injEq] at hpc
      have hstarted := (hchain.started t hactive).2
      rw [hs.startTs] at hstarted
      rw [globalTs_of_noWrap hwrap] at hpc
      omega
    · exact hs.pending v commitTs (by simpa [Sys.suspend, hvu] using hpc)

theorem Pinned.install (hs : Pinned t ts base s) {u : TxId} {commitTs : Nat}
    (hpc : s.pc u = .committing commitTs) (htu : t ≠ u) :
    Pinned t ts base
      (s.finish u (commitSection s.mem u commitTs) (.txCommit (some u) 0 commitTs)) where
  startTs := by
    simpa [Sys.finish, htu] using hs.startTs
  pending v commitTs' hpc' := hs.pending v commitTs' (committing_of_update (by simp) hpc')
  newer := by
    obtain ⟨later, hcommits, hlater⟩ := hs.newer
    refine ⟨_ :: later, congrArg (List.cons _) hcommits, fun c hc => ?_⟩
    rcases List.mem_cons.mp hc with rfl | hc
    · exact hs.pending u commitTs hpc
    · exact hlater c hc

end Pinned

/-- None of the calls begins `t`. -/
def NotBegun (t : TxId) (calls : List Call) : Prop :=
  ∀ id, Call.beginTx id ∈ calls → txOfId id ≠ some t

theorem NotBegun.sequential {t : TxId} {calls : List Call} (h : NotBegun t calls) :
    ∀ a ∈ sequential calls, ¬ a.Begins t := by
  rintro a ha ⟨id, rfl, hid⟩
  exact h id (mem_of_call_mem_sequential ha) hid

end SystemsInC.Ports.MvccSnapshot
