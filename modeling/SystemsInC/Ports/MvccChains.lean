import SystemsInC.Ports.MvccLocks
import SystemsInC.Verified.LatestBefore

/-!
# Version chains

Every chain is newest-first and tiles the timestamps from `1` up to
`ULONG_MAX`, whatever the interleaving.  A commit draws its timestamp before it
takes the lock that protects its installation, so commits do not install in the
order of their timestamps; a single chain stays ordered because a key that a
transaction has buffered is locked until the installation (`LockInv.held`), and
a timestamp drawn while the lock is held exceeds every timestamp in the chain.

The counter must not have wrapped: fewer than `2 ^ 64 - 1` timestamps drawn.
-/

namespace SystemsInC.Ports.MvccChains

open SystemsInC.Verified.CString
open SystemsInC.Verified.LatestBefore
open SystemsInC.Ports.MvccStore
open SystemsInC.Ports.MvccInterleaving
open SystemsInC.Ports.MvccLocks

/-! ## Tilings -/

/-- The versions cover the timestamps from `1` up to `upper`, newest first. -/
def Tiles : Nat → List Version → Prop
  | upper, [] => upper = 1
  | upper, v :: rest => v.endTs = upper ∧ v.beginTs < upper ∧ Tiles v.beginTs rest

/-- A timestamp at or above the bound sees nothing. -/
theorem Tiles.countP_of_le {upper ts : Nat} {vs : List Version} (h : Tiles upper vs)
    (hts : upper ≤ ts) : vs.countP (Version.visible ts) = 0 := by
  induction vs generalizing upper with
  | nil => rfl
  | cons v vs ih =>
      obtain ⟨hend, hbegin, hrest⟩ := h
      have htail := ih hrest (by omega)
      have hhidden : ¬ Version.visible ts v = true := by
        simp [Version.visible]; omega
      rw [List.countP_cons_of_neg hhidden, htail]

/-- A timestamp below the bound sees exactly one version. -/
theorem Tiles.countP_eq_one {upper ts : Nat} {vs : List Version} (h : Tiles upper vs)
    (hpos : 1 ≤ ts) (hts : ts < upper) : vs.countP (Version.visible ts) = 1 := by
  induction vs generalizing upper with
  | nil =>
      simp only [Tiles] at h
      omega
  | cons v vs ih =>
      obtain ⟨hend, hbegin, hrest⟩ := h
      by_cases hv : v.beginTs ≤ ts
      · have hseen : Version.visible ts v = true := by
          simp [Version.visible]; omega
        rw [List.countP_cons_of_pos hseen, hrest.countP_of_le hv]
      · have hhidden : ¬ Version.visible ts v = true := by
          simp [Version.visible, hv]
        rw [List.countP_cons_of_neg hhidden, ih hrest (by omega)]

/-- Below the bound the visible version is the latest that has begun. -/
theorem Tiles.find?_visible {upper ts : Nat} {vs : List Version} (h : Tiles upper vs)
    (hts : ts < upper) :
    vs.find? (Version.visible ts) = latest Version.beginTs ts vs := by
  induction vs generalizing upper with
  | nil => rfl
  | cons v vs ih =>
      obtain ⟨hend, hbegin, hrest⟩ := h
      unfold latest
      by_cases hv : v.beginTs ≤ ts
      · have hseen : Version.visible ts v = true := by
          simp [Version.visible]; omega
        rw [List.find?_cons_of_pos hseen, List.find?_cons_of_pos (by simpa using hv)]
      · have hhidden : ¬ Version.visible ts v = true := by
          simp [Version.visible, hv]
        rw [List.find?_cons_of_neg hhidden, List.find?_cons_of_neg (by simpa using hv)]
        exact ih hrest (by omega)

theorem Tiles.beginTs_lt {upper : Nat} {vs : List Version} (h : Tiles upper vs) :
    ∀ v ∈ vs, v.beginTs < upper := by
  induction vs generalizing upper with
  | nil => simp
  | cons v vs ih =>
      obtain ⟨-, hbegin, hrest⟩ := h
      intro w hw
      rcases List.mem_cons.mp hw with rfl | hw
      · exact hbegin
      · exact Nat.lt_trans (ih hrest w hw) hbegin

theorem Tiles.decreasing {upper : Nat} {vs : List Version} (h : Tiles upper vs) :
    Decreasing Version.beginTs vs := by
  induction vs generalizing upper with
  | nil => exact .nil
  | cons v vs ih =>
      obtain ⟨-, -, hrest⟩ := h
      exact .cons hrest.beginTs_lt (ih hrest)

/-- Installing a version newer than the whole chain keeps the tiling. -/
theorem Tiles.installVersion {upper ts : Nat} {vs : List Version} (h : Tiles upper vs)
    (hupper : 1 < upper) (hnewer : ∀ v ∈ vs, v.beginTs < ts) (hts : ts < ulongMax)
    (value : Bytes) : Tiles ulongMax (installVersion ts value vs) := by
  cases vs with
  | nil =>
      simp only [Tiles] at h
      omega
  | cons v rest =>
      obtain ⟨-, -, hrest⟩ := h
      exact ⟨rfl, hts, rfl, hnewer v (by simp), hrest⟩

/-- The shape of a chain in the words of the linked list: the head is open, every
other version ends where the version before it begins, begins strictly decrease,
and the last version begins at `1`. -/
structure NewestFirst (vs : List Version) : Prop where
  head : vs.head?.map Version.endTs = some ulongMax
  linked : vs.IsChain (fun newer older =>
    older.endTs = newer.beginTs ∧ older.beginTs < newer.beginTs)
  last : vs.getLast?.map Version.beginTs = some 1

private theorem Tiles.linked {upper : Nat} {vs : List Version} (h : Tiles upper vs) :
    vs.IsChain (fun newer older =>
      older.endTs = newer.beginTs ∧ older.beginTs < newer.beginTs) := by
  induction vs generalizing upper with
  | nil => exact .nil
  | cons v vs ih =>
      obtain ⟨-, -, hrest⟩ := h
      cases vs with
      | nil => exact .singleton v
      | cons w ws =>
          obtain ⟨hend, hbegin, -⟩ := id hrest
          exact .cons_cons ⟨hend, hbegin⟩ (ih hrest)

private theorem Tiles.last {upper : Nat} {vs : List Version} (h : Tiles upper vs)
    (hne : vs ≠ []) : vs.getLast?.map Version.beginTs = some 1 := by
  induction vs generalizing upper with
  | nil => exact absurd rfl hne
  | cons v vs ih =>
      obtain ⟨-, -, hrest⟩ := h
      cases vs with
      | nil => simpa [Tiles] using hrest
      | cons w ws =>
          rw [List.getLast?_cons_cons]
          exact ih hrest (by simp)

theorem Tiles.newestFirst {vs : List Version} (h : Tiles ulongMax vs) : NewestFirst vs := by
  cases vs with
  | nil => simp [Tiles, ulongMax] at h
  | cons v rest =>
      exact
        { head := by simp [h.1]
          linked := h.linked
          last := h.last (by simp) }

/-! ## The invariant -/

/-- Fewer than `2 ^ 64 - 1` timestamps have been drawn. -/
def NoWrap (st : Mvcc) : Prop := st.draws < 2 ^ 64 - 1

theorem globalTs_of_noWrap {st : Mvcc} (h : NoWrap st) : st.globalTs = 1 + st.draws := by
  unfold NoWrap at h
  unfold Mvcc.globalTs
  omega

structure ChainInv (s : Sys) : Prop where
  tiled : ∀ k, Tiles ulongMax (s.mem.store k).versions
  old : ∀ k, ∀ v ∈ (s.mem.store k).versions, v.beginTs ≤ max 1 s.mem.draws
  started : ∀ t, (s.mem.txs t).state = .active →
    1 ≤ (s.mem.txs t).startTs ∧ (s.mem.txs t).startTs ≤ s.mem.draws
  pending : ∀ t ts, s.pc t = .committing ts →
    ts ≤ s.mem.draws ∧ (s.mem.txs t).startTs < ts ∧
      ∀ k ∈ bufferedKeys (s.mem.txs t).writes, ∀ v ∈ (s.mem.store k).versions, v.beginTs < ts

theorem chainInv_init : ChainInv Sys.init := by
  refine
    { tiled := ?_
      old := by simp [Sys.init, initStore, initialVersion]
      started := by simp [Sys.init, initStore]
      pending := by simp [Sys.init] }
  intro k
  simp [Sys.init, initStore, initialVersion, Tiles, ulongMax]

/-- A step that installs nothing, begins nothing and draws nothing for a commit. -/
theorem ChainInv.frame {s s' : Sys} (hs : ChainInv s)
    (hversions : ∀ k, (s'.mem.store k).versions = (s.mem.store k).versions)
    (hdraws : s'.mem.draws = s.mem.draws)
    (hactive : ∀ t, (s'.mem.txs t).state = .active →
      (s.mem.txs t).state = .active ∧ (s'.mem.txs t).startTs = (s.mem.txs t).startTs)
    (hpending : ∀ t ts, s'.pc t = .committing ts →
      s.pc t = .committing ts ∧ s'.mem.txs t = s.mem.txs t) : ChainInv s' := by
  refine
    { tiled := fun k => by rw [hversions]; exact hs.tiled k
      old := fun k v hv => by
        rw [hversions] at hv
        rw [hdraws]
        exact hs.old k v hv
      started := fun t ht => ?_
      pending := fun t ts hpc => ?_ }
  · obtain ⟨ht', hstart⟩ := hactive t ht
    rw [hstart, hdraws]
    exact hs.started t ht'
  · obtain ⟨hpc', htx⟩ := hpending t ts hpc
    rw [hdraws, htx]
    obtain ⟨hts, hstart, hold⟩ := hs.pending t ts hpc'
    exact ⟨hts, hstart, fun k hk v hv => hold k hk v (by rwa [hversions] at hv)⟩

theorem ChainInv.begin {s : Sys} (hs : ChainInv s) {t : TxId} (hidle : s.pc t = .idle)
    (hwrap : NoWrap s.mem) (e : Entry) :
    ChainInv (s.record (beginSection s.mem t) e) := by
  have hts := globalTs_of_noWrap hwrap
  refine
    { tiled := hs.tiled
      old := fun k v hv => ?_
      started := fun u hu => ?_
      pending := fun u ts hpc => ?_ }
  · have hv' := hs.old k v hv
    simp only [Sys.record, beginSection_draws]
    omega
  · by_cases hut : u = t
    · subst hut
      simp only [Sys.record, beginSection_txs, Function.update_self, beginSection_draws, hts]
      omega
    · simp only [Sys.record, beginSection_txs, Function.update_of_ne hut,
        beginSection_draws] at hu ⊢
      have hstart := hs.started u hu
      omega
  · have hut : u ≠ t := by
      rintro rfl
      have hpc' : s.pc u = .committing ts := hpc
      simp [hidle] at hpc'
    obtain ⟨hle, hstart, hold⟩ := hs.pending u ts hpc
    simp only [Sys.record, beginSection_txs, Function.update_of_ne hut, beginSection_draws,
      beginSection_store]
    exact ⟨by omega, hstart, hold⟩

/-- The timestamp a commit draws exceeds everything installed so far. -/
theorem ChainInv.draw {s : Sys} (hs : ChainInv s) {t : TxId} (hready : Ready s t)
    (hwrap : NoWrap s.mem) :
    ChainInv (s.suspend t s.mem.fetchAddTs.2 (.committing s.mem.globalTs)) := by
  have hts := globalTs_of_noWrap hwrap
  have hstarted := hs.started t hready.active
  have hdraws : (s.suspend t s.mem.fetchAddTs.2 (.committing s.mem.globalTs)).mem.draws =
      s.mem.draws + 1 := rfl
  refine
    { tiled := hs.tiled
      old := fun k v hv => ?_
      started := fun u hu => ?_
      pending := fun u ts hpc => ?_ }
  · have hv' := hs.old k v hv
    rw [hdraws]
    omega
  · have hstart := hs.started u hu
    rw [hdraws]
    exact ⟨hstart.1, Nat.le_succ_of_le hstart.2⟩
  · rw [hdraws]
    by_cases hut : u = t
    · subst hut
      simp only [Sys.suspend, Function.update_self, Pc.committing.injEq] at hpc
      subst hpc
      refine ⟨by omega, ?_, fun k _ v hv => ?_⟩
      · rw [hts]
        exact Nat.lt_of_le_of_lt hstarted.2 (by omega)
      · have hv' := hs.old k v hv
        omega
    · simp only [Sys.suspend, Function.update_of_ne hut] at hpc
      obtain ⟨hle, hstart, hold⟩ := hs.pending u ts hpc
      exact ⟨by omega, hstart, hold⟩

/-- Members of a chain after an installation begin at the new timestamp or began
in the old chain. -/
theorem mem_installVersion {ts : Nat} {value : Bytes} {vs : List Version} {v : Version}
    (h : v ∈ installVersion ts value vs) : v.beginTs = ts ∨ ∃ w ∈ vs, w.beginTs = v.beginTs := by
  rcases List.mem_cons.mp h with rfl | h
  · exact Or.inl rfl
  · cases vs with
    | nil => simp [retireHead] at h
    | cons w rest =>
        rcases List.mem_cons.mp h with rfl | h
        · exact Or.inr ⟨w, by simp, rfl⟩
        · exact Or.inr ⟨v, by simp [h], rfl⟩

theorem ChainInv.install {s : Sys} (hs : ChainInv s) (hlock : LockInv s) {t : TxId} {ts : Nat}
    (hpc : s.pc t = .committing ts) (hwrap : NoWrap s.mem) (e : Entry) :
    ChainInv (s.finish t (commitSection s.mem t ts) e) := by
  obtain ⟨hts, -, hnewer⟩ := hs.pending t ts hpc
  have hactive : (s.mem.txs t).state = .active := hlock.busy t (by simp [hpc])
  have hversions := fun k => commitSection_versions s.mem t k ts (hlock.nodup t)
  -- a chain changes only when `t` has buffered its key, hence holds its lock
  have hsame : ∀ u k, u ≠ t → (s.mem.txs u).state = .active →
      k ∈ bufferedKeys (s.mem.txs u).writes →
      ((commitSection s.mem t ts).store k).versions = (s.mem.store k).versions := by
    intro u k hut hu hk
    have hfree : k ∉ bufferedKeys (s.mem.txs t).writes := by
      intro hkt
      have hown : some t = some u :=
        (hlock.held t hactive k hkt).symm.trans (hlock.held u hu k hk)
      exact hut (Option.some.inj hown).symm
    rw [hversions k, (buffered_eq_none_iff _ k).mpr hfree]
  refine
    { tiled := fun k => ?_
      old := fun k v hv => ?_
      started := fun u hu => ?_
      pending := fun u ts' hpc' => ?_ }
  · show Tiles ulongMax ((commitSection s.mem t ts).store k).versions
    rw [hversions k]
    cases hbuf : buffered (s.mem.txs t).writes k with
    | none => exact hs.tiled k
    | some value =>
        have hk : k ∈ bufferedKeys (s.mem.txs t).writes := by
          by_contra hk
          simp [(buffered_eq_none_iff _ k).mpr hk] at hbuf
        unfold NoWrap at hwrap
        refine (hs.tiled k).installVersion (by simp [ulongMax]) (hnewer k hk) ?_ value
        unfold ulongMax
        omega
  · simp only [Sys.finish, commitSection_draws] at hv ⊢
    rw [hversions k] at hv
    cases hbuf : buffered (s.mem.txs t).writes k with
    | none =>
        rw [hbuf] at hv
        exact hs.old k v hv
    | some value =>
        rw [hbuf] at hv
        rcases mem_installVersion hv with hnew | ⟨w, hw, hwv⟩
        · omega
        · have hold := hs.old k w hw
          omega
  · have hut : u ≠ t := by
      rintro rfl
      simp [Sys.finish] at hu
    simp only [Sys.finish, commitSection_txs, Function.update_of_ne hut,
      commitSection_draws] at hu ⊢
    exact hs.started u hu
  · have hut : u ≠ t := by
      rintro rfl
      simp [Sys.finish] at hpc'
    simp only [Sys.finish, Function.update_of_ne hut] at hpc'
    have hu : (s.mem.txs u).state = .active := hlock.busy u (by simp [hpc'])
    simp only [Sys.finish, commitSection_txs, Function.update_of_ne hut, commitSection_draws]
    obtain ⟨hle, hstart, hold⟩ := hs.pending u ts' hpc'
    refine ⟨hle, hstart, fun k hk v hv => ?_⟩
    rw [hsame u k hut hu hk] at hv
    exact hold k hk v hv

/-! ## Every step, every run -/

/-- A thread that is not `t` is where it was. -/
private theorem update_committing {pc : TxId → Pc} {t u : TxId} {p : Pc} {ts : Nat}
    (hp : ∀ ts, p ≠ .committing ts) (h : Function.update pc t p u = .committing ts) :
    u ≠ t ∧ pc u = .committing ts := by
  have hut : u ≠ t := by
    rintro rfl
    exact hp ts (by simpa using h)
  exact ⟨hut, by simpa [hut] using h⟩

theorem chainInv_step {s s' : Sys} {a : Act} (h : Step s a s') (hlock : LockInv s)
    (hwrap : NoWrap s'.mem) (hs : ChainInv s) : ChainInv s' := by
  have hwrap' : NoWrap s.mem := Nat.lt_of_le_of_lt h.draws_le hwrap
  cases h with
  | stutter => exact hs
  | silent _ e he =>
      exact hs.frame (fun _ => rfl) rfl (fun _ ht => ⟨ht, rfl⟩) (fun _ _ hpc => ⟨hpc, rfl⟩)
  | begin t id hid hidle => exact hs.begin hidle hwrap' _
  | acquire t kname value k hready hkey hfree =>
      refine hs.frame (fun _ => by simp [Sys.suspend]) rfl (fun _ ht => ⟨ht, rfl⟩)
        (fun u ts hpc => ⟨?_, rfl⟩)
      exact (update_committing (by simp) hpc).2
  | block t owner kname value k hready hkey howner hne hdetect =>
      exact hs.frame (fun _ => rfl) rfl (fun _ ht => ⟨ht, rfl⟩) (fun _ _ hpc => ⟨hpc, rfl⟩)
  | deadlock t owner kname value k hready hkey howner hne hdetect =>
      refine hs.frame (fun _ => rfl) rfl (fun _ ht => ⟨ht, rfl⟩) (fun u ts hpc => ⟨?_, rfl⟩)
      exact (update_committing (by simp) hpc).2
  | buffer t kname value k writes hpc hwrites =>
      refine hs.frame (fun _ => rfl) rfl (fun u hu => ?_) (fun u ts hpc' => ?_)
      · by_cases hut : u = t
        · subst hut; simpa [Sys.finish] using hu
        · simpa [Sys.finish, hut] using hu
      · obtain ⟨hut, hpc'⟩ := update_committing (by simp) hpc'
        exact ⟨hpc', by simp [Sys.finish, hut]⟩
  | bufferFull t kname value k hpc hwrites =>
      refine hs.frame (fun _ => rfl) rfl (fun _ ht => ⟨ht, rfl⟩) (fun u ts hpc' => ⟨?_, rfl⟩)
      exact (update_committing (by simp) hpc').2
  | cleanup t kname value hpc =>
      refine hs.frame (fun k => deadlockSection_versions s.mem t k) rfl (fun u hu => ?_)
        (fun u ts hpc' => ?_)
      · by_cases hut : u = t
        · subst hut; simp [Sys.finish] at hu
        · simpa [Sys.finish, hut] using hu
      · obtain ⟨hut, hpc'⟩ := update_committing (by simp) hpc'
        exact ⟨hpc', by simp [Sys.finish, hut]⟩
  | draw t hready => exact hs.draw hready hwrap'
  | install t ts hpc => exact hs.install hlock hpc hwrap' _
  | abort t hidle =>
      refine hs.frame (fun k => abortSection_versions s.mem t k) rfl (fun u hu => ?_)
        (fun u ts hpc' => ?_)
      · by_cases hut : u = t
        · subst hut; simp [Sys.record] at hu
        · simpa [Sys.record, hut] using hu
      · have hut : u ≠ t := by
          rintro rfl
          have hpc : s.pc u = .committing ts := hpc'
          simp [hidle] at hpc
        exact ⟨hpc', by simp [Sys.record, hut]⟩

theorem chainInv_run (as : List Act) (hwrap : NoWrap (Sys.init.run as).mem) :
    ChainInv (Sys.init.run as) := by
  have h := Sys.run_induction
    (P := fun s => LockInv s ∧ (NoWrap s.mem → ChainInv s)) Sys.init as
    (fun _ _ s s' hstep hs => ⟨lockInv_step hstep hs.1, fun hwrap =>
      chainInv_step hstep hs.1 hwrap
        (hs.2 (Nat.lt_of_le_of_lt hstep.draws_le hwrap))⟩)
    ⟨lockInv_init, fun _ => chainInv_init⟩
  exact h.2 hwrap

/-- **Chains tile time.**  In every state that any interleaving of the threads
reaches, every chain is newest-first with no gap and no overlap, and every
timestamp from `1` below `ULONG_MAX` sees exactly one version of each key. -/
theorem chains_tile_time (as : List Act) (hwrap : NoWrap (Sys.init.run as).mem) (k : Key) :
    let vs := ((Sys.init.run as).mem.store k).versions
    NewestFirst vs ∧
      ∀ ts, 1 ≤ ts → ts < ulongMax → vs.countP (Version.visible ts) = 1 := by
  have htiles := (chainInv_run as hwrap).tiled k
  exact ⟨htiles.newestFirst, fun ts hpos hts => htiles.countP_eq_one hpos hts⟩

/-- Transaction 0 draws its commit timestamp first and installs `key0` last,
after transaction 1 has committed `key1`. -/
def crossedCommits : List Act :=
  [.call (.beginTx 0), .call (.txWrite (some 0) (keyName 0) [97]), .resume 0,
   .call (.beginTx 1), .call (.txWrite (some 1) (keyName 1) [98]), .resume 1,
   .call (.txCommit (some 0)), .call (.txCommit (some 1)), .resume 1, .resume 0]

theorem chains_tile_time_crossedCommits :
    let vs := ((Sys.init.run crossedCommits).mem.store 0).versions
    NewestFirst vs ∧
      ∀ ts, 1 ≤ ts → ts < ulongMax → vs.countP (Version.visible ts) = 1 :=
  chains_tile_time crossedCommits (by unfold NoWrap; decide) 0

end SystemsInC.Ports.MvccChains
