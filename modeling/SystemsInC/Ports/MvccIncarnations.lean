import SystemsInC.Ports.MvccOutcome

/-!
# Locks of earlier incarnations

A transaction takes a lock to buffer a write, and commit, abort and the clean-up
after a deadlock release all its locks.  `begin_tx` empties the write buffer and
clears the edges, but it releases nothing: begun over a transaction that holds
locks, the new incarnation owns keys that it never wrote.  `locksBuffered_iff` shows
that this is the only way in which a lock loses its buffered write.
-/

namespace SystemsInC.Ports.MvccIncarnations

open SystemsInC.Verified.CString
open SystemsInC.Ports.MvccStore
open SystemsInC.Ports.MvccInterleaving
open SystemsInC.Ports.MvccLocks
open SystemsInC.Ports.MvccOutcome

/-- Every locked key is in the write buffer of its owner. -/
def LocksBuffered (st : Mvcc) : Prop :=
  ∀ k t, (st.store k).lockedBy = some t → k ∈ bufferedKeys (st.txs t).writes

/-- The transaction holds no lock. -/
def Unlocked (st : Mvcc) (t : TxId) : Prop := ∀ k, (st.store k).lockedBy ≠ some t

/-! ## Steps other than `begin_tx` -/

/-- A locked key is buffered, or its owner is about to buffer it. -/
def Owned (s : Sys) : Prop :=
  ∀ k t, (s.mem.store k).lockedBy = some t →
    k ∈ bufferedKeys (s.mem.txs t).writes ∨ ∃ kname value, s.pc t = .acquired kname value k

variable {s s' : Sys} {t : TxId}

/-- A thread between two calls is not about to buffer anything. -/
theorem Owned.buffered_of_idle (owned : Owned s) (hidle : s.pc t = .idle) {k : Key}
    (hk : (s.mem.store k).lockedBy = some t) : k ∈ bufferedKeys (s.mem.txs t).writes := by
  rcases owned k t hk with hbuffered | ⟨kname, value, hpc⟩
  · exact hbuffered
  · rw [hidle] at hpc
    cases hpc

/-- The end of a transaction takes locks away and leaves the other buffers. -/
theorem Owned.released (owned : Owned s) (hrel : Released s.mem s'.mem t)
    (hpc : ∀ u, u ≠ t → s'.pc u = s.pc u) : Owned s' := by
  intro k u hk
  have ⟨hold, hut⟩ := (hrel.lockedBy_iff k u).mp hk
  rw [hrel.others u hut, hpc u hut]
  exact owned k u hold

/-- A thread moves between the two steps of a call, or starts one; buffers and locks
stay. -/
theorem Owned.move (owned : Owned s) (hidle : s.pc t = .idle)
    (hlocks : ∀ k, (s'.mem.store k).lockedBy = (s.mem.store k).lockedBy)
    (htxs : s'.mem.txs = s.mem.txs) (hpc : ∀ u, u ≠ t → s'.pc u = s.pc u) : Owned s' := by
  intro k u hk
  rw [hlocks] at hk
  rw [htxs]
  by_cases hut : u = t
  · subst hut
    exact .inl (owned.buffered_of_idle hidle hk)
  · rw [hpc u hut]
    exact owned k u hk

theorem Owned.acquire (owned : Owned s) (hready : Ready s t) {k : Key} (kname value : Bytes) :
    Owned (s.suspend t (acquireLock s.mem t k) (.acquired kname value k)) := by
  intro k' u hk'
  simp only [Sys.suspend, acquireLock_lockedBy, acquireLock_txs] at hk' ⊢
  by_cases hk : k' = k
  · subst hk
    rw [if_pos rfl] at hk'
    cases hk'
    exact .inr ⟨kname, value, Function.update_self _ _ _⟩
  · rw [if_neg hk] at hk'
    by_cases hut : u = t
    · subst hut
      exact .inl (owned.buffered_of_idle hready.idle hk')
    · rw [Function.update_of_ne hut]
      exact owned k' u hk'

/-- The key is buffered, and it was the only one without a buffered write. -/
theorem Owned.buffer (owned : Owned s) {k : Key} {kname value : Bytes}
    {writes : List (Key × Bytes)} (hpc : s.pc t = .acquired kname value k)
    (hwrites : bufferEntry (s.mem.txs t).writes k value = some writes) (e : Entry) :
    Owned (s.finish t (s.mem.setTx t { s.mem.txs t with writes := writes }) e) := by
  intro k' u hk'
  have hold : (s.mem.store k').lockedBy = some u := hk'
  simp only [Sys.finish, setTx_txs]
  by_cases hut : u = t
  · subst hut
    rw [Function.update_self]
    left
    rcases bufferEntry_keys hwrites with ⟨hk, hkeys⟩ | ⟨_, hkeys⟩
    · rw [hkeys]
      rcases owned k' u hold with hbuffered | ⟨kname', value', hpc'⟩
      · exact hbuffered
      · rw [hpc] at hpc'
        cases hpc'
        exact hk
    · rw [hkeys, List.mem_append, List.mem_singleton]
      rcases owned k' u hold with hbuffered | ⟨kname', value', hpc'⟩
      · exact .inl hbuffered
      · rw [hpc] at hpc'
        cases hpc'
        exact .inr rfl
  · rw [Function.update_of_ne hut, Function.update_of_ne hut]
    exact owned k' u hold

theorem owned_step {a : Act} (h : Step s a s') (hlock : LockInv s) (hbegin : ∀ t, ¬ a.Begins t)
    (owned : Owned s) : Owned s' := by
  cases h with
  | stutter => exact owned
  | silent => exact owned
  | begin t id hid hidle => exact absurd ⟨id, rfl, hid⟩ (hbegin t)
  | acquire t kname value k hready hkey hfree => exact owned.acquire hready kname value
  | block t owner kname value k hready hkey howner hne hdetect =>
      exact owned.move hready.idle (fun _ => rfl) rfl (fun _ _ => rfl)
  | deadlock t owner kname value k hready hkey howner hne hdetect =>
      exact owned.move hready.idle (fun _ => rfl) rfl (fun u hu => Function.update_of_ne hu _ _)
  | buffer t kname value k writes hpc hwrites => exact owned.buffer hpc hwrites _
  | bufferFull t kname value k hpc hwrites =>
      exact absurd hwrites (hlock.buffer_not_full t k value)
  | cleanup t kname value hpc =>
      exact owned.released (released_deadlockSection s.mem t)
        (fun u hu => Function.update_of_ne hu _ _)
  | draw t hready =>
      exact owned.move hready.idle (fun _ => rfl) rfl (fun u hu => Function.update_of_ne hu _ _)
  | install t ts hpc =>
      exact owned.released (released_commitSection s.mem t ts)
        (fun u hu => Function.update_of_ne hu _ _)
  | abort t hidle => exact owned.released (released_abortSection s.mem t) (fun _ _ => rfl)

/-! ## Calls one at a time -/

theorem owned_atRest {st : Mvcc} {hist : List Entry} :
    Owned (Sys.atRest st hist) ↔ LocksBuffered st := by
  constructor
  · exact fun owned k t hk => owned.buffered_of_idle rfl hk
  · exact fun h k t hk => .inl (h k t hk)

/-- `begin_tx` of a transaction without locks. -/
theorem LocksBuffered.begin {st : Mvcc} (h : LocksBuffered st) (hfree : Unlocked st t) :
    LocksBuffered (beginSection st t) := by
  intro k u hk
  rw [beginSection_store] at hk
  have hut : u ≠ t := fun heq => hfree k (heq ▸ hk)
  rw [beginSection_txs, Function.update_of_ne hut]
  exact h k u hk

/-- After `begin_tx` a buffer is empty, and only a transaction without locks fits. -/
theorem LocksBuffered.unlocked_of_begin {st : Mvcc} (h : LocksBuffered (beginSection st t)) :
    Unlocked st t := by
  intro k hk
  have hmem := h k t hk
  rw [beginSection_txs, Function.update_self] at hmem
  cases hmem

theorem locksBuffered_concat {pre : List Call} {c : Call} (h : LocksBuffered (runCalls pre).1)
    (hfree : ∀ id t, c = .beginTx id → txOfId id = some t → Unlocked (runCalls pre).1 t) :
    LocksBuffered (runCalls (pre ++ [c])).1 := by
  rw [runCalls_concat]
  by_cases hbegin : ∃ id t, c = .beginTx id ∧ txOfId id = some t
  · have ⟨id, t, hc, hid⟩ := hbegin
    subst hc
    have hstore : (perform (runCalls pre).1 (.beginTx id)).1 =
        beginSection (runCalls pre).1 t := by
      simp only [perform, beginTx, hid]
    rw [hstore]
    exact h.begin (hfree id t rfl hid)
  · have hrun := Sys.run_induction (P := fun s => LockInv s ∧ Owned s)
      (Sys.atRest (runCalls pre).1 (runCalls pre).2) (callActs c)
      (fun a ha s s' hstep hs => by
        refine ⟨lockInv_step hstep hs.1, owned_step hstep hs.1 ?_ hs.2⟩
        rintro t ⟨id, rfl, hid⟩
        have hc : Call.beginTx id = c := by simpa [callActs] using ha
        exact hbegin ⟨id, t, hc.symm, hid⟩)
      ⟨lockInv_runCalls pre, owned_atRest.mpr h⟩
    rw [run_callActs] at hrun
    exact owned_atRest.mp hrun.2

/-- **Locks belong to buffered writes** between the calls of a sequence, if and only if
`begin_tx` is never called for a transaction that holds a lock. -/
theorem locksBuffered_iff (calls : List Call) :
    (∀ pre, pre <+: calls → LocksBuffered (runCalls pre).1) ↔
      ∀ pre id t, pre ++ [.beginTx id] <+: calls → txOfId id = some t →
        Unlocked (runCalls pre).1 t := by
  constructor
  · intro h pre id t hpre hid
    have hafter := h _ hpre
    rw [runCalls_concat] at hafter
    simp only [perform, beginTx, hid] at hafter
    exact hafter.unlocked_of_begin
  · intro h pre
    induction pre using List.reverseRecOn with
    | nil =>
        intro _ k t hk
        cases hk
    | append_singleton pre c ih =>
        intro hpre
        refine locksBuffered_concat (ih ((List.prefix_append _ _).trans hpre)) ?_
        intro id t hc hid
        exact h pre id t (hc ▸ hpre) hid

/-- Begun again over its lock of `key0`, transaction 0 owns a key that it never
wrote. -/
theorem not_locksBuffered_begunTwice :
    ¬ ∀ calls : List Call, ∀ pre, pre <+: calls → LocksBuffered (runCalls pre).1 := by
  intro h
  have hall := h [.beginTx 0, .txWrite (some 0) (keyName 0) [97, 0], .beginTx 0] _
    (List.prefix_refl _) 0 0 (by decide)
  revert hall
  decide

end SystemsInC.Ports.MvccIncarnations
