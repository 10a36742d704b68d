import Mathlib.Algebra.GroupWithZero.Nat
import Mathlib.Logic.Function.Basic
import Mathlib.Data.List.FinRange
import SystemsInC.Verified.CString
import SystemsInC.Ports.WaitForGraph

/-!
# The in-memory multi-version key-value store

The data model and the operations of `mvcc-in-memory-key-value.c`.  Every
critical section of the source (the code between `pthread_mutex_lock` and
`pthread_mutex_unlock`) is one function on the state, and the operations that
the program calls are compositions of these sections.

Three representations are not the literal ones of the source.

* `locked_by` is `none` for `-1`, and a transaction's `id` is its index, which
  is the only value `init_store` and `begin_tx` ever give it.
* The first `write_count` entries of `write_keys` and `write_values` are the
  list `writes`; nothing reads the entries beyond them.
* `global_ts` is kept as the number of increments made so far; its value is
  that number plus one modulo `2 ^ 64`.
-/

namespace SystemsInC.Ports.MvccStore

open SystemsInC.Verified.CString
open SystemsInC.Ports.WaitForGraph

/-! ## Data model -/

abbrev maxKeys : Nat := 5
abbrev maxTransactions : Nat := 5
def maxWritesPerTx : Nat := 8

instance : NeZero maxKeys := ⟨by decide⟩

instance : NeZero maxTransactions := ⟨by decide⟩

/-- Size of `Version.value` and of each entry of `write_values`. -/
def valueLen : Nat := 32

def ulongMax : Nat := 2 ^ 64 - 1

/-- An index into `store`. -/
abbrev Key := Fin maxKeys

/-- An index into `txs`. -/
abbrev TxId := Fin maxTransactions

structure Version where
  value : Bytes
  beginTs : Nat
  endTs : Nat
  deriving DecidableEq, Repr

structure KVPair where
  name : Bytes
  /-- newest-first -/
  versions : List Version
  /-- `none` if free -/
  lockedBy : Option TxId

inductive TxState
  | unused
  | active
  | aborted
  | committed
  deriving DecidableEq, Repr

structure Transaction where
  state : TxState
  startTs : Nat
  writes : List (Key × Bytes)

/-- The globals of the program. -/
structure Mvcc where
  store : Key → KVPair
  txs : TxId → Transaction
  waitFor : TxId → TxId → Bool
  /-- number of increments of `global_ts` -/
  draws : Nat

/-- The value of `global_ts`. -/
def Mvcc.globalTs (st : Mvcc) : Nat := (1 + st.draws) % 2 ^ 64

/-- `atomic_fetch_add(&global_ts, 1)`: the value before, and the store after. -/
def Mvcc.fetchAddTs (st : Mvcc) : Nat × Mvcc :=
  (st.globalTs, { st with draws := st.draws + 1 })

/-- Replace the record of transaction `t`. -/
def Mvcc.setTx (st : Mvcc) (t : TxId) (tx : Transaction) : Mvcc :=
  { st with txs := Function.update st.txs t tx }

/-! ## Keys and initialisation -/

/-- `snprintf(name, KEY_NAME_LEN, "key%d", i)`. -/
def keyName (i : Key) : Bytes := [107, 101, 121, 48 + UInt8.ofNat i.val, 0]

/-- `find_key_index`; `none` for `-1`. -/
def findKeyIndex (st : Mvcc) (name : Bytes) : Option Key :=
  (List.finRange maxKeys).find? (fun i => decide (strcmpEq (st.store i).name name))

/-- The version every key starts with; only its string `"-"` is initialised. -/
def initialVersion : Version :=
  { value := [45, 0]
    beginTs := 1
    endTs := ulongMax }

/-- The globals after `init_store`; `global_ts` has its static initial value. -/
def initStore : Mvcc :=
  { store := fun i =>
      { name := keyName i
        versions := [initialVersion]
        lockedBy := none }
    txs := fun _ =>
      { state := .unused
        startTs := 0
        writes := [] }
    waitFor := fun _ _ => false
    draws := 0 }

/-! ## Locks and wait-for edges -/

/-- Clear row and column `t` of the wait-for matrix. -/
def clearEdges (st : Mvcc) (t : TxId) : Mvcc :=
  { st with waitFor := fun i j => if i = t ∨ j = t then false else st.waitFor i j }

/-- Free every key whose `locked_by` is `t`. -/
def releaseLocks (st : Mvcc) (t : TxId) : Mvcc :=
  { st with
    store := fun i =>
      if (st.store i).lockedBy = some t then { st.store i with lockedBy := none }
      else st.store i }

/-- The branch of `try_acquire_lock` that takes the lock and clears row `t`. -/
def acquireLock (st : Mvcc) (t : TxId) (kidx : Key) : Mvcc :=
  { st with
    store := Function.update st.store kidx { st.store kidx with lockedBy := some t }
    waitFor := Function.update st.waitFor t (fun _ => false) }

/-- `wait_for[t->id][owner] = 1;` -/
def addEdge (st : Mvcc) (t owner : TxId) : Mvcc :=
  { st with
    waitFor := Function.update st.waitFor t (Function.update (st.waitFor t) owner true) }

/-- `try_acquire_lock`: the code it returns (`0` acquired, `1` blocked, `-1`
deadlock) and the store after its critical section. -/
def tryAcquireLock (st : Mvcc) (t : TxId) (kidx : Key) : Int × Mvcc :=
  match (st.store kidx).lockedBy with
  | none => (0, acquireLock st t kidx)
  | some owner =>
      if owner = t then (0, acquireLock st t kidx)
      else if detectDeadlock (addEdge st t owner).waitFor then (-1, addEdge st t owner)
      else (1, addEdge st t owner)

/-! ## `begin_tx` -/

/-- The transaction an id given to `begin_tx` names; `none` out of range. -/
def txOfId (id : Int) : Option TxId :=
  if h : 0 ≤ id ∧ id < maxTransactions then some ⟨id.toNat, by omega⟩ else none

/-- The critical section of `begin_tx` for an id in range. -/
def beginSection (st : Mvcc) (t : TxId) : Mvcc :=
  let (ts, st') := st.fetchAddTs
  clearEdges (st'.setTx t { state := .active, startTs := ts, writes := [] }) t

/-- `begin_tx`: the pointer it returns. -/
def beginTx (st : Mvcc) (id : Int) : Option TxId × Mvcc :=
  match txOfId id with
  | none => (none, st)
  | some t => (some t, beginSection st t)

/-! ## `tx_read` -/

/-- The test `begin_ts <= start_ts && start_ts < end_ts`. -/
def Version.visible (startTs : Nat) (v : Version) : Bool :=
  decide (v.beginTs ≤ startTs) && decide (startTs < v.endTs)

/-- The critical section of `tx_read`: the code returned and the bytes copied to
`out_value`. -/
def readSection (st : Mvcc) (t : TxId) (kidx : Key) (outLen : Nat) : Int × Bytes :=
  match (st.txs t).writes.find? (fun e => decide (e.1 = kidx)) with
  | some e => (0, strncpy e.2 outLen)
  | none =>
      match (st.store kidx).versions.find? (Version.visible (st.txs t).startTs) with
      | some v => (0, strncpy v.value outLen)
      | none => (-1, [])

def txRead (st : Mvcc) (t : Option TxId) (kname : Bytes) (outLen : Nat) : Int × Bytes :=
  match t with
  | none => (-1, [])
  | some t =>
      if (st.txs t).state ≠ .active then (-1, [])
      else
        match findKeyIndex st kname with
        | none => (-1, [])
        | some kidx => readSection st t kidx outLen

/-! ## `tx_write` -/

/-- Overwrite the first entry for `kidx`, as the loop of `tx_write` does. -/
def updateEntry (kidx : Key) (value : Bytes) : List (Key × Bytes) → List (Key × Bytes)
  | [] => []
  | e :: rest =>
      if e.1 = kidx then (kidx, strncpy value valueLen) :: rest
      else e :: updateEntry kidx value rest

/-- The write buffer after the second critical section of `tx_write`; `none` is
the branch "write buffer full". -/
def bufferEntry (writes : List (Key × Bytes)) (kidx : Key) (value : Bytes) :
    Option (List (Key × Bytes)) :=
  if writes.any (fun e => decide (e.1 = kidx)) then some (updateEntry kidx value writes)
  else if maxWritesPerTx ≤ writes.length then none
  else some (writes ++ [(kidx, strncpy value valueLen)])

/-- The second critical section of `tx_write`: the code returned, and the store
after it. -/
def bufferSection (st : Mvcc) (t : TxId) (kidx : Key) (value : Bytes) : Int × Mvcc :=
  match bufferEntry (st.txs t).writes kidx value with
  | none => (-1, st)
  | some writes => (0, st.setTx t { st.txs t with writes := writes })

/-- The clean-up of `tx_write` after a deadlock verdict. -/
def deadlockSection (st : Mvcc) (t : TxId) : Mvcc :=
  releaseLocks (clearEdges (st.setTx t { st.txs t with state := .aborted }) t) t

def txWrite (st : Mvcc) (t : Option TxId) (kname value : Bytes) : Int × Mvcc :=
  match t with
  | none => (-1, st)
  | some t =>
      if (st.txs t).state ≠ .active then (-1, st)
      else
        match findKeyIndex st kname with
        | none => (-1, st)
        | some kidx =>
            let (lockRes, st') := tryAcquireLock st t kidx
            if lockRes = -1 then (-1, deadlockSection st' t)
            else if lockRes = 1 then (1, st')
            else bufferSection st' t kidx value

/-! ## `tx_commit` -/

/-- Set the `end_ts` of the head. -/
def retireHead (commitTs : Nat) : List Version → List Version
  | [] => []
  | old :: rest => { old with endTs := commitTs } :: rest

/-- Push a version that begins at `commitTs` and retire the head before it. -/
def installVersion (commitTs : Nat) (value : Bytes) (versions : List Version) :
    List Version :=
  { value := strncpy value valueLen
    beginTs := commitTs
    endTs := ulongMax } :: retireHead commitTs versions

/-- The loop of `tx_commit` over the write buffer. -/
def installWrites (commitTs : Nat) :
    List (Key × Bytes) → (Key → KVPair) → Key → KVPair
  | [], store => store
  | e :: rest, store =>
      installWrites commitTs rest (Function.update store e.1
        { store e.1 with versions := installVersion commitTs e.2 (store e.1).versions })

/-- The critical section of `tx_commit`. -/
def commitSection (st : Mvcc) (t : TxId) (commitTs : Nat) : Mvcc :=
  let st := { st with store := installWrites commitTs (st.txs t).writes st.store }
  let st := clearEdges (releaseLocks st t) t
  st.setTx t { st.txs t with state := .committed }

/-- `tx_commit`: the code it returns, the timestamp it prints, and the store. -/
def txCommit (st : Mvcc) (t : Option TxId) : Int × Nat × Mvcc :=
  match t with
  | none => (-1, 0, st)
  | some t =>
      if (st.txs t).state ≠ .active then (-1, 0, st)
      else
        let (commitTs, st') := st.fetchAddTs
        (0, commitTs, commitSection st' t commitTs)

/-! ## `tx_abort` -/

/-- The critical section of `tx_abort`. -/
def abortSection (st : Mvcc) (t : TxId) : Mvcc :=
  let st := clearEdges (releaseLocks st t) t
  st.setTx t { st.txs t with state := .aborted, writes := [] }

def txAbort (st : Mvcc) (t : Option TxId) : Mvcc :=
  match t with
  | none => st
  | some t => abortSection st t

/-! ## The write buffer as a map -/

/-- The keys of a write buffer, in buffer order. -/
def bufferedKeys (writes : List (Key × Bytes)) : List Key := writes.map Prod.fst

/-- The value a write buffer holds for a key. -/
def buffered (writes : List (Key × Bytes)) (k : Key) : Option Bytes :=
  (writes.find? (fun e => decide (e.1 = k))).map Prod.snd

@[simp] theorem buffered_nil (k : Key) : buffered [] k = none := rfl

theorem buffered_cons (e : Key × Bytes) (rest : List (Key × Bytes)) (k : Key) :
    buffered (e :: rest) k = if e.1 = k then some e.2 else buffered rest k := by
  by_cases h : e.1 = k
  · simp [buffered, h]
  · simp [buffered, h]

theorem buffered_append (writes rest : List (Key × Bytes)) (k : Key) :
    buffered (writes ++ rest) k = (buffered writes k).or (buffered rest k) := by
  induction writes with
  | nil => simp
  | cons e writes ih =>
      rw [List.cons_append, buffered_cons, buffered_cons, ih]
      split <;> simp

theorem buffered_eq_none_iff (writes : List (Key × Bytes)) (k : Key) :
    buffered writes k = none ↔ k ∉ bufferedKeys writes := by
  induction writes with
  | nil => simp [bufferedKeys]
  | cons e writes ih =>
      rw [buffered_cons]
      by_cases h : e.1 = k
      · simp [h, bufferedKeys]
      · rw [if_neg h, ih]
        simp [bufferedKeys, Ne.symm h]

private theorem any_key_iff (writes : List (Key × Bytes)) (k : Key) :
    writes.any (fun e => decide (e.1 = k)) = true ↔ k ∈ bufferedKeys writes := by
  simp [bufferedKeys]

private theorem updateEntry_keys (k : Key) (value : Bytes) (writes : List (Key × Bytes)) :
    bufferedKeys (updateEntry k value writes) = bufferedKeys writes := by
  induction writes with
  | nil => rfl
  | cons e writes ih =>
      by_cases h : e.1 = k
      · simp [updateEntry, bufferedKeys, h]
      · simpa [updateEntry, bufferedKeys, h] using ih

private theorem updateEntry_buffered (k k' : Key) (value : Bytes)
    (writes : List (Key × Bytes)) (hk : k ∈ bufferedKeys writes) :
    buffered (updateEntry k value writes) k' =
      if k = k' then some (strncpy value valueLen) else buffered writes k' := by
  induction writes with
  | nil => simp [bufferedKeys] at hk
  | cons e writes ih =>
      by_cases h : e.1 = k
      · subst h
        by_cases h' : e.1 = k' <;> simp [updateEntry, buffered_cons, h']
      · have hk' : k ∈ bufferedKeys writes := by
          simpa [bufferedKeys, Ne.symm h] using hk
        rw [updateEntry, if_neg h, buffered_cons, buffered_cons, ih hk']
        by_cases he : e.1 = k'
        · subst he
          simp [Ne.symm h]
        · simp [he]

/-- The keys after buffering: `k` is new at the end, or they are unchanged. -/
theorem bufferEntry_keys {writes writes' : List (Key × Bytes)} {k : Key} {value : Bytes}
    (h : bufferEntry writes k value = some writes') :
    (k ∈ bufferedKeys writes ∧ bufferedKeys writes' = bufferedKeys writes) ∨
      (k ∉ bufferedKeys writes ∧ bufferedKeys writes' = bufferedKeys writes ++ [k]) := by
  unfold bufferEntry at h
  by_cases hk : k ∈ bufferedKeys writes
  · rw [if_pos ((any_key_iff writes k).mpr hk)] at h
    obtain rfl := Option.some.inj h
    exact Or.inl ⟨hk, updateEntry_keys k value writes⟩
  · rw [if_neg (fun hany => hk ((any_key_iff writes k).mp hany))] at h
    split at h
    · simp at h
    · obtain rfl := Option.some.inj h
      exact Or.inr ⟨hk, by simp [bufferedKeys]⟩

/-- Buffering binds `k` and nothing else. -/
theorem bufferEntry_buffered {writes writes' : List (Key × Bytes)} {k : Key} {value : Bytes}
    (h : bufferEntry writes k value = some writes') (k' : Key) :
    buffered writes' k' =
      if k = k' then some (strncpy value valueLen) else buffered writes k' := by
  unfold bufferEntry at h
  by_cases hk : k ∈ bufferedKeys writes
  · rw [if_pos ((any_key_iff writes k).mpr hk)] at h
    obtain rfl := Option.some.inj h
    exact updateEntry_buffered k k' value writes hk
  · rw [if_neg (fun hany => hk ((any_key_iff writes k).mp hany))] at h
    split at h
    · simp at h
    · obtain rfl := Option.some.inj h
      rw [buffered_append, buffered_cons]
      by_cases hkk : k = k'
      · subst hkk
        simp [(buffered_eq_none_iff writes k).mpr hk]
      · simp [hkk]

/-- The buffer is full only with as many entries as it has slots. -/
theorem bufferEntry_eq_none {writes : List (Key × Bytes)} {k : Key} {value : Bytes}
    (h : bufferEntry writes k value = none) :
    k ∉ bufferedKeys writes ∧ maxWritesPerTx ≤ writes.length := by
  unfold bufferEntry at h
  by_cases hk : k ∈ bufferedKeys writes
  · simp [(any_key_iff writes k).mpr hk] at h
  · rw [if_neg (fun hany => hk ((any_key_iff writes k).mp hany))] at h
    split at h
    · exact ⟨hk, ‹_›⟩
    · simp at h

/-! ## What the sections change

One equation for each field that a section touches; all other fields are left
alone, and `simp` knows both.
-/

section Frames

variable (st : Mvcc) (t : TxId) (k : Key)

@[simp] theorem clearEdges_store : (clearEdges st t).store = st.store := rfl
@[simp] theorem clearEdges_txs : (clearEdges st t).txs = st.txs := rfl
@[simp] theorem clearEdges_draws : (clearEdges st t).draws = st.draws := rfl

@[simp] theorem releaseLocks_txs : (releaseLocks st t).txs = st.txs := rfl
@[simp] theorem releaseLocks_waitFor : (releaseLocks st t).waitFor = st.waitFor := rfl
@[simp] theorem releaseLocks_draws : (releaseLocks st t).draws = st.draws := rfl

@[simp] theorem releaseLocks_versions :
    ((releaseLocks st t).store k).versions = (st.store k).versions := by
  simp only [releaseLocks]
  split <;> rfl

@[simp] theorem releaseLocks_name :
    ((releaseLocks st t).store k).name = (st.store k).name := by
  simp only [releaseLocks]
  split <;> rfl

theorem releaseLocks_lockedBy :
    ((releaseLocks st t).store k).lockedBy =
      if (st.store k).lockedBy = some t then none else (st.store k).lockedBy := by
  simp only [releaseLocks]
  split <;> rfl

@[simp] theorem setTx_store (tx : Transaction) : (st.setTx t tx).store = st.store := rfl
@[simp] theorem setTx_waitFor (tx : Transaction) : (st.setTx t tx).waitFor = st.waitFor := rfl
@[simp] theorem setTx_draws (tx : Transaction) : (st.setTx t tx).draws = st.draws := rfl
@[simp] theorem setTx_txs (tx : Transaction) :
    (st.setTx t tx).txs = Function.update st.txs t tx := rfl

@[simp] theorem acquireLock_txs : (acquireLock st t k).txs = st.txs := rfl
@[simp] theorem acquireLock_draws : (acquireLock st t k).draws = st.draws := rfl

@[simp] theorem acquireLock_versions (k' : Key) :
    ((acquireLock st t k).store k').versions = (st.store k').versions := by
  by_cases h : k' = k
  · subst h; simp [acquireLock]
  · simp [acquireLock, h]

@[simp] theorem acquireLock_name (k' : Key) :
    ((acquireLock st t k).store k').name = (st.store k').name := by
  by_cases h : k' = k
  · subst h; simp [acquireLock]
  · simp [acquireLock, h]

theorem acquireLock_lockedBy (k' : Key) :
    ((acquireLock st t k).store k').lockedBy =
      if k' = k then some t else (st.store k').lockedBy := by
  by_cases h : k' = k
  · subst h; simp [acquireLock]
  · simp [acquireLock, h]

theorem acquireLock_waitFor (i j : TxId) :
    (acquireLock st t k).waitFor i j = if i = t then false else st.waitFor i j := by
  by_cases h : i = t
  · subst h; simp [acquireLock]
  · simp [acquireLock, h]

@[simp] theorem addEdge_store (owner : TxId) : (addEdge st t owner).store = st.store := rfl
@[simp] theorem addEdge_txs (owner : TxId) : (addEdge st t owner).txs = st.txs := rfl
@[simp] theorem addEdge_draws (owner : TxId) : (addEdge st t owner).draws = st.draws := rfl

theorem addEdge_waitFor (owner i j : TxId) :
    (addEdge st t owner).waitFor i j =
      if i = t ∧ j = owner then true else st.waitFor i j := by
  by_cases hi : i = t
  · subst hi
    by_cases hj : j = owner
    · subst hj; simp [addEdge]
    · simp [addEdge, hj]
  · simp [addEdge, hi]

@[simp] theorem beginSection_store : (beginSection st t).store = st.store := rfl
@[simp] theorem beginSection_draws : (beginSection st t).draws = st.draws + 1 := rfl
@[simp] theorem beginSection_txs :
    (beginSection st t).txs = Function.update st.txs t
      { state := .active, startTs := st.globalTs, writes := [] } := rfl

theorem beginSection_waitFor (i j : TxId) :
    (beginSection st t).waitFor i j = if i = t ∨ j = t then false else st.waitFor i j := rfl

@[simp] theorem deadlockSection_txs :
    (deadlockSection st t).txs =
      Function.update st.txs t { st.txs t with state := .aborted } := rfl
@[simp] theorem deadlockSection_draws : (deadlockSection st t).draws = st.draws := rfl

@[simp] theorem deadlockSection_versions :
    ((deadlockSection st t).store k).versions = (st.store k).versions := by
  simp [deadlockSection]

@[simp] theorem deadlockSection_name :
    ((deadlockSection st t).store k).name = (st.store k).name := by
  simp [deadlockSection]

theorem deadlockSection_lockedBy :
    ((deadlockSection st t).store k).lockedBy =
      if (st.store k).lockedBy = some t then none else (st.store k).lockedBy := by
  rw [deadlockSection, releaseLocks_lockedBy]
  rfl

theorem deadlockSection_waitFor (i j : TxId) :
    (deadlockSection st t).waitFor i j =
      if i = t ∨ j = t then false else st.waitFor i j := rfl

@[simp] theorem abortSection_txs :
    (abortSection st t).txs =
      Function.update st.txs t { st.txs t with state := .aborted, writes := [] } := rfl
@[simp] theorem abortSection_draws : (abortSection st t).draws = st.draws := rfl

@[simp] theorem abortSection_versions :
    ((abortSection st t).store k).versions = (st.store k).versions := by
  simp [abortSection]

@[simp] theorem abortSection_name :
    ((abortSection st t).store k).name = (st.store k).name := by
  simp [abortSection]

theorem abortSection_lockedBy :
    ((abortSection st t).store k).lockedBy =
      if (st.store k).lockedBy = some t then none else (st.store k).lockedBy := by
  rw [abortSection, setTx_store, clearEdges_store, releaseLocks_lockedBy]

theorem abortSection_waitFor (i j : TxId) :
    (abortSection st t).waitFor i j =
      if i = t ∨ j = t then false else st.waitFor i j := rfl

/-! The commit section installs the whole write buffer. -/

private theorem installWrites_lockedBy (ts : Nat) (writes : List (Key × Bytes)) :
    ∀ store : Key → KVPair,
      (installWrites ts writes store k).lockedBy = (store k).lockedBy := by
  induction writes with
  | nil => exact fun _ => rfl
  | cons e writes ih =>
      intro store
      rw [installWrites, ih]
      by_cases h : k = e.1
      · subst h; simp
      · simp [h]

private theorem installWrites_name (ts : Nat) (writes : List (Key × Bytes)) :
    ∀ store : Key → KVPair,
      (installWrites ts writes store k).name = (store k).name := by
  induction writes with
  | nil => exact fun _ => rfl
  | cons e writes ih =>
      intro store
      rw [installWrites, ih]
      by_cases h : k = e.1
      · subst h; simp
      · simp [h]

private theorem installWrites_versions_of_not_mem (ts : Nat) (writes : List (Key × Bytes))
    (hk : k ∉ bufferedKeys writes) :
    ∀ store : Key → KVPair,
      (installWrites ts writes store k).versions = (store k).versions := by
  induction writes with
  | nil => exact fun _ => rfl
  | cons e writes ih =>
      intro store
      have hne : k ≠ e.1 := by
        rintro rfl
        simp [bufferedKeys] at hk
      have hrest : k ∉ bufferedKeys writes := by
        intro hmem
        exact hk (by simpa [bufferedKeys] using Or.inr (by simpa [bufferedKeys] using hmem))
      rw [installWrites, ih hrest]
      simp [hne]

/-- Without duplicate keys in the buffer a chain grows by at most one version. -/
private theorem installWrites_versions (ts : Nat) (writes : List (Key × Bytes))
    (hnodup : (bufferedKeys writes).Nodup) :
    ∀ store : Key → KVPair,
      (installWrites ts writes store k).versions =
        match buffered writes k with
        | none => (store k).versions
        | some value => installVersion ts value (store k).versions := by
  induction writes with
  | nil => exact fun _ => rfl
  | cons e writes ih =>
      intro store
      have hnodup' : (bufferedKeys writes).Nodup := (List.nodup_cons.mp hnodup).2
      have hfresh : e.1 ∉ bufferedKeys writes := (List.nodup_cons.mp hnodup).1
      rw [installWrites, buffered_cons]
      by_cases h : e.1 = k
      · subst h
        rw [if_pos rfl, installWrites_versions_of_not_mem e.1 ts writes hfresh]
        simp
      · rw [if_neg h, ih hnodup']
        simp [Ne.symm h]

@[simp] theorem commitSection_txs (ts : Nat) :
    (commitSection st t ts).txs =
      Function.update st.txs t { st.txs t with state := .committed } := rfl
@[simp] theorem commitSection_draws (ts : Nat) :
    (commitSection st t ts).draws = st.draws := rfl

@[simp] theorem commitSection_name (ts : Nat) :
    ((commitSection st t ts).store k).name = (st.store k).name := by
  simp [commitSection, installWrites_name]

theorem commitSection_lockedBy (ts : Nat) :
    ((commitSection st t ts).store k).lockedBy =
      if (st.store k).lockedBy = some t then none else (st.store k).lockedBy := by
  simp only [commitSection, setTx_store, clearEdges_store, releaseLocks_lockedBy,
    installWrites_lockedBy]

theorem commitSection_waitFor (ts : Nat) (i j : TxId) :
    (commitSection st t ts).waitFor i j =
      if i = t ∨ j = t then false else st.waitFor i j := rfl

theorem commitSection_versions (ts : Nat)
    (hnodup : (bufferedKeys (st.txs t).writes).Nodup) :
    ((commitSection st t ts).store k).versions =
      match buffered (st.txs t).writes k with
      | none => (st.store k).versions
      | some value => installVersion ts value (st.store k).versions := by
  simp only [commitSection, setTx_store, clearEdges_store, releaseLocks_versions]
  exact installWrites_versions k ts (st.txs t).writes hnodup st.store

end Frames

end SystemsInC.Ports.MvccStore
