import SystemsInC.Verified.TextInput

/-!
# The write-ahead log

`write_wal_with_fsync`, `write_wal_without_fsync` and `crash_after_wal` append
three lines for a transaction to wal.log, and all but the last append its line to
db.txt.  `recover_from_wal` empties db.txt and goes through the log line by line.

It tells the lines apart by what `sscanf` returns for the formats
"TRANSACTION %*d BEGIN" and "TRANSACTION %*d COMMIT".  Neither assigns anything,
and they differ behind their last conversion only, so `sscanf` returns the same
for both (`sscanf_commitFormat`): no line is taken for a COMMIT line, and
db.txt stays empty (`recoverLines_db`).
-/

namespace SystemsInC.Ports.WalLog

open SystemsInC.Verified.CString
open SystemsInC.Verified.TextInput

/-! ## Writing -/

/-- The two files; `none` is a file that does not exist. -/
structure Disk where
  wal : Option Bytes
  db : Option Bytes
  deriving DecidableEq, Repr

/-- The files with the global counter of the running process. -/
structure World where
  disk : Disk
  transactionId : Nat
  deriving DecidableEq, Repr

/-- No files, at the start of a process. -/
def World.init : World :=
  { disk :=
      { wal := none
        db := none }
    transactionId := 1 }

/-- A file after `fopen(name, "a")` and output of `bytes`. -/
def append (file : Option Bytes) (bytes : Bytes) : Option Bytes := some (file.getD [] ++ bytes)

def beginLine (transactionId : Nat) : Bytes :=
  ascii "TRANSACTION " ++ decimal transactionId ++ ascii " BEGIN\n"

def setLine (key value : Bytes) : Bytes :=
  ascii "SET " ++ key ++ ascii " " ++ value ++ ascii "\n"

def commitLine (transactionId : Nat) : Bytes :=
  ascii "TRANSACTION " ++ decimal transactionId ++ ascii " COMMIT\n"

/-- A line of db.txt. -/
def dbLine (key value : Bytes) : Bytes := key ++ ascii " " ++ value ++ ascii "\n"

/-- The three `fprintf` calls that all writers begin with. -/
def logTransaction (w : World) (key value : Bytes) : Disk :=
  { w.disk with
    wal := append w.disk.wal
      (beginLine w.transactionId ++ setLine key value ++ commitLine w.transactionId) }

def applyTransactionToDb (disk : Disk) (key value : Bytes) : Disk :=
  { disk with db := append disk.db (dbLine key value) }

def writeWalWithFsync (w : World) (key value : Bytes) : World :=
  { disk := applyTransactionToDb (logTransaction w key value) key value
    transactionId := w.transactionId + 1 }

/-- Without `fsync` the same bytes are in the file. -/
def writeWalWithoutFsync (w : World) (key value : Bytes) : World :=
  { disk := applyTransactionToDb (logTransaction w key value) key value
    transactionId := w.transactionId + 1 }

/-- The process exits; the next one starts to count at 1 again. -/
def crashAfterWal (w : World) (key value : Bytes) : World :=
  { disk := logTransaction w key value
    transactionId := 1 }

inductive Event
  | newProcess
  | writeWalWithFsync (key value : Bytes)
  | writeWalWithoutFsync (key value : Bytes)
  | crashAfterWal (key value : Bytes)
  deriving DecidableEq, Repr

def World.step (w : World) : Event → World
  | .newProcess => { w with transactionId := 1 }
  | .writeWalWithFsync key value => writeWalWithFsync w key value
  | .writeWalWithoutFsync key value => writeWalWithoutFsync w key value
  | .crashAfterWal key value => crashAfterWal w key value

def World.run (w : World) (events : List Event) : World := events.foldl World.step w

/-! ## Recovery -/

/-- `MAX_LINE_LEN`. -/
def maxLineLen : Nat := 512

def beginFormat : Bytes := ascii "TRANSACTION %*d BEGIN"

def setFormat : Bytes := ascii "SET %s %s"

def commitFormat : Bytes := ascii "TRANSACTION %*d COMMIT"

/-- The local variables of `recover_from_wal` and what it has written to db.txt. -/
structure Recovery where
  currentKey : Bytes
  currentValue : Bytes
  inTransaction : Bool
  transactionCommitted : Bool
  db : Bytes

/-- `sscanf` stores the items that it assigns, also if it returns less than 2. -/
def Recovery.store (r : Recovery) : List Bytes → Recovery
  | [] => r
  | [key] => { r with currentKey := key }
  | key :: value :: _ => { r with
      currentKey := key
      currentValue := value }

/-- The body of the loop. -/
def recoverLine (r : Recovery) (line : Bytes) : Recovery :=
  if (sscanf line beginFormat).1 = 0 then
    { r with
      inTransaction := true
      transactionCommitted := false }
  else
    let stored := r.store (sscanf line setFormat).2
    if (sscanf line setFormat).1 = 2 then
      stored
    else if (sscanf line commitFormat).1 = 0 then
      if stored.inTransaction then
        { stored with
          db := stored.db ++ dbLine stored.currentKey stored.currentValue
          inTransaction := false }
      else
        stored
    else
      stored

/-- The loop over the lines that `fgets` returns. -/
def recoverLines (r : Recovery) (wal : Bytes) : Recovery :=
  if _ : wal = [] then
    r
  else
    recoverLines (recoverLine r (fgetsLine maxLineLen wal))
      (wal.drop (fgetsLine maxLineLen wal).length)
termination_by wal.length
decreasing_by
  have hline := fgetsLine_pos (show 2 ≤ maxLineLen by decide) ‹¬ wal = []›
  have hwal := List.length_pos_iff.mpr ‹¬ wal = []›
  rw [List.length_drop]
  omega

/-- `recover_from_wal`, with what its uninitialised arrays hold. -/
def recoverFromWal (key value : Bytes) (disk : Disk) : Disk :=
  match disk.wal with
  | none => disk
  | some wal =>
      { disk with
        db := some (recoverLines
          { currentKey := key
            currentValue := value
            inTransaction := false
            transactionCommitted := false
            db := [] } wal).db }

/-! ## No line is a COMMIT line -/

/-- What the two formats have in front of and in their only conversion. -/
def lineHead : List Directive := directives (ascii "TRANSACTION %*d")

/-- The two formats differ behind their last conversion, and only there. -/
theorem sscanf_commitFormat (line : Bytes) :
    sscanf line commitFormat = sscanf line beginFormat := by
  have hconv : ∃ d ∈ lineHead, d.plain = false := ⟨.skipInt, by decide, rfl⟩
  have hbegin : directives beginFormat = lineHead ++ directives (ascii " BEGIN") := by decide
  have hcommit : directives commitFormat = lineHead ++ directives (ascii " COMMIT") := by decide
  have hbeginPlain : ∀ d ∈ directives (ascii " BEGIN"), d.plain = true := by decide
  have hcommitPlain : ∀ d ∈ directives (ascii " COMMIT"), d.plain = true := by decide
  rw [sscanf, sscanf, hbegin, hcommit, scan_append hcommitPlain hconv,
    scan_append hbeginPlain hconv]

theorem Recovery.store_db (r : Recovery) (got : List Bytes) : (r.store got).db = r.db := by
  match got with
  | [] => rfl
  | [_] => rfl
  | _ :: _ :: _ => rfl

/-- The test for COMMIT comes after that for BEGIN has failed. -/
theorem recoverLine_db (r : Recovery) (line : Bytes) : (recoverLine r line).db = r.db := by
  unfold recoverLine
  split
  case isTrue => rfl
  case isFalse hbegin =>
      rw [sscanf_commitFormat]
      simp only [hbegin, reduceIte]
      split <;> exact r.store_db _

theorem recoverLines_db (r : Recovery) (wal : Bytes) : (recoverLines r wal).db = r.db := by
  induction r, wal using recoverLines.induct with
  | case1 r =>
      rw [recoverLines, dif_pos rfl]
  | case2 r wal hne ih =>
      rw [recoverLines, dif_neg hne, ih, recoverLine_db]

/-- Whatever the log holds, db.txt is empty after the recovery. -/
theorem recoverFromWal_db (key value : Bytes) (disk : Disk)
    (hdisk : disk.wal = none → disk.db = none) :
    (recoverFromWal key value disk).db.getD [] = [] := by
  unfold recoverFromWal
  split
  case h_1 hwal =>
      rw [hdisk hwal]
      rfl
  case h_2 wal hwal =>
      show (recoverLines _ wal).db = []
      rw [recoverLines_db]

/-! ## What the writers leave behind -/

/-- A transaction of the log. -/
structure Entry where
  transactionId : Nat
  key : Bytes
  value : Bytes
  deriving DecidableEq, Repr

def Entry.bytes (e : Entry) : Bytes :=
  beginLine e.transactionId ++ setLine e.key e.value ++ commitLine e.transactionId

/-- The transactions of a sequence of operations, in the order of the log. -/
def transactions : Nat → List Event → List Entry
  | _, [] => []
  | _, .newProcess :: events => transactions 1 events
  | n, .writeWalWithFsync key value :: events =>
      ⟨n, key, value⟩ :: transactions (n + 1) events
  | n, .writeWalWithoutFsync key value :: events =>
      ⟨n, key, value⟩ :: transactions (n + 1) events
  | n, .crashAfterWal key value :: events => ⟨n, key, value⟩ :: transactions 1 events

def logBytes (entries : List Entry) : Bytes := entries.flatMap Entry.bytes

def dbBytes (entries : List Entry) : Bytes := entries.flatMap (fun e => dbLine e.key e.value)

def Event.crashes : Event → Bool
  | .crashAfterWal _ _ => true
  | _ => false

/-- The log has the three lines of each transaction, in order. -/
theorem run_wal (w : World) (events : List Event) :
    (w.run events).disk.wal.getD [] =
      w.disk.wal.getD [] ++ logBytes (transactions w.transactionId events) := by
  induction events generalizing w with
  | nil => simp [World.run, transactions, logBytes]
  | cons e events ih =>
      rw [World.run, List.foldl_cons, ← World.run, ih]
      cases e with
      | newProcess => rfl
      | writeWalWithFsync key value =>
          simp [World.step, writeWalWithFsync, applyTransactionToDb, logTransaction, append,
            transactions, logBytes, Entry.bytes]
      | writeWalWithoutFsync key value =>
          simp [World.step, writeWalWithoutFsync, applyTransactionToDb, logTransaction, append,
            transactions, logBytes, Entry.bytes]
      | crashAfterWal key value =>
          simp [World.step, crashAfterWal, logTransaction, append, transactions, logBytes,
            Entry.bytes]

/-- Without a crash db.txt has one line for each transaction of the log. -/
theorem run_db (w : World) (events : List Event) (hcrash : ∀ e ∈ events, e.crashes = false) :
    (w.run events).disk.db.getD [] =
      w.disk.db.getD [] ++ dbBytes (transactions w.transactionId events) := by
  induction events generalizing w with
  | nil => simp [World.run, transactions, dbBytes]
  | cons e events ih =>
      have htail : ∀ e ∈ events, e.crashes = false :=
        fun e he => hcrash e (List.mem_cons_of_mem _ he)
      have hhead := hcrash e List.mem_cons_self
      rw [World.run, List.foldl_cons, ← World.run, ih _ htail]
      cases e with
      | newProcess => rfl
      | writeWalWithFsync key value =>
          simp [World.step, writeWalWithFsync, applyTransactionToDb, logTransaction, append,
            transactions, dbBytes]
      | writeWalWithoutFsync key value =>
          simp [World.step, writeWalWithoutFsync, applyTransactionToDb, logTransaction, append,
            transactions, dbBytes]
      | crashAfterWal key value => cases hhead

/-- No db.txt is written before a wal.log. -/
theorem run_db_none (w : World) (events : List Event)
    (h : w.disk.wal = none → w.disk.db = none) :
    (w.run events).disk.wal = none → (w.run events).disk.db = none := by
  induction events generalizing w with
  | nil => exact h
  | cons e events ih =>
      rw [World.run, List.foldl_cons, ← World.run]
      apply ih
      cases e with
      | newProcess => exact h
      | writeWalWithFsync key value => exact nofun
      | writeWalWithoutFsync key value => exact nofun
      | crashAfterWal key value => exact nofun

/-! ## The transactions of a prefix -/

/-- The transactions whose COMMIT lines, with their newlines, are within the first
`n` bytes of the log. -/
def committed : List Entry → Nat → List Entry
  | [], _ => []
  | e :: entries, n =>
      if e.bytes.length ≤ n then e :: committed entries (n - e.bytes.length) else []

/-- In the whole log all transactions are committed. -/
theorem committed_of_length_le (entries : List Entry) {n : Nat}
    (h : (logBytes entries).length ≤ n) : committed entries n = entries := by
  induction entries generalizing n with
  | nil => rfl
  | cons e entries ih =>
      rw [logBytes, List.flatMap_cons, List.length_append] at h
      have hhead : e.bytes.length ≤ n := by omega
      have htail : (logBytes entries).length ≤ n - e.bytes.length := by
        rw [logBytes]
        omega
      rw [committed, if_pos hhead, ih htail]

/-- The COMMIT line of each transaction ends behind the first `n` bytes. -/
def NoCommit (entries : List Entry) (n : Nat) : Prop :=
  ∀ i < entries.length, n < (logBytes (entries.take (i + 1))).length

theorem committed_eq_nil_iff (entries : List Entry) (n : Nat) :
    committed entries n = [] ↔ NoCommit entries n := by
  cases entries with
  | nil => exact ⟨fun _ i hi => absurd hi (Nat.not_lt_zero i), fun _ => rfl⟩
  | cons e entries =>
      have hnil : committed (e :: entries) n = [] ↔ n < e.bytes.length := by
        rw [committed]
        split
        case isTrue hle => simpa using hle
        case isFalse hlt => simpa using hlt
      rw [hnil]
      constructor
      · intro hlt i _
        rw [logBytes, List.take_succ_cons, List.flatMap_cons, List.length_append]
        omega
      · intro hno
        have hfirst := hno 0 (by simp)
        simpa [logBytes] using hfirst

theorem dbBytes_eq_nil_iff (entries : List Entry) : dbBytes entries = [] ↔ entries = [] := by
  cases entries with
  | nil => simp [dbBytes]
  | cons e entries => simp [dbBytes, dbLine, ascii]

/-! ## Exact recovery -/

/-- db.txt after a run from empty files, a cut of the log behind `n` bytes, and a
recovery; a file that does not exist counts as empty. -/
def recovered (key value : Bytes) (events : List Event) (n : Nat) : Bytes :=
  let disk := (World.init.run events).disk
  (recoverFromWal key value { disk with wal := disk.wal.map (List.take n) }).db.getD []

/-- The recovery leaves one line for each transaction committed within the first
`n` bytes and nothing else, and with the whole log and no crash what
`apply_transaction_to_db` had built. -/
def RecoveryExact (key value : Bytes) (events : List Event) (n : Nat) : Prop :=
  recovered key value events n = dbBytes (committed (transactions 1 events) n) ∧
    ((∀ e ∈ events, e.crashes = false) →
      ((World.init.run events).disk.wal.getD []).length ≤ n →
      recovered key value events n = (World.init.run events).disk.db.getD [])

theorem recovered_eq_nil (key value : Bytes) (events : List Event) (n : Nat) :
    recovered key value events n = [] := by
  apply recoverFromWal_db
  intro hwal
  have hnone : (World.init.run events).disk.wal = none := Option.map_eq_none_iff.mp hwal
  exact run_db_none World.init events (fun _ => rfl) hnone

/-- The recovery is exact only where there is nothing to recover: no COMMIT line
is completely in the prefix. -/
theorem recoveryExact_iff (key value : Bytes) (events : List Event) (n : Nat) :
    RecoveryExact key value events n ↔ NoCommit (transactions 1 events) n := by
  have hfirst : recovered key value events n = dbBytes (committed (transactions 1 events) n) ↔
      NoCommit (transactions 1 events) n := by
    rw [recovered_eq_nil, eq_comm, dbBytes_eq_nil_iff, committed_eq_nil_iff]
  constructor
  · intro hexact
    exact hfirst.mp hexact.1
  · intro hno
    have hlines := hfirst.mpr hno
    refine ⟨hlines, fun hcrash hlength => ?_⟩
    have hwal : ((World.init.run events).disk.wal.getD []) = logBytes (transactions 1 events) :=
      run_wal World.init events
    have hdb : (World.init.run events).disk.db.getD [] = dbBytes (transactions 1 events) :=
      run_db World.init events hcrash
    rw [hwal] at hlength
    rw [hlines, committed_of_length_le _ hlength, hdb]

/-- One write of "k" and "v", and the whole log. -/
theorem not_recoveryExact_write :
    ¬ RecoveryExact [] [] [.writeWalWithFsync (ascii "k") (ascii "v")] 512 := by
  intro hexact
  have hlines := hexact.1
  rw [recovered_eq_nil] at hlines
  have hline : dbBytes (committed (transactions 1 [.writeWalWithFsync (ascii "k") (ascii "v")]) 512)
      = ascii "k v\n" := by decide
  rw [hline] at hlines
  exact absurd hlines (by decide)

end SystemsInC.Ports.WalLog
