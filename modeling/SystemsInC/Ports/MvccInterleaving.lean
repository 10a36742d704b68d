import SystemsInC.Ports.MvccStore

/-!
# Calls, histories and interleaved threads

Two ways of running the store of `MvccStore`.

* `runCalls` executes a list of calls one at a time.
* `Sys.run` executes a schedule in which each transaction id has its own
  thread.  A thread is atomic in each critical section and in the increment of
  `global_ts` that `tx_commit` makes before it takes the lock, so `tx_write` and
  `tx_commit` take up to two steps each.

Both record the completed calls with what they returned, newest first.
`run_sequential` embeds the first way into the second, so whatever holds along
every schedule holds along every sequence of calls.  `Sys.step_cases` is the
only place where a step is taken apart.
-/

namespace SystemsInC.Ports.MvccInterleaving

open SystemsInC.Verified.CString
open SystemsInC.Ports.WaitForGraph
open SystemsInC.Ports.MvccStore

/-! ## Calls one at a time -/

/-- A call of one of the five operations; `none` is a NULL transaction. -/
inductive Call
  | beginTx (id : Int)
  | txRead (t : Option TxId) (kname : Bytes) (outLen : Nat)
  | txWrite (t : Option TxId) (kname value : Bytes)
  | txCommit (t : Option TxId)
  | txAbort (t : Option TxId)
  deriving DecidableEq, Repr

/-- A completed call: the code or pointer it returned, the bytes `tx_read`
copied out, and the timestamp that `begin_tx` and `tx_commit` print. -/
inductive Entry
  | beginTx (id : Int) (ret : Option TxId) (startTs : Nat)
  | txRead (t : Option TxId) (kname : Bytes) (outLen : Nat) (ret : Int) (out : Bytes)
  | txWrite (t : Option TxId) (kname value : Bytes) (ret : Int)
  | txCommit (t : Option TxId) (ret : Int) (commitTs : Nat)
  | txAbort (t : Option TxId)
  deriving DecidableEq, Repr

/-- The transaction whose thread makes the call. -/
def Call.tx : Call → Option TxId
  | .beginTx id => txOfId id
  | .txRead t _ _ => t
  | .txWrite t _ _ => t
  | .txCommit t => t
  | .txAbort t => t

/-- One whole call. -/
def perform (st : Mvcc) : Call → Mvcc × Entry
  | .beginTx id =>
      let (ret, st') := beginTx st id
      (st', .beginTx id ret (ret.elim 0 (fun t => (st'.txs t).startTs)))
  | .txRead t kname outLen =>
      let (ret, out) := txRead st t kname outLen
      (st, .txRead t kname outLen ret out)
  | .txWrite t kname value =>
      let (ret, st') := txWrite st t kname value
      (st', .txWrite t kname value ret)
  | .txCommit t =>
      let (ret, ts, st') := txCommit st t
      (st', .txCommit t ret ts)
  | .txAbort t => (txAbort st t, .txAbort t)

/-- One call after another, with the history newest first. -/
def performAll : List Call → Mvcc × List Entry → Mvcc × List Entry
  | [], s => s
  | c :: cs, s => performAll cs ((perform s.1 c).1, (perform s.1 c).2 :: s.2)

/-- A sequence of calls after `init_store`. -/
def runCalls (calls : List Call) : Mvcc × List Entry := performAll calls (initStore, [])

theorem performAll_append (cs ds : List Call) (s : Mvcc × List Entry) :
    performAll (cs ++ ds) s = performAll ds (performAll cs s) := by
  induction cs generalizing s with
  | nil => rfl
  | cons c cs ih => exact ih _

/-! ## Interleaved threads -/

/-- Where the thread of a transaction is between two of its steps. -/
inductive Pc
  | idle
  /-- inside `tx_write`, after `try_acquire_lock` returned 0 -/
  | acquired (kname value : Bytes) (kidx : Key)
  /-- inside `tx_write`, after `try_acquire_lock` returned -1 -/
  | deadlocked (kname value : Bytes)
  /-- inside `tx_commit`, after the increment of `global_ts` -/
  | committing (commitTs : Nat)
  deriving DecidableEq, Repr

structure Sys where
  mem : Mvcc
  pc : TxId → Pc
  hist : List Entry

def Sys.init : Sys :=
  { mem := initStore
    pc := fun _ => .idle
    hist := [] }

/-- A choice of the scheduler: let a thread make a call, or let a thread that is
inside a call go on. -/
inductive Act
  | call (c : Call)
  | resume (t : TxId)
  deriving DecidableEq, Repr

/-- A call completes. -/
def Sys.record (s : Sys) (mem : Mvcc) (e : Entry) : Sys :=
  { s with
    mem := mem
    hist := e :: s.hist }

/-- A call completes at the second step of thread `t`. -/
def Sys.finish (s : Sys) (t : TxId) (mem : Mvcc) (e : Entry) : Sys :=
  { mem := mem
    pc := Function.update s.pc t .idle
    hist := e :: s.hist }

/-- Thread `t` stops between the two steps of a call. -/
def Sys.suspend (s : Sys) (t : TxId) (mem : Mvcc) (pc : Pc) : Sys :=
  { s with
    mem := mem
    pc := Function.update s.pc t pc }

/-- The first step of a call. -/
def Sys.start (s : Sys) : Call → Sys
  | .txWrite (some t) kname value =>
      if (s.mem.txs t).state ≠ .active then
        s.record s.mem (.txWrite (some t) kname value (-1))
      else
        match findKeyIndex s.mem kname with
        | none => s.record s.mem (.txWrite (some t) kname value (-1))
        | some kidx =>
            let (lockRes, mem) := tryAcquireLock s.mem t kidx
            if lockRes = -1 then s.suspend t mem (.deadlocked kname value)
            else if lockRes = 1 then s.record mem (.txWrite (some t) kname value 1)
            else s.suspend t mem (.acquired kname value kidx)
  | .txCommit (some t) =>
      if (s.mem.txs t).state ≠ .active then s.record s.mem (.txCommit (some t) (-1) 0)
      else s.suspend t s.mem.fetchAddTs.2 (.committing s.mem.fetchAddTs.1)
  | c => s.record (perform s.mem c).1 (perform s.mem c).2

/-- The second step of the call thread `t` is inside. -/
def Sys.resume (s : Sys) (t : TxId) : Sys :=
  match s.pc t with
  | .idle => s
  | .acquired kname value kidx =>
      let (ret, mem) := bufferSection s.mem t kidx value
      s.finish t mem (.txWrite (some t) kname value ret)
  | .deadlocked kname value =>
      s.finish t (deadlockSection s.mem t) (.txWrite (some t) kname value (-1))
  | .committing ts => s.finish t (commitSection s.mem t ts) (.txCommit (some t) 0 ts)

/-- One step; a thread inside a call cannot make another one. -/
def Sys.step (s : Sys) : Act → Sys
  | .call c =>
      match c.tx with
      | none => s.start c
      | some t => if s.pc t = .idle then s.start c else s
  | .resume t => s.resume t

def Sys.run (s : Sys) : List Act → Sys
  | [] => s
  | a :: as => (s.step a).run as

theorem Sys.run_append (s : Sys) (as bs : List Act) :
    s.run (as ++ bs) = (s.run as).run bs := by
  induction as generalizing s with
  | nil => rfl
  | cons a as ih => exact ih _

/-! ## What one step can do -/

/-- Entries that neither begin nor end a transaction nor buffer a write: reads,
and calls that failed.  A `tx_write` by an ACTIVE transaction that fails for
another reason than a deadlock has been given an unknown key. -/
def Entry.Silent (st : Mvcc) : Entry → Prop
  | .beginTx _ ret _ => ret = none
  | .txRead _ _ _ _ _ => True
  | .txWrite t kname _ ret =>
      ret ≠ 0 ∧ ∀ u, t = some u → (st.txs u).state = .active → findKeyIndex st kname = none
  | .txCommit _ ret _ => ret ≠ 0
  | .txAbort t => t = none

/-- Thread `t` is between two calls and its transaction is ACTIVE. -/
structure Ready (s : Sys) (t : TxId) : Prop where
  idle : s.pc t = .idle
  active : (s.mem.txs t).state = .active

/-- Every way in which a choice of the scheduler changes the system. -/
inductive Step (s : Sys) : Act → Sys → Prop
  | stutter (a : Act) : Step s a s
  | silent (a : Act) (e : Entry) (he : e.Silent s.mem) : Step s a (s.record s.mem e)
  | begin (t : TxId) (id : Int) (hid : txOfId id = some t) (hidle : s.pc t = .idle) :
      Step s (.call (.beginTx id))
        (s.record (beginSection s.mem t) (.beginTx id (some t) s.mem.globalTs))
  | acquire (t : TxId) (kname value : Bytes) (k : Key) (hready : Ready s t)
      (hkey : findKeyIndex s.mem kname = some k)
      (hfree : (s.mem.store k).lockedBy = none ∨ (s.mem.store k).lockedBy = some t) :
      Step s (.call (.txWrite (some t) kname value))
        (s.suspend t (acquireLock s.mem t k) (.acquired kname value k))
  | block (t owner : TxId) (kname value : Bytes) (k : Key) (hready : Ready s t)
      (hkey : findKeyIndex s.mem kname = some k)
      (howner : (s.mem.store k).lockedBy = some owner) (hne : owner ≠ t)
      (hdetect : detectDeadlock (addEdge s.mem t owner).waitFor = false) :
      Step s (.call (.txWrite (some t) kname value))
        (s.record (addEdge s.mem t owner) (.txWrite (some t) kname value 1))
  | deadlock (t owner : TxId) (kname value : Bytes) (k : Key) (hready : Ready s t)
      (hkey : findKeyIndex s.mem kname = some k)
      (howner : (s.mem.store k).lockedBy = some owner) (hne : owner ≠ t)
      (hdetect : detectDeadlock (addEdge s.mem t owner).waitFor = true) :
      Step s (.call (.txWrite (some t) kname value))
        (s.suspend t (addEdge s.mem t owner) (.deadlocked kname value))
  | buffer (t : TxId) (kname value : Bytes) (k : Key) (writes : List (Key × Bytes))
      (hpc : s.pc t = .acquired kname value k)
      (hwrites : bufferEntry (s.mem.txs t).writes k value = some writes) :
      Step s (.resume t) (s.finish t (s.mem.setTx t { s.mem.txs t with writes := writes })
        (.txWrite (some t) kname value 0))
  | bufferFull (t : TxId) (kname value : Bytes) (k : Key)
      (hpc : s.pc t = .acquired kname value k)
      (hwrites : bufferEntry (s.mem.txs t).writes k value = none) :
      Step s (.resume t) (s.finish t s.mem (.txWrite (some t) kname value (-1)))
  | cleanup (t : TxId) (kname value : Bytes) (hpc : s.pc t = .deadlocked kname value) :
      Step s (.resume t)
        (s.finish t (deadlockSection s.mem t) (.txWrite (some t) kname value (-1)))
  | draw (t : TxId) (hready : Ready s t) :
      Step s (.call (.txCommit (some t)))
        (s.suspend t s.mem.fetchAddTs.2 (.committing s.mem.globalTs))
  | install (t : TxId) (ts : Nat) (hpc : s.pc t = .committing ts) :
      Step s (.resume t) (s.finish t (commitSection s.mem t ts) (.txCommit (some t) 0 ts))
  | abort (t : TxId) (hidle : s.pc t = .idle) :
      Step s (.call (.txAbort (some t)))
        (s.record (abortSection s.mem t) (.txAbort (some t)))

private theorem start_txWrite_cases (s : Sys) (t : TxId) (kname value : Bytes)
    (hidle : s.pc t = .idle) :
    Step s (.call (.txWrite (some t) kname value)) (s.start (.txWrite (some t) kname value)) := by
  rw [Sys.start]
  by_cases hactive : (s.mem.txs t).state = .active
  · rw [if_neg (not_not_intro hactive)]
    have hready : Ready s t := ⟨hidle, hactive⟩
    cases hkey : findKeyIndex s.mem kname with
    | none => exact .silent _ _ ⟨by decide, fun _ _ _ => hkey⟩
    | some k =>
        cases howner : (s.mem.store k).lockedBy with
        | none =>
            simp only [tryAcquireLock, howner]
            exact .acquire t kname value k hready hkey (Or.inl howner)
        | some owner =>
            simp only [tryAcquireLock, howner]
            by_cases hself : owner = t
            · subst hself
              simp only [if_true]
              exact .acquire owner kname value k hready hkey (Or.inr howner)
            · simp only [if_neg hself]
              by_cases hdetect : detectDeadlock (addEdge s.mem t owner).waitFor = true
              · simp only [if_pos hdetect]
                exact .deadlock t owner kname value k hready hkey howner hself hdetect
              · simp only [if_neg hdetect]
                exact .block t owner kname value k hready hkey howner hself (by simpa using hdetect)
  · rw [if_pos hactive]
    refine .silent _ _ ⟨by decide, fun u hu hactive' => ?_⟩
    obtain rfl := Option.some.inj hu
    exact absurd hactive' hactive

private theorem start_cases (s : Sys) (c : Call)
    (hidle : ∀ t, c.tx = some t → s.pc t = .idle) : Step s (.call c) (s.start c) := by
  cases c with
  | beginTx id =>
      simp only [Sys.start, perform, beginTx]
      cases hid : txOfId id with
      | none => exact .silent _ _ rfl
      | some t =>
          simp only [Option.elim, beginSection_txs, Function.update_self]
          exact .begin t id hid (hidle t hid)
  | txRead t kname outLen => exact .silent _ _ trivial
  | txWrite t kname value =>
      cases t with
      | none => exact .silent _ _ ⟨by decide, by simp⟩
      | some t => exact start_txWrite_cases s t kname value (hidle t rfl)
  | txCommit t =>
      cases t with
      | none => exact .silent _ _ (by simp [perform, txCommit, Entry.Silent])
      | some t =>
          rw [Sys.start]
          by_cases hactive : (s.mem.txs t).state = .active
          · rw [if_neg (not_not_intro hactive)]
            exact .draw t ⟨hidle t rfl, hactive⟩
          · rw [if_pos hactive]
            exact .silent _ _ (by simp [Entry.Silent])
  | txAbort t =>
      cases t with
      | none => exact .silent _ _ rfl
      | some t => exact .abort t (hidle t rfl)

private theorem resume_cases (s : Sys) (t : TxId) : Step s (.resume t) (s.resume t) := by
  rw [Sys.resume]
  cases hpc : s.pc t with
  | idle => exact .stutter _
  | acquired kname value k =>
      simp only [bufferSection]
      cases hwrites : bufferEntry (s.mem.txs t).writes k value with
      | none => exact .bufferFull t kname value k hpc hwrites
      | some writes => exact .buffer t kname value k writes hpc hwrites
  | deadlocked kname value => exact .cleanup t kname value hpc
  | committing ts => exact .install t ts hpc

/-- Every step of a schedule is one of the cases of `Step`. -/
theorem Sys.step_cases (s : Sys) (a : Act) : Step s a (s.step a) := by
  cases a with
  | call c =>
      rw [Sys.step]
      cases hc : c.tx with
      | none => exact start_cases s c (by simp [hc])
      | some t =>
          by_cases hidle : s.pc t = .idle
          · simp only [if_pos hidle]
            exact start_cases s c (by simpa [hc] using hidle)
          · simp only [if_neg hidle]
            exact .stutter _
  | resume t => exact resume_cases s t

/-- A property that every step of the schedule preserves holds after it. -/
theorem Sys.run_induction {P : Sys → Prop} (s : Sys) (as : List Act)
    (hstep : ∀ a ∈ as, ∀ s s', Step s a s' → P s → P s') (hs : P s) : P (s.run as) := by
  induction as generalizing s with
  | nil => exact hs
  | cons a as ih =>
      exact ih _ (fun b hb => hstep b (by simp [hb]))
        (hstep a (by simp) s _ (s.step_cases a) hs)

/-! ## Names and increments along a run -/

/-- Key names never change. -/
def NamesFixed (st : Mvcc) : Prop := ∀ k, (st.store k).name = keyName k

theorem Step.namesFixed {s s' : Sys} {a : Act} (h : Step s a s') (hs : NamesFixed s.mem) :
    NamesFixed s'.mem := by
  intro k
  cases h <;> simpa [Sys.record, Sys.finish, Sys.suspend, Mvcc.fetchAddTs] using hs k

theorem Sys.run_namesFixed (as : List Act) : NamesFixed (Sys.init.run as).mem :=
  Sys.run_induction (P := fun s => NamesFixed s.mem) Sys.init as
    (fun _ _ _ _ h hs => h.namesFixed hs) (fun _ => rfl)

/-- Steps only ever add increments of `global_ts`. -/
theorem Step.draws_le {s s' : Sys} {a : Act} (h : Step s a s') : s.mem.draws ≤ s'.mem.draws := by
  cases h <;> simp [Sys.record, Sys.finish, Sys.suspend, Mvcc.fetchAddTs]

theorem Sys.draws_le_run (s : Sys) (as : List Act) :
    s.mem.draws ≤ (s.run as).mem.draws := by
  induction as generalizing s with
  | nil => exact Nat.le_refl _
  | cons a as ih => exact Nat.le_trans (s.step_cases a).draws_le (ih _)

/-- The choice lets the program begin transaction `t`. -/
def Act.Begins (a : Act) (t : TxId) : Prop := ∃ id, a = .call (.beginTx id) ∧ txOfId id = some t

/-- Only `begin_tx` makes a transaction ACTIVE. -/
theorem Step.active_before {s s' : Sys} {a : Act} (h : Step s a s') {t : TxId}
    (hno : ¬ a.Begins t) (ht : (s'.mem.txs t).state = .active) :
    (s.mem.txs t).state = .active := by
  have hupdate : ∀ (u : TxId) (tx : Transaction),
      (tx.state = .active → (s.mem.txs u).state = .active) →
      ((Function.update s.mem.txs u tx) t).state = .active → (s.mem.txs t).state = .active := by
    intro u tx htx hu
    by_cases hut : t = u
    · subst hut
      rw [Function.update_self] at hu
      exact htx hu
    · rwa [Function.update_of_ne hut] at hu
  cases h with
  | begin u id hid hidle =>
      have hut : t ≠ u := by
        rintro rfl
        exact hno ⟨id, rfl, hid⟩
      simpa [Sys.record, hut] using ht
  | buffer u kname value k writes hpc hwrites =>
      exact hupdate u { s.mem.txs u with writes := writes } (fun hu => hu) ht
  | cleanup u kname value hpc => exact hupdate u _ (by simp) ht
  | install u ts hpc => exact hupdate u _ (by simp) ht
  | abort u hidle => exact hupdate u _ (by simp) ht
  | _ => exact ht

/-- A `start_ts` is either kept or the value of the counter before the step. -/
theorem Step.startTs_cases {s s' : Sys} {a : Act} (h : Step s a s') (t : TxId) :
    (s'.mem.txs t).startTs = (s.mem.txs t).startTs ∨
      (s'.mem.txs t).startTs = s.mem.globalTs ∧ s'.mem.draws = s.mem.draws + 1 := by
  have hupdate : ∀ (u : TxId) (tx : Transaction), tx.startTs = (s.mem.txs u).startTs →
      ((Function.update s.mem.txs u tx) t).startTs = (s.mem.txs t).startTs := by
    intro u tx htx
    by_cases hut : t = u
    · subst hut
      rwa [Function.update_self]
    · rw [Function.update_of_ne hut]
  cases h with
  | begin u id hid hidle =>
      by_cases hut : t = u
      · subst hut
        exact Or.inr ⟨by simp [Sys.record], rfl⟩
      · exact Or.inl (by simp [Sys.record, hut])
  | buffer u kname value k writes hpc hwrites =>
      exact Or.inl (hupdate u { s.mem.txs u with writes := writes } rfl)
  | cleanup u kname value hpc => exact Or.inl (hupdate u _ rfl)
  | install u ts hpc => exact Or.inl (hupdate u _ rfl)
  | abort u hidle => exact Or.inl (hupdate u _ rfl)
  | _ => exact Or.inl rfl

/-! ## Calls one at a time are a schedule -/

/-- The steps of one call that nothing interrupts. -/
def callActs (c : Call) : List Act := .call c :: c.tx.toList.map .resume

/-- The schedule that runs the calls one at a time. -/
def sequential (calls : List Call) : List Act := calls.flatMap callActs

theorem mem_of_call_mem_sequential {c : Call} {calls : List Call}
    (h : Act.call c ∈ sequential calls) : c ∈ calls := by
  obtain ⟨d, hd, hc⟩ := List.mem_flatMap.mp h
  have hcd : c = d := by simpa [callActs] using hc
  rwa [hcd]

/-- A system in which no thread is inside a call. -/
def Sys.atRest (st : Mvcc) (hist : List Entry) : Sys :=
  { mem := st
    pc := fun _ => .idle
    hist := hist }

private theorem suspend_finish_atRest (st : Mvcc) (hist : List Entry) (t : TxId)
    (mid mem : Mvcc) (pc : Pc) (e : Entry) :
    ((Sys.atRest st hist).suspend t mid pc).finish t mem e = Sys.atRest mem (e :: hist) := by
  simp [Sys.suspend, Sys.finish, Sys.atRest]

private theorem run_txWrite (st : Mvcc) (hist : List Entry) (t : TxId) (kname value : Bytes) :
    ((Sys.atRest st hist).start (.txWrite (some t) kname value)).resume t =
      Sys.atRest (perform st (.txWrite (some t) kname value)).1
        ((perform st (.txWrite (some t) kname value)).2 :: hist) := by
  have hmem : (Sys.atRest st hist).mem = st := rfl
  have hpc : ∀ mid pc, ((Sys.atRest st hist).suspend t mid pc).pc t = pc := by
    simp [Sys.suspend]
  simp only [Sys.start, perform, txWrite, hmem]
  by_cases hactive : (st.txs t).state = .active
  · simp only [hactive, ne_eq, not_true_eq_false, if_false]
    cases findKeyIndex st kname with
    | none => rfl
    | some k =>
        dsimp only
        generalize tryAcquireLock st t k = res
        obtain ⟨lockRes, st'⟩ := res
        by_cases hdead : lockRes = -1
        · simp only [if_pos hdead, Sys.resume, hpc]
          exact suspend_finish_atRest st hist t st' _ _ _
        · by_cases hblocked : lockRes = 1
          · simp only [if_neg hdead, if_pos hblocked]
            rfl
          · simp only [if_neg hdead, if_neg hblocked, Sys.resume, hpc]
            exact suspend_finish_atRest st hist t st' _ _ _
  · simp only [ne_eq, hactive, not_false_eq_true, if_true]
    rfl

private theorem run_txCommit (st : Mvcc) (hist : List Entry) (t : TxId) :
    ((Sys.atRest st hist).start (.txCommit (some t))).resume t =
      Sys.atRest (perform st (.txCommit (some t))).1
        ((perform st (.txCommit (some t))).2 :: hist) := by
  have hmem : (Sys.atRest st hist).mem = st := rfl
  have hpc : ∀ mid pc, ((Sys.atRest st hist).suspend t mid pc).pc t = pc := by
    simp [Sys.suspend]
  simp only [Sys.start, perform, txCommit, hmem]
  by_cases hactive : (st.txs t).state = .active
  · simp only [hactive, ne_eq, not_true_eq_false, if_false, Sys.resume, hpc]
    exact suspend_finish_atRest st hist t _ _ _ _
  · simp only [ne_eq, hactive, not_false_eq_true, if_true]
    rfl

/-- An uninterrupted call does what `perform` says. -/
theorem run_callActs (st : Mvcc) (hist : List Entry) (c : Call) :
    (Sys.atRest st hist).run (callActs c) =
      Sys.atRest (perform st c).1 ((perform st c).2 :: hist) := by
  cases c with
  | beginTx id =>
      simp only [callActs, Call.tx]
      cases hid : txOfId id with
      | none => simp [Sys.run, Sys.step, Call.tx, hid, Sys.start, Sys.record, Sys.atRest]
      | some t =>
          simp [Sys.run, Sys.step, Call.tx, hid, Sys.start, Sys.record, Sys.atRest, Sys.resume]
  | txRead t kname outLen => cases t <;> rfl
  | txWrite t kname value =>
      cases t with
      | none => rfl
      | some t => exact run_txWrite st hist t kname value
  | txCommit t =>
      cases t with
      | none => rfl
      | some t => exact run_txCommit st hist t
  | txAbort t => cases t <;> rfl

/-- The calls run one at a time from any state at rest. -/
theorem run_sequential_atRest (calls : List Call) :
    ∀ s : Mvcc × List Entry,
      (Sys.atRest s.1 s.2).run (sequential calls) =
        Sys.atRest (performAll calls s).1 (performAll calls s).2 := by
  induction calls with
  | nil => exact fun _ => rfl
  | cons c calls ih =>
      intro s
      have hsplit : sequential (c :: calls) = callActs c ++ sequential calls := rfl
      rw [hsplit, Sys.run_append, run_callActs]
      exact ih ((perform s.1 c).1, (perform s.1 c).2 :: s.2)

/-- **Sequences of calls are schedules.**  Running the calls one at a time ends
with the store and the history of `runCalls`, and no thread is inside a call. -/
theorem run_sequential (calls : List Call) :
    Sys.init.run (sequential calls) =
      Sys.atRest (runCalls calls).1 (runCalls calls).2 :=
  run_sequential_atRest calls (initStore, [])

end SystemsInC.Ports.MvccInterleaving
