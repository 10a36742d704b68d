import SystemsInC.Ports.FutexQueue

/-!
# When a wake-up is lost

Two invariants of the queue of `FutexQueue`.  `Tally` relates the flags and the
items that producers and consumers have handled to `count`, in every run.
`Attended` says that a sleeper's flag is 1 or that a thread is about to wake it;
it survives a `futex_wake` only if no second thread sleeps on the same flag.
Together they exclude that every unfinished thread is asleep.
-/

namespace SystemsInC.Ports.FutexQueue

open SystemsInC.Verified.GuardedRuns

variable {cfg : Config} {s s' : Sys cfg} {t u : Thread cfg}

theorem Thread.wakeFlag_ne_waitFlag (t : Thread cfg) : t.wakeFlag ≠ t.waitFlag := by
  cases t <;> nofun

/-! ## Rounds -/

/-- The items that a thread has put or taken: one for each round, and that of
the present round once the thread is about to call `futex_wake`. -/
def Sys.done (s : Sys cfg) (t : Thread cfg) : Nat :=
  s.round t + if s.pc t = .waking then 1 else 0

/-- No thread does more rounds than it has to, one that is inside a round has it
still to do, and who is about to call `futex_wake` has `mutex`. -/
structure Rounds (s : Sys cfg) : Prop where
  le : ∀ t, s.round t ≤ t.items
  busy : ∀ t, s.pc t ≠ .start → s.round t < t.items
  holder : ∀ t, s.pc t = .waking → s.mutex = some t

theorem Rounds.init : Rounds (Sys.init cfg) :=
  { le := fun _ => Nat.zero_le _
    busy := fun _ h => absurd rfl h
    holder := fun _ h => nomatch h }

theorem Rounds.done_le (h : Rounds s) (t : Thread cfg) : s.done t ≤ t.items := by
  unfold Sys.done
  split
  case isTrue hpc =>
      have hlt := h.busy t (by simp [hpc])
      omega
  case isFalse => exact h.le t

theorem Rounds.goWaiting (h : Rounds s) (hlt : s.round t < t.items) : Rounds (s.goWaiting t) where
  le := h.le
  busy u hu := by
    by_cases hut : u = t
    · subst hut
      exact hlt
    · exact h.busy u (by simpa [Sys.goWaiting, hut] using hu)
  holder u hu := by
    by_cases hut : u = t
    · simp [Sys.goWaiting, hut] at hu
    · exact h.holder u (by simpa [Sys.goWaiting, hut] using hu)

theorem Rounds.goWaking (h : Rounds s) (hlt : s.round t < t.items) (hmutex : s.mutex = none) :
    Rounds (s.goWaking t) where
  le := h.le
  busy u hu := by
    by_cases hut : u = t
    · subst hut
      exact hlt
    · exact h.busy u (by simpa [Sys.goWaking, hut] using hu)
  holder u hu := by
    by_cases hut : u = t
    · rw [hut]
      rfl
    · have hold := h.holder u (by simpa [Sys.goWaking, hut] using hu)
      simp [hmutex] at hold

theorem Rounds.nextRound (h : Rounds s) (hpc : s.pc t = .start) (hlt : s.round t < t.items) :
    Rounds (s.nextRound t) where
  le u := by
    by_cases hut : u = t
    · subst hut
      simpa [Sys.nextRound] using Nat.succ_le_of_lt hlt
    · simpa [Sys.nextRound, hut] using h.le u
  busy u hu := by
    by_cases hut : u = t
    · subst hut
      exact absurd hpc hu
    · simpa [Sys.nextRound, hut] using h.busy u hu
  holder := h.holder

/-- A thread goes to sleep, or it wakes up or stays awake. -/
theorem Rounds.movePc (h : Rounds s) {pc : Pc} (hpc : s.pc t ≠ .start) (hnew : pc ≠ .waking) :
    Rounds { s with pc := Function.update s.pc t pc } where
  le := h.le
  busy u hu := by
    by_cases hut : u = t
    · subst hut
      exact h.busy u hpc
    · exact h.busy u (by simpa [hut] using hu)
  holder u hu := by
    by_cases hut : u = t
    · subst hut
      exact absurd (by simpa using hu) hnew
    · exact h.holder u (by simpa [hut] using hu)

theorem Rounds.unlock (h : Rounds s) (hpc : s.pc t = .waking) : Rounds (s.unlock t) where
  le u := by
    by_cases hut : u = t
    · subst hut
      simpa [Sys.unlock] using Nat.succ_le_of_lt (h.busy u (by simp [hpc]))
    · simpa [Sys.unlock, hut] using h.le u
  busy u hu := by
    by_cases hut : u = t
    · simp [Sys.unlock, hut] at hu
    · simpa [Sys.unlock, hut] using h.busy u (by simpa [Sys.unlock, hut] using hu)
  holder u hu := by
    by_cases hut : u = t
    · simp [Sys.unlock, hut] at hu
    · -- a second thread about to wake would have `mutex` as well
      have hold := h.holder u (by simpa [Sys.unlock, hut] using hu)
      rw [h.holder t hpc] at hold
      exact absurd (Option.some.inj hold).symm hut

/-! ## What the steps do to the items and the flags -/

/-- Thread `t` has handled one more item, the others as many as before. -/
def Moved (s s' : Sys cfg) (t : Thread cfg) : Prop :=
  s'.done t = s.done t + 1 ∧ ∀ u, u ≠ t → s'.done u = s.done u

theorem moved_goWaking (hpc : s.pc t = .start) : Moved s (s.goWaking t) t := by
  constructor
  · simp [Sys.done, Sys.goWaking, hpc]
  · intro u hu
    have hpcu : (s.goWaking t).pc u = s.pc u := Function.update_of_ne hu _ _
    rw [Sys.done, hpcu]
    rfl

theorem moved_nextRound (hpc : s.pc t = .start) : Moved s (s.nextRound t) t := by
  constructor
  · simp [Sys.done, Sys.nextRound, hpc]
  · intro u hu
    have hround : (s.nextRound t).round u = s.round u := Function.update_of_ne hu _ _
    rw [Sys.done, hround]
    rfl

theorem done_movePc {pc : Pc} (hpc : s.pc t ≠ .waking) (hnew : pc ≠ .waking) (u : Thread cfg) :
    Sys.done { s with pc := Function.update s.pc t pc } u = s.done u := by
  by_cases hut : u = t
  · subst hut
    simp [Sys.done, hpc, hnew]
  · simp [Sys.done, hut]

theorem done_goWaiting (hpc : s.pc t = .start) (u : Thread cfg) :
    (s.goWaiting t).done u = s.done u := by
  have hpcs : s.pc t ≠ .waking := by simp [hpc]
  exact done_movePc hpcs (show Pc.waiting ≠ .waking by decide) u

/-- The round ends that was counted already. -/
theorem done_unlock (hpc : s.pc t = .waking) (u : Thread cfg) : (s.unlock t).done u = s.done u := by
  by_cases hut : u = t
  · subst hut
    simp [Sys.done, Sys.unlock, hpc]
  · simp [Sys.done, Sys.unlock, hut]

/-- A thread that was not blocked has handled an item and left the flag of those
it could wake clear. -/
structure Passed (s s' : Sys cfg) (t : Thread cfg) : Prop where
  moved : Moved s s' t
  cleared : s'.flags t.wakeFlag ≠ 1
  own : s'.flags t.waitFlag = s.flags t.waitFlag

theorem passed_goWaking (hpc : s.pc t = .start) : Passed s (s.goWaking t) t where
  moved := moved_goWaking hpc
  cleared := by simp [Sys.goWaking]
  own := by simp [Sys.goWaking, t.wakeFlag_ne_waitFlag.symm]

theorem passed_nextRound (hpc : s.pc t = .start) (hflag : s.flags t.wakeFlag ≠ 1) :
    Passed s (s.nextRound t) t where
  moved := moved_nextRound hpc
  cleared := hflag
  own := rfl

/-- `s₁` differs from `s` in the buffer only. -/
structure BufferOnly (s s₁ : Sys cfg) : Prop where
  flags : s₁.flags = s.flags
  mutex : s₁.mutex = s.mutex
  pc : s₁.pc = s.pc
  round : s₁.round = s.round

theorem bufferOnly_put (item : Nat) (s : Sys cfg) : BufferOnly s (s.put item) :=
  ⟨rfl, rfl, rfl, rfl⟩

theorem bufferOnly_take (s : Sys cfg) : BufferOnly s s.take :=
  ⟨rfl, rfl, rfl, rfl⟩

theorem BufferOnly.rounds {s₁ : Sys cfg} (h : BufferOnly s s₁) (hr : Rounds s) : Rounds s₁ where
  le u := by
    rw [h.round]
    exact hr.le u
  busy u hu := by
    rw [h.pc] at hu
    rw [h.round]
    exact hr.busy u hu
  holder u hu := by
    rw [h.pc] at hu
    rw [h.mutex]
    exact hr.holder u hu

theorem BufferOnly.passed {s₁ : Sys cfg} (h : BufferOnly s s₁) (hp : Passed s₁ s' t) :
    Passed s s' t := by
  have hdone : ∀ u, s₁.done u = s.done u := by
    intro u
    rw [Sys.done, Sys.done, h.pc, h.round]
  exact
    { moved := ⟨hdone t ▸ hp.moved.1, fun u hu => (hp.moved.2 u hu).trans (hdone u)⟩
      cleared := hp.cleared
      own := h.flags ▸ hp.own }

/-! ## Items against the buffer -/

def Sys.puts (s : Sys cfg) : Nat := ∑ i, s.done (.producer i)

def Sys.takes (s : Sys cfg) : Nat := ∑ i, s.done (.consumer i)

theorem Moved.produced {i : Fin cfg.numProducers} (h : Moved s s' (.producer i)) :
    s'.puts = s.puts + 1 ∧ s'.takes = s.takes := by
  constructor
  · exact sum_succ h.1 (fun j hj => h.2 _ (by simpa using hj))
  · exact Finset.sum_congr rfl (fun j _ => h.2 _ nofun)

theorem Moved.consumed {i : Fin cfg.numConsumers} (h : Moved s s' (.consumer i)) :
    s'.puts = s.puts ∧ s'.takes = s.takes + 1 := by
  constructor
  · exact Finset.sum_congr rfl (fun j _ => h.2 _ nofun)
  · exact sum_succ h.1 (fun j hj => h.2 _ (by simpa using hj))

/-- What has been produced and not consumed is in the buffer; consumers are told
to wait only while it is empty, producers only while it is full. -/
structure Tally (s : Sys cfg) : Prop where
  bound : s.count ≤ cfg.bufferSize
  empty : s.flags .notEmpty = 1 → s.count = 0
  full : s.flags .notFull = 1 → s.count = cfg.bufferSize
  conserved : s.puts = s.takes + s.count

theorem Tally.init : Tally (Sys.init cfg) where
  bound := Nat.zero_le _
  empty _ := rfl
  full h := by simp [Sys.init] at h
  conserved := by simp [Sys.puts, Sys.takes, Sys.done, Sys.init]

/-- A step that handles no item and leaves the flags alone. -/
theorem Tally.quiet (h : Tally s) (hcount : s'.count = s.count) (hflags : s'.flags = s.flags)
    (hdone : ∀ u, s'.done u = s.done u) : Tally s' where
  bound := hcount ▸ h.bound
  empty := by
    rw [hflags, hcount]
    exact h.empty
  full := by
    rw [hflags, hcount]
    exact h.full
  conserved := by
    simpa only [Sys.puts, Sys.takes, hdone, hcount] using h.conserved

theorem Tally.producer {i : Fin cfg.numProducers} (h : Tally s)
    (hp : Passed s s' (.producer i)) (hfree : s.count ≠ cfg.bufferSize)
    (hcount : s'.count = s.count + 1) : Tally s' where
  bound := by
    have hbound := h.bound
    omega
  empty hflag := absurd hflag hp.cleared
  full hflag := by
    have hold : s.flags .notFull = 1 := hp.own ▸ hflag
    exact absurd (h.full hold) hfree
  conserved := by
    obtain ⟨hproduced, hconsumed⟩ := hp.moved.produced
    have hconserved := h.conserved
    omega

theorem Tally.consumer {i : Fin cfg.numConsumers} (h : Tally s)
    (hp : Passed s s' (.consumer i)) (hfree : s.count ≠ 0)
    (hcount : s'.count = s.count - 1) : Tally s' where
  bound := by
    have hbound := h.bound
    omega
  empty hflag := by
    have hold : s.flags .notEmpty = 1 := hp.own ▸ hflag
    exact absurd (h.empty hold) hfree
  full hflag := absurd hflag hp.cleared
  conserved := by
    obtain ⟨hproduced, hconsumed⟩ := hp.moved.consumed
    have hconserved := h.conserved
    omega

/-- A thread that is told to wait raises the flag that says why. -/
theorem Tally.goWaiting (h : Tally s) (hpc : s.pc t = .start)
    (hempty : t.waitFlag = .notEmpty → s.count = 0)
    (hfull : t.waitFlag = .notFull → s.count = cfg.bufferSize) : Tally (s.goWaiting t) where
  bound := h.bound
  empty hflag := by
    by_cases hf : t.waitFlag = .notEmpty
    · exact hempty hf
    · exact h.empty (by simpa [Sys.goWaiting, Ne.symm hf] using hflag)
  full hflag := by
    by_cases hf : t.waitFlag = .notFull
    · exact hfull hf
    · exact h.full (by simpa [Sys.goWaiting, Ne.symm hf] using hflag)
  conserved := by
    have hcount : (s.goWaiting t).count = s.count := rfl
    simpa only [Sys.puts, Sys.takes, done_goWaiting hpc, hcount] using h.conserved

/-! ## Sleepers and their flags -/

/-- A sleeper's flag is 1, or a thread is about to wake a sleeper on it. -/
def Attended (s : Sys cfg) : Prop :=
  ∀ u, s.pc u = .asleep → s.flags u.waitFlag = 1 ∨ ∃ t, s.pc t = .waking ∧ t.wakeFlag = u.waitFlag

/-- While `mutex` is free no thread is about to wake another. -/
theorem Attended.flag (h : Attended s) (hr : Rounds s) (hmutex : s.mutex = none)
    (hu : s.pc u = .asleep) : s.flags u.waitFlag = 1 := by
  rcases h u hu with hflag | ⟨t, ht, -⟩
  · exact hflag
  · have hheld := hr.holder t ht
    simp [hmutex] at hheld

theorem Attended.goWaiting (h : Attended s) (hr : Rounds s) (hmutex : s.mutex = none) :
    Attended (s.goWaiting t) := by
  intro u hu
  have hut : u ≠ t := by
    rintro rfl
    simp [Sys.goWaiting] at hu
  have hold : s.pc u = .asleep := by simpa [Sys.goWaiting, hut] using hu
  left
  show Function.update s.flags t.waitFlag 1 u.waitFlag = 1
  rw [Function.update_apply]
  split
  case isTrue => rfl
  case isFalse => exact h.flag hr hmutex hold

theorem Attended.goWaking (h : Attended s) (hr : Rounds s) (hmutex : s.mutex = none) :
    Attended (s.goWaking t) := by
  intro u hu
  have hut : u ≠ t := by
    rintro rfl
    simp [Sys.goWaking] at hu
  have hold : s.pc u = .asleep := by simpa [Sys.goWaking, hut] using hu
  by_cases hf : u.waitFlag = t.wakeFlag
  · -- the flag is cleared, and its sleepers have `t` to wake one of them
    right
    exact ⟨t, by simp [Sys.goWaking], hf.symm⟩
  · left
    have hflag : (s.goWaking t).flags u.waitFlag = s.flags u.waitFlag :=
      Function.update_of_ne hf _ _
    rw [hflag]
    exact h.flag hr hmutex hold

theorem BufferOnly.attended {s₁ : Sys cfg} (h : BufferOnly s s₁) (ha : Attended s) :
    Attended s₁ := by
  intro u hu
  rw [h.pc] at hu
  rw [h.flags, h.pc]
  exact ha u hu

theorem Attended.wait (h : Attended s) (hpc : s.pc t = .waiting) : Attended { s with
    pc := Function.update s.pc t (if s.flags t.waitFlag = 1 then .asleep else .start) } := by
  intro u hu
  by_cases hut : u = t
  · left
    subst hut
    by_contra hflag
    change s.flags u.waitFlag ≠ 1 at hflag
    simp [hflag] at hu
  · have hold : s.pc u = .asleep := by simpa [hut] using hu
    rcases h u hold with hflag | ⟨v, hv, hf⟩
    · exact .inl hflag
    · right
      have hvt : v ≠ t := by
        rintro rfl
        simp [hpc] at hv
      exact ⟨v, by simpa [hvt] using hv, hf⟩

/-- `futex_wake` leaves no sleeper on its flag, as there was at most one. -/
theorem Attended.unlock (h : Attended s) (hr : Rounds s) (hpc : s.pc t = .waking)
    (hnone : ∀ u, ¬ s.SleepsOn t.wakeFlag u) : Attended (s.unlock t) := by
  intro u hu
  have hut : u ≠ t := by
    rintro rfl
    simp [Sys.unlock] at hu
  have hold : s.pc u = .asleep := by simpa [Sys.unlock, hut] using hu
  left
  rcases h u hold with hflag | ⟨v, hv, hf⟩
  · exact hflag
  · have hvt : some v = some t := (hr.holder v hv).symm.trans (hr.holder t hpc)
    cases hvt
    exact absurd ⟨hold, hf.symm⟩ (hnone u)

/-! ## Runs -/

/-- At a call of `futex_wake` at most one thread sleeps on the flag. -/
def OneSleeper (s : Sys cfg) : Act cfg → Prop
  | .futexWake t _ => ∀ u v, s.SleepsOn t.wakeFlag u → s.SleepsOn t.wakeFlag v → u = v
  | _ => True

/-- What holds between any two steps. -/
structure QueueInv (s : Sys cfg) : Prop where
  rounds : Rounds s
  tally : Tally s
  attended : Attended s

theorem QueueInv.init : QueueInv (Sys.init cfg) where
  rounds := .init
  tally := .init
  attended u hu := by simp [Sys.init] at hu

/-- What a critical section keeps, whichever thread runs it. -/
theorem QueueInv.section {blocked : Bool} {body : Sys cfg → Sys cfg} (h : QueueInv s)
    (hs : s.section t blocked body = some s') (hbody : BufferOnly s (body s))
    (hempty : blocked = true → t.waitFlag = .notEmpty → s.count = 0)
    (hfull : blocked = true → t.waitFlag = .notFull → s.count = cfg.bufferSize)
    (htally : blocked = false → ∀ s₁ : Sys cfg, Passed s s₁ t → s₁.count = (body s).count →
      Tally s₁) : QueueInv s' := by
  obtain ⟨hpc, hlt, hmutex, hcase⟩ := Sys.section_cases hs
  have hpcBody : (body s).pc t = .start := by rw [hbody.pc, hpc]
  have hltBody : (body s).round t < t.items := by rwa [hbody.round]
  have hmutexBody : (body s).mutex = none := by rw [hbody.mutex, hmutex]
  rcases hcase with ⟨hblocked, rfl⟩ | ⟨hfree, hflag, rfl⟩ | ⟨hfree, hflag, rfl⟩
  · exact
      { rounds := h.rounds.goWaiting hlt
        tally := h.tally.goWaiting hpc (hempty hblocked) (hfull hblocked)
        attended := h.attended.goWaiting h.rounds hmutex }
  · have hrounds := hbody.rounds h.rounds
    exact
      { rounds := hrounds.goWaking hltBody hmutexBody
        tally := htally hfree _ (hbody.passed (passed_goWaking hpcBody)) rfl
        attended := (hbody.attended h.attended).goWaking hrounds hmutexBody }
  · have hflagBody : (body s).flags t.wakeFlag ≠ 1 := by rwa [hbody.flags]
    exact
      { rounds := (hbody.rounds h.rounds).nextRound hpcBody hltBody
        tally := htally hfree _ (hbody.passed (passed_nextRound hpcBody hflagBody)) rfl
        attended := hbody.attended h.attended }

theorem QueueInv.producer {i : Fin cfg.numProducers} (h : QueueInv s)
    (hs : producer s i = some s') : QueueInv s' := by
  apply h.section hs (bufferOnly_put _ s)
  · exact fun _ => nofun
  · intro hblocked _
    simpa using hblocked
  · intro hfree s₁ hp hcount
    exact h.tally.producer hp (by simpa using hfree) hcount

theorem QueueInv.consumer {i : Fin cfg.numConsumers} (h : QueueInv s)
    (hs : consumer s i = some s') : QueueInv s' := by
  apply h.section hs (bufferOnly_take s)
  · intro hblocked _
    simpa using hblocked
  · exact fun _ => nofun
  · intro hfree s₁ hp hcount
    exact h.tally.consumer hp (by simpa using hfree) hcount

theorem QueueInv.futexWait (h : QueueInv s) (hs : futexWait s t = some s') : QueueInv s' := by
  obtain ⟨hpc, rfl⟩ := futexWait_cases hs
  have hstart : s.pc t ≠ .start := by simp [hpc]
  have hwaking : s.pc t ≠ .waking := by simp [hpc]
  have hnew : (if s.flags t.waitFlag = 1 then Pc.asleep else Pc.start) ≠ .waking := by
    split <;> decide
  exact
    { rounds := h.rounds.movePc hstart hnew
      tally := h.tally.quiet rfl rfl (done_movePc hwaking hnew)
      attended := h.attended.wait hpc }

/-- The sleeper that the kernel picks goes back to the head of its loop. -/
theorem QueueInv.wakeOne (h : QueueInv s) (hu : s.pc u = .asleep) :
    QueueInv { s with pc := Function.update s.pc u .start } where
  rounds := h.rounds.movePc (by simp [hu]) (by decide)
  tally := by
    have hwaking : s.pc u ≠ .waking := by simp [hu]
    exact h.tally.quiet rfl rfl (done_movePc hwaking (by decide))
  attended := by
    intro v hv
    have hvu : v ≠ u := by
      rintro rfl
      simp at hv
    rcases h.attended v (by simpa [hvu] using hv) with hflag | ⟨t, ht, hf⟩
    · exact .inl hflag
    · right
      have htu : t ≠ u := by
        rintro rfl
        simp [hu] at ht
      exact ⟨t, by simpa [htu] using ht, hf⟩

theorem QueueInv.unlock (h : QueueInv s) (hpc : s.pc t = .waking)
    (hnone : ∀ u, ¬ s.SleepsOn t.wakeFlag u) : QueueInv (s.unlock t) where
  rounds := h.rounds.unlock hpc
  tally := h.tally.quiet rfl rfl (done_unlock hpc)
  attended := h.attended.unlock h.rounds hpc hnone

theorem QueueInv.futexWake {woken : Option (Thread cfg)} (h : QueueInv s)
    (hone : OneSleeper s (.futexWake t woken)) (hs : futexWake s t woken = some s') :
    QueueInv s' := by
  obtain ⟨hpc, ⟨u, hu, rfl⟩ | ⟨hnone, rfl⟩⟩ := futexWake_cases hs
  · have htu : t ≠ u := by
      rintro rfl
      exact absurd hu.1 (by simp [hpc])
    refine (h.wakeOne hu.1).unlock (by simpa [htu] using hpc) (fun v hv => ?_)
    have hvu : v ≠ u := by
      rintro rfl
      simp [Sys.SleepsOn] at hv
    -- a second sleeper would have been one before
    have hold : s.SleepsOn t.wakeFlag v := ⟨by simpa [hvu] using hv.1, hv.2⟩
    exact hvu (hone v u hold hu)
  · exact h.unlock hpc hnone

theorem QueueInv.step {a : Act cfg} (h : QueueInv s) (hone : OneSleeper s a)
    (hs : s.step a = some s') : QueueInv s' := by
  cases a with
  | producer i => exact h.producer hs
  | consumer i => exact h.consumer hs
  | futexWait t => exact h.futexWait hs
  | futexWake t woken => exact h.futexWake hone hs

/-! ## Stuck states -/

theorem Sys.Finished.done (h : s.Finished t) : s.done t = t.items := by
  simp [Sys.done, h.1, h.2]

/-- Who sleeps in a stuck state has its flag at 1: a thread about to wake it
would be neither finished nor asleep. -/
theorem Attended.flag_of_stuck (h : Attended s) (hall : ∀ v, ¬ s.Finished v → s.pc v = .asleep)
    (hu : s.pc u = .asleep) : s.flags u.waitFlag = 1 := by
  rcases h u hu with hflag | ⟨v, hv, -⟩
  · exact hflag
  · have hunfinished : ¬ s.Finished v := by
      intro hfin
      have hstart := hfin.1
      simp [hv] at hstart
    have hasleep := hall v hunfinished
    simp [hv] at hasleep

/-- A sleeping producer sees a full buffer and a sleeping consumer an empty one.
So the threads of one kind have all finished, and with as many items put as taken
the other kind has nothing left to do either. -/
theorem QueueInv.not_stuck (h : QueueInv s)
    (hbalanced : ∑ i, cfg.itemsToProduce i = ∑ i, cfg.itemsToConsume i) : ¬ s.Stuck := by
  rintro ⟨⟨t, ht⟩, hall⟩
  have hflag : ∀ u, ¬ s.Finished u → s.flags u.waitFlag = 1 :=
    fun u hu => h.attended.flag_of_stuck hall (hall u hu)
  have hshort : s.done t < t.items := by
    have hbusy := h.rounds.busy t (by simp [hall t ht])
    simpa [Sys.done, hall t ht] using hbusy
  have hsize := cfg.size_pos
  have hconserved := h.tally.conserved
  cases t with
  | producer i =>
      have hfull : s.count = cfg.bufferSize := h.tally.full (hflag _ ht)
      have hconsumed : s.takes = ∑ j, cfg.itemsToConsume j := by
        refine Finset.sum_congr rfl (fun j _ => ?_)
        by_contra hne
        have hunfinished : ¬ s.Finished (.consumer j) := fun hfin => hne hfin.done
        have hempty := h.tally.empty (hflag _ hunfinished)
        omega
      have hproduced : s.puts ≤ ∑ j, cfg.itemsToProduce j :=
        Finset.sum_le_sum (fun j _ => h.rounds.done_le (.producer j))
      omega
  | consumer i =>
      have hempty : s.count = 0 := h.tally.empty (hflag _ ht)
      have hproduced : s.puts = ∑ j, cfg.itemsToProduce j := by
        refine Finset.sum_congr rfl (fun j _ => ?_)
        by_contra hne
        have hunfinished : ¬ s.Finished (.producer j) := fun hfin => hne hfin.done
        have hfull := h.tally.full (hflag _ hunfinished)
        omega
      have hall_done : s.done (.consumer i) = cfg.itemsToConsume i := by
        have hsum : s.takes = ∑ j, cfg.itemsToConsume j := by
          omega
        exact eq_of_sum_eq (fun j => h.rounds.done_le (.consumer j)) hsum i
      exact absurd hall_done hshort.ne

/-- Whatever the numbers of threads and items and the size of the buffer: if
every `futex_wake` of a run found at most one sleeper on its flag, then it is not
the case that every unfinished thread is asleep. -/
theorem reach_not_stuck (cfg : BalancedConfig) (s : Sys cfg.toConfig)
    (h : Reach Sys.step OneSleeper (Sys.init cfg.toConfig) s) : ¬ s.Stuck :=
  (h.keeps QueueInv.init (fun _ _ _ hinv hone hs => hinv.step hone hs)).not_stuck cfg.balanced

/-- The constants of the source. -/
abbrev sourceConfig : BalancedConfig :=
  { bufferSize := 5
    numProducers := 2
    numConsumers := 2
    itemsToProduce := fun _ => 5
    itemsToConsume := fun _ => 5
    size_pos := by decide
    balanced := rfl }

/-- One consumer asleep, and a producer that is about to wake it. -/
theorem reach_not_stuck_sourceConfig :
    ∃ s, Reach Sys.step OneSleeper (Sys.init sourceConfig.toConfig) s ∧
      s.pc (.producer 0) = .start ∧ s.count = 1 ∧ ¬ s.Stuck := by
  have hwaiting : Reach Sys.step OneSleeper (Sys.init sourceConfig.toConfig) _ :=
    .step (.futexWait (.consumer 0)) (.step (.consumer 0) .refl trivial rfl) trivial rfl
  have hwaking : Reach Sys.step OneSleeper (Sys.init sourceConfig.toConfig) _ :=
    .step (.producer 0) hwaiting trivial rfl
  have hwoken : Reach Sys.step OneSleeper (Sys.init sourceConfig.toConfig) _ :=
    .step (.futexWake (.producer 0) (some (.consumer 0))) hwaking
      (by unfold OneSleeper; decide) rfl
  exact ⟨_, hwoken, rfl, rfl, reach_not_stuck sourceConfig _ hwoken⟩

/-- Both consumers go to sleep.  The first item wakes one of them and clears the
flag, so that no later item wakes the other. -/
def lostWakeup : List (Act sourceConfig.toConfig) :=
  let first : Fin 2 := 0
  let second : Fin 2 := 1
  [.consumer first, .futexWait (.consumer first), .consumer second, .futexWait (.consumer second),
    .producer first, .futexWake (.producer first) (some (.consumer first))] ++
  List.replicate 4 (.producer second) ++ List.replicate 5 (.consumer first) ++
  List.replicate 4 (.producer first) ++ [.producer second]

/-- Producers and the first consumer finish; the second consumer sleeps for good
in front of a full buffer. -/
theorem lostWakeup_stuck :
    ∃ s, Reach Sys.step (fun _ _ => True) (Sys.init sourceConfig.toConfig) s ∧ s.count = 5 ∧
      s.Stuck := by
  have hrun : run Sys.step (Sys.init sourceConfig.toConfig) lostWakeup = some _ := rfl
  refine ⟨_, Reach.of_run hrun, rfl, ⟨.consumer 1, ?_⟩, ?_⟩
  · unfold Sys.Finished
    decide
  · unfold Sys.Finished
    decide

end SystemsInC.Ports.FutexQueue
