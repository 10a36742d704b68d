import SystemsInC.Verified.GuardedRuns
import Mathlib.Data.Fintype.Sum
import Mathlib.Tactic.DeriveFintype

/-!
# The bounded queue on two futex flags

`producer` and `consumer` run in any number of threads on one buffer.  A thread
is atomic in each critical section of `mutex`, up to the call of `futex_wake`
that some of them make before they unlock; in `futex_wait`, which goes to sleep
only if the flag still is 1; and in that `futex_wake`, which wakes at most one
sleeper.  Two histories record what was written to the buffer and what was read
from it.

A flag that is 1 stands for every thread that sleeps on it, and it is cleared by
a waker that wakes one of them.  The run `lostWakeup` of
`FutexWakeup` leaves the second sleeper behind.  As long as every `futex_wake` finds
at most one sleeper, no thread is left behind (`reach_not_stuck`, in the same place).
-/

namespace SystemsInC.Ports.FutexQueue

open SystemsInC.Verified.GuardedRuns

/-! ## Threads and their state -/

/-- The threads and the numbers of items that they handle. -/
structure Config where
  bufferSize : Nat
  numProducers : Nat
  numConsumers : Nat
  itemsToProduce : Fin numProducers → Nat
  itemsToConsume : Fin numConsumers → Nat
  size_pos : 1 ≤ bufferSize

/-- Producers and consumers handle the same total. -/
structure BalancedConfig extends Config where
  balanced : ∑ i, itemsToProduce i = ∑ i, itemsToConsume i

inductive Thread (cfg : Config)
  | producer (i : Fin cfg.numProducers)
  | consumer (i : Fin cfg.numConsumers)
  deriving DecidableEq, Fintype

/-- The two words that threads sleep on. -/
inductive Flag
  | notFull
  | notEmpty
  deriving DecidableEq

/-- Where a thread is between two of its steps. -/
inductive Pc
  /-- before `pthread_mutex_lock`, at the head of its loop or after `futex_wait` -/
  | start
  /-- after the unlock in the body of `while`, before `futex_wait` -/
  | waiting
  /-- asleep in `futex_wait` -/
  | asleep
  /-- before `futex_wake`, with `mutex` locked -/
  | waking
  deriving DecidableEq

variable {cfg : Config}

/-- The number of rounds of the thread's loop. -/
def Thread.items : Thread cfg → Nat
  | .producer i => cfg.itemsToProduce i
  | .consumer i => cfg.itemsToConsume i

/-- The flag that the thread sleeps on. -/
def Thread.waitFlag : Thread cfg → Flag
  | .producer _ => .notFull
  | .consumer _ => .notEmpty

/-- The flag of the sleepers that the thread wakes. -/
def Thread.wakeFlag : Thread cfg → Flag
  | .producer _ => .notEmpty
  | .consumer _ => .notFull

structure Sys (cfg : Config) where
  buffer : List Nat
  inPos : Nat
  outPos : Nat
  count : Nat
  flags : Flag → Int
  /-- the thread that keeps `mutex` locked between two steps -/
  mutex : Option (Thread cfg)
  pc : Thread cfg → Pc
  /-- the loop variable `i` -/
  round : Thread cfg → Nat
  /-- what the producers wrote to the buffer, the first item first -/
  produced : List Nat
  /-- what the consumers read from the buffer, the first item first -/
  consumed : List Nat

def Sys.init (cfg : Config) : Sys cfg :=
  { buffer := List.replicate cfg.bufferSize 0
    inPos := 0
    outPos := 0
    count := 0
    flags := fun _ => 0
    mutex := none
    pc := fun _ => .start
    round := fun _ => 0
    produced := []
    consumed := [] }

/-! ## The steps -/

/-- The body of `while`: store 1 to the flag and unlock. -/
def Sys.goWaiting (s : Sys cfg) (t : Thread cfg) : Sys cfg :=
  { s with
    flags := Function.update s.flags t.waitFlag 1
    pc := Function.update s.pc t .waiting }

/-- The end of a round without a call of `futex_wake`. -/
def Sys.nextRound (s : Sys cfg) (t : Thread cfg) : Sys cfg :=
  { s with round := Function.update s.round t (s.round t + 1) }

/-- Clear the flag and go on to `futex_wake` with `mutex` locked. -/
def Sys.goWaking (s : Sys cfg) (t : Thread cfg) : Sys cfg :=
  { s with
    flags := Function.update s.flags t.wakeFlag 0
    mutex := some t
    pc := Function.update s.pc t .waking }

/-- The critical section that both threads run: wait while `blocked`, otherwise
change the buffer and look at the other flag. -/
def Sys.section (s : Sys cfg) (t : Thread cfg) (blocked : Bool) (body : Sys cfg → Sys cfg) :
    Option (Sys cfg) :=
  if s.pc t = .start ∧ s.round t < t.items ∧ s.mutex = none then
    if blocked then
      some (s.goWaiting t)
    else if s.flags t.wakeFlag = 1 then
      some ((body s).goWaking t)
    else
      some ((body s).nextRound t)
  else
    none

/-- `buffer[in] = item; in = (in + 1) % BUFFER_SIZE; count++`. -/
def Sys.put (item : Nat) (s : Sys cfg) : Sys cfg :=
  { s with
    buffer := s.buffer.set s.inPos item
    inPos := (s.inPos + 1) % cfg.bufferSize
    count := s.count + 1
    produced := s.produced ++ [item] }

/-- `int item = buffer[out]; out = (out + 1) % BUFFER_SIZE; count--`; the item is only
printed. -/
def Sys.take (s : Sys cfg) : Sys cfg :=
  { s with
    outPos := (s.outPos + 1) % cfg.bufferSize
    count := s.count - 1
    consumed := s.consumed ++ [s.buffer.getD s.outPos 0] }

def producer (s : Sys cfg) (i : Fin cfg.numProducers) : Option (Sys cfg) :=
  s.section (.producer i) (s.count == cfg.bufferSize) (Sys.put (s.round (.producer i) + 1))

def consumer (s : Sys cfg) (i : Fin cfg.numConsumers) : Option (Sys cfg) :=
  s.section (.consumer i) (s.count == 0) Sys.take

/-- `futex_wait(flag, 1)`. -/
def futexWait (s : Sys cfg) (t : Thread cfg) : Option (Sys cfg) :=
  if s.pc t = .waiting then
    some { s with
      pc := Function.update s.pc t (if s.flags t.waitFlag = 1 then .asleep else .start) }
  else
    none

/-- Thread `u` sleeps on the flag. -/
def Sys.SleepsOn (s : Sys cfg) (flag : Flag) (u : Thread cfg) : Prop :=
  s.pc u = .asleep ∧ u.waitFlag = flag

instance (s : Sys cfg) (flag : Flag) (u : Thread cfg) : Decidable (s.SleepsOn flag u) :=
  inferInstanceAs (Decidable (_ ∧ _))

/-- Back from `futex_wake`: unlock and end the round. -/
def Sys.unlock (s : Sys cfg) (t : Thread cfg) : Sys cfg :=
  { s with
    mutex := none
    pc := Function.update s.pc t .start
    round := Function.update s.round t (s.round t + 1) }

/-- `futex_wake(flag, 1)` and the unlock after it.  The kernel picks the sleeper;
it wakes none only if there is none. -/
def futexWake (s : Sys cfg) (t : Thread cfg) (woken : Option (Thread cfg)) : Option (Sys cfg) :=
  if s.pc t = .waking then
    match woken with
    | some u =>
        if s.SleepsOn t.wakeFlag u then
          some ({ s with pc := Function.update s.pc u .start }.unlock t)
        else
          none
    | none =>
        if ∀ u, ¬ s.SleepsOn t.wakeFlag u then
          some (s.unlock t)
        else
          none
  else
    none

/-- A choice of the scheduler. -/
inductive Act (cfg : Config)
  | producer (i : Fin cfg.numProducers)
  | consumer (i : Fin cfg.numConsumers)
  | futexWait (t : Thread cfg)
  | futexWake (t : Thread cfg) (woken : Option (Thread cfg))

def Sys.step (s : Sys cfg) : Act cfg → Option (Sys cfg)
  | .producer i => producer s i
  | .consumer i => consumer s i
  | .futexWait t => futexWait s t
  | .futexWake t woken => futexWake s t woken

/-- The thread has left its loop. -/
def Sys.Finished (s : Sys cfg) (t : Thread cfg) : Prop :=
  s.pc t = .start ∧ s.round t = t.items

/-- Some thread has not finished, and every such thread is asleep. -/
def Sys.Stuck (s : Sys cfg) : Prop :=
  (∃ t, ¬ s.Finished t) ∧ ∀ t, ¬ s.Finished t → s.pc t = .asleep

/-! ## What a step does -/

/-- A critical section runs in a thread that is at its start, while `mutex` is
free: it goes waiting, it goes waking, or it ends its round. -/
theorem Sys.section_cases {s s' : Sys cfg} {t : Thread cfg} {blocked : Bool}
    {body : Sys cfg → Sys cfg} (h : s.section t blocked body = some s') :
    s.pc t = .start ∧ s.round t < t.items ∧ s.mutex = none ∧
      (blocked = true ∧ s' = s.goWaiting t ∨
        blocked = false ∧ s.flags t.wakeFlag = 1 ∧ s' = (body s).goWaking t ∨
        blocked = false ∧ s.flags t.wakeFlag ≠ 1 ∧ s' = (body s).nextRound t) := by
  unfold Sys.section at h
  split at h
  case isTrue hguard =>
      refine ⟨hguard.1, hguard.2.1, hguard.2.2, ?_⟩
      split at h
      case isTrue hblocked => exact .inl ⟨hblocked, (Option.some.inj h).symm⟩
      case isFalse hblocked =>
          have hfree : blocked = false := by simpa using hblocked
          split at h
          case isTrue hflag => exact .inr (.inl ⟨hfree, hflag, (Option.some.inj h).symm⟩)
          case isFalse hflag => exact .inr (.inr ⟨hfree, hflag, (Option.some.inj h).symm⟩)
  case isFalse => cases h

theorem futexWait_cases {s s' : Sys cfg} {t : Thread cfg} (h : futexWait s t = some s') :
    s.pc t = .waiting ∧ s' = { s with
      pc := Function.update s.pc t (if s.flags t.waitFlag = 1 then .asleep else .start) } := by
  unfold futexWait at h
  split at h
  case isTrue hpc => exact ⟨hpc, (Option.some.inj h).symm⟩
  case isFalse => cases h

/-- `futex_wake` wakes a sleeper, or there is none. -/
theorem futexWake_cases {s s' : Sys cfg} {t : Thread cfg} {woken : Option (Thread cfg)}
    (h : futexWake s t woken = some s') :
    s.pc t = .waking ∧
      ((∃ u, s.SleepsOn t.wakeFlag u ∧
          s' = { s with pc := Function.update s.pc u .start }.unlock t) ∨
        (∀ u, ¬ s.SleepsOn t.wakeFlag u) ∧ s' = s.unlock t) := by
  unfold futexWake at h
  split at h
  case isFalse => cases h
  case isTrue hpc =>
      refine ⟨hpc, ?_⟩
      cases woken with
      | some u =>
          simp only [] at h
          split at h
          case isTrue hu => exact .inl ⟨u, hu, (Option.some.inj h).symm⟩
          case isFalse => cases h
      | none =>
          simp only [] at h
          split at h
          case isTrue hu => exact .inr ⟨hu, (Option.some.inj h).symm⟩
          case isFalse => cases h

end SystemsInC.Ports.FutexQueue
