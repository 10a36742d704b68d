import SystemsInC.Verified.GuardedRuns
import Mathlib.Algebra.Order.Group.Multiset

/-!
# The bounded buffer with condition variables

One producer and one consumer share a stack-like buffer.  A thread takes one step
for each of its calls: lock, the test of its `while`, the access to the buffer,
signal, unlock.  `pthread_cond_wait` gives the mutex back and waits in one step; a
thread that is signalled, or that wakes for no reason, needs the mutex again and
goes back to the test.  A signal that finds nobody waiting is lost.

`Waits` says what a waiting thread waits for: its condition still holds, or the
other thread has changed the buffer and is about to signal.
-/

namespace SystemsInC.Ports.CondBuffer

open SystemsInC.Verified.GuardedRuns

/-! ## Threads and their state -/

/-- `BUFFER_SIZE` and the number of rounds of either loop. -/
structure Config where
  bufferSize : Nat
  items : Nat
  size_pos : 1 ≤ bufferSize

inductive Thread
  | producer
  | consumer
  deriving DecidableEq

def Thread.other : Thread → Thread
  | .producer => .consumer
  | .consumer => .producer

/-- What a thread does next. -/
inductive Pc
  /-- the test of the loop on its items, then `pthread_mutex_lock` -/
  | start
  /-- the test of the inner `while`, with the mutex -/
  | testing
  /-- blocked in `pthread_cond_wait` -/
  | waiting
  /-- about to leave `pthread_cond_wait`, which needs the mutex -/
  | woken
  /-- the access to the buffer -/
  | accessing
  | signalling
  | unlocking
  deriving DecidableEq

/-- A thread has the mutex in these places. -/
def Pc.holds : Pc → Bool
  | .testing | .accessing | .signalling | .unlocking => true
  | .start | .waiting | .woken => false

structure Sys where
  buffer : List Int
  count : Int
  mutex : Option Thread
  pc : Thread → Pc
  /-- the finished rounds of a thread: `i - 1` in the producer, `i` in the consumer -/
  round : Thread → Nat
  /-- the items of the lines `producer produced` -/
  produced : List Int
  /-- the items of the lines `consumer consumed` -/
  consumed : List Int

def Sys.init (cfg : Config) : Sys :=
  { buffer := List.replicate cfg.bufferSize 0
    count := 0
    mutex := none
    pc := fun _ => .start
    round := fun _ => 0
    produced := []
    consumed := [] }

/-! ## The steps -/

variable {cfg : Config} {s s' : Sys} {t : Thread}

def Sys.goto (s : Sys) (t : Thread) (pc : Pc) : Sys :=
  { s with pc := Function.update s.pc t pc }

/-- The condition of the inner `while`. -/
def Sys.mustWait (cfg : Config) (s : Sys) : Thread → Bool
  | .producer => s.count == cfg.bufferSize
  | .consumer => s.count == 0

/-- The index of the thread's access to the buffer. -/
def Sys.index (s : Sys) : Thread → Int
  | .producer => s.count
  | .consumer => s.count - 1

/-- `buffer[count] = i; count++` and `data = buffer[count - 1]; count--`. -/
def Sys.access (s : Sys) : Thread → Sys
  | .producer =>
      { s with
        buffer := s.buffer.set (s.index .producer).toNat (s.round .producer + 1)
        count := s.count + 1
        produced := s.produced ++ [(s.round .producer + 1 : Int)] }
  | .consumer =>
      { s with
        count := s.count - 1
        consumed := s.consumed ++ [s.buffer.getD (s.index .consumer).toNat 0] }

/-- `pthread_cond_signal` on the condition of a thread. -/
def Sys.signal (s : Sys) (t : Thread) : Sys :=
  if s.pc t = .waiting then s.goto t .woken else s

inductive Act
  /-- the thread does what it does next -/
  | run (t : Thread)
  /-- the thread wakes although nobody signalled -/
  | spurious (t : Thread)
  deriving DecidableEq

def step (cfg : Config) (s : Sys) : Act → Option Sys
  | .run t =>
      match s.pc t with
      | .start =>
          if s.round t < cfg.items ∧ s.mutex = none then
            some { s.goto t .testing with mutex := some t }
          else
            none
      | .testing =>
          if s.mustWait cfg t then
            some { s.goto t .waiting with mutex := none }
          else
            some (s.goto t .accessing)
      | .waiting => none
      | .woken =>
          if s.mutex = none then some { s.goto t .testing with mutex := some t } else none
      | .accessing => some ((s.access t).goto t .signalling)
      | .signalling => some ((s.signal t.other).goto t .unlocking)
      | .unlocking =>
          some { s.goto t .start with
            mutex := none
            round := Function.update s.round t (s.round t + 1) }
  | .spurious t => if s.pc t = .waiting then some (s.goto t .woken) else none

/-- The thread has left its loop. -/
def Sys.Finished (cfg : Config) (s : Sys) (t : Thread) : Prop :=
  s.pc t = .start ∧ ¬ s.round t < cfg.items

/-- The thread waits for a signal, or for the mutex that somebody holds. -/
def Sys.Blocked (cfg : Config) (s : Sys) (t : Thread) : Prop :=
  s.pc t = .waiting ∨
    ((s.pc t = .woken ∨ s.pc t = .start ∧ s.round t < cfg.items) ∧ s.mutex ≠ none)

/-- The states that the two threads reach. -/
def Reachable (cfg : Config) (s : Sys) : Prop :=
  Reach (step cfg) (fun _ _ => True) (Sys.init cfg) s

/-! ## What a step does -/

/-- The steps, one case for each place in the loop. -/
inductive Move (cfg : Config) (s : Sys) : Sys → Prop
  | lock (t : Thread) (hpc : s.pc t = .start ∧ s.round t < cfg.items ∨ s.pc t = .woken)
      (hfree : s.mutex = none) : Move cfg s { s.goto t .testing with mutex := some t }
  | wait (t : Thread) (hpc : s.pc t = .testing) (htest : s.mustWait cfg t = true) :
      Move cfg s { s.goto t .waiting with mutex := none }
  | pass (t : Thread) (hpc : s.pc t = .testing) (htest : s.mustWait cfg t = false) :
      Move cfg s (s.goto t .accessing)
  | wake (t : Thread) (hpc : s.pc t = .waiting) : Move cfg s (s.goto t .woken)
  | access (t : Thread) (hpc : s.pc t = .accessing) :
      Move cfg s ((s.access t).goto t .signalling)
  | signal (t : Thread) (hpc : s.pc t = .signalling) :
      Move cfg s ((s.signal t.other).goto t .unlocking)
  | unlock (t : Thread) (hpc : s.pc t = .unlocking) :
      Move cfg s { s.goto t .start with
        mutex := none
        round := Function.update s.round t (s.round t + 1) }

theorem move_of_step {a : Act} (hs : step cfg s a = some s') : Move cfg s s' := by
  cases a with
  | run t =>
      simp only [step] at hs
      split at hs
      · rename_i hpc
        rw [Option.ite_none_right_eq_some] at hs
        have ⟨⟨hround, hfree⟩, heq⟩ := hs
        cases heq
        exact .lock t (.inl ⟨hpc, hround⟩) hfree
      · rename_i hpc
        split at hs
        · rename_i htest
          cases hs
          exact .wait t hpc htest
        · rename_i htest
          cases hs
          exact .pass t hpc (Bool.not_eq_true _ ▸ htest)
      · cases hs
      · rename_i hpc
        rw [Option.ite_none_right_eq_some] at hs
        have ⟨hfree, heq⟩ := hs
        cases heq
        exact .lock t (.inr hpc) hfree
      · rename_i hpc
        cases hs
        exact .access t hpc
      · rename_i hpc
        cases hs
        exact .signal t hpc
      · rename_i hpc
        cases hs
        exact .unlock t hpc
  | spurious t =>
      simp only [step] at hs
      rw [Option.ite_none_right_eq_some] at hs
      have ⟨hpc, heq⟩ := hs
      cases heq
      exact .wake t hpc

/-! ### The parts of a move -/

@[simp] theorem Thread.other_ne (t : Thread) : t.other ≠ t := by
  cases t <;> decide

@[simp] theorem Thread.ne_other (t : Thread) : t ≠ t.other := (Thread.other_ne t).symm

@[simp] theorem Thread.other_other (t : Thread) : t.other.other = t := by
  cases t <;> rfl

theorem Thread.eq_or_eq_other (t u : Thread) : u = t ∨ u = t.other := by
  cases t <;> cases u <;> decide

@[simp] theorem goto_pc_self (s : Sys) (t : Thread) (pc : Pc) : (s.goto t pc).pc t = pc :=
  Function.update_self ..

@[simp] theorem goto_pc_other (s : Sys) (t : Thread) (pc : Pc) :
    (s.goto t pc).pc t.other = s.pc t.other :=
  Function.update_of_ne (Thread.other_ne t) ..

@[simp] theorem goto_other_pc (s : Sys) (t : Thread) (pc : Pc) :
    (s.goto t.other pc).pc t = s.pc t :=
  Function.update_of_ne (Thread.ne_other t) ..

@[simp] theorem access_pc (s : Sys) (t : Thread) : (s.access t).pc = s.pc := by
  cases t <;> rfl

@[simp] theorem access_mutex (s : Sys) (t : Thread) : (s.access t).mutex = s.mutex := by
  cases t <;> rfl

@[simp] theorem access_round (s : Sys) (t : Thread) : (s.access t).round = s.round := by
  cases t <;> rfl

/-- A signal moves a thread that waits, and no other. -/
theorem signal_cases (s : Sys) (t : Thread) :
    s.pc t = .waiting ∧ s.signal t = s.goto t .woken ∨ s.pc t ≠ .waiting ∧ s.signal t = s := by
  by_cases hpc : s.pc t = .waiting
  · exact .inl ⟨hpc, if_pos hpc⟩
  · exact .inr ⟨hpc, if_neg hpc⟩

@[simp] theorem signal_pc_other (s : Sys) (t : Thread) :
    (s.signal t.other).pc t = s.pc t := by
  rcases signal_cases s t.other with ⟨-, heq⟩ | ⟨-, heq⟩
  · rw [heq, goto_other_pc]
  · rw [heq]

theorem signal_pc_ne_waiting (s : Sys) (t : Thread) : (s.signal t).pc t ≠ .waiting := by
  rcases signal_cases s t with ⟨-, heq⟩ | ⟨hpc, heq⟩
  · rw [heq, goto_pc_self]
    decide
  · rw [heq]
    exact hpc

/-! ## The mutex -/

/-- The mutex is where the threads say. -/
def Owner (s : Sys) : Prop := ∀ t, s.mutex = some t ↔ (s.pc t).holds = true

theorem Owner.other (h : Owner s) (ht : (s.pc t).holds = true) :
    (s.pc t.other).holds = false := by
  by_contra hother
  have hmutex := (h t).mpr ht
  have hmutex' := (h t.other).mpr (by simpa using hother)
  rw [hmutex] at hmutex'
  exact Thread.ne_other t (Option.some.inj hmutex')

theorem Owner.free (h : Owner s) (hfree : s.mutex = none) (t : Thread) :
    (s.pc t).holds = false := by
  by_contra hholds
  have hmutex := (h t).mpr (by simpa using hholds)
  rw [hfree] at hmutex
  cases hmutex

/-- A move that neither takes the mutex nor gives it back. -/
theorem Owner.keep {p : Pc} (h : Owner s) (hmutex : s'.mutex = s.mutex)
    (hpc : s'.pc = (s.goto t p).pc) (hholds : p.holds = (s.pc t).holds) : Owner s' := by
  intro u
  rw [hmutex, h u, hpc]
  rcases Thread.eq_or_eq_other t u with rfl | rfl
  · rw [goto_pc_self, hholds]
  · rw [goto_pc_other]

/-- A move that takes the mutex or gives it back, while the other thread does not have it. -/
theorem Owner.pass {p : Pc} (hother : (s.pc t.other).holds = false)
    (hmutex : s'.mutex = if p.holds then some t else none)
    (hpc : s'.pc = (s.goto t p).pc) : Owner s' := by
  intro u
  rw [hmutex, hpc]
  rcases Thread.eq_or_eq_other t u with rfl | rfl
  · rw [goto_pc_self]
    cases p.holds <;> simp
  · rw [goto_pc_other, hother]
    cases p.holds <;> simp

theorem Owner.signal (h : Owner s) (t : Thread) : Owner (s.signal t) := by
  rcases signal_cases s t with ⟨hpc, heq⟩ | ⟨-, heq⟩
  · rw [heq]
    exact h.keep rfl rfl (by rw [hpc]; rfl)
  · rw [heq]
    exact h

theorem owner_move (h : Owner s) (hm : Move cfg s s') : Owner s' := by
  cases hm with
  | lock t hpc hfree => exact .pass (h.free hfree t.other) rfl rfl
  | wait t hpc htest => exact .pass (h.other (by rw [hpc]; rfl)) rfl rfl
  | pass t hpc htest => exact h.keep rfl rfl (by rw [hpc]; rfl)
  | wake t hpc => exact h.keep rfl rfl (by rw [hpc]; rfl)
  | access t hpc =>
      refine h.keep (t := t) (p := .signalling) (by simp [Sys.goto]) (by simp [Sys.goto]) ?_
      rw [hpc]
      rfl
  | signal t hpc =>
      refine (h.signal t.other).keep rfl rfl ?_
      rw [signal_pc_other, hpc]
      rfl
  | unlock t hpc => exact .pass (h.other (by rw [hpc]; rfl)) rfl rfl

/-! ## What a waiting thread waits for -/

/-- A waiting thread still has to wait, or it is about to be signalled. -/
def Waits (cfg : Config) (s : Sys) : Prop :=
  ∀ t, s.pc t = .waiting → s.mustWait cfg t = true ∨ s.pc t.other = .signalling

theorem mustWait_of_count (h : s'.count = s.count) (u : Thread) :
    s'.mustWait cfg u = s.mustWait cfg u := by
  cases u <;> simp only [Sys.mustWait, h]

/-- A move that leaves the buffer alone and does not come from `pthread_cond_signal`. -/
theorem Waits.keep {pc : Pc} (h : Waits cfg s) (hcount : s'.count = s.count)
    (hpc : s'.pc = (s.goto t pc).pc) (hold : s.pc t ≠ .signalling)
    (hwait : pc = .waiting → s.mustWait cfg t = true) : Waits cfg s' := by
  intro u hu
  rw [mustWait_of_count hcount]
  rcases Thread.eq_or_eq_other t u with rfl | rfl
  · rw [hpc, goto_pc_self] at hu
    exact .inl (hwait hu)
  · rw [hpc, goto_pc_other] at hu
    have hcases := h t.other hu
    rw [Thread.other_other] at hcases
    exact .inl (hcases.resolve_right hold)

theorem waits_move (h : Waits cfg s) (hm : Move cfg s s') : Waits cfg s' := by
  cases hm with
  | lock t hpc hfree =>
      refine h.keep rfl rfl ?_ nofun
      rcases hpc with ⟨hpc, -⟩ | hpc <;> simp [hpc]
  | wait t hpc htest => exact h.keep rfl rfl (by simp [hpc]) (fun _ => htest)
  | pass t hpc htest => exact h.keep rfl rfl (by simp [hpc]) nofun
  | wake t hpc => exact h.keep rfl rfl (by simp [hpc]) nofun
  | access t hpc =>
      intro u hu
      rcases Thread.eq_or_eq_other t u with rfl | rfl
      · rw [goto_pc_self] at hu
        cases hu
      · rw [Thread.other_other, goto_pc_self]
        exact .inr rfl
  | signal t hpc =>
      -- the signal reaches the other thread, so nobody waits any more
      intro u hu
      rcases Thread.eq_or_eq_other t u with rfl | rfl
      · rw [goto_pc_self] at hu
        cases hu
      · rw [goto_pc_other] at hu
        exact absurd hu (signal_pc_ne_waiting s t.other)
  | unlock t hpc => exact h.keep rfl rfl (by simp [hpc]) nofun

/-! ## The count -/

/-- A thread keeps to its loop: it is in a round that it has not finished, and a test
that it has passed still holds. -/
structure InLoop (cfg : Config) (s : Sys) : Prop where
  round_lt : ∀ t, s.pc t ≠ .start → s.round t < cfg.items
  passed : ∀ t, s.pc t = .accessing → s.mustWait cfg t = false

theorem InLoop.keep {pc : Pc} (h : InLoop cfg s) (hcount : s'.count = s.count)
    (hround : s'.round = s.round) (hpc : s'.pc = (s.goto t pc).pc)
    (hlt : s.pc t = .start → s.round t < cfg.items)
    (hpass : pc = .accessing → s.mustWait cfg t = false) : InLoop cfg s' where
  round_lt u hu := by
    rw [hround]
    rcases Thread.eq_or_eq_other t u with rfl | rfl
    · by_cases hstart : s.pc u = .start
      · exact hlt hstart
      · exact h.round_lt u hstart
    · rw [hpc, goto_pc_other] at hu
      exact h.round_lt _ hu
  passed u hu := by
    rw [mustWait_of_count hcount]
    rcases Thread.eq_or_eq_other t u with rfl | rfl
    · rw [hpc, goto_pc_self] at hu
      exact hpass hu
    · rw [hpc, goto_pc_other] at hu
      exact h.passed _ hu

theorem InLoop.signal (h : InLoop cfg s) (t : Thread) : InLoop cfg (s.signal t) := by
  rcases signal_cases s t with ⟨hpc, heq⟩ | ⟨-, heq⟩
  · rw [heq]
    exact h.keep rfl rfl rfl (by simp [hpc]) nofun
  · rw [heq]
    exact h

theorem inLoop_move (howner : Owner s) (h : InLoop cfg s) (hm : Move cfg s s') :
    InLoop cfg s' := by
  cases hm with
  | lock t hpc hfree =>
      refine h.keep rfl rfl rfl ?_ nofun
      rcases hpc with ⟨-, hlt⟩ | hpc
      · exact fun _ => hlt
      · simp [hpc]
  | wait t hpc htest => exact h.keep rfl rfl rfl (by simp [hpc]) nofun
  | pass t hpc htest => exact h.keep rfl rfl rfl (by simp [hpc]) (fun _ => htest)
  | wake t hpc => exact h.keep rfl rfl rfl (by simp [hpc]) nofun
  | access t hpc =>
      have hother := howner.other (t := t) (by rw [hpc]; rfl)
      constructor
      · intro u hu
        rcases Thread.eq_or_eq_other t u with rfl | rfl
        · simpa [Sys.goto] using h.round_lt u (by simp [hpc])
        · rw [goto_pc_other, access_pc] at hu
          simpa [Sys.goto] using h.round_lt _ hu
      · intro u hu
        rcases Thread.eq_or_eq_other t u with rfl | rfl
        · rw [goto_pc_self] at hu
          cases hu
        · rw [goto_pc_other, access_pc] at hu
          rw [hu] at hother
          cases hother
  | signal t hpc => exact (h.signal t.other).keep rfl rfl rfl (by simp [hpc]) nofun
  | unlock t hpc =>
      constructor
      · intro u hu
        rcases Thread.eq_or_eq_other t u with rfl | rfl
        · rw [goto_pc_self] at hu
          contradiction
        · rw [goto_pc_other] at hu
          simpa using h.round_lt _ hu
      · intro u hu
        rcases Thread.eq_or_eq_other t u with rfl | rfl
        · rw [goto_pc_self] at hu
          cases hu
        · rw [goto_pc_other] at hu
          exact h.passed _ hu

/-- In its round the thread has been at the buffer. -/
def Pc.accessed : Pc → Nat
  | .signalling | .unlocking => 1
  | .start | .testing | .waiting | .woken | .accessing => 0

/-- The accesses to the buffer that a thread has made. -/
def Sys.accesses (s : Sys) (t : Thread) : Nat := s.round t + (s.pc t).accessed

theorem accesses_goto {p : Pc} (hp : p.accessed = (s.pc t).accessed) (u : Thread) :
    (s.goto t p).accesses u = s.accesses u := by
  rcases Thread.eq_or_eq_other t u with rfl | rfl
  · rw [Sys.accesses, goto_pc_self, hp]
    rfl
  · rw [Sys.accesses, goto_pc_other]
    rfl

theorem accesses_access_self (hpc : s.pc t = .accessing) :
    ((s.access t).goto t .signalling).accesses t = s.accesses t + 1 := by
  simp [Sys.accesses, hpc, Pc.accessed, Sys.goto]

theorem accesses_access_other (s : Sys) (t : Thread) :
    ((s.access t).goto t .signalling).accesses t.other = s.accesses t.other := by
  simp [Sys.accesses, Sys.goto]

/-- What a move away from the buffer leaves alone. -/
structure Quiet (s s' : Sys) : Prop where
  buffer : s'.buffer = s.buffer
  count : s'.count = s.count
  produced : s'.produced = s.produced
  consumed : s'.consumed = s.consumed
  accesses : ∀ t, s'.accesses t = s.accesses t

theorem Quiet.goto {pc : Pc} (hpc : pc.accessed = (s.pc t).accessed) : Quiet s (s.goto t pc) :=
  ⟨rfl, rfl, rfl, rfl, accesses_goto hpc⟩

theorem Quiet.trans {s₁ s₂ s₃ : Sys} (h : Quiet s₁ s₂) (h' : Quiet s₂ s₃) : Quiet s₁ s₃ where
  buffer := h'.buffer.trans h.buffer
  count := h'.count.trans h.count
  produced := h'.produced.trans h.produced
  consumed := h'.consumed.trans h.consumed
  accesses t := (h'.accesses t).trans (h.accesses t)

theorem Quiet.signal (s : Sys) (t : Thread) : Quiet s (s.signal t) := by
  rcases signal_cases s t with ⟨hpc, heq⟩ | ⟨-, heq⟩
  · rw [heq]
    exact .goto (by rw [hpc]; rfl)
  · rw [heq]
    exact ⟨rfl, rfl, rfl, rfl, fun _ => rfl⟩

/-- A move is an access to the buffer or leaves it alone. -/
theorem Move.quiet_or_access (hm : Move cfg s s') :
    Quiet s s' ∨ ∃ t, s.pc t = .accessing ∧ s' = (s.access t).goto t .signalling := by
  cases hm with
  | lock t hpc hfree =>
      refine .inl ⟨rfl, rfl, rfl, rfl, accesses_goto (s := s) (p := .testing) ?_⟩
      rcases hpc with ⟨hpc, -⟩ | hpc <;> rw [hpc] <;> rfl
  | wait t hpc htest =>
      refine .inl ⟨rfl, rfl, rfl, rfl, accesses_goto (s := s) (p := .waiting) ?_⟩
      rw [hpc]
      rfl
  | pass t hpc htest => exact .inl (.goto (by rw [hpc]; rfl))
  | wake t hpc => exact .inl (.goto (by rw [hpc]; rfl))
  | access t hpc => exact .inr ⟨t, hpc, rfl⟩
  | signal t hpc =>
      have hgoto : Quiet (s.signal t.other) ((s.signal t.other).goto t .unlocking) :=
        .goto (by rw [signal_pc_other, hpc]; rfl)
      exact .inl ((Quiet.signal s t.other).trans hgoto)
  | unlock t hpc =>
      refine .inl ⟨rfl, rfl, rfl, rfl, fun u => ?_⟩
      rcases Thread.eq_or_eq_other t u with rfl | rfl
      · simp [Sys.accesses, Sys.goto, hpc, Pc.accessed]
      · simp [Sys.accesses, Sys.goto]

/-- The count counts the accesses, within the bounds of the buffer. -/
structure Counts (cfg : Config) (s : Sys) : Prop where
  count_eq : s.count = s.accesses .producer - s.accesses .consumer
  nonneg : 0 ≤ s.count
  le_size : s.count ≤ cfg.bufferSize

/-- An access behind a passed test is within the bounds. -/
theorem Counts.index_bounds (h : Counts cfg s) (hloop : InLoop cfg s)
    (hpc : s.pc t = .accessing) : 0 ≤ s.index t ∧ s.index t < cfg.bufferSize := by
  have hpassed := hloop.passed t hpc
  have hnonneg := h.nonneg
  have hle := h.le_size
  cases t with
  | producer =>
      have hne : s.count ≠ cfg.bufferSize := by simpa [Sys.mustWait] using hpassed
      show 0 ≤ s.count ∧ s.count < cfg.bufferSize
      omega
  | consumer =>
      have hne : s.count ≠ 0 := by simpa [Sys.mustWait] using hpassed
      show 0 ≤ s.count - 1 ∧ s.count - 1 < cfg.bufferSize
      omega

theorem counts_move (hloop : InLoop cfg s) (h : Counts cfg s) (hm : Move cfg s s') :
    Counts cfg s' := by
  rcases hm.quiet_or_access with hquiet | ⟨t, hpc, rfl⟩
  · exact
      { count_eq := by rw [hquiet.count, hquiet.accesses, hquiet.accesses, h.count_eq]
        nonneg := hquiet.count ▸ h.nonneg
        le_size := hquiet.count ▸ h.le_size }
  · have ⟨hge, hlt⟩ := h.index_bounds hloop hpc
    have hself := accesses_access_self hpc
    have hother := accesses_access_other s t
    have hcount := h.count_eq
    have hle := h.le_size
    cases t with
    | producer =>
        change 0 ≤ s.count at hge
        change s.count < cfg.bufferSize at hlt
        constructor
        · rw [hself, show Thread.consumer = Thread.producer.other from rfl, hother]
          show s.count + 1 = _
          rw [show Thread.producer.other = Thread.consumer from rfl]
          omega
        · show 0 ≤ s.count + 1
          omega
        · show s.count + 1 ≤ _
          omega
    | consumer =>
        change 0 ≤ s.count - 1 at hge
        change s.count - 1 < cfg.bufferSize at hlt
        constructor
        · rw [hself, show Thread.producer = Thread.consumer.other from rfl, hother]
          show s.count - 1 = _
          rw [show Thread.consumer.other = Thread.producer from rfl]
          omega
        · exact hge
        · show s.count - 1 ≤ _
          omega

/-! ## The items -/

/-- The used part of the buffer. -/
def Sys.stored (s : Sys) : List Int := s.buffer.take s.count.toNat

theorem stored_put (hge : 0 ≤ s.count) (hlt : s.count.toNat < s.buffer.length) :
    (s.access .producer).stored = s.stored ++ [(s.round .producer + 1 : Int)] := by
  have hnat : (s.count + 1).toNat = s.count.toNat + 1 := by omega
  show (s.buffer.set s.count.toNat _).take (s.count + 1).toNat = s.buffer.take s.count.toNat ++ _
  rw [hnat, List.take_add_one, List.getElem?_set_self hlt, List.take_set_of_le (Nat.le_refl _)]
  rfl

theorem stored_take (hge : 0 ≤ s.count - 1) (hlt : (s.count - 1).toNat < s.buffer.length) :
    s.stored = (s.access .consumer).stored ++ [s.buffer.getD (s.index .consumer).toNat 0] := by
  have hnat : s.count.toNat = (s.count - 1).toNat + 1 := by omega
  show s.buffer.take s.count.toNat =
    s.buffer.take (s.count - 1).toNat ++ [s.buffer.getD (s.count - 1).toNat 0]
  rw [hnat, List.take_add_one, List.getD_eq_getElem?_getD, List.getElem?_eq_getElem hlt]
  rfl

/-- No item is lost, made up or taken twice; the producer counts up from 1. -/
structure Conserved (cfg : Config) (s : Sys) : Prop where
  length_buffer : s.buffer.length = cfg.bufferSize
  produced_eq : s.produced =
    (List.range (s.accesses .producer)).map (fun i : Nat => (i : Int) + 1)
  items : (s.consumed : Multiset Int) + s.stored = s.produced

theorem conserved_move (hloop : InLoop cfg s) (hcounts : Counts cfg s) (h : Conserved cfg s)
    (hm : Move cfg s s') : Conserved cfg s' := by
  rcases hm.quiet_or_access with hquiet | ⟨t, hpc, rfl⟩
  · exact
      { length_buffer := by rw [hquiet.buffer, h.length_buffer]
        produced_eq := by rw [hquiet.produced, hquiet.accesses, h.produced_eq]
        items := by
          rw [Sys.stored, hquiet.buffer, hquiet.count, hquiet.produced, hquiet.consumed,
            ← h.items, Sys.stored] }
  · have ⟨hge, hlt⟩ := hcounts.index_bounds hloop hpc
    have hlength := h.length_buffer
    cases t with
    | producer =>
        change 0 ≤ s.count at hge
        change s.count < cfg.bufferSize at hlt
        have hround : s.accesses .producer = s.round .producer := by
          simp [Sys.accesses, hpc, Pc.accessed]
        have hstored := stored_put hge (by omega)
        constructor
        · show (s.buffer.set _ _).length = _
          rw [List.length_set, hlength]
        · rw [accesses_access_self hpc, List.range_succ, List.map_append, ← h.produced_eq, hround]
          rfl
        · show (s.consumed : Multiset Int) + (s.access .producer).stored =
            ((s.produced ++ [(s.round .producer + 1 : Int)] : List Int) : Multiset Int)
          rw [hstored, ← Multiset.coe_add, ← Multiset.coe_add, ← h.items, add_assoc]
    | consumer =>
        change 0 ≤ s.count - 1 at hge
        change s.count - 1 < cfg.bufferSize at hlt
        have hstored := stored_take hge (by omega)
        constructor
        · exact hlength
        · have hother := accesses_access_other s .consumer
          rw [show Thread.consumer.other = Thread.producer from rfl] at hother
          rw [hother, ← h.produced_eq]
          rfl
        · show ((s.consumed ++ [s.buffer.getD (s.index .consumer).toNat 0] : List Int) :
              Multiset Int) + (s.access .consumer).stored = s.produced
          rw [← h.items, hstored, ← Multiset.coe_add, ← Multiset.coe_add, add_assoc]
          exact congrArg _ (add_comm _ _)

/-! ## All reachable states -/

/-- What holds in every state that the two threads reach. -/
structure Inv (cfg : Config) (s : Sys) : Prop where
  owner : Owner s
  waits : Waits cfg s
  inLoop : InLoop cfg s
  counts : Counts cfg s
  conserved : Conserved cfg s

theorem Inv.init : Inv cfg (Sys.init cfg) where
  owner _ := by simp [Sys.init, Pc.holds]
  waits _ hpc := by cases hpc
  inLoop := ⟨fun _ hpc => absurd rfl hpc, nofun⟩
  counts := ⟨rfl, Int.le_refl 0, by simp [Sys.init]⟩
  conserved := ⟨by simp [Sys.init], rfl, rfl⟩

theorem Inv.move (h : Inv cfg s) (hm : Move cfg s s') : Inv cfg s' where
  owner := owner_move h.owner hm
  waits := waits_move h.waits hm
  inLoop := inLoop_move h.owner h.inLoop hm
  counts := counts_move h.inLoop h.counts hm
  conserved := conserved_move h.inLoop h.counts h.conserved hm

theorem Reachable.inv (h : Reachable cfg s) : Inv cfg s :=
  Reach.keeps Inv.init (fun _ _ _ hinv _ hs => hinv.move (move_of_step hs)) h

/-! ### No thread is left behind -/

theorem Sys.Blocked.not_holds (h : s.Blocked cfg t) : (s.pc t).holds = false := by
  rcases h with hpc | ⟨hpc | ⟨hpc, -⟩, -⟩ <;> rw [hpc] <;> rfl

theorem Sys.Finished.not_holds (h : s.Finished cfg t) : (s.pc t).holds = false := by
  rw [h.1]
  rfl

/-- While neither thread has the mutex, a blocked one waits for a signal. -/
theorem Inv.waiting_of_blocked (h : Inv cfg s) (hother : (s.pc t.other).holds = false)
    (hblocked : s.Blocked cfg t) : s.pc t = .waiting := by
  rcases hblocked with hpc | ⟨hpc, hmutex⟩
  · exact hpc
  · have ⟨u, hu⟩ := Option.ne_none_iff_exists'.mp hmutex
    have hholds := (h.owner u).mp hu
    rcases Thread.eq_or_eq_other t u with rfl | rfl
    · have hblocked : s.Blocked cfg u := .inr ⟨hpc, hmutex⟩
      rw [hblocked.not_holds] at hholds
      contradiction
    · rw [hother] at hholds
      contradiction

/-- A waiting thread whose signal is not under way still has to wait. -/
theorem Inv.mustWait_of_waiting (h : Inv cfg s) (hother : (s.pc t.other).holds = false)
    (hpc : s.pc t = .waiting) : s.mustWait cfg t = true := by
  rcases h.waits t hpc with htest | hsignal
  · exact htest
  · rw [hsignal] at hother
    cases hother

/-- A waiting thread is not left alone: the other one has items to handle. -/
theorem Inv.other_unfinished (h : Inv cfg s) (hpc : s.pc t = .waiting) :
    ¬ s.Finished cfg t.other := by
  intro hfinished
  have htest := h.mustWait_of_waiting hfinished.not_holds hpc
  have hround := h.inLoop.round_lt t (by simp [hpc])
  have ⟨hstart, hdone⟩ := hfinished
  have hcount := h.counts.count_eq
  have hsize := cfg.size_pos
  have hself : s.accesses t = s.round t := by simp [Sys.accesses, hpc, Pc.accessed]
  have hother : s.accesses t.other = s.round t.other := by
    simp [Sys.accesses, hstart, Pc.accessed]
  cases t with
  | producer =>
      have hfull : s.count = cfg.bufferSize := by simpa [Sys.mustWait] using htest
      rw [show Thread.producer.other = Thread.consumer from rfl] at hother hdone
      omega
  | consumer =>
      have hempty : s.count = 0 := by simpa [Sys.mustWait] using htest
      rw [show Thread.consumer.other = Thread.producer from rfl] at hother hdone
      omega

/-- The two threads do not wait at the same time with no signal under way. -/
theorem Inv.not_both_waiting (h : Inv cfg s) (hpc : s.pc t = .waiting)
    (hpc' : s.pc t.other = .waiting) : False := by
  have htest := h.mustWait_of_waiting (by rw [hpc']; rfl) hpc
  have htest' := h.mustWait_of_waiting (t := t.other) (by rw [Thread.other_other, hpc]; rfl) hpc'
  have hsize := cfg.size_pos
  cases t <;> simp only [Sys.mustWait, Thread.other, beq_iff_eq] at htest htest' <;> omega

theorem Inv.not_stuck (h : Inv cfg s) (hblocked : s.Blocked cfg t) :
    ¬ s.Blocked cfg t.other ∧ ¬ s.Finished cfg t.other := by
  constructor
  · intro hblocked'
    have hpc := h.waiting_of_blocked hblocked'.not_holds hblocked
    have hpc' := h.waiting_of_blocked (t := t.other)
      (by rw [Thread.other_other]; exact hblocked.not_holds) hblocked'
    exact h.not_both_waiting hpc hpc'
  · intro hfinished
    have hpc := h.waiting_of_blocked hfinished.not_holds hblocked
    exact h.other_unfinished hpc hfinished

/-- **Nothing is lost and nobody hangs.**  In every state that the two threads reach, the
next access to the buffer is within its bounds, the consumed items with the stored ones
are the produced ones, and while a thread is blocked the other one is neither blocked nor
finished. -/
theorem buffer_correct (h : Reachable cfg s) :
    (∀ t, s.pc t = .accessing → 0 ≤ s.index t ∧ s.index t < cfg.bufferSize) ∧
      (s.consumed : Multiset Int) + s.stored = s.produced ∧
      ∀ t, s.Blocked cfg t → ¬ s.Blocked cfg t.other ∧ ¬ s.Finished cfg t.other :=
  ⟨fun _ hpc => h.inv.counts.index_bounds h.inv.inLoop hpc, h.inv.conserved.items,
    fun _ hblocked => h.inv.not_stuck hblocked⟩

/-- In a buffer of one place the second item waits until the consumer has been there. -/
theorem buffer_correct_producerWaits :
    ∃ s : Sys, s.pc .producer = .waiting ∧ s.produced = [1] ∧ s.consumed = [] ∧
      (s.consumed : Multiset Int) + s.stored = s.produced ∧
      ¬ s.Blocked ⟨1, 2, by decide⟩ .consumer := by
  have hrun : ∃ s, run (step ⟨1, 2, by decide⟩) (Sys.init ⟨1, 2, by decide⟩)
      (List.replicate 7 (.run .producer)) = some s ∧
      s.pc .producer = .waiting ∧ s.produced = [1] ∧ s.consumed = [] := ⟨_, rfl, rfl, rfl, rfl⟩
  have ⟨s, hs, hpc, hproduced, hconsumed⟩ := hrun
  have hcorrect := buffer_correct (Reach.of_run hs)
  exact ⟨s, hpc, hproduced, hconsumed, hcorrect.2.1, (hcorrect.2.2 .producer (.inl hpc)).1⟩

end SystemsInC.Ports.CondBuffer
