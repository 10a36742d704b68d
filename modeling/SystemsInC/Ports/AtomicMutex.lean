import SystemsInC.Verified.GuardedRuns
import SystemsInC.Verified.MachineInt
import Mathlib.Data.Fintype.BigOperators
import Mathlib.Tactic.Ring

/-!
# The atomic and the mutex counter

`atomic-vs-mutex.c` runs two tests.  In each one `main` creates its threads, joins
them and prints a counter; the threads of the first test use `atomic_fetch_add`, those
of the second one load, add and store under a mutex.  A thread takes one step for each
test of its loop and for each access to shared memory, so the threads interleave between
the load and the store as well.

`adds` reads the finished additions of a thread off its place in the loop; the counters
are the sums of these, and a loaded value is still the counter.
-/

namespace SystemsInC.Ports.AtomicMutex

open SystemsInC.Verified.GuardedRuns
open SystemsInC.Verified.MachineInt

/-! ## The program -/

/-- `NUM_THREADS` and `NUM_ITERATIONS`, both of them and their product numbers that an `int`
can count to. -/
structure Config where
  threads : Nat
  iterations : Nat
  threadsFit : threads ≤ 2147483647
  iterationsFit : iterations ≤ 2147483647
  fits : threads * iterations ≤ 2147483647

/-- The function that a thread runs. -/
inductive Worker
  | atomic
  | mutex
  deriving DecidableEq

def Worker.other : Worker → Worker
  | .atomic => .mutex
  | .mutex => .atomic

theorem Worker.eq_or_eq_other (worker w : Worker) : w = worker ∨ w = worker.other := by
  cases worker <;> cases w <;> decide

/-- What a thread does next. -/
inductive Pc
  /-- nobody has created the thread -/
  | absent
  /-- the test `i < NUM_ITERATIONS` -/
  | testing (worker : Worker) (i : Nat)
  /-- `atomic_fetch_add` -/
  | adding (i : Nat)
  /-- `pthread_mutex_lock` -/
  | locking (i : Nat)
  /-- the load of `mutex_counter++` -/
  | loading (i : Nat)
  /-- its store, with the loaded value -/
  | storing (i : Nat) (loaded : Int)
  /-- `pthread_mutex_unlock` -/
  | unlocking (i : Nat)
  | returned (worker : Worker)
  deriving DecidableEq

/-- What `main` does next: the loops that create and join the threads, with their `i`;
the last step of a joining loop prints the counter. -/
inductive MainPc
  | creating (worker : Worker) (i : Nat)
  | joining (worker : Worker) (i : Nat)
  | returned
  deriving DecidableEq

structure Sys (cfg : Config) where
  main : MainPc
  pc : Fin cfg.threads → Pc
  atomicCounter : Int
  mutexCounter : Int
  lock : Option (Fin cfg.threads)
  /-- the counters of the lines that `main` has printed -/
  printed : List Int

def Sys.init (cfg : Config) : Sys cfg :=
  { main := .creating .atomic 0
    pc := fun _ => .absent
    atomicCounter := 0
    mutexCounter := 0
    lock := none
    printed := [] }

variable {cfg : Config} {s s' : Sys cfg}

def Sys.goto (s : Sys cfg) (t : Fin cfg.threads) (pc : Pc) : Sys cfg :=
  { s with pc := Function.update s.pc t pc }

def Sys.counter (s : Sys cfg) : Worker → Int
  | .atomic => s.atomicCounter
  | .mutex => s.mutexCounter

/-- The first statement of the loop's body. -/
def Worker.body : Worker → Nat → Pc
  | .atomic, i => .adding i
  | .mutex, i => .locking i

/-- What `main` does after a test. -/
def Worker.next : Worker → MainPc
  | .atomic => .creating .mutex 0
  | .mutex => .returned

/-- A join waits for this. -/
def Pc.hasReturned : Pc → Bool
  | .returned _ => true
  | _ => false

inductive Act (cfg : Config)
  | main
  | thread (t : Fin cfg.threads)

/-- A step of a thread.  A signed addition that overflows has no step. -/
def threadStep (s : Sys cfg) (t : Fin cfg.threads) : Option (Sys cfg) :=
  match s.pc t with
  | .absent => none
  | .testing worker i =>
      if i < cfg.iterations then
        some (s.goto t (worker.body i))
      else
        some (s.goto t (.returned worker))
  | .adding i =>
      some { s.goto t (.testing .atomic (i + 1)) with
        atomicCounter := toInt (s.atomicCounter + 1) }
  | .locking i =>
      if s.lock = none then some { s.goto t (.loading i) with lock := some t } else none
  | .loading i => some (s.goto t (.storing i s.mutexCounter))
  | .storing i loaded =>
      (int (loaded + 1)).map fun sum => { s.goto t (.unlocking i) with mutexCounter := sum }
  | .unlocking i => some { s.goto t (.testing .mutex (i + 1)) with lock := none }
  | .returned _ => none

def mainStep (s : Sys cfg) : Option (Sys cfg) :=
  match s.main with
  | .creating worker i =>
      if h : i < cfg.threads then
        some { s.goto ⟨i, h⟩ (.testing worker 0) with main := .creating worker (i + 1) }
      else
        some { s with main := .joining worker 0 }
  | .joining worker i =>
      if h : i < cfg.threads then
        if (s.pc ⟨i, h⟩).hasReturned then
          some { s with main := .joining worker (i + 1) }
        else
          none
      else
        some { s with
          printed := s.printed ++ [s.counter worker]
          main := worker.next }
  | .returned => none

def step (cfg : Config) (s : Sys cfg) : Act cfg → Option (Sys cfg)
  | .main => mainStep s
  | .thread t => threadStep s t

/-! ## What a step does -/

/-- The steps of the threads, one case for each place in the loop. -/
inductive Move (s : Sys cfg) (t : Fin cfg.threads) : Sys cfg → Prop
  | test (worker : Worker) (i : Nat) (hpc : s.pc t = .testing worker i)
      (hlt : i < cfg.iterations) : Move s t (s.goto t (worker.body i))
  | leave (worker : Worker) (i : Nat) (hpc : s.pc t = .testing worker i)
      (hge : cfg.iterations ≤ i) : Move s t (s.goto t (.returned worker))
  | add (i : Nat) (hpc : s.pc t = .adding i) :
      Move s t { s.goto t (.testing .atomic (i + 1)) with
        atomicCounter := toInt (s.atomicCounter + 1) }
  | lock (i : Nat) (hpc : s.pc t = .locking i) (hfree : s.lock = none) :
      Move s t { s.goto t (.loading i) with lock := some t }
  | load (i : Nat) (hpc : s.pc t = .loading i) :
      Move s t (s.goto t (.storing i s.mutexCounter))
  | store (i : Nat) (loaded : Int) (hpc : s.pc t = .storing i loaded) :
      Move s t { s.goto t (.unlocking i) with mutexCounter := loaded + 1 }
  | unlock (i : Nat) (hpc : s.pc t = .unlocking i) :
      Move s t { s.goto t (.testing .mutex (i + 1)) with lock := none }

theorem move_of_threadStep {t : Fin cfg.threads} (h : threadStep s t = some s') : Move s t s' := by
  unfold threadStep at h
  split at h
  · contradiction
  · rename_i worker i hpc
    by_cases hlt : i < cfg.iterations
    · rw [if_pos hlt] at h
      exact Option.some.inj h ▸ .test worker i hpc hlt
    · rw [if_neg hlt] at h
      exact Option.some.inj h ▸ .leave worker i hpc (Nat.not_lt.mp hlt)
  · rename_i i hpc
    exact Option.some.inj h ▸ .add i hpc
  · rename_i i hpc
    rw [Option.ite_none_right_eq_some] at h
    exact Option.some.inj h.2 ▸ .lock i hpc h.1
  · rename_i i hpc
    exact Option.some.inj h ▸ .load i hpc
  · rename_i i loaded hpc
    unfold int at h
    split at h
    · exact Option.some.inj h ▸ .store i loaded hpc
    · contradiction
  · rename_i i hpc
    exact Option.some.inj h ▸ .unlock i hpc
  · contradiction

/-- The steps of `main`. -/
inductive MainMove (s : Sys cfg) : Sys cfg → Prop
  | create (worker : Worker) (i : Nat) (hmain : s.main = .creating worker i)
      (h : i < cfg.threads) :
      MainMove s { s.goto ⟨i, h⟩ (.testing worker 0) with main := .creating worker (i + 1) }
  | created (worker : Worker) (i : Nat) (hmain : s.main = .creating worker i)
      (hge : cfg.threads ≤ i) : MainMove s { s with main := .joining worker 0 }
  | join (worker : Worker) (i : Nat) (hmain : s.main = .joining worker i)
      (h : i < cfg.threads) (hpc : (s.pc ⟨i, h⟩).hasReturned = true) :
      MainMove s { s with main := .joining worker (i + 1) }
  | print (worker : Worker) (i : Nat) (hmain : s.main = .joining worker i)
      (hge : cfg.threads ≤ i) :
      MainMove s { s with printed := s.printed ++ [s.counter worker], main := worker.next }

theorem move_of_mainStep (h : mainStep s = some s') : MainMove s s' := by
  unfold mainStep at h
  split at h
  · rename_i worker i hmain
    by_cases hlt : i < cfg.threads
    · rw [dif_pos hlt] at h
      exact Option.some.inj h ▸ .create worker i hmain hlt
    · rw [dif_neg hlt] at h
      exact Option.some.inj h ▸ .created worker i hmain (Nat.not_lt.mp hlt)
  · rename_i worker i hmain
    by_cases hlt : i < cfg.threads
    · rw [dif_pos hlt, Option.ite_none_right_eq_some] at h
      exact Option.some.inj h.2 ▸ .join worker i hmain hlt h.1
    · rw [dif_neg hlt] at h
      exact Option.some.inj h ▸ .print worker i hmain (Nat.not_lt.mp hlt)
  · contradiction

/-! ## The mutex -/

/-- A thread has the mutex in these places. -/
def Pc.holds : Pc → Bool
  | .loading _ | .storing _ _ | .unlocking _ => true
  | _ => false

/-- The mutex is where the threads say. -/
def Owner (s : Sys cfg) : Prop := ∀ t, s.lock = some t ↔ (s.pc t).holds = true

section Owner

variable {t : Fin cfg.threads} {p : Pc}

theorem Owner.other (h : Owner s) (ht : (s.pc t).holds = true) {u : Fin cfg.threads}
    (hne : u ≠ t) : (s.pc u).holds = false := by
  by_contra hu
  have hlock := (h t).mpr ht
  rw [(h u).mpr (by simpa using hu)] at hlock
  exact hne (Option.some.inj hlock)

theorem Owner.free (h : Owner s) (hfree : s.lock = none) (u : Fin cfg.threads) :
    (s.pc u).holds = false := by
  by_contra hu
  have hlock := (h u).mpr (by simpa using hu)
  rw [hfree] at hlock
  contradiction

/-- A move that neither takes the mutex nor gives it back. -/
theorem Owner.keep (h : Owner s) (hlock : s'.lock = s.lock)
    (hpc : s'.pc = Function.update s.pc t p) (hholds : p.holds = (s.pc t).holds) : Owner s' := by
  intro u
  rw [hlock, h u, hpc]
  by_cases hu : u = t
  · rw [hu, Function.update_self, hholds]
  · rw [Function.update_of_ne hu]

/-- A move that takes the mutex or gives it back, while no other thread has it. -/
theorem Owner.pass (hothers : ∀ u, u ≠ t → (s.pc u).holds = false)
    (hlock : s'.lock = if p.holds then some t else none)
    (hpc : s'.pc = Function.update s.pc t p) : Owner s' := by
  intro u
  rw [hlock, hpc]
  by_cases hu : u = t
  · rw [hu, Function.update_self]
    cases p.holds <;> simp
  · rw [Function.update_of_ne hu, hothers u hu]
    cases p.holds <;> simp [Ne.symm hu]

theorem owner_move (h : Owner s) (hm : Move s t s') : Owner s' := by
  cases hm with
  | test worker i hpc hlt =>
      have hholds : (worker.body i).holds = (s.pc t).holds := by
        rw [hpc]
        cases worker <;> rfl
      exact h.keep rfl rfl hholds
  | leave worker i hpc hge => exact h.keep rfl rfl (by rw [hpc]; rfl)
  | add i hpc => exact h.keep rfl rfl (by rw [hpc]; rfl)
  | lock i hpc hfree => exact .pass (fun u _ => h.free hfree u) rfl rfl
  | load i hpc => exact h.keep rfl rfl (by rw [hpc]; rfl)
  | store i loaded hpc => exact h.keep rfl rfl (by rw [hpc]; rfl)
  | unlock i hpc => exact .pass (fun u hu => h.other (by rw [hpc]; rfl) hu) rfl rfl

end Owner

/-! ## The loaded value -/

/-- A thread that is about to store has loaded the counter as it is. -/
def Loaded (s : Sys cfg) : Prop := ∀ t i v, s.pc t = .storing i v → v = s.mutexCounter

theorem Loaded.keep {t : Fin cfg.threads} {p : Pc} (h : Loaded s)
    (hcounter : s'.mutexCounter = s.mutexCounter) (hpc : s'.pc = Function.update s.pc t p)
    (hp : ∀ i v, p = .storing i v → v = s.mutexCounter) : Loaded s' := by
  intro u i v hu
  rw [hpc] at hu
  rw [hcounter]
  by_cases heq : u = t
  · rw [heq, Function.update_self] at hu
    exact hp i v hu
  · rw [Function.update_of_ne heq] at hu
    exact h u i v hu

theorem loaded_move {t : Fin cfg.threads} (howner : Owner s) (h : Loaded s)
    (hm : Move s t s') : Loaded s' := by
  cases hm with
  | test worker i hpc hlt => exact h.keep rfl rfl (by cases worker <;> nofun)
  | leave worker i hpc hge => exact h.keep rfl rfl nofun
  | add i hpc => exact h.keep rfl rfl nofun
  | lock i hpc hfree => exact h.keep rfl rfl nofun
  | load i hpc =>
      exact h.keep rfl rfl (fun j v hv => (Pc.storing.inj hv).2.symm)
  | store i loaded hpc =>
      -- nobody else is between a load and a store
      intro u j v hu
      change Function.update s.pc t (.unlocking i) u = .storing j v at hu
      by_cases heq : u = t
      · rw [heq, Function.update_self] at hu
        contradiction
      · have hholds := howner.other (t := t) (by rw [hpc]; rfl) heq
        rw [Function.update_of_ne heq] at hu
        rw [hu] at hholds
        contradiction
  | unlock i hpc => exact h.keep rfl rfl nofun

/-! ## The counters -/

/-- The loop variable is in its range. -/
def Pc.InLoop (iterations : Nat) : Pc → Prop
  | .testing _ i => i ≤ iterations
  | .adding i | .locking i | .loading i | .storing i _ | .unlocking i => i < iterations
  | _ => True

/-- What a thread has added to the counter of a test. -/
def Pc.adds (iterations : Nat) : Worker → Pc → Nat
  | .atomic, .absent => 0
  | .atomic, .testing .atomic i | .atomic, .adding i => i
  | .atomic, _ => iterations
  | .mutex, .testing .mutex i | .mutex, .locking i | .mutex, .loading i
  | .mutex, .storing i _ => i
  | .mutex, .unlocking i => i + 1
  | .mutex, .returned .mutex => iterations
  | .mutex, _ => 0

theorem adds_le {iterations : Nat} {pc : Pc} (h : pc.InLoop iterations) (worker : Worker) :
    pc.adds iterations worker ≤ iterations := by
  cases worker <;> unfold Pc.adds <;> split <;> simp_all [Pc.InLoop] <;> omega

/-- The additions of all threads. -/
def added (cfg : Config) (pc : Fin cfg.threads → Pc) (worker : Worker) : Nat :=
  ∑ t, (pc t).adds cfg.iterations worker

theorem added_le {pc : Fin cfg.threads → Pc} (h : ∀ t, (pc t).InLoop cfg.iterations)
    (worker : Worker) : added cfg pc worker ≤ cfg.threads * cfg.iterations := by
  have hle := Finset.sum_le_card_nsmul Finset.univ
    (fun t => (pc t).adds cfg.iterations worker) cfg.iterations
    (fun t _ => adds_le (h t) worker)
  rw [Finset.card_univ, Fintype.card_fin, Nat.nsmul_eq_mul] at hle
  exact hle

section Update

variable {pc : Fin cfg.threads → Pc} {t : Fin cfg.threads} {p : Pc} {worker : Worker}

theorem inLoop_update (h : ∀ u, (pc u).InLoop cfg.iterations) (hp : p.InLoop cfg.iterations) :
    ∀ u, (Function.update pc t p u).InLoop cfg.iterations := by
  intro u
  by_cases hu : u = t
  · rw [hu, Function.update_self]
    exact hp
  · rw [Function.update_of_ne hu]
    exact h u

theorem added_update (hp : p.adds cfg.iterations worker = (pc t).adds cfg.iterations worker) :
    added cfg (Function.update pc t p) worker = added cfg pc worker := by
  apply Finset.sum_congr rfl
  intro u _
  by_cases hu : u = t
  · rw [hu, Function.update_self, hp]
  · rw [Function.update_of_ne hu]

theorem added_update_succ
    (hp : p.adds cfg.iterations worker = (pc t).adds cfg.iterations worker + 1) :
    added cfg (Function.update pc t p) worker = added cfg pc worker + 1 := by
  apply sum_succ (i := t)
  · rw [Function.update_self, hp]
  · intro u hu
    rw [Function.update_of_ne hu]

end Update

/-- The counters are what the threads have added. -/
structure Counted (s : Sys cfg) : Prop where
  inLoop : ∀ t, (s.pc t).InLoop cfg.iterations
  counter : ∀ worker, s.counter worker = added cfg s.pc worker

section Counted

variable {t : Fin cfg.threads} {p : Pc} {worker : Worker}

/-- A step that adds nothing. -/
theorem Counted.keep (h : Counted s) (hcounter : s'.counter = s.counter)
    (hpc : s'.pc = Function.update s.pc t p) (hloop : p.InLoop cfg.iterations)
    (hp : ∀ w, p.adds cfg.iterations w = (s.pc t).adds cfg.iterations w) : Counted s' where
  inLoop := hpc ▸ inLoop_update h.inLoop hloop
  counter w := by rw [hcounter, h.counter, hpc, added_update (hp w)]

/-- There is room for one more addition. -/
theorem Counted.isInt (worker : Worker) (h : Counted s) (hloop : p.InLoop cfg.iterations)
    (hp : p.adds cfg.iterations worker = (s.pc t).adds cfg.iterations worker + 1) :
    IsInt (s.counter worker + 1) := by
  have hle := added_le (inLoop_update (t := t) h.inLoop hloop) worker
  rw [added_update_succ hp] at hle
  have hfits := cfg.fits
  rw [h.counter]
  unfold IsInt
  omega

/-- A step that adds one to one of the counters. -/
theorem Counted.add (worker : Worker) (h : Counted s)
    (hcounter : s'.counter worker = s.counter worker + 1)
    (hother : s'.counter worker.other = s.counter worker.other)
    (hpc : s'.pc = Function.update s.pc t p) (hloop : p.InLoop cfg.iterations)
    (hp : p.adds cfg.iterations worker = (s.pc t).adds cfg.iterations worker + 1)
    (hp' : p.adds cfg.iterations worker.other = (s.pc t).adds cfg.iterations worker.other) :
    Counted s' where
  inLoop := hpc ▸ inLoop_update h.inLoop hloop
  counter w := by
    rcases worker.eq_or_eq_other w with rfl | rfl
    · rw [hcounter, h.counter, hpc, added_update_succ hp]
      rfl
    · rw [hother, h.counter, hpc, added_update hp']

theorem counted_move (hloaded : Loaded s) (h : Counted s) (hm : Move s t s') : Counted s' := by
  have hin := h.inLoop t
  cases hm with
  | test worker i hpc hlt =>
      have hloop : (worker.body i).InLoop cfg.iterations := by
        cases worker <;> exact hlt
      exact h.keep rfl rfl hloop
        (fun w => by rw [hpc]; cases worker <;> cases w <;> rfl)
  | leave worker i hpc hge =>
      rw [hpc] at hin
      have heq : i = cfg.iterations := Nat.le_antisymm hin hge
      exact h.keep (p := .returned worker) rfl rfl trivial
        (fun w => by rw [hpc, heq]; cases worker <;> cases w <;> rfl)
  | add i hpc =>
      rw [hpc] at hin
      have hp : (Pc.testing .atomic (i + 1)).adds cfg.iterations .atomic =
          (s.pc t).adds cfg.iterations .atomic + 1 := by
        rw [hpc]
        rfl
      have hcounter : toInt (s.atomicCounter + 1) = s.atomicCounter + 1 :=
        toInt_eq (h.isInt (p := .testing .atomic (i + 1)) .atomic hin hp)
      exact h.add .atomic hcounter rfl rfl hin hp (by rw [hpc]; rfl)
  | lock i hpc hfree =>
      rw [hpc] at hin
      exact h.keep rfl rfl hin (fun w => by rw [hpc]; cases w <;> rfl)
  | load i hpc =>
      rw [hpc] at hin
      exact h.keep rfl rfl hin (fun w => by rw [hpc]; cases w <;> rfl)
  | store i loaded hpc =>
      have hcounter : loaded + 1 = s.mutexCounter + 1 := by rw [hloaded t i loaded hpc]
      rw [hpc] at hin
      exact h.add (p := .unlocking i) .mutex hcounter rfl rfl hin
        (by rw [hpc]; rfl) (by rw [hpc]; rfl)
  | unlock i hpc =>
      rw [hpc] at hin
      exact h.keep rfl rfl hin (fun w => by rw [hpc]; cases w <;> rfl)

end Counted

/-! ## The two tests -/

/-- The function that a thread runs or has run. -/
def Pc.worker : Pc → Option Worker
  | .absent => none
  | .testing worker _ | .returned worker => some worker
  | .adding _ => some .atomic
  | .locking _ | .loading _ | .storing _ _ | .unlocking _ => some .mutex

/-- A thread exists and has not returned. -/
def Pc.running : Pc → Bool
  | .absent | .returned _ => false
  | _ => true

/-- What the threads have done before a test creates them. -/
def Worker.before : Worker → Pc
  | .atomic => .absent
  | .mutex => .returned .atomic

/-- All additions of a test. -/
def Config.total (cfg : Config) : Int := ((cfg.threads * cfg.iterations : Nat) : Int)

/-- What the tests before this one have printed. -/
def Worker.printed (cfg : Config) : Worker → List Int
  | .atomic => []
  | .mutex => [cfg.total]

/-- What `main` relies on in each of its loops. -/
inductive Stage (s : Sys cfg) : Prop
  | creating (worker : Worker) (i : Nat) (hmain : s.main = .creating worker i)
      (hle : i ≤ cfg.threads) (hprinted : s.printed = worker.printed cfg)
      (hnew : ∀ t : Fin cfg.threads, t.val < i → (s.pc t).worker = some worker)
      (hold : ∀ t : Fin cfg.threads, i ≤ t.val → s.pc t = worker.before)
  | joining (worker : Worker) (i : Nat) (hmain : s.main = .joining worker i)
      (hle : i ≤ cfg.threads) (hprinted : s.printed = worker.printed cfg)
      (hworker : ∀ t, (s.pc t).worker = some worker)
      (hjoined : ∀ t : Fin cfg.threads, t.val < i → s.pc t = .returned worker)
  | returned (hmain : s.main = .returned) (hprinted : s.printed = [cfg.total, cfg.total])
      (hreturned : ∀ t, s.pc t = .returned .mutex)

/-- What all moves of a thread have in common. -/
theorem Move.frame {t : Fin cfg.threads} (hm : Move s t s') :
    s'.main = s.main ∧ s'.printed = s.printed ∧ (s.pc t).running = true ∧
      ∃ p, s'.pc = Function.update s.pc t p ∧ p.worker = (s.pc t).worker := by
  cases hm with
  | test worker i hpc hlt =>
      refine ⟨rfl, rfl, by rw [hpc]; rfl, worker.body i, rfl, ?_⟩
      rw [hpc]
      cases worker <;> rfl
  | leave worker i hpc hge => exact ⟨rfl, rfl, by rw [hpc]; rfl, _, rfl, by rw [hpc]; rfl⟩
  | add i hpc => exact ⟨rfl, rfl, by rw [hpc]; rfl, _, rfl, by rw [hpc]; rfl⟩
  | lock i hpc hfree => exact ⟨rfl, rfl, by rw [hpc]; rfl, _, rfl, by rw [hpc]; rfl⟩
  | load i hpc => exact ⟨rfl, rfl, by rw [hpc]; rfl, _, rfl, by rw [hpc]; rfl⟩
  | store i loaded hpc => exact ⟨rfl, rfl, by rw [hpc]; rfl, _, rfl, by rw [hpc]; rfl⟩
  | unlock i hpc => exact ⟨rfl, rfl, by rw [hpc]; rfl, _, rfl, by rw [hpc]; rfl⟩

theorem worker_update {pc : Fin cfg.threads → Pc} {t u : Fin cfg.threads} {p : Pc}
    (hp : p.worker = (pc t).worker) : (Function.update pc t p u).worker = (pc u).worker := by
  by_cases hu : u = t
  · rw [hu, Function.update_self, hp]
  · rw [Function.update_of_ne hu]

/-- A thread that is not running stays as it is. -/
theorem update_eq_of_running {pc : Fin cfg.threads → Pc} {t u : Fin cfg.threads} {p q : Pc}
    (ht : (pc t).running = true) (hq : q.running = false) (hu : pc u = q) :
    Function.update pc t p u = q := by
  have hne : u ≠ t := by
    intro heq
    rw [← heq, hu, hq] at ht
    contradiction
  rw [Function.update_of_ne hne, hu]

theorem before_running (worker : Worker) : worker.before.running = false := by
  cases worker <;> rfl

theorem Stage.move {t : Fin cfg.threads} (h : Stage s) (hm : Move s t s') : Stage s' := by
  have ⟨hmain', hprinted', hrunning, p, hpc, hp⟩ := hm.frame
  cases h with
  | creating worker i hmain hle hprinted hnew hold =>
      apply Stage.creating worker i (hmain'.trans hmain) hle (hprinted'.trans hprinted)
      · intro u hu
        rw [hpc, worker_update hp]
        exact hnew u hu
      · intro u hu
        rw [hpc]
        exact update_eq_of_running hrunning (before_running worker) (hold u hu)
  | joining worker i hmain hle hprinted hworker hjoined =>
      apply Stage.joining worker i (hmain'.trans hmain) hle (hprinted'.trans hprinted)
      · intro u
        rw [hpc, worker_update hp]
        exact hworker u
      · intro u hu
        rw [hpc]
        exact update_eq_of_running hrunning rfl (hjoined u hu)
  | returned hmain hprinted hreturned =>
      apply Stage.returned (hmain'.trans hmain) (hprinted'.trans hprinted)
      intro u
      rw [hpc]
      exact update_eq_of_running hrunning rfl (hreturned u)

theorem Stage.of_creating (h : Stage s) {worker : Worker} {i : Nat}
    (hmain : s.main = .creating worker i) : i ≤ cfg.threads ∧ s.printed = worker.printed cfg ∧
      (∀ t : Fin cfg.threads, t.val < i → (s.pc t).worker = some worker) ∧
      (∀ t : Fin cfg.threads, i ≤ t.val → s.pc t = worker.before) := by
  cases h with
  | creating worker' i' hmain' hle hprinted hnew hold =>
      have heq := MainPc.creating.inj (hmain'.symm.trans hmain)
      obtain ⟨rfl, rfl⟩ := heq
      exact ⟨hle, hprinted, hnew, hold⟩
  | joining worker' i' hmain' => exact absurd (hmain'.symm.trans hmain) nofun
  | returned hmain' => exact absurd (hmain'.symm.trans hmain) nofun

theorem Stage.of_joining (h : Stage s) {worker : Worker} {i : Nat}
    (hmain : s.main = .joining worker i) : i ≤ cfg.threads ∧ s.printed = worker.printed cfg ∧
      (∀ t, (s.pc t).worker = some worker) ∧
      (∀ t : Fin cfg.threads, t.val < i → s.pc t = .returned worker) := by
  cases h with
  | creating worker' i' hmain' => exact absurd (hmain'.symm.trans hmain) nofun
  | joining worker' i' hmain' hle hprinted hworker hjoined =>
      have heq := MainPc.joining.inj (hmain'.symm.trans hmain)
      obtain ⟨rfl, rfl⟩ := heq
      exact ⟨hle, hprinted, hworker, hjoined⟩
  | returned hmain' => exact absurd (hmain'.symm.trans hmain) nofun

theorem returned_of_worker {pc : Pc} {worker : Worker} (hworker : pc.worker = some worker)
    (h : pc.hasReturned = true) : pc = .returned worker := by
  cases pc with
  | returned w => exact congrArg _ (Option.some.inj hworker)
  | _ => contradiction

/-! ## The invariant -/

structure Inv (s : Sys cfg) : Prop where
  owner : Owner s
  loaded : Loaded s
  counted : Counted s
  stage : Stage s

theorem inv_init (cfg : Config) : Inv (Sys.init cfg) where
  owner t := by simp [Sys.init, Pc.holds]
  loaded t i v hpc := by simp [Sys.init] at hpc
  counted :=
    { inLoop := fun _ => trivial
      counter := fun worker => by
        cases worker <;> simp [Sys.init, Sys.counter, added, Pc.adds] }
  stage := .creating .atomic 0 rfl (Nat.zero_le _) rfl (fun _ ht => absurd ht (Nat.not_lt_zero _))
    (fun _ _ => rfl)

theorem Inv.move {t : Fin cfg.threads} (h : Inv s) (hm : Move s t s') : Inv s' where
  owner := owner_move h.owner hm
  loaded := loaded_move h.owner h.loaded hm
  counted := counted_move h.loaded h.counted hm
  stage := h.stage.move hm

/-- When all threads of a test have returned, its counter is the number of additions. -/
theorem Counted.counter_eq (h : Counted s) {worker : Worker}
    (hreturned : ∀ t, s.pc t = .returned worker) : s.counter worker = cfg.total := by
  have hadds : ∀ t, (s.pc t).adds cfg.iterations worker = cfg.iterations := by
    intro t
    rw [hreturned t]
    cases worker <;> rfl
  rw [h.counter, Config.total, added]
  simp [hadds]

/-- A new thread has the place of one that has not run or has returned. -/
theorem before_adds (iterations : Nat) (worker w : Worker) :
    (Pc.testing worker 0).adds iterations w = worker.before.adds iterations w := by
  cases worker <;> cases w <;> rfl

theorem before_holds (worker : Worker) : worker.before.holds = false := by
  cases worker <;> rfl

theorem Inv.create (h : Inv s) {worker : Worker} {i : Nat} (hmain : s.main = .creating worker i)
    (hlt : i < cfg.threads) :
    Inv { s.goto ⟨i, hlt⟩ (.testing worker 0) with main := .creating worker (i + 1) } := by
  have ⟨hle, hprinted, hnew, hold⟩ := h.stage.of_creating hmain
  have hpc := hold ⟨i, hlt⟩ (Nat.le_refl i)
  have hstage : Stage
      { s.goto ⟨i, hlt⟩ (.testing worker 0) with main := .creating worker (i + 1) } := by
    refine .creating worker (i + 1) rfl hlt hprinted (fun t ht => ?_) (fun t ht => ?_)
    · change (Function.update s.pc ⟨i, hlt⟩ (.testing worker 0) t).worker = some worker
      by_cases heq : t = ⟨i, hlt⟩
      · rw [heq, Function.update_self]
        rfl
      · have hne : t.val ≠ i := fun h => heq (Fin.ext h)
        rw [Function.update_of_ne heq]
        exact hnew t (by omega)
    · have hne : t ≠ ⟨i, hlt⟩ := fun h => by
        rw [h] at ht
        exact absurd ht (Nat.not_succ_le_self i)
      change Function.update s.pc ⟨i, hlt⟩ (.testing worker 0) t = worker.before
      rw [Function.update_of_ne hne]
      exact hold t (by omega)
  exact
    { owner := h.owner.keep rfl rfl (by rw [hpc, before_holds]; rfl)
      loaded := h.loaded.keep rfl rfl nofun
      counted := h.counted.keep rfl rfl (Nat.zero_le _) (fun w => by rw [hpc, before_adds])
      stage := hstage }

/-- `main` changes nothing but its own place and what it has printed. -/
theorem Inv.setMain (h : Inv s) {main : MainPc} {printed : List Int}
    (hstage : Stage { s with main := main, printed := printed }) :
    Inv { s with main := main, printed := printed } where
  owner := h.owner
  loaded := h.loaded
  counted :=
    { inLoop := h.counted.inLoop
      counter := h.counted.counter }
  stage := hstage

theorem Inv.print (h : Inv s) {worker : Worker} {i : Nat} (hmain : s.main = .joining worker i)
    (hge : cfg.threads ≤ i) :
    Stage { s with printed := s.printed ++ [s.counter worker], main := worker.next } := by
  have ⟨hle, hprinted, hworker, hjoined⟩ := h.stage.of_joining hmain
  have hreturned : ∀ t, s.pc t = .returned worker := fun t => hjoined t (by omega)
  have hcounter := h.counted.counter_eq hreturned
  cases worker with
  | atomic =>
      refine .creating .mutex 0 rfl (Nat.zero_le _) ?_ (fun t ht => absurd ht (Nat.not_lt_zero _))
        (fun t _ => hreturned t)
      rw [hprinted, hcounter]
      rfl
  | mutex =>
      refine .returned rfl ?_ hreturned
      rw [hprinted, hcounter]
      rfl

theorem Inv.mainMove (h : Inv s) (hm : MainMove s s') : Inv s' := by
  cases hm with
  | create worker i hmain hlt => exact h.create hmain hlt
  | created worker i hmain hge =>
      have ⟨hle, hprinted, hnew, hold⟩ := h.stage.of_creating hmain
      exact h.setMain (.joining worker 0 rfl (Nat.zero_le _) hprinted
        (fun t => hnew t (by omega)) (fun t ht => absurd ht (Nat.not_lt_zero _)))
  | join worker i hmain hlt hpc =>
      have ⟨hle, hprinted, hworker, hjoined⟩ := h.stage.of_joining hmain
      refine h.setMain (.joining worker (i + 1) rfl hlt hprinted hworker (fun t ht => ?_))
      by_cases heq : t.val = i
      · have hthread : t = ⟨i, hlt⟩ := Fin.ext heq
        rw [hthread]
        exact returned_of_worker (hworker _) hpc
      · exact hjoined t (by omega)
  | print worker i hmain hge => exact h.setMain (h.print hmain hge)

theorem inv_step {a : Act cfg} (h : Inv s) (hs : step cfg s a = some s') : Inv s' := by
  cases a with
  | main => exact h.mainMove (move_of_mainStep hs)
  | thread t => exact h.move (move_of_threadStep hs)

theorem inv_run {as : List (Act cfg)} (hrun : run (step cfg) (Sys.init cfg) as = some s) :
    Inv s :=
  (Reach.of_run hrun).keeps (inv_init cfg) (fun _ _ _ h _ => inv_step h)

/-! ## Nobody waits for ever -/

/-- A thread that has not returned can go on, unless another one has the mutex. -/
theorem Inv.thread_step (h : Inv s) {t : Fin cfg.threads} (hrunning : (s.pc t).running = true)
    (hfree : (∃ i, s.pc t = .locking i) → s.lock = none) : (threadStep s t).isSome := by
  unfold threadStep
  split
  · rename_i hpc
    rw [hpc] at hrunning
    contradiction
  · split <;> rfl
  · rfl
  · rename_i i hpc
    rw [if_pos (hfree ⟨i, hpc⟩)]
    rfl
  · rfl
  · rename_i i loaded hpc
    have hin := h.counted.inLoop t
    rw [hpc] at hin
    have hint : IsInt (s.mutexCounter + 1) :=
      h.counted.isInt (t := t) (p := .unlocking i) .mutex hin (by rw [hpc]; rfl)
    rw [h.loaded t i loaded hpc, int_eq_some hint]
    rfl
  · rfl
  · rename_i worker hpc
    rw [hpc] at hrunning
    contradiction

/-- Some thread can go on if one of them has not returned. -/
theorem Inv.exists_thread_step (h : Inv s) {t : Fin cfg.threads}
    (hrunning : (s.pc t).running = true) : ∃ u, (threadStep s u).isSome := by
  cases hlock : s.lock with
  | none => exact ⟨t, h.thread_step hrunning (fun _ => hlock)⟩
  | some u =>
      -- the owner of the mutex is not waiting for it
      have hholds := (h.owner u).mp hlock
      refine ⟨u, h.thread_step ?_ ?_⟩
      · cases hpc : s.pc u <;> simp_all [Pc.holds, Pc.running]
      · intro ⟨i, hpc⟩
        rw [hpc] at hholds
        contradiction

theorem Inv.exists_step (h : Inv s) (hmain : s.main ≠ .returned) :
    ∃ a, (step cfg s a).isSome := by
  cases h.stage with
  | creating worker i hcreating =>
      refine ⟨.main, ?_⟩
      simp only [step, mainStep, hcreating]
      split <;> rfl
  | joining worker i hjoining hle hprinted hworker hjoined =>
      by_cases hwait : ∃ hlt : i < cfg.threads, (s.pc ⟨i, hlt⟩).hasReturned = false
      · have ⟨hlt, hpc⟩ := hwait
        have hrunning : (s.pc ⟨i, hlt⟩).running = true := by
          have hsome := hworker ⟨i, hlt⟩
          cases heq : s.pc ⟨i, hlt⟩ <;> simp_all [Pc.hasReturned, Pc.running, Pc.worker]
        have ⟨u, hu⟩ := h.exists_thread_step hrunning
        exact ⟨.thread u, hu⟩
      · refine ⟨.main, ?_⟩
        simp only [step, mainStep, hjoining]
        by_cases hlt : i < cfg.threads
        · have hpc : (s.pc ⟨i, hlt⟩).hasReturned = true := by
            by_contra hnot
            exact hwait ⟨hlt, by simpa using hnot⟩
          rw [dif_pos hlt, if_pos hpc]
          rfl
        · rw [dif_neg hlt]
          rfl
  | returned hreturned => exact absurd hreturned hmain

/-! ## How long the tests take -/

/-- The steps that a thread has left. -/
def Pc.left (iterations : Nat) : Pc → Nat
  | .absent => 0
  | .testing .atomic i => 2 * (iterations - i) + 1
  | .adding i => 2 * (iterations - (i + 1)) + 2
  | .testing .mutex i => 5 * (iterations - i) + 1
  | .locking i => 5 * (iterations - (i + 1)) + 5
  | .loading i => 5 * (iterations - (i + 1)) + 4
  | .storing i _ => 5 * (iterations - (i + 1)) + 3
  | .unlocking i => 5 * (iterations - (i + 1)) + 2
  | .returned _ => 0

/-- The steps of a thread from its creation. -/
def Worker.steps (iterations : Nat) (worker : Worker) : Nat :=
  (Pc.testing worker 0).left iterations

/-- The steps that `main` has left, those of the threads it creates included. -/
def MainPc.left (cfg : Config) : MainPc → Nat
  | .creating .atomic i =>
      (cfg.threads - i) * (Worker.atomic.steps cfg.iterations + 1) + cfg.threads + 2 +
        (cfg.threads * (Worker.mutex.steps cfg.iterations + 1) + cfg.threads + 2)
  | .joining .atomic i =>
      (cfg.threads - i) + 1 +
        (cfg.threads * (Worker.mutex.steps cfg.iterations + 1) + cfg.threads + 2)
  | .creating .mutex i =>
      (cfg.threads - i) * (Worker.mutex.steps cfg.iterations + 1) + cfg.threads + 2
  | .joining .mutex i => (cfg.threads - i) + 1
  | .returned => 0

def Sys.left (s : Sys cfg) : Nat :=
  s.main.left cfg + ∑ t, (s.pc t).left cfg.iterations

/-- A move takes a step off what its thread has left. -/
theorem Move.left {t : Fin cfg.threads} (hm : Move s t s') : s'.main = s.main ∧
    ∃ p, s'.pc = Function.update s.pc t p ∧
      p.left cfg.iterations < (s.pc t).left cfg.iterations := by
  cases hm with
  | test worker i hpc hlt =>
      refine ⟨rfl, worker.body i, rfl, ?_⟩
      rw [hpc]
      cases worker <;> simp only [Worker.body, Pc.left] <;> omega
  | leave worker i hpc hge =>
      refine ⟨rfl, _, rfl, ?_⟩
      rw [hpc]
      cases worker <;> simp only [Pc.left] <;> omega
  | add i hpc => exact ⟨rfl, _, rfl, by rw [hpc]; simp only [Pc.left]; omega⟩
  | lock i hpc hfree => exact ⟨rfl, _, rfl, by rw [hpc]; simp only [Pc.left]; omega⟩
  | load i hpc => exact ⟨rfl, _, rfl, by rw [hpc]; simp only [Pc.left]; omega⟩
  | store i loaded hpc => exact ⟨rfl, _, rfl, by rw [hpc]; simp only [Pc.left]; omega⟩
  | unlock i hpc => exact ⟨rfl, _, rfl, by rw [hpc]; simp only [Pc.left]; omega⟩

theorem left_mainMove (hm : MainMove s s') : s'.left < s.left := by
  cases hm with
  | create worker i hmain hlt =>
      have hsum := sum_update_add (Pc.left cfg.iterations) s.pc ⟨i, hlt⟩ (.testing worker 0)
      have hsteps : worker.steps cfg.iterations = (Pc.testing worker 0).left cfg.iterations := rfl
      have hrounds := rounds_succ (c := worker.steps cfg.iterations + 1) hlt
      cases worker <;> simp only [Sys.left, Sys.goto, hmain, MainPc.left] <;> omega
  | created worker i hmain hge =>
      cases worker <;> simp only [Sys.left, hmain, MainPc.left] <;> omega
  | join worker i hmain hlt hpc =>
      cases worker <;> simp only [Sys.left, hmain, MainPc.left] <;> omega
  | print worker i hmain hge =>
      cases worker <;> simp only [Sys.left, hmain, MainPc.left, Worker.next, Nat.sub_zero] <;> omega

theorem left_step {a : Act cfg} (hs : step cfg s a = some s') : s'.left < s.left := by
  cases a with
  | main => exact left_mainMove (move_of_mainStep hs)
  | thread t =>
      have ⟨hmain, p, hpc, hlt⟩ := (move_of_threadStep hs).left
      have hsum := sum_update_add (Pc.left cfg.iterations) s.pc t p
      rw [Sys.left, hmain, hpc, Sys.left]
      omega

theorem left_init (cfg : Config) :
    (Sys.init cfg).left = cfg.threads * (7 * cfg.iterations + 6) + 4 := by
  simp [Sys.left, Sys.init, MainPc.left, Worker.steps, Pc.left]
  ring

/-! ## The program -/

/-- **Both counters are exact.**  However the threads interleave, the tests take at most
`left_init` steps, no two threads are between the lock and the unlock, the program can go on
until `main` returns, and then it has printed the number of additions twice. -/
theorem counters_exact (as : List (Act cfg)) (hrun : run (step cfg) (Sys.init cfg) as = some s) :
    as.length ≤ cfg.threads * (7 * cfg.iterations + 6) + 4 ∧
    (∀ t u, (s.pc t).holds = true → (s.pc u).holds = true → t = u) ∧
    (s.main ≠ .returned → ∃ a, (step cfg s a).isSome) ∧
    (s.main = .returned → s.lock = none ∧
      s.printed = [((cfg.threads * cfg.iterations : Nat) : Int),
        ((cfg.threads * cfg.iterations : Nat) : Int)]) := by
  have h := inv_run hrun
  refine ⟨?_, ?_, h.exists_step, ?_⟩
  · have hlength := length_add_le (fun s a s' => left_step (s := s) (a := a)) hrun
    rw [left_init] at hlength
    omega
  · intro t u ht hu
    by_contra hne
    rw [h.owner.other hu hne] at ht
    contradiction
  · intro hmain
    cases h.stage with
    | creating worker i hcreating => exact absurd (hmain.symm.trans hcreating) nofun
    | joining worker i hjoining => exact absurd (hmain.symm.trans hjoining) nofun
    | returned _ hprinted hreturned =>
        have hfree : s.lock = none := by
          by_contra hlock
          have ⟨t, ht⟩ := Option.ne_none_iff_exists'.mp hlock
          have hholds := (h.owner t).mp ht
          rw [hreturned t] at hholds
          contradiction
        exact ⟨hfree, hprinted⟩

/-- Two threads that add once. -/
def twoThreads : Config :=
  { threads := 2
    iterations := 1
    threadsFit := by decide
    iterationsFit := by decide
    fits := by decide }

def first : Act twoThreads := .thread ⟨0, by decide⟩

def second : Act twoThreads := .thread ⟨1, by decide⟩

/-- The threads take turns; the second one comes to the mutex while the first has it. -/
def turns : List (Act twoThreads) :=
  [.main, .main, .main, first, second, second, first, first, second, .main, .main, .main,
    .main, .main, .main, first, first, second, first, first, first, second, first, second,
    second, second, second, .main, .main, .main]

theorem counters_exact_turns :
    ∃ s, run (step twoThreads) (Sys.init twoThreads) turns = some s ∧ s.printed = [2, 2] :=
  ⟨_, rfl, ((counters_exact turns rfl).2.2.2 rfl).2⟩

end SystemsInC.Ports.AtomicMutex
