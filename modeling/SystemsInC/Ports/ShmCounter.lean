import SystemsInC.Verified.GuardedRuns
import SystemsInC.Verified.MachineInt
import Mathlib.Data.Fintype.BigOperators
import Mathlib.Tactic.Ring

/-!
# Counters in shared memory

`shm-counter.c` forks workers that count without a lock, each in its own cell of a shared
segment, waits for as many children as it has forked, and prints the cells and their sum.  A
`fork` that fails ends the parent but not the workers that exist.

The parent and the workers take one step for each access to the segment and each system call.
The place of a worker in its loop says what is in its cell, `CellOk`; `wait(NULL)` may reap the
workers in any order, so what counts is how many have been reaped.
-/

namespace SystemsInC.Ports.ShmCounter

open SystemsInC.Verified.GuardedRuns
open SystemsInC.Verified.MachineInt

/-! ## The program -/

/-- `WORKERS` and `ITERATIONS`, both of them and the total numbers that an `int` can hold. -/
structure Config where
  workers : Nat
  iterations : Nat
  workersFit : workers ≤ 2147483647
  iterationsFit : iterations ≤ 2147483647
  fits : workers * iterations ≤ 2147483647

inductive Child
  /-- not forked yet -/
  | absent
  /-- the test `j < ITERATIONS` and the load of the cell, or else `shmdt` and `exit(0)` -/
  | counting (j : Nat)
  /-- the store, with the loaded value -/
  | storing (j : Nat) (loaded : Int)
  | exited
  | reaped
  deriving DecidableEq

/-- What the parent does next: its four loops, with their `i`. -/
inductive MainPc
  | zeroing (i : Nat)
  | forking (i : Nat)
  | waiting (i : Nat)
  | printing (i : Nat) (total : Int)
  | returned
  /-- `exit(1)` after a failed `fork` -/
  | failed
  deriving DecidableEq

structure Sys (cfg : Config) where
  main : MainPc
  child : Fin cfg.workers → Child
  counters : Fin cfg.workers → Int
  /-- the counters of the lines that have been printed -/
  lines : List Int
  /-- the last line -/
  printedTotal : Option Int

/-- The segment has been attached; `counters` is what it holds then. -/
def Sys.init (cfg : Config) (counters : Fin cfg.workers → Int) : Sys cfg :=
  { main := .zeroing 0
    child := fun _ => .absent
    counters := counters
    lines := []
    printedTotal := none }

variable {cfg : Config} {s s' : Sys cfg}

def Sys.goto (s : Sys cfg) (c : Fin cfg.workers) (child : Child) : Sys cfg :=
  { s with child := Function.update s.child c child }

def Sys.store (s : Sys cfg) (c : Fin cfg.workers) (value : Int) : Sys cfg :=
  { s with counters := Function.update s.counters c value }

/-- A `wait` has nobody to wait for. -/
def Child.gone : Child → Bool
  | .absent | .reaped => true
  | _ => false

inductive Act (cfg : Config)
  | main
  | forkFails
  /-- `wait(NULL)` returns this child -/
  | wait (c : Fin cfg.workers)
  | child (c : Fin cfg.workers)

def childStep (s : Sys cfg) (c : Fin cfg.workers) : Option (Sys cfg) :=
  match s.child c with
  | .counting j =>
      if j < cfg.iterations then
        some (s.goto c (.storing j (s.counters c)))
      else
        some (s.goto c .exited)
  | .storing j loaded =>
      (int (loaded + 1)).map fun sum => (s.goto c (.counting (j + 1))).store c sum
  | .absent | .exited | .reaped => none

def mainStep (s : Sys cfg) : Option (Sys cfg) :=
  match s.main with
  | .zeroing i =>
      if h : i < cfg.workers then
        some { s.store ⟨i, h⟩ 0 with main := .zeroing (i + 1) }
      else
        some { s with main := .forking 0 }
  | .forking i =>
      if h : i < cfg.workers then
        some { s.goto ⟨i, h⟩ (.counting 0) with main := .forking (i + 1) }
      else
        some { s with main := .waiting 0 }
  | .waiting i =>
      if i < cfg.workers then
        -- without children `wait` fails at once
        if ∀ c, (s.child c).gone then some { s with main := .waiting (i + 1) } else none
      else
        some { s with main := .printing 0 0 }
  | .printing i total =>
      if h : i < cfg.workers then
        (int (total + s.counters ⟨i, h⟩)).map fun sum =>
          { s with main := .printing (i + 1) sum, lines := s.lines ++ [s.counters ⟨i, h⟩] }
      else
        some { s with main := .returned, printedTotal := some total }
  | .returned | .failed => none

def step (cfg : Config) (s : Sys cfg) : Act cfg → Option (Sys cfg)
  | .main => mainStep s
  | .forkFails =>
      match s.main with
      | .forking i => if i < cfg.workers then some { s with main := .failed } else none
      | _ => none
  | .wait c =>
      match s.main with
      | .waiting i =>
          if i < cfg.workers ∧ s.child c = .exited then
            some { s.goto c .reaped with main := .waiting (i + 1) }
          else
            none
      | _ => none
  | .child c => childStep s c

/-! ## The cells -/

/-- What is in the cell of a worker, by its place in the loop. -/
def CellOk (iterations : Nat) : Child → Int → Prop
  | .absent, v => v = 0
  | .counting j, v => j ≤ iterations ∧ v = j
  | .storing j loaded, v => j < iterations ∧ loaded = j ∧ v = j
  | .exited, v | .reaped, v => v = iterations

def Cells (s : Sys cfg) : Prop := ∀ c, CellOk cfg.iterations (s.child c) (s.counters c)

/-- A worker exists and has not exited. -/
def Child.running : Child → Bool
  | .counting _ | .storing _ _ => true
  | _ => false

/-- The steps of the workers. -/
inductive Move (s : Sys cfg) (c : Fin cfg.workers) : Sys cfg → Prop
  | load (j : Nat) (hpc : s.child c = .counting j) (hlt : j < cfg.iterations) :
      Move s c (s.goto c (.storing j (s.counters c)))
  | leave (j : Nat) (hpc : s.child c = .counting j) (hge : cfg.iterations ≤ j) :
      Move s c (s.goto c .exited)
  | store (j : Nat) (loaded : Int) (hpc : s.child c = .storing j loaded) :
      Move s c ((s.goto c (.counting (j + 1))).store c (loaded + 1))

theorem move_of_childStep {c : Fin cfg.workers} (h : childStep s c = some s') : Move s c s' := by
  unfold childStep at h
  split at h
  · rename_i j hpc
    by_cases hlt : j < cfg.iterations
    · rw [if_pos hlt] at h
      exact Option.some.inj h ▸ .load j hpc hlt
    · rw [if_neg hlt] at h
      exact Option.some.inj h ▸ .leave j hpc (Nat.not_lt.mp hlt)
  · rename_i j loaded hpc
    unfold int at h
    split at h
    · exact Option.some.inj h ▸ .store j loaded hpc
    · contradiction
  · contradiction
  · contradiction
  · contradiction

/-- What the moves of a worker have in common: they leave the other workers alone. -/
theorem Move.frame {c : Fin cfg.workers} (hm : Move s c s') :
    s'.main = s.main ∧ s'.lines = s.lines ∧ s'.printedTotal = s.printedTotal ∧
      (s.child c).running = true ∧
      ∃ p v, s'.child = Function.update s.child c p ∧
        s'.counters = Function.update s.counters c v ∧ (p.running = true ∨ p = .exited) := by
  cases hm with
  | load j hpc hlt =>
      exact ⟨rfl, rfl, rfl, by rw [hpc]; rfl, .storing j (s.counters c), s.counters c, rfl,
        (Function.update_eq_self c s.counters).symm, .inl rfl⟩
  | leave j hpc hge =>
      exact ⟨rfl, rfl, rfl, by rw [hpc]; rfl, .exited, s.counters c, rfl,
        (Function.update_eq_self c s.counters).symm, .inr rfl⟩
  | store j loaded hpc =>
      exact ⟨rfl, rfl, rfl, by rw [hpc]; rfl, .counting (j + 1), loaded + 1, rfl, rfl, .inl rfl⟩

/-- The cells stay right when one worker and its cell do. -/
theorem Cells.update {c : Fin cfg.workers} {p : Child} {v : Int} (h : Cells s)
    (hchild : s'.child = Function.update s.child c p)
    (hcounters : s'.counters = Function.update s.counters c v)
    (hp : CellOk cfg.iterations p v) : Cells s' := by
  intro u
  rw [hchild, hcounters]
  by_cases hu : u = c
  · rw [hu, Function.update_self, Function.update_self]
    exact hp
  · rw [Function.update_of_ne hu, Function.update_of_ne hu]
    exact h u

theorem Cells.move {c : Fin cfg.workers} (h : Cells s) (hm : Move s c s') : Cells s' := by
  have hcell := h c
  have hsame := (Function.update_eq_self c s.counters).symm
  cases hm with
  | load j hpc hlt =>
      rw [hpc] at hcell
      exact h.update (p := .storing j (s.counters c)) rfl hsame ⟨hlt, hcell.2, hcell.2⟩
  | leave j hpc hge =>
      rw [hpc] at hcell
      have heq : j = cfg.iterations := Nat.le_antisymm hcell.1 hge
      have hvalue : s.counters c = (cfg.iterations : Int) := heq ▸ hcell.2
      exact h.update (p := .exited) rfl hsame hvalue
  | store j loaded hpc =>
      rw [hpc] at hcell
      have ⟨hlt, hloaded, _⟩ := hcell
      have hvalue : loaded + 1 = ((j + 1 : Nat) : Int) := by
        rw [hloaded]
        rfl
      exact h.update (p := .counting (j + 1)) rfl rfl ⟨hlt, hvalue⟩

/-! ## The loops of the parent -/

def Child.reapedNat : Child → Nat
  | .reaped => 1
  | _ => 0

/-- How many workers have been reaped. -/
def reaped (child : Fin cfg.workers → Child) : Nat := ∑ c, (child c).reapedNat

theorem reaped_update {child : Fin cfg.workers → Child} {c : Fin cfg.workers} {p : Child}
    (hp : p.reapedNat = (child c).reapedNat) :
    reaped (Function.update child c p) = reaped child := by
  have hsum := sum_update_add Child.reapedNat child c p
  rw [hp] at hsum
  exact Nat.add_right_cancel hsum

theorem reapedNat_le (p : Child) : p.reapedNat ≤ 1 := by
  cases p <;> simp [Child.reapedNat]

/-- All workers are reaped when as many are as there are. -/
theorem all_reaped {child : Fin cfg.workers → Child} (h : reaped child = cfg.workers)
    (c : Fin cfg.workers) : child c = .reaped := by
  have hone : (child c).reapedNat = 1 :=
    eq_of_sum_eq (g := fun _ => 1) (fun j => reapedNat_le (child j)) (h.trans (by simp)) c
  cases hc : child c with
  | reaped => rfl
  | _ =>
      rw [hc] at hone
      contradiction

/-- Otherwise there is one that is not. -/
theorem exists_not_reaped {child : Fin cfg.workers → Child} (h : reaped child < cfg.workers) :
    ∃ c, child c ≠ .reaped := by
  by_contra hnot
  have hall : ∀ c, (child c).reapedNat = 1 := by
    intro c
    have hc : child c = .reaped := not_not.mp (fun hne => hnot ⟨c, hne⟩)
    rw [hc]
    rfl
  have hsum : reaped child = cfg.workers := by simp [reaped, hall]
  omega

/-- A worker has been forked and not reaped. -/
def Child.alive : Child → Bool
  | .absent | .reaped => false
  | _ => true

/-- What holds in each of the loops. -/
inductive Stage (s : Sys cfg) : Prop
  | zeroing (i : Nat) (hmain : s.main = .zeroing i) (hlines : s.lines = [])
      (htotal : s.printedTotal = none) (habsent : ∀ c, s.child c = .absent)
      (hzero : ∀ c : Fin cfg.workers, c.val < i → s.counters c = 0)
  | forking (i : Nat) (hmain : s.main = .forking i) (hlines : s.lines = [])
      (htotal : s.printedTotal = none) (hcells : Cells s)
      (hnew : ∀ c : Fin cfg.workers, c.val < i → (s.child c).alive = true)
      (hold : ∀ c : Fin cfg.workers, i ≤ c.val → s.child c = .absent)
  | waiting (i : Nat) (hmain : s.main = .waiting i) (hlines : s.lines = [])
      (htotal : s.printedTotal = none) (hcells : Cells s) (hle : i ≤ cfg.workers)
      (hforked : ∀ c, s.child c ≠ .absent) (hreaped : reaped s.child = i)
  | printing (i : Nat) (total : Int) (hmain : s.main = .printing i total)
      (hlines : s.lines = List.replicate i (cfg.iterations : Int))
      (htotal : s.printedTotal = none) (hcells : Cells s) (hle : i ≤ cfg.workers)
      (hsum : total = ((i * cfg.iterations : Nat) : Int)) (hreaped : ∀ c, s.child c = .reaped)
  | returned (hmain : s.main = .returned)
      (hlines : s.lines = List.replicate cfg.workers (cfg.iterations : Int))
      (htotal : s.printedTotal = some ((cfg.workers * cfg.iterations : Nat) : Int))
      (hcells : Cells s) (hreaped : ∀ c, s.child c = .reaped)
  | failed (hmain : s.main = .failed) (hlines : s.lines = []) (htotal : s.printedTotal = none)
      (hcells : Cells s)

theorem stage_init (cfg : Config) (counters : Fin cfg.workers → Int) :
    Stage (Sys.init cfg counters) :=
  .zeroing 0 rfl rfl rfl (fun _ => rfl) (fun _ hc => absurd hc (Nat.not_lt_zero _))

/-- A worker that moves was forked and is not reaped, before and after. -/
theorem alive_of_running {p : Child} (h : p.running = true ∨ p = .exited) :
    p.alive = true ∧ p ≠ .absent ∧ p.reapedNat = 0 := by
  cases p <;> simp_all [Child.running, Child.alive, Child.reapedNat]

theorem Stage.move {c : Fin cfg.workers} (h : Stage s) (hm : Move s c s') : Stage s' := by
  have ⟨hmain', hlines', htotal', hrunning, p, v, hchild, hcounters, hp⟩ := hm.frame
  have ⟨_, hforked, hnone⟩ := alive_of_running (.inl hrunning)
  have ⟨halive', hforked', hnone'⟩ := alive_of_running hp
  cases h with
  | zeroing i hmain hlines htotal habsent hzero => exact absurd (habsent c) hforked
  | forking i hmain hlines htotal hcells hnew hold =>
      refine .forking i (hmain'.trans hmain) (hlines'.trans hlines) (htotal'.trans htotal)
        (hcells.move hm) (fun u hu => ?_) (fun u hu => ?_)
      · rw [hchild]
        by_cases heq : u = c
        · rw [heq, Function.update_self]
          exact halive'
        · rw [Function.update_of_ne heq]
          exact hnew u hu
      · have hne : u ≠ c := fun heq => hforked (heq ▸ hold u hu)
        rw [hchild, Function.update_of_ne hne]
        exact hold u hu
  | waiting i hmain hlines htotal hcells hle hall hreaped =>
      refine .waiting i (hmain'.trans hmain) (hlines'.trans hlines) (htotal'.trans htotal)
        (hcells.move hm) hle (fun u => ?_) ?_
      · rw [hchild]
        by_cases heq : u = c
        · rw [heq, Function.update_self]
          exact hforked'
        · rw [Function.update_of_ne heq]
          exact hall u
      · rw [hchild, reaped_update (hnone'.trans hnone.symm)]
        exact hreaped
  | printing i total hmain hlines htotal hcells hle hsum hreaped =>
      rw [hreaped c] at hrunning
      contradiction
  | returned hmain hlines htotal hcells hreaped =>
      rw [hreaped c] at hrunning
      contradiction
  | failed hmain hlines htotal hcells =>
      exact .failed (hmain'.trans hmain) (hlines'.trans hlines) (htotal'.trans htotal)
        (hcells.move hm)

/-- The workers that print are all reaped, so their cells hold all iterations. -/
theorem Cells.value (h : Cells s) {c : Fin cfg.workers} (hc : s.child c = .reaped) :
    s.counters c = (cfg.iterations : Int) := by
  have hcell := h c
  rw [hc] at hcell
  exact hcell

/-- The sum of the cells that have been printed is an `int`. -/
theorem isInt_total {i : Nat} (hi : i < cfg.workers) :
    IsInt (((i * cfg.iterations : Nat) : Int) + (cfg.iterations : Int)) := by
  have hle : (i + 1) * cfg.iterations ≤ cfg.workers * cfg.iterations :=
    Nat.mul_le_mul_right cfg.iterations hi
  have hfits := cfg.fits
  rw [Nat.succ_mul] at hle
  unfold IsInt
  omega

section MainStep

variable {i : Nat} (hlines : s.lines = []) (htotal : s.printedTotal = none)

include hlines htotal

/-- One more cell is zeroed. -/
theorem stage_zero (hi : i < cfg.workers) (habsent : ∀ c, s.child c = .absent)
    (hzero : ∀ c : Fin cfg.workers, c.val < i → s.counters c = 0) :
    Stage { s.store ⟨i, hi⟩ 0 with main := .zeroing (i + 1) } := by
  refine .zeroing (i + 1) rfl hlines htotal habsent (fun c hc => ?_)
  change Function.update s.counters ⟨i, hi⟩ 0 c = 0
  by_cases hlast : c = ⟨i, hi⟩
  · rw [hlast, Function.update_self]
  · have hne : c.val ≠ i := fun hval => hlast (Fin.ext hval)
    rw [Function.update_of_ne hlast]
    exact hzero c (by omega)

/-- All cells are zero. -/
theorem stage_zeroed (hi : ¬ i < cfg.workers) (habsent : ∀ c, s.child c = .absent)
    (hzero : ∀ c : Fin cfg.workers, c.val < i → s.counters c = 0) :
    Stage { s with main := .forking 0 } := by
  refine .forking 0 rfl hlines htotal (fun c => ?_)
    (fun _ hc => absurd hc (Nat.not_lt_zero _)) (fun c _ => habsent c)
  change CellOk cfg.iterations (s.child c) (s.counters c)
  rw [habsent c]
  exact hzero c (by omega)

/-- One more worker is forked. -/
theorem stage_fork (hi : i < cfg.workers) (hcells : Cells s)
    (hnew : ∀ c : Fin cfg.workers, c.val < i → (s.child c).alive = true)
    (hold : ∀ c : Fin cfg.workers, i ≤ c.val → s.child c = .absent) :
    Stage { s.goto ⟨i, hi⟩ (.counting 0) with main := .forking (i + 1) } := by
  have hcell := hcells ⟨i, hi⟩
  rw [hold ⟨i, hi⟩ (Nat.le_refl i)] at hcell
  have hcells' : Cells { s.goto ⟨i, hi⟩ (.counting 0) with main := .forking (i + 1) } :=
    hcells.update (c := ⟨i, hi⟩) (p := .counting 0) rfl
      (Function.update_eq_self _ s.counters).symm ⟨Nat.zero_le _, hcell⟩
  refine .forking (i + 1) rfl hlines htotal hcells' (fun c hc => ?_) (fun c hc => ?_)
  · change (Function.update s.child ⟨i, hi⟩ (.counting 0) c).alive = true
    by_cases hlast : c = ⟨i, hi⟩
    · rw [hlast, Function.update_self]
      rfl
    · have hne : c.val ≠ i := fun hval => hlast (Fin.ext hval)
      rw [Function.update_of_ne hlast]
      exact hnew c (by omega)
  · have hne : c ≠ ⟨i, hi⟩ := by
      intro hlast
      rw [hlast] at hc
      exact absurd hc (Nat.not_succ_le_self i)
    change Function.update s.child ⟨i, hi⟩ (.counting 0) c = .absent
    rw [Function.update_of_ne hne]
    exact hold c (by omega)

/-- All workers are forked, and none is reaped yet. -/
theorem stage_forked (hi : ¬ i < cfg.workers) (hcells : Cells s)
    (hnew : ∀ c : Fin cfg.workers, c.val < i → (s.child c).alive = true) :
    Stage { s with main := .waiting 0 } := by
  have halive : ∀ c, (s.child c).alive = true := fun c => hnew c (by omega)
  refine .waiting 0 rfl hlines htotal hcells (Nat.zero_le _) (fun c hc => ?_) ?_
  · have hone := halive c
    change s.child c = .absent at hc
    rw [hc] at hone
    contradiction
  · refine Finset.sum_eq_zero (fun c _ => ?_)
    have hone := halive c
    change (s.child c).reapedNat = 0
    cases hc : s.child c <;> simp_all [Child.alive, Child.reapedNat]

end MainStep

/-- As long as workers are not reaped `wait` does not fail. -/
theorem not_all_gone {i : Nat} (hi : i < cfg.workers) (hforked : ∀ c, s.child c ≠ .absent)
    (hreaped : reaped s.child = i) : ¬ ∀ c, (s.child c).gone := by
  intro hgone
  have ⟨c, hc⟩ := exists_not_reaped (hreaped ▸ hi)
  have hone := hgone c
  have hsome := hforked c
  cases hchild : s.child c <;> simp_all [Child.gone]

/-- The line of one more worker. -/
theorem stage_print {i : Nat} (hi : i < cfg.workers)
    (hlines : s.lines = List.replicate i (cfg.iterations : Int)) (htotal : s.printedTotal = none)
    (hcells : Cells s) (hreaped : ∀ c, s.child c = .reaped) :
    Stage { s with
      main := .printing (i + 1) (((i * cfg.iterations : Nat) : Int) + (cfg.iterations : Int))
      lines := s.lines ++ [(cfg.iterations : Int)] } := by
  refine .printing (i + 1) _ rfl ?_ htotal hcells hi ?_ hreaped
  · change s.lines ++ [(cfg.iterations : Int)] = _
    rw [hlines, List.replicate_succ']
  · rw [Nat.succ_mul]
    rfl

theorem stage_mainStep (h : Stage s) (hs : mainStep s = some s') : Stage s' := by
  unfold mainStep at hs
  cases h with
  | zeroing i hmain hlines htotal habsent hzero =>
      rw [hmain] at hs
      by_cases hi : i < cfg.workers
      · rw [← Option.some.inj ((dif_pos hi).symm.trans hs)]
        exact stage_zero hlines htotal hi habsent hzero
      · rw [← Option.some.inj ((dif_neg hi).symm.trans hs)]
        exact stage_zeroed hlines htotal hi habsent hzero
  | forking i hmain hlines htotal hcells hnew hold =>
      rw [hmain] at hs
      by_cases hi : i < cfg.workers
      · rw [← Option.some.inj ((dif_pos hi).symm.trans hs)]
        exact stage_fork hlines htotal hi hcells hnew hold
      · rw [← Option.some.inj ((dif_neg hi).symm.trans hs)]
        exact stage_forked hlines htotal hi hcells hnew
  | waiting i hmain hlines htotal hcells hle hforked hreaped =>
      rw [hmain] at hs
      by_cases hi : i < cfg.workers
      · have hturn := (if_pos hi).symm.trans hs
        rw [if_neg (not_all_gone hi hforked hreaped)] at hturn
        contradiction
      · rw [← Option.some.inj ((if_neg hi).symm.trans hs)]
        have hall : reaped s.child = cfg.workers := by omega
        exact .printing 0 0 rfl hlines htotal hcells (Nat.zero_le _) (by simp) (all_reaped hall)
  | printing i total hmain hlines htotal hcells hle hsum hreaped =>
      rw [hmain] at hs
      by_cases hi : i < cfg.workers
      · have hvalue := hcells.value (hreaped ⟨i, hi⟩)
        have hturn := (dif_pos hi).symm.trans hs
        rw [hvalue, hsum, int_eq_some (isInt_total hi)] at hturn
        rw [← Option.some.inj hturn]
        exact stage_print hi hlines htotal hcells hreaped
      · rw [← Option.some.inj ((dif_neg hi).symm.trans hs)]
        have hall : i = cfg.workers := by omega
        refine .returned rfl (hall ▸ hlines) ?_ hcells hreaped
        change some total = _
        rw [hsum, hall]
  | returned hmain hlines htotal hcells hreaped =>
      rw [hmain] at hs
      contradiction
  | failed hmain hlines htotal hcells =>
      rw [hmain] at hs
      contradiction

/-- `wait` reaps one worker more. -/
theorem stage_wait {c : Fin cfg.workers} (h : Stage s) (hs : step cfg s (.wait c) = some s') :
    Stage s' := by
  simp only [step] at hs
  cases h with
  | waiting i hmain hlines htotal hcells hle hforked hreaped =>
      rw [hmain] at hs
      simp only [Option.ite_none_right_eq_some] at hs
      have ⟨⟨hi, hexited⟩, heq⟩ := hs
      have hsame := Option.some.inj heq
      subst hsame
      have hcell := hcells c
      rw [hexited] at hcell
      have hcells' : Cells { s.goto c .reaped with main := .waiting (i + 1) } :=
        hcells.update (c := c) (p := .reaped) rfl (Function.update_eq_self _ s.counters).symm hcell
      refine .waiting (i + 1) rfl hlines htotal hcells' hi (fun u => ?_) ?_
      · change Function.update s.child c .reaped u ≠ .absent
        by_cases heq : u = c
        · rw [heq, Function.update_self]
          exact Child.noConfusion
        · rw [Function.update_of_ne heq]
          exact hforked u
      · have hsum := sum_update_add Child.reapedNat s.child c .reaped
        rw [hexited] at hsum
        change reaped (Function.update s.child c .reaped) = i + 1
        rw [← hreaped]
        exact hsum
  | zeroing i hmain => rw [hmain] at hs; contradiction
  | forking i hmain => rw [hmain] at hs; contradiction
  | printing i total hmain => rw [hmain] at hs; contradiction
  | returned hmain => rw [hmain] at hs; contradiction
  | failed hmain => rw [hmain] at hs; contradiction

theorem stage_forkFails (h : Stage s) (hs : step cfg s .forkFails = some s') : Stage s' := by
  simp only [step] at hs
  cases h with
  | forking i hmain hlines htotal hcells hnew hold =>
      rw [hmain] at hs
      simp only [Option.ite_none_right_eq_some] at hs
      have hsame := Option.some.inj hs.2
      subst hsame
      exact .failed rfl hlines htotal hcells
  | zeroing i hmain => rw [hmain] at hs; contradiction
  | waiting i hmain => rw [hmain] at hs; contradiction
  | printing i total hmain => rw [hmain] at hs; contradiction
  | returned hmain => rw [hmain] at hs; contradiction
  | failed hmain => rw [hmain] at hs; contradiction

theorem stage_step {a : Act cfg} (h : Stage s) (hs : step cfg s a = some s') : Stage s' := by
  cases a with
  | main => exact stage_mainStep h hs
  | forkFails => exact stage_forkFails h hs
  | wait c => exact stage_wait h hs
  | child c => exact h.move (move_of_childStep hs)

theorem stage_run {counters : Fin cfg.workers → Int} {as : List (Act cfg)}
    (hrun : run (step cfg) (Sys.init cfg counters) as = some s) : Stage s :=
  (Reach.of_run hrun).keeps (stage_init cfg counters) (fun _ _ _ h _ => stage_step h)

/-! ## Nobody waits for ever -/

theorem Cells.child_step (h : Cells s) {c : Fin cfg.workers}
    (hrunning : (s.child c).running = true) :
    (step cfg s (.child c)).isSome = true := by
  have hcell := h c
  simp only [step, childStep]
  cases hc : s.child c with
  | counting j =>
      by_cases hlt : j < cfg.iterations
      · simp only [if_pos hlt, Option.isSome_some]
      · simp only [if_neg hlt, Option.isSome_some]
  | storing j loaded =>
      rw [hc] at hcell
      have ⟨hlt, hloaded, _⟩ := hcell
      have hone : 1 * cfg.iterations ≤ cfg.workers * cfg.iterations :=
        Nat.mul_le_mul_right cfg.iterations (Nat.one_le_iff_ne_zero.mpr (Fin.pos c).ne')
      have hfits := cfg.fits
      have hint : IsInt (loaded + 1) := by
        unfold IsInt
        omega
      simp only [int_eq_some hint, Option.map_some, Option.isSome_some]
  | absent => rw [hc] at hrunning; contradiction
  | exited => rw [hc] at hrunning; contradiction
  | reaped => rw [hc] at hrunning; contradiction

/-- The parent can go on, or a worker that it waits for. -/
theorem Stage.exists_step (h : Stage s) (hreturned : s.main ≠ .returned)
    (hfailed : s.main ≠ .failed) : ∃ a, (step cfg s a).isSome = true := by
  cases h with
  | zeroing i hmain =>
      refine ⟨.main, ?_⟩
      simp only [step, mainStep, hmain]
      split <;> rfl
  | forking i hmain =>
      refine ⟨.main, ?_⟩
      simp only [step, mainStep, hmain]
      split <;> rfl
  | waiting i hmain hlines htotal hcells hle hforked hreaped =>
      by_cases hi : i < cfg.workers
      · have ⟨c, hc⟩ := exists_not_reaped (hreaped ▸ hi)
        cases hchild : s.child c with
        | absent => exact absurd hchild (hforked c)
        | reaped => exact absurd hchild hc
        | exited =>
            refine ⟨.wait c, ?_⟩
            simp only [step, hmain, if_pos (And.intro hi hchild), Option.isSome_some]
        | counting j => exact ⟨.child c, hcells.child_step (by rw [hchild]; rfl)⟩
        | storing j loaded => exact ⟨.child c, hcells.child_step (by rw [hchild]; rfl)⟩
      · refine ⟨.main, ?_⟩
        simp only [step, mainStep, hmain, if_neg hi, Option.isSome_some]
  | printing i total hmain hlines htotal hcells hle hsum hreaped =>
      refine ⟨.main, ?_⟩
      by_cases hi : i < cfg.workers
      · have hvalue := hcells.value (hreaped ⟨i, hi⟩)
        simp only [step, mainStep, hmain, dif_pos hi, hvalue, hsum, int_eq_some (isInt_total hi),
          Option.map_some, Option.isSome_some]
      · simp only [step, mainStep, hmain, dif_neg hi, Option.isSome_some]
  | returned hmain => exact absurd hmain hreturned
  | failed hmain => exact absurd hmain hfailed

/-! ## How long a run is -/

/-- The steps that a worker has left. -/
def Child.left (iterations : Nat) : Child → Nat
  | .counting j => 2 * (iterations - j) + 1
  | .storing j _ => 2 * (iterations - (j + 1)) + 2
  | .absent | .exited | .reaped => 0

/-- The steps that the parent has left, those of the workers it forks included. -/
def MainPc.left (cfg : Config) : MainPc → Nat
  | .zeroing i =>
      (cfg.workers - i) + 1 + (cfg.workers * (2 * cfg.iterations + 2) + 2 * cfg.workers + 3)
  | .forking i => (cfg.workers - i) * (2 * cfg.iterations + 2) + 2 * cfg.workers + 3
  | .waiting i => (cfg.workers - i) + cfg.workers + 2
  | .printing i _ => (cfg.workers - i) + 1
  | .returned | .failed => 0

def Sys.left (s : Sys cfg) : Nat :=
  s.main.left cfg + ∑ c, (s.child c).left cfg.iterations

theorem Move.left {c : Fin cfg.workers} (hm : Move s c s') : s'.left < s.left := by
  have hstep : s'.main = s.main ∧ ∃ p, s'.child = Function.update s.child c p ∧
      p.left cfg.iterations < (s.child c).left cfg.iterations := by
    cases hm with
    | load j hpc hlt => exact ⟨rfl, _, rfl, by rw [hpc]; simp only [Child.left]; omega⟩
    | leave j hpc hge => exact ⟨rfl, _, rfl, by rw [hpc]; simp only [Child.left]; omega⟩
    | store j loaded hpc => exact ⟨rfl, _, rfl, by rw [hpc]; simp only [Child.left]; omega⟩
  have ⟨hmain, p, hchild, hlt⟩ := hstep
  have hsum := sum_update_add (Child.left cfg.iterations) s.child c p
  rw [Sys.left, hmain, hchild, Sys.left]
  omega

theorem left_mainStep (hs : mainStep s = some s') : s'.left < s.left := by
  unfold mainStep at hs
  split at hs
  · rename_i i hmain
    by_cases hi : i < cfg.workers
    · have heq := Option.some.inj ((dif_pos hi).symm.trans hs)
      subst heq
      simp only [Sys.left, Sys.store, hmain, MainPc.left]
      omega
    · have heq := Option.some.inj ((dif_neg hi).symm.trans hs)
      subst heq
      simp only [Sys.left, hmain, MainPc.left, Nat.sub_zero]
      omega
  · rename_i i hmain
    by_cases hi : i < cfg.workers
    · have heq := Option.some.inj ((dif_pos hi).symm.trans hs)
      subst heq
      have hsum := sum_update_add (Child.left cfg.iterations) s.child ⟨i, hi⟩ (.counting 0)
      have hnew : (Child.counting 0).left cfg.iterations = 2 * cfg.iterations + 1 := rfl
      have hrounds := rounds_succ (c := 2 * cfg.iterations + 2) hi
      simp only [Sys.left, Sys.goto, hmain, MainPc.left]
      omega
    · have heq := Option.some.inj ((dif_neg hi).symm.trans hs)
      subst heq
      simp only [Sys.left, hmain, MainPc.left]
      omega
  · rename_i i hmain
    by_cases hi : i < cfg.workers
    · have hturn := (if_pos hi).symm.trans hs
      rw [Option.ite_none_right_eq_some] at hturn
      have heq := Option.some.inj hturn.2
      subst heq
      simp only [Sys.left, hmain, MainPc.left]
      omega
    · have heq := Option.some.inj ((if_neg hi).symm.trans hs)
      subst heq
      simp only [Sys.left, hmain, MainPc.left]
      omega
  · rename_i i total hmain
    by_cases hi : i < cfg.workers
    · have hturn := (dif_pos hi).symm.trans hs
      have ⟨sum, _, heq⟩ := Option.map_eq_some_iff.mp hturn
      subst heq
      simp only [Sys.left, hmain, MainPc.left]
      omega
    · have heq := Option.some.inj ((dif_neg hi).symm.trans hs)
      subst heq
      simp only [Sys.left, hmain, MainPc.left]
      omega
  · contradiction
  · contradiction

theorem left_step {a : Act cfg} (hs : step cfg s a = some s') : s'.left < s.left := by
  cases a with
  | main => exact left_mainStep hs
  | child c => exact (move_of_childStep hs).left
  | forkFails =>
      simp only [step] at hs
      split at hs
      · rename_i i hmain
        rw [Option.ite_none_right_eq_some] at hs
        have heq := Option.some.inj hs.2
        subst heq
        simp only [Sys.left, hmain, MainPc.left]
        omega
      · contradiction
  | wait c =>
      simp only [step] at hs
      split at hs
      · rename_i i hmain
        rw [Option.ite_none_right_eq_some] at hs
        have heq := Option.some.inj hs.2
        subst heq
        have hsum := sum_update_add (Child.left cfg.iterations) s.child c .reaped
        have hnone : (Child.reaped).left cfg.iterations = 0 := rfl
        rw [hs.1.2] at hsum
        simp only [Sys.left, Sys.goto, hmain, MainPc.left]
        omega
      · contradiction

theorem left_init (cfg : Config) (counters : Fin cfg.workers → Int) :
    (Sys.init cfg counters).left = cfg.workers * (2 * cfg.iterations + 5) + 4 := by
  simp [Sys.left, Sys.init, MainPc.left, Child.left]
  ring

/-! ## The program -/

/-- All that has been forked has exited. -/
theorem Stage.ended (h : Stage s) (hstuck : ∀ a, step cfg s a = none) :
    (s.main = .returned ∨ s.main = .failed) ∧
      ∀ c, s.child c = .absent ∨ s.child c = .exited ∨ s.child c = .reaped := by
  have hmain : s.main = .returned ∨ s.main = .failed := by
    by_contra hnot
    rw [not_or] at hnot
    have ⟨a, ha⟩ := h.exists_step hnot.1 hnot.2
    rw [hstuck a] at ha
    contradiction
  refine ⟨hmain, fun c => ?_⟩
  have hcells : Cells s := by
    cases h with
    | zeroing i hz => rw [hz] at hmain; simp at hmain
    | forking i hz hlines htotal hcells => exact hcells
    | waiting i hz hlines htotal hcells => exact hcells
    | printing i total hz hlines htotal hcells => exact hcells
    | returned hz hlines htotal hcells => exact hcells
    | failed hz hlines htotal hcells => exact hcells
  have hrest : (s.child c).running = false := by
    by_contra hrunning
    have hmoves := hcells.child_step (c := c) (by simpa using hrunning)
    rw [hstuck] at hmoves
    contradiction
  cases hc : s.child c <;> simp_all [Child.running]

/-- **The total is exact.**  However the processes interleave, whatever the segment holds at
first and whichever `fork` fails, a run ends after at most `left_init` steps; a worker that has
exited has counted all its iterations; and the parent prints these counts and their sum, or,
after a failed `fork`, nothing. -/
theorem total_exact (counters : Fin cfg.workers → Int) (as : List (Act cfg))
    (hrun : run (step cfg) (Sys.init cfg counters) as = some s) :
    as.length ≤ cfg.workers * (2 * cfg.iterations + 5) + 4 ∧
    (∀ c, s.child c = .exited ∨ s.child c = .reaped → s.counters c = (cfg.iterations : Int)) ∧
    ((∀ a, step cfg s a = none) → (s.main = .returned ∨ s.main = .failed) ∧
      ∀ c, s.child c = .absent ∨ s.child c = .exited ∨ s.child c = .reaped) ∧
    (s.main = .returned → s.lines = List.replicate cfg.workers (cfg.iterations : Int) ∧
      s.printedTotal = some ((cfg.workers * cfg.iterations : Nat) : Int)) ∧
    (s.main = .failed → s.lines = [] ∧ s.printedTotal = none) := by
  have h := stage_run hrun
  refine ⟨?_, fun c hc => ?_, h.ended, fun hmain => ?_, fun hmain => ?_⟩
  · have hlength := length_add_le (fun s a s' => left_step (s := s) (a := a)) hrun
    rw [left_init] at hlength
    omega
  · have hvalue : Cells s → s.counters c = (cfg.iterations : Int) := by
      intro hcells
      have hcell := hcells c
      rcases hc with hc | hc
      · rw [hc] at hcell
        exact hcell
      · rw [hc] at hcell
        exact hcell
    cases h with
    | zeroing i hz hlines htotal habsent => rw [habsent c] at hc; simp at hc
    | forking i hz hlines htotal hcells => exact hvalue hcells
    | waiting i hz hlines htotal hcells => exact hvalue hcells
    | printing i total hz hlines htotal hcells => exact hvalue hcells
    | returned hz hlines htotal hcells => exact hvalue hcells
    | failed hz hlines htotal hcells => exact hvalue hcells
  · cases h with
    | returned hz hlines htotal => exact ⟨hlines, htotal⟩
    | zeroing i hz => rw [hz] at hmain; contradiction
    | forking i hz => rw [hz] at hmain; contradiction
    | waiting i hz => rw [hz] at hmain; contradiction
    | printing i total hz => rw [hz] at hmain; contradiction
    | failed hz => rw [hz] at hmain; contradiction
  · cases h with
    | failed hz hlines htotal => exact ⟨hlines, htotal⟩
    | zeroing i hz => rw [hz] at hmain; contradiction
    | forking i hz => rw [hz] at hmain; contradiction
    | waiting i hz => rw [hz] at hmain; contradiction
    | printing i total hz => rw [hz] at hmain; contradiction
    | returned hz => rw [hz] at hmain; contradiction

/-- Two workers that count to one, of which the second exits and is reaped first. -/
def twoWorkers : Config :=
  { workers := 2
    iterations := 1
    workersFit := Nat.le_of_ble_eq_true rfl
    iterationsFit := Nat.le_of_ble_eq_true rfl
    fits := Nat.le_of_ble_eq_true rfl }

def first : Fin twoWorkers.workers := ⟨0, by decide⟩

def second : Fin twoWorkers.workers := ⟨1, by decide⟩

def turns : List (Act twoWorkers) :=
  [.main, .main, .main, .main, .child first, .main, .child second, .child second, .main,
    .child second, .wait second, .child first, .child first, .wait first, .main, .main, .main,
    .main]

theorem total_exact_turns :
    ∃ s, run (step twoWorkers) (Sys.init twoWorkers (fun _ => 7)) turns = some s ∧
      s.lines = [1, 1] ∧ s.printedTotal = some 2 :=
  ⟨_, rfl, (total_exact (fun _ => 7) turns rfl).2.2.2.1 rfl⟩

end SystemsInC.Ports.ShmCounter
