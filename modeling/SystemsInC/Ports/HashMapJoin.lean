import SystemsInC.Ports.HashMapTurns

/-!
# The end of the workers of the hash map

A thread that does not get the lock of a bucket waits for one that can go on, so the threads
exit and `main` joins them.  By then the output of a thread is what it prints alone, and the map
has one node for each key (`workers_agree`).
-/

namespace SystemsInC.Ports.HashMapWorkers

open SystemsInC.Verified.CString
open SystemsInC.Verified.MachineInt
open SystemsInC.Verified.GuardedRuns
open SystemsInC.Ports.LockedHashMap hiding hash
open SystemsInC.Ports.HashMapOrder

section Progress

variable {cfg : Config} {p : Program cfg} {t : Fin cfg.threads}

/-! ## Nobody waits for ever -/

theorem Loop.defined_of_lt {l : Loop} (h : l.index < cfg.keys) : l.defined = true := by
  have hfits := cfg.fits
  have hkey : (keyText l.index).length < keySize := keyText_length (by omega)
  cases l with
  | inserting i =>
      have hi : i < cfg.keys := h
      have hvalue : IsInt (keyValue i) := by
        unfold IsInt keyValue
        omega
      rw [Loop.defined, Bool.and_eq_true, decide_eq_true_eq, decide_eq_true_eq]
      exact ⟨hkey, hvalue⟩
  | lookingUp i => exact decide_eq_true hkey

/-- A thread with a lock can go on. -/
theorem Inv.holder_step {call : Call} (inv : Inv p) (h : holding (p.map.pc t) = some call) :
    ∃ a, (HashMapWorkers.step p a).isSome = true := by
  have hturn := inv.turns t
  cases hpc : p.map.pc t with
  | idle => rw [hpc] at h; cases h
  | locking op began => rw [hpc] at h; cases h
  | walking call pos =>
      refine ⟨.walk t, ?_⟩
      simp only [HashMapWorkers.step, Sys.walk, hpc, Option.isSome_map]
      split <;> rfl
  | unlocking call result =>
      rw [hpc] at hturn
      have ⟨l, hw⟩ := hturn.calling Pc.noConfusion
      refine ⟨.unlock t, ?_⟩
      simp only [HashMapWorkers.step, Program.unlockStep, hw, hpc, Sys.unlock,
        Option.isSome_map, Option.isSome_some]

/-- A thread can go on, or it waits for one that can. -/
theorem Inv.worker_step (inv : Inv p)
    (hactive : p.worker t ≠ .absent ∧ p.worker t ≠ .exited) :
    ∃ a, (HashMapWorkers.step p a).isSome = true := by
  have hturn := inv.turns t
  cases hpc : p.map.pc t with
  | idle =>
      rw [hpc] at hturn
      cases hw : p.worker t with
      | absent => exact absurd hw hactive.1
      | exited => exact absurd hw hactive.2
      | calling l => rw [hw] at hturn; cases hturn
      | loop l =>
          refine ⟨.call t, ?_⟩
          by_cases hlt : l.index < cfg.keys
          · simp only [HashMapWorkers.step, Program.callStep, hw, if_pos hlt,
              Loop.defined_of_lt hlt, Sys.begin, hpc, ↓reduceIte, Option.isSome_map,
              Option.isSome_some]
          · simp only [HashMapWorkers.step, Program.callStep, hw, if_neg hlt, Option.isSome_some]
      | printing l result =>
          refine ⟨.print t, ?_⟩
          simp only [HashMapWorkers.step, Program.printStep, hw, Option.isSome_some]
  | locking op began =>
      cases hlock : p.map.locks (LockedHashMap.hash op.key) with
      | none =>
          refine ⟨.lock t, ?_⟩
          simp only [HashMapWorkers.step, Sys.lock, hpc, hlock, Option.isSome_map,
            Option.isSome_some]
      | some u =>
          have ⟨call, hcall, _⟩ := inv.map.owned _ u hlock
          exact inv.holder_step hcall
  | walking call pos => exact inv.holder_step (congrArg holding hpc)
  | unlocking call result => exact inv.holder_step (congrArg holding hpc)

theorem Inv.exists_step (inv : Inv p) (hmain : p.main ≠ .returned) :
    ∃ a, (HashMapWorkers.step p a).isSome = true := by
  have hstage := inv.main
  cases hm : p.main with
  | creating i =>
      refine ⟨.main, ?_⟩
      simp only [HashMapWorkers.step, Program.mainStep, hm]
      split <;> rfl
  | joining i =>
      rw [hm] at hstage
      cases hstage with
      | joining _ hle hold hjoined =>
          by_cases hi : i < cfg.threads
          · by_cases hexited : p.worker ⟨i, hi⟩ = .exited
            · refine ⟨.main, ?_⟩
              simp only [HashMapWorkers.step, Program.mainStep, hm, dif_pos hi, if_pos hexited,
                Option.isSome_some]
            · exact inv.worker_step ⟨hold _, hexited⟩
          · refine ⟨.main, ?_⟩
            simp only [HashMapWorkers.step, Program.mainStep, hm, dif_neg hi, Option.isSome_some]
  | returned => exact absurd hm hmain

end Progress

/-! ## How long a run is -/

/-- The steps that a thread has left before the body of a loop. -/
def Loop.left (keys : Nat) : Loop → Nat
  | .inserting i => (keys - i) * (keys + 5) + (keys * (keys + 5) + 2)
  | .lookingUp i => (keys - i) * (keys + 5) + 1

def WorkerPc.left (keys : Nat) : WorkerPc → Nat
  | .loop l => l.left keys
  | .calling l => l.next.left keys + 1
  | .printing l _ => l.next.left keys + 1
  | .absent | .exited => 0

/-- The steps that are left of a call. -/
def pcLeft (keys : Nat) : Pc → Nat
  | .idle => 0
  | .locking _ _ => keys + 3
  | .walking _ pos => keys + 2 - pos
  | .unlocking _ _ => 1

/-- The steps that `main` has left, those of the threads it creates included. -/
def MainPc.left (cfg : Config) : MainPc → Nat
  | .creating i =>
      (cfg.threads - i) * (2 * (cfg.keys * (cfg.keys + 5)) + 3) + cfg.threads + 2
  | .joining i => (cfg.threads - i) + 1
  | .returned => 0

def Program.left {cfg : Config} (p : Program cfg) : Nat :=
  p.main.left cfg + (∑ t, (p.worker t).left cfg.keys + ∑ t, pcLeft cfg.keys (p.map.pc t))

theorem Loop.left_next {l : Loop} {keys : Nat} (h : l.index < keys) :
    l.next.left keys + (keys + 5) = l.left keys := by
  cases l with
  | inserting i =>
      have hrounds := rounds_succ (c := keys + 5) h
      simp only [Loop.left, Loop.next]
      simp only [Loop.index] at hrounds
      omega
  | lookingUp i =>
      have hrounds := rounds_succ (c := keys + 5) h
      simp only [Loop.left, Loop.next]
      simp only [Loop.index] at hrounds
      omega

theorem Loop.left_leave (l : Loop) (keys : Nat) : l.leave.left keys < l.left keys := by
  cases l with
  | inserting i =>
      simp only [Loop.leave, WorkerPc.left, Loop.left, Nat.sub_zero]
      omega
  | lookingUp i => exact Nat.succ_pos _

section Measure

variable {cfg : Config} {p p' : Program cfg} {t : Fin cfg.threads}

/-- One thread moves on. -/
theorem left_move {map : Sys (Fin cfg.threads)} {w : WorkerPc} {pc : Pc}
    {lines : List (Fin cfg.threads × Bytes)}
    (hpc : map.pc = Function.update p.map.pc t pc)
    (hlt : w.left cfg.keys + pcLeft cfg.keys pc <
      (p.worker t).left cfg.keys + pcLeft cfg.keys (p.map.pc t)) :
    Program.left { p with map := map, worker := Function.update p.worker t w, lines := lines } <
      p.left := by
  have hworkers := sum_update_add (WorkerPc.left cfg.keys) p.worker t w
  have hpcs := sum_update_add (pcLeft cfg.keys) p.map.pc t pc
  simp only [Program.left, hpc]
  omega

/-- One thread moves on inside its call. -/
theorem left_inside {map : Sys (Fin cfg.threads)} {pc : Pc}
    (hpc : map.pc = Function.update p.map.pc t pc)
    (hlt : pcLeft cfg.keys pc < pcLeft cfg.keys (p.map.pc t)) :
    Program.left { p with map := map } < p.left := by
  have hpcs := sum_update_add (pcLeft cfg.keys) p.map.pc t pc
  simp only [Program.left, hpc]
  omega

theorem left_mainStep (inv : Inv p) (hs : p.mainStep = some p') : p'.left < p.left := by
  rcases mainStep_cases hs with ⟨i, hi, hmain, rfl⟩ | ⟨i, hi, hmain, rfl⟩ |
    ⟨i, hi, hmain, _, rfl⟩ | ⟨i, hi, hmain, rfl⟩
  · have hstage := inv.main
    rw [hmain] at hstage
    have hworkers := sum_update_add (WorkerPc.left cfg.keys) p.worker ⟨i, hi⟩
      (.loop (.inserting 0))
    have hrounds := rounds_succ (c := 2 * (cfg.keys * (cfg.keys + 5)) + 3) hi
    have hstart : (WorkerPc.loop (.inserting 0)).left cfg.keys =
        2 * (cfg.keys * (cfg.keys + 5)) + 2 := by
      simp only [WorkerPc.left, Loop.left, Nat.sub_zero]
      omega
    have habsent : WorkerPc.absent.left cfg.keys = 0 := rfl
    rw [(hstage.create hi).1] at hworkers
    simp only [Program.left, hmain, MainPc.left]
    omega
  · simp only [Program.left, hmain, MainPc.left, Nat.sub_zero]
    omega
  · simp only [Program.left, hmain, MainPc.left]
    omega
  · simp only [Program.left, hmain, MainPc.left]
    omega

theorem left_callStep (hs : p.callStep t = some p') : p'.left < p.left := by
  have ⟨l, hw, hcases⟩ := callStep_cases hs
  rcases hcases with ⟨hlt, map, hbegin, rfl⟩ | ⟨_, rfl⟩
  · have ⟨hpc, heq⟩ := begin_cases hbegin
    subst heq
    refine left_move rfl ?_
    have hnext := Loop.left_next hlt
    simp only [hw, hpc, WorkerPc.left, pcLeft]
    omega
  · refine left_move (Function.update_eq_self t _).symm ?_
    have hleave := l.left_leave cfg.keys
    simp only [hw, WorkerPc.left]
    simp only [WorkerPc.left] at hleave
    omega

theorem left_walk {map : Sys (Fin cfg.threads)} (inv : Inv p) (hs : p.map.walk t = some map) :
    Program.left { p with map := map } < p.left := by
  have ⟨call, pos, hpc, hcases⟩ := walk_cases hs
  have ⟨_, hshort⟩ : PcOk cfg.keys (.walking call pos) := hpc ▸ inv.map.pcs t
  rcases hcases with ⟨_, rfl⟩ | ⟨nodes, result, _, rfl⟩
  · refine left_inside rfl ?_
    simp only [hpc, pcLeft]
    omega
  · refine left_inside rfl ?_
    simp only [hpc, pcLeft]
    omega

theorem left_step {a : Act cfg} (inv : Inv p) (hs : step p a = some p') : p'.left < p.left := by
  cases a with
  | main => exact left_mainStep inv hs
  | call t => exact left_callStep hs
  | lock t =>
      have ⟨map, hlock, heq⟩ := Option.map_eq_some_iff.mp hs
      have ⟨op, began, hpc, _, hmap⟩ := lock_cases hlock
      subst heq
      subst hmap
      refine left_inside rfl ?_
      simp only [hpc, pcLeft]
      omega
  | walk t =>
      have ⟨map, hwalk, heq⟩ := Option.map_eq_some_iff.mp hs
      subst heq
      exact left_walk inv hwalk
  | unlock t =>
      have ⟨l, call, result, map, hw, hpc, hunlock, heq⟩ := unlockStep_cases hs
      have ⟨_, _, _, hmap⟩ := unlock_cases hunlock
      subst heq
      subst hmap
      refine left_move rfl ?_
      simp only [hw, hpc, WorkerPc.left, pcLeft]
      omega
  | print t =>
      have ⟨l, result, hw, heq⟩ := printStep_cases hs
      subst heq
      refine left_move (Function.update_eq_self t _).symm ?_
      simp only [hw, WorkerPc.left]
      omega

theorem left_init (cfg : Config) :
    (Program.init cfg).left =
      cfg.threads * (2 * (cfg.keys * (cfg.keys + 5)) + 3) + cfg.threads + 2 := by
  simp [Program.left, Program.init, MainPc.left, WorkerPc.left, pcLeft, Sys.init]

end Measure

/-! ## The whole program -/

section Runs

variable {cfg : Config} {p : Program cfg} {as : List (Act cfg)}

theorem inv_run (hrun : run step (Program.init cfg) as = some p) : Inv p :=
  (Reach.of_run hrun).keeps (inv_init cfg) (fun _ _ _ inv _ => inv.step)

/-- `main` returns behind the last thread. -/
theorem Inv.all_exited (inv : Inv p) (hmain : p.main = .returned) : ∀ t, p.worker t = .exited := by
  have hstage := inv.main
  rw [hmain] at hstage
  cases hstage with
  | returned hjoined => exact hjoined

/-- The map that the threads leave behind. -/
theorem Inv.nodes_perm (inv : Inv p) (hmain : p.main = .returned) :
    (nodes p.map).Perm ((List.range cfg.keys).map entry) := by
  have hexited := inv.all_exited hmain
  have hmem : ∀ node, node ∈ nodes p.map ↔ ∃ b, node ∈ p.map.buckets b := by
    intro node
    simp [nodes]
  have hnodup : (nodes p.map).Nodup := by
    refine List.nodup_flatMap.mpr ⟨fun b _ => (inv.map.inv.chain b).nodup.of_map, ?_⟩
    refine (List.nodup_finRange tableSize).imp (fun {b b'} hne node hnode hnode' => hne ?_)
    rw [← (inv.map.inv.chain b).hashed node hnode, (inv.map.inv.chain b').hashed node hnode']
  have hentries : ((List.range cfg.keys).map entry).Nodup :=
    List.nodup_range.map (fun i j heq => keyText_inj (congrArg Node.key heq))
  refine (List.perm_ext_iff_of_nodup hnodup hentries).mpr (fun node => ?_)
  rw [hmem, List.mem_map]
  constructor
  · rintro ⟨b, hnode⟩
    obtain ⟨i, hi, heq⟩ := inv.map.entries b node hnode
    exact ⟨i, List.mem_range.mpr hi, heq.symm⟩
  · rintro ⟨i, hi, rfl⟩
    have hlt : i < cfg.keys := List.mem_range.mp hi
    -- nobody holds the lock of the bucket, and every thread has inserted the key
    have hturn := inv.turns ⟨0, cfg.threads_pos⟩
    rw [hexited] at hturn
    have hfree : p.map.locks (LockedHashMap.hash (keyText i)) = none := by
      refine Option.eq_none_iff_forall_ne_some.mpr (fun u hlock => ?_)
      obtain ⟨call, hcall, _⟩ := inv.map.owned _ u hlock
      have hidle := inv.turns u
      rw [hexited] at hidle
      rw [hidle.idle (fun _ => WorkerPc.noConfusion)] at hcall
      cases hcall
    have hinserted : (Loop.inserting i).op ∈ p.map.log := by
      generalize p.map.pc ⟨0, cfg.threads_pos⟩ = pc at hturn
      cases hturn with
      | exited hpast => exact hpast i hlt
    have hvalue := inv.map.inv.free (keyText i) hfree
    rw [lastInsert_known inv.map.log hinserted, chainValue, Option.map_eq_some_iff] at hvalue
    obtain ⟨node, hfind, _⟩ := hvalue
    have hnode := List.mem_of_find?_eq_some hfind
    obtain ⟨j, _, heq⟩ := inv.map.entries _ node hnode
    have hkey := List.find?_some hfind
    rw [decide_eq_true_eq, heq] at hkey
    have hij : j = i := strcmpEq_keyText.mp hkey
    exact ⟨_, by rw [heq, hij] at hnode; exact hnode⟩

/-- **The threads do not see each other.**  However they interleave, a run ends after a bounded
number of steps, and only behind the last `pthread_join`; what a thread has printed is a prefix
of the lines that it prints alone, and all of them in the end; and the map then has one node for
each key. -/
theorem workers_agree (hrun : run step (Program.init cfg) as = some p) :
    as.length ≤ cfg.threads * (2 * (cfg.keys * (cfg.keys + 5)) + 4) + 2 ∧
    ((∀ a, step p a = none) → p.main = .returned) ∧
    (∀ t, printedBy t p.lines <+: transcript cfg.keys (cfg.self t)) ∧
    (p.main = .returned →
      (∀ t, printedBy t p.lines = transcript cfg.keys (cfg.self t)) ∧
      (nodes p.map).Perm ((List.range cfg.keys).map entry)) := by
  have inv := inv_run hrun
  refine ⟨?_, fun hstuck => ?_, fun t => ?_, fun hmain => ⟨fun t => ?_, inv.nodes_perm hmain⟩⟩
  · have hlength := length_add_le_of_keeps (fun _ _ _ inv => Inv.step inv)
      (fun _ _ _ inv => left_step inv) (inv_init cfg) hrun
    rw [left_init] at hlength
    have hmul : cfg.threads * (2 * (cfg.keys * (cfg.keys + 5)) + 4) =
        cfg.threads * (2 * (cfg.keys * (cfg.keys + 5)) + 3) + cfg.threads := Nat.mul_succ _ _
    omega
  · by_contra hmain
    have ⟨a, ha⟩ := inv.exists_step hmain
    rw [hstuck a] at ha
    cases ha
  · rw [inv.lines t]
    exact WorkerPc.lines_prefix (inv.turns t) _
  · rw [inv.lines t, inv.all_exited hmain t]
    rfl

end Runs

/-- Two threads with one key: the second waits for the lock of the first. -/
def twoThreads : Config :=
  { threads := 2
    keys := 1
    self := fun t => Int.ofNat t.val
    threads_pos := Nat.two_pos
    fits := Nat.le_of_ble_eq_true rfl }

def first : Fin twoThreads.threads := ⟨0, by decide⟩

def second : Fin twoThreads.threads := ⟨1, by decide⟩

def turns : List (Act twoThreads) :=
  [.main, .call first, .lock first, .main, .call second, .main, .walk first, .unlock first,
    .lock second, .print first, .walk second, .unlock second, .call first, .print second,
    .call first, .lock first, .walk first, .unlock first, .print first, .call first, .main,
    .call second, .call second, .lock second, .walk second, .unlock second, .print second,
    .call second, .main, .main]

theorem workers_agree_turns :
    ∃ p, run step (Program.init twoThreads) turns = some p ∧
      printedBy second p.lines = transcript 1 1 ∧ (nodes p.map).Perm [entry 0] := by
  have hrun : run step (Program.init twoThreads) turns = some _ := rfl
  have hend := (workers_agree hrun).2.2.2 rfl
  exact ⟨_, hrun, hend.1 second, hend.2⟩

end SystemsInC.Ports.HashMapWorkers
