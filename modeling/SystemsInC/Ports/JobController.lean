import SystemsInC.Verified.GuardedRuns

/-!
# The job controller

`signal-based-job-controller.c` starts children that count and handles three signals:
SIGINT stops the children, SIGUSR1 resumes them, and SIGTERM terminates them and waits
for each.  The children are forked after the handlers are set, so they run the same
`handle_signal`, with the table `children` as it was when they were forked: the process
ids of the older siblings, and zero behind them.  `kill` with zero sends to the whole
process group.

A process takes one step to start a handler, one for each call of the handler, and one
for each count.  A stopped process takes none, and a signal that it gets is pending until
it is resumed.
-/

namespace SystemsInC.Ports.JobController

open SystemsInC.Verified.GuardedRuns

/-! ## The processes -/

/-- The signals that `handle_signal` is registered for. -/
inductive Sig
  | int
  | usr1
  | term
  deriving DecidableEq

/-- What `handle_signal` sends: SIGSTOP, SIGCONT or SIGTERM. -/
inductive Order
  | stop
  | cont
  | term
  deriving DecidableEq

/-- The next call of a handler: a loop of `kill` or the loop of `waitpid`, with its `i`. -/
inductive Frame
  | stopping (i : Nat)
  | resuming (i : Nat)
  | terminating (i : Nat)
  | waiting (i : Nat)
  deriving DecidableEq

/-- The signal of a handler, which is blocked while it runs. -/
def Frame.sig : Frame → Sig
  | .stopping _ => .int
  | .resuming _ => .usr1
  | .terminating _ | .waiting _ => .term

def Sig.handler : Sig → Frame
  | .int => .stopping 0
  | .usr1 => .resuming 0
  | .term => .terminating 0

/-- The processes of the group; `n` is `NUM_CHILDREN`. -/
inductive Who (n : Nat)
  | controller
  | child (c : Fin n)
  deriving DecidableEq

structure Process where
  exited : Bool
  stopped : Bool
  pending : Sig → Bool
  /-- the handlers that run, the one started last first -/
  frames : List Frame

structure Sys (n : Nat) where
  proc : Who n → Process
  count : Fin n → Nat
  /-- the controller has waited for the child -/
  reaped : Fin n → Bool
  /-- the lines `Received`, with the process that has printed them -/
  printed : List (Who n × Sig)

/-- A process that runs none of its handlers. -/
def Process.fresh : Process :=
  { exited := false
    stopped := false
    pending := fun _ => false
    frames := [] }

/-- The controller is in `pause` for the first time. -/
def Sys.init (n : Nat) : Sys n :=
  { proc := fun _ => .fresh
    count := fun _ => 0
    reaped := fun _ => false
    printed := [] }

variable {n : Nat} {s s' : Sys n}

/-! ## The steps -/

/-- `children[i]` in the memory of a process; `none` is zero. -/
def children : Who n → Fin n → Option (Who n)
  | .controller, i => some (.child i)
  | .child c, i => if i < c then some (.child i) else none

/-- What a signal does to a process.  One that has exited gets none. -/
def Process.send (q : Process) (order : Order) : Process :=
  if q.exited then q
  else
    match order with
    | .stop => { q with stopped := true }
    | .cont => { q with stopped := false }
    | .term => { q with pending := Function.update q.pending .term true }

/-- A registered signal from outside. -/
def Process.ask (q : Process) (sig : Sig) : Process :=
  if q.exited then q else { q with pending := Function.update q.pending sig true }

/-- `kill`. -/
def Sys.kill (s : Sys n) (target : Option (Who n)) (order : Order) : Sys n :=
  { s with proc := fun r =>
      if target = none ∨ target = some r then (s.proc r).send order else s.proc r }

def Sys.setFrames (s : Sys n) (p : Who n) (frames : List Frame) : Sys n :=
  { s with proc := Function.update s.proc p { s.proc p with frames := frames } }

/-- `waitpid(children[i], NULL, 0)` returns: the child has exited, or it is no child of
the process any more. -/
def Sys.waitReturns (s : Sys n) (i : Fin n) : Who n → Bool
  | .controller => s.reaped i || (s.proc (.child i)).exited
  | .child _ => true

/-- What `waitpid` collects. -/
def Sys.reap (s : Sys n) (i : Fin n) : Who n → Sys n
  | .controller => { s with reaped := Function.update s.reaped i true }
  | .child _ => s

def Sys.exit (s : Sys n) (p : Who n) : Sys n :=
  { s with proc := Function.update s.proc p { s.proc p with exited := true } }

/-- A process that has exited or is stopped does nothing. -/
def Process.canRun (q : Process) : Bool := !q.exited && !q.stopped

/-- The next call of the handler that was started last. -/
def handlerStep (s : Sys n) (p : Who n) : Option (Sys n) :=
  if (s.proc p).canRun then
    match (s.proc p).frames with
    | [] => none
    | .stopping i :: rest =>
        if h : i < n then
          some ((s.kill (children p ⟨i, h⟩) .stop).setFrames p (.stopping (i + 1) :: rest))
        else
          some (s.setFrames p rest)
    | .resuming i :: rest =>
        if h : i < n then
          some ((s.kill (children p ⟨i, h⟩) .cont).setFrames p (.resuming (i + 1) :: rest))
        else
          some (s.setFrames p rest)
    | .terminating i :: rest =>
        if h : i < n then
          some ((s.kill (children p ⟨i, h⟩) .term).setFrames p (.terminating (i + 1) :: rest))
        else
          some (s.setFrames p (.waiting 0 :: rest))
    | .waiting i :: rest =>
        if h : i < n then
          if s.waitReturns ⟨i, h⟩ p then
            some ((s.reap ⟨i, h⟩ p).setFrames p (.waiting (i + 1) :: rest))
          else
            none
        else
          some (s.exit p)
  else
    none

/-- A handler that is started while `waitpid` blocks lets it return without a child. -/
def interrupted : List Frame → List Frame
  | .waiting i :: rest => .waiting (i + 1) :: rest
  | frames => frames

/-- A pending signal that is not blocked. -/
def Process.deliverable (q : Process) (sig : Sig) : Bool :=
  q.pending sig && q.frames.all (fun f => f.sig != sig)

/-- A process starts a handler; `blocks` says that it was blocked in `waitpid`. -/
def Process.start (q : Process) (sig : Sig) (blocks : Bool) : Process :=
  { q with
    pending := Function.update q.pending sig false
    frames := sig.handler :: (if blocks then interrupted q.frames else q.frames) }

def deliver (s : Sys n) (p : Who n) (sig : Sig) (blocks : Bool) : Option (Sys n) :=
  if (s.proc p).canRun && (s.proc p).deliverable sig then
    some { s with
      proc := Function.update s.proc p ((s.proc p).start sig blocks)
      printed := s.printed ++ [(p, sig)] }
  else
    none

/-- No handler runs and no signal is pending. -/
def Process.quiet (q : Process) : Bool :=
  q.frames.isEmpty && !q.pending .int && !q.pending .usr1 && !q.pending .term

/-- A child counts.  A signal is handled before the next count. -/
def countStep (s : Sys n) (c : Fin n) : Option (Sys n) :=
  if (s.proc (.child c)).canRun && (s.proc (.child c)).quiet then
    some { s with count := Function.update s.count c (s.count c + 1) }
  else
    none

inductive Act (n : Nat)
  /-- `kill` with the process id of the controller -/
  | signal (sig : Sig)
  /-- Ctrl+C, which sends SIGINT to the process group -/
  | interrupt
  | deliver (p : Who n) (sig : Sig) (blocks : Bool)
  | handler (p : Who n)
  | count (c : Fin n)
  deriving DecidableEq

def Sys.signal (s : Sys n) (sig : Sig) : Sys n :=
  { s with proc := Function.update s.proc .controller ((s.proc .controller).ask sig) }

def Sys.interrupt (s : Sys n) : Sys n := { s with proc := fun p => (s.proc p).ask .int }

def step (s : Sys n) : Act n → Option (Sys n)
  | .signal sig => some (s.signal sig)
  | .interrupt => some s.interrupt
  | .deliver p sig blocks => deliver s p sig blocks
  | .handler p => handlerStep s p
  | .count c => countStep s c

/-! ## What a signal leaves as it is -/

section Send

variable (q : Process) (order : Order)

@[simp] theorem send_exited : (q.send order).exited = q.exited := by
  unfold Process.send
  split
  · rfl
  · cases order <;> rfl

@[simp] theorem send_frames : (q.send order).frames = q.frames := by
  unfold Process.send
  split
  · rfl
  · cases order <;> rfl

/-- A signal that is pending stays so. -/
theorem send_pending {sig : Sig} (h : q.pending sig = true) :
    (q.send order).pending sig = true := by
  unfold Process.send
  split
  · exact h
  · cases order with
    | stop => exact h
    | cont => exact h
    | term =>
        by_cases hsig : sig = .term
        · rw [hsig]
          change Function.update q.pending .term true .term = true
          rw [Function.update_self]
        · change Function.update q.pending .term true sig = true
          rw [Function.update_of_ne hsig]
          exact h

theorem send_stop : (q.send .stop).canRun = false := by
  unfold Process.send Process.canRun
  split
  · rename_i hexited
    simp [hexited]
  · simp

end Send

theorem kill_proc (s : Sys n) (target : Option (Who n)) (order : Order) (r : Who n) :
    (s.kill target order).proc r = (s.proc r).send order ∨
      (s.kill target order).proc r = s.proc r := by
  by_cases h : target = none ∨ target = some r
  · exact .inl (if_pos h)
  · exact .inr (if_neg h)

theorem kill_exited (s : Sys n) (target : Option (Who n)) (order : Order) (r : Who n) :
    ((s.kill target order).proc r).exited = (s.proc r).exited := by
  rcases kill_proc s target order r with h | h <;> simp [h]

theorem kill_frames (s : Sys n) (target : Option (Who n)) (order : Order) (r : Who n) :
    ((s.kill target order).proc r).frames = (s.proc r).frames := by
  rcases kill_proc s target order r with h | h <;> simp [h]

@[simp] theorem setFrames_self (s : Sys n) (p : Who n) (frames : List Frame) :
    (s.setFrames p frames).proc p = { s.proc p with frames := frames } :=
  Function.update_self ..

theorem setFrames_other (s : Sys n) {p r : Who n} (h : r ≠ p) (frames : List Frame) :
    (s.setFrames p frames).proc r = s.proc r :=
  Function.update_of_ne h ..

@[simp] theorem signal_controller (s : Sys n) (sig : Sig) :
    (s.signal sig).proc .controller = (s.proc .controller).ask sig := by
  simp [Sys.signal]

@[simp] theorem signal_child (s : Sys n) (sig : Sig) (c : Fin n) :
    (s.signal sig).proc (.child c) = s.proc (.child c) := by
  simp [Sys.signal]

@[simp] theorem reap_proc (s : Sys n) (i : Fin n) (p : Who n) : (s.reap i p).proc = s.proc := by
  cases p <;> rfl

/-! ## What a handler does -/

/-- The calls of the handlers. -/
inductive Call (s : Sys n) (p : Who n) : Sys n → Prop
  | stop (i : Nat) (rest : List Frame) (hframes : (s.proc p).frames = .stopping i :: rest)
      (h : i < n) :
      Call s p ((s.kill (children p ⟨i, h⟩) .stop).setFrames p (.stopping (i + 1) :: rest))
  | stopped (i : Nat) (rest : List Frame) (hframes : (s.proc p).frames = .stopping i :: rest)
      (hge : n ≤ i) : Call s p (s.setFrames p rest)
  | resume (i : Nat) (rest : List Frame) (hframes : (s.proc p).frames = .resuming i :: rest)
      (h : i < n) :
      Call s p ((s.kill (children p ⟨i, h⟩) .cont).setFrames p (.resuming (i + 1) :: rest))
  | resumed (i : Nat) (rest : List Frame) (hframes : (s.proc p).frames = .resuming i :: rest)
      (hge : n ≤ i) : Call s p (s.setFrames p rest)
  | terminate (i : Nat) (rest : List Frame)
      (hframes : (s.proc p).frames = .terminating i :: rest) (h : i < n) :
      Call s p ((s.kill (children p ⟨i, h⟩) .term).setFrames p (.terminating (i + 1) :: rest))
  | terminated (i : Nat) (rest : List Frame)
      (hframes : (s.proc p).frames = .terminating i :: rest) (hge : n ≤ i) :
      Call s p (s.setFrames p (.waiting 0 :: rest))
  | wait (i : Nat) (rest : List Frame) (hframes : (s.proc p).frames = .waiting i :: rest)
      (h : i < n) (hreturns : s.waitReturns ⟨i, h⟩ p = true) :
      Call s p ((s.reap ⟨i, h⟩ p).setFrames p (.waiting (i + 1) :: rest))
  | exit (i : Nat) (rest : List Frame) (hframes : (s.proc p).frames = .waiting i :: rest)
      (hge : n ≤ i) : Call s p (s.exit p)

theorem call_of_handlerStep {p : Who n} (h : handlerStep s p = some s') :
    (s.proc p).canRun = true ∧ Call s p s' := by
  unfold handlerStep at h
  rw [Option.ite_none_right_eq_some] at h
  have ⟨hrun, hstep⟩ := h
  refine ⟨hrun, ?_⟩
  split at hstep
  · contradiction
  · rename_i i rest hframes
    by_cases hlt : i < n
    · rw [dif_pos hlt] at hstep
      exact Option.some.inj hstep ▸ .stop i rest hframes hlt
    · rw [dif_neg hlt] at hstep
      exact Option.some.inj hstep ▸ .stopped i rest hframes (Nat.not_lt.mp hlt)
  · rename_i i rest hframes
    by_cases hlt : i < n
    · rw [dif_pos hlt] at hstep
      exact Option.some.inj hstep ▸ .resume i rest hframes hlt
    · rw [dif_neg hlt] at hstep
      exact Option.some.inj hstep ▸ .resumed i rest hframes (Nat.not_lt.mp hlt)
  · rename_i i rest hframes
    by_cases hlt : i < n
    · rw [dif_pos hlt] at hstep
      exact Option.some.inj hstep ▸ .terminate i rest hframes hlt
    · rw [dif_neg hlt] at hstep
      exact Option.some.inj hstep ▸ .terminated i rest hframes (Nat.not_lt.mp hlt)
  · rename_i i rest hframes
    by_cases hlt : i < n
    · rw [dif_pos hlt, Option.ite_none_right_eq_some] at hstep
      exact Option.some.inj hstep.2 ▸ .wait i rest hframes hlt hstep.1
    · rw [dif_neg hlt] at hstep
      exact Option.some.inj hstep ▸ .exit i rest hframes (Nat.not_lt.mp hlt)

theorem deliver_cases {p : Who n} {sig : Sig} {blocks : Bool}
    (h : deliver s p sig blocks = some s') : (s.proc p).canRun = true ∧
      (s.proc p).deliverable sig = true ∧
      s' = { s with
        proc := Function.update s.proc p ((s.proc p).start sig blocks)
        printed := s.printed ++ [(p, sig)] } := by
  unfold deliver at h
  rw [Option.ite_none_right_eq_some, Bool.and_eq_true] at h
  exact ⟨h.1.1, h.1.2, (Option.some.inj h.2).symm⟩

end SystemsInC.Ports.JobController
