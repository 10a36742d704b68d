import SystemsInC.Ports.ForkServer
import SystemsInC.Verified.OwnerTable

/-!
# The echo server with a thread for each client

`miniserver.c` in its mode `thread`.  The threads share the descriptors and the heap of the
process, and both numbers and addresses come back into use as soon as they are given up: `main`
stores the descriptor in a block of its own for each thread, and the thread loads it and frees
the block before it reads from its client.

`threads_own` says that in no interleaving a thread meets the client, the block or the descriptor
of another one, and that nothing stays open or allocated behind the threads.
-/

namespace SystemsInC.Ports.ThreadServer

open SystemsInC.Verified.CString
open SystemsInC.Verified.GuardedRuns
open SystemsInC.Verified.OwnerTable
open SystemsInC.Ports.ForkServer (bufSize Conn)

/-! ## The program -/

/-- What a thread does next in `thread_handler`. -/
inductive ThreadPc
  /-- nobody has created the thread -/
  | absent
  /-- `int client_sock = *(int *)arg` -/
  | loading (arg : Nat)
  /-- `free(arg)` -/
  | freeing (arg clientSock : Nat)
  | reading (clientSock : Nat)
  | writing (clientSock : Nat) (request : Bytes)
  | closing (clientSock : Nat)
  | returned
  deriving DecidableEq

/-- The descriptor that a thread works with. -/
def ThreadPc.clientSock : ThreadPc → Option Nat
  | .freeing _ clientSock | .reading clientSock | .writing clientSock _ | .closing clientSock =>
      some clientSock
  | _ => none

/-- What `main` does next. -/
inductive MainPc
  | accepting
  /-- `malloc(sizeof(int))` and the assignment to the block -/
  | allocating (clientSock : Nat)
  | creating (clientSock pclient : Nat)
  /-- the process has ended by a signal, or its behaviour is undefined -/
  | dead
  deriving DecidableEq

structure Sys where
  main : MainPc
  /-- the clients with a thread are those below this number -/
  created : Nat
  thread : Nat → ThreadPc
  /-- the client behind an open descriptor -/
  fds : Nat → Option Nat
  /-- the contents of the allocated blocks -/
  heap : Nat → Option Nat
  conn : Nat → Conn

def Sys.init : Sys :=
  { main := .accepting
    created := 0
    thread := fun _ => .absent
    fds := fun _ => none
    heap := fun _ => none
    conn := fun _ => ⟨none, none⟩ }

/-- The calls whose results are not up to the program; a thread has the number of its client. -/
inductive Act
  /-- the descriptor of the next client -/
  | accept (clientSock : Option Nat)
  | malloc (pclient : Option Nat)
  /-- `pthread_create` and `pthread_detach` -/
  | create (ok : Bool)
  | load (t : Nat)
  | free (t : Nat)
  | read (t : Nat) (got : Option Bytes)
  /-- how much is written, nothing at an error; `none` is a `SIGPIPE` -/
  | write (t : Nat) (written : Option Nat)
  | close (t : Nat)
  deriving DecidableEq

variable {s s' : Sys} {a : Act} {as : List Act}

def Sys.goto (s : Sys) (t : Nat) (pc : ThreadPc) : Sys :=
  { s with thread := Function.update s.thread t pc }

/-- The next client has the number `created`. -/
def Sys.accept (s : Sys) : Option Nat → Option Sys
  | some clientSock =>
      if s.fds clientSock = none then
        some { s with
          main := .allocating clientSock
          fds := Function.update s.fds clientSock (some s.created) }
      else
        none
  | none => some s

def Sys.malloc (s : Sys) (clientSock : Nat) : Option Nat → Option Sys
  | some pclient =>
      if s.heap pclient = none then
        some { s with
          main := .creating clientSock pclient
          heap := Function.update s.heap pclient (some clientSock) }
      else
        none
  | none => some { s with main := .dead }

/-- Without a thread `pthread_detach` is called with an uninitialised number. -/
def Sys.create (s : Sys) (pclient : Nat) (ok : Bool) : Sys :=
  if ok then
    { s.goto s.created (.loading pclient) with
      main := .accepting
      created := s.created + 1 }
  else
    { s with main := .dead }

def Sys.load (s : Sys) (t arg : Nat) : Sys :=
  match s.heap arg with
  | some clientSock => s.goto t (.freeing arg clientSock)
  | none => { s with main := .dead }

def Sys.free (s : Sys) (t arg clientSock : Nat) : Sys :=
  if s.heap arg = none then
    { s with main := .dead }
  else
    { s.goto t (.reading clientSock) with heap := Function.update s.heap arg none }

/-- `read` and the 0 behind what it returns; it fails for a descriptor that is not open. -/
def Sys.read (s : Sys) (t clientSock : Nat) (got : Option Bytes) : Sys :=
  match s.fds clientSock, got with
  | some c, some request =>
      if request.length < bufSize then
        { s.goto t (.writing clientSock request) with
          conn := Function.update s.conn c { s.conn c with request := some request } }
      else
        { s with main := .dead }
  | _, _ => { s with main := .dead }

def Sys.write (s : Sys) (t clientSock : Nat) (request : Bytes) : Option Nat → Option Sys
  | some n =>
      match s.fds clientSock with
      | some c =>
          if n ≤ request.length then
            some { s.goto t (.closing clientSock) with
              conn := Function.update s.conn c { s.conn c with answer := some (request.take n) } }
          else
            none
      | none => some (s.goto t (.closing clientSock))
  | none => some { s with main := .dead }

def Sys.close (s : Sys) (t clientSock : Nat) : Sys :=
  { s.goto t .returned with fds := Function.update s.fds clientSock none }

def threadStep (s : Sys) : Act → Option Sys
  | .load t =>
      match s.thread t with
      | .loading arg => some (s.load t arg)
      | _ => none
  | .free t =>
      match s.thread t with
      | .freeing arg clientSock => some (s.free t arg clientSock)
      | _ => none
  | .read t got =>
      match s.thread t with
      | .reading clientSock => some (s.read t clientSock got)
      | _ => none
  | .write t written =>
      match s.thread t with
      | .writing clientSock request => s.write t clientSock request written
      | _ => none
  | .close t =>
      match s.thread t with
      | .closing clientSock => some (s.close t clientSock)
      | _ => none
  | _ => none

def step (s : Sys) (a : Act) : Option Sys :=
  match s.main, a with
  | .dead, _ => none
  | .accepting, .accept clientSock => s.accept clientSock
  | .allocating clientSock, .malloc pclient => s.malloc clientSock pclient
  | .creating _ pclient, .create ok => some (s.create pclient ok)
  | _, a => threadStep s a

/-- There is memory for the block and a thread for the client, which sends less than a buffer
and reads its answer. -/
def CallOk (_ : Sys) : Act → Prop
  | .malloc pclient => pclient ≠ none
  | .create ok => ok = true
  | .read _ (some request) => request.length < bufSize
  | .read _ none => False
  | .write _ written => written ≠ none
  | _ => True

instance (s : Sys) (a : Act) : Decidable (CallOk s a) := by
  unfold CallOk
  split <;> infer_instance

/-! ## What belongs to a thread -/

/-- The block and the descriptor of a client that has a thread. -/
def ThreadPc.Holds (block descriptor : Option Nat) : ThreadPc → Prop
  | .loading arg => block = some arg ∧ ∃ clientSock, descriptor = some clientSock
  | .freeing arg clientSock => block = some arg ∧ descriptor = some clientSock
  | .reading clientSock | .writing clientSock _ | .closing clientSock =>
      block = none ∧ descriptor = some clientSock
  | .returned => block = none ∧ descriptor = none
  | .absent => False

/-- Those of the client that `main` is about. -/
def MainPc.Holds (block descriptor : Option Nat) : MainPc → Prop
  | .accepting => block = none ∧ descriptor = none
  | .allocating clientSock => block = none ∧ descriptor = some clientSock
  | .creating clientSock pclient => block = some pclient ∧ descriptor = some clientSock
  | .dead => False

/-- What has been read from and written to the client. -/
def ThreadPc.Serves (conn : Conn) : ThreadPc → Prop
  | .writing _ request => conn = ⟨some request, none⟩
  | .closing _ | .returned => conn.Echoed
  | _ => conn = ⟨none, none⟩

/-- The clients own the blocks and the descriptors, and each block holds the descriptor of its
owner. -/
structure Owned (s : Sys) (owner block descriptor : Nat → Option Nat) : Prop where
  fds : Owns s.fds descriptor
  blocks : Owns owner block
  heap : ∀ p, s.heap p = (owner p).bind descriptor
  threads : ∀ t < s.created, (s.thread t).Holds (block t) (descriptor t)
  main : s.main.Holds (block s.created) (descriptor s.created)
  later : ∀ c, s.created < c → block c = none ∧ descriptor c = none
  absent : ∀ t, s.created ≤ t → s.thread t = .absent
  serves : ∀ t < s.created, (s.thread t).Serves (s.conn t)
  unserved : ∀ c, s.created ≤ c → s.conn c = ⟨none, none⟩

def Inv (s : Sys) : Prop := ∃ owner block descriptor, Owned s owner block descriptor

theorem inv_init : Inv Sys.init :=
  ⟨fun _ => none, fun _ => none, fun _ => none,
    { fds := owns_empty
      blocks := owns_empty
      heap := fun _ => rfl
      threads := fun t ht => absurd ht (Nat.not_lt_zero t)
      main := ⟨rfl, rfl⟩
      later := fun _ _ => ⟨rfl, rfl⟩
      absent := fun _ _ => rfl
      serves := fun t ht => absurd ht (Nat.not_lt_zero t)
      unserved := fun _ _ => rfl }⟩

variable {owner block descriptor : Nat → Option Nat} {t c p clientSock : Nat}

theorem Owned.alive (h : Owned s owner block descriptor) : s.main ≠ .dead := by
  intro hdead
  have hmain := h.main
  rw [hdead] at hmain
  exact hmain

/-- A client with a block has a descriptor as well. -/
theorem Owned.exists_descriptor (h : Owned s owner block descriptor) (hblock : block c = some p) :
    ∃ clientSock, descriptor c = some clientSock := by
  rcases Nat.lt_trichotomy c s.created with hlt | heq | hgt
  · have hholds := h.threads c hlt
    rw [hblock] at hholds
    cases hpc : s.thread c with
    | loading arg =>
        rw [hpc] at hholds
        exact hholds.2
    | freeing arg clientSock =>
        rw [hpc] at hholds
        exact ⟨clientSock, hholds.2⟩
    | absent => simp [ThreadPc.Holds, hpc] at hholds
    | reading clientSock => simp [ThreadPc.Holds, hpc] at hholds
    | writing clientSock request => simp [ThreadPc.Holds, hpc] at hholds
    | closing clientSock => simp [ThreadPc.Holds, hpc] at hholds
    | returned => simp [ThreadPc.Holds, hpc] at hholds
  · have hholds := h.main
    rw [← heq, hblock] at hholds
    cases hpc : s.main with
    | creating clientSock pclient =>
        rw [hpc] at hholds
        exact ⟨clientSock, hholds.2⟩
    | accepting => simp [MainPc.Holds, hpc] at hholds
    | allocating clientSock => simp [MainPc.Holds, hpc] at hholds
    | dead => simp [MainPc.Holds, hpc] at hholds
  · rw [(h.later c hgt).1] at hblock
    cases hblock

/-- A block that is not allocated has no owner. -/
theorem Owned.owner_eq_none (h : Owned s owner block descriptor) (hfree : s.heap p = none) :
    owner p = none := by
  cases howner : owner p with
  | none => rfl
  | some c =>
      have ⟨clientSock, hdescriptor⟩ := h.exists_descriptor ((h.blocks p c).mp howner)
      rw [h.heap p, howner, Option.bind_some, hdescriptor] at hfree
      cases hfree

/-- The block of a client holds its descriptor. -/
theorem Owned.heap_block (h : Owned s owner block descriptor) (hblock : block c = some p) :
    s.heap p = descriptor c := by
  rw [h.heap p, (h.blocks p c).mpr hblock, Option.bind_some]

/-- The blocks have nothing of a client without one. -/
theorem Owned.heap_update (h : Owned s owner block descriptor) (hblock : block c = none)
    (d : Option Nat) (q : Nat) : s.heap q = (owner q).bind (Function.update descriptor c d) := by
  rw [h.heap q]
  cases howner : owner q with
  | none => rfl
  | some i =>
      have hi : i ≠ c := by
        intro hself
        have hheld := (h.blocks q i).mp howner
        rw [hself, hblock] at hheld
        cases hheld
      rw [Option.bind_some, Option.bind_some, Function.update_of_ne hi]

/-- A thread goes on with what is its own. -/
theorem Owned.goto {pc : ThreadPc} {fds heap owner' block' descriptor' : Nat → Option Nat}
    {conn : Nat → Conn} (h : Owned s owner block descriptor) (ht : t < s.created)
    (hfds : Owns fds descriptor') (hblocks : Owns owner' block')
    (hheap : ∀ p, heap p = (owner' p).bind descriptor')
    (hother : ∀ c, c ≠ t → block' c = block c ∧ descriptor' c = descriptor c ∧ conn c = s.conn c)
    (hholds : pc.Holds (block' t) (descriptor' t)) (hserves : pc.Serves (conn t)) :
    Owned { s.goto t pc with fds := fds, heap := heap, conn := conn } owner' block'
      descriptor' where
  fds := hfds
  blocks := hblocks
  heap := hheap
  threads c hc := by
    show (Function.update s.thread t pc c).Holds (block' c) (descriptor' c)
    by_cases hct : c = t
    · rw [hct, Function.update_self]
      exact hholds
    · have ⟨hblock, hdescriptor, _⟩ := hother c hct
      rw [Function.update_of_ne hct, hblock, hdescriptor]
      exact h.threads c hc
  main := by
    have ⟨hblock, hdescriptor, _⟩ := hother s.created (Nat.ne_of_gt ht)
    show s.main.Holds (block' s.created) (descriptor' s.created)
    rw [hblock, hdescriptor]
    exact h.main
  later c hc := by
    have hlater : s.created < c := hc
    have ⟨hblock, hdescriptor, _⟩ := hother c (Nat.ne_of_gt (ht.trans hlater))
    rw [hblock, hdescriptor]
    exact h.later c hlater
  absent c hc := by
    have hlater : s.created ≤ c := hc
    show Function.update s.thread t pc c = .absent
    rw [Function.update_of_ne (Nat.ne_of_gt (Nat.lt_of_lt_of_le ht hlater))]
    exact h.absent c hlater
  serves c hc := by
    show (Function.update s.thread t pc c).Serves (conn c)
    by_cases hct : c = t
    · rw [hct, Function.update_self]
      exact hserves
    · have ⟨_, _, hconn⟩ := hother c hct
      rw [Function.update_of_ne hct, hconn]
      exact h.serves c hc
  unserved c hc := by
    have hlater : s.created ≤ c := hc
    have ⟨_, _, hconn⟩ := hother c (Nat.ne_of_gt (Nat.lt_of_lt_of_le ht hlater))
    show conn c = _
    rw [hconn]
    exact h.unserved c hlater

/-! ## One step -/

theorem Owned.accept (h : Owned s owner block descriptor) (hmain : s.main = .accepting)
    (hs : s.accept (some clientSock) = some s') : Inv s' := by
  rw [Sys.accept, Option.ite_none_right_eq_some] at hs
  have ⟨hclosed, heq⟩ := hs
  have ⟨hblock, hdescriptor⟩ : block s.created = none ∧ descriptor s.created = none := by
    have hholds := h.main
    rwa [hmain] at hholds
  cases heq
  refine ⟨owner, block, Function.update descriptor s.created (some clientSock), ?_⟩
  have hne : ∀ c, c ≠ s.created →
      Function.update descriptor s.created (some clientSock) c = descriptor c :=
    fun c hc => Function.update_of_ne hc ..
  exact
    { fds := h.fds.acquire hclosed hdescriptor
      blocks := h.blocks
      heap := h.heap_update hblock (some clientSock)
      threads := fun t ht => by
        rw [hne t (Nat.ne_of_lt ht)]
        exact h.threads t ht
      main := ⟨hblock, Function.update_self ..⟩
      later := fun c hc => by
        rw [hne c (Nat.ne_of_gt hc)]
        exact h.later c hc
      absent := h.absent
      serves := h.serves
      unserved := h.unserved }

theorem Owned.malloc (h : Owned s owner block descriptor) (hmain : s.main = .allocating clientSock)
    (hs : s.malloc clientSock (some p) = some s') : Inv s' := by
  rw [Sys.malloc, Option.ite_none_right_eq_some] at hs
  have ⟨hfree, heq⟩ := hs
  have ⟨hblock, hdescriptor⟩ : block s.created = none ∧ descriptor s.created = some clientSock := by
    have hholds := h.main
    rwa [hmain] at hholds
  have hne : ∀ c, c ≠ s.created → Function.update block s.created (some p) c = block c :=
    fun c hc => Function.update_of_ne hc ..
  cases heq
  refine ⟨Function.update owner p (some s.created), Function.update block s.created (some p),
    descriptor, ?_⟩
  exact
    { fds := h.fds
      blocks := h.blocks.acquire (h.owner_eq_none hfree) hblock
      heap := fun q => by
        show Function.update s.heap p (some clientSock) q = _
        by_cases hq : q = p
        · rw [hq, Function.update_self, Function.update_self, Option.bind_some, hdescriptor]
        · rw [Function.update_of_ne hq, Function.update_of_ne hq]
          exact h.heap q
      threads := fun t ht => by
        rw [hne t (Nat.ne_of_lt ht)]
        exact h.threads t ht
      main := ⟨Function.update_self .., hdescriptor⟩
      later := fun c hc => by
        rw [hne c (Nat.ne_of_gt hc)]
        exact h.later c hc
      absent := h.absent
      serves := h.serves
      unserved := h.unserved }

theorem Owned.create (h : Owned s owner block descriptor)
    (hmain : s.main = .creating clientSock p) : Inv (s.create p true) := by
  have ⟨hblock, hdescriptor⟩ :
      block s.created = some p ∧ descriptor s.created = some clientSock := by
    have hholds := h.main
    rwa [hmain] at hholds
  refine ⟨owner, block, descriptor, ?_⟩
  exact
    { fds := h.fds
      blocks := h.blocks
      heap := h.heap
      threads := fun t ht => by
        show (Function.update s.thread s.created (.loading p) t).Holds _ _
        by_cases hself : t = s.created
        · rw [hself, Function.update_self]
          exact ⟨hblock, clientSock, hdescriptor⟩
        · rw [Function.update_of_ne hself]
          have hle : t < s.created + 1 := ht
          exact h.threads t (by omega)
      main := h.later (s.created + 1) (Nat.lt_succ_self _)
      later := fun c hc => h.later c (Nat.lt_of_succ_lt hc)
      absent := fun c hc => by
        have hlater : s.created < c := hc
        show Function.update s.thread s.created (.loading p) c = .absent
        rw [Function.update_of_ne (Nat.ne_of_gt hlater)]
        exact h.absent c hlater.le
      serves := fun t ht => by
        show (Function.update s.thread s.created (.loading p) t).Serves (s.conn t)
        by_cases hself : t = s.created
        · rw [hself, Function.update_self]
          exact h.unserved s.created (Nat.le_refl _)
        · rw [Function.update_of_ne hself]
          have hle : t < s.created + 1 := ht
          exact h.serves t (by omega)
      unserved := fun c hc => h.unserved c (Nat.le_of_succ_le hc) }

theorem Owned.load {arg : Nat} (h : Owned s owner block descriptor) (ht : t < s.created)
    (hpc : s.thread t = .loading arg) : Inv (s.load t arg) := by
  have ⟨hblock, clientSock, hdescriptor⟩ :
      block t = some arg ∧ ∃ clientSock, descriptor t = some clientSock := by
    have hholds := h.threads t ht
    rwa [hpc] at hholds
  have hserves := h.serves t ht
  rw [hpc] at hserves
  have hheap : s.heap arg = some clientSock := (h.heap_block hblock).trans hdescriptor
  rw [Sys.load, hheap]
  exact ⟨owner, block, descriptor,
    h.goto ht h.fds h.blocks h.heap (fun _ _ => ⟨rfl, rfl, rfl⟩) ⟨hblock, hdescriptor⟩ hserves⟩

theorem Owned.free {arg : Nat} (h : Owned s owner block descriptor) (ht : t < s.created)
    (hpc : s.thread t = .freeing arg clientSock) : Inv (s.free t arg clientSock) := by
  have ⟨hblock, hdescriptor⟩ : block t = some arg ∧ descriptor t = some clientSock := by
    have hholds := h.threads t ht
    rwa [hpc] at hholds
  have hserves := h.serves t ht
  rw [hpc] at hserves
  have hheap : s.heap arg ≠ none := by
    rw [h.heap_block hblock, hdescriptor]
    exact Option.some_ne_none _
  rw [Sys.free, if_neg hheap]
  refine ⟨Function.update owner arg none, Function.update block t none, descriptor,
    h.goto ht h.fds (h.blocks.release hblock) (fun q => ?_)
      (fun c hc => ⟨Function.update_of_ne hc .., rfl, rfl⟩)
      ⟨Function.update_self .., hdescriptor⟩ hserves⟩
  by_cases hq : q = arg
  · rw [hq, Function.update_self, Function.update_self, Option.bind_none]
  · rw [Function.update_of_ne hq, Function.update_of_ne hq]
    exact h.heap q

theorem Owned.read {request : Bytes} (h : Owned s owner block descriptor) (ht : t < s.created)
    (hpc : s.thread t = .reading clientSock) (hshort : request.length < bufSize) :
    Inv (s.read t clientSock (some request)) := by
  have ⟨hblock, hdescriptor⟩ : block t = none ∧ descriptor t = some clientSock := by
    have hholds := h.threads t ht
    rwa [hpc] at hholds
  have hserves : s.conn t = ⟨none, none⟩ := by
    have hserves := h.serves t ht
    rwa [hpc] at hserves
  have hfd : s.fds clientSock = some t := (h.fds clientSock t).mpr hdescriptor
  simp only [Sys.read, hfd, if_pos hshort]
  refine ⟨owner, block, descriptor, h.goto ht h.fds h.blocks h.heap
    (fun c hc => ⟨rfl, rfl, Function.update_of_ne hc ..⟩) ⟨hblock, hdescriptor⟩ ?_⟩
  rw [Function.update_self, hserves]
  rfl

theorem Owned.write {request : Bytes} {n : Nat} (h : Owned s owner block descriptor)
    (ht : t < s.created) (hpc : s.thread t = .writing clientSock request)
    (hs : s.write t clientSock request (some n) = some s') : Inv s' := by
  have ⟨hblock, hdescriptor⟩ : block t = none ∧ descriptor t = some clientSock := by
    have hholds := h.threads t ht
    rwa [hpc] at hholds
  have hserves : s.conn t = ⟨some request, none⟩ := by
    have hserves := h.serves t ht
    rwa [hpc] at hserves
  have hfd : s.fds clientSock = some t := (h.fds clientSock t).mpr hdescriptor
  simp only [Sys.write, hfd, Option.ite_none_right_eq_some] at hs
  cases hs.2
  refine ⟨owner, block, descriptor, h.goto ht h.fds h.blocks h.heap
    (fun c hc => ⟨rfl, rfl, Function.update_of_ne hc ..⟩) ⟨hblock, hdescriptor⟩ ?_⟩
  intro answer hanswer
  rw [Function.update_self] at hanswer ⊢
  cases hanswer
  exact ⟨request, by rw [hserves], List.take_prefix _ _⟩

theorem Owned.close (h : Owned s owner block descriptor) (ht : t < s.created)
    (hpc : s.thread t = .closing clientSock) : Inv (s.close t clientSock) := by
  have ⟨hblock, hdescriptor⟩ : block t = none ∧ descriptor t = some clientSock := by
    have hholds := h.threads t ht
    rwa [hpc] at hholds
  have hserves := h.serves t ht
  rw [hpc] at hserves
  exact ⟨owner, block, Function.update descriptor t none,
    h.goto ht (h.fds.release hdescriptor) h.blocks (h.heap_update hblock none)
      (fun c hc => ⟨rfl, Function.update_of_ne hc .., rfl⟩)
      ⟨hblock, Function.update_self ..⟩ hserves⟩

/-- A thread that does something has been created. -/
theorem Owned.lt_created (h : Owned s owner block descriptor) (hpc : s.thread t ≠ .absent) :
    t < s.created := by
  by_contra hnot
  exact hpc (h.absent t (Nat.not_lt.mp hnot))

theorem inv_threadStep (h : Owned s owner block descriptor) (hok : CallOk s a)
    (hs : threadStep s a = some s') : Inv s' := by
  have hlt : ∀ {t pc}, s.thread t = pc → pc ≠ .absent → t < s.created :=
    fun hpc hne => h.lt_created (fun habsent => hne (hpc.symm.trans habsent))
  unfold threadStep at hs
  split at hs
  · split at hs
    · rename_i hpc
      exact Option.some.inj hs ▸ h.load (hlt hpc nofun) hpc
    · cases hs
  · split at hs
    · rename_i hpc
      exact Option.some.inj hs ▸ h.free (hlt hpc nofun) hpc
    · cases hs
  · rename_i t got
    split at hs
    · rename_i hpc
      cases got with
      | none => exact absurd hok id
      | some request => exact Option.some.inj hs ▸ h.read (hlt hpc nofun) hpc hok
    · cases hs
  · rename_i t written
    split at hs
    · rename_i hpc
      cases written with
      | none => exact absurd rfl hok
      | some n => exact h.write (hlt hpc nofun) hpc hs
    · cases hs
  · split at hs
    · rename_i hpc
      exact Option.some.inj hs ▸ h.close (hlt hpc nofun) hpc
    · cases hs
  · cases hs

theorem inv_step (h : Inv s) (hok : CallOk s a) (hs : step s a = some s') : Inv s' := by
  have ⟨owner, block, descriptor, howned⟩ := h
  unfold step at hs
  split at hs
  · cases hs
  · rename_i accepted hmain
    cases accepted with
    | none => exact Option.some.inj hs ▸ h
    | some clientSock => exact howned.accept hmain hs
  · rename_i pclient hmain
    cases pclient with
    | none => exact absurd rfl hok
    | some p => exact howned.malloc hmain hs
  · rename_i ok hmain
    have hcreated : ok = true := hok
    rw [hcreated] at hs
    exact Option.some.inj hs ▸ howned.create hmain
  · exact inv_threadStep howned hok hs

/-! ## Runs -/

theorem ThreadPc.Holds.descriptor_eq {pc : ThreadPc} {block descriptor : Option Nat}
    (h : pc.Holds block descriptor) (hsock : pc.clientSock = some clientSock) :
    descriptor = some clientSock := by
  cases pc with
  | absent => cases hsock
  | loading arg => cases hsock
  | returned => cases hsock
  | _ =>
      cases hsock
      exact h.2

theorem ThreadPc.Serves.echoed {pc : ThreadPc} {conn : Conn} (h : pc.Serves conn) :
    conn.Echoed := by
  cases pc with
  | closing clientSock => exact h
  | returned => exact h
  | _ =>
      intro answer hanswer
      rw [show conn = _ from h] at hanswer
      cases hanswer

theorem Owned.echoed (h : Owned s owner block descriptor) (c : Nat) : (s.conn c).Echoed := by
  by_cases hc : c < s.created
  · exact (h.serves c hc).echoed
  · rw [h.unserved c (Nat.not_lt.mp hc)]
    exact nofun

/-- Behind the last thread nobody has a block or a descriptor. -/
theorem Owned.released (h : Owned s owner block descriptor) (hmain : s.main = .accepting)
    (hall : ∀ t < s.created, s.thread t = .returned) (c : Nat) :
    block c = none ∧ descriptor c = none := by
  rcases Nat.lt_trichotomy c s.created with hlt | heq | hgt
  · have hholds := h.threads c hlt
    rwa [hall c hlt] at hholds
  · have hholds := h.main
    rw [hmain] at hholds
    exact heq ▸ hholds
  · exact h.later c hgt

/-- **Each thread has what is its own**, in every interleaving: the block that it loads from is
allocated and holds the descriptor of its client, and the descriptor that it works with is open
and that of its client; behind a thread that has returned nothing of its client is open, and
behind the last one no descriptor is open and no block allocated.  Each client gets the start of
what it has sent. -/
theorem threads_own (hok : Admitted step CallOk Sys.init as)
    (hrun : run step Sys.init as = some s) :
    s.main ≠ .dead ∧
    (∀ t arg, s.thread t = .loading arg →
      ∃ clientSock, s.heap arg = some clientSock ∧ s.fds clientSock = some t) ∧
    (∀ t clientSock, (s.thread t).clientSock = some clientSock → s.fds clientSock = some t) ∧
    (∀ t clientSock, s.thread t = .returned → s.fds clientSock ≠ some t) ∧
    (s.main = .accepting → (∀ t < s.created, s.thread t = .returned) →
      ∀ n, s.fds n = none ∧ s.heap n = none) ∧
    (∀ c answer, (s.conn c).answer = some answer →
      ∃ request, (s.conn c).request = some request ∧ answer <+: request) := by
  have hinv : Inv s := (Reach.of_admitted hok hrun).keeps inv_init
    (fun _ _ _ hinv hcall hs => inv_step hinv hcall hs)
  have ⟨owner, block, descriptor, h⟩ := hinv
  refine ⟨h.alive, fun t arg hpc => ?_, fun t clientSock hsock => ?_,
    fun t clientSock hpc hfd => ?_, fun hmain hall n => ?_, fun c => ?_⟩
  · have hlt : t < s.created := h.lt_created (by rw [hpc]; exact nofun)
    have hholds := h.threads t hlt
    rw [hpc] at hholds
    have ⟨hblock, clientSock, hdescriptor⟩ := hholds
    exact ⟨clientSock, (h.heap_block hblock).trans hdescriptor,
      (h.fds clientSock t).mpr hdescriptor⟩
  · have hlt : t < s.created := h.lt_created (fun hpc => by rw [hpc] at hsock; cases hsock)
    exact (h.fds clientSock t).mpr ((h.threads t hlt).descriptor_eq hsock)
  · have hlt : t < s.created := h.lt_created (by rw [hpc]; exact nofun)
    have hholds := h.threads t hlt
    rw [hpc] at hholds
    have hdescriptor := (h.fds clientSock t).mp hfd
    rw [hholds.2] at hdescriptor
    cases hdescriptor
  · have hnone := h.released hmain hall
    have howner := h.blocks.eq_none (fun c => (hnone c).1) n
    refine ⟨h.fds.eq_none (fun c => (hnone c).2) n, ?_⟩
    rw [h.heap n, howner, Option.bind_none]
  · exact h.echoed c

/-- Two clients one after the other, with the same descriptor and the same block. -/
def reused : List Act :=
  [.accept (some 4), .malloc (some 32), .create true, .load 0, .free 0, .read 0 (some [104, 105]),
    .write 0 (some 2), .close 0, .accept (some 4), .malloc (some 32), .create true]

theorem threads_own_reused :
    ∃ s, run step Sys.init reused = some s ∧ s.thread 0 = .returned ∧
      (s.conn 0).answer = some [104, 105] ∧ s.heap 32 = some 4 ∧ s.fds 4 = some 1 := by
  have hsome : (run (guarded step CallOk) Sys.init reused).map
      (fun s => (s.thread 0, s.thread 1, (s.conn 0).answer)) =
        some (.returned, .loading 32, some [104, 105]) := by decide
  have ⟨s, hguarded, heq⟩ := Option.map_eq_some_iff.mp hsome
  have ⟨hfirst, hrest⟩ := Prod.mk.inj heq
  have ⟨hsecond, hanswer⟩ := Prod.mk.inj hrest
  have hrun := run_of_guarded hguarded
  have ⟨_, hload, _⟩ := threads_own (.of_guarded hguarded) hrun
  have ⟨clientSock, hheap, hfds⟩ := hload 1 32 hsecond
  have hcontents : (run step Sys.init reused).map (fun s => s.heap 32) = some (some 4) := by decide
  rw [hrun, Option.map_some] at hcontents
  have hfour := Option.some.inj hcontents
  have hsock : clientSock = 4 := Option.some.inj (hheap.symm.trans hfour)
  rw [hsock] at hfds
  exact ⟨s, hrun, hfirst, hanswer, hfour, hfds⟩

end SystemsInC.Ports.ThreadServer
