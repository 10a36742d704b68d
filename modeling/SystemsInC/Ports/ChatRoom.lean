import SystemsInC.Verified.CString
import SystemsInC.Verified.GuardedRuns
import SystemsInC.Verified.SlotTable

/-!
# The select loop of the chat server

`multi-client-chat-server/server.c`, one step for each round of its main loop: the
set-up of `select`, at most one `accept`, then the slots of `client_fd` in order.
What the kernel does in a round (which descriptors are ready, what `accept` and the
calls of `read` return) is the action.

Two things are weaker than they look.  A chunk is sent with `strlen`, so a NUL in it
cuts it (`broadcasts_iff`).  And a connection that is accepted while no slot is free
stays open but is in no slot, so it is never watched (`tracked_iff`).
-/

namespace SystemsInC.Ports.ChatRoom

open SystemsInC.Verified.CString
open SystemsInC.Verified.GuardedRuns
open SystemsInC.Verified.SlotTable

/-- `MAX_USERS`. -/
def maxUsers : Nat := 10

/-- `MSG_BUF_SIZE`. -/
def msgBufSize : Nat := 1024

/-! ## The server -/

/-- A connection: its descriptor, and which `accept` returned it. -/
structure Client where
  fd : Int
  number : Nat
  deriving DecidableEq

/-- A chunk that was read, the other clients in the table at that moment, and the calls of
`send` that it leads to. -/
structure Delivery where
  sender : Client
  chunk : Bytes
  others : List Client
  sends : List (Client × Bytes)

structure Server where
  clientFd : Fin maxUsers → Int
  /-- the descriptors that `accept` has returned and the server has not closed -/
  opened : Finset Int
  accepted : Nat
  /-- the `accept` that last returned a descriptor -/
  number : Int → Nat
  greeted : List (Client × String)
  deliveries : List Delivery

def Server.init : Server :=
  { clientFd := fun _ => -1
    opened := ∅
    accepted := 0
    number := fun _ => 0
    greeted := []
    deliveries := [] }

def Server.client (s : Server) (fd : Int) : Client := ⟨fd, s.number fd⟩

/-! ## A round -/

/-- What `accept` returns. -/
inductive Accept
  | connection (fd : Int)
  | error

/-- What `read` returns: bytes, or 0 or -1. -/
inductive Read
  | data (chunk : Bytes)
  | ended

structure Round where
  /-- the descriptors that `select` leaves in `active_fds` -/
  ready : Finset Int
  accept : Accept
  /-- the answer to the `read` in each slot -/
  reads : Fin maxUsers → Read

variable {listenFd : Int}

/-- `max_fd`, which starts as the listening socket. -/
def Server.maxFd (listenFd : Int) (s : Server) : Int :=
  (List.finRange maxUsers).foldl
    (fun m i => if s.clientFd i > m then s.clientFd i else m) listenFd

/-- `select` looks at the descriptor. -/
def Server.Watched (listenFd : Int) (s : Server) (fd : Int) : Prop :=
  fd < s.maxFd listenFd + 1 ∧ (fd = listenFd ∨ 0 < fd ∧ ∃ i, s.clientFd i = fd)

instance (s : Server) (fd : Int) : Decidable (s.Watched listenFd fd) := by
  unfold Server.Watched
  infer_instance

/-- `accept` returns a positive descriptor that is not open. -/
def Accept.Fresh (listenFd : Int) (opened : Finset Int) : Accept → Prop
  | .connection fd => 0 < fd ∧ fd ≠ listenFd ∧ fd ∉ opened
  | .error => True

/-- `read` returns at most `sizeof(msg_buf) - 1` bytes. -/
def Read.Fits : Read → Prop
  | .data chunk => 0 < chunk.length ∧ chunk.length ≤ msgBufSize - 1
  | .ended => True

instance (opened : Finset Int) (a : Accept) : Decidable (a.Fresh listenFd opened) := by
  cases a <;> unfold Accept.Fresh <;> infer_instance

instance (r : Read) : Decidable r.Fits := by
  cases r <;> unfold Read.Fits <;> infer_instance

/-- What the kernel may do in a round. -/
def Possible (listenFd : Int) (s : Server) (r : Round) : Prop :=
  (∀ fd ∈ r.ready, s.Watched listenFd fd) ∧ r.accept.Fresh listenFd s.opened ∧
    ∀ i, (r.reads i).Fits

instance (s : Server) (r : Round) : Decidable (Possible listenFd s r) := by
  unfold Possible
  infer_instance

def greet : String := "Hello! Welcome to the chat room.\n"

/-- The rest of the `accept` branch for a new descriptor. -/
def Server.join (s : Server) (fd : Int) : Server :=
  { s with
    clientFd := store (-1) s.clientFd fd
    opened := insert fd s.opened
    accepted := s.accepted + 1
    number := Function.update s.number fd s.accepted
    greeted := s.greeted ++ [(⟨fd, s.accepted⟩, greet)] }

/-- `close(fd); client_fd[i] = -1`. -/
def Server.leave (s : Server) (i : Fin maxUsers) : Server :=
  { s with
    clientFd := release (-1) s.clientFd i
    opened := s.opened.erase (s.clientFd i) }

/-- The clients in the slots that a condition picks. -/
def Server.clients (s : Server) (pick : Fin maxUsers → Bool) : List Client :=
  ((List.finRange maxUsers).filter pick).map (fun j => s.client (s.clientFd j))

/-- The chunk with a NUL behind it is in `msg_buf`, and `strlen(msg_buf)` bytes of it go to each
slot whose descriptor is neither -1 nor the sender's. -/
def Server.broadcast (s : Server) (i : Fin maxUsers) (chunk : Bytes) : Server :=
  let fd := s.clientFd i
  let msgBuf := chunk ++ [0]
  let receivers := s.clients (fun j => s.clientFd j != -1 && s.clientFd j != fd)
  { s with
    deliveries := s.deliveries ++
      [{ sender := s.client fd
         chunk := chunk
         others := s.clients (fun j => s.clientFd j != -1 && j != i)
         sends := receivers.map (fun client => (client, cstr msgBuf)) }] }

/-- The body of the loop over the slots. -/
def Server.handleSlot (r : Round) (s : Server) (i : Fin maxUsers) : Server :=
  if 0 < s.clientFd i ∧ s.clientFd i ∈ r.ready then
    match r.reads i with
    | .ended => s.leave i
    | .data chunk => s.broadcast i chunk
  else
    s

def Server.handleSlots (r : Round) (s : Server) : Server :=
  (List.finRange maxUsers).foldl (Server.handleSlot r) s

/-- The round behind `select`; after a failed `accept` it is over. -/
def Server.round (listenFd : Int) (s : Server) (r : Round) : Server :=
  if listenFd ∈ r.ready then
    match r.accept with
    | .error => s
    | .connection fd => (s.join fd).handleSlots r
  else
    s.handleSlots r

def step (listenFd : Int) (s : Server) (r : Round) : Option Server :=
  if Possible listenFd s r then some (s.round listenFd r) else none

/-- The states at the end of the rounds. -/
def Reachable (listenFd : Int) (s : Server) : Prop :=
  Reach (step listenFd) (fun _ _ => True) Server.init s

/-! ## The table of clients -/

variable {s s' : Server} {r : Round} {i : Fin maxUsers}

/-- The slots hold open descriptors, each in one slot; these are positive and the listening
socket is none of them. -/
structure Table (listenFd : Int) (s : Server) : Prop where
  holds : Holds (-1) s.clientFd s.opened
  pos : ∀ fd ∈ s.opened, 0 < fd
  listen : listenFd ∉ s.opened

theorem Table.init : Table listenFd Server.init where
  holds := .empty
  pos _ h := absurd h (Finset.notMem_empty _)
  listen := Finset.notMem_empty _

theorem Table.join {fd : Int} (h : Table listenFd s) (hpos : 0 < fd) (hlisten : fd ≠ listenFd)
    (hnew : fd ∉ s.opened) : Table listenFd (s.join fd) where
  holds := h.holds.store hnew (by omega)
  pos fd' hfd' := by
    rcases Finset.mem_insert.mp hfd' with rfl | hold
    · exact hpos
    · exact h.pos fd' hold
  listen hmem := by
    rcases Finset.mem_insert.mp hmem with heq | hold
    · exact hlisten heq.symm
    · exact h.listen hold

theorem Table.leave (h : Table listenFd s) (i : Fin maxUsers) : Table listenFd (s.leave i) where
  holds := h.holds.release
  pos fd hfd := h.pos fd (Finset.mem_of_mem_erase hfd)
  listen hmem := h.listen (Finset.mem_of_mem_erase hmem)

/-! ### What a round keeps -/

/-- What leaving and broadcasting keep, the loop over the slots keeps. -/
theorem handleSlots_keeps {P : Server → Prop}
    (hleave : ∀ s i, P s → 0 < s.clientFd i → P (s.leave i))
    (hbroadcast : ∀ s i chunk, P s → 0 < s.clientFd i → r.reads i = .data chunk →
      P (s.broadcast i chunk)) (h : P s) : P (s.handleSlots r) := by
  unfold Server.handleSlots
  induction List.finRange maxUsers generalizing s with
  | nil => exact h
  | cons i slots ih =>
      rw [List.foldl_cons]
      apply ih
      unfold Server.handleSlot
      split
      · rename_i hready
        split
        · exact hleave s i h hready.1
        · rename_i chunk hread
          exact hbroadcast s i chunk h hready.1 hread
      · exact h

theorem Table.broadcast (h : Table listenFd s) (i : Fin maxUsers) (chunk : Bytes) :
    Table listenFd (s.broadcast i chunk) :=
  ⟨h.holds, h.pos, h.listen⟩

theorem Table.handleSlots (h : Table listenFd s) (r : Round) : Table listenFd (s.handleSlots r) :=
  handleSlots_keeps (fun _ i h _ => h.leave i) (fun _ i chunk h _ _ => h.broadcast i chunk) h

/-- A round with a failed `accept` does nothing, one without `accept` handles the slots, and any
other one puts a new client into the table first. -/
theorem round_cases (hs : step listenFd s r = some s') :
    (r.accept = .error ∧ s' = s) ∨ (listenFd ∉ r.ready ∧ s' = s.handleSlots r) ∨
      ∃ fd, listenFd ∈ r.ready ∧ r.accept = .connection fd ∧
        (0 < fd ∧ fd ≠ listenFd ∧ fd ∉ s.opened) ∧ s' = (s.join fd).handleSlots r := by
  rw [step, Option.ite_none_right_eq_some] at hs
  have ⟨⟨_, hfresh, _⟩, heq⟩ := hs
  have hround := Option.some.inj heq
  unfold Server.round at hround
  by_cases hlisten : listenFd ∈ r.ready
  · rw [if_pos hlisten] at hround
    cases haccept : r.accept with
    | error =>
        rw [haccept] at hround
        exact .inl ⟨rfl, hround.symm⟩
    | connection fd =>
        rw [haccept] at hround hfresh
        exact .inr (.inr ⟨fd, hlisten, rfl, hfresh, hround.symm⟩)
  · rw [if_neg hlisten] at hround
    exact .inr (.inl ⟨hlisten, hround.symm⟩)

theorem table_step (h : Table listenFd s) (hs : step listenFd s r = some s') :
    Table listenFd s' := by
  rcases round_cases hs with ⟨-, rfl⟩ | ⟨-, rfl⟩ | ⟨fd, -, -, ⟨hpos, hlisten, hnew⟩, rfl⟩
  · exact h
  · exact h.handleSlots r
  · exact (h.join hpos hlisten hnew).handleSlots r

theorem Reachable.table (h : Reachable listenFd s) : Table listenFd s :=
  h.keeps .init (fun _ _ _ htable _ hs => table_step htable hs)

/-! ## No connection is forgotten -/

/-- The table and the open descriptors are the same, and `select` looks at all of them. -/
structure Tracked (listenFd : Int) (s : Server) : Prop where
  inSlot : ∀ fd ∈ s.opened, ∃! i, s.clientFd i = fd
  isOpen : ∀ i, s.clientFd i ≠ -1 → s.clientFd i ∈ s.opened
  watched : ∀ fd ∈ s.opened, s.Watched listenFd fd

/-- If the round accepts a client, there is a slot for it. -/
def RoomForClient (listenFd : Int) (s : Server) (r : Round) : Prop :=
  listenFd ∈ r.ready → ∀ fd, r.accept = .connection fd → ¬ Full (-1) s.clientFd

/-- `max_fd` is no less than any of the descriptors. -/
theorem le_maxFd (listenFd : Int) (s : Server) (i : Fin maxUsers) : s.clientFd i ≤ s.maxFd listenFd := by
  have hfold : ∀ (slots : List (Fin maxUsers)) (m : Int),
      m ≤ slots.foldl (fun m i => if s.clientFd i > m then s.clientFd i else m) m ∧
        ∀ i ∈ slots, s.clientFd i ≤
          slots.foldl (fun m i => if s.clientFd i > m then s.clientFd i else m) m := by
    intro slots
    induction slots with
    | nil => exact fun m => ⟨Int.le_refl m, by simp⟩
    | cons j slots ih =>
        intro m
        have ⟨hle, hmem⟩ := ih (if s.clientFd j > m then s.clientFd j else m)
        have hstep : m ≤ (if s.clientFd j > m then s.clientFd j else m) ∧
            s.clientFd j ≤ (if s.clientFd j > m then s.clientFd j else m) := by
          split <;> omega
        rw [List.foldl_cons]
        refine ⟨Int.le_trans hstep.1 hle, fun i hi => ?_⟩
        rcases List.mem_cons.mp hi with rfl | hi
        · exact Int.le_trans hstep.2 hle
        · exact hmem i hi
  exact (hfold (List.finRange maxUsers) listenFd).2 i (List.mem_finRange i)

theorem Table.tracked (h : Table listenFd s) (hcovers : Covers s.clientFd s.opened) :
    Tracked listenFd s where
  inSlot fd hfd := h.holds.existsUnique hcovers hfd
  isOpen := h.holds.mem
  watched fd hfd := by
    have ⟨i, hi⟩ := hcovers fd hfd
    have hle := le_maxFd listenFd s i
    exact ⟨by omega, .inr ⟨h.pos fd hfd, i, hi⟩⟩

theorem covers_handleSlots (h : Covers s.clientFd s.opened) (r : Round) :
    Covers (s.handleSlots r).clientFd (s.handleSlots r).opened :=
  handleSlots_keeps (P := fun s => Covers s.clientFd s.opened) (fun _ _ h _ => h.release)
    (fun _ _ _ h _ _ => h) h

/-- With a slot for each new client no connection gets lost. -/
theorem covers_step (htable : Table listenFd s) (h : Covers s.clientFd s.opened)
    (hroom : RoomForClient listenFd s r) (hs : step listenFd s r = some s') :
    Covers s'.clientFd s'.opened := by
  rcases round_cases hs with ⟨-, rfl⟩ | ⟨-, rfl⟩ | ⟨fd, hlisten, haccept, -, rfl⟩
  · exact h
  · exact covers_handleSlots h r
  · exact covers_handleSlots (h.store htable.holds (hroom hlisten fd haccept) fd) r

/-- The descriptor is open and in no slot. -/
def Forgotten (fd : Int) (s : Server) : Prop := fd ∈ s.opened ∧ ∀ i, s.clientFd i ≠ fd

theorem forgotten_handleSlots {fd : Int} (hpos : 0 < fd) (h : Forgotten fd s) (r : Round) :
    Forgotten fd (s.handleSlots r) := by
  refine handleSlots_keeps (P := Forgotten fd) ?_ (fun _ _ _ h _ _ => h) h
  intro s i h _
  exact ⟨Finset.mem_erase.mpr ⟨(h.2 i).symm, h.1⟩, release_ne (by omega) h.2⟩

/-- A client that finds no slot is forgotten by the end of the round. -/
theorem forgotten_step (htable : Table listenFd s) (hroom : ¬ RoomForClient listenFd s r)
    (hs : step listenFd s r = some s') : ∃ fd, Forgotten fd s' := by
  have ⟨hlisten, hrest⟩ := Classical.not_imp.mp hroom
  have ⟨fd, hfd⟩ := not_forall.mp hrest
  have ⟨haccept, hnot⟩ := Classical.not_imp.mp hfd
  have hfull : Full (-1) s.clientFd := not_not.mp hnot
  rcases round_cases hs with
    ⟨herror, -⟩ | ⟨hnone, -⟩ | ⟨fd', -, haccept', ⟨hpos, -, hnew⟩, rfl⟩
  · rw [haccept] at herror
    cases herror
  · exact absurd hlisten hnone
  · rw [haccept] at haccept'
    cases haccept'
    refine ⟨fd, forgotten_handleSlots hpos ⟨Finset.mem_insert_self _ _, ?_⟩ r⟩
    exact htable.holds.not_stored hfull hnew (by omega)

theorem Forgotten.not_tracked {fd : Int} (h : Forgotten fd s) : ¬ Tracked listenFd s := by
  intro htracked
  have ⟨i, hi, _⟩ := htracked.inSlot fd h.1
  exact h.2 i hi

/-- **No connection is forgotten** at the end of any round of a run, if and only if each
client that the run accepts finds a free slot. -/
theorem tracked_iff {rounds : List Round} (hrun : run (step listenFd) Server.init rounds = some s) :
    (∀ pre s₁, pre <+: rounds → run (step listenFd) Server.init pre = some s₁ →
      Tracked listenFd s₁) ↔
        Admitted (step listenFd) (RoomForClient listenFd) Server.init rounds := by
  refine forall_run_iff_admitted
    (Q := fun s => Table listenFd s ∧ Covers s.clientFd s.opened) ?_ ?_ ?_ ?_ hrun
  · exact fun s h => h.1.tracked h.2
  · exact ⟨.init, fun fd hfd => absurd hfd (Finset.notMem_empty fd)⟩
  · exact fun s r s' h hroom hs => ⟨table_step h.1 hs, covers_step h.1 h.2 hroom hs⟩
  · intro s r s' h hroom hs
    have ⟨fd, hforgotten⟩ := forgotten_step h.1 hroom hs
    exact hforgotten.not_tracked

/-- A round in which the listening socket, descriptor 3, accepts a client and nothing else
happens. -/
def joinRound (fd : Int) : Round := ⟨{3}, .connection fd, fun _ => .ended⟩

theorem tracked_iff_oneClient :
    ∃ s, run (step 3) Server.init [joinRound 4] = some s ∧
      ((∀ pre s₁, pre <+: [joinRound 4] → run (step 3) Server.init pre = some s₁ →
        Tracked 3 s₁) ↔ Admitted (step 3) (RoomForClient 3) Server.init [joinRound 4]) := by
  have hsome : (run (step 3) Server.init [joinRound 4]).isSome = true := by decide
  have ⟨s, hs⟩ := Option.isSome_iff_exists.mp hsome
  exact ⟨s, hs, tracked_iff hs⟩

/-- The eleventh of eleven clients is open and in no slot. -/
theorem eleventh_client_forgotten :
    ¬ ∀ (listenFd : Int) (rounds : List Round) (s : Server),
      run (step listenFd) Server.init rounds = some s → Tracked listenFd s := by
  intro h
  have hsome : ((run (step 3) Server.init
      ((List.range 11).map (fun k => joinRound (4 + k)))).map
        (fun s => decide (14 ∈ s.opened) && decide (∀ i, s.clientFd i ≠ 14))) = some true := by
    decide
  have ⟨s, hs, hfd⟩ := Option.map_eq_some_iff.mp hsome
  rw [Bool.and_eq_true, decide_eq_true_iff, decide_eq_true_iff] at hfd
  have ⟨i, hi, _⟩ := (h 3 _ s hs).inSlot 14 hfd.1
  exact hfd.2 i hi

/-! ## Chunks are sent as strings -/

/-- The other clients of a chunk are sent the string in it, one time each. -/
structure Sent (d : Delivery) : Prop where
  sends : d.sends = d.others.map (fun client => (client, cstr (d.chunk ++ [0])))
  nodup : d.others.Nodup
  not_sender : d.sender ∉ d.others

/-- The receivers that the loop picks by descriptor are those in the other slots. -/
theorem receivers_eq (h : Holds (-1) s.clientFd s.opened) (i : Fin maxUsers) :
    s.clients (fun j => s.clientFd j != -1 && s.clientFd j != s.clientFd i) =
      s.clients (fun j => s.clientFd j != -1 && j != i) := by
  unfold Server.clients
  congr 1
  apply List.filter_congr
  intro j _
  rw [Bool.eq_iff_iff, Bool.and_eq_true, Bool.and_eq_true]
  simp only [bne_iff_ne]
  apply and_congr_right
  intro hfree
  exact not_congr ⟨fun heq => h.inj j i hfree heq, fun heq => heq ▸ rfl⟩

theorem clients_nodup (h : Holds (-1) s.clientFd s.opened) (i : Fin maxUsers) :
    (s.clients (fun j => s.clientFd j != -1 && j != i)).Nodup := by
  refine List.Nodup.map_on ?_ ((List.nodup_finRange maxUsers).filter _)
  intro j hj k _ heq
  rw [List.mem_filter] at hj
  have hfree : s.clientFd j ≠ -1 := by
    have hpick := hj.2
    rw [Bool.and_eq_true] at hpick
    simpa using hpick.1
  exact h.inj j k hfree (congrArg Client.fd heq)

theorem client_not_mem (h : Holds (-1) s.clientFd s.opened) (i : Fin maxUsers) :
    s.client (s.clientFd i) ∉ s.clients (fun j => s.clientFd j != -1 && j != i) := by
  intro hmem
  have ⟨j, hj, heq⟩ := List.mem_map.mp hmem
  rw [List.mem_filter, Bool.and_eq_true] at hj
  have hfree : s.clientFd j ≠ -1 := by simpa using hj.2.1
  have hji : j = i := h.inj j i hfree (congrArg Client.fd heq)
  have hne : j ≠ i := by simpa using hj.2.2
  exact hne hji

theorem sent_broadcast (h : Table listenFd s) (hsent : ∀ d ∈ s.deliveries, Sent d)
    (i : Fin maxUsers) (chunk : Bytes) : ∀ d ∈ (s.broadcast i chunk).deliveries, Sent d := by
  intro d hd
  rcases List.mem_append.mp hd with hold | hnew
  · exact hsent d hold
  · have heq := List.mem_singleton.mp hnew
    subst heq
    exact
      { sends := by rw [receivers_eq h.holds i]
        nodup := clients_nodup h.holds i
        not_sender := client_not_mem h.holds i }

theorem sent_handleSlots (h : Table listenFd s) (hsent : ∀ d ∈ s.deliveries, Sent d)
    (r : Round) : ∀ d ∈ (s.handleSlots r).deliveries, Sent d := by
  have hboth := handleSlots_keeps (r := r)
    (P := fun s => Table listenFd s ∧ ∀ d ∈ s.deliveries, Sent d)
    (fun _ i h _ => ⟨h.1.leave i, h.2⟩)
    (fun _ i chunk h _ _ => ⟨h.1.broadcast i chunk, sent_broadcast h.1 h.2 i chunk⟩) ⟨h, hsent⟩
  exact hboth.2

theorem sent_step (h : Table listenFd s) (hsent : ∀ d ∈ s.deliveries, Sent d)
    (hs : step listenFd s r = some s') : ∀ d ∈ s'.deliveries, Sent d := by
  rcases round_cases hs with ⟨-, rfl⟩ | ⟨-, rfl⟩ | ⟨fd, -, -, ⟨hpos, hlisten, hnew⟩, rfl⟩
  · exact hsent
  · exact sent_handleSlots h hsent r
  · exact sent_handleSlots (h.join hpos hlisten hnew) hsent r

theorem Reachable.sent (h : Reachable listenFd s) : ∀ d ∈ s.deliveries, Sent d := by
  have hboth := h.keeps (P := fun s => Table listenFd s ∧ ∀ d ∈ s.deliveries, Sent d)
    ⟨.init, fun _ hd => by cases hd⟩
    (fun _ _ _ h _ hs => ⟨table_step h.1 hs, sent_step h.1 h.2 hs⟩)
  exact hboth.2

/-! ### Faithful broadcasts -/

/-- Each other client is sent the bytes that were read, once, and the sender nothing. -/
structure Faithful (d : Delivery) : Prop where
  sends : d.sends = d.others.map (fun client => (client, d.chunk))
  nodup : d.others.Nodup
  not_sender : d.sender ∉ d.others

/-- What a client is sent because of another one's chunks. -/
def received (log : List Delivery) (sender client : Client) : List Bytes :=
  (log.filter (fun d => d.sender = sender)).flatMap
    (fun d => (d.sends.filter (fun send => send.1 = client)).map Prod.snd)

/-- The chunks of a client that were read while the other one was in the table. -/
def shared (log : List Delivery) (sender client : Client) : List Bytes :=
  (log.filter (fun d => d.sender = sender ∧ client ∈ d.others)).map Delivery.chunk

/-- Every chunk is broadcast as it was read, and each client gets another one's chunks in the
order in which they were read. -/
structure Broadcasts (log : List Delivery) : Prop where
  faithful : ∀ d ∈ log, Faithful d
  ordered : ∀ sender client, received log sender client = shared log sender client

/-- A client is sent a faithful chunk once. -/
theorem Faithful.sends_filter {d : Delivery} (h : Faithful d) (client : Client) :
    (d.sends.filter (fun send => send.1 = client)).map Prod.snd =
      if client ∈ d.others then [d.chunk] else [] := by
  have hfilter : (d.others.filter (fun c => c = client)).map (fun _ => d.chunk) =
      if client ∈ d.others then [d.chunk] else [] := by
    rw [List.filter_eq, h.nodup.count]
    split <;> rfl
  rw [h.sends, List.filter_map, List.map_map]
  exact hfilter

/-- Faithful broadcasts keep the order of the chunks. -/
theorem received_eq_shared {log : List Delivery} (h : ∀ d ∈ log, Faithful d)
    (sender client : Client) : received log sender client = shared log sender client := by
  induction log with
  | nil => rfl
  | cons d log ih =>
      have htail := ih (fun d' hd' => h d' (by simp [hd']))
      unfold received shared at htail ⊢
      by_cases hsender : d.sender = sender
      · rw [List.filter_cons_of_pos (by simpa using hsender), List.flatMap_cons,
          (h d (by simp)).sends_filter client, htail]
        by_cases hclient : client ∈ d.others
        · rw [if_pos hclient, List.filter_cons_of_pos (by simp [hsender, hclient])]
          rfl
        · rw [if_neg hclient, List.filter_cons_of_neg (by simp [hclient])]
          rfl
      · rw [List.filter_cons_of_neg (by simpa using hsender), htail,
          List.filter_cons_of_neg (by simp [hsender])]

theorem Sent.faithful_iff {d : Delivery} (h : Sent d) :
    Faithful d ↔ 0 ∉ d.chunk ∨ d.others = [] := by
  constructor
  · intro hfaithful
    by_cases hothers : d.others = []
    · exact .inr hothers
    · left
      have ⟨client, hclient⟩ := List.exists_mem_of_ne_nil _ hothers
      have hsends := hfaithful.sends
      rw [h.sends, List.map_inj_left] at hsends
      have hstring : cstr (d.chunk ++ [0]) = d.chunk := congrArg Prod.snd (hsends client hclient)
      intro hzero
      rw [← hstring] at hzero
      exact mem_cstr_ne_zero hzero rfl
  · intro hcases
    refine ⟨?_, h.nodup, h.not_sender⟩
    rcases hcases with hzero | hothers
    · rw [h.sends, cstr_append_zero (fun b hb heq => hzero (heq ▸ hb)) []]
    · rw [h.sends, hothers]
      rfl

/-- **Chunks are broadcast faithfully**, in every run, if and only if no chunk with a NUL in it
is read while another client is in the table. -/
theorem broadcasts_iff (h : Reachable listenFd s) :
    Broadcasts s.deliveries ↔ ∀ d ∈ s.deliveries, 0 ∉ d.chunk ∨ d.others = [] := by
  have hsent := h.sent
  constructor
  · exact fun hall d hd => (hsent d hd).faithful_iff.mp (hall.faithful d hd)
  · intro hall
    have hfaithful : ∀ d ∈ s.deliveries, Faithful d :=
      fun d hd => (hsent d hd).faithful_iff.mpr (hall d hd)
    exact ⟨hfaithful, received_eq_shared hfaithful⟩

/-- A round in which the first client sends a chunk. -/
def chunkRound (fd : Int) (chunk : Bytes) : Round := ⟨{fd}, .error, fun _ => .data chunk⟩

theorem broadcasts_iff_twoClients :
    ∃ s, run (step 3) Server.init [joinRound 4, joinRound 5, chunkRound 4 [104, 105]] = some s ∧
      (Broadcasts s.deliveries ↔ ∀ d ∈ s.deliveries, 0 ∉ d.chunk ∨ d.others = []) := by
  have hsome : (run (step 3) Server.init
      [joinRound 4, joinRound 5, chunkRound 4 [104, 105]]).isSome = true := by decide
  have ⟨s, hs⟩ := Option.isSome_iff_exists.mp hsome
  exact ⟨s, hs, broadcasts_iff (Reach.of_run hs)⟩

/-- Of the bytes 104, 0, 105 the other client is sent the first one. -/
theorem nul_cuts_chunk :
    ¬ ∀ (listenFd : Int) (s : Server), Reachable listenFd s → Broadcasts s.deliveries := by
  intro h
  have hsome : (run (step 3) Server.init
      [joinRound 4, joinRound 5, chunkRound 4 [104, 0, 105]]).map
        (fun s => s.deliveries.any (fun d => d.sends.any (fun send => send.2 != d.chunk))) =
      some true := by decide
  have ⟨s, hs, hany⟩ := Option.map_eq_some_iff.mp hsome
  have ⟨d, hd, hsends⟩ := List.any_eq_true.mp hany
  have ⟨send, hsend, hne⟩ := List.any_eq_true.mp hsends
  rw [((h 3 s (Reach.of_run hs)).faithful d hd).sends] at hsend
  have ⟨_, _, heq⟩ := List.mem_map.mp hsend
  rw [← heq] at hne
  simp at hne

end SystemsInC.Ports.ChatRoom
