import SystemsInC.Verified.CString

/-!
# A file through a FIFO

`sender` and `receiver` with the two FIFOs between them, after both ends of both
FIFOs are open.  A FIFO is the bytes that were written and not yet read.  The
sender's `write` moves the bytes of its buffer into the FIFO in pieces, as far as
there is room, and each `read` of the receiver returns some of the bytes that
are there: the scheduler picks how many.

The receiver looks for the marker "EOF" at the start of its buffer after each
`read`, whatever else the read returned, and behind the bytes of a short read
its buffer has what an earlier one left there.
-/

namespace SystemsInC.Ports.FifoTransfer

open SystemsInC.Verified.CString

/-- What a transfer depends on: the file, the room in a FIFO, and what the
receiver's uninitialised buffer holds. -/
structure Config where
  content : Bytes
  capacity : Nat
  garbage : Bytes
  capacity_pos : 1 ≤ capacity
  length_garbage : garbage.length = 1024

/-- `MAX`. -/
def maxRead : Nat := 1024

/-- The four bytes of the literal "EOF". -/
def marker : Bytes := [69, 79, 70, 0]

/-- The 18 bytes of the literal "Transfer complete". -/
def ackText : Bytes :=
  [84, 114, 97, 110, 115, 102, 101, 114, 32, 99, 111, 109, 112, 108, 101, 116, 101, 0]

inductive SenderPc
  /-- in the loop: `fread` if nothing is left to write, otherwise inside `write` -/
  | sending
  /-- writing the marker, and waiting for the acknowledgement once it is written -/
  | finishing
  | done
  /-- by SIGPIPE -/
  | killed
  deriving DecidableEq

inductive ReceiverPc
  | reading
  /-- out of the loop, before the `write` of the acknowledgement -/
  | stopped
  /-- before the files are closed -/
  | acked
  | closed
  deriving DecidableEq

structure Sys where
  senderPc : SenderPc
  /-- what `fread` has not returned yet -/
  file : Bytes
  /-- what the sender's `write` has not put into the FIFO yet -/
  pending : Bytes
  fifo1 : Bytes
  fifo2 : Bytes
  receiverPc : ReceiverPc
  /-- the receiver's buffer -/
  buffer : Bytes
  /-- received_file.txt -/
  received : Bytes

def Sys.init (cfg : Config) : Sys :=
  { senderPc := .sending
    file := cfg.content
    pending := []
    fifo1 := []
    fifo2 := []
    receiverPc := .reading
    buffer := cfg.garbage
    received := [] }

/-- `fread`, and with nothing read the start of the marker's `write`. -/
def senderFread (s : Sys) : Option Sys :=
  if s.senderPc = .sending ∧ s.pending = [] then
    if s.file.take maxRead ≠ [] then
      some { s with
        pending := s.file.take maxRead
        file := s.file.drop maxRead }
    else
      some { s with
        senderPc := .finishing
        pending := marker }
  else
    none

/-- The sender's `write` moves `k` bytes into the FIFO; without a reader the
sender gets SIGPIPE. -/
def senderWrite (capacity : Nat) (s : Sys) (k : Nat) : Option Sys :=
  if (s.senderPc = .sending ∨ s.senderPc = .finishing) ∧ s.pending ≠ [] then
    if s.receiverPc = .closed then
      some { s with senderPc := .killed }
    else if 1 ≤ k ∧ k ≤ s.pending.length ∧ s.fifo1.length + k ≤ capacity then
      some { s with
        fifo1 := s.fifo1 ++ s.pending.take k
        pending := s.pending.drop k }
    else
      none
  else
    none

/-- The sender's `read` of the acknowledgement; it returns 0 bytes only if none
are there and the receiver has closed the FIFO. -/
def senderReadAck (s : Sys) (n : Nat) : Option Sys :=
  if s.senderPc = .finishing ∧ s.pending = [] then
    if 1 ≤ n ∧ n ≤ maxRead ∧ n ≤ s.fifo2.length ∨
        n = 0 ∧ s.fifo2 = [] ∧ s.receiverPc = .closed then
      some { s with
        senderPc := .done
        fifo2 := s.fifo2.drop n }
    else
      none
  else
    none

/-- The receiver's buffer after a `read` that returns `n` bytes. -/
def Sys.bufferAfter (s : Sys) (n : Nat) : Bytes := s.fifo1.take n ++ s.buffer.drop n

/-- The receiver's loop: a `read` that returns `n` bytes, and what follows it.
It returns 0 bytes only if none are there and the sender has ended. -/
def receiverRead (s : Sys) (n : Nat) : Option Sys :=
  if s.receiverPc = .reading then
    if 1 ≤ n ∧ n ≤ maxRead ∧ n ≤ s.fifo1.length then
      if strncmpEq (s.bufferAfter n) marker 3 then
        some { s with
          fifo1 := s.fifo1.drop n
          buffer := s.bufferAfter n
          receiverPc := .stopped }
      else
        some { s with
          fifo1 := s.fifo1.drop n
          buffer := s.bufferAfter n
          received := s.received ++ (s.bufferAfter n).take n }
    else if n = 0 ∧ s.fifo1 = [] ∧ (s.senderPc = .done ∨ s.senderPc = .killed) then
      some { s with receiverPc := .stopped }
    else
      none
  else
    none

/-- `write` of the acknowledgement, then closing everything. -/
def receiverFinish (s : Sys) : Option Sys :=
  match s.receiverPc with
  | .reading => none
  | .stopped => some { s with
      fifo2 := s.fifo2 ++ ackText
      receiverPc := .acked }
  | .acked => some { s with receiverPc := .closed }
  | .closed => none

/-- A choice of the scheduler and of the FIFOs. -/
inductive Act
  | fread
  | write (k : Nat)
  | readAck (n : Nat)
  | read (n : Nat)
  | finish
  deriving DecidableEq, Repr

def Sys.step (capacity : Nat) (s : Sys) : Act → Option Sys
  | .fread => senderFread s
  | .write k => senderWrite capacity s k
  | .readAck n => senderReadAck s n
  | .read n => receiverRead s n
  | .finish => receiverFinish s

/-- Neither program can take a step. -/
def Final (capacity : Nat) (s : Sys) : Prop := ∀ a, s.step capacity a = none

/-- The receiver has left its loop with the sent content in received_file.txt. -/
def Delivered (cfg : Config) (s : Sys) : Prop :=
  s.receiverPc ≠ .reading ∧ s.received = cfg.content

/-- The sender waits for the acknowledgement, and the receiver for bytes in an
empty FIFO. -/
def Deadlock (s : Sys) : Prop :=
  s.senderPc = .finishing ∧ s.pending = [] ∧ s.fifo2 = [] ∧
    s.receiverPc = .reading ∧ s.fifo1 = []

/-- A read of content bytes takes no byte of the marker and does not make the
buffer start with "EOF"; the read behind the content does.  In the loop all bytes
read so far are in received_file.txt. -/
def CleanRead (cfg : Config) (s : Sys) : Act → Prop
  | .read n =>
      if s.received.length < cfg.content.length then
        s.received.length + n ≤ cfg.content.length ∧ ¬ strncmpEq (s.bufferAfter n) marker 3
      else
        strncmpEq (s.bufferAfter n) marker 3
  | _ => True

/-! ## What a step does -/

section Steps

variable {capacity k n : Nat} {s s' : Sys}

theorem senderFread_cases (h : senderFread s = some s') :
    s.senderPc = .sending ∧ s.pending = [] ∧
      (s.file.take maxRead ≠ [] ∧
          s' = { s with pending := s.file.take maxRead, file := s.file.drop maxRead } ∨
        s.file = [] ∧ s' = { s with senderPc := .finishing, pending := marker }) := by
  unfold senderFread at h
  split at h
  case isFalse => cases h
  case isTrue hguard =>
      refine ⟨hguard.1, hguard.2, ?_⟩
      split at h
      case isTrue htake => exact .inl ⟨htake, (Option.some.inj h).symm⟩
      case isFalse htake =>
          have hfile : s.file = [] := by simpa [maxRead] using htake
          exact .inr ⟨hfile, (Option.some.inj h).symm⟩

theorem senderWrite_cases (h : senderWrite capacity s k = some s') :
    (s.senderPc = .sending ∨ s.senderPc = .finishing) ∧
      (s.receiverPc = .closed ∧ s' = { s with senderPc := .killed } ∨
        1 ≤ k ∧ k ≤ s.pending.length ∧
          s' = { s with
            fifo1 := s.fifo1 ++ s.pending.take k
            pending := s.pending.drop k }) := by
  unfold senderWrite at h
  split at h
  case isFalse => cases h
  case isTrue hguard =>
      refine ⟨hguard.1, ?_⟩
      split at h
      case isTrue hclosed => exact .inl ⟨hclosed, (Option.some.inj h).symm⟩
      case isFalse =>
          split at h
          case isTrue hk => exact .inr ⟨hk.1, hk.2.1, (Option.some.inj h).symm⟩
          case isFalse => cases h

theorem senderReadAck_cases (h : senderReadAck s n = some s') :
    s.senderPc = .finishing ∧ s.pending = [] ∧ (s.fifo2 ≠ [] ∨ s.receiverPc = .closed) ∧
      s' = { s with senderPc := .done, fifo2 := s.fifo2.drop n } := by
  unfold senderReadAck at h
  split at h
  case isFalse => cases h
  case isTrue hguard =>
      refine ⟨hguard.1, hguard.2, ?_⟩
      split at h
      case isFalse => cases h
      case isTrue hn =>
          refine ⟨?_, (Option.some.inj h).symm⟩
          rcases hn with ⟨hpos, -, hle⟩ | ⟨-, -, hclosed⟩
          · left
            apply List.ne_nil_of_length_pos
            omega
          · exact .inr hclosed

/-- A `read` sees the marker, or it does not, or it is told that the sender has
ended. -/
theorem receiverRead_cases (h : receiverRead s n = some s') :
    s.receiverPc = .reading ∧
      (1 ≤ n ∧ n ≤ s.fifo1.length ∧ strncmpEq (s.bufferAfter n) marker 3 ∧
          s' = { s with
            fifo1 := s.fifo1.drop n
            buffer := s.bufferAfter n
            receiverPc := .stopped } ∨
        1 ≤ n ∧ n ≤ s.fifo1.length ∧ ¬ strncmpEq (s.bufferAfter n) marker 3 ∧
          s' = { s with
            fifo1 := s.fifo1.drop n
            buffer := s.bufferAfter n
            received := s.received ++ (s.bufferAfter n).take n } ∨
        (s.senderPc = .done ∨ s.senderPc = .killed) ∧
          s' = { s with receiverPc := .stopped }) := by
  unfold receiverRead at h
  split at h
  case isFalse => cases h
  case isTrue hreading =>
      refine ⟨hreading, ?_⟩
      split at h
      case isTrue hn =>
          split at h
          case isTrue hmarker =>
              exact .inl ⟨hn.1, hn.2.2, hmarker, (Option.some.inj h).symm⟩
          case isFalse hmarker =>
              exact .inr (.inl ⟨hn.1, hn.2.2, hmarker, (Option.some.inj h).symm⟩)
      case isFalse =>
          split at h
          case isTrue hend => exact .inr (.inr ⟨hend.2.2, (Option.some.inj h).symm⟩)
          case isFalse => cases h

theorem receiverFinish_cases (h : receiverFinish s = some s') :
    s.receiverPc = .stopped ∧ s' = { s with fifo2 := s.fifo2 ++ ackText, receiverPc := .acked } ∨
      s.receiverPc = .acked ∧ s' = { s with receiverPc := .closed } := by
  unfold receiverFinish at h
  cases hpc : s.receiverPc with
  | reading => simp [hpc] at h
  | stopped =>
      rw [hpc] at h
      exact .inl ⟨rfl, (Option.some.inj h).symm⟩
  | acked =>
      rw [hpc] at h
      exact .inr ⟨rfl, (Option.some.inj h).symm⟩
  | closed => simp [hpc] at h

/-- The bytes that a `read` puts at the start of the buffer. -/
theorem take_bufferAfter (hn : n ≤ s.fifo1.length) :
    (s.bufferAfter n).take n = s.fifo1.take n := by
  have hlen : (s.fifo1.take n).length = n := List.length_take_of_le hn
  rw [Sys.bufferAfter, List.take_append_of_le_length hlen.ge, List.take_take, Nat.min_self]

/-- Only `read` touches the received file, and only `read` leaves the loop. -/
theorem step_frame {a : Act} (hs : s.step capacity a = some s') (ha : ∀ n, a ≠ .read n) :
    s'.received = s.received ∧ (s'.receiverPc = .reading ↔ s.receiverPc = .reading) := by
  cases a with
  | fread =>
      rcases senderFread_cases hs with ⟨-, -, ⟨-, rfl⟩ | ⟨-, rfl⟩⟩
      · exact ⟨rfl, .rfl⟩
      · exact ⟨rfl, .rfl⟩
  | write k =>
      rcases senderWrite_cases hs with ⟨-, ⟨-, rfl⟩ | ⟨-, -, rfl⟩⟩
      · exact ⟨rfl, .rfl⟩
      · exact ⟨rfl, .rfl⟩
  | readAck n =>
      obtain ⟨-, -, -, rfl⟩ := senderReadAck_cases hs
      exact ⟨rfl, .rfl⟩
  | read n => exact absurd rfl (ha n)
  | finish =>
      rcases receiverFinish_cases hs with ⟨hpc, rfl⟩ | ⟨hpc, rfl⟩
      · exact ⟨rfl, by simp [hpc]⟩
      · exact ⟨rfl, by simp [hpc]⟩

/-! ## Every run ends -/

/-- How far the programs are from their ends. -/
def SenderPc.left : SenderPc → Nat
  | .sending => 10
  | .finishing => 1
  | .done => 0
  | .killed => 0

def ReceiverPc.left : ReceiverPc → Nat
  | .reading => 3
  | .stopped => 2
  | .acked => 1
  | .closed => 0

/-- A byte has three more places to go while it is in the file, two in the
sender's buffer and one in the FIFO. -/
def Sys.left (s : Sys) : Nat :=
  3 * s.file.length + 2 * s.pending.length + s.fifo1.length + s.senderPc.left + s.receiverPc.left

theorem left_lt {a : Act} (hs : s.step capacity a = some s') : s'.left < s.left := by
  cases a with
  | fread =>
      rcases senderFread_cases hs with ⟨hpc, hpending, ⟨htake, rfl⟩ | ⟨hfile, rfl⟩⟩
      · have hpos : 0 < (s.file.take maxRead).length := List.length_pos_iff.mpr htake
        have hsplit : (s.file.take maxRead).length + (s.file.drop maxRead).length =
            s.file.length := by
          rw [← List.length_append, List.take_append_drop]
        simp only [Sys.left, hpending, List.length_nil]
        omega
      · simp only [Sys.left, hpc, hpending, hfile, SenderPc.left, marker, List.length_cons,
          List.length_nil]
        omega
  | write k =>
      rcases senderWrite_cases hs with ⟨hpc, ⟨-, rfl⟩ | ⟨hpos, hle, rfl⟩⟩
      · rcases hpc with hpc | hpc <;> simp [Sys.left, hpc, SenderPc.left]
      · simp only [Sys.left, List.length_append, List.length_take, List.length_drop]
        omega
  | readAck n =>
      obtain ⟨hpc, -, -, rfl⟩ := senderReadAck_cases hs
      simp [Sys.left, hpc, SenderPc.left]
  | read n =>
      rcases receiverRead_cases hs with
        ⟨hpc, ⟨hpos, hle, -, rfl⟩ | ⟨hpos, hle, -, rfl⟩ | ⟨-, rfl⟩⟩
      · simp only [Sys.left, hpc, ReceiverPc.left, List.length_drop]
        omega
      · simp only [Sys.left, List.length_drop]
        omega
      · simp [Sys.left, hpc, ReceiverPc.left]
  | finish =>
      rcases receiverFinish_cases hs with ⟨hpc, rfl⟩ | ⟨hpc, rfl⟩
      · simp [Sys.left, hpc, ReceiverPc.left]
      · simp [Sys.left, hpc, ReceiverPc.left]

end Steps

end SystemsInC.Ports.FifoTransfer
