import SystemsInC.Verified.ByteMemory
import SystemsInC.Verified.GuardedRuns
import SystemsInC.Verified.SelectiveQueue
import SystemsInC.Verified.TextInput

/-!
# A chat over a message queue

Two programs on one System V message queue.  The parent process of each sends the
lines that its user types, with the number of its user as their type, and the
child process prints the messages of the other type.

The programs declare `mtype` as an `int`, while the kernel takes a `long` in
front of the text.  So the kernel reads the first four bytes of `mtext` as a part
of the type, and the bytes that it sends as the text are those behind them; on
the other side it stores type and text in the same places.

`msg` is uninitialised when the processes fork; the addresses in a memory are
counted from its start.  What a parent does from its prompt to the return of
`msgsnd` is one step, and one round of the loop of a child is one.
-/

namespace SystemsInC.Ports.ChatQueue

open SystemsInC.Verified.ByteMemory
open SystemsInC.Verified.CString
open SystemsInC.Verified.SelectiveQueue
open SystemsInC.Verified.TextInput (chomp chomp_isPrefix fgetsLine fgetsLine_pos mem_chomp_ne_zero)

/-- `MAX_TEXT`. -/
def maxText : Nat := 128

/-- Where `mtext` stands in the structure, behind `int mtype`. -/
def mtextPos : Nat := 4

/-- Where the kernel has the text, behind a `long`. -/
def kernelTextPos : Nat := 8

inductive User
  | user1
  | user2
  deriving DecidableEq

def User.other : User → User
  | .user1 => .user2
  | .user2 => .user1

/-- The type of the messages that a user sends, `MSG_USER1_TO_USER2` or
`MSG_USER2_TO_USER1`. -/
def User.mtype : User → Nat
  | .user1 => 1
  | .user2 => 2

/-! ## What is typed -/

/-- The lines, or parts of lines, that `fgets(msg.mtext, MAX_TEXT, stdin)` reads
one after the other. -/
def pieces (stdin : Bytes) : List Bytes :=
  if stdin = [] then
    []
  else
    fgetsLine maxText stdin :: pieces (stdin.drop (fgetsLine maxText stdin).length)
termination_by stdin.length
decreasing_by
  have hne : stdin ≠ [] := by assumption
  have hpos := fgetsLine_pos (show 2 ≤ maxText by decide) hne
  have hlen := List.length_pos_iff.mpr hne
  rw [List.length_drop]
  omega

/-- The texts that a user types. -/
def texts (stdin : Bytes) : List Bytes := (pieces stdin).map chomp

/-! ## The structure -/

/-- The string in `msg.mtext`. -/
def string (m : Memory) : Bytes := cstr (m.read mtextPos maxText)

/-- `strcspn(msg.mtext, "\n")`. -/
def newlinePos (m : Memory) : Nat := ((string m).takeWhile (fun b => b != 10)).length

/-- The structure before `msgsnd`: `fgets`, the newline cut off, `mtype` set. -/
def typed (u : User) (m : Memory) (piece : Bytes) : Memory :=
  let read := m.write mtextPos (piece ++ [0])
  let cut := read.write (mtextPos + newlinePos read) [0]
  cut.write 0 (leBytes 4 u.mtype)

/-! ## The kernel -/

/-- A message in the queue. -/
structure Msg where
  type : Int
  text : Bytes

/-- The message that `msgsnd(msgid, &msg, msgsz, 0)` takes from memory; a type
below 1 is refused. -/
def loadMsg (m : Memory) (msgsz : Nat) : Option Msg :=
  if m.long 0 < 1 then
    none
  else
    some { type := m.long 0, text := m.read kernelTextPos msgsz }

/-- A message has the type that the messages of a user have. -/
def fromUser (u : User) (msg : Msg) : Bool := msg.type = (u.mtype : Int)

/-- What `msgrcv` stores. -/
def storeMsg (m : Memory) (msg : Msg) : Memory :=
  (m.write 0 (leBytes 8 (msg.type % UInt64.size).toNat)).write kernelTextPos msg.text

/-- A message joins the queue only if it has room for it. -/
def Room (qbytes : Nat) (queue : List Msg) (msg : Msg) : Prop :=
  msg.text.length + (queue.map (fun m => m.text.length)).sum ≤ qbytes ∧
    1 + queue.length ≤ qbytes

instance (qbytes : Nat) (queue : List Msg) (msg : Msg) : Decidable (Room qbytes queue msg) :=
  inferInstanceAs (Decidable (_ ∧ _))

/-! ## The four processes -/

structure Config where
  stdin : User → Bytes
  /-- `msg`, and what lies behind it, when the processes of a user fork -/
  memory : User → Memory
  /-- the bytes that the queue may hold -/
  qbytes : Nat
  room : maxText ≤ qbytes

inductive Process
  | running
  /-- at its end -/
  | exited
  /-- in `die` -/
  | died
  deriving DecidableEq

structure Sys where
  /-- the parent process of each user, with what it has not read yet and its `msg` -/
  sender : User → Process
  stdin : User → Bytes
  memory : User → Memory
  queue : List Msg
  /-- the child process of each user, with its `msg` and the texts that it printed -/
  receiver : User → Process
  childMemory : User → Memory
  printed : User → List Bytes

def Sys.init (cfg : Config) : Sys :=
  { sender := fun _ => .running
    stdin := cfg.stdin
    memory := cfg.memory
    queue := []
    receiver := fun _ => .running
    childMemory := cfg.memory
    printed := fun _ => [] }

/-- `msg` of a parent when it calls `msgsnd` with its next line. -/
def Sys.built (s : Sys) (u : User) : Memory :=
  typed u (s.memory u) (fgetsLine maxText (s.stdin u))

/-- The message that this call sends. -/
def Sys.load (s : Sys) (u : User) : Option Msg :=
  loadMsg (s.built u) ((string (s.built u)).length + 1)

/-- The next line of a user is read. -/
def Sys.lineRead (s : Sys) (u : User) : Sys :=
  { s with
    stdin := Function.update s.stdin u
      ((s.stdin u).drop (fgetsLine maxText (s.stdin u)).length)
    memory := Function.update s.memory u (s.built u) }

/-- A parent from its prompt to the return of `msgsnd`, which blocks if there is
no room. -/
def send (qbytes : Nat) (s : Sys) (u : User) : Option Sys :=
  if s.sender u = .running then
    if s.stdin u = [] then
      some { s with sender := Function.update s.sender u .exited }
    else
      match s.load u with
      | none => some { s.lineRead u with sender := Function.update s.sender u .died }
      | some msg =>
          if Room qbytes s.queue msg then
            some { s.lineRead u with queue := s.queue ++ [msg] }
          else
            none
  else
    none

/-- A child from `msgrcv` to its next call; a text that does not fit is an error,
and stays in the queue. -/
def receive (s : Sys) (u : User) : Option Sys :=
  if s.receiver u = .running then
    match take (fromUser u.other) s.queue with
    | none => none
    | some (msg, queue) =>
        if maxText < msg.text.length then
          some { s with receiver := Function.update s.receiver u .died }
        else
          let m := storeMsg (s.childMemory u) msg
          some { s with
            queue := queue
            childMemory := Function.update s.childMemory u m
            printed := Function.update s.printed u (s.printed u ++ [string m]) }
  else
    none

inductive Act
  | send (u : User)
  | receive (u : User)

def Sys.step (qbytes : Nat) (s : Sys) : Act → Option Sys
  | .send u => ChatQueue.send qbytes s u
  | .receive u => ChatQueue.receive s u

/-! ## Pieces -/

theorem pieces_nil : pieces [] = [] := by
  rw [pieces, if_pos rfl]

theorem pieces_cons {stdin : Bytes} (h : stdin ≠ []) :
    pieces stdin =
      fgetsLine maxText stdin :: pieces (stdin.drop (fgetsLine maxText stdin).length) := by
  rw [pieces, if_neg h]

/-! ## The text in the structure -/

/-- A string ends at the first NUL of the array. -/
theorem cstr_append_zero_right (bs rest : Bytes) : cstr (bs ++ 0 :: rest) = cstr bs := by
  induction bs with
  | nil => simp [cstr]
  | cons b bs ih =>
      rw [cstr, List.cons_append, List.takeWhile_cons, cstr, List.takeWhile_cons]
      split
      · exact congrArg (b :: ·) ih
      · rfl

variable {u : User} {m : Memory} {piece : Bytes}

/-- What `fgets` has stored. -/
theorem string_write (hlen : piece.length + 1 ≤ maxText) :
    string (m.write mtextPos (piece ++ [0])) = cstr piece := by
  have hsplit : maxText = (piece ++ [0]).length + (maxText - (piece.length + 1)) := by
    rw [List.length_append, List.length_singleton]
    omega
  rw [string, hsplit, read_add, read_write_self, List.append_assoc]
  exact cstr_append_zero_right piece _

theorem newlinePos_write (hlen : piece.length + 1 ≤ maxText) :
    newlinePos (m.write mtextPos (piece ++ [0])) = (chomp piece).length := by
  rw [newlinePos, string_write hlen, chomp]

/-- The parent sends the text of the line. -/
theorem string_typed (hlen : piece.length + 1 ≤ maxText) :
    string (typed u m piece) = chomp piece := by
  have hle := (chomp_isPrefix piece).length_le
  have hsplit : maxText = (chomp piece).length + (1 + (maxText - (chomp piece).length - 1)) := by
    omega
  have hfront : (m.write mtextPos (piece ++ [0])).read mtextPos (chomp piece).length =
      chomp piece := by
    have hpre : chomp piece <+: piece ++ [0] :=
      (chomp_isPrefix piece).trans (List.prefix_append _ _)
    rw [read_take _ (show (chomp piece).length ≤ (piece ++ [0]).length from hpre.length_le),
      read_write_self]
    exact (List.prefix_iff_eq_take.mp hpre).symm
  have htype : 0 + (leBytes 4 u.mtype).length ≤ mtextPos := by
    rw [leBytes_length]
    decide
  rw [string, typed, newlinePos_write hlen, read_write_above _ htype, hsplit, read_add,
    read_add, read_write_below _ (Nat.le_refl _), hfront]
  have hnul : ((m.write mtextPos (piece ++ [0])).write (mtextPos + (chomp piece).length) [0]).read
      (mtextPos + (chomp piece).length) 1 = [0] := read_write_self _ _ _
  rw [hnul]
  exact cstr_append_zero (fun b hb => mem_chomp_ne_zero hb) _

end SystemsInC.Ports.ChatQueue
