import SystemsInC.Ports.KvStore
import SystemsInC.Verified.GuardedRuns

/-!
# A session with the key-value server

One client and the server that serves it, over a connected local stream socket.
The client sends what the user types, a line or the part of it that fits into its
buffer, and then reads a reply; the server reads, handles what it got as one
request, and writes a reply.  Neither side sends anything that says where a
request ends, so that a client with nothing to send waits for a reply to nothing.

The modularized server goes on reading after a reply, the other one closes the
connection.  A `read` returns some of the bytes that are there; what a local
socket does is to return all of them, up to the size of the buffer
(`WholeReads`).
-/

namespace SystemsInC.Ports.KvSession

open SystemsInC.Verified.CString
open SystemsInC.Verified.GuardedRuns
open SystemsInC.Verified.TextInput (ascii chomp chomp_isPrefix fgetsLine fgetsLine_pos
  fgetsLine_length_le)
open SystemsInC.Ports.KvStore

/-! ## What the user types -/

/-- `tolower` in the C locale. -/
def toLower (b : UInt8) : UInt8 := if 65 ≤ b ∧ b ≤ 90 then b + 32 else b

/-- `strcasecmp(cmd, "EXIT") == 0`. -/
def isExit (cmd : Bytes) : Bool := cmd.map toLower == ascii "exit"

/-- The commands that are sent for what is typed: one for each `fgets` up to the
first `EXIT`. -/
def commands (stdin : Bytes) : List Bytes :=
  if stdin = [] then
    []
  else
    let piece := fgetsLine bufSize stdin
    if isExit (chomp piece) then
      []
    else
      chomp piece :: commands (stdin.drop piece.length)
termination_by stdin.length
decreasing_by
  have hne : stdin ≠ [] := by assumption
  have hpos := fgetsLine_pos (show 2 ≤ bufSize by decide) hne
  have hlen := List.length_pos_iff.mpr hne
  rw [List.length_drop]
  omega

/-! ## The two programs and the socket -/

inductive ClientPc
  /-- before `fgets` -/
  | prompt
  /-- in `read`, after a command was sent -/
  | waiting
  /-- at the end, after `EXIT` or the end of the input -/
  | exited
  /-- at the end, as `read` returned no reply -/
  | hungUp
  /-- by SIGPIPE -/
  | killed
  deriving DecidableEq

inductive ServerPc
  /-- in `read` -/
  | reading
  /-- before the `write` of a reply -/
  | writing (reply : Reply)
  /-- before `close` -/
  | closing
  | closed
  deriving DecidableEq

structure Sys where
  client : ClientPc
  /-- what is typed and not yet read by `fgets` -/
  stdin : Bytes
  toServer : Bytes
  toClient : Bytes
  server : ServerPc
  store : Store
  /-- the commands that the client sent -/
  sent : List Bytes
  /-- what its `read` returned, each time -/
  shown : List Bytes

/-- A connected client at its first prompt. -/
def Sys.init (store : Store) (typed : Bytes) : Sys :=
  { client := .prompt
    stdin := typed
    toServer := []
    toClient := []
    server := .reading
    store := store
    sent := []
    shown := [] }

/-- The client's end of the socket is closed. -/
def Sys.ClientGone (s : Sys) : Prop := s.client ≠ .prompt ∧ s.client ≠ .waiting

instance (s : Sys) : Decidable s.ClientGone := inferInstanceAs (Decidable (_ ∧ _))

/-- The client from its prompt to `read`: `fgets`, and the `write` of the
command.  A `write` to a closed socket raises SIGPIPE, and a `write` of no bytes
sends nothing. -/
def clientType (s : Sys) : Option Sys :=
  if s.client = .prompt then
    if s.stdin = [] then
      some { s with client := .exited }
    else
      let piece := fgetsLine bufSize s.stdin
      let rest := { s with stdin := s.stdin.drop piece.length }
      if isExit (chomp piece) then
        some { rest with client := .exited }
      else if s.server = .closed then
        some { rest with client := .killed }
      else
        some { rest with
          client := .waiting
          toServer := s.toServer ++ chomp piece
          sent := s.sent ++ [chomp piece] }
  else
    none

/-- The client's `read` returns `n` bytes; none only if the server has closed the
connection. -/
def clientRead (s : Sys) (n : Nat) : Option Sys :=
  if s.client = .waiting then
    if 1 ≤ n ∧ n ≤ bufSize - 1 ∧ n ≤ s.toClient.length then
      some { s with
        client := .prompt
        toClient := s.toClient.drop n
        shown := s.shown ++ [s.toClient.take n] }
    else if n = 0 ∧ s.toClient = [] ∧ s.server = .closed then
      some { s with client := .hungUp }
    else
      none
  else
    none

/-- The server's `read` returns `n` bytes, and the server handles them; none only
if the client's end is closed. -/
def serverRead (srv : Server) (s : Sys) (n : Nat) : Option Sys :=
  if s.server = .reading then
    if 1 ≤ n ∧ n ≤ bufSize - 1 ∧ n ≤ s.toServer.length then
      let done := srv.handle s.store (s.toServer.take n)
      some { s with
        toServer := s.toServer.drop n
        store := done.1
        server := .writing done.2 }
    else if n = 0 ∧ s.toServer = [] ∧ s.ClientGone then
      some { s with server := .closing }
    else
      none
  else
    none

/-- Where the server goes on after a reply. -/
def afterReply : Server → ServerPc
  | .keyValue => .closing
  | .modular => .reading

/-- The `write` of the reply; without the client it raises SIGPIPE. -/
def serverWrite (srv : Server) (s : Sys) : Option Sys :=
  match s.server with
  | .writing reply =>
      if s.ClientGone then
        some { s with server := .closed }
      else
        some { s with
          toClient := s.toClient ++ reply.bytes
          server := afterReply srv }
  | _ => none

/-- `close(client_fd)`. -/
def serverClose (s : Sys) : Option Sys :=
  if s.server = .closing then some { s with server := .closed } else none

inductive Act
  | clientType
  | clientRead (n : Nat)
  | serverRead (n : Nat)
  | serverWrite
  | serverClose

def Sys.step (srv : Server) (s : Sys) : Act → Option Sys
  | .clientType => KvSession.clientType s
  | .clientRead n => KvSession.clientRead s n
  | .serverRead n => KvSession.serverRead srv s n
  | .serverWrite => KvSession.serverWrite srv s
  | .serverClose => KvSession.serverClose s

/-- A `read` returns all that is there and fits into the buffer. -/
def WholeReads (s : Sys) : Act → Prop
  | .clientRead n => n = min (bufSize - 1) s.toClient.length
  | .serverRead n => n = min (bufSize - 1) s.toServer.length
  | _ => True

/-- Both programs are in `read`, and nothing is on its way. -/
def Sys.Deadlocked (s : Sys) : Prop :=
  s.client = .waiting ∧ s.server = .reading ∧ s.toServer = [] ∧ s.toClient = []

/-! ## One reply to each command -/

/-- The store after the commands. -/
def storeAfter (srv : Server) (store : Store) (cmds : List Bytes) : Store :=
  cmds.foldl (fun st cmd => (srv.handle st cmd).1) store

/-- The replies to the commands, one to each. -/
def repliesTo (srv : Server) (store : Store) : List Bytes → List Bytes
  | [] => []
  | cmd :: cmds =>
      (srv.handle store cmd).2.bytes :: repliesTo srv (srv.handle store cmd).1 cmds

/-- The client is connected as long as it goes on, and whenever it is at its
prompt or at the end of the session, each command that it sent has got its reply
and nothing else was read or is on its way. -/
structure Sys.Served (srv : Server) (store : Store) (s : Sys) : Prop where
  not_deadlocked : ¬ s.Deadlocked
  connected : s.client ≠ .hungUp ∧ s.client ≠ .killed
  answered : s.client = .prompt ∨ s.client = .exited →
    s.shown = repliesTo srv store s.sent ∧ s.toServer = [] ∧ s.toClient = [] ∧
      ∀ reply, s.server ≠ .writing reply

/-! ## The commands -/

theorem commands_nil : commands [] = [] := by
  rw [commands, if_pos rfl]

/-- The piece that `fgets` reads is `EXIT`. -/
theorem commands_exit {stdin : Bytes} (hexit : isExit (chomp (fgetsLine bufSize stdin)) = true) :
    commands stdin = [] := by
  rw [commands]
  split
  · rfl
  · rw [if_pos hexit]

/-- The piece that `fgets` reads is a command. -/
theorem commands_piece {stdin : Bytes} (hne : stdin ≠ [])
    (hexit : isExit (chomp (fgetsLine bufSize stdin)) = false) :
    commands stdin = chomp (fgetsLine bufSize stdin) ::
      commands (stdin.drop (fgetsLine bufSize stdin).length) := by
  rw [commands, if_neg hne]
  simp only [hexit, if_neg Bool.false_ne_true]

theorem chomp_length_le (stdin : Bytes) :
    (chomp (fgetsLine bufSize stdin)).length ≤ bufSize - 1 := by
  have hcmd := (chomp_isPrefix (fgetsLine bufSize stdin)).length_le
  exact hcmd.trans (fgetsLine_length_le bufSize stdin)

/-- What the client does at its prompt: it ends, or it sends the next command. -/
theorem clientType_cases {s s' : Sys} (h : clientType s = some s') :
    s.client = .prompt ∧
      ((∃ stdin, s' = { s with client := .exited, stdin := stdin }) ∨
        ∃ cmd stdin, commands s.stdin = cmd :: commands stdin ∧ cmd.length ≤ bufSize - 1 ∧
          (s.server = .closed ∧ s' = { s with client := .killed, stdin := stdin } ∨
            s.server ≠ .closed ∧ s' = { s with
              client := .waiting
              stdin := stdin
              toServer := s.toServer ++ cmd
              sent := s.sent ++ [cmd] })) := by
  unfold clientType at h
  split at h
  case isFalse => cases h
  case isTrue hprompt =>
      refine ⟨hprompt, ?_⟩
      split at h
      case isTrue hnil => exact .inl ⟨s.stdin, (Option.some.inj h).symm⟩
      case isFalse hne =>
          simp only [] at h
          split at h
          case isTrue hexit => exact .inl ⟨_, (Option.some.inj h).symm⟩
          case isFalse hexit =>
              refine .inr ⟨_, _, commands_piece hne (by simpa using hexit),
                chomp_length_le s.stdin, ?_⟩
              split at h
              case isTrue hclosed => exact .inl ⟨hclosed, (Option.some.inj h).symm⟩
              case isFalse hclosed => exact .inr ⟨hclosed, (Option.some.inj h).symm⟩

/-- A `read` of the client returns a part of a reply, or the end. -/
theorem clientRead_cases {s s' : Sys} {n : Nat} (h : clientRead s n = some s') :
    s.client = .waiting ∧
      (1 ≤ n ∧ n ≤ s.toClient.length ∧ s' = { s with
          client := .prompt
          toClient := s.toClient.drop n
          shown := s.shown ++ [s.toClient.take n] } ∨
        s.toClient = [] ∧ s.server = .closed ∧ s' = { s with client := .hungUp }) := by
  unfold clientRead at h
  split at h
  case isFalse => cases h
  case isTrue hwaiting =>
      refine ⟨hwaiting, ?_⟩
      split at h
      case isTrue hn => exact .inl ⟨hn.1, hn.2.2, (Option.some.inj h).symm⟩
      case isFalse =>
          split at h
          case isTrue hend => exact .inr ⟨hend.2.1, hend.2.2, (Option.some.inj h).symm⟩
          case isFalse => cases h

/-- A `read` of the server returns a part of what was sent, or the end. -/
theorem serverRead_cases {srv : Server} {s s' : Sys} {n : Nat}
    (h : serverRead srv s n = some s') :
    s.server = .reading ∧
      (1 ≤ n ∧ n ≤ s.toServer.length ∧ s' = { s with
          toServer := s.toServer.drop n
          store := (srv.handle s.store (s.toServer.take n)).1
          server := .writing (srv.handle s.store (s.toServer.take n)).2 } ∨
        s.toServer = [] ∧ s.ClientGone ∧ s' = { s with server := .closing }) := by
  unfold serverRead at h
  split at h
  case isFalse => cases h
  case isTrue hreading =>
      refine ⟨hreading, ?_⟩
      split at h
      case isTrue hn => exact .inl ⟨hn.1, hn.2.2, (Option.some.inj h).symm⟩
      case isFalse =>
          split at h
          case isTrue hend => exact .inr ⟨hend.2.1, hend.2.2, (Option.some.inj h).symm⟩
          case isFalse => cases h

theorem serverWrite_cases {srv : Server} {s s' : Sys} (h : serverWrite srv s = some s') :
    ∃ reply, s.server = .writing reply ∧
      (s.ClientGone ∧ s' = { s with server := .closed } ∨
        ¬ s.ClientGone ∧ s' = { s with
          toClient := s.toClient ++ reply.bytes
          server := afterReply srv }) := by
  unfold serverWrite at h
  split at h
  case h_1 reply hwriting =>
      refine ⟨reply, hwriting, ?_⟩
      split at h
      case isTrue hgone => exact .inl ⟨hgone, (Option.some.inj h).symm⟩
      case isFalse hhere => exact .inr ⟨hhere, (Option.some.inj h).symm⟩
  case h_2 => cases h

theorem serverClose_cases {s s' : Sys} (h : serverClose s = some s') :
    s.server = .closing ∧ s' = { s with server := .closed } := by
  unfold serverClose at h
  split at h
  case isTrue hclosing => exact ⟨hclosing, (Option.some.inj h).symm⟩
  case isFalse => cases h

/-! ## A reply fits into one `read` -/

/-- The values of the table leave room for a newline in the client's buffer. -/
def ShortValues (store : Store) : Prop := ∀ e ∈ store, (cstr e.value).length ≤ bufSize - 4

theorem shortValues_kvCommit {store : Store} {key value : Bytes} (h : ShortValues store)
    (hvalue : Fits value) (hlen : value.length ≤ bufSize - 4) (found : Option Nat) :
    ShortValues (kvCommit store key value found) := by
  have hnew : (cstr (copyField value)).length ≤ bufSize - 4 := by
    rw [hvalue.cstr_copyField]
    exact hlen
  cases found with
  | some i =>
      intro e he
      have ⟨j, hj⟩ := List.mem_iff_getElem?.mp he
      have hj : (store.modify i (fun e => { e with value := copyField value }))[j]? = some e := hj
      rw [List.getElem?_modify] at hj
      have ⟨old, hold, heq⟩ := Option.map_eq_some_iff.mp hj
      rw [← heq]
      split
      · exact hnew
      · exact h old (List.mem_of_getElem? hold)
  | none =>
      intro e he
      rw [kvCommit] at he
      split at he
      · rcases List.mem_append.mp he with hold | hlast
        · exact h e hold
        · rw [List.mem_singleton.mp hlast]
          exact hnew
      · exact h e he

theorem shortValues_handle {srv : Server} {store : Store} {buf : Bytes}
    (hbuf : buf.length ≤ bufSize - 1) (h : ShortValues store) :
    ShortValues (srv.handle store buf).1 := by
  unfold Server.handle
  cases hset : srv.setRequest buf with
  | some kv =>
      have hlen := setRequest_length hset
      have hfits := (setRequest_fits hbuf hset).2
      apply shortValues_kvCommit h hfits
      show kv.2.length ≤ bufSize - 4
      omega
  | none =>
      cases srv.getRequest buf with
      | some key =>
          simp only []
          cases kvGet store key with
          | some val => exact h
          | none => exact h
      | none => exact h

theorem shortValues_serve {srv : Server} {store : Store} (h : ShortValues store)
    (msgs : List Message) : ShortValues (srv.serve store msgs).1 := by
  induction msgs generalizing store with
  | nil => exact h
  | cons msg msgs ih => exact ih (shortValues_handle msg.length_le h)

theorem shortValues_storeAfter (srv : Server) {store : Store} {cmds : List Bytes}
    (h : ShortValues store) (hcmds : ∀ cmd ∈ cmds, cmd.length ≤ bufSize - 1) :
    ShortValues (storeAfter srv store cmds) := by
  induction cmds generalizing store with
  | nil => exact h
  | cons cmd cmds ih =>
      apply ih (shortValues_handle (hcmds cmd List.mem_cons_self) h)
      exact fun c hc => hcmds c (List.mem_cons_of_mem _ hc)

/-- A value that is found is the value of an entry. -/
theorem length_of_kvGet {store : Store} {key val : Bytes} (h : ShortValues store)
    (hget : kvGet store key = some val) : (cstr val).length ≤ bufSize - 4 := by
  have ⟨e, he, hval⟩ := Option.map_eq_some_iff.mp hget
  rw [← hval]
  exact h e (List.mem_of_find?_eq_some he)

theorem reply_length (srv : Server) {store : Store} (h : ShortValues store) (buf : Bytes) :
    1 ≤ (srv.handle store buf).2.bytes.length ∧
      (srv.handle store buf).2.bytes.length ≤ bufSize - 1 := by
  have hfixed : ∀ reply ∈ [Reply.ok, .notFound, .error],
      1 ≤ reply.bytes.length ∧ reply.bytes.length ≤ bufSize - 1 := by
    decide
  have hvalue : ∀ val key, kvGet store key = some val →
      1 ≤ (Reply.value (cstr val)).bytes.length ∧
        (Reply.value (cstr val)).bytes.length ≤ bufSize - 1 := by
    intro val key hget
    have hlen := length_of_kvGet h hget
    have hbytes : (Reply.value (cstr val)).bytes.length = (cstr val).length + 1 :=
      List.length_append
    rw [hbytes]
    exact ⟨Nat.le_add_left 1 _, by unfold bufSize at hlen ⊢; omega⟩
  unfold Server.handle
  cases srv.setRequest buf with
  | some kv => exact hfixed .ok (by simp)
  | none =>
      cases srv.getRequest buf with
      | some key =>
          simp only []
          cases hget : kvGet store key with
          | some val => exact hvalue val key hget
          | none => exact hfixed .notFound (by simp)
      | none => exact hfixed .error (by simp)

/-! ## The phases of an exchange -/

variable {srv : Server} {store₀ : Store}

theorem storeAfter_concat (cmds : List Bytes) (cmd : Bytes) :
    storeAfter srv store₀ (cmds ++ [cmd]) = (srv.handle (storeAfter srv store₀ cmds) cmd).1 := by
  rw [storeAfter, List.foldl_append]
  rfl

theorem repliesTo_concat (cmds : List Bytes) (cmd : Bytes) :
    repliesTo srv store₀ (cmds ++ [cmd]) =
      repliesTo srv store₀ cmds ++ [(srv.handle (storeAfter srv store₀ cmds) cmd).2.bytes] := by
  induction cmds generalizing store₀ with
  | nil => rfl
  | cons c cmds ih => exact congrArg (_ :: ·) ih

/-- The client waits for the reply to `cmd`; those to the commands before it are
shown. -/
structure Exchange (srv : Server) (store₀ : Store) (pre : List Bytes) (cmd : Bytes) (s : Sys) :
    Prop where
  waiting : s.client = .waiting
  sent : s.sent = pre ++ [cmd]
  shown : s.shown = repliesTo srv store₀ pre
  cmd_ne : cmd ≠ []

/-- Where client and server are. -/
inductive Phase (srv : Server) (store₀ : Store) (s : Sys) : Prop
  | idle (hclient : s.client = .prompt ∨ s.client = .exited)
      (hsocket : s.toServer = [] ∧ s.toClient = [])
      (hserver : ∀ reply, s.server ≠ .writing reply)
      (hstore : s.store = storeAfter srv store₀ s.sent)
      (hshown : s.shown = repliesTo srv store₀ s.sent)
  | asked (pre : List Bytes) (cmd : Bytes) (hex : Exchange srv store₀ pre cmd s)
      (hserver : s.server = .reading) (hsocket : s.toServer = cmd ∧ s.toClient = [])
      (hstore : s.store = storeAfter srv store₀ pre)
  | handled (pre : List Bytes) (cmd : Bytes) (hex : Exchange srv store₀ pre cmd s)
      (hserver : s.server = .writing (srv.handle (storeAfter srv store₀ pre) cmd).2)
      (hsocket : s.toServer = [] ∧ s.toClient = [])
      (hstore : s.store = storeAfter srv store₀ (pre ++ [cmd]))
  | answered (pre : List Bytes) (cmd : Bytes) (hex : Exchange srv store₀ pre cmd s)
      (hserver : ∀ reply, s.server ≠ .writing reply)
      (hsocket : s.toServer = [] ∧
        s.toClient = (srv.handle (storeAfter srv store₀ pre) cmd).2.bytes)
      (hstore : s.store = storeAfter srv store₀ (pre ++ [cmd]))

theorem Phase.init (srv : Server) (store₀ : Store) (typed : Bytes) :
    Phase srv store₀ (Sys.init store₀ typed) :=
  .idle (.inl rfl) ⟨rfl, rfl⟩ (fun _ h => nomatch h) rfl rfl

theorem bytes_ne_nil (reply : Reply) : reply.bytes ≠ [] := by
  cases reply with
  | ok => exact List.cons_ne_nil _ _
  | value text => exact List.append_ne_nil_of_right_ne_nil _ (List.cons_ne_nil _ _)
  | notFound => exact List.cons_ne_nil _ _
  | error => exact List.cons_ne_nil _ _

/-- No phase leaves a reply out. -/
theorem Phase.served {s : Sys} (phase : Phase srv store₀ s) : s.Served srv store₀ := by
  cases phase with
  | idle hclient hsocket hserver hstore hshown =>
      refine ⟨fun hdead => ?_, ?_, fun _ => ⟨hshown, hsocket.1, hsocket.2, hserver⟩⟩
      · rcases hclient with hclient | hclient <;> cases hclient.symm.trans hdead.1
      · rcases hclient with hclient | hclient <;> simp [hclient]
  | asked pre cmd hex hserver hsocket hstore =>
      refine ⟨fun hdead => hex.cmd_ne (hsocket.1.symm.trans hdead.2.2.1), ?_, ?_⟩
      · simp [hex.waiting]
      · simp [hex.waiting]
  | handled pre cmd hex hserver hsocket hstore =>
      refine ⟨fun hdead => ?_, ?_, ?_⟩
      · cases hserver.symm.trans hdead.2.1
      · simp [hex.waiting]
      · simp [hex.waiting]
  | answered pre cmd hex hserver hsocket hstore =>
      refine ⟨fun hdead => ?_, ?_, ?_⟩
      · exact bytes_ne_nil _ (hsocket.2.symm.trans hdead.2.2.2)
      · simp [hex.waiting]
      · simp [hex.waiting]

/-- A client at its prompt has a command to send only while the server reads, and
it is not empty. -/
def Ready (s : Sys) : Prop :=
  s.client = .prompt → ∀ cmd rest, commands s.stdin = cmd :: rest →
    cmd ≠ [] ∧ s.server = .reading

/-- The commands that were sent fit into the server's buffer. -/
def SentFits (s : Sys) : Prop := ∀ cmd ∈ s.sent, cmd.length ≤ bufSize - 1

theorem SentFits.step {s s' : Sys} {a : Act} (hfits : SentFits s) (h : s.step srv a = some s') :
    SentFits s' := by
  cases a with
  | clientType =>
      have ⟨_, hcases⟩ := clientType_cases h
      rcases hcases with ⟨stdin, heq⟩ | ⟨cmd, stdin, _, hlen, ⟨_, heq⟩ | ⟨_, heq⟩⟩
      · subst heq
        exact hfits
      · subst heq
        exact hfits
      · subst heq
        intro c hc
        rcases List.mem_append.mp hc with hc | hc
        · exact hfits c hc
        · rw [List.mem_singleton.mp hc]
          exact hlen
  | clientRead n =>
      have ⟨_, hcases⟩ := clientRead_cases h
      rcases hcases with ⟨_, _, heq⟩ | ⟨_, _, heq⟩ <;> exact heq ▸ hfits
  | serverRead n =>
      have ⟨_, hcases⟩ := serverRead_cases h
      rcases hcases with ⟨_, _, heq⟩ | ⟨_, _, heq⟩ <;> exact heq ▸ hfits
  | serverWrite =>
      have ⟨_, _, hcases⟩ := serverWrite_cases h
      rcases hcases with ⟨_, heq⟩ | ⟨_, heq⟩ <;> exact heq ▸ hfits
  | serverClose =>
      have ⟨_, heq⟩ := serverClose_cases h
      exact heq ▸ hfits

theorem Phase.clientType {s s' : Sys} (phase : Phase srv store₀ s) (hready : Ready s)
    (h : clientType s = some s') : Phase srv store₀ s' := by
  have ⟨hprompt, hcases⟩ := clientType_cases h
  cases phase with
  | idle hclient hsocket hserver hstore hshown =>
      rcases hcases with ⟨stdin, heq⟩ | ⟨cmd, stdin, hcmds, _, ⟨hclosed, _⟩ | ⟨_, heq⟩⟩
      · subst heq
        exact .idle (.inr rfl) hsocket hserver hstore hshown
      · have hreading := (hready hprompt cmd _ hcmds).2
        cases hclosed.symm.trans hreading
      · have ⟨hne, hreading⟩ := hready hprompt cmd _ hcmds
        subst heq
        refine .asked s.sent cmd ⟨rfl, rfl, hshown, hne⟩ hreading ⟨?_, hsocket.2⟩ hstore
        show s.toServer ++ cmd = cmd
        rw [hsocket.1, List.nil_append]
  | asked pre cmd hex => cases hprompt.symm.trans hex.waiting
  | handled pre cmd hex => cases hprompt.symm.trans hex.waiting
  | answered pre cmd hex => cases hprompt.symm.trans hex.waiting

theorem Phase.clientRead {s s' : Sys} {n : Nat} (phase : Phase srv store₀ s)
    (hshort : ShortValues store₀) (hfits : SentFits s)
    (hwhole : n = min (bufSize - 1) s.toClient.length) (h : clientRead s n = some s') :
    Phase srv store₀ s' := by
  have ⟨hwaiting, hcases⟩ := clientRead_cases h
  have hempty : s.toClient = [] → s.server = .closed := by
    intro hnil
    rcases hcases with ⟨hn, hle, _⟩ | ⟨_, hclosed, _⟩
    · rw [hnil] at hle
      exact absurd (hn.trans hle) (by decide)
    · exact hclosed
  cases phase with
  | idle hclient =>
      rcases hclient with hclient | hclient <;> cases hclient.symm.trans hwaiting
  | asked pre cmd hex hserver hsocket => cases hserver.symm.trans (hempty hsocket.2)
  | handled pre cmd hex hserver hsocket => cases hserver.symm.trans (hempty hsocket.2)
  | answered pre cmd hex hserver hsocket hstore =>
      rcases hcases with ⟨_, _, heq⟩ | ⟨hnil, _, _⟩
      · have hpre : ∀ c ∈ pre, c.length ≤ bufSize - 1 := by
          intro c hc
          apply hfits c
          rw [hex.sent]
          exact List.mem_append_left _ hc
        have hreply := reply_length srv (shortValues_storeAfter srv hshort hpre) cmd
        have hall : n = s.toClient.length := by
          rw [hwhole, hsocket.2]
          omega
        subst heq
        refine .idle (.inl rfl) ⟨hsocket.1, ?_⟩ hserver ?_ ?_
        · show s.toClient.drop n = []
          rw [hall, List.drop_length]
        · show s.store = storeAfter srv store₀ s.sent
          rw [hstore, hex.sent]
        · show s.shown ++ [s.toClient.take n] = repliesTo srv store₀ s.sent
          rw [hall, List.take_length, hex.shown, hex.sent, repliesTo_concat, hsocket.2]
      · exact absurd (hsocket.2.symm.trans hnil) (bytes_ne_nil _)

theorem Phase.serverRead {s s' : Sys} {n : Nat} (phase : Phase srv store₀ s) (hfits : SentFits s)
    (hwhole : n = min (bufSize - 1) s.toServer.length) (h : serverRead srv s n = some s') :
    Phase srv store₀ s' := by
  have ⟨hreading, hcases⟩ := serverRead_cases h
  have hempty : s.toServer = [] → s.ClientGone ∧ s' = { s with server := .closing } := by
    intro hnil
    rcases hcases with ⟨hn, hle, _⟩ | ⟨_, hgone⟩
    · rw [hnil] at hle
      exact absurd (hn.trans hle) (by decide)
    · exact hgone
  cases phase with
  | idle hclient hsocket hserver hstore hshown =>
      rw [(hempty hsocket.1).2]
      exact .idle hclient hsocket (fun _ h => nomatch h) hstore hshown
  | asked pre cmd hex hserver hsocket hstore =>
      rcases hcases with ⟨_, _, heq⟩ | ⟨hnil, _⟩
      · have hlen : cmd.length ≤ bufSize - 1 := by
          apply hfits cmd
          rw [hex.sent]
          exact List.mem_append_right _ (List.mem_singleton.mpr rfl)
        have hall : n = s.toServer.length := by
          rw [hwhole, hsocket.1]
          omega
        rw [hall, List.take_length, List.drop_length, hsocket.1, hstore] at heq
        subst heq
        exact .handled pre cmd ⟨hex.waiting, hex.sent, hex.shown, hex.cmd_ne⟩ rfl
          ⟨rfl, hsocket.2⟩ (storeAfter_concat pre cmd).symm
      · exact absurd (hsocket.1.symm.trans hnil) hex.cmd_ne
  | handled pre cmd hex hserver => cases hserver.symm.trans hreading
  | answered pre cmd hex hserver hsocket =>
      exact absurd hex.waiting (hempty hsocket.1).1.2

theorem Phase.serverWrite {s s' : Sys} (phase : Phase srv store₀ s)
    (h : serverWrite srv s = some s') : Phase srv store₀ s' := by
  have ⟨reply, hwriting, hcases⟩ := serverWrite_cases h
  cases phase with
  | idle hclient hsocket hserver => exact absurd hwriting (hserver reply)
  | asked pre cmd hex hserver => cases hserver.symm.trans hwriting
  | handled pre cmd hex hserver hsocket hstore =>
      rcases hcases with ⟨hgone, _⟩ | ⟨_, heq⟩
      · exact absurd hex.waiting hgone.2
      · have hreply : reply = (srv.handle (storeAfter srv store₀ pre) cmd).2 :=
          ServerPc.writing.inj (hwriting.symm.trans hserver)
        subst heq
        refine .answered pre cmd ⟨hex.waiting, hex.sent, hex.shown, hex.cmd_ne⟩ ?_
          ⟨hsocket.1, ?_⟩ hstore
        · intro r
          show afterReply srv ≠ .writing r
          cases srv <;> exact ServerPc.noConfusion
        · show s.toClient ++ reply.bytes = _
          rw [hsocket.2, hreply, List.nil_append]
  | answered pre cmd hex hserver => exact absurd hwriting (hserver reply)

theorem Phase.serverClose {s s' : Sys} (phase : Phase srv store₀ s)
    (h : serverClose s = some s') : Phase srv store₀ s' := by
  have ⟨hclosing, heq⟩ := serverClose_cases h
  subst heq
  cases phase with
  | idle hclient hsocket hserver hstore hshown =>
      exact .idle hclient hsocket (fun _ h => nomatch h) hstore hshown
  | asked pre cmd hex hserver => cases hserver.symm.trans hclosing
  | handled pre cmd hex hserver => cases hserver.symm.trans hclosing
  | answered pre cmd hex hserver hsocket hstore =>
      exact .answered pre cmd ⟨hex.waiting, hex.sent, hex.shown, hex.cmd_ne⟩
        (fun _ h => nomatch h) hsocket hstore

/-- A step with whole reads leads from one phase to the next. -/
theorem Phase.step {s s' : Sys} {a : Act} (phase : Phase srv store₀ s)
    (hshort : ShortValues store₀) (hfits : SentFits s) (hready : Ready s)
    (hwhole : WholeReads s a) (h : s.step srv a = some s') : Phase srv store₀ s' := by
  cases a with
  | clientType => exact phase.clientType hready h
  | clientRead n => exact phase.clientRead hshort hfits hwhole h
  | serverRead n => exact phase.serverRead hfits hwhole h
  | serverWrite => exact phase.serverWrite h
  | serverClose => exact phase.serverClose h

end SystemsInC.Ports.KvSession
