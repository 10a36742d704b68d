import SystemsInC.Ports.KvSession

/-!
# Which sessions get their answers

A session with the modularized server goes well exactly if no command is empty:
an empty line, a line that leaves nothing but its newline to the last `fgets`,
and a piece that starts with a NUL all make the client wait for a reply that the
server has no reason to write (`modular_session_iff`).

The other server closes the connection after its first reply, while its client
goes on with the same socket, so that a session goes well exactly if it has one
command at most (`one_command_iff`).
-/

namespace SystemsInC.Ports.KvAnswers

open SystemsInC.Verified.CString
open SystemsInC.Verified.GuardedRuns
open SystemsInC.Verified.TextInput (ascii chomp fgetsLine)
open SystemsInC.Ports.KvStore
open SystemsInC.Ports.KvSession

variable {srv : Server} {s s' s₀ : Sys} {cmd : Bytes} {rest : List Bytes}

/-! ## One exchange after another -/

/-- The next command is what the client types. -/
theorem clientType_send (hprompt : s.client = .prompt) (hopen : s.server ≠ .closed)
    (hcmds : commands s.stdin = cmd :: rest) :
    cmd.length ≤ bufSize - 1 ∧ ∃ stdin, commands stdin = rest ∧
      clientType s = some { s with
        client := .waiting
        stdin := stdin
        toServer := s.toServer ++ cmd
        sent := s.sent ++ [cmd] } := by
  have hne : s.stdin ≠ [] := by
    intro hnil
    rw [hnil, commands_nil] at hcmds
    cases hcmds
  have hexit : isExit (chomp (fgetsLine bufSize s.stdin)) = false := by
    by_contra hexit
    rw [commands_exit (by simpa using hexit)] at hcmds
    cases hcmds
  rw [commands_piece hne hexit] at hcmds
  have ⟨hcmd, hrest⟩ := List.cons.inj hcmds
  subst hcmd
  refine ⟨chomp_length_le s.stdin, _, hrest, ?_⟩
  rw [clientType, if_pos hprompt, if_neg hne]
  simp only [hexit, if_neg Bool.false_ne_true, if_neg hopen]

/-- A client at its prompt, and a server that reads. -/
structure AtPrompt (s : Sys) : Prop where
  client : s.client = .prompt
  server : s.server = .reading
  toServer : s.toServer = []
  toClient : s.toClient = []
  short : ShortValues s.store

theorem AtPrompt.init {store : Store} (hshort : ShortValues store) (typed : Bytes) :
    AtPrompt (Sys.init store typed) :=
  ⟨rfl, rfl, rfl, rfl, hshort⟩

/-- A command that is not empty gets its reply. -/
theorem AtPrompt.exchange (srv : Server) (hs : AtPrompt s) (hcmds : commands s.stdin = cmd :: rest)
    (hne : cmd ≠ []) (hreach : Reach (Sys.step srv) WholeReads s₀ s) :
    ∃ s', Reach (Sys.step srv) WholeReads s₀ s' ∧ commands s'.stdin = rest ∧
      s'.client = .prompt ∧ s'.server = afterReply srv ∧ s'.toServer = [] ∧ s'.toClient = [] ∧
      ShortValues s'.store := by
  have hopen : s.server ≠ .closed := by
    rw [hs.server]
    exact ServerPc.noConfusion
  have ⟨hlen, stdin, hrest, htype⟩ := clientType_send hs.client hopen hcmds
  rw [hs.toServer, List.nil_append] at htype
  have hpos := List.length_pos_iff.mpr hne
  have hreply := reply_length srv hs.short cmd
  let done := srv.handle s.store cmd
  let asked : Sys :=
    { s with
      client := .waiting
      stdin := stdin
      toServer := cmd
      sent := s.sent ++ [cmd] }
  let handled : Sys := { asked with toServer := [], store := done.1, server := .writing done.2 }
  let replied : Sys := { handled with toClient := done.2.bytes, server := afterReply srv }
  let read : Sys :=
    { replied with
      client := .prompt
      toClient := []
      shown := s.shown ++ [done.2.bytes] }
  have hhandled : asked.step srv (.serverRead cmd.length) = some handled := by
    show serverRead srv asked cmd.length = some handled
    rw [serverRead, if_pos hs.server, if_pos ⟨hpos, hlen, Nat.le_refl _⟩]
    simp only [asked, handled, done, List.take_length, List.drop_length]
  have hreplied : handled.step srv .serverWrite = some replied := by
    have hhere : ¬ handled.ClientGone := fun hgone => hgone.2 rfl
    show serverWrite srv handled = some replied
    simp only [serverWrite, handled, if_neg hhere]
    simp only [replied, handled, asked, hs.toClient, List.nil_append]
  have hread : replied.step srv (.clientRead done.2.bytes.length) = some read := by
    show clientRead replied done.2.bytes.length = some read
    rw [clientRead, if_pos rfl, if_pos ⟨hreply.1, hreply.2, Nat.le_refl _⟩]
    simp only [read, replied, List.take_length, List.drop_length]
    rfl
  have h₁ := Reach.step Act.clientType hreach trivial htype
  have h₂ := Reach.step (Act.serverRead cmd.length) h₁ (Nat.min_eq_right hlen).symm hhandled
  have h₃ := Reach.step Act.serverWrite h₂ trivial hreplied
  have h₄ := Reach.step (Act.clientRead done.2.bytes.length) h₃ (Nat.min_eq_right hreply.2).symm
    hread
  exact ⟨read, h₄, hrest, rfl, rfl, rfl, rfl, shortValues_handle hlen hs.short⟩

/-! ## A command without a byte -/

/-- With nothing to send the client waits, and so does the server. -/
theorem AtPrompt.deadlock (srv : Server) (hs : AtPrompt s) (hcmds : commands s.stdin = [] :: rest)
    (hreach : Reach (Sys.step srv) WholeReads s₀ s) :
    ∃ s', Reach (Sys.step srv) WholeReads s₀ s' ∧ s'.Deadlocked := by
  have hopen : s.server ≠ .closed := by
    rw [hs.server]
    exact ServerPc.noConfusion
  have ⟨_, stdin, _, htype⟩ := clientType_send hs.client hopen hcmds
  refine ⟨_, Reach.step Act.clientType hreach trivial htype, rfl, hs.server, ?_, hs.toClient⟩
  show s.toServer ++ [] = []
  rw [hs.toServer, List.append_nil]

/-- The modularized server answers up to the first command without a byte. -/
theorem AtPrompt.deadlock_of_mem (hs : AtPrompt s) (hmem : [] ∈ commands s.stdin)
    (hreach : Reach (Sys.step .modular) WholeReads s₀ s) :
    ∃ s', Reach (Sys.step .modular) WholeReads s₀ s' ∧ s'.Deadlocked := by
  cases hcmds : commands s.stdin with
  | nil => simp [hcmds] at hmem
  | cons cmd cmds =>
      induction cmds generalizing s cmd with
      | nil =>
          rw [hcmds, List.mem_singleton] at hmem
          exact hs.deadlock .modular (hmem ▸ hcmds) hreach
      | cons next cmds ih =>
          by_cases hne : cmd = []
          · exact hs.deadlock .modular (hne ▸ hcmds) hreach
          · have ⟨s', hreach', hrest, hclient, hserver, htoServer, htoClient, hshort⟩ :=
              hs.exchange .modular hcmds hne hreach
            have hs' : AtPrompt s' := ⟨hclient, hserver, htoServer, htoClient, hshort⟩
            apply ih hs' _ hreach' next hrest
            rw [hcmds, List.mem_cons] at hmem
            rw [hrest]
            exact hmem.resolve_left (fun heq => hne heq.symm)

/-! ## The modularized server -/

/-- The commands still to come are not empty, the connection is open, and a
client that waits has something to wait for. -/
structure Alive (s : Sys) : Prop where
  nonempty : ¬ s.ClientGone → ∀ cmd ∈ commands s.stdin, cmd ≠ []
  connection : ¬ s.ClientGone → s.server ≠ .closing ∧ s.server ≠ .closed
  pending : s.client = .waiting →
    s.toServer ≠ [] ∨ (∃ reply, s.server = .writing reply) ∨ s.toClient ≠ []

theorem Alive.init {store : Store} {typed : Bytes} (htyped : ∀ cmd ∈ commands typed, cmd ≠ []) :
    Alive (Sys.init store typed) where
  nonempty := fun _ => htyped
  connection := fun _ => ⟨ServerPc.noConfusion, ServerPc.noConfusion⟩
  pending := fun h => nomatch h

theorem not_gone_of_prompt (h : s.client = .prompt) : ¬ s.ClientGone := fun hgone => hgone.1 h

theorem not_gone_of_waiting (h : s.client = .waiting) : ¬ s.ClientGone := fun hgone => hgone.2 h

/-- A client whose end of the socket is closed breaks no promise. -/
theorem Alive.of_gone (h : s.ClientGone) : Alive s where
  nonempty := fun hhere => absurd h hhere
  connection := fun hhere => absurd h hhere
  pending := fun hwaiting => absurd hwaiting h.2

/-- Whatever the sizes of the reads are, something is on its way to a client that
waits. -/
theorem Alive.step {a : Act} (alive : Alive s) (h : s.step .modular a = some s') : Alive s' := by
  cases a with
  | clientType =>
      have ⟨hprompt, hcases⟩ := clientType_cases h
      have hhere := not_gone_of_prompt hprompt
      rcases hcases with ⟨stdin, heq⟩ | ⟨cmd, stdin, hcmds, _, ⟨_, heq⟩ | ⟨_, heq⟩⟩
      · subst heq
        exact .of_gone ⟨ClientPc.noConfusion, ClientPc.noConfusion⟩
      · subst heq
        exact .of_gone ⟨ClientPc.noConfusion, ClientPc.noConfusion⟩
      · have hall := alive.nonempty hhere
        rw [hcmds] at hall
        subst heq
        refine ⟨fun _ c hc => hall c (List.mem_cons_of_mem _ hc), fun _ => alive.connection hhere,
          fun _ => .inl ?_⟩
        exact List.append_ne_nil_of_right_ne_nil _ (hall cmd List.mem_cons_self)
  | clientRead n =>
      have ⟨hwaiting, hcases⟩ := clientRead_cases h
      have hhere := not_gone_of_waiting hwaiting
      rcases hcases with ⟨_, _, heq⟩ | ⟨_, _, heq⟩
      · subst heq
        exact ⟨fun _ => alive.nonempty hhere, fun _ => alive.connection hhere,
          fun h => nomatch h⟩
      · subst heq
        exact .of_gone ⟨ClientPc.noConfusion, ClientPc.noConfusion⟩
  | serverRead n =>
      have ⟨hreading, hcases⟩ := serverRead_cases h
      rcases hcases with ⟨_, _, heq⟩ | ⟨_, hgone, heq⟩
      · subst heq
        exact ⟨alive.nonempty, fun _ => ⟨ServerPc.noConfusion, ServerPc.noConfusion⟩,
          fun _ => .inr (.inl ⟨_, rfl⟩)⟩
      · subst heq
        exact .of_gone hgone
  | serverWrite =>
      have ⟨reply, hwriting, hcases⟩ := serverWrite_cases h
      rcases hcases with ⟨hgone, heq⟩ | ⟨_, heq⟩
      · subst heq
        exact .of_gone hgone
      · subst heq
        refine ⟨alive.nonempty, fun _ => ⟨ServerPc.noConfusion, ServerPc.noConfusion⟩,
          fun _ => .inr (.inr ?_)⟩
        exact List.append_ne_nil_of_right_ne_nil _ (bytes_ne_nil reply)
  | serverClose =>
      have ⟨hclosing, heq⟩ := serverClose_cases h
      by_cases hgone : s.ClientGone
      · subst heq
        exact .of_gone hgone
      · exact absurd hclosing (alive.connection hgone).1

theorem Alive.not_deadlocked (alive : Alive s) : ¬ s.Deadlocked := by
  rintro ⟨hwaiting, hreading, htoServer, htoClient⟩
  rcases alive.pending hwaiting with hne | ⟨reply, hwriting⟩ | hne
  · exact hne htoServer
  · cases hreading.symm.trans hwriting
  · exact hne htoClient

/-- At its prompt the client meets a server that reads. -/
theorem Alive.ready {store₀ : Store} (alive : Alive s) (phase : Phase srv store₀ s) : Ready s := by
  intro hprompt cmd cmds hcmds
  have hhere := not_gone_of_prompt hprompt
  refine ⟨alive.nonempty hhere cmd (by simp [hcmds]), ?_⟩
  have hidle := (phase.served.answered (.inl hprompt)).2.2.2
  cases hserver : s.server with
  | reading => rfl
  | writing reply => exact absurd hserver (hidle reply)
  | closing => exact absurd hserver (alive.connection hhere).1
  | closed => exact absurd hserver (alive.connection hhere).2

theorem shortValues_nil : ShortValues [] := fun _ h => nomatch h

/-- A session with the modularized server, whatever was requested before it: it
does not deadlock, whatever the sizes of the reads are, and with whole reads each
command gets its reply before the next prompt, if and only if no command is
empty. -/
theorem modular_session_iff (pre : List Message) (typed : Bytes) :
    let store := (Server.serve .modular [] pre).1
    let start := Sys.init store typed
    ((∀ s, Reach (Sys.step .modular) (fun _ _ => True) start s → ¬ s.Deadlocked) ∧
      ∀ s, Reach (Sys.step .modular) WholeReads start s → s.Served .modular store) ↔
      ∀ cmd ∈ commands typed, cmd ≠ [] := by
  intro store start
  have hshort : ShortValues store := shortValues_serve shortValues_nil pre
  constructor
  · rintro ⟨-, hserved⟩ cmd hcmd rfl
    have ⟨s', hreach, hdead⟩ := (AtPrompt.init hshort typed).deadlock_of_mem hcmd .refl
    exact (hserved s' hreach).not_deadlocked hdead
  · intro htyped
    refine ⟨fun s hreach => ?_, fun s hreach => ?_⟩
    · have halive : Alive s :=
        hreach.keeps (Alive.init htyped) (fun _ _ _ alive _ hs => alive.step hs)
      exact halive.not_deadlocked
    · have hinv : Phase .modular store s ∧ SentFits s ∧ Alive s := by
        apply hreach.keeps (P := fun s => Phase .modular store s ∧ SentFits s ∧ Alive s)
        · exact ⟨Phase.init _ _ _, fun _ h => (nomatch h), Alive.init htyped⟩
        · rintro s a s' ⟨phase, fits, alive⟩ hwhole hs
          exact ⟨phase.step hshort fits (alive.ready phase) hwhole hs, fits.step hs,
            alive.step hs⟩
      exact hinv.1.served

/-- An empty line. -/
theorem empty_line_deadlocks :
    ∃ s, Reach (Sys.step .modular) WholeReads (Sys.init [] (ascii "\n")) s ∧ s.Deadlocked := by
  have htype : (Sys.init [] (ascii "\n")).step .modular .clientType = some _ := rfl
  exact ⟨_, Reach.step Act.clientType .refl trivial htype, rfl, rfl, rfl, rfl⟩

/-! ## The server that closes the connection -/

/-- A command that is sent while the server is about to close the connection gets
no reply. -/
theorem hungUp_of_closing (hprompt : s.client = .prompt) (hclosing : s.server = .closing)
    (htoClient : s.toClient = []) (hcmds : commands s.stdin = cmd :: rest)
    (hreach : Reach (Sys.step srv) WholeReads s₀ s) :
    ∃ s', Reach (Sys.step srv) WholeReads s₀ s' ∧ s'.client = .hungUp ∧
      s'.sent = s.sent ++ [cmd] ∧ s'.shown = s.shown ∧ s'.toServer = s.toServer ++ cmd := by
  have hopen : s.server ≠ .closed := by
    rw [hclosing]
    exact ServerPc.noConfusion
  have ⟨_, stdin, _, htype⟩ := clientType_send hprompt hopen hcmds
  let asked : Sys :=
    { s with
      client := .waiting
      stdin := stdin
      toServer := s.toServer ++ cmd
      sent := s.sent ++ [cmd] }
  have hclose : asked.step srv .serverClose = some { asked with server := .closed } :=
    if_pos hclosing
  have hend : { asked with server := .closed }.step srv (.clientRead 0) =
      some { asked with server := .closed, client := .hungUp } := by
    show clientRead _ 0 = _
    rw [clientRead, if_pos rfl, if_neg (fun hn => absurd hn.1 (by decide)),
      if_pos ⟨rfl, htoClient, rfl⟩]
  have h₁ := Reach.step Act.clientType hreach trivial htype
  have h₂ := Reach.step Act.serverClose h₁ trivial hclose
  have hwhole : WholeReads { asked with server := .closed } (.clientRead 0) := by
    show 0 = min (bufSize - 1) s.toClient.length
    rw [htoClient]
    rfl
  exact ⟨_, Reach.step (Act.clientRead 0) h₂ hwhole hend, rfl, rfl, rfl, rfl⟩

/-- There is no more to come, or one command that is not empty while the server
reads. -/
structure LastCommand (s : Sys) : Prop where
  prompt : s.client = .prompt → commands s.stdin = [] ∨
    s.server = .reading ∧ ∃ cmd, cmd ≠ [] ∧ commands s.stdin = [cmd]
  waiting : s.client = .waiting → commands s.stdin = []

theorem LastCommand.ready (last : LastCommand s) : Ready s := by
  intro hprompt cmd cmds hcmds
  rcases last.prompt hprompt with hnil | ⟨hreading, c, hne, hone⟩
  · cases hcmds.symm.trans hnil
  · have hcmd := (List.cons.inj (hcmds.symm.trans hone)).1
    exact ⟨hcmd ▸ hne, hreading⟩

theorem LastCommand.step {store₀ : Store} {a : Act} (last : LastCommand s)
    (phase : Phase srv store₀ s) (h : s.step srv a = some s') : LastCommand s' := by
  cases a with
  | clientType =>
      have ⟨hprompt, hcases⟩ := clientType_cases h
      rcases hcases with ⟨stdin, heq⟩ | ⟨cmd, stdin, hcmds, _, ⟨_, heq⟩ | ⟨_, heq⟩⟩
      · subst heq
        exact ⟨fun h => (nomatch h), fun h => (nomatch h)⟩
      · subst heq
        exact ⟨fun h => (nomatch h), fun h => (nomatch h)⟩
      · have hlast : commands stdin = [] := by
          rcases last.prompt hprompt with hnil | ⟨_, c, _, hone⟩
          · cases hcmds.symm.trans hnil
          · exact (List.cons.inj (hcmds.symm.trans hone)).2
        subst heq
        exact ⟨fun h => (nomatch h), fun _ => hlast⟩
  | clientRead n =>
      have ⟨hwaiting, hcases⟩ := clientRead_cases h
      rcases hcases with ⟨_, _, heq⟩ | ⟨_, _, heq⟩
      · subst heq
        exact ⟨fun _ => .inl (last.waiting hwaiting), fun h => (nomatch h)⟩
      · subst heq
        exact ⟨fun h => (nomatch h), fun h => (nomatch h)⟩
  | serverRead n =>
      have ⟨_, hcases⟩ := serverRead_cases h
      -- a server that reads something meets a client that waits
      have hhere : s.client = .prompt → False := by
        intro hprompt
        have hnil := (phase.served.answered (.inl hprompt)).2.1
        rcases hcases with ⟨hn, hle, _⟩ | ⟨_, hgone, _⟩
        · rw [hnil] at hle
          exact absurd (hn.trans hle) (by decide)
        · exact hgone.1 hprompt
      rcases hcases with ⟨_, _, heq⟩ | ⟨_, _, heq⟩
      · subst heq
        exact ⟨fun hprompt => (hhere hprompt).elim, last.waiting⟩
      · subst heq
        exact ⟨fun hprompt => (hhere hprompt).elim, last.waiting⟩
  | serverWrite =>
      have ⟨reply, hwriting, hcases⟩ := serverWrite_cases h
      have hprompt : s.client = .prompt → commands s.stdin = [] := by
        intro hprompt
        rcases last.prompt hprompt with hnil | ⟨hreading, _⟩
        · exact hnil
        · cases hreading.symm.trans hwriting
      rcases hcases with ⟨_, heq⟩ | ⟨_, heq⟩
      · subst heq
        exact ⟨fun h => .inl (hprompt h), last.waiting⟩
      · subst heq
        exact ⟨fun h => .inl (hprompt h), last.waiting⟩
  | serverClose =>
      have ⟨hclosing, heq⟩ := serverClose_cases h
      subst heq
      refine ⟨fun hprompt => .inl ?_, last.waiting⟩
      rcases last.prompt hprompt with hnil | ⟨hreading, _⟩
      · exact hnil
      · cases hreading.symm.trans hclosing

/-- A session with the other server, whatever was requested before it: every
command gets its reply if and only if there is at most one, and it is not
empty. -/
theorem one_command_iff (pre : List Message) (typed : Bytes) :
    let store := (Server.serve .keyValue [] pre).1
    let start := Sys.init store typed
    (∀ s, Reach (Sys.step .keyValue) WholeReads start s → s.Served .keyValue store) ↔
      commands typed = [] ∨ ∃ cmd, cmd ≠ [] ∧ commands typed = [cmd] := by
  intro store start
  have hshort : ShortValues store := shortValues_serve shortValues_nil pre
  have hstart : AtPrompt start := AtPrompt.init hshort typed
  constructor
  · intro hserved
    cases hcmds : commands typed with
    | nil => exact .inl rfl
    | cons cmd cmds =>
        have hne : cmd ≠ [] := by
          rintro rfl
          have ⟨s', hreach, hdead⟩ := hstart.deadlock .keyValue hcmds .refl
          exact (hserved s' hreach).not_deadlocked hdead
        cases cmds with
        | nil => exact .inr ⟨cmd, hne, rfl⟩
        | cons next cmds =>
            have ⟨s₁, hreach₁, hrest, hprompt, hclosing, _, htoClient, _⟩ :=
              hstart.exchange .keyValue hcmds hne .refl
            have ⟨s₂, hreach₂, hhung, _⟩ :=
              hungUp_of_closing hprompt hclosing htoClient hrest hreach₁
            exact absurd hhung (hserved s₂ hreach₂).connected.1
  · intro htyped s hreach
    have hlast : LastCommand start := by
      refine ⟨fun _ => ?_, fun h => (nomatch h)⟩
      rcases htyped with hnil | hone
      · exact .inl hnil
      · exact .inr ⟨rfl, hone⟩
    have hinv : Phase .keyValue store s ∧ SentFits s ∧ LastCommand s := by
      apply hreach.keeps (P := fun s => Phase .keyValue store s ∧ SentFits s ∧ LastCommand s)
      · exact ⟨Phase.init _ _ _, fun _ h => (nomatch h), hlast⟩
      · rintro s a s' ⟨phase, fits, last⟩ hwhole hs
        exact ⟨phase.step hshort fits last.ready hwhole hs, fits.step hs, last.step phase hs⟩
    exact hinv.1.served

/-- Two commands on one connection: the second one is sent, nobody reads it, and
the client finds the connection closed. -/
theorem second_command_unanswered :
    ∃ s, Reach (Sys.step .keyValue) WholeReads (Sys.init [] (ascii "GET a\nGET b\n")) s ∧
      s.client = .hungUp ∧ s.sent = [ascii "GET a", ascii "GET b"] ∧
      s.toServer = ascii "GET b" ∧ s.shown = [ascii "NOT_FOUND\n"] := by
  have h₀ : Reach (Sys.step .keyValue) WholeReads (Sys.init [] (ascii "GET a\nGET b\n"))
    (Sys.init [] (ascii "GET a\nGET b\n")) := .refl
  have h₁ := Reach.step Act.clientType h₀ trivial rfl
  have h₂ := Reach.step (Act.serverRead 5) h₁ rfl rfl
  have h₃ := Reach.step Act.serverWrite h₂ trivial rfl
  have h₄ := Reach.step (Act.clientRead 10) h₃ rfl rfl
  have h₅ := Reach.step Act.clientType h₄ trivial rfl
  have h₆ := Reach.step Act.serverClose h₅ trivial rfl
  have h₇ := Reach.step (Act.clientRead 0) h₆ rfl rfl
  exact ⟨_, h₇, rfl, rfl, rfl, rfl⟩

end SystemsInC.Ports.KvAnswers
