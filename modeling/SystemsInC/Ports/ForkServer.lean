import SystemsInC.Verified.CString
import SystemsInC.Verified.GuardedRuns

/-!
# The echo server with a process for each client

`miniserver.c` in its mode `fork`.  The parent accepts a client, forks a child for it,
closes its own descriptor and calls `waitpid(-1, NULL, WNOHANG)` once before it accepts the next
client; the child reads once, writes back what it has got and exits.

The call of `waitpid` removes one child at most, and only one that has ended by then.  So the
children that the kernel keeps, zombies and running ones together, do not go down again while
`fork` succeeds: `children_peak` says that there are as many as the most that were running at a
call of `waitpid`.
-/

namespace SystemsInC.Ports.ForkServer

open SystemsInC.Verified.CString
open SystemsInC.Verified.GuardedRuns

/-! ## The program -/

/-- `BUF_SIZE`. -/
def bufSize : Nat := 1024

/-- What a client has had read from it, and what has been written to it. -/
structure Conn where
  request : Option Bytes
  answer : Option Bytes
  deriving DecidableEq

/-- What a child does next in `fork_handler`. -/
inductive ChildPc
  | reading
  | writing (request : Bytes)
  /-- `close` and `exit(0)` -/
  | exiting
  /-- a zombie -/
  | exited
  /-- behind an access outside `buffer` -/
  | undefined
  deriving DecidableEq

structure Child where
  clientSock : Nat
  pc : ChildPc
  deriving DecidableEq

def Child.running (child : Child) : Bool := child.pc != .exited

/-- What the parent does next. -/
inductive Pc
  | accepting
  | forking (clientSock : Nat)
  | closing (clientSock : Nat)
  /-- the call of `waitpid` -/
  | waiting
  deriving DecidableEq

structure Sys where
  pc : Pc
  /-- the children that nobody has waited for -/
  children : List Child
  /-- how many clients have been accepted; the next one gets this number -/
  accepted : Nat
  /-- the clients whose descriptors are open in the parent -/
  fds : List Nat
  conn : Nat → Conn

def Sys.init : Sys :=
  { pc := .accepting
    children := []
    accepted := 0
    fds := []
    conn := fun _ => ⟨none, none⟩ }

/-- The calls whose results are not up to the program. -/
inductive Act
  | accept (ok : Bool)
  | fork (ok : Bool)
  | close
  /-- the child that has been waited for -/
  | waitpid (child : Option Nat)
  /-- what the child gets; `none` is an error -/
  | read (child : Nat) (got : Option Bytes)
  /-- how much of it is written, nothing at an error; `none` is a `SIGPIPE` -/
  | write (child : Nat) (written : Option Nat)
  | exit (child : Nat)
  deriving DecidableEq

variable {s s' : Sys} {a : Act} {as : List Act}

def Sys.setChild (s : Sys) (i : Nat) (child : Child) : Sys :=
  { s with children := s.children.set i child }

def Sys.accept (s : Sys) (ok : Bool) : Option Sys :=
  match s.pc with
  | .accepting =>
      if ok then
        some { s with
          pc := .forking s.accepted
          accepted := s.accepted + 1
          fds := s.accepted :: s.fds }
      else
        some s
  | _ => none

def Sys.fork (s : Sys) (ok : Bool) : Option Sys :=
  match s.pc with
  | .forking clientSock =>
      if ok then
        some { s with
          pc := .closing clientSock
          children := s.children ++ [⟨clientSock, .reading⟩] }
      else
        some { s with pc := .closing clientSock }
  | _ => none

def Sys.close (s : Sys) : Option Sys :=
  match s.pc with
  | .closing clientSock => some { s with pc := .waiting, fds := s.fds.erase clientSock }
  | _ => none

/-- `waitpid(-1, NULL, WNOHANG)`: if there is a zombie then one is removed. -/
def Sys.waitpid (s : Sys) (child : Option Nat) : Option Sys :=
  match s.pc, child with
  | .waiting, some i =>
      match s.children[i]? with
      | some ⟨_, .exited⟩ => some { s with pc := .accepting, children := s.children.eraseIdx i }
      | _ => none
  | .waiting, none =>
      if s.children.all Child.running then some { s with pc := .accepting } else none
  | _, _ => none

def Sys.read (s : Sys) (i : Nat) (got : Option Bytes) : Option Sys :=
  match s.children[i]? with
  | some ⟨clientSock, .reading⟩ =>
      match got with
      | some request =>
          if request.length < bufSize then
            some { s.setChild i ⟨clientSock, .writing request⟩ with
              conn := Function.update s.conn clientSock
                { s.conn clientSock with request := some request } }
          else
            some (s.setChild i ⟨clientSock, .undefined⟩)
      | none => some (s.setChild i ⟨clientSock, .undefined⟩)
  | _ => none

def Sys.write (s : Sys) (i : Nat) (written : Option Nat) : Option Sys :=
  match s.children[i]? with
  | some ⟨clientSock, .writing request⟩ =>
      match written with
      | some n =>
          if n ≤ request.length then
            some { s.setChild i ⟨clientSock, .exiting⟩ with
              conn := Function.update s.conn clientSock
                { s.conn clientSock with answer := some (request.take n) } }
          else
            none
      | none => some (s.setChild i ⟨clientSock, .exited⟩)
  | _ => none

def Sys.exit (s : Sys) (i : Nat) : Option Sys :=
  match s.children[i]? with
  | some ⟨clientSock, .exiting⟩ => some (s.setChild i ⟨clientSock, .exited⟩)
  | _ => none

def step (s : Sys) : Act → Option Sys
  | .accept ok => s.accept ok
  | .fork ok => s.fork ok
  | .close => s.close
  | .waitpid child => s.waitpid child
  | .read child got => s.read child got
  | .write child written => s.write child written
  | .exit child => s.exit child

/-- The request leaves room for the 0 behind it. -/
def ReadOk (_ : Sys) : Act → Prop
  | .read _ (some request) => request.length < bufSize
  | .read _ none => False
  | _ => True

instance (s : Sys) (a : Act) : Decidable (ReadOk s a) := by
  unfold ReadOk
  split <;> infer_instance

/-! ## What a step does -/

inductive Move (s : Sys) : Act → Sys → Prop
  | refused (hpc : s.pc = .accepting) : Move s (.accept false) s
  | accept (hpc : s.pc = .accepting) :
      Move s (.accept true) { s with
        pc := .forking s.accepted
        accepted := s.accepted + 1
        fds := s.accepted :: s.fds }
  | fork (clientSock : Nat) (hpc : s.pc = .forking clientSock) :
      Move s (.fork true) { s with
        pc := .closing clientSock
        children := s.children ++ [⟨clientSock, .reading⟩] }
  | unforked (clientSock : Nat) (hpc : s.pc = .forking clientSock) :
      Move s (.fork false) { s with pc := .closing clientSock }
  | close (clientSock : Nat) (hpc : s.pc = .closing clientSock) :
      Move s .close { s with pc := .waiting, fds := s.fds.erase clientSock }
  | reap (i clientSock : Nat) (hpc : s.pc = .waiting)
      (hchild : s.children[i]? = some ⟨clientSock, .exited⟩) :
      Move s (.waitpid (some i)) { s with pc := .accepting, children := s.children.eraseIdx i }
  | none (hpc : s.pc = .waiting) (hall : s.children.all Child.running = true) :
      Move s (.waitpid none) { s with pc := .accepting }
  | read (i clientSock : Nat) (request : Bytes)
      (hchild : s.children[i]? = some ⟨clientSock, .reading⟩) (hshort : request.length < bufSize) :
      Move s (.read i (some request)) { s.setChild i ⟨clientSock, .writing request⟩ with
        conn := Function.update s.conn clientSock
          { s.conn clientSock with request := some request } }
  | overrun (i clientSock : Nat) (got : Option Bytes)
      (hchild : s.children[i]? = some ⟨clientSock, .reading⟩) (hnot : ¬ ReadOk s (.read i got)) :
      Move s (.read i got) (s.setChild i ⟨clientSock, .undefined⟩)
  | write (i clientSock n : Nat) (request : Bytes)
      (hchild : s.children[i]? = some ⟨clientSock, .writing request⟩) (hle : n ≤ request.length) :
      Move s (.write i (some n)) { s.setChild i ⟨clientSock, .exiting⟩ with
        conn := Function.update s.conn clientSock
          { s.conn clientSock with answer := some (request.take n) } }
  | killed (i clientSock : Nat) (request : Bytes)
      (hchild : s.children[i]? = some ⟨clientSock, .writing request⟩) :
      Move s (.write i none) (s.setChild i ⟨clientSock, .exited⟩)
  | exit (i clientSock : Nat) (hchild : s.children[i]? = some ⟨clientSock, .exiting⟩) :
      Move s (.exit i) (s.setChild i ⟨clientSock, .exited⟩)

theorem move_of_step (h : step s a = some s') : Move s a s' := by
  cases a with
  | accept ok =>
      simp only [step, Sys.accept] at h
      split at h
      · rename_i hpc
        cases ok with
        | true => exact Option.some.inj h ▸ .accept hpc
        | false => exact Option.some.inj h ▸ .refused hpc
      · cases h
  | fork ok =>
      simp only [step, Sys.fork] at h
      split at h
      · rename_i clientSock hpc
        cases ok with
        | true => exact Option.some.inj h ▸ .fork clientSock hpc
        | false => exact Option.some.inj h ▸ .unforked clientSock hpc
      · cases h
  | close =>
      simp only [step, Sys.close] at h
      split at h
      · rename_i clientSock hpc
        exact Option.some.inj h ▸ .close clientSock hpc
      · cases h
  | waitpid child =>
      simp only [step, Sys.waitpid] at h
      split at h
      · rename_i i hpc
        split at h
        · rename_i clientSock hchild
          exact Option.some.inj h ▸ .reap i clientSock hpc hchild
        · cases h
      · rename_i hpc
        rw [Option.ite_none_right_eq_some] at h
        exact Option.some.inj h.2 ▸ .none hpc h.1
      · cases h
  | read i got =>
      simp only [step, Sys.read] at h
      split at h
      · rename_i clientSock hchild
        split at h
        · rename_i request
          by_cases hshort : request.length < bufSize
          · rw [if_pos hshort] at h
            exact Option.some.inj h ▸ .read i clientSock request hchild hshort
          · rw [if_neg hshort] at h
            exact Option.some.inj h ▸ .overrun i clientSock _ hchild hshort
        · exact Option.some.inj h ▸ .overrun i clientSock _ hchild id
      · cases h
  | write i written =>
      simp only [step, Sys.write] at h
      split at h
      · rename_i clientSock request hchild
        split at h
        · rename_i n
          rw [Option.ite_none_right_eq_some] at h
          exact Option.some.inj h.2 ▸ .write i clientSock n request hchild h.1
        · exact Option.some.inj h ▸ .killed i clientSock request hchild
      · cases h
  | exit i =>
      simp only [step, Sys.exit] at h
      split at h
      · rename_i clientSock hchild
        exact Option.some.inj h ▸ .exit i clientSock hchild
      · cases h

/-! ## The children that are kept -/

/-- The children that run. -/
def Sys.running (s : Sys) : Nat := s.children.countP Child.running

/-- The children of the turns that are over; behind `fork` the last one is not counted. -/
def Sys.level (s : Sys) : Nat :=
  match s.pc with
  | .accepting | .forking _ => s.children.length
  | .closing _ | .waiting => s.children.length - 1

/-- The running children at a call of `waitpid`. -/
def mark (s : Sys) : Act → Nat
  | .waitpid _ => s.running
  | _ => 0

/-- A turn without a child. -/
def falls (a : Act) : Bool := a == .fork false

/-- Only the calls of `waitpid` count. -/
theorem mark_pos (h : 0 < mark s a) : ∃ child, a = .waitpid child ∧ mark s a = s.running := by
  cases a with
  | waitpid child => exact ⟨child, rfl, rfl⟩
  | _ => cases h

theorem running_le (s : Sys) : s.running ≤ s.children.length := List.countP_le_length

/-- Beside a zombie not all children run. -/
theorem running_lt {i clientSock : Nat} (hchild : s.children[i]? = some ⟨clientSock, .exited⟩) :
    s.running < s.children.length := by
  refine lt_of_le_of_ne (running_le s) (fun heq => ?_)
  have hrunning := List.countP_eq_length.mp heq _ (List.mem_of_getElem? hchild)
  cases hrunning

theorem level_setChild (s : Sys) (i : Nat) (child : Child) :
    (s.setChild i child).level = s.level := by
  unfold Sys.level Sys.setChild
  simp only [List.length_set]

/-- **One step of the level**: it goes up to the running children, and down by failing forks
only. -/
theorem level_step (hs : step s a = some s') :
    s'.level ≤ max s.level (mark s a) ∧
      max s.level (mark s a) ≤ s'.level + if falls a then 1 else 0 := by
  cases move_of_step hs with
  | refused hpc => simp [mark]
  | accept hpc => simp [mark, Sys.level, hpc]
  | fork clientSock hpc => simp [mark, Sys.level, hpc]
  | unforked clientSock hpc =>
      have hfalls : falls (.fork false) = true := rfl
      simp only [mark, Sys.level, hpc, hfalls, reduceIte]
      omega
  | close clientSock hpc => simp [mark, Sys.level, hpc]
  | reap i clientSock hpc hchild =>
      have hlt := running_lt hchild
      have hi := (List.getElem?_eq_some_iff.mp hchild).1
      simp only [mark, Sys.level, hpc, falls, List.length_eraseIdx_of_lt hi]
      omega
  | none hpc hall =>
      have heq : s.running = s.children.length :=
        List.countP_eq_length.mpr (List.all_eq_true.mp hall)
      simp only [mark, Sys.level, hpc, falls]
      omega
  | read i clientSock request hchild hshort => simp [mark, Sys.level, Sys.setChild]
  | overrun i clientSock got hchild hnot => simp [mark, level_setChild]
  | write i clientSock n request hchild hle => simp [mark, Sys.level, Sys.setChild]
  | killed i clientSock request hchild => simp [mark, level_setChild]
  | exit i clientSock hchild => simp [mark, level_setChild]

/-! ## The answers -/

/-- What has been read from and written to the client of a child. -/
def Child.Serves (child : Child) (conn : Conn) : Prop :=
  match child.pc with
  | .reading => conn = ⟨none, none⟩
  | .writing request => conn = ⟨some request, none⟩
  | .undefined => False
  | _ => True

/-- A client gets the start of what it has sent. -/
def Conn.Echoed (conn : Conn) : Prop :=
  ∀ answer, conn.answer = some answer → ∃ request, conn.request = some request ∧ answer <+: request

/-- The client that the parent is about. -/
def Pc.client : Pc → List Nat
  | .forking clientSock => [clientSock]
  | _ => []

/-- The descriptors that the parent holds. -/
def Pc.fds : Pc → List Nat
  | .forking clientSock | .closing clientSock => [clientSock]
  | _ => []

structure Inv (s : Sys) : Prop where
  fds : s.fds = s.pc.fds
  distinct : (s.children.map Child.clientSock ++ s.pc.client).Nodup
  below : ∀ c ∈ s.children.map Child.clientSock ++ s.pc.client, c < s.accepted
  serves : ∀ child ∈ s.children, child.Serves (s.conn child.clientSock)
  unserved : ∀ c, c ∈ s.pc.client ∨ s.accepted ≤ c → s.conn c = ⟨none, none⟩
  echoed : ∀ c, (s.conn c).Echoed

theorem inv_init : Inv Sys.init where
  fds := rfl
  distinct := List.nodup_nil
  below c hc := by cases hc
  serves child hchild := by cases hchild
  unserved c _ := rfl
  echoed c answer hanswer := by cases hanswer

/-- The sockets stay where they are. -/
theorem map_setChild {i : Nat} {child child' : Child} (hchild : s.children[i]? = some child)
    (heq : child'.clientSock = child.clientSock) :
    (s.setChild i child').children.map Child.clientSock = s.children.map Child.clientSock := by
  have ⟨hi, hget⟩ := List.getElem?_eq_some_iff.mp hchild
  unfold Sys.setChild
  rw [List.map_set, heq, ← hget, ← List.getElem_map Child.clientSock (h := by simpa using hi)]
  exact List.set_getElem_self _

theorem Inv.mem_sockets {i : Nat} {child : Child} (hchild : s.children[i]? = some child) :
    child.clientSock ∈ s.children.map Child.clientSock :=
  List.mem_map_of_mem (List.mem_of_getElem? hchild)

/-- No two children have the same client. -/
theorem Inv.index_unique (h : Inv s) {i j : Nat} {child other : Child}
    (hchild : s.children[i]? = some child) (hother : s.children[j]? = some other)
    (heq : other.clientSock = child.clientSock) : i = j := by
  have hnodup := (List.nodup_append.mp h.distinct).1
  have hi : i < (s.children.map Child.clientSock).length := by
    rw [List.length_map]
    exact (List.getElem?_eq_some_iff.mp hchild).1
  refine (List.getElem?_inj hi hnodup).mp ?_
  rw [List.getElem?_map, List.getElem?_map, hchild, hother, Option.map_some, Option.map_some, heq]

/-- The client of a child is neither the parent's nor a later one. -/
theorem Inv.ne_clientSock (h : Inv s) {i c : Nat} {child : Child}
    (hchild : s.children[i]? = some child) (hc : c ∈ s.pc.client ∨ s.accepted ≤ c) :
    c ≠ child.clientSock := by
  intro heq
  have hmem := Inv.mem_sockets hchild
  rcases hc with hclient | hlater
  · exact (List.nodup_append.mp h.distinct).2.2 _ hmem _ hclient heq.symm
  · have hbelow := h.below _ (List.mem_append_left _ hmem)
    omega

/-- A child that goes on with its own client. -/
theorem Inv.setChild {i : Nat} {child : Child} {conn : Conn} (h : Inv s) (child' : Child)
    (hchild : s.children[i]? = some child) (heq : child'.clientSock = child.clientSock)
    (hserves : child'.Serves conn) (hechoed : conn.Echoed) :
    Inv { s.setChild i child' with conn := Function.update s.conn child.clientSock conn } where
  fds := h.fds
  distinct := by
    show ((s.setChild i child').children.map Child.clientSock ++ s.pc.client).Nodup
    rw [map_setChild hchild heq]
    exact h.distinct
  below := by
    show ∀ c ∈ (s.setChild i child').children.map Child.clientSock ++ s.pc.client, c < s.accepted
    rw [map_setChild hchild heq]
    exact h.below
  serves other hother := by
    have ⟨j, hj⟩ := List.mem_iff_getElem?.mp hother
    have hget : (s.children.set i child')[j]? = some other := hj
    by_cases hij : i = j
    · have hi := (List.getElem?_eq_some_iff.mp hchild).1
      rw [← hij, List.getElem?_set_self hi] at hget
      cases hget
      show child'.Serves (Function.update s.conn child.clientSock conn child'.clientSock)
      rw [heq, Function.update_self]
      exact hserves
    · rw [List.getElem?_set_ne hij] at hget
      have hne : other.clientSock ≠ child.clientSock :=
        fun hsame => hij (h.index_unique hchild hget hsame)
      show other.Serves (Function.update s.conn child.clientSock conn other.clientSock)
      rw [Function.update_of_ne hne]
      exact h.serves other (List.mem_of_getElem? hget)
  unserved c hc := by
    show Function.update s.conn child.clientSock conn c = _
    rw [Function.update_of_ne (h.ne_clientSock hchild hc)]
    exact h.unserved c hc
  echoed c := by
    show (Function.update s.conn child.clientSock conn c).Echoed
    by_cases hc : c = child.clientSock
    · rw [hc, Function.update_self]
      exact hechoed
    · rw [Function.update_of_ne hc]
      exact h.echoed c

/-- A child that ends. -/
theorem Inv.exited {i clientSock : Nat} {pc : ChildPc} (h : Inv s)
    (hchild : s.children[i]? = some ⟨clientSock, pc⟩) :
    Inv (s.setChild i ⟨clientSock, .exited⟩) := by
  have hinv := h.setChild ⟨clientSock, .exited⟩ hchild rfl trivial (h.echoed clientSock)
  rw [Function.update_eq_self] at hinv
  exact hinv

/-- The parent turns away from its client, or a child is removed. -/
theorem Inv.leave {pc : Pc} {children : List Child} {fds : List Nat} (h : Inv s)
    (hclient : pc.client = []) (hsub : children.Sublist s.children) (hfds : fds = pc.fds) :
    Inv { s with pc := pc, children := children, fds := fds } where
  fds := hfds
  distinct := by
    show (children.map Child.clientSock ++ pc.client).Nodup
    rw [hclient, List.append_nil]
    exact (hsub.map Child.clientSock).nodup (List.nodup_append.mp h.distinct).1
  below c hc := by
    have hmem : c ∈ children.map Child.clientSock ++ pc.client := hc
    rw [hclient, List.append_nil] at hmem
    exact h.below c (List.mem_append_left _ ((hsub.map Child.clientSock).subset hmem))
  serves child hmem := h.serves child (hsub.subset hmem)
  unserved c hc := by
    refine h.unserved c (hc.imp_left (fun hself => ?_))
    have hnil : c ∈ pc.client := hself
    rw [hclient] at hnil
    cases hnil
  echoed := h.echoed

/-- A client is accepted: its descriptor is a new one. -/
theorem Inv.accept (h : Inv s) (hpc : s.pc = .accepting) :
    Inv { s with
      pc := .forking s.accepted
      accepted := s.accepted + 1
      fds := s.accepted :: s.fds } := by
  have hfds := h.fds
  have hdistinct := h.distinct
  have hbelow := h.below
  rw [hpc] at hfds
  simp only [hpc, Pc.client, List.append_nil] at hdistinct hbelow
  have hnew : s.accepted ∉ s.children.map Child.clientSock :=
    fun hmem => Nat.lt_irrefl _ (hbelow _ hmem)
  exact
    { fds := congrArg _ hfds
      distinct := List.nodup_append.mpr
        ⟨hdistinct, List.nodup_singleton _, fun c hc d hd heq => by
          rw [List.mem_singleton.mp hd] at heq
          exact hnew (heq ▸ hc)⟩
      below := fun c hc => by
        show c < s.accepted + 1
        rcases List.mem_append.mp hc with hmem | hself
        · exact Nat.lt_succ_of_lt (hbelow c hmem)
        · rw [List.mem_singleton.mp hself]
          exact Nat.lt_succ_self _
      serves := h.serves
      unserved := fun c hc => by
        refine h.unserved c (.inr ?_)
        rcases hc with hself | hlater
        · exact (List.mem_singleton.mp hself).ge
        · exact Nat.le_of_succ_le hlater
      echoed := h.echoed }

/-- The client of the parent goes to a new child, which has read nothing yet. -/
theorem Inv.fork {clientSock : Nat} (h : Inv s) (hpc : s.pc = .forking clientSock) :
    Inv { s with
      pc := .closing clientSock
      children := s.children ++ [⟨clientSock, .reading⟩] } := by
  have hdistinct := h.distinct
  have hbelow := h.below
  have hfds := h.fds
  simp only [hpc, Pc.client] at hdistinct hbelow hfds
  exact
    { fds := hfds
      distinct := by simpa [Pc.client] using hdistinct
      below := by simpa [Pc.client] using hbelow
      serves := fun child hmem => by
        rcases List.mem_append.mp hmem with hold | hnew
        · exact h.serves child hold
        · rw [List.mem_singleton.mp hnew]
          exact h.unserved clientSock (.inl (by rw [hpc]; exact List.mem_singleton_self _))
      unserved := fun c hc => h.unserved c (.inr (by simpa [Pc.client] using hc))
      echoed := h.echoed }

/-- A child has the request of its client, which has no answer yet. -/
theorem Inv.read {i clientSock : Nat} {request : Bytes} (h : Inv s)
    (hchild : s.children[i]? = some ⟨clientSock, .reading⟩) :
    Inv { s.setChild i ⟨clientSock, .writing request⟩ with
      conn := Function.update s.conn clientSock
        { s.conn clientSock with request := some request } } := by
  have hserves := h.serves _ (List.mem_of_getElem? hchild)
  simp only [Child.Serves] at hserves
  refine h.setChild ⟨clientSock, .writing request⟩ hchild rfl ?_ ?_
  · simp only [Child.Serves, hserves]
  · intro answer hanswer
    simp only [hserves] at hanswer
    cases hanswer

/-- A child answers with the start of the request. -/
theorem Inv.write {i clientSock n : Nat} {request : Bytes} (h : Inv s)
    (hchild : s.children[i]? = some ⟨clientSock, .writing request⟩) :
    Inv { s.setChild i ⟨clientSock, .exiting⟩ with
      conn := Function.update s.conn clientSock
        { s.conn clientSock with answer := some (request.take n) } } := by
  have hserves := h.serves _ (List.mem_of_getElem? hchild)
  simp only [Child.Serves] at hserves
  refine h.setChild ⟨clientSock, .exiting⟩ hchild rfl trivial ?_
  intro answer hanswer
  cases hanswer
  exact ⟨request, by rw [hserves], List.take_prefix _ _⟩

theorem inv_step (h : Inv s) (hok : ReadOk s a) (hs : step s a = some s') : Inv s' := by
  have hfds := h.fds
  cases move_of_step hs with
  | refused hpc => exact h
  | accept hpc => exact h.accept hpc
  | fork clientSock hpc => exact h.fork hpc
  | unforked clientSock hpc =>
      rw [hpc] at hfds
      exact h.leave rfl (.refl _) hfds
  | close clientSock hpc =>
      rw [hpc] at hfds
      refine h.leave rfl (.refl _) ?_
      rw [hfds]
      exact List.erase_cons_head ..
  | reap i clientSock hpc hchild =>
      rw [hpc] at hfds
      exact h.leave rfl (List.eraseIdx_sublist ..) hfds
  | none hpc hall =>
      rw [hpc] at hfds
      exact h.leave rfl (.refl _) hfds
  | read i clientSock request hchild hshort => exact h.read hchild
  | overrun i clientSock got hchild hnot => exact absurd hok hnot
  | write i clientSock n request hchild hle => exact h.write hchild
  | killed i clientSock request hchild => exact h.exited hchild
  | exit i clientSock hchild => exact h.exited hchild

/-- **The children that are kept.**  Between two clients the parent keeps as many children as
have been running at some call of `waitpid`, and at no such call more were running, but for one
child for each `fork` that has failed.  It has none of its clients' descriptors open then, each
child has a client of its own, and each client gets the start of what it has sent. -/
theorem children_peak (hok : Admitted step ReadOk Sys.init as)
    (hrun : run step Sys.init as = some s) (hpc : s.pc = .accepting) :
    (∀ bs child t, bs ++ [.waitpid child] <+: as → run step Sys.init bs = some t →
      t.running ≤ s.children.length + as.count (.fork false)) ∧
    (s.children = [] ∨ ∃ bs child t, bs ++ [.waitpid child] <+: as ∧
      run step Sys.init bs = some t ∧ s.children.length ≤ t.running) ∧
    s.fds = [] ∧ (s.children.map Child.clientSock).Nodup ∧
    (∀ c answer, (s.conn c).answer = some answer →
      ∃ request, (s.conn c).request = some request ∧ answer <+: request) := by
  have hinv : Inv s := (Reach.of_admitted hok hrun).keeps inv_init
    (fun _ _ _ hinv hread hs => inv_step hinv hread hs)
  have hlevel : s.level = s.children.length := by rw [Sys.level, hpc]
  refine ⟨fun bs child t hpre ht => ?_, ?_, by rw [hinv.fds, hpc]; rfl,
    (List.nodup_append.mp hinv.distinct).1, hinv.echoed⟩
  · have hmarks := (mark_le_level (fun _ _ _ hs => (level_step hs).2) hrun).2
    rw [← hlevel]
    exact hmarks bs (.waitpid child) t hpre ht
  · by_cases hnil : s.children = []
    · exact .inl hnil
    · have hpos := List.length_pos_iff.mpr hnil
      rcases level_le_mark (fun _ _ _ hs => (level_step hs).1) hrun with
        hle | ⟨bs, a, t, hpre, ht, hle⟩
      · have hzero : s.level ≤ 0 := hle
        omega
      · have ⟨child, ha, hmark⟩ := mark_pos (show 0 < mark t a by omega)
        subst ha
        exact .inr ⟨bs, child, t, hpre, ht, by omega⟩

/-- Two clients at once, both children ended, and a third client: two children are kept, a zombie
beside the child that runs. -/
def threeClients : List Act :=
  [.accept true, .fork true, .close, .waitpid none, .accept true, .fork true, .close,
    .waitpid none, .read 0 (some [104]), .write 0 (some 1), .exit 0, .read 1 (some [105]),
    .write 1 (some 1), .exit 1, .accept true, .fork true, .close, .waitpid (some 0)]

theorem children_peak_threeClients :
    ∃ s, run step Sys.init threeClients = some s ∧ s.children.length = 2 ∧ s.running = 1 ∧
      ∀ bs child t, bs ++ [.waitpid child] <+: threeClients → run step Sys.init bs = some t →
        t.running ≤ 2 := by
  have hsome : (run (guarded step ReadOk) Sys.init threeClients).map
      (fun s => (s.pc, s.children.length, s.running)) = some (.accepting, 2, 1) := by decide
  have ⟨s, hguarded, heq⟩ := Option.map_eq_some_iff.mp hsome
  have ⟨hpc, hrest⟩ := Prod.mk.inj heq
  have ⟨hlength, hrunning⟩ := Prod.mk.inj hrest
  have hrun := run_of_guarded hguarded
  have hpeak := (children_peak (.of_guarded hguarded) hrun hpc).1
  rw [hlength] at hpeak
  exact ⟨s, hrun, hlength, hrunning, hpeak⟩

end SystemsInC.Ports.ForkServer
