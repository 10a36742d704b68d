import SystemsInC.Verified.MachineInt
import SystemsInC.Verified.PrintedText
import SystemsInC.Ports.HashMapOrder
import Mathlib.Data.List.Perm.Subperm
import Mathlib.Data.Nat.Digits.Defs

/-!
# The workers of the hash map

`main` of `pthread-hash-map.c` creates the threads and joins them; each thread inserts the same
keys and then looks them up, and prints a line for each call.  The steps of the map are those of
`LockedHashMap`, so that the threads interleave inside the calls.

All calls are calls of the program, so that only one value is ever inserted under a key
(`lastInsert_known`), and a chain has no more nodes than there are keys (`MapOk`).
-/

namespace SystemsInC.Ports.HashMapWorkers

open SystemsInC.Verified.CString
open SystemsInC.Verified.TextInput
open SystemsInC.Verified.PrintedText
open SystemsInC.Verified.MachineInt
open SystemsInC.Verified.GuardedRuns
open SystemsInC.Ports.LockedHashMap hiding hash
open SystemsInC.Ports.HashMapOrder

/-! ## The program -/

/-- The size of the buffer `key`. -/
def keySize : Nat := 32

/-- `"key_%d"`. -/
def keyText (i : Nat) : Bytes := ascii "key_" ++ decimal i

/-- The value of a key. -/
def keyValue (i : Nat) : Int := i * 100

structure Config where
  /-- `NUM_THREADS` -/
  threads : Nat
  /-- the bound of the two loops of `worker` -/
  keys : Nat
  /-- `pthread_self()` -/
  self : Fin threads → Int
  threads_pos : 0 < threads
  fits : keys * 100 ≤ 2147483647

/-- The two loops of `worker`, with their counter. -/
inductive Loop
  | inserting (i : Nat)
  | lookingUp (i : Nat)
  deriving DecidableEq

/-- Where a thread is in `worker`. -/
inductive WorkerPc
  /-- `main` has not created the thread -/
  | absent
  /-- before the condition of a loop -/
  | loop (l : Loop)
  | calling (l : Loop)
  /-- before `printf` -/
  | printing (l : Loop) (result : Option Result)
  | exited
  deriving DecidableEq

inductive MainPc
  /-- before `pthread_create` -/
  | creating (i : Nat)
  /-- before `pthread_join` -/
  | joining (i : Nat)
  | returned
  deriving DecidableEq

structure Program (cfg : Config) where
  main : MainPc
  map : Sys (Fin cfg.threads)
  worker : Fin cfg.threads → WorkerPc
  /-- the lines of the output, each with the thread that printed it -/
  lines : List (Fin cfg.threads × Bytes)

/-- After `hashmap_init`. -/
def Program.init (cfg : Config) : Program cfg :=
  { main := .creating 0
    map := Sys.init
    worker := fun _ => .absent
    lines := [] }

def Loop.index : Loop → Nat
  | .inserting i => i
  | .lookingUp i => i

/-- The call in the body of a loop. -/
def Loop.op : Loop → Op
  | .inserting i => .insert (keyText i) (keyValue i)
  | .lookingUp i => .lookup (keyText i)

/-- `sprintf` stays in the buffer, and `i * 100` in an `int`. -/
def Loop.defined : Loop → Bool
  | .inserting i => decide ((keyText i).length < keySize) && decide (IsInt (keyValue i))
  | .lookingUp i => decide ((keyText i).length < keySize)

def Loop.next : Loop → Loop
  | .inserting i => .inserting (i + 1)
  | .lookingUp i => .lookingUp (i + 1)

/-- What follows a loop. -/
def Loop.leave : Loop → WorkerPc
  | .inserting _ => .loop (.lookingUp 0)
  | .lookingUp _ => .exited

def insertedLine (self : Int) (key : Bytes) (value : Int) : Bytes :=
  ascii "Thread " ++ signed self ++ ascii " inserted: " ++ cstr key ++ ascii " -> " ++
    signed value ++ ascii "\n"

def lookedUpLine (self : Int) (key : Bytes) (val : Int) : Bytes :=
  ascii "Thread " ++ signed self ++ ascii " looked up: " ++ cstr key ++ ascii " -> " ++
    signed val ++ ascii "\n"

/-- What a thread prints when its call has returned. -/
def Loop.print (self : Int) : Loop → Option Result → List Bytes
  | .inserting i, _ => [insertedLine self (keyText i) (keyValue i)]
  | .lookingUp i, some result =>
      if result.found ≠ 0 then [lookedUpLine self (keyText i) result.value] else []
  | .lookingUp _, none => []

section Steps

variable {cfg : Config}

def Program.mainStep (p : Program cfg) : Option (Program cfg) :=
  match p.main with
  | .creating i =>
      if h : i < cfg.threads then
        some { p with
          main := .creating (i + 1)
          worker := Function.update p.worker ⟨i, h⟩ (.loop (.inserting 0)) }
      else
        some { p with main := .joining 0 }
  | .joining i =>
      if h : i < cfg.threads then
        if p.worker ⟨i, h⟩ = .exited then some { p with main := .joining (i + 1) } else none
      else
        some { p with main := .returned }
  | .returned => none

/-- The condition of a loop, and the start of the call in its body. -/
def Program.callStep (p : Program cfg) (t : Fin cfg.threads) : Option (Program cfg) :=
  match p.worker t with
  | .loop l =>
      if l.index < cfg.keys then
        if l.defined then
          (p.map.begin t l.op).map (fun map =>
            { p with map := map, worker := Function.update p.worker t (.calling l) })
        else
          none
      else
        some { p with worker := Function.update p.worker t l.leave }
  | _ => none

/-- The call of a thread returns. -/
def Program.unlockStep (p : Program cfg) (t : Fin cfg.threads) : Option (Program cfg) :=
  match p.worker t, p.map.pc t with
  | .calling l, .unlocking _ result =>
      (p.map.unlock t).map (fun map =>
        { p with map := map, worker := Function.update p.worker t (.printing l result) })
  | _, _ => none

def Program.printStep (p : Program cfg) (t : Fin cfg.threads) : Option (Program cfg) :=
  match p.worker t with
  | .printing l result =>
      some { p with
        worker := Function.update p.worker t (.loop l.next)
        lines := p.lines ++ (l.print (cfg.self t) result).map (fun line => (t, line)) }
  | _ => none

inductive Act (cfg : Config)
  | main
  | call (t : Fin cfg.threads)
  | lock (t : Fin cfg.threads)
  | walk (t : Fin cfg.threads)
  | unlock (t : Fin cfg.threads)
  | print (t : Fin cfg.threads)

def step (p : Program cfg) : Act cfg → Option (Program cfg)
  | .main => p.mainStep
  | .call t => p.callStep t
  | .lock t => (p.map.lock t).map (fun map => { p with map := map })
  | .walk t => (p.map.walk t).map (fun map => { p with map := map })
  | .unlock t => p.unlockStep t
  | .print t => p.printStep t

end Steps

/-! ## What the program is for -/

/-- The lines of one thread, in the order of the output. -/
def printedBy {T : Type*} [DecidableEq T] (t : T) (lines : List (T × Bytes)) : List Bytes :=
  (lines.filter (fun line => decide (line.1 = t))).map Prod.snd

/-- All lines of a thread. -/
def transcript (keys : Nat) (self : Int) : List Bytes :=
  (List.range keys).map (fun i => insertedLine self (keyText i) (keyValue i)) ++
    (List.range keys).map (fun i => lookedUpLine self (keyText i) (keyValue i))

/-- The node of a key. -/
def entry (i : Nat) : Node := { key := keyText i, value := keyValue i }

/-- The nodes of all buckets. -/
def nodes {T : Type*} (m : Sys T) : List Node := (List.finRange tableSize).flatMap m.buckets

/-! ## The keys -/

theorem keyText_ne_zero (i : Nat) : ∀ b ∈ keyText i, b ≠ 0 := by
  intro b hb
  rcases List.mem_append.mp hb with hprefix | hdigit
  · have hall : (ascii "key_").all (fun b => b != 0) = true := by decide
    exact bne_iff_ne.mp (List.all_eq_true.mp hall b hprefix)
  · exact digit_ne ((decimal_spec i).2.1 b hdigit) rfl

@[simp] theorem cstr_keyText (i : Nat) : cstr (keyText i) = keyText i :=
  cstr_eq_self (keyText_ne_zero i)

theorem keyText_inj {i j : Nat} (h : keyText i = keyText j) : i = j :=
  decimal_inj (List.append_cancel_left h)

theorem strcmpEq_keyText {i j : Nat} : strcmpEq (keyText i) (keyText j) ↔ i = j := by
  rw [strcmpEq, cstr_keyText, cstr_keyText]
  exact ⟨keyText_inj, fun h => h ▸ rfl⟩

/-- The text of a key that fits its value into an `int` fits the buffer. -/
theorem keyText_length {i : Nat} (h : i < 10 ^ 10) : (keyText i).length < keySize := by
  have hdigits := Nat.toDigits_length 10 i 10 (by decide) h
  have hprefix : (ascii "key_").length = 4 := by decide
  rw [keyText, List.length_append, hprefix, decimal, List.length_map, keySize]
  omega

/-- A call of the program. -/
def Known (keys : Nat) (op : Op) : Prop := ∃ l : Loop, l.index < keys ∧ op = l.op

/-- Among the calls of the program only one value is ever inserted under a key. -/
theorem lastInsert_known {keys i : Nat} {ops : List Op} (hknown : ∀ op ∈ ops, Known keys op)
    (h : (Loop.inserting i).op ∈ ops) : lastInsert (keyText i) ops = some (keyValue i) := by
  induction ops using List.reverseRecOn with
  | nil => cases h
  | append_singleton ops op ih =>
      have hbefore : (Loop.inserting i).op ∈ ops →
          lastInsert (keyText i) ops = some (keyValue i) :=
        ih (fun op hop => hknown op (List.mem_append_left _ hop))
      obtain ⟨l, _, hop⟩ := hknown op (List.mem_append_right _ List.mem_cons_self)
      rw [lastInsert_concat, hop]
      rw [hop, List.mem_append, List.mem_singleton] at h
      cases l with
      | inserting j =>
          rw [Loop.op, Op.effect]
          by_cases hkey : strcmpEq (keyText j) (keyText i)
          · rw [if_pos hkey, strcmpEq_keyText.mp hkey]
          · rw [if_neg hkey]
            refine hbefore (h.resolve_right (fun heq => hkey ?_))
            have hkeys := (Op.insert.inj heq).1
            rw [hkeys]
            rfl
      | lookingUp j =>
          exact hbefore (h.resolve_right Op.noConfusion)

/-! ## The nodes -/

/-- A node that the program makes. -/
def IsEntry (keys : Nat) (node : Node) : Prop := ∃ i < keys, node = entry i

theorem visit_entries {keys pos : Nat} {nodes nodes' : List Node} {op : Op}
    {result : Option Result} (hnodes : ∀ node ∈ nodes, IsEntry keys node) (hop : Known keys op)
    (h : visit nodes op pos = .done nodes' result) : ∀ node ∈ nodes', IsEntry keys node := by
  have ⟨l, hlt, heq⟩ := hop
  subst heq
  cases hget : nodes[pos]? with
  | some node =>
      rw [visit_node hget] at h
      by_cases hkey : strcmpEq node.key l.op.key
      · rw [if_pos hkey] at h
        cases l with
        | inserting i =>
            have ⟨hset, _⟩ := Visit.done.inj h
            subst hset
            intro node' hnode'
            rcases List.mem_or_eq_of_mem_set hnode' with hold | hnew
            · exact hnodes node' hold
            · have ⟨j, hj, hentry⟩ := hnodes node (List.mem_of_getElem? hget)
              rw [hentry] at hkey
              have hij : j = i := strcmpEq_keyText.mp hkey
              refine ⟨i, hlt, ?_⟩
              rw [hnew, hentry, hij]
              rfl
        | lookingUp i =>
            have ⟨hsame, _⟩ := Visit.done.inj h
            exact hsame ▸ hnodes
      · rw [if_neg hkey] at h
        cases h
  | none =>
      rw [visit_end hget] at h
      cases l with
      | inserting i =>
          have ⟨hpush, _⟩ := Visit.done.inj h
          subst hpush
          intro node hnode
          rcases List.mem_cons.mp hnode with hnew | hold
          · refine ⟨i, hlt, ?_⟩
            rw [hnew, cstr_keyText]
            rfl
          · exact hnodes node hold
      | lookingUp i =>
          have ⟨hsame, _⟩ := Visit.done.inj h
          exact hsame ▸ hnodes

/-- No key twice, so not more nodes than keys. -/
theorem length_le_keys {keys : Nat} {b : Fin tableSize} {nodes : List Node}
    (chain : Chain b nodes) (hnodes : ∀ node ∈ nodes, IsEntry keys node) :
    nodes.length ≤ keys := by
  have hsub : nodes ⊆ (List.range keys).map entry := by
    intro node hnode
    have ⟨i, hi, heq⟩ := hnodes node hnode
    rw [heq]
    exact List.mem_map_of_mem (List.mem_range.mpr hi)
  have hle := (List.subperm_of_subset chain.nodup.of_map hsub).length_le
  rwa [List.length_map, List.length_range] at hle

/-! ## The map under the calls of the program -/

/-- The call that a thread is in is one of the program, and its walk is no longer than the
chains can be. -/
def PcOk (keys : Nat) : Pc → Prop
  | .idle => True
  | .locking op _ => Known keys op
  | .walking call pos => Known keys call.op ∧ pos ≤ keys
  | .unlocking call _ => Known keys call.op

/-- What holds of the map when all calls are calls of the program. -/
structure MapOk {T : Type*} (keys : Nat) (m : Sys T) : Prop where
  inv : MapInv m
  /-- a lock is held by a call on its bucket -/
  owned : ∀ b t, m.locks b = some t →
    ∃ call, holding (m.pc t) = some call ∧ LockedHashMap.hash call.op.key = b
  log : ∀ op ∈ m.log, Known keys op
  pcs : ∀ t, PcOk keys (m.pc t)
  entries : ∀ b, ∀ node ∈ m.buckets b, IsEntry keys node

theorem MapOk.init {T : Type*} (keys : Nat) : MapOk keys (Sys.init : Sys T) where
  inv := MapInv.init
  owned := fun _ _ h => nomatch h
  log := fun _ h => nomatch h
  pcs := fun _ => trivial
  entries := fun _ _ h => nomatch h

section Map

variable {T : Type*} [DecidableEq T] {keys : Nat} {m m' : Sys T} {t : T}

theorem pcs_update {pc : Pc} (h : ∀ u, PcOk keys (m.pc u)) (ht : PcOk keys pc) (u : T) :
    PcOk keys (Function.update m.pc t pc u) := by
  by_cases hu : u = t
  · rw [hu, Function.update_self]
    exact ht
  · rw [Function.update_of_ne hu]
    exact h u

/-- A thread that moves without a lock leaves the owners of the locks alone. -/
theorem owned_update {locks : Fin tableSize → Option T} {pc : Pc}
    (howned : ∀ b u, locks b = some u →
      ∃ call, holding (m.pc u) = some call ∧ LockedHashMap.hash call.op.key = b)
    (hholding : ∀ call, holding (m.pc t) = some call → holding pc = some call) (b : Fin tableSize)
    (u : T) (hlock : locks b = some u) :
    ∃ call, holding (Function.update m.pc t pc u) = some call ∧
      LockedHashMap.hash call.op.key = b := by
  have ⟨call, hcall, hb⟩ := howned b u hlock
  refine ⟨call, ?_, hb⟩
  by_cases hu : u = t
  · subst hu
    rw [Function.update_self]
    exact hholding call hcall
  · rw [Function.update_of_ne hu]
    exact hcall

theorem MapOk.begin {op : Op} (ok : MapOk keys m) (hop : Known keys op)
    (h : m.begin t op = some m') : MapOk keys m' := by
  have inv := ok.inv.begin h
  have ⟨hpc, heq⟩ := begin_cases h
  subst heq
  exact
    { inv := inv
      owned := owned_update ok.owned (fun call hcall => by rw [hpc] at hcall; cases hcall)
      log := ok.log
      pcs := pcs_update ok.pcs hop
      entries := ok.entries }

theorem MapOk.lock (ok : MapOk keys m) (h : m.lock t = some m') : MapOk keys m' := by
  have inv := ok.inv.lock h
  have ⟨op, began, hpc, hfree, heq⟩ := lock_cases h
  subst heq
  have hop : PcOk keys (.locking op began) := hpc ▸ ok.pcs t
  exact
    { inv := inv
      owned := by
        intro b u hlock
        by_cases hb : b = LockedHashMap.hash op.key
        · subst hb
          have hu : u = t := by
            have hlock' : Function.update m.locks (LockedHashMap.hash op.key) (some t) _ =
              some u := hlock
            rw [Function.update_self] at hlock'
            exact (Option.some.inj hlock').symm
          subst hu
          let call : Call := { op := op, began := began, before := m.log }
          have hcall : holding (Function.update m.pc u (.walking call 0) u) = some call := by
            rw [Function.update_self]
            rfl
          exact ⟨call, hcall, rfl⟩
        · have hlock' : m.locks b = some u := (Function.update_of_ne hb _ _).symm.trans hlock
          refine owned_update ok.owned (fun call hcall => ?_) b u hlock'
          rw [hpc] at hcall
          cases hcall
      log := by
        intro op' hop'
        rcases List.mem_append.mp hop' with hold | hnew
        · exact ok.log op' hold
        · rw [List.mem_singleton.mp hnew]
          exact hop
      pcs := pcs_update ok.pcs ⟨hop, Nat.zero_le _⟩
      entries := ok.entries }

/-- The walk goes on past a node that is there. -/
theorem pos_lt_of_next {nodes : List Node} {op : Op} {pos : Nat}
    (h : visit nodes op pos = .next) : pos < nodes.length := by
  by_contra hge
  rw [visit_end (List.getElem?_eq_none_iff.mpr (Nat.not_lt.mp hge))] at h
  cases op <;> cases h

theorem MapOk.walk (ok : MapOk keys m) (h : m.walk t = some m') : MapOk keys m' := by
  have inv : MapInv m' := ok.inv.step (a := .walk t) h
  have ⟨call, pos, hpc, hcases⟩ := walk_cases h
  have ⟨hop, _⟩ : PcOk keys (.walking call pos) := hpc ▸ ok.pcs t
  rcases hcases with ⟨hvisit, heq⟩ | ⟨nodes, result, hvisit, heq⟩
  · subst heq
    have hlength := length_le_keys (ok.inv.chain _) (ok.entries (LockedHashMap.hash call.op.key))
    have hpos := pos_lt_of_next hvisit
    exact
      { inv := inv
        owned := owned_update ok.owned (fun call' hcall => by rw [hpc] at hcall; exact hcall)
        log := ok.log
        pcs := pcs_update ok.pcs ⟨hop, by omega⟩
        entries := ok.entries }
  · subst heq
    exact
      { inv := inv
        owned := owned_update ok.owned (fun call' hcall => by rw [hpc] at hcall; exact hcall)
        log := ok.log
        pcs := pcs_update ok.pcs hop
        entries := by
          intro b node hnode
          by_cases hb : b = LockedHashMap.hash call.op.key
          · subst hb
            have hnode' : node ∈ Function.update m.buckets _ nodes _ := hnode
            rw [Function.update_self] at hnode'
            exact visit_entries (ok.entries _) hop hvisit node hnode'
          · have hnode' : node ∈ Function.update m.buckets _ nodes b := hnode
            rw [Function.update_of_ne hb] at hnode'
            exact ok.entries b node hnode' }

theorem MapOk.unlock (ok : MapOk keys m) (h : m.unlock t = some m') : MapOk keys m' := by
  have inv := ok.inv.unlock h
  have ⟨call, result, hpc, heq⟩ := unlock_cases h
  subst heq
  exact
    { inv := inv
      owned := by
        intro b u hlock
        have hb : b ≠ LockedHashMap.hash call.op.key := by
          rintro rfl
          have hlock' : Function.update m.locks (LockedHashMap.hash call.op.key) none _ =
            some u := hlock
          rw [Function.update_self] at hlock'
          cases hlock'
        have hlock' : m.locks b = some u := (Function.update_of_ne hb _ _).symm.trans hlock
        have ⟨call', hcall, hb'⟩ := ok.owned b u hlock'
        have hu : u ≠ t := by
          rintro rfl
          rw [hpc] at hcall
          exact hb (Option.some.inj hcall ▸ hb'.symm)
        refine ⟨call', ?_, hb'⟩
        rw [← hcall]
        exact congrArg holding (Function.update_of_ne hu _ _)
      log := ok.log
      pcs := pcs_update ok.pcs trivial
      entries := ok.entries }

end Map

end SystemsInC.Ports.HashMapWorkers
