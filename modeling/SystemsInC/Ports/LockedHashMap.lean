import SystemsInC.Verified.CString
import SystemsInC.Verified.GuardedRuns
import Mathlib.Data.List.Nodup

/-!
# A hash map with a lock for each bucket

`hashmap_insert` and `hashmap_lookup` lock the bucket of their key, walk the
chain of its nodes, and unlock it.  A thread is atomic in the call of a lock, in
the visit of one node, in the change at the end of its walk, and in the unlock;
the steps of any number of threads interleave, each with calls of its own
choice.

The log has the operations in the order in which they got their locks; a call
remembers what the log had before it.
-/

namespace SystemsInC.Ports.LockedHashMap

open SystemsInC.Verified.CString

/-! ## The map -/

/-- `TABLE_SIZE`. -/
def tableSize : Nat := 8

structure Node where
  key : Bytes
  value : Int

/-- A `char` as a number of type `unsigned long`; a `char` is signed. -/
def charValue (b : UInt8) : UInt64 := if b < 128 then b.toUInt64 else b.toUInt64 - 256

/-- The bucket of a key. -/
def hash (str : Bytes) : Fin tableSize :=
  let h := (cstr str).foldl (fun (h : UInt64) c => (h <<< 5) + h + charValue c) 5381
  ⟨h.toNat % tableSize, Nat.mod_lt _ (by decide)⟩

/-- A call, with its arguments. -/
inductive Op
  | insert (key : Bytes) (value : Int)
  | lookup (key : Bytes)

def Op.key : Op → Bytes
  | .insert key _ => key
  | .lookup key => key

/-- What a call gives back: `*found` and the returned value of a lookup. -/
structure Result where
  found : Int
  value : Int
  deriving DecidableEq

/-- One round of the loop, at the node in place `pos`, or what follows the loop. -/
inductive Visit
  /-- on to the next node -/
  | next
  /-- the chain after the call, and the result of a lookup -/
  | done (nodes : List Node) (result : Option Result)

def visit (nodes : List Node) (op : Op) (pos : Nat) : Visit :=
  match nodes[pos]? with
  | some node =>
      if strcmpEq node.key op.key then
        match op with
        | .insert _ value => .done (nodes.set pos { node with value := value }) none
        | .lookup _ => .done nodes (some { found := 1, value := node.value })
      else
        .next
  | none =>
      match op with
      | .insert key value => .done ({ key := cstr key, value := value } :: nodes) none
      | .lookup _ => .done nodes (some { found := 0, value := -1 })

/-! ## The threads -/

/-- A call that got its lock. -/
structure Call where
  op : Op
  /-- the length of the log when the call began -/
  began : Nat
  /-- the operations that had got their locks before -/
  before : List Op

/-- Where a thread is. -/
inductive Pc
  | idle
  /-- before `pthread_mutex_lock` -/
  | locking (op : Op) (began : Nat)
  /-- in the loop, at the node in place `pos` -/
  | walking (call : Call) (pos : Nat)
  /-- before `pthread_mutex_unlock` -/
  | unlocking (call : Call) (result : Option Result)

/-- A call that returned. -/
structure Returned where
  call : Call
  result : Option Result
  /-- the length of the log when the call ended -/
  ended : Nat

variable {T : Type*}

structure Sys (T : Type*) where
  buckets : Fin tableSize → List Node
  locks : Fin tableSize → Option T
  pc : T → Pc
  log : List Op
  returned : List Returned

/-- After `hashmap_init`. -/
def Sys.init : Sys T :=
  { buckets := fun _ => []
    locks := fun _ => none
    pc := fun _ => .idle
    log := []
    returned := [] }

section Steps

variable [DecidableEq T]

/-- A thread calls one of the two functions. -/
def Sys.begin (s : Sys T) (t : T) (op : Op) : Option (Sys T) :=
  match s.pc t with
  | .idle => some { s with pc := Function.update s.pc t (.locking op s.log.length) }
  | _ => none

/-- `pthread_mutex_lock` returns. -/
def Sys.lock (s : Sys T) (t : T) : Option (Sys T) :=
  match s.pc t with
  | .locking op began =>
      match s.locks (hash op.key) with
      | none =>
          some { s with
            locks := Function.update s.locks (hash op.key) (some t)
            pc := Function.update s.pc t
              (.walking { op := op, began := began, before := s.log } 0)
            log := s.log ++ [op] }
      | some _ => none
  | _ => none

/-- One round of the loop. -/
def Sys.walk (s : Sys T) (t : T) : Option (Sys T) :=
  match s.pc t with
  | .walking call pos =>
      match visit (s.buckets (hash call.op.key)) call.op pos with
      | .next => some { s with pc := Function.update s.pc t (.walking call (pos + 1)) }
      | .done nodes result =>
          some { s with
            buckets := Function.update s.buckets (hash call.op.key) nodes
            pc := Function.update s.pc t (.unlocking call result) }
  | _ => none

/-- `pthread_mutex_unlock`, and the return of the call. -/
def Sys.unlock (s : Sys T) (t : T) : Option (Sys T) :=
  match s.pc t with
  | .unlocking call result =>
      some { s with
        locks := Function.update s.locks (hash call.op.key) none
        pc := Function.update s.pc t .idle
        returned := s.returned ++
          [{ call := call, result := result, ended := s.log.length }] }
  | _ => none

inductive Act (T : Type*)
  | begin (t : T) (op : Op)
  | lock (t : T)
  | walk (t : T)
  | unlock (t : T)

def Sys.step (s : Sys T) : Act T → Option (Sys T)
  | .begin t op => s.begin t op
  | .lock t => s.lock t
  | .walk t => s.walk t
  | .unlock t => s.unlock t

end Steps

/-! ## What the operations mean, one after the other -/

/-- What an operation does to the value of a key. -/
def Op.effect (op : Op) (key : Bytes) (value : Option Int) : Option Int :=
  match op with
  | .insert k v => if strcmpEq k key then some v else value
  | .lookup _ => value

/-- The value of the last insert of the key. -/
def lastInsert (key : Bytes) (ops : List Op) : Option Int :=
  ops.foldl (fun value op => op.effect key value) none

/-- What a lookup reports. -/
def answer : Option Int → Result
  | some v => { found := 1, value := v }
  | none => { found := 0, value := -1 }

/-- The value that a walk along the chain finds. -/
def chainValue (nodes : List Node) (key : Bytes) : Option Int :=
  (nodes.find? (fun node => strcmpEq node.key key)).map Node.value

@[simp] theorem lastInsert_nil (key : Bytes) : lastInsert key [] = none := rfl

@[simp] theorem lastInsert_concat (key : Bytes) (ops : List Op) (op : Op) :
    lastInsert key (ops ++ [op]) = op.effect key (lastInsert key ops) := by
  rw [lastInsert, List.foldl_append]
  rfl

theorem hash_congr {a b : Bytes} (h : strcmpEq a b) : hash a = hash b := by
  have h : cstr a = cstr b := h
  simp only [hash, h]

/-- Operations on other buckets do not matter for a key. -/
theorem effect_of_hash_ne {op : Op} {key : Bytes} (h : hash op.key ≠ hash key)
    (value : Option Int) : op.effect key value = value := by
  cases op with
  | insert k v => exact if_neg (fun heq => h (hash_congr heq))
  | lookup k => rfl

/-! ## One chain -/

/-- The nodes of a chain have the hash of their bucket, and no key twice. -/
structure Chain (b : Fin tableSize) (nodes : List Node) : Prop where
  hashed : ∀ node ∈ nodes, hash node.key = b
  nodup : (nodes.map (fun node => cstr node.key)).Nodup

theorem Chain.nil (b : Fin tableSize) : Chain b [] :=
  ⟨fun _ h => (nomatch h), List.nodup_nil⟩

/-- No node in front of `pos` has the key. -/
def Unseen (nodes : List Node) (key : Bytes) (pos : Nat) : Prop :=
  ∀ node ∈ nodes.take pos, ¬ strcmpEq node.key key

theorem chainValue_append (l₁ l₂ : List Node) (key : Bytes) :
    chainValue (l₁ ++ l₂) key = (chainValue l₁ key).or (chainValue l₂ key) := by
  rw [chainValue, List.find?_append, chainValue, chainValue]
  cases l₁.find? _ with
  | none => rfl
  | some node => rfl

theorem chainValue_eq_none {nodes : List Node} {key : Bytes}
    (h : ∀ node ∈ nodes, ¬ strcmpEq node.key key) : chainValue nodes key = none := by
  rw [chainValue, List.find?_eq_none.mpr]
  · rfl
  · simpa using h

theorem chainValue_cons (node : Node) (nodes : List Node) (key : Bytes) :
    chainValue (node :: nodes) key =
      if strcmpEq node.key key then some node.value else chainValue nodes key := by
  rw [chainValue, List.find?_cons]
  by_cases h : strcmpEq node.key key
  · simp [h]
  · simp [h, chainValue]

/-- The node in place `pos`, with what stands before and behind it. -/
theorem split_at {nodes : List Node} {pos : Nat} {node : Node} (h : nodes[pos]? = some node) :
    ∃ l₂, nodes = nodes.take pos ++ node :: l₂ ∧
      ∀ n, nodes.set pos n = nodes.take pos ++ n :: l₂ := by
  have ⟨hlt, hget⟩ := List.getElem?_eq_some_iff.mp h
  refine ⟨nodes.drop (pos + 1), ?_, fun n => List.set_eq_take_append_cons_drop.trans ?_⟩
  · rw [← hget, List.getElem_cons_drop, List.take_append_drop]
  · rw [if_pos hlt]

/-- A chain with the keys of another one. -/
theorem Chain.of_keys {b : Fin tableSize} {nodes nodes' : List Node} (chain : Chain b nodes)
    (h : nodes'.map Node.key = nodes.map Node.key) : Chain b nodes' where
  hashed := by
    intro node hnode
    have hmem : node.key ∈ nodes.map Node.key := h ▸ List.mem_map_of_mem hnode
    have ⟨old, hold, heq⟩ := List.mem_map.mp hmem
    rw [← heq]
    exact chain.hashed old hold
  nodup := by
    have hkeys : nodes'.map (fun node => cstr node.key) = nodes.map (fun node => cstr node.key) := by
      have hmap := congrArg (List.map cstr) h
      rwa [List.map_map, List.map_map] at hmap
    rw [hkeys]
    exact chain.nodup

theorem visit_node {nodes : List Node} {op : Op} {pos : Nat} {node : Node}
    (hget : nodes[pos]? = some node) : visit nodes op pos =
      if strcmpEq node.key op.key then
        match op with
        | .insert _ value => .done (nodes.set pos { node with value := value }) none
        | .lookup _ => .done nodes (some { found := 1, value := node.value })
      else
        .next := by
  unfold visit
  rw [hget]

theorem visit_end {nodes : List Node} {op : Op} {pos : Nat} (hget : nodes[pos]? = none) :
    visit nodes op pos =
      match op with
      | .insert key value => .done ({ key := cstr key, value := value } :: nodes) none
      | .lookup _ => .done nodes (some { found := 0, value := -1 }) := by
  unfold visit
  rw [hget]

/-- The loop goes on past a node with another key. -/
theorem visit_next {nodes : List Node} {op : Op} {pos : Nat} (unseen : Unseen nodes op.key pos)
    (h : visit nodes op pos = .next) : Unseen nodes op.key (pos + 1) := by
  cases hget : nodes[pos]? with
  | some node =>
      rw [visit_node hget] at h
      by_cases hkey : strcmpEq node.key op.key
      · rw [if_pos hkey] at h
        cases op <;> cases h
      · intro n hn
        rw [List.take_add_one, hget] at hn
        rcases List.mem_append.mp hn with hn | hn
        · exact unseen n hn
        · rw [List.mem_singleton.mp hn]
          exact hkey
  | none =>
      rw [visit_end hget] at h
      cases op <;> cases h

/-- The value of a key that the walk has found. -/
theorem chainValue_found {nodes : List Node} {key : Bytes} {pos : Nat} {node : Node}
    (unseen : Unseen nodes key pos) (hget : nodes[pos]? = some node)
    (hkey : strcmpEq node.key key) : chainValue nodes key = some node.value := by
  have ⟨l₂, hsplit, _⟩ := split_at hget
  have hnodes : chainValue nodes key =
      (chainValue (nodes.take pos) key).or (chainValue (node :: l₂) key) := by
    rw [← chainValue_append, ← hsplit]
  rw [hnodes, chainValue_eq_none unseen, chainValue_cons, if_pos hkey]
  rfl

/-- The end of an insert at a node with its key. -/
theorem chainValue_update {nodes : List Node} {key : Bytes} {value : Int} {pos : Nat} {node : Node}
    (unseen : Unseen nodes key pos) (hget : nodes[pos]? = some node)
    (hkey : strcmpEq node.key key) (key' : Bytes) :
    chainValue (nodes.set pos { node with value := value }) key' =
      (Op.insert key value).effect key' (chainValue nodes key') := by
  have ⟨l₂, hsplit, hset⟩ := split_at hget
  have hnodes : chainValue nodes key' =
      (chainValue (nodes.take pos) key').or (chainValue (node :: l₂) key') := by
    rw [← chainValue_append, ← hsplit]
  rw [hset, chainValue_append, hnodes, Op.effect]
  by_cases hsame : strcmpEq key key'
  · have hfront : chainValue (nodes.take pos) key' = none :=
      chainValue_eq_none (fun n hn heq => unseen n hn (Eq.trans heq (Eq.symm hsame)))
    have hhere : strcmpEq node.key key' := Eq.trans hkey hsame
    rw [hfront, if_pos hsame, chainValue_cons, if_pos hhere]
    rfl
  · have hother : ¬ strcmpEq node.key key' := fun heq => hsame (Eq.trans (Eq.symm hkey) heq)
    rw [if_neg hsame, chainValue_cons, chainValue_cons, if_neg hother, if_neg hother]

/-- A new node in front of a chain without its key. -/
theorem Chain.push {b : Fin tableSize} {nodes : List Node} {key : Bytes} (chain : Chain b nodes)
    (hb : hash key = b) (hnew : ∀ node ∈ nodes, ¬ strcmpEq node.key key) (value : Int) :
    Chain b ({ key := cstr key, value := value } :: nodes) where
  hashed := by
    intro node hnode
    rcases List.mem_cons.mp hnode with heq | hnode
    · rw [heq, ← hb]
      exact hash_congr (cstr_cstr key)
    · exact chain.hashed node hnode
  nodup := by
    rw [List.map_cons, List.nodup_cons]
    refine ⟨fun hmem => ?_, chain.nodup⟩
    have ⟨node, hnode, heq⟩ := List.mem_map.mp hmem
    exact hnew node hnode (Eq.trans heq (cstr_cstr key))

/-- What a call has done to the chain when its walk is over. -/
theorem visit_done {b : Fin tableSize} {nodes nodes' : List Node} {op : Op} {pos : Nat}
    {result : Option Result} (chain : Chain b nodes) (hb : hash op.key = b)
    (unseen : Unseen nodes op.key pos) (h : visit nodes op pos = .done nodes' result) :
    Chain b nodes' ∧ (∀ key, chainValue nodes' key = op.effect key (chainValue nodes key)) ∧
      ∀ key, op = .lookup key → result = some (answer (chainValue nodes key)) := by
  cases hget : nodes[pos]? with
  | some node =>
      rw [visit_node hget] at h
      by_cases hkey : strcmpEq node.key op.key
      · rw [if_pos hkey] at h
        cases op with
        | insert key value =>
            have ⟨hnodes, _⟩ := Visit.done.inj h
            subst hnodes
            refine ⟨chain.of_keys ?_, chainValue_update unseen hget hkey, fun _ h => (nomatch h)⟩
            have ⟨l₂, hsplit, hset⟩ := split_at hget
            rw [hset]
            conv_rhs => rw [hsplit]
            rw [List.map_append, List.map_append]
            rfl
        | lookup key =>
            have ⟨hnodes, hresult⟩ := Visit.done.inj h
            subst hnodes
            refine ⟨chain, fun _ => rfl, fun key' heq => ?_⟩
            cases heq
            rw [show chainValue nodes key = some node.value from
              chainValue_found unseen hget hkey]
            exact hresult.symm
      · rw [if_neg hkey] at h
        cases h
  | none =>
      have hall : ∀ node ∈ nodes, ¬ strcmpEq node.key op.key := by
        have hle := List.getElem?_eq_none_iff.mp hget
        rwa [Unseen, List.take_of_length_le hle] at unseen
      rw [visit_end hget] at h
      cases op with
      | insert key value =>
          have ⟨hnodes, _⟩ := Visit.done.inj h
          subst hnodes
          refine ⟨chain.push hb hall value, fun key' => ?_, fun _ h => (nomatch h)⟩
          rw [chainValue_cons, Op.effect]
          simp only [strcmpEq, cstr_cstr]
      | lookup key =>
          have ⟨hnodes, hresult⟩ := Visit.done.inj h
          subst hnodes
          refine ⟨chain, fun _ => rfl, fun key' heq => ?_⟩
          cases heq
          rw [show chainValue nodes key = none from chainValue_eq_none hall]
          exact hresult.symm

end SystemsInC.Ports.LockedHashMap
