import Mathlib.Algebra.Group.Nat.Defs
import SystemsInC.Verified.CString
import SystemsInC.Verified.CellHeap

/-!
# The block cache on the heap

The buffer pool, the LRU cache and `files` of `filesystem.c`.  Nodes of the cache
live on a heap that `malloc` and `free` extend and shrink, the buffers of the
pool in an array that is a heap of its own.  An access through NULL or to a freed
node fails, and so does a loop that runs out of fuel.

The hash buckets point into the recency list: `cacheput` links a new node in
front of its bucket and then `addtofront` overwrites that link, so a search that
starts at a bucket follows the recency list.
-/

namespace SystemsInC.Ports.BlockCacheHeap

open SystemsInC.Verified.CString
open SystemsInC.Verified.CellHeap

def cacheSize : Nat := 5
def keySize : Nat := 32
def bufferSize : Nat := 4096

structure Buffer where
  data : Bytes
  isfree : Bool
  next : Ptr

structure CacheNode where
  key : Bytes
  buffers : Ptr
  prev : Ptr
  next : Ptr

/-- The two heaps, the next address `malloc` returns, and the fields of the pool
and of the cache. -/
structure FsMem where
  nodes : Heap CacheNode
  nextNode : Nat
  buffers : Heap Buffer
  freelist : Ptr
  freecount : Nat
  head : Ptr
  tail : Ptr
  bucket : Nat → Ptr
  count : Nat
  capacity : Nat

def FsMem.storeNode (m : FsMem) (p : Ptr) (f : CacheNode → CacheNode) : Option FsMem :=
  (modify m.nodes p f).map (fun nodes => { m with nodes := nodes })

def FsMem.storeBuffer (m : FsMem) (p : Ptr) (f : Buffer → Buffer) : Option FsMem :=
  (modify m.buffers p f).map (fun buffers => { m with buffers := buffers })

/-! ## Hashing -/

/-- A `char` is signed: converted to `unsigned int` it is extended with its sign. -/
def charValue (c : UInt8) : Nat := if c.toNat < 128 then c.toNat else c.toNat + (2 ^ 32 - 256)

def hash (key : Bytes) : Nat :=
  (cstr key).foldl (fun hashvalue c => (hashvalue * 31 + charValue c) % 2 ^ 32) 0 % cacheSize

/-! ## The buffer pool -/

/-- A fresh pool and an empty cache.  The data of a buffer is indeterminate until
it is written. -/
def createbufferpool (poolsize : Nat) : FsMem :=
  { nodes := fun _ => none
    nextNode := 0
    buffers := fun i =>
      if i < poolsize then
        some
          { data := []
            isfree := true
            next := if i = poolsize - 1 then none else some (i + 1) }
      else none
    freelist := some 0
    freecount := poolsize
    head := none
    tail := none
    bucket := fun _ => none
    count := 0
    capacity := cacheSize }

/-- The buffer taken, or NULL from an exhausted pool. -/
def acquire_buffer (m : FsMem) : Option (Ptr × FsMem) :=
  if m.freecount = 0 then
    some (none, m)
  else do
    let buf := m.freelist
    let cell ← load m.buffers buf
    let m := { m with freelist := cell.next }
    let m ← m.storeBuffer buf (fun b => { b with isfree := false, next := none })
    return (buf, { m with freecount := m.freecount - 1 })

def release_buffer (m : FsMem) (buffer : Ptr) : Option FsMem :=
  if buffer = none then
    some m
  else do
    let cell ← load m.buffers buffer
    if cell.isfree then
      return m
    else
      let m ← m.storeBuffer buffer (fun b =>
        { b with
          data := List.replicate bufferSize 0
          isfree := true
          next := m.freelist })
      return { m with
        freelist := buffer
        freecount := m.freecount + 1 }

/-! ## The recency list -/

/-- `if (p) p->next = q;` -/
def linkNext (m : FsMem) (p q : Ptr) : Option FsMem :=
  if p = none then some m else m.storeNode p (fun n => { n with next := q })

/-- `if (p) p->prev = q;` -/
def linkPrev (m : FsMem) (p q : Ptr) : Option FsMem :=
  if p = none then some m else m.storeNode p (fun n => { n with prev := q })

def addtofront (m : FsMem) (node : Ptr) : Option FsMem := do
  let m ← m.storeNode node (fun n => { n with prev := none })
  let m ← m.storeNode node (fun n => { n with next := m.head })
  let m ← linkPrev m m.head node
  let m := { m with head := node }
  return if m.tail = none then { m with tail := node } else m

/-- The second half of `movetofront` is the body of `addtofront`. -/
def movetofront (m : FsMem) (node : Ptr) : Option FsMem :=
  if m.head = node then
    some m
  else do
    let cell ← load m.nodes node
    let m ← linkNext m cell.prev cell.next
    let cell ← load m.nodes node
    let m ← linkPrev m cell.next cell.prev
    let cell ← load m.nodes node
    let m := if m.tail = node then { m with tail := cell.prev } else m
    addtofront m node

def removelru (m : FsMem) : Option (Ptr × FsMem) :=
  if m.tail = none then
    some (none, m)
  else do
    let lru := m.tail
    let cell ← load m.nodes lru
    let m ←
      if cell.prev = none then
        some { m with head := none }
      else
        m.storeNode cell.prev (fun n => { n with next := none })
    let cell ← load m.nodes lru
    return (lru, { m with tail := cell.prev })

/-! ## Lookup and insertion -/

/-- The loop of `cache_get` and of `cacheput`: the node found, or NULL. -/
def findNode : Nat → FsMem → Bytes → Ptr → Option Ptr
  | 0, _, _, _ => none
  | fuel + 1, m, key, current =>
      if current = none then
        some none
      else do
        let node ← load m.nodes current
        if strcmpEq node.key key then
          return current
        else
          findNode fuel m key node.next

/-- The buffer of the node found, or NULL on a miss. -/
def cache_get (m : FsMem) (key : Bytes) : Option (Ptr × FsMem) := do
  let current ← findNode (m.nextNode + 1) m key (m.bucket (hash key))
  if current = none then
    return (none, m)
  else
    let m ← movetofront m current
    let node ← load m.nodes current
    return (node.buffers, m)

/-- Evict the least recently used block: the body of the `if` in `cacheput`. -/
def evict (m : FsMem) : Option FsMem := do
  let (lru, m) ← removelru m
  if lru = none then
    return m
  else
    let node ← load m.nodes lru
    let lru_index := hash node.key
    let m :=
      if m.bucket lru_index = lru then
        { m with bucket := Function.update m.bucket lru_index node.next }
      else m
    let m ← release_buffer m node.buffers
    let address ← lru
    return { m with
      nodes := Function.update m.nodes address none
      count := m.count - 1 }

def makeRoom (m : FsMem) : Option FsMem :=
  if m.capacity ≤ m.count then evict m else some m

/-- `strncpy(new_node->key, key, KEY_SIZE-1)` and the NUL after it. -/
def storedKey (key : Bytes) : Bytes := strncpy key (keySize - 1) ++ [0]

/-- `cacheput` from its `malloc` on. -/
def linkNewNode (m : FsMem) (key : Bytes) (buffer : Ptr) (index : Nat) : Option FsMem := do
  let new_node := some m.nextNode
  let m :=
    { m with
      nodes := Function.update m.nodes m.nextNode (some
        { key := storedKey key
          buffers := buffer
          prev := none
          next := none })
      nextNode := m.nextNode + 1 }
  let m ← m.storeNode new_node (fun n => { n with next := m.bucket index })
  let m := { m with bucket := Function.update m.bucket index new_node }
  let m ← addtofront m new_node
  return { m with count := m.count + 1 }

def cacheput (m : FsMem) (key : Bytes) (buffer : Ptr) : Option FsMem := do
  let index := hash key
  let current ← findNode (m.nextNode + 1) m key (m.bucket index)
  if current ≠ none then
    movetofront m current
  else
    let m ← makeRoom m
    linkNewNode m key buffer index

/-! ## Requests -/

/-- How a call of `files` ends: with the data of the cached buffer, with the block
loaded, or with the pool exhausted. -/
inductive Outcome
  | hit (data : Bytes)
  | loaded
  | exhausted
  deriving DecidableEq, Repr

/-- `strncpy(buffer->data, data, BUFFER_SIZE-1)` and the NUL after it. -/
def storedData (data : Bytes) : Bytes := strncpy data (bufferSize - 1) ++ [0]

def files (m : FsMem) (key data : Bytes) : Option (Outcome × FsMem) := do
  let (cached_buffer, m) ← cache_get m key
  if cached_buffer ≠ none then
    let cell ← load m.buffers cached_buffer
    return (.hit cell.data, m)
  else
    let (buffer, m) ← acquire_buffer m
    if buffer = none then
      return (.exhausted, m)
    else
      let m ← m.storeBuffer buffer (fun b => { b with data := storedData data })
      let m ← cacheput m key buffer
      return (.loaded, m)

/-- The clean-up loop of `main`. -/
def cleanup : Nat → FsMem → Ptr → Option FsMem
  | 0, _, _ => none
  | fuel + 1, m, current =>
      match current with
      | none => some m
      | some address => do
          let node ← m.nodes address
          let m ←
            if node.buffers = none then some m
            else do
              if (← load m.buffers node.buffers).isfree then
                return m
              else
                release_buffer m node.buffers
          cleanup fuel { m with nodes := Function.update m.nodes address none } node.next

/-- A completed request. -/
structure Done where
  key : Bytes
  data : Bytes
  outcome : Outcome

/-- One request after another, with the completed ones newest first. -/
def request (s : FsMem × List Done) (call : Bytes × Bytes) : Option (FsMem × List Done) := do
  let (outcome, m) ← files s.1 call.1 call.2
  return (m, ⟨call.1, call.2, outcome⟩ :: s.2)

/-- Requests to an empty cache on a fresh pool. -/
def runFiles (poolsize : Nat) (calls : List (Bytes × Bytes)) : Option (FsMem × List Done) :=
  calls.foldlM request (createbufferpool poolsize, [])

theorem runFiles_concat (poolsize : Nat) (calls : List (Bytes × Bytes)) (call : Bytes × Bytes) :
    runFiles poolsize (calls ++ [call]) =
      (runFiles poolsize calls).bind (fun s => request s call) := by
  rw [runFiles, List.foldlM_append]
  simp [runFiles]

end SystemsInC.Ports.BlockCacheHeap
