import SystemsInC.Verified.LinkedList
import SystemsInC.Ports.BlockCacheHeap

/-!
# The lists of the block cache

`Blocks` is the state of pool and cache without pointers: the cached blocks in
the order of the recency list, the buckets, and the free buffers.  `OnHeap m b held`
says that the heaps of `m` hold exactly that, and the acquired buffers `held` on
top.  Each function of `BlockCacheHeap` has a rule that says what it does to `b`.
-/

namespace SystemsInC.Ports.BlockCacheShape

open SystemsInC.Verified.CString
open SystemsInC.Verified.CellHeap
open SystemsInC.Verified.LinkedList
open SystemsInC.Ports.BlockCacheHeap hiding hash

/-! ## Pool and cache without pointers -/

/-- A cached block: its key, its buffer and the data in the buffer. -/
structure Block where
  key : Bytes
  buffer : Nat
  data : Bytes
  deriving DecidableEq, Repr

structure Blocks where
  /-- most recently used first, each with the address of its node -/
  entries : List (Nat × Block)
  bucket : Nat → Ptr
  /-- the free list, with what is left in the buffers -/
  free : List (Nat × Bytes)
  /-- the address of the next node -/
  nextNode : Nat

def zeros : Bytes := List.replicate bufferSize 0

/-- The node a search for `key` finds, starting at its bucket. -/
def Blocks.lookup (b : Blocks) (key : Bytes) : Option (Nat × Block) :=
  (b.bucket (BlockCacheHeap.hash key)).bind (fun a =>
    (b.entries.dropWhile (fun e => decide (e.1 ≠ a))).find?
      (fun e => decide (strcmpEq e.2.key key)))

/-- Move a block to the front. -/
def touch (e : Nat × Block) (entries : List (Nat × Block)) : List (Nat × Block) :=
  e :: entries.filter (fun x => decide (x.1 ≠ e.1))

/-- Drop the least recently used block.  It is the last one of the list, so its
bucket becomes NULL if it points to it. -/
def Blocks.evict (b : Blocks) : Blocks :=
  match b.entries.getLast? with
  | none => b
  | some e =>
      { b with
        entries := b.entries.dropLast
        bucket :=
          if b.bucket (BlockCacheHeap.hash e.2.key) = some e.1 then
            Function.update b.bucket (BlockCacheHeap.hash e.2.key) none
          else b.bucket
        free := (e.2.buffer, zeros) :: b.free }

def Blocks.makeRoom (b : Blocks) : Blocks :=
  if cacheSize ≤ b.entries.length then b.evict else b

/-- Put a block that has been acquired and filled in front. -/
def Blocks.put (b : Blocks) (block : Block) (key : Bytes) : Blocks :=
  { b with
    entries := (b.nextNode, block) :: b.entries
    bucket := Function.update b.bucket (BlockCacheHeap.hash key) (some b.nextNode)
    nextNode := b.nextNode + 1 }

/-- Load a block into the buffer `i`. -/
def Blocks.load (b : Blocks) (i : Nat) (key data : Bytes) : Blocks :=
  b.makeRoom.put ⟨storedKey key, i, storedData data⟩ key

/-- A call of `files`. -/
def Blocks.request (b : Blocks) (key data : Bytes) : Outcome × Blocks :=
  match b.lookup key with
  | some e => (.hit e.2.data, { b with entries := touch e b.entries })
  | none =>
      match b.free with
      | [] => (.exhausted, b)
      | (i, _) :: free => (.loaded, Blocks.load { b with free := free } i key data)

/-! ## Pool and cache on the heaps -/

def nodeLayout : Layout Block CacheNode where
  cell := fun block prev next => ⟨block.key, some block.buffer, prev, next⟩
  setPrev := fun p n => { n with prev := p }
  setNext := fun p n => { n with next := p }
  setPrev_cell := fun _ _ _ _ => rfl
  setNext_cell := fun _ _ _ _ => rfl

/-- Free buffers are linked forward only. -/
def freeLayout : Layout Bytes Buffer where
  cell := fun data _ next => ⟨data, true, next⟩
  setPrev := fun _ n => n
  setNext := fun p n => { n with next := p }
  setPrev_cell := fun _ _ _ _ => rfl
  setNext_cell := fun _ _ _ _ => rfl

theorem listSeg_freeLayout (p p' q : Ptr) (l : List (Nat × Bytes)) :
    listSeg freeLayout p l q = listSeg freeLayout p' l q := by
  cases l <;> rfl

/-- The cell of a buffer in use. -/
def usedCell (i : Nat) (data : Bytes) : Nat × Buffer := (i, ⟨data, false, none⟩)

/-- The buffers of the cached blocks. -/
def usedCells : List (Nat × Block) → Multiset (Nat × Buffer)
  | [] => 0
  | e :: entries => {usedCell e.2.buffer e.2.data} + usedCells entries

theorem usedCells_append (l l' : List (Nat × Block)) :
    usedCells (l ++ l') = usedCells l + usedCells l' := by
  induction l with
  | nil => simp [usedCells]
  | cons e l ih => rw [List.cons_append, usedCells, usedCells, ih, add_assoc]

theorem usedCell_mem_usedCells {e : Nat × Block} {l : List (Nat × Block)} (he : e ∈ l) :
    usedCell e.2.buffer e.2.data ∈ usedCells l := by
  obtain ⟨l₁, l₂, rfl⟩ := List.append_of_mem he
  simp [usedCells_append, usedCells]

/-- **The heaps of the program are the blocks `b`**, with the acquired buffers
`held` besides. -/
structure OnHeap (m : FsMem) (b : Blocks) (held : Multiset (Nat × Buffer)) : Prop where
  nodes : Holds m.nodes (listSeg nodeLayout none b.entries none)
  nextNode : m.nextNode = b.nextNode
  fresh : ∀ e ∈ b.entries, e.1 < b.nextNode
  head : m.head = headPtr b.entries none
  tail : m.tail = lastPtr b.entries none
  bucket : m.bucket = b.bucket
  count : m.count = b.entries.length
  capacity : m.capacity = cacheSize
  buffers : Holds m.buffers
    (usedCells b.entries + (held + listSeg freeLayout none b.free none))
  freelist : m.freelist = headPtr b.free none
  freecount : m.freecount = b.free.length

/-- Every bucket is NULL or points to a node of the recency list with a key that
belongs there. -/
def BucketsLinked (b : Blocks) : Prop :=
  ∀ i a : Nat, b.bucket i = some a → ∃ e ∈ b.entries, e.1 = a ∧ BlockCacheHeap.hash e.2.key = i

/-- Every bucket is NULL or points to a node of the recency list. -/
def BucketsLive (b : Blocks) : Prop :=
  ∀ i a : Nat, b.bucket i = some a → a ∈ b.entries.map Prod.fst

theorem BucketsLinked.live {b : Blocks} (h : BucketsLinked b) : BucketsLive b := by
  intro i a hia
  obtain ⟨c, hc, hca, -⟩ := h i a hia
  exact List.mem_map.mpr ⟨c, hc, hca⟩

theorem OnHeap.listSeg_nodes {m : FsMem} {b : Blocks} {held : Multiset (Nat × Buffer)}
    (h : OnHeap m b held) : Holds m.nodes (listSeg nodeLayout none b.entries none + 0) := by
  simpa using h.nodes

theorem nodup_entries {m : FsMem} {b : Blocks} {held : Multiset (Nat × Buffer)}
    (h : OnHeap m b held) : (b.entries.map Prod.fst).Nodup :=
  nodup_of_holds nodeLayout h.listSeg_nodes

/-- A walk from `cache->head` on passes the cached blocks. -/
theorem OnHeap.walk_next {m : FsMem} {b : Blocks} {held : Multiset (Nat × Buffer)}
    (h : OnHeap m b held) :
    walk m.nodes CacheNode.next (m.count + 1) m.head =
      some (records nodeLayout none b.entries none) := by
  rw [h.head]
  apply walk_rule nodeLayout CacheNode.next (fun _ _ _ => rfl) h.listSeg_nodes
  rw [h.count]
  omega

/-- And one from `cache->tail` back passes them the other way. -/
theorem OnHeap.walk_prev {m : FsMem} {b : Blocks} {held : Multiset (Nat × Buffer)}
    (h : OnHeap m b held) :
    walk m.nodes CacheNode.prev (m.count + 1) m.tail =
      some (records nodeLayout none b.entries none).reverse := by
  rw [h.tail]
  apply walk_back_rule nodeLayout CacheNode.prev (fun _ _ _ => rfl) h.listSeg_nodes
  rw [h.count]
  omega

theorem fst_records (entries : List (Nat × Block)) :
    (records nodeLayout none entries none).map Prod.fst = entries.map Prod.fst :=
  map_records nodeLayout (fun _ _ _ => rfl) none none entries

/-- The fuel of a search is enough. -/
theorem length_le_nextNode {m : FsMem} {b : Blocks} {held : Multiset (Nat × Buffer)}
    (h : OnHeap m b held) : b.entries.length ≤ m.nextNode := by
  have hsub : b.entries.map Prod.fst ⊆ List.range m.nextNode := by
    intro a ha
    obtain ⟨e, he, rfl⟩ := List.mem_map.mp ha
    rw [List.mem_range, h.nextNode]
    exact h.fresh e he
  simpa using ((nodup_entries h).subperm hsub).length_le

theorem touch_append {l₁ l₂ : List (Nat × Block)} {e : Nat × Block}
    (h : ((l₁ ++ e :: l₂).map Prod.fst).Nodup) : touch e (l₁ ++ e :: l₂) = e :: (l₁ ++ l₂) := by
  have hapart : ∀ x ∈ l₁ ++ l₂, x.1 ≠ e.1 := by
    intro x hx heq
    have hperm : ((e :: (l₁ ++ l₂)).map Prod.fst).Nodup :=
      (List.Perm.map Prod.fst List.perm_middle).nodup_iff.mp h
    rw [List.map_cons, List.nodup_cons] at hperm
    exact hperm.1 (heq ▸ List.mem_map_of_mem hx)
  have hkeep : ∀ l : List (Nat × Block), (∀ x ∈ l, x ∈ l₁ ++ l₂) →
      l.filter (fun x => decide (x.1 ≠ e.1)) = l := by
    intro l hl
    exact List.filter_eq_self.mpr (fun x hx => by simpa using hapart x (hl x hx))
  rw [touch, List.filter_append, List.filter_cons_of_neg (by simp),
    hkeep l₁ (fun x hx => by simp [hx]), hkeep l₂ (fun x hx => by simp [hx])]

theorem touch_perm {l : List (Nat × Block)} {e : Nat × Block} (hnodup : (l.map Prod.fst).Nodup)
    (he : e ∈ l) : (touch e l).Perm l := by
  obtain ⟨l₁, l₂, rfl⟩ := List.append_of_mem he
  rw [touch_append hnodup]
  exact List.perm_middle.symm

/-- Cut the list at the node with address `a`. -/
theorem dropWhile_ne {l : List (Nat × Block)} {a : Nat} (ha : a ∈ l.map Prod.fst) :
    ∃ l₁ e l₂, l = l₁ ++ e :: l₂ ∧ e.1 = a ∧
      l.dropWhile (fun e => decide (e.1 ≠ a)) = e :: l₂ := by
  induction l with
  | nil => simp at ha
  | cons c l ih =>
      by_cases hc : c.1 = a
      · exact ⟨[], c, l, rfl, hc, by simp [hc]⟩
      · have hmem : a ∈ l.map Prod.fst := by
          rw [List.map_cons, List.mem_cons] at ha
          exact ha.resolve_left (Ne.symm hc)
        obtain ⟨l₁, e, l₂, rfl, he, hdrop⟩ := ih hmem
        refine ⟨c :: l₁, e, l₂, rfl, he, ?_⟩
        rw [List.dropWhile_cons_of_pos (by simpa using hc)]
        exact hdrop

/-! ## Rules for searches -/

theorem findNode_rule {m : FsMem} (key : Bytes) {l₁ l₂ : List (Nat × Block)}
    (h : Holds m.nodes (listSeg nodeLayout none (l₁ ++ l₂) none)) :
    ∀ fuel, l₂.length < fuel → findNode fuel m key (headPtr l₂ none) =
      some ((l₂.find? (fun e => decide (strcmpEq e.2.key key))).map Prod.fst) := by
  induction l₂ generalizing l₁ with
  | nil =>
      intro fuel hfuel
      obtain ⟨n, rfl⟩ : ∃ n, fuel = n + 1 := ⟨fuel - 1, by simp at hfuel; omega⟩
      simp [findNode]
  | cons e l₂ ih =>
      intro fuel hfuel
      obtain ⟨n, rfl⟩ : ∃ n, fuel = n + 1 := ⟨fuel - 1, by simp at hfuel; omega⟩
      have hread : m.nodes e.1 =
          some (nodeLayout.cell e.2 (lastPtr l₁ none) (headPtr l₂ none)) := by
        rw [listSeg_append, listSeg_cons] at h
        exact h.right.cell
      by_cases heq : strcmpEq e.2.key key
      · simp [findNode, hread, nodeLayout, heq]
      · have hshift : Holds m.nodes (listSeg nodeLayout none ((l₁ ++ [e]) ++ l₂) none) := by
          simpa using h
        have hrest := ih hshift n (by simpa using hfuel)
        simp [findNode, hread, nodeLayout, heq, hrest]

theorem lookup_rule {m : FsMem} {b : Blocks} {held : Multiset (Nat × Buffer)}
    (h : OnHeap m b held) (hlive : BucketsLive b) (key : Bytes) :
    findNode (m.nextNode + 1) m key (m.bucket (BlockCacheHeap.hash key)) =
      some ((b.lookup key).map Prod.fst) := by
  rw [h.bucket, Blocks.lookup]
  cases hb : b.bucket (BlockCacheHeap.hash key) with
  | none => simp [findNode]
  | some a =>
      obtain ⟨l₁, e, l₂, hsplit, rfl, hdrop⟩ := dropWhile_ne (hlive _ a hb)
      have hnodes := h.nodes
      have hlen := length_le_nextNode h
      rw [hsplit] at hnodes hlen
      have hfound := findNode_rule key hnodes (m.nextNode + 1)
        (by simp at hlen ⊢; omega)
      rw [Option.bind_some, hdrop]
      exact hfound

theorem mem_of_lookup {b : Blocks} {key : Bytes} {e : Nat × Block} (h : b.lookup key = some e) :
    e ∈ b.entries ∧ strcmpEq e.2.key key := by
  obtain ⟨a, -, hfind⟩ := Option.bind_eq_some_iff.mp h
  refine ⟨?_, by simpa using List.find?_some hfind⟩
  exact (List.dropWhile_sublist _).subset (List.mem_of_find?_eq_some hfind)

/-! ## Rules for the recency list -/

theorem storeNode_eq {m : FsMem} {p : Ptr} {f : CacheNode → CacheNode} {nodes : Heap CacheNode}
    (h : modify m.nodes p f = some nodes) :
    m.storeNode p f = some { m with nodes := nodes } := by
  rw [FsMem.storeNode, h]
  rfl

/-- Put a node that is in no list in front of the list `l`. -/
theorem addtofront_rule {m : FsMem} {a : Nat} {block : Block} {p q : Ptr}
    {l : List (Nat × Block)}
    (h : Holds m.nodes ({(a, nodeLayout.cell block p q)} + listSeg nodeLayout none l none))
    (hhead : m.head = headPtr l none) (htail : m.tail = lastPtr l none) :
    ∃ nodes, addtofront m (some a) =
        some { m with
          nodes := nodes
          head := some a
          tail := lastPtr ((a, block) :: l) none } ∧
      Holds nodes (listSeg nodeLayout none ((a, block) :: l) none) := by
  obtain ⟨nodes₁, hop₁, h₁⟩ := h.write (nodeLayout.setPrev none)
  obtain ⟨nodes₂, hop₂, h₂⟩ := h₁.write (nodeLayout.setNext m.head)
  rw [nodeLayout.setPrev_cell, nodeLayout.setNext_cell, hhead] at h₂
  have hstore₁ := storeNode_eq hop₁
  have hstore₂ : ({ m with nodes := nodes₁ } : FsMem).storeNode (some a)
      (nodeLayout.setNext m.head) = some { m with nodes := nodes₂ } := storeNode_eq hop₂
  simp only [nodeLayout] at hstore₁ hstore₂
  cases l with
  | nil =>
      refine ⟨nodes₂, ?_, by simpa [listSeg_cons] using h₂⟩
      rw [headPtr_nil] at hhead
      rw [lastPtr_nil] at htail
      simp only [addtofront, hstore₁, Option.bind_eq_bind, Option.bind_some, hstore₂]
      simp [linkPrev, hhead, htail]
  | cons c l =>
      have h₂' : Holds nodes₂ (listSeg nodeLayout none (c :: l) none +
          {(a, nodeLayout.cell block none (headPtr (c :: l) none))}) := by
        convert h₂ using 1
        abel
      obtain ⟨nodes₃, hop₃, h₃⟩ := setPrev_rule nodeLayout h₂' (some a)
      have hstore₃ : ({ m with nodes := nodes₂ } : FsMem).storeNode (some c.1)
          (nodeLayout.setPrev (some a)) = some { m with nodes := nodes₃ } := storeNode_eq hop₃
      refine ⟨nodes₃, ?_, ?_⟩
      · simp only [nodeLayout] at hstore₃
        have htail' : m.tail ≠ none := by
          rw [htail]
          obtain ⟨l', d, hl⟩ := (List.eq_nil_or_concat' (c :: l)).resolve_left (by simp)
          rw [hl, lastPtr_concat]
          simp
        have hsame : lastPtr ((a, block) :: c :: l) none = m.tail := htail.symm
        have hlink : ∀ p, p = some c.1 → linkPrev { m with nodes := nodes₂ } p (some a) =
            some { m with nodes := nodes₃ } := by
          rintro p rfl
          exact hstore₃
        simp only [addtofront, hstore₁, Option.bind_eq_bind, Option.bind_some, hstore₂,
          hlink _ hhead, if_neg htail', hsame]
        rfl
      · rw [listSeg_cons]
        convert h₃ using 1
        abel

/-- Take a node out of the middle or from the end of the list. -/
private theorem unlink_rule {m : FsMem} {e : Nat × Block} {l₁ l₂ : List (Nat × Block)}
    {y : Nat × Block}
    (h : Holds m.nodes (listSeg nodeLayout none (l₁ ++ [y] ++ e :: l₂) none)) :
    ∃ nodes₁ nodes₂,
      linkNext m (some y.1) (headPtr l₂ none) = some { m with nodes := nodes₁ } ∧
      linkPrev { m with nodes := nodes₁ } (headPtr l₂ none) (some y.1) =
        some { m with nodes := nodes₂ } ∧
      nodes₁ e.1 = some (nodeLayout.cell e.2 (some y.1) (headPtr l₂ none)) ∧
      nodes₂ e.1 = some (nodeLayout.cell e.2 (some y.1) (headPtr l₂ none)) ∧
      Holds nodes₂ ({(e.1, nodeLayout.cell e.2 (some y.1) (headPtr l₂ none))} +
        listSeg nodeLayout none (l₁ ++ [y] ++ l₂) none) := by
  have h₀ : Holds m.nodes (listSeg nodeLayout none (l₁ ++ [y]) (some e.1) +
      ({(e.1, nodeLayout.cell e.2 (some y.1) (headPtr l₂ none))} +
        listSeg nodeLayout (some e.1) l₂ none)) := by
    rw [listSeg_append, listSeg_cons, lastPtr_concat] at h
    exact h
  obtain ⟨nodes₁, hop₁, h₁⟩ := setNext_rule nodeLayout h₀ (headPtr l₂ none)
  have hstore₁ : linkNext m (some y.1) (headPtr l₂ none) = some { m with nodes := nodes₁ } := by
    simpa [linkNext, nodeLayout] using storeNode_eq hop₁
  have hread₁ : nodes₁ e.1 = some (nodeLayout.cell e.2 (some y.1) (headPtr l₂ none)) :=
    h₁.right.cell
  cases l₂ with
  | nil =>
      refine ⟨nodes₁, nodes₁, hstore₁, by simp [linkPrev], hread₁, hread₁, ?_⟩
      simp only [listSeg_nil, add_zero, headPtr_nil, List.append_nil] at h₁ ⊢
      convert h₁ using 1
      abel
  | cons c l₂ =>
      have h₁' : Holds nodes₁ (listSeg nodeLayout (some e.1) (c :: l₂) none +
          ({(e.1, nodeLayout.cell e.2 (some y.1) (headPtr (c :: l₂) none))} +
            listSeg nodeLayout none (l₁ ++ [y]) (headPtr (c :: l₂) none))) := by
        convert h₁ using 1
        abel
      obtain ⟨nodes₂, hop₂, h₂⟩ := setPrev_rule nodeLayout h₁' (some y.1)
      have hstore₂ : linkPrev { m with nodes := nodes₁ } (headPtr (c :: l₂) none) (some y.1) =
          some { m with nodes := nodes₂ } := by
        have hstore := storeNode_eq (m := { m with nodes := nodes₁ }) hop₂
        simpa [linkPrev, nodeLayout] using hstore
      refine ⟨nodes₁, nodes₂, hstore₁, hstore₂, hread₁, h₂.right.cell, ?_⟩
      rw [listSeg_append, lastPtr_concat]
      convert h₂ using 1
      abel

/-- A node that has a predecessor is not the head. -/
private theorem headPtr_ne {l l₂ : List (Nat × Block)} {y e : Nat × Block}
    (hnodup : ((l ++ [y] ++ e :: l₂).map Prod.fst).Nodup) :
    headPtr (l ++ [y] ++ e :: l₂) none ≠ some e.1 := by
  have hmem : ∀ c : Nat × Block, c ∈ l ++ [y] → c.1 ≠ e.1 := by
    intro c hc heq
    rw [List.map_append, List.nodup_append] at hnodup
    exact hnodup.2.2 c.1 (List.mem_map_of_mem hc) e.1 (by simp) heq
  cases l with
  | nil => simpa using hmem y (by simp)
  | cons c l => simpa using hmem c (by simp)

/-- `if (cache->tail == node) cache->tail = node->prev;` -/
private theorem tail_unlink {l l₂ : List (Nat × Block)} {y e : Nat × Block}
    (hnodup : ((l ++ [y] ++ e :: l₂).map Prod.fst).Nodup) :
    (if lastPtr (l ++ [y] ++ e :: l₂) none = some e.1 then some y.1
      else lastPtr (l ++ [y] ++ e :: l₂) none) = lastPtr (l ++ [y] ++ l₂) none := by
  rcases List.eq_nil_or_concat' l₂ with rfl | ⟨l', d, rfl⟩
  · simp [lastPtr_append]
  · have hde : d.1 ≠ e.1 := by
      intro heq
      rw [List.map_append, List.nodup_append, List.map_cons, List.nodup_cons] at hnodup
      exact hnodup.2.1.1 (by simp [heq])
    simp only [lastPtr_append, lastPtr_cons, lastPtr_nil, Option.some.injEq]
    rw [if_neg hde]

/-- Take a node that is not the head out and put it in front. -/
private theorem movetofront_middle {m : FsMem} {e y : Nat × Block} {l l₂ : List (Nat × Block)}
    (h : Holds m.nodes (listSeg nodeLayout none (l ++ [y] ++ e :: l₂) none))
    (hhead : m.head = headPtr (l ++ [y] ++ e :: l₂) none)
    (htail : m.tail = lastPtr (l ++ [y] ++ e :: l₂) none) :
    ∃ nodes, movetofront m (some e.1) =
        some { m with
          nodes := nodes
          head := some e.1
          tail := lastPtr (e :: (l ++ [y] ++ l₂)) none } ∧
      Holds nodes (listSeg nodeLayout none (e :: (l ++ [y] ++ l₂)) none) := by
  have hnodup : ((l ++ [y] ++ e :: l₂).map Prod.fst).Nodup :=
    nodup_of_holds nodeLayout (s := 0) (by simpa using h)
  have hread : m.nodes e.1 = some (nodeLayout.cell e.2 (some y.1) (headPtr l₂ none)) := by
    have hcells := h
    rw [listSeg_append, listSeg_cons, lastPtr_concat] at hcells
    exact hcells.right.cell
  obtain ⟨nodes₁, nodes₂, hop₁, hop₂, hread₁, hread₂, h₂⟩ := unlink_rule h
  have hfront : m.head = headPtr (l ++ [y] ++ l₂) none := by
    rw [hhead, headPtr_append, headPtr_append]
    cases l <;> rfl
  obtain ⟨nodes₃, hop₃, h₃⟩ := addtofront_rule
    (m := { m with nodes := nodes₂, tail := lastPtr (l ++ [y] ++ l₂) none }) h₂ hfront rfl
  have hback : (if m.tail = some e.1 then { m with nodes := nodes₂, tail := some y.1 }
      else { m with nodes := nodes₂ }) =
      { m with nodes := nodes₂, tail := lastPtr (l ++ [y] ++ l₂) none } := by
    rw [← tail_unlink hnodup, ← htail]
    split_ifs <;> rfl
  have hne : m.head ≠ some e.1 := by
    rw [hhead]
    exact headPtr_ne hnodup
  refine ⟨nodes₃, ?_, h₃⟩
  simp only [nodeLayout] at hread hread₁ hread₂
  simp only [movetofront, if_neg hne, load_some, hread, Option.bind_eq_bind,
    Option.bind_some, hop₁, hread₁, hop₂, hread₂, hback]
  exact hop₃

theorem movetofront_rule {m : FsMem} {b : Blocks} {held : Multiset (Nat × Buffer)}
    (h : OnHeap m b held) {e : Nat × Block} (he : e ∈ b.entries) :
    ∃ m', movetofront m (some e.1) = some m' ∧
      OnHeap m' { b with entries := touch e b.entries } held := by
  have hnodup := nodup_entries h
  have hperm := touch_perm hnodup he
  obtain ⟨l₁, l₂, hsplit⟩ := List.append_of_mem he
  have hnodes := h.nodes
  have hhead := h.head
  have htail := h.tail
  have hbuffers := h.buffers
  rw [hsplit] at hnodup hnodes hhead htail hbuffers
  have htouch : touch e b.entries = e :: (l₁ ++ l₂) := by rw [hsplit, touch_append hnodup]
  rcases List.eq_nil_or_concat' l₁ with rfl | ⟨l, y, rfl⟩
  · -- already in front
    have hsame : touch e b.entries = b.entries := by
      rw [htouch, hsplit]
      rfl
    rw [hsame]
    exact ⟨m, by simp [movetofront, hhead], h⟩
  · obtain ⟨nodes₁, hop₁, h₁⟩ := movetofront_middle hnodes hhead htail
    refine ⟨_, hop₁, ?_⟩
    exact
      { nodes := by
          rw [htouch]
          exact h₁
        nextNode := h.nextNode
        fresh := fun x hx => h.fresh x (hperm.mem_iff.mp hx)
        head := by rw [htouch, headPtr_cons]
        tail := by rw [htouch]
        bucket := h.bucket
        count := by
          rw [hperm.length_eq]
          exact h.count
        capacity := h.capacity
        buffers := by
          rw [htouch]
          simp only [usedCells_append, usedCells] at hbuffers ⊢
          convert hbuffers using 1
          abel
        freelist := h.freelist
        freecount := h.freecount }

/-- Unlink the last node of the list. -/
theorem removelru_rule {m : FsMem} {e : Nat × Block} {l : List (Nat × Block)}
    (h : Holds m.nodes (listSeg nodeLayout none (l ++ [e]) none))
    (hhead : m.head = headPtr (l ++ [e]) none) (htail : m.tail = lastPtr (l ++ [e]) none) :
    ∃ nodes, removelru m =
        some (some e.1, { m with
          nodes := nodes
          head := headPtr l none
          tail := lastPtr l none }) ∧
      Holds nodes ({(e.1, nodeLayout.cell e.2 (lastPtr l none) none)} +
        listSeg nodeLayout none l none) := by
  rw [lastPtr_concat] at htail
  have hcells : Holds m.nodes (listSeg nodeLayout none l (some e.1) +
      {(e.1, nodeLayout.cell e.2 (lastPtr l none) none)}) := by
    rw [listSeg_append, listSeg_cons] at h
    exact h
  have hread : m.nodes e.1 = some (nodeLayout.cell e.2 (lastPtr l none) none) :=
    hcells.right.read (e.1, _) (Multiset.mem_singleton_self _)
  rcases List.eq_nil_or_concat' l with rfl | ⟨l, y, rfl⟩
  · refine ⟨m.nodes, ?_, by simpa using hcells⟩
    simp [removelru, htail, hread, nodeLayout]
  · obtain ⟨nodes₁, hop₁, h₁⟩ := setNext_rule nodeLayout hcells none
    have hread₁ : nodes₁ e.1 = some (nodeLayout.cell e.2 (lastPtr (l ++ [y]) none) none) :=
      h₁.right.read (e.1, _) (Multiset.mem_singleton_self _)
    have hstore₁ := storeNode_eq hop₁
    have hfront : headPtr (l ++ [y]) none = m.head := by
      rw [hhead, List.append_assoc, headPtr_append, headPtr_append]
      cases l <;> rfl
    refine ⟨nodes₁, ?_, ?_⟩
    · simp only [nodeLayout, lastPtr_concat] at hread hread₁ hstore₁
      simp only [removelru, htail, load_some, hread, Option.bind_eq_bind, Option.bind_some,
        reduceCtorEq, if_false, hstore₁, hread₁, hfront, lastPtr_concat]
      rfl
    · rw [add_comm]
      exact h₁

end SystemsInC.Ports.BlockCacheShape
