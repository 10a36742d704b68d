import Mathlib.Data.List.Induction
import SystemsInC.Ports.BlockCacheShape

/-!
# A request to the block cache

The rules for the pool and for `cacheput`, and from them the one for `files`:
`files_rule` says that a call does to the heaps what `Blocks.request` does to the
blocks.  The hash buckets stay linked as long as the keys fit into a node.
-/

namespace SystemsInC.Ports.BlockCacheRequest

open SystemsInC.Verified.CString
open SystemsInC.Verified.CellHeap
open SystemsInC.Verified.LinkedList
open SystemsInC.Ports.BlockCacheHeap hiding hash
open SystemsInC.Ports.BlockCacheShape

/-! ## Rules for the pool -/

theorem storeBuffer_eq {m : FsMem} {p : Ptr} {f : Buffer → Buffer} {buffers : Heap Buffer}
    (h : modify m.buffers p f = some buffers) :
    m.storeBuffer p f = some { m with buffers := buffers } := by
  rw [FsMem.storeBuffer, h]
  rfl

theorem listSeg_free_cons (p : Ptr) (i : Nat) (data : Bytes) (free : List (Nat × Bytes)) :
    listSeg freeLayout p ((i, data) :: free) none =
      {(i, ⟨data, true, headPtr free none⟩)} + listSeg freeLayout none free none := by
  rw [listSeg_cons, listSeg_freeLayout (some i) none]
  rfl

/-- `acquire_buffer` takes the first buffer off the free list and leaves its bytes as they are. -/
theorem acquire_buffer_rule {m : FsMem} {i : Nat} {data : Bytes} {free : List (Nat × Bytes)}
    {s : Multiset (Nat × Buffer)}
    (h : Holds m.buffers (listSeg freeLayout none ((i, data) :: free) none + s))
    (hlist : m.freelist = some i) (hcount : m.freecount = free.length + 1) :
    ∃ buffers, acquire_buffer m =
        some (some i, { m with
          buffers := buffers
          freelist := headPtr free none
          freecount := free.length }) ∧
      Holds buffers ({usedCell i data} + (listSeg freeLayout none free none + s)) := by
  rw [listSeg_free_cons, add_assoc] at h
  have hread := h.cell
  obtain ⟨buffers, hop, h'⟩ := h.write (fun b => { b with isfree := false, next := none })
  have hstore := storeBuffer_eq
    (m := { m with freelist := headPtr free none }) hop
  refine ⟨buffers, ?_, h'⟩
  simp only [acquire_buffer, hcount, hlist, load_some, hread, Option.bind_eq_bind,
    Option.bind_some] at hstore ⊢
  rw [if_neg (Nat.succ_ne_zero _), hstore]
  rfl

/-- `release_buffer` puts a buffer in use at the front of the free list. -/
theorem release_buffer_rule {m : FsMem} {i : Nat} {data : Bytes} {free : List (Nat × Bytes)}
    {s : Multiset (Nat × Buffer)}
    (h : Holds m.buffers ({usedCell i data} + (listSeg freeLayout none free none + s)))
    (hlist : m.freelist = headPtr free none) :
    ∃ buffers, release_buffer m (some i) =
        some { m with
          buffers := buffers
          freelist := some i
          freecount := m.freecount + 1 } ∧
      Holds buffers (listSeg freeLayout none ((i, zeros) :: free) none + s) := by
  have hread := h.cell
  obtain ⟨buffers, hop, h'⟩ := h.write (fun b =>
    { b with data := zeros, isfree := true, next := m.freelist })
  have hstore := storeBuffer_eq hop
  refine ⟨buffers, ?_, ?_⟩
  · simp only [zeros] at hstore
    simp only [release_buffer, load_some, hread, Option.bind_eq_bind, Option.bind_some, hstore]
    rfl
  · rw [listSeg_free_cons, add_assoc, ← hlist]
    exact h'

/-! ## Rules for `cacheput` -/

/-- The block that leaves is the last one in the order of recency. -/
theorem evict_append (b : Blocks) {l : List (Nat × Block)} {e : Nat × Block}
    (h : b.entries = l ++ [e]) :
    b.evict = { b with
      entries := l
      bucket :=
        if b.bucket (BlockCacheHeap.hash e.2.key) = some e.1 then
          Function.update b.bucket (BlockCacheHeap.hash e.2.key) none
        else b.bucket
      free := (e.2.buffer, zeros) :: b.free } := by
  have hlast : b.entries.getLast? = some e := by rw [h, List.getLast?_concat]
  rw [Blocks.evict, hlast, h, List.dropLast_concat]

private theorem clearBucket_eq (m : FsMem) (i : Nat) (p : Ptr) :
    (if m.bucket i = p then { m with bucket := Function.update m.bucket i none } else m) =
      { m with
        bucket := if m.bucket i = p then Function.update m.bucket i none else m.bucket } := by
  split_ifs <;> rfl

/-- Drop the last node of the list, its bucket and its buffer. -/
private theorem evict_last {m : FsMem} {e : Nat × Block} {l : List (Nat × Block)}
    {free : List (Nat × Bytes)} {s : Multiset (Nat × Buffer)}
    (h : Holds m.nodes (listSeg nodeLayout none (l ++ [e]) none))
    (hhead : m.head = headPtr (l ++ [e]) none) (htail : m.tail = lastPtr (l ++ [e]) none)
    (hbuffers : Holds m.buffers
      ({usedCell e.2.buffer e.2.data} + (listSeg freeLayout none free none + s)))
    (hlist : m.freelist = headPtr free none) :
    ∃ nodes buffers, evict m =
        some { m with
          nodes := nodes
          buffers := buffers
          freelist := some e.2.buffer
          freecount := m.freecount + 1
          head := headPtr l none
          tail := lastPtr l none
          bucket :=
            if m.bucket (BlockCacheHeap.hash e.2.key) = some e.1 then
              Function.update m.bucket (BlockCacheHeap.hash e.2.key) none
            else m.bucket
          count := m.count - 1 } ∧
      Holds nodes (listSeg nodeLayout none l none) ∧
      Holds buffers (listSeg freeLayout none ((e.2.buffer, zeros) :: free) none + s) := by
  obtain ⟨nodes₁, hop₁, h₁⟩ := removelru_rule h hhead htail
  have hread₁ := h₁.cell
  have hbucket := clearBucket_eq
    { m with
      nodes := nodes₁
      head := headPtr l none
      tail := lastPtr l none } (BlockCacheHeap.hash e.2.key) (some e.1)
  obtain ⟨buffers₂, hop₂, h₂⟩ := release_buffer_rule (m := { m with
    nodes := nodes₁
    head := headPtr l none
    tail := lastPtr l none
    bucket :=
      if m.bucket (BlockCacheHeap.hash e.2.key) = some e.1 then
        Function.update m.bucket (BlockCacheHeap.hash e.2.key) none
      else m.bucket }) hbuffers hlist
  refine ⟨Function.update nodes₁ e.1 none, buffers₂, ?_, h₁.free, h₂⟩
  simp only [nodeLayout] at hread₁
  simp only [evict, hop₁, Option.bind_eq_bind, Option.bind_some, reduceCtorEq, if_false,
    load_some, hread₁, hbucket, hop₂]
  rfl

/-- `evict` gives the buffer of the last block back and forgets the block. -/
theorem evict_rule {m : FsMem} {b : Blocks} {held : Multiset (Nat × Buffer)}
    (h : OnHeap m b held) : ∃ m', evict m = some m' ∧ OnHeap m' b.evict held := by
  rcases List.eq_nil_or_concat' b.entries with hempty | ⟨l, e, hsplit⟩
  · have htail : m.tail = none := by rw [h.tail, hempty, lastPtr_nil]
    have hsame : b.evict = b := by rw [Blocks.evict, hempty, List.getLast?_nil]
    rw [hsame]
    exact ⟨m, by simp [BlockCacheHeap.evict, removelru, htail], h⟩
  · have hnodes := h.nodes
    have hhead := h.head
    have htail := h.tail
    have hcount := h.count
    rw [hsplit] at hnodes hhead htail hcount
    have hbuffers : Holds m.buffers ({usedCell e.2.buffer e.2.data} +
        (listSeg freeLayout none b.free none + (usedCells l + held))) := by
      have hall := h.buffers
      rw [hsplit, usedCells_append, usedCells, usedCells, add_zero] at hall
      convert hall using 1
      abel
    obtain ⟨nodes, buffers, hop, hnodes', hbuffers'⟩ :=
      evict_last hnodes hhead htail hbuffers h.freelist
    refine ⟨_, hop, ?_⟩
    rw [evict_append b hsplit]
    exact
      { nodes := hnodes'
        nextNode := h.nextNode
        fresh := fun x hx => h.fresh x (by rw [hsplit]; simp [hx])
        head := rfl
        tail := rfl
        bucket := by rw [h.bucket]
        count := by
          show m.count - 1 = l.length
          rw [hcount, List.length_append]
          simp
        capacity := h.capacity
        buffers := by
          convert hbuffers' using 1
          abel
        freelist := rfl
        freecount := by
          show m.freecount + 1 = b.free.length + 1
          rw [h.freecount] }

/-- `cacheput` evicts if the cache is full. -/
theorem makeRoom_rule {m : FsMem} {b : Blocks} {held : Multiset (Nat × Buffer)}
    (h : OnHeap m b held) : ∃ m', makeRoom m = some m' ∧ OnHeap m' b.makeRoom held := by
  rw [BlockCacheHeap.makeRoom, Blocks.makeRoom, h.capacity, h.count]
  split_ifs
  · exact evict_rule h
  · exact ⟨m, rfl, h⟩

/-- Link a new node for the acquired buffer `i` in front. -/
theorem linkNewNode_rule {m : FsMem} {b : Blocks} {i : Nat} {data : Bytes}
    (h : OnHeap m b {usedCell i data}) (key : Bytes) :
    ∃ m', linkNewNode m key (some i) (BlockCacheHeap.hash key) = some m' ∧
      OnHeap m' (b.put ⟨storedKey key, i, data⟩ key) 0 := by
  have hfresh : m.nextNode ∉ (listSeg nodeLayout none b.entries none).map Prod.fst := by
    rw [map_fst_listSeg, Multiset.mem_coe]
    intro hmem
    obtain ⟨e, he, heq⟩ := List.mem_map.mp hmem
    have hlt := h.fresh e he
    rw [← h.nextNode] at hlt
    omega
  have hnew := h.nodes.alloc hfresh (nodeLayout.cell ⟨storedKey key, i, data⟩ none none)
  obtain ⟨nodes₁, hop₁, h₁⟩ := hnew.write (nodeLayout.setNext (m.bucket (BlockCacheHeap.hash key)))
  rw [nodeLayout.setNext_cell] at h₁
  obtain ⟨nodes₂, hop₂, h₂⟩ := addtofront_rule (m := { m with
    nodes := nodes₁
    nextNode := m.nextNode + 1
    bucket := Function.update m.bucket (BlockCacheHeap.hash key) (some m.nextNode) })
    h₁ h.head h.tail
  have hstore := storeNode_eq (m := { m with
    nodes := Function.update m.nodes m.nextNode (some ⟨storedKey key, some i, none, none⟩)
    nextNode := m.nextNode + 1 }) hop₁
  simp only [nodeLayout] at hstore
  refine ⟨{ m with
    nodes := nodes₂
    nextNode := m.nextNode + 1
    head := some m.nextNode
    tail := lastPtr ((m.nextNode, ⟨storedKey key, i, data⟩) :: b.entries) none
    bucket := Function.update m.bucket (BlockCacheHeap.hash key) (some m.nextNode)
    count := m.count + 1 }, ?_, ?_⟩
  · simp only [linkNewNode, hstore, Option.bind_eq_bind, Option.bind_some, hop₂]
    rfl
  · exact
      { nodes := by
          rw [Blocks.put, ← h.nextNode]
          exact h₂
        nextNode := congrArg (· + 1) h.nextNode
        fresh := by
          intro e he
          rcases List.mem_cons.mp he with rfl | he
          · exact Nat.lt_succ_self _
          · exact Nat.lt_succ_of_lt (h.fresh e he)
        head := congrArg some h.nextNode
        tail := by
          rw [Blocks.put, ← h.nextNode]
        bucket := by
          rw [Blocks.put, ← h.nextNode, ← h.bucket]
        count := congrArg (· + 1) h.count
        capacity := h.capacity
        buffers := by
          have hbuffers := h.buffers
          rw [Blocks.put, usedCells]
          convert hbuffers using 1
          abel
        freelist := h.freelist
        freecount := h.freecount }

/-- `cacheput` of a key that is not found: room is made, and the block becomes the most
recent one and the head of its bucket. -/
theorem cacheput_rule {m : FsMem} {b : Blocks} {i : Nat} {data : Bytes}
    (h : OnHeap m b {usedCell i data}) (hlive : BucketsLive b) {key : Bytes}
    (hmiss : b.lookup key = none) :
    ∃ m', cacheput m key (some i) = some m' ∧
      OnHeap m' (b.makeRoom.put ⟨storedKey key, i, data⟩ key) 0 := by
  have hsearch := lookup_rule h hlive key
  rw [hmiss, Option.map_none] at hsearch
  obtain ⟨m₁, hroom, h₁⟩ := makeRoom_rule h
  obtain ⟨m₂, hlink, h₂⟩ := linkNewNode_rule h₁ key
  refine ⟨m₂, ?_, h₂⟩
  simp only [cacheput, hsearch, Option.bind_eq_bind, Option.bind_some, ne_eq, not_true,
    if_false, hroom, hlink]

/-! ## The rule for `files` -/

/-- `cache_get` of a key that is found returns its buffer and makes it the most recent one. -/
theorem cache_get_hit {m : FsMem} {b : Blocks} (h : OnHeap m b 0) (hlive : BucketsLive b)
    {key : Bytes} {e : Nat × Block} (hfound : b.lookup key = some e) :
    ∃ m', cache_get m key = some (some e.2.buffer, m') ∧
      OnHeap m' { b with entries := touch e b.entries } 0 := by
  have hsearch := lookup_rule h hlive key
  rw [hfound, Option.map_some] at hsearch
  obtain ⟨m', hmove, h'⟩ := movetofront_rule h (mem_of_lookup hfound).1
  have hread := h'.nodes
  rw [touch, listSeg_cons] at hread
  have hcell := hread.cell
  refine ⟨m', ?_, h'⟩
  simp only [nodeLayout] at hcell
  simp only [cache_get, hsearch, Option.bind_eq_bind, Option.bind_some, reduceCtorEq, if_false,
    hmove, load_some, hcell]
  rfl

/-- `cache_get` of a key that is not found returns NULL and changes nothing. -/
theorem cache_get_miss {m : FsMem} {b : Blocks} (h : OnHeap m b 0) (hlive : BucketsLive b)
    {key : Bytes} (hmiss : b.lookup key = none) : cache_get m key = some (none, m) := by
  have hsearch := lookup_rule h hlive key
  rw [hmiss, Option.map_none] at hsearch
  simp [cache_get, hsearch]

/-- Acquire the first free buffer and fill it. -/
theorem fill_rule {m : FsMem} {b : Blocks} (h : OnHeap m b 0) {i : Nat} {old : Bytes}
    {free : List (Nat × Bytes)} (hfree : b.free = (i, old) :: free) (data : Bytes) :
    ∃ m₁ m₂ : FsMem, acquire_buffer m = some (some i, m₁) ∧
      m₁.storeBuffer (some i) (fun x => { x with data := data }) = some m₂ ∧
      OnHeap m₂ { b with free := free } {usedCell i data} := by
  have hbuffers : Holds m.buffers
      (listSeg freeLayout none ((i, old) :: free) none + usedCells b.entries) := by
    rw [← hfree]
    convert h.buffers using 1
    abel
  have hlist : m.freelist = some i := by rw [h.freelist, hfree, headPtr_cons]
  have hcount : m.freecount = free.length + 1 := by rw [h.freecount, hfree, List.length_cons]
  obtain ⟨buffers₁, hop₁, h₁⟩ := acquire_buffer_rule hbuffers hlist hcount
  obtain ⟨buffers₂, hop₂, h₂⟩ := h₁.write (fun x => { x with data := data })
  refine ⟨_, { m with
    buffers := buffers₂
    freelist := headPtr free none
    freecount := free.length }, hop₁, storeBuffer_eq hop₂, ?_⟩
  exact
    { nodes := h.nodes
      nextNode := h.nextNode
      fresh := h.fresh
      head := h.head
      tail := h.tail
      bucket := h.bucket
      count := h.count
      capacity := h.capacity
      buffers := by
        convert h₂ using 1
        rw [usedCell]
        abel
      freelist := rfl
      freecount := rfl }

/-- **A call of `files` is a request to the blocks.** -/
theorem files_rule {m : FsMem} {b : Blocks} (h : OnHeap m b 0) (hlive : BucketsLive b)
    (key data : Bytes) :
    ∃ m', files m key data = some ((b.request key data).1, m') ∧
      OnHeap m' (b.request key data).2 0 := by
  cases hfound : b.lookup key with
  | some e =>
      obtain ⟨m', hget, h'⟩ := cache_get_hit h hlive hfound
      have hused := usedCell_mem_usedCells (mem_of_lookup hfound).1
      refine ⟨m', ?_, by simpa [Blocks.request, hfound] using h'⟩
      have hmem : usedCell e.2.buffer e.2.data ∈ usedCells (touch e b.entries) :=
        usedCell_mem_usedCells (List.mem_cons_self)
      have hread := h'.buffers.left.read _ hmem
      simp only [usedCell] at hread
      simp only [files, hget, Option.bind_eq_bind, Option.bind_some, ne_eq, reduceCtorEq,
        not_false_eq_true, if_true, load_some, hread, Blocks.request, hfound]
      rfl
  | none =>
      have hget := cache_get_miss h hlive hfound
      cases hfree : b.free with
      | nil =>
          have hcount : m.freecount = 0 := by rw [h.freecount, hfree, List.length_nil]
          refine ⟨m, ?_, by simpa [Blocks.request, hfound, hfree] using h⟩
          simp [files, hget, acquire_buffer, hcount, Blocks.request, hfound, hfree]
      | cons c free =>
          obtain ⟨m₁, m₂, hacquire, hstore, h₂⟩ := fill_rule h hfree (storedData data)
          obtain ⟨m₃, hput, h₃⟩ := cacheput_rule h₂ hlive hfound
          refine ⟨m₃, ?_, by simpa [Blocks.request, Blocks.load, hfound, hfree] using h₃⟩
          simp only [files, hget, Option.bind_eq_bind, Option.bind_some, ne_eq, not_true,
            if_false, hacquire, reduceCtorEq, hstore, hput, Blocks.request, hfound, hfree]
          rfl

/-! ## The buckets stay linked -/

/-- Every key fits into the array of a node. -/
def KeysFit (calls : List (Bytes × Bytes)) : Prop :=
  ∀ call ∈ calls, (cstr call.1).length ≤ keySize - 1

instance (calls : List (Bytes × Bytes)) : Decidable (KeysFit calls) := by
  unfold KeysFit
  infer_instance

/-- A key that fits is stored whole. -/
theorem cstr_storedKey {key : Bytes} (h : (cstr key).length ≤ keySize - 1) :
    cstr (storedKey key) = cstr key := by
  rw [storedKey, cstr_strncpy_append_zero, List.take_of_length_le h]

theorem hash_congr {key key' : Bytes} (h : cstr key = cstr key') :
    BlockCacheHeap.hash key = BlockCacheHeap.hash key' := by
  simp only [BlockCacheHeap.hash, h]

/-- Dropping a block clears its own bucket, if this points to it, and no other. -/
theorem evict_bucket {b : Blocks} {l : List (Nat × Block)} {e : Nat × Block}
    (h : b.entries = l ++ [e]) (i a : Nat) :
    b.evict.bucket i = some a ↔
      b.bucket i = some a ∧ ¬ (i = BlockCacheHeap.hash e.2.key ∧ a = e.1) := by
  rw [evict_append b h]
  simp only
  by_cases hown : b.bucket (BlockCacheHeap.hash e.2.key) = some e.1
  · rw [if_pos hown]
    by_cases hi : i = BlockCacheHeap.hash e.2.key
    · subst hi
      rw [Function.update_self, hown, Option.some.injEq]
      constructor
      · intro hnone
        cases hnone
      · exact fun hboth => absurd ⟨rfl, hboth.1.symm⟩ hboth.2
    · rw [Function.update_of_ne hi]
      exact ⟨fun hia => ⟨hia, fun hboth => hi hboth.1⟩, And.left⟩
  · rw [if_neg hown]
    refine ⟨fun hia => ⟨hia, ?_⟩, And.left⟩
    rintro ⟨rfl, rfl⟩
    exact hown hia

/-- What room is made for keeps the most recent blocks. -/
theorem makeRoom_entries {b : Blocks} (h : b.entries.length ≤ cacheSize) :
    b.makeRoom.entries = b.entries.take (cacheSize - 1) := by
  rw [Blocks.makeRoom]
  split_ifs with hfull
  · rcases List.eq_nil_or_concat' b.entries with hempty | ⟨l, e, hsplit⟩
    · rw [Blocks.evict, hempty, List.getLast?_nil, hempty, List.take_nil]
    · have hlen : l.length = cacheSize - 1 := by
        rw [hsplit, List.length_append, List.length_singleton] at h hfull
        omega
      rw [evict_append b hsplit, hsplit, ← hlen, List.take_left]
  · rw [List.take_of_length_le (by omega)]

/-- A full cache has a least recently used block. -/
theorem exists_last_of_full {b : Blocks} (h : cacheSize ≤ b.entries.length) :
    ∃ l e, b.entries = l ++ [e] := by
  apply (List.eq_nil_or_concat' b.entries).resolve_left
  intro hempty
  rw [hempty] at h
  exact absurd h (by decide)

theorem makeRoom_nextNode (b : Blocks) : b.makeRoom.nextNode = b.nextNode := by
  rw [Blocks.makeRoom]
  split_ifs
  · rw [Blocks.evict]
    split <;> rfl
  · rfl

/-- No bucket is left with a block that has been evicted. -/
theorem bucketsLinked_makeRoom {b : Blocks} (h : BucketsLinked b) : BucketsLinked b.makeRoom := by
  rw [Blocks.makeRoom]
  split_ifs
  · rcases List.eq_nil_or_concat' b.entries with hempty | ⟨l, e, hsplit⟩
    · rwa [Blocks.evict, hempty, List.getLast?_nil]
    · intro i a hia
      have hold := (evict_bucket hsplit i a).mp hia
      rw [evict_append b hsplit]
      obtain ⟨c, hc, hca, hci⟩ := h i a hold.1
      rw [hsplit, List.mem_append, List.mem_singleton] at hc
      rcases hc with hc | rfl
      · exact ⟨c, hc, hca, hci⟩
      · exact absurd ⟨hci.symm, hca.symm⟩ hold.2
  · exact h

/-- Making room clears no bucket but the one that points to the dropped node. -/
theorem makeRoom_bucket {b : Blocks} (hlinked : BucketsLinked b)
    (hnodup : (b.entries.map Prod.fst).Nodup) (i a : Nat) :
    b.makeRoom.bucket i = some a ↔
      b.bucket i = some a ∧ a ∈ b.makeRoom.entries.map Prod.fst := by
  constructor
  · intro hia
    refine ⟨?_, (bucketsLinked_makeRoom hlinked).live i a hia⟩
    rw [Blocks.makeRoom] at hia
    split_ifs at hia
    · rcases List.eq_nil_or_concat' b.entries with hempty | ⟨l, e, hsplit⟩
      · rwa [Blocks.evict, hempty, List.getLast?_nil] at hia
      · exact ((evict_bucket hsplit i a).mp hia).1
    · exact hia
  · rintro ⟨hia, ha⟩
    rw [Blocks.makeRoom] at ha ⊢
    split_ifs at ha ⊢
    · rcases List.eq_nil_or_concat' b.entries with hempty | ⟨l, e, hsplit⟩
      · rwa [Blocks.evict, hempty, List.getLast?_nil]
      · rw [evict_append b hsplit] at ha
        refine (evict_bucket hsplit i a).mpr ⟨hia, fun hboth => ?_⟩
        rw [hsplit, List.map_append, List.nodup_append] at hnodup
        exact hnodup.2.2 a ha e.1 (by simp) hboth.2
    · exact hia

/-- A new block is linked in the bucket of its key. -/
theorem bucketsLinked_put {b : Blocks} (h : BucketsLinked b) (block : Block) {key : Bytes}
    (hkey : BlockCacheHeap.hash block.key = BlockCacheHeap.hash key) :
    BucketsLinked (b.put block key) := by
  intro i a hia
  by_cases hi : i = BlockCacheHeap.hash key
  · subst hi
    have ha : b.nextNode = a := by simpa [Blocks.put] using hia
    exact ⟨(b.nextNode, block), List.mem_cons_self, ha, hkey⟩
  · have hold : b.bucket i = some a := by simpa [Blocks.put, hi] using hia
    obtain ⟨c, hc, hrest⟩ := h i a hold
    exact ⟨c, List.mem_cons_of_mem _ hc, hrest⟩

theorem mem_touch {e c : Nat × Block} {entries : List (Nat × Block)} :
    c ∈ touch e entries ↔ c = e ∨ c ∈ entries ∧ c.1 ≠ e.1 := by
  simp [touch]

/-- Every bucket points to a cached block of its own, also after the next request. -/
theorem bucketsLinked_request {b : Blocks} (h : BucketsLinked b) {m : FsMem} (hm : OnHeap m b 0)
    {key : Bytes} (hkey : (cstr key).length ≤ keySize - 1) (data : Bytes) :
    BucketsLinked (b.request key data).2 := by
  rw [Blocks.request]
  split
  next e hfound =>
    intro i a hia
    obtain ⟨c, hc, hrest⟩ := h i a hia
    by_cases hce : c.1 = e.1
    · have hsame : c = e :=
        List.inj_on_of_nodup_map (nodup_entries hm) hc (mem_of_lookup hfound).1 hce
      exact ⟨c, mem_touch.mpr (.inl hsame), hrest⟩
    · exact ⟨c, mem_touch.mpr (.inr ⟨hc, hce⟩), hrest⟩
  next =>
    split
    next => exact h
    next i old free hfree =>
      apply bucketsLinked_put
      · exact bucketsLinked_makeRoom (b := { b with free := free }) h
      · exact hash_congr (cstr_storedKey hkey)

/-! ## Runs -/

/-- No block is cached, and all buffers are free. -/
def initialBlocks (poolsize : Nat) : Blocks :=
  { entries := []
    bucket := fun _ => none
    free := (List.range poolsize).map (fun i => (i, []))
    nextNode := 0 }

/-- One request after another, with the completed ones newest first. -/
def Blocks.step (s : Blocks × List Done) (call : Bytes × Bytes) : Blocks × List Done :=
  let (outcome, b) := s.1.request call.1 call.2
  (b, ⟨call.1, call.2, outcome⟩ :: s.2)

def blocksAfter (poolsize : Nat) (calls : List (Bytes × Bytes)) : Blocks × List Done :=
  calls.foldl Blocks.step (initialBlocks poolsize, [])

theorem blocksAfter_concat (poolsize : Nat) (calls : List (Bytes × Bytes))
    (call : Bytes × Bytes) :
    blocksAfter poolsize (calls ++ [call]) = Blocks.step (blocksAfter poolsize calls) call := by
  rw [blocksAfter, List.foldl_append]
  rfl

/-- The buffers of a fresh pool, from the buffer `s` on. -/
private theorem read_createbufferpool {poolsize : Nat} :
    ∀ k s, s + k = poolsize →
      ∀ c ∈ listSeg freeLayout none ((List.range' s k).map (fun i => (i, []))) none,
        (createbufferpool poolsize).buffers c.1 = some c.2 := by
  intro k
  induction k with
  | zero => simp
  | succ k ih =>
      intro s hs c hc
      rw [List.range'_succ, List.map_cons, listSeg_free_cons, Multiset.mem_add,
        Multiset.mem_singleton] at hc
      rcases hc with rfl | hc
      · have hlt : s < poolsize := by omega
        cases k with
        | zero =>
            have hlast : s = poolsize - 1 := by omega
            simp [createbufferpool, ← hlast, hlt]
        | succ k =>
            have hlast : s ≠ poolsize - 1 := by omega
            simp [createbufferpool, hlast, hlt, List.range'_succ]
      · exact ih (s + 1) (by omega) c hc

/-- `createbufferpool` builds an empty cache with all buffers free. -/
theorem createbufferpool_onHeap {poolsize : Nat} (h : 0 < poolsize) :
    OnHeap (createbufferpool poolsize) (initialBlocks poolsize) 0 := by
  have hfree : Holds (createbufferpool poolsize).buffers
      (listSeg freeLayout none ((List.range poolsize).map (fun i => (i, []))) none) := by
    constructor
    · rw [List.range_eq_range']
      exact read_createbufferpool poolsize 0 (Nat.zero_add _)
    · rw [map_fst_listSeg, List.map_map, Multiset.coe_nodup]
      simpa [Function.comp_def] using List.nodup_range
  obtain ⟨n, rfl⟩ : ∃ n, poolsize = n + 1 := ⟨poolsize - 1, by omega⟩
  exact
    { nodes := holds_zero _
      nextNode := rfl
      fresh := by simp [initialBlocks]
      head := rfl
      tail := rfl
      bucket := rfl
      count := rfl
      capacity := rfl
      buffers := by simpa [initialBlocks, usedCells] using hfree
      freelist := by
        rw [initialBlocks, List.range_succ_eq_map]
        rfl
      freecount := by simp [initialBlocks, createbufferpool] }

theorem bucketsLinked_initial (poolsize : Nat) : BucketsLinked (initialBlocks poolsize) := by
  intro i a hia
  contradiction

/-- One more call, after calls that left every bucket live. -/
theorem runFiles_concat_rule {poolsize : Nat} {calls : List (Bytes × Bytes)} {m : FsMem}
    (hrun : runFiles poolsize calls = some (m, (blocksAfter poolsize calls).2))
    (h : OnHeap m (blocksAfter poolsize calls).1 0)
    (hlive : BucketsLive (blocksAfter poolsize calls).1) (call : Bytes × Bytes) :
    ∃ m', runFiles poolsize (calls ++ [call]) =
        some (m', (blocksAfter poolsize (calls ++ [call])).2) ∧
      OnHeap m' (blocksAfter poolsize (calls ++ [call])).1 0 := by
  obtain ⟨m', hfiles, h'⟩ := files_rule h hlive call.1 call.2
  rw [runFiles_concat, blocksAfter_concat, hrun]
  refine ⟨m', ?_, h'⟩
  simp only [Option.bind_some, request, hfiles]
  rfl

/-- **The program on its heaps runs as the blocks do.** -/
theorem runFiles_refines {poolsize : Nat} (hpool : 0 < poolsize) (calls : List (Bytes × Bytes))
    (hkeys : KeysFit calls) :
    ∃ m, runFiles poolsize calls = some (m, (blocksAfter poolsize calls).2) ∧
      OnHeap m (blocksAfter poolsize calls).1 0 ∧ BucketsLinked (blocksAfter poolsize calls).1 := by
  induction calls using List.reverseRecOn with
  | nil =>
      exact ⟨createbufferpool poolsize, rfl, createbufferpool_onHeap hpool,
        bucketsLinked_initial poolsize⟩
  | append_singleton calls call ih =>
      obtain ⟨m, hrun, hrep, hlinked⟩ :=
        ih (fun c hc => hkeys c (List.mem_append_left _ hc))
      obtain ⟨m', hrun', hrep'⟩ := runFiles_concat_rule hrun hrep hlinked.live call
      have hkey := hkeys call (List.mem_append_right _ (List.mem_singleton_self _))
      refine ⟨m', hrun', hrep', ?_⟩
      rw [blocksAfter_concat]
      exact bucketsLinked_request hlinked hrep hkey call.2

end SystemsInC.Ports.BlockCacheRequest
