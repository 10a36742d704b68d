import SystemsInC.Ports.BlockCacheRequest

/-!
# Who owns the buffers

At every call boundary each buffer of the pool is either on the free list or
belongs to exactly one cached node.  The proof does not look at keys: a key may
be cached twice, and a search may miss a key that is cached.
-/

namespace SystemsInC.Ports.BlockCachePool

open SystemsInC.Verified.CString
open SystemsInC.Verified.CellHeap
open SystemsInC.Verified.LinkedList
open SystemsInC.Ports.BlockCacheHeap hiding hash
open SystemsInC.Ports.BlockCacheShape
open SystemsInC.Ports.BlockCacheRequest

/-! ## What is on the heaps -/

/-- The cached nodes, from `cache->head` on. -/
def cachedNodes (m : FsMem) : Option (List CacheNode) :=
  (walk m.nodes CacheNode.next (m.count + 1) m.head).map (List.map Prod.snd)

/-- The buffers of the free list, from `pool->freelist` on. -/
def freeBuffers (m : FsMem) : Option (List Nat) :=
  (walk m.buffers Buffer.next (m.freecount + 1) m.freelist).map (List.map Prod.fst)

/-- The buffer of a cached node is in use, and holds data that was requested under
the key of the node. -/
structure OwnBuffer (calls : List (Bytes × Bytes)) (m : FsMem) (free : List Nat)
    (node : CacheNode) (i : Nat) (cell : Buffer) : Prop where
  buffers : node.buffers = some i
  holds : m.buffers i = some cell
  used : cell.isfree = false
  not_free : i ∉ free
  data : ∃ call ∈ calls, cstr call.1 = cstr node.key ∧
    cstr cell.data = (cstr call.2).take (bufferSize - 1)

/-- Every buffer of a pool is free or owned by one cached node. -/
structure Owned (poolsize : Nat) (calls : List (Bytes × Bytes)) (m : FsMem)
    (cached : List CacheNode) (free : List Nat) : Prop where
  recency : cachedNodes m = some cached
  freelist : freeBuffers m = some free
  count : m.count = cached.length
  freecount : m.freecount = free.length
  conserved : m.freecount + m.count = poolsize
  distinct : (cached.map CacheNode.buffers).Nodup
  partition : (cached.map CacheNode.buffers ++ free.map some).Perm
    ((List.range poolsize).map some)
  own : ∀ node ∈ cached, ∃ i cell, OwnBuffer calls m free node i cell

/-- Every buffer of a pool is free. -/
structure AllFree (poolsize : Nat) (m : FsMem) : Prop where
  freecount : m.freecount = poolsize
  isfree : ∀ i < poolsize, ∃ cell, m.buffers i = some cell ∧ cell.isfree = true
  freelist : ∃ free, freeBuffers m = some free ∧ free.Perm (List.range poolsize)

/-! ## Conservation -/

/-- The buffers of the cached blocks and the free ones. -/
def buffersOf (b : Blocks) : List Nat :=
  b.entries.map (fun e => e.2.buffer) ++ b.free.map Prod.fst

structure Conserved (poolsize : Nat) (calls : List (Bytes × Bytes)) (b : Blocks) : Prop where
  buffers : (buffersOf b).Perm (List.range poolsize)
  entries_le : b.entries.length ≤ cacheSize
  data : ∀ e ∈ b.entries, ∃ call ∈ calls, cstr call.1 = cstr e.2.key ∧
    e.2.data = storedData call.2

theorem buffersOf_evict (b : Blocks) : (buffersOf b.evict).Perm (buffersOf b) := by
  rcases List.eq_nil_or_concat' b.entries with hempty | ⟨l, e, hsplit⟩
  · rw [Blocks.evict, hempty, List.getLast?_nil]
  · rw [evict_append b hsplit, buffersOf, buffersOf, hsplit]
    simp

theorem buffersOf_makeRoom (b : Blocks) : (buffersOf b.makeRoom).Perm (buffersOf b) := by
  rw [Blocks.makeRoom]
  split_ifs
  · exact buffersOf_evict b
  · exact .refl _

theorem entries_makeRoom_sublist (b : Blocks) : b.makeRoom.entries.Sublist b.entries := by
  rw [Blocks.makeRoom]
  split_ifs
  · rcases List.eq_nil_or_concat' b.entries with hempty | ⟨l, e, hsplit⟩
    · rw [Blocks.evict, hempty, List.getLast?_nil, hempty]
    · rw [evict_append b hsplit, hsplit]
      exact List.sublist_append_left l [e]
  · exact .refl _

theorem entries_makeRoom_lt {b : Blocks} (h : b.entries.length ≤ cacheSize) :
    b.makeRoom.entries.length < cacheSize := by
  rw [Blocks.makeRoom]
  split_ifs with hfull
  · have hpos : 0 < cacheSize := by decide
    rcases List.eq_nil_or_concat' b.entries with hempty | ⟨l, e, hsplit⟩
    · rw [hempty, List.length_nil] at hfull
      omega
    · rw [evict_append b hsplit]
      rw [hsplit, List.length_append, List.length_singleton] at h
      show l.length < cacheSize
      omega
  · omega

theorem Conserved.touch {poolsize : Nat} {calls : List (Bytes × Bytes)} {b : Blocks}
    (h : Conserved poolsize calls b) {e : Nat × Block}
    (hperm : (touch e b.entries).Perm b.entries) (call : Bytes × Bytes) :
    Conserved poolsize (calls ++ [call]) { b with entries := touch e b.entries } :=
  { buffers := ((hperm.map _).append_right _).trans h.buffers
    entries_le := by
      rw [hperm.length_eq]
      exact h.entries_le
    data := by
      intro c hc
      obtain ⟨old, hold, hrest⟩ := h.data c (hperm.mem_iff.mp hc)
      exact ⟨old, List.mem_append_left _ hold, hrest⟩ }

theorem Conserved.load {poolsize : Nat} {calls : List (Bytes × Bytes)} {b : Blocks}
    (h : Conserved poolsize calls b) {i : Nat} {old : Bytes} {free : List (Nat × Bytes)}
    (hfree : b.free = (i, old) :: free) {call : Bytes × Bytes}
    (hkey : (cstr call.1).length ≤ keySize - 1) :
    Conserved poolsize (calls ++ [call])
      (Blocks.load { b with free := free } i call.1 call.2) :=
  { buffers := by
      have hroom := buffersOf_makeRoom { b with free := free }
      have hmiddle : (i :: buffersOf { b with free := free }).Perm (buffersOf b) := by
        rw [buffersOf, buffersOf, hfree]
        exact List.perm_middle.symm
      exact ((hroom.cons i).trans hmiddle).trans h.buffers
    entries_le := entries_makeRoom_lt (b := { b with free := free }) h.entries_le
    data := by
      intro c hc
      rcases List.mem_cons.mp hc with rfl | hc
      · exact ⟨call, List.mem_append_right _ (List.mem_singleton_self _),
          (cstr_storedKey hkey).symm, rfl⟩
      · obtain ⟨past, hpast, hrest⟩ :=
          h.data c ((entries_makeRoom_sublist { b with free := free }).subset hc)
        exact ⟨past, List.mem_append_left _ hpast, hrest⟩ }

/-- A cache that is smaller than the pool leaves a free buffer. -/
theorem Conserved.free_ne_nil {poolsize : Nat} {calls : List (Bytes × Bytes)} {b : Blocks}
    (h : Conserved poolsize calls b) (hpool : cacheSize < poolsize) : b.free ≠ [] := by
  intro hempty
  have hlen := h.buffers.length_eq
  rw [buffersOf, hempty, List.map_nil, List.append_nil, List.length_map, List.length_range]
    at hlen
  have hle := h.entries_le
  omega

theorem Conserved.request {poolsize : Nat} {calls : List (Bytes × Bytes)} {b : Blocks}
    (h : Conserved poolsize calls b) (hpool : cacheSize < poolsize) {m : FsMem}
    (hm : OnHeap m b 0) {call : Bytes × Bytes} (hkey : (cstr call.1).length ≤ keySize - 1) :
    Conserved poolsize (calls ++ [call]) (b.request call.1 call.2).2 ∧
      (b.request call.1 call.2).1 ≠ .exhausted := by
  rw [Blocks.request]
  split
  next e hfound =>
    have hperm := touch_perm (nodup_entries hm) (mem_of_lookup hfound).1
    exact ⟨h.touch hperm call, by simp⟩
  next =>
    split
    next hempty => exact absurd hempty (h.free_ne_nil hpool)
    next i old free hfree => exact ⟨h.load hfree hkey, by simp⟩

/-- **No buffer is lost or shared**, whatever the requests. -/
theorem conserved_run {poolsize : Nat} (hpool : cacheSize < poolsize)
    (calls : List (Bytes × Bytes)) (hkeys : KeysFit calls) :
    Conserved poolsize calls (blocksAfter poolsize calls).1 ∧
      ∀ done ∈ (blocksAfter poolsize calls).2, done.outcome ≠ .exhausted := by
  induction calls using List.reverseRecOn with
  | nil =>
      constructor
      · exact
          { buffers := by simp [blocksAfter, initialBlocks, buffersOf, Function.comp_def]
            entries_le := Nat.zero_le _
            data := by simp [blocksAfter, initialBlocks] }
      · simp [blocksAfter]
  | append_singleton calls call ih =>
      have hpast : KeysFit calls := fun c hc => hkeys c (List.mem_append_left _ hc)
      have hkey := hkeys call (List.mem_append_right _ (List.mem_singleton_self _))
      obtain ⟨m, -, hrep, -⟩ := runFiles_refines (Nat.zero_lt_of_lt hpool) calls hpast
      obtain ⟨hstep, hserved⟩ := (ih hpast).1.request hpool hrep hkey
      rw [blocksAfter_concat]
      refine ⟨hstep, ?_⟩
      intro done hdone
      rcases List.mem_cons.mp hdone with rfl | hdone
      · exact hserved
      · exact (ih hpast).2 done hdone

/-! ## Reading the heaps -/

theorem cachedNodes_rule {m : FsMem} {b : Blocks} {held : Multiset (Nat × Buffer)}
    (h : OnHeap m b held) :
    cachedNodes m = some ((records nodeLayout none b.entries none).map Prod.snd) := by
  rw [cachedNodes, h.walk_next]
  rfl

theorem freeBuffers_rule {m : FsMem} {free : List (Nat × Bytes)} {s : Multiset (Nat × Buffer)}
    (h : Holds m.buffers (listSeg freeLayout none free none + s))
    (hlist : m.freelist = headPtr free none) (hcount : m.freecount = free.length) :
    freeBuffers m = some (free.map Prod.fst) := by
  have hwalk := walk_rule freeLayout Buffer.next (fun _ _ _ => rfl) h
    (m.freecount + 1) (by rw [hcount]; omega)
  have haddress := map_records freeLayout (g := Prod.fst) (fun _ _ _ => rfl) none none free
  rw [freeBuffers, hlist, hwalk, Option.map_some, haddress]

theorem owned_of_onHeap {poolsize : Nat} {calls : List (Bytes × Bytes)} {m : FsMem} {b : Blocks}
    (hm : OnHeap m b 0) (h : Conserved poolsize calls b) :
    Owned poolsize calls m ((records nodeLayout none b.entries none).map Prod.snd)
      (b.free.map Prod.fst) := by
  have hbuffers : ((records nodeLayout none b.entries none).map Prod.snd).map
      CacheNode.buffers = (b.entries.map (fun e => e.2.buffer)).map some := by
    rw [List.map_map, List.map_map]
    exact map_records nodeLayout (fun _ _ _ => rfl) none none b.entries
  have hcount : m.count = ((records nodeLayout none b.entries none).map Prod.snd).length := by
    have hlen := congrArg List.length hbuffers
    simp only [List.length_map] at hlen ⊢
    rw [hm.count, hlen]
  have hnodup : (buffersOf b).Nodup := h.buffers.nodup_iff.mpr List.nodup_range
  have hfree : Holds m.buffers (listSeg freeLayout none b.free none + usedCells b.entries) := by
    convert hm.buffers using 1
    abel
  exact
    { recency := cachedNodes_rule hm
      freelist := freeBuffers_rule hfree hm.freelist hm.freecount
      count := hcount
      freecount := by rw [hm.freecount, List.length_map]
      conserved := by
        have hlen := h.buffers.length_eq
        rw [buffersOf, List.length_append, List.length_map, List.length_map,
          List.length_range] at hlen
        rw [hm.freecount, hm.count]
        omega
      distinct := by
        rw [hbuffers]
        exact (List.nodup_append.mp hnodup).1.map (Option.some_injective Nat)
      partition := by
        rw [hbuffers, ← List.map_append]
        exact h.buffers.map some
      own := by
        intro node hnode
        obtain ⟨cell, hcell, rfl⟩ := List.mem_map.mp hnode
        obtain ⟨e, he, q, r, rfl⟩ := mem_records nodeLayout hcell
        obtain ⟨call, hcall, hkey, hdata⟩ := h.data e he
        refine ⟨e.2.buffer, ⟨e.2.data, false, none⟩, ?_⟩
        exact
          { buffers := rfl
            holds := hm.buffers.left.read _ (usedCell_mem_usedCells he)
            used := rfl
            not_free := by
              intro hmem
              exact (List.nodup_append.mp hnodup).2.2 _ (List.mem_map_of_mem he) _ hmem rfl
            data := by
              refine ⟨call, hcall, hkey, ?_⟩
              show cstr e.2.data = _
              rw [hdata, storedData, cstr_strncpy_append_zero] } }

/-! ## The clean-up loop -/

/-- The loop gives back the buffers of the nodes it frees. -/
theorem cleanup_rule {l : List (Nat × Block)} :
    ∀ {m : FsMem} {p : Ptr} {free : List (Nat × Bytes)},
      Holds m.nodes (listSeg nodeLayout p l none) →
      Holds m.buffers (usedCells l + listSeg freeLayout none free none) →
      m.freelist = headPtr free none → m.freecount = free.length →
      ∃ m' free', cleanup (l.length + 1) m (headPtr l none) = some m' ∧
        Holds m'.buffers (listSeg freeLayout none free' none) ∧
        m'.freelist = headPtr free' none ∧ m'.freecount = free'.length ∧
        (free'.map Prod.fst).Perm (l.map (fun e => e.2.buffer) ++ free.map Prod.fst) := by
  induction l with
  | nil =>
      intro m p free hnodes hbuffers hlist hcount
      refine ⟨m, free, rfl, by simpa [usedCells] using hbuffers, hlist, hcount, ?_⟩
      exact .refl _
  | cons e l ih =>
      intro m p free hnodes hbuffers hlist hcount
      rw [listSeg_cons] at hnodes
      have hread := hnodes.cell
      have hused : Holds m.buffers ({usedCell e.2.buffer e.2.data} +
          (listSeg freeLayout none free none + usedCells l)) := by
        rw [usedCells] at hbuffers
        convert hbuffers using 1
        abel
      have hbusy := hused.cell
      obtain ⟨buffers, hop, h'⟩ := release_buffer_rule hused hlist
      have hnext : Holds buffers (usedCells l +
          listSeg freeLayout none ((e.2.buffer, zeros) :: free) none) := by
        rw [add_comm]
        exact h'
      obtain ⟨m', free', hrest, hfree', hlist', hcount', hperm⟩ := ih (m := { m with
          nodes := Function.update m.nodes e.1 none
          buffers := buffers
          freelist := some e.2.buffer
          freecount := m.freecount + 1 }) hnodes.free hnext rfl
        (by
          show m.freecount + 1 = free.length + 1
          rw [hcount])
      refine ⟨m', free', ?_, hfree', hlist', hcount', ?_⟩
      · simp only [nodeLayout] at hread
        rw [headPtr_cons, List.length_cons, cleanup]
        simp only [hread, Option.bind_eq_bind, Option.bind_some, reduceCtorEq, if_false,
          load_some, hbusy, hop]
        exact hrest
      · exact hperm.trans List.perm_middle

theorem allFree_of_holds {poolsize : Nat} {m : FsMem} {free : List (Nat × Bytes)}
    (h : Holds m.buffers (listSeg freeLayout none free none))
    (hlist : m.freelist = headPtr free none) (hcount : m.freecount = free.length)
    (hperm : (free.map Prod.fst).Perm (List.range poolsize)) : AllFree poolsize m := by
  have hframed : Holds m.buffers (listSeg freeLayout none free none + 0) := by simpa using h
  exact
    { freecount := by
        have hlen := hperm.length_eq
        rw [List.length_map, List.length_range] at hlen
        rw [hcount, hlen]
      isfree := by
        intro i hi
        have hmem := hperm.mem_iff.mpr (List.mem_range.mpr hi)
        obtain ⟨c, hc, rfl⟩ := List.mem_map.mp hmem
        obtain ⟨r, r', hcell⟩ := exists_cell freeLayout hframed hc
        exact ⟨_, hcell, rfl⟩
      freelist := ⟨_, freeBuffers_rule hframed hlist hcount, hperm⟩ }

/-- **Buffers are conserved**: after any requests to a pool that is larger than the
cache every buffer is free or owned by one cached node, no request found the pool
exhausted, and the clean-up of `main` frees every buffer. -/
theorem buffers_conserved {poolsize : Nat} (hpool : cacheSize < poolsize)
    (calls : List (Bytes × Bytes)) (hkeys : KeysFit calls) :
    ∃ m log cached free, runFiles poolsize calls = some (m, log) ∧
      Owned poolsize calls m cached free ∧ (∀ done ∈ log, done.outcome ≠ .exhausted) ∧
      ∃ m', cleanup (m.count + 1) m m.head = some m' ∧ AllFree poolsize m' := by
  obtain ⟨m, hrun, hrep, -⟩ := runFiles_refines (Nat.zero_lt_of_lt hpool) calls hkeys
  obtain ⟨hconserved, hserved⟩ := conserved_run hpool calls hkeys
  have hbuffers : Holds m.buffers (usedCells (blocksAfter poolsize calls).1.entries +
      listSeg freeLayout none (blocksAfter poolsize calls).1.free none) := by
    simpa using hrep.buffers
  obtain ⟨m', free', hclean, hfree', hlist', hcount', hperm⟩ :=
    cleanup_rule hrep.nodes hbuffers hrep.freelist hrep.freecount
  rw [← hrep.count, ← hrep.head] at hclean
  exact ⟨m, _, _, _, hrun, owned_of_onHeap hrep hconserved, hserved, m', hclean,
    allFree_of_holds hfree' hlist' hcount' (hperm.trans hconserved.buffers)⟩

/-- Two requests, to the pool of `main`. -/
theorem buffers_conserved_twoKeys :
    ∃ m log cached free, runFiles 10 [([97], [49]), ([98], [50])] = some (m, log) ∧
      Owned 10 [([97], [49]), ([98], [50])] m cached free ∧
      (∀ done ∈ log, done.outcome ≠ .exhausted) ∧
      ∃ m', cleanup (m.count + 1) m m.head = some m' ∧ AllFree 10 m' :=
  buffers_conserved (by decide) _ (by decide)

end SystemsInC.Ports.BlockCachePool
