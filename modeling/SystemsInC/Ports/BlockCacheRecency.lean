import SystemsInC.Verified.RecencyList
import SystemsInC.Ports.BlockCacheBuckets

/-!
# The recency list of the block cache

Every call of `files` uses at most one node: it moves the node it finds to the
front, or inserts a new one there.  At every call boundary the list, read forward
from `cache->head` or backward from `cache->tail`, holds the most recently used
nodes in the order of their latest use.
-/

namespace SystemsInC.Ports.BlockCacheRecency

open SystemsInC.Verified.CString
open SystemsInC.Verified.CellHeap
open SystemsInC.Verified.LinkedList
open SystemsInC.Verified.RecencyList
open SystemsInC.Ports.BlockCacheHeap hiding hash
open SystemsInC.Ports.BlockCacheShape
open SystemsInC.Ports.BlockCacheRequest
open SystemsInC.Ports.BlockCacheBuckets

/-! ## What is on the heaps -/

/-- The node that a call for `key` moves to the front or inserts there: the node
found, or a new one if there is a buffer for it. -/
def usedNode (m : FsMem) (key : Bytes) : Option Nat :=
  match findNode (m.nextNode + 1) m key (m.bucket (BlockCacheHeap.hash key)) with
  | none => none
  | some (some found) => some found
  | some none => if m.freecount = 0 then none else some m.nextNode

/-- One call, with the nodes used so far, the latest first. -/
def useRequest (s : FsMem × List Nat) (call : Bytes × Bytes) : Option (FsMem × List Nat) := do
  let (_, m) ← files s.1 call.1 call.2
  return (m, (usedNode s.1 call.1).toList ++ s.2)

/-- Calls to an empty cache on a fresh pool, with the nodes they use. -/
def runUses (poolsize : Nat) (calls : List (Bytes × Bytes)) : Option (FsMem × List Nat) :=
  calls.foldlM useRequest (createbufferpool poolsize, [])

/-- The nodes passed along a link, from a pointer on. -/
def nodesAlong (m : FsMem) (link : CacheNode → Ptr) (p : Ptr) : Option (List Nat) :=
  (walk m.nodes link (m.count + 1) p).map (List.map Prod.fst)

/-- The recency list holds the nodes `order`, when `used` are the nodes used so far. -/
structure WellLinked (m : FsMem) (used order : List Nat) : Prop where
  forward : nodesAlong m CacheNode.next m.head = some order
  backward : nodesAlong m CacheNode.prev m.tail = some order.reverse
  head : m.head = order.head?
  tail : m.tail = order.getLast?
  head_prev : ∀ (a : Nat) (node : CacheNode), m.head = some a → m.nodes a = some node →
    node.prev = none
  tail_next : ∀ (a : Nat) (node : CacheNode), m.tail = some a → m.nodes a = some node →
    node.next = none
  acyclic : order.Nodup
  count : m.count = order.length
  bounded : m.count ≤ m.capacity
  was_used : ∀ a ∈ order, a ∈ used
  sorted : order.Pairwise (fun a b => lastUse used b < lastUse used a)
  /-- a search ends from every bucket, also once buffers have been acquired -/
  searches : ∀ m' : FsMem, m'.nodes = m.nodes → ∀ (key : Bytes) (i : Nat),
    ∃ found, ∀ fuel, m.count < fuel → findNode fuel m' key (m.bucket i) = some found

/-- A node leaves the list exactly if the call is a full insertion and the node is
the last one. -/
def EvictsLast (m : FsMem) (key : Bytes) (order order' : List Nat) : Prop :=
  ∀ a ∈ order, a ∉ order' ↔ FullInsertion m key ∧ order.getLast? = some a

/-! ## Reading the heaps -/

section Reading

variable {m : FsMem} {b : Blocks}

theorem usedNode_rule (h : OnHeap m b 0) (hlive : BucketsLive b) (key : Bytes) :
    usedNode m key = match b.lookup key with
      | some e => some e.1
      | none => if b.free = [] then none else some b.nextNode := by
  rw [usedNode, lookup_rule h hlive key]
  cases b.lookup key with
  | some e => rfl
  | none =>
      simp only [Option.map_none, h.freecount, List.length_eq_zero_iff, h.nextNode]

/-- The addresses are those of the last uses. -/
structure Recent (used : List Nat) (b : Blocks) : Prop where
  addresses : b.entries.map Prod.fst = recent cacheSize used
  past : ∀ a ∈ used, a < b.nextNode

theorem Recent.length_le {used : List Nat} (h : Recent used b) :
    b.entries.length ≤ cacheSize := by
  have hlen := congrArg List.length h.addresses
  rw [List.length_map] at hlen
  rw [hlen]
  exact length_recent_le cacheSize used

theorem searches_rule (h : OnHeap m b 0) (hlive : BucketsLive b) {m' : FsMem}
    (hnodes : m'.nodes = m.nodes) (key : Bytes) (i : Nat) :
    ∃ found, ∀ fuel, m.count < fuel → findNode fuel m' key (m.bucket i) = some found := by
  rw [h.bucket, h.count]
  cases hb : b.bucket i with
  | none =>
      refine ⟨none, fun fuel hfuel => ?_⟩
      obtain ⟨n, rfl⟩ : ∃ n, fuel = n + 1 := ⟨fuel - 1, by omega⟩
      simp [findNode]
  | some a =>
      obtain ⟨l₁, e, l₂, hsplit, rfl, -⟩ := dropWhile_ne (hlive i a hb)
      have hlist := h.nodes
      rw [hsplit, ← hnodes] at hlist
      refine ⟨_, fun fuel hfuel => findNode_rule key hlist fuel ?_⟩
      rw [hsplit, List.length_append] at hfuel
      omega

theorem wellLinked_of_onHeap (h : OnHeap m b 0) (hlive : BucketsLive b) {used : List Nat}
    (hrecent : Recent used b) : WellLinked m used (b.entries.map Prod.fst) := by
  have hnodes := h.listSeg_nodes
  exact
    { forward := linkedNodes_rule h
      backward := by
        rw [nodesAlong, h.walk_prev, Option.map_some, List.map_reverse, fst_records]
      head := by rw [h.head, headPtr_eq_head?]
      tail := by rw [h.tail, lastPtr_eq_getLast?]
      head_prev := by
        intro a node ha hread
        rw [h.head] at ha
        cases hsplit : b.entries with
        | nil =>
            rw [hsplit] at ha
            contradiction
        | cons e l =>
            rw [hsplit, headPtr_cons, Option.some.injEq] at ha
            rw [hsplit, listSeg_cons, add_assoc] at hnodes
            rw [← ha, hnodes.cell] at hread
            rw [← Option.some.inj hread]
            rfl
      tail_next := by
        intro a node ha hread
        rw [h.tail] at ha
        rcases List.eq_nil_or_concat' b.entries with hempty | ⟨l, e, hsplit⟩
        · rw [hempty] at ha
          contradiction
        · rw [hsplit, lastPtr_concat, Option.some.injEq] at ha
          rw [hsplit, listSeg_append, listSeg_cons, add_assoc] at hnodes
          rw [← ha, hnodes.right.left.cell] at hread
          rw [← Option.some.inj hread]
          rfl
      acyclic := nodup_entries h
      count := by rw [h.count, List.length_map]
      bounded := by
        rw [h.count, h.capacity]
        exact hrecent.length_le
      was_used := by
        intro a ha
        rw [hrecent.addresses] at ha
        exact (mem_order used a).mp (List.mem_of_mem_take ha)
      sorted := by
        rw [hrecent.addresses]
        exact (lastUse_order used).sublist (List.take_sublist cacheSize _)
      searches := fun m' hsame key i => searches_rule h hlive hsame key i }

end Reading

/-! ## One request -/

section Request

variable {used : List Nat} {b : Blocks}

/-- A hit moves its node to the front. -/
theorem Recent.touch (hrecent : Recent used b) (hnodup : (b.entries.map Prod.fst).Nodup)
    {e : Nat × Block} (he : e ∈ b.entries) :
    Recent (e.1 :: used) { b with entries := touch e b.entries } := by
  have hmem := List.mem_map_of_mem (f := Prod.fst) he
  rw [hrecent.addresses] at hmem
  constructor
  · obtain ⟨l₁, l₂, hsplit⟩ := List.append_of_mem he
    have haddresses := hrecent.addresses
    rw [hsplit] at hnodup haddresses
    rw [List.map_append, List.map_cons] at haddresses
    show (BlockCacheShape.touch e b.entries).map Prod.fst = _
    rw [hsplit, touch_append hnodup, recent_cons_of_split haddresses.symm, List.map_cons,
      List.map_append]
  · intro a ha
    rcases List.mem_cons.mp ha with rfl | ha
    · exact hrecent.past _ ((mem_order used _).mp (List.mem_of_mem_take hmem))
    · exact hrecent.past a ha

/-- A load puts a new node in front and drops the last one of a full list. -/
theorem Recent.load (hrecent : Recent used b) (i : Nat) (key data : Bytes) :
    Recent (b.nextNode :: used) (b.load i key data) := by
  have hnew : b.nextNode ∉ used := by
    intro hmem
    have hlt := hrecent.past _ hmem
    omega
  have hmiss : b.nextNode ∉ recent (cacheSize - 1 + 1) used :=
    fun hmem => hnew ((mem_order used _).mp (List.mem_of_mem_take hmem))
  have hroom := makeRoom_entries hrecent.length_le
  have hnext := makeRoom_nextNode b
  constructor
  · show (b.makeRoom.nextNode :: b.makeRoom.entries.map Prod.fst) = _
    rw [hnext, hroom, List.map_take, hrecent.addresses, take_recent (by decide)]
    exact (recent_cons_of_not_mem hmiss).symm
  · intro a ha
    show a < b.makeRoom.nextNode + 1
    rw [hnext]
    rcases List.mem_cons.mp ha with rfl | ha
    · exact Nat.lt_succ_self _
    · exact Nat.lt_succ_of_lt (hrecent.past a ha)

theorem Recent.request {m : FsMem} (hrecent : Recent used b) (h : OnHeap m b 0)
    (hlive : BucketsLive b) (key data : Bytes) :
    Recent ((usedNode m key).toList ++ used) (b.request key data).2 := by
  rw [usedNode_rule h hlive key, Blocks.request]
  cases hfound : b.lookup key with
  | some e => exact hrecent.touch (nodup_entries h) (mem_of_lookup hfound).1
  | none =>
      cases hfree : b.free with
      | nil => simpa using hrecent
      | cons c free =>
          have hload : Recent used { b with free := free } := ⟨hrecent.addresses, hrecent.past⟩
          simpa using hload.load c.1 key data

theorem not_mem_iff_last {l : List Nat} {a last : Nat} (hnodup : (l ++ [last]).Nodup)
    (ha : a ∈ l ++ [last]) : a ∉ l ↔ a = last := by
  rw [List.mem_append, List.mem_singleton] at ha
  rw [List.nodup_append] at hnodup
  constructor
  · exact ha.resolve_left
  · intro hlast hmem
    exact hnodup.2.2 a hmem last (List.mem_singleton_self last) hlast

/-- Which node a request drops. -/
theorem evictsLast_request {m : FsMem} (h : OnHeap m b 0) (hlive : BucketsLive b)
    (key data : Bytes) :
    EvictsLast m key (b.entries.map Prod.fst) ((b.request key data).2.entries.map Prod.fst) := by
  have hinsert := fullInsertion_iff h hlive key
  have hnodup := nodup_entries h
  intro a ha
  have hkept : ∀ {l : List Nat}, a ∈ l → ¬ FullInsertion m key →
      (a ∉ l ↔ FullInsertion m key ∧ (b.entries.map Prod.fst).getLast? = some a) :=
    fun hmem hnot => iff_of_false (not_not_intro hmem) (fun hboth => hnot hboth.1)
  rw [Blocks.request]
  split
  next e hfound =>
    have hperm := touch_perm hnodup (mem_of_lookup hfound).1
    apply hkept ((hperm.map Prod.fst).mem_iff.mpr ha)
    intro hfull
    rw [(hinsert.mp hfull).1] at hfound
    contradiction
  next hmiss =>
    split
    next hempty => exact hkept ha (fun hfull => (hinsert.mp hfull).2.1 hempty)
    next i old free hfree =>
      have hne : a ≠ b.nextNode := by
        obtain ⟨c, hc, rfl⟩ := List.mem_map.mp ha
        exact Nat.ne_of_lt (h.fresh c hc)
      have hroom : (Blocks.load { b with free := free } i key data).entries.map Prod.fst =
          b.nextNode :: (Blocks.makeRoom { b with free := free }).entries.map Prod.fst := by
        rw [Blocks.load, Blocks.put, List.map_cons, makeRoom_nextNode]
      rw [hroom, Blocks.makeRoom]
      split
      next hfull =>
        obtain ⟨l, e, hsplit⟩ := exists_last_of_full hfull
        have hfullInsert := hinsert.mpr ⟨hmiss, by simp [hfree], hfull⟩
        rw [evict_append { b with free := free } hsplit, List.mem_cons, or_iff_right hne]
        rw [hsplit, List.map_append] at ha hnodup
        rw [hsplit, List.map_append, List.map_singleton, List.getLast?_append_cons,
          List.getLast?_singleton, Option.some.injEq]
        exact (not_mem_iff_last hnodup ha).trans
          ⟨fun hlast => ⟨hfullInsert, hlast.symm⟩, fun hboth => hboth.2.symm⟩
      next hroom =>
        apply hkept (List.mem_cons_of_mem _ ha)
        exact fun hfull => hroom (hinsert.mp hfull).2.2

end Request

/-! ## Runs -/

theorem recent_initial (poolsize : Nat) : Recent [] (initialBlocks poolsize) :=
  ⟨rfl, by simp⟩

/-- One more call. -/
theorem useRequest_rule {m m' : FsMem} {used : List Nat} {call : Bytes × Bytes}
    {outcome : Outcome} (h : files m call.1 call.2 = some (outcome, m')) :
    useRequest (m, used) call = some (m', (usedNode m call.1).toList ++ used) := by
  simp only [useRequest, h, Option.bind_eq_bind, Option.bind_some]
  rfl

section Run

variable {poolsize : Nat} (hpool : 0 < poolsize)
include hpool

theorem runUses_refines (calls : List (Bytes × Bytes)) (hkeys : KeysFit calls) :
    ∃ m used, runUses poolsize calls = some (m, used) ∧
      OnHeap m (blocksAfter poolsize calls).1 0 ∧
      BucketsLinked (blocksAfter poolsize calls).1 ∧
      Recent used (blocksAfter poolsize calls).1 := by
  induction calls using List.reverseRecOn with
  | nil =>
      exact ⟨createbufferpool poolsize, [], rfl, createbufferpool_onHeap hpool,
        bucketsLinked_initial poolsize, recent_initial poolsize⟩
  | append_singleton calls call ih =>
      obtain ⟨m, used, hrun, hrep, hlinked, hrecent⟩ :=
        ih (fun c hc => hkeys c (List.mem_append_left _ hc))
      obtain ⟨m', hfiles, hrep'⟩ := files_rule hrep hlinked.live call.1 call.2
      have hkey := hkeys call (List.mem_append_right _ (List.mem_singleton_self _))
      refine ⟨m', (usedNode m call.1).toList ++ used, ?_, ?_⟩
      · rw [runUses, List.foldlM_append]
        rw [runUses] at hrun
        rw [hrun]
        simp only [Option.bind_eq_bind, Option.bind_some, List.foldlM_cons, List.foldlM_nil,
          useRequest_rule hfiles]
        rfl
      · rw [blocksAfter_concat]
        exact ⟨hrep', bucketsLinked_request hlinked hrep hkey call.2,
          hrecent.request hrep hlinked.live call.1 call.2⟩

/-- **The recency list stays well linked**, in the order of the latest uses, and the
next call drops its last node exactly if it loads a block into a full cache. -/
theorem recency_wellLinked (calls : List (Bytes × Bytes)) (hkeys : KeysFit calls) :
    ∃ m used order, runUses poolsize calls = some (m, used) ∧ WellLinked m used order ∧
      ∀ key data : Bytes, (cstr key).length ≤ keySize - 1 →
        ∃ outcome m' order', files m key data = some (outcome, m') ∧
          WellLinked m' ((usedNode m key).toList ++ used) order' ∧
          EvictsLast m key order order' := by
  obtain ⟨m, used, hrun, hrep, hlinked, hrecent⟩ := runUses_refines hpool calls hkeys
  refine ⟨m, used, _, hrun, wellLinked_of_onHeap hrep hlinked.live hrecent, ?_⟩
  intro key data hkey
  obtain ⟨m', hfiles, hrep'⟩ := files_rule hrep hlinked.live key data
  have hlinked' := bucketsLinked_request hlinked hrep hkey data
  have hrecent' := hrecent.request hrep hlinked.live key data
  exact ⟨_, m', _, hfiles, wellLinked_of_onHeap hrep' hlinked'.live hrecent',
    evictsLast_request hrep hlinked.live key data⟩

end Run

/-- Two calls for one key. -/
theorem recency_wellLinked_twice :
    ∃ m used order, runUses 10 [([97], [49]), ([97], [50])] = some (m, used) ∧
      WellLinked m used order ∧
      ∀ key data : Bytes, (cstr key).length ≤ keySize - 1 →
        ∃ outcome m' order', files m key data = some (outcome, m') ∧
          WellLinked m' ((usedNode m key).toList ++ used) order' ∧
          EvictsLast m key order order' :=
  recency_wellLinked (by decide) _ (by decide)

end SystemsInC.Ports.BlockCacheRecency
