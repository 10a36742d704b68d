import SystemsInC.Ports.BlockCacheRequest

/-!
# When every bucket points to a linked node

`cacheput` files a new node under the hash of the caller's key and eviction looks
for it under the hash of the stored key, which is cut to `keySize - 1` bytes.  A
node with a longer key can therefore be freed while a bucket still points to it.

That happens exactly when a block is loaded into a full cache whose last node is
pointed to by a bucket that neither eviction clears nor insertion overwrites.
-/

namespace SystemsInC.Ports.BlockCacheBuckets

open SystemsInC.Verified.CString
open SystemsInC.Verified.CellHeap
open SystemsInC.Verified.LinkedList
open SystemsInC.Ports.BlockCacheHeap hiding hash
open SystemsInC.Ports.BlockCacheShape
open SystemsInC.Ports.BlockCacheRequest

/-! ## What is on the heaps -/

/-- The nodes linked from `cache->head` on. -/
def linkedNodes (m : FsMem) : Option (List Nat) :=
  (walk m.nodes CacheNode.next (m.count + 1) m.head).map (List.map Prod.fst)

/-- Every bucket is NULL or points to a linked node. -/
def BucketsAlive (m : FsMem) : Prop :=
  ∃ linked, linkedNodes m = some linked ∧ ∀ i a : Nat, m.bucket i = some a → a ∈ linked

/-- After each of the calls every bucket is NULL or points to a linked node. -/
def BucketsAliveThroughout (poolsize : Nat) (calls : List (Bytes × Bytes)) : Prop :=
  ∀ past, past <+: calls → ∃ m log, runFiles poolsize past = some (m, log) ∧ BucketsAlive m

/-- A call for `key` loads a block into a full cache: its search misses, and there is a
free buffer. -/
structure FullInsertion (m : FsMem) (key : Bytes) : Prop where
  miss : findNode (m.nextNode + 1) m key (m.bucket (BlockCacheHeap.hash key)) = some none
  free : m.freecount ≠ 0
  full : m.capacity ≤ m.count

/-- If a call for `key` loads a block into a full cache, then only the bucket that
eviction clears and the one that insertion overwrites may point to the last node. -/
def TailBucketsCleared (m : FsMem) (key : Bytes) : Prop :=
  FullInsertion m key →
    ∀ (a : Nat) (node : CacheNode) (i : Nat), m.tail = some a → m.nodes a = some node →
      m.bucket i = some a → i = BlockCacheHeap.hash node.key ∨ i = BlockCacheHeap.hash key

/-- Each of the calls meets the condition in the state it is made in. -/
def TailBucketsClearedThroughout (poolsize : Nat) (calls : List (Bytes × Bytes)) : Prop :=
  ∀ past call m log, past ++ [call] <+: calls → runFiles poolsize past = some (m, log) →
    TailBucketsCleared m call.1

section Reading

variable {m : FsMem} {b : Blocks}

theorem linkedNodes_rule (h : OnHeap m b 0) :
    linkedNodes m = some (b.entries.map Prod.fst) := by
  rw [linkedNodes, h.walk_next, Option.map_some, fst_records]

theorem bucketsAlive_iff (h : OnHeap m b 0) : BucketsAlive m ↔ BucketsLive b := by
  rw [BucketsAlive, linkedNodes_rule h, h.bucket]
  constructor
  · intro halive
    obtain ⟨linked, hlinked, hbucket⟩ := halive
    obtain rfl := Option.some.inj hlinked
    exact hbucket
  · exact fun hlive => ⟨_, rfl, hlive⟩

/-- Full insertions, on the blocks. -/
theorem fullInsertion_iff (h : OnHeap m b 0) (hlive : BucketsLive b) (key : Bytes) :
    FullInsertion m key ↔
      b.lookup key = none ∧ b.free ≠ [] ∧ cacheSize ≤ b.entries.length := by
  have hsearch := lookup_rule h hlive key
  have hfree : m.freecount ≠ 0 ↔ b.free ≠ [] := by
    rw [h.freecount, ne_eq, List.length_eq_zero_iff]
  have hfull : m.capacity ≤ m.count ↔ cacheSize ≤ b.entries.length := by
    rw [h.capacity, h.count]
  constructor
  · intro hinsert
    have hmiss := hinsert.miss
    rw [hsearch] at hmiss
    exact ⟨by simpa using hmiss, hfree.mp hinsert.free, hfull.mp hinsert.full⟩
  · intro hblocks
    rw [hblocks.1] at hsearch
    exact ⟨hsearch, hfree.mpr hblocks.2.1, hfull.mpr hblocks.2.2⟩

/-- The condition, about the last block. -/
theorem tailBucketsCleared_iff (h : OnHeap m b 0) {key : Bytes} {l : List (Nat × Block)}
    {e : Nat × Block} (hsplit : b.entries = l ++ [e]) (hinsert : FullInsertion m key) :
    TailBucketsCleared m key ↔ ∀ i : Nat, b.bucket i = some e.1 →
      i = BlockCacheHeap.hash e.2.key ∨ i = BlockCacheHeap.hash key := by
  have htail : m.tail = some e.1 := by rw [h.tail, hsplit, lastPtr_concat]
  have hlast : e ∈ b.entries := by
    rw [hsplit]
    simp
  obtain ⟨p, q, hnode⟩ := exists_cell nodeLayout h.listSeg_nodes hlast
  rw [← h.bucket]
  constructor
  · intro hcleared i hi
    exact hcleared hinsert e.1 _ i htail hnode hi
  · intro hcleared _ a node i ha hread hi
    have hae : a = e.1 := Option.some.inj (ha.symm.trans htail)
    subst hae
    have hkey : node.key = e.2.key := by
      rw [Option.some.inj (hread.symm.trans hnode)]
      rfl
    rw [hkey]
    exact hcleared i hi

end Reading

/-! ## One request -/

section Request

variable {b : Blocks}

theorem bucketsLive_put_iff (hfresh : ∀ i, b.bucket i ≠ some b.nextNode) (block : Block)
    (key : Bytes) :
    BucketsLive (b.put block key) ↔ ∀ i a : Nat, b.bucket i = some a →
      i = BlockCacheHeap.hash key ∨ a ∈ b.entries.map Prod.fst := by
  have hbucket : ∀ i, (b.put block key).bucket i =
      if i = BlockCacheHeap.hash key then some b.nextNode else b.bucket i :=
    fun i => Function.update_apply _ _ _ i
  constructor
  · intro hlive i a hia
    by_cases hi : i = BlockCacheHeap.hash key
    · exact .inl hi
    · have hmem := hlive i a (by rw [hbucket, if_neg hi, hia])
      rw [Blocks.put, List.map_cons, List.mem_cons] at hmem
      have hne : a ≠ b.nextNode := fun ha => hfresh i (by rw [hia, ha])
      exact .inr (hmem.resolve_left hne)
  · intro hold i a hia
    rw [Blocks.put, List.map_cons, List.mem_cons]
    rw [hbucket] at hia
    split_ifs at hia with hi
    · exact .inl (Option.some.inj hia).symm
    · exact .inr ((hold i a hia).resolve_left hi)

/-- Insertion into a full cache, after eviction of the last block `e`. -/
theorem bucketsLive_evict_put_iff (hlive : BucketsLive b)
    (hnodup : (b.entries.map Prod.fst).Nodup) (hfresh : ∀ i, b.bucket i ≠ some b.nextNode)
    {l : List (Nat × Block)} {e : Nat × Block} (hsplit : b.entries = l ++ [e])
    (block : Block) (key : Bytes) :
    BucketsLive (b.evict.put block key) ↔ ∀ i : Nat, b.bucket i = some e.1 →
      i = BlockCacheHeap.hash e.2.key ∨ i = BlockCacheHeap.hash key := by
  have hentries : b.evict.entries = l := by rw [evict_append b hsplit]
  have hnext : b.evict.nextNode = b.nextNode := by rw [evict_append b hsplit]
  have hfresh' : ∀ i, b.evict.bucket i ≠ some b.evict.nextNode := by
    intro i hi
    rw [hnext] at hi
    exact hfresh i ((evict_bucket hsplit i _).mp hi).1
  rw [hsplit, List.map_append, List.nodup_append] at hnodup
  rw [bucketsLive_put_iff hfresh', hentries]
  constructor
  · intro hkept i hi
    by_cases hown : i = BlockCacheHeap.hash e.2.key
    · exact .inl hown
    · have hdangling := hkept i e.1 ((evict_bucket hsplit i e.1).mpr ⟨hi, fun h => hown h.1⟩)
      exact .inr (hdangling.resolve_right (fun hmem => hnodup.2.2 _ hmem e.1 (by simp) rfl))
  · intro hcleared i a hia
    have hold := (evict_bucket hsplit i a).mp hia
    have hmem := hlive i a hold.1
    rw [hsplit, List.map_append, List.mem_append] at hmem
    rcases hmem with hmem | hmem
    · exact .inr hmem
    · have ha : a = e.1 := by simpa using hmem
      subst ha
      exact .inl ((hcleared i hold.1).resolve_left (fun hown => hold.2 ⟨hown, rfl⟩))

/-- **One request**: the buckets stay live exactly if the condition holds. -/
theorem bucketsLive_request_iff {m : FsMem} (h : OnHeap m b 0) (hlive : BucketsLive b)
    (key data : Bytes) :
    BucketsLive (b.request key data).2 ↔ TailBucketsCleared m key := by
  have hinsert := fullInsertion_iff h hlive key
  rw [Blocks.request]
  split
  next e hfound =>
    have hperm := touch_perm (nodup_entries h) (mem_of_lookup hfound).1
    apply iff_of_true
    · intro i a hia
      exact ((hperm.map Prod.fst).mem_iff).mpr (hlive i a hia)
    · intro hfull
      rw [(hinsert.mp hfull).1] at hfound
      contradiction
  next hmiss =>
    split
    next hempty => exact iff_of_true hlive (fun hfull => absurd hempty (hinsert.mp hfull).2.1)
    next i old free hfree =>
      have hfresh : ∀ j, b.bucket j ≠ some b.nextNode := by
        intro j hj
        obtain ⟨c, hc, hcn⟩ := List.mem_map.mp (hlive j _ hj)
        have hlt := h.fresh c hc
        omega
      rw [Blocks.load, Blocks.makeRoom]
      split
      next hfull =>
        obtain ⟨l, e, hsplit⟩ := exists_last_of_full hfull
        have hnodup := nodup_entries h
        rw [tailBucketsCleared_iff h hsplit (hinsert.mpr ⟨hmiss, by simp [hfree], hfull⟩)]
        exact bucketsLive_evict_put_iff (b := { b with free := free }) hlive hnodup hfresh
          hsplit _ key
      next hroom =>
        apply iff_of_true
        · rw [bucketsLive_put_iff (b := { b with free := free }) hfresh]
          exact fun j a hja => .inr (hlive j a hja)
        · exact fun hfull => absurd (hinsert.mp hfull).2.2 hroom

end Request

/-! ## Runs -/

theorem BucketsAliveThroughout.of_concat {poolsize : Nat} {calls : List (Bytes × Bytes)}
    {call : Bytes × Bytes} (h : BucketsAliveThroughout poolsize (calls ++ [call])) :
    BucketsAliveThroughout poolsize calls :=
  fun past hpast => h past (hpast.trans (List.prefix_append calls [call]))

theorem TailBucketsClearedThroughout.of_concat {poolsize : Nat} {calls : List (Bytes × Bytes)}
    {call : Bytes × Bytes} (h : TailBucketsClearedThroughout poolsize (calls ++ [call])) :
    TailBucketsClearedThroughout poolsize calls :=
  fun past c m log hpast => h past c m log (hpast.trans (List.prefix_append calls [call]))

section Run

variable {poolsize : Nat} (hpool : 0 < poolsize)
include hpool

/-- While the buckets are live the program runs as the blocks do. -/
theorem onHeap_of_bucketsAlive (calls : List (Bytes × Bytes))
    (h : BucketsAliveThroughout poolsize calls) :
    ∃ m, runFiles poolsize calls = some (m, (blocksAfter poolsize calls).2) ∧
      OnHeap m (blocksAfter poolsize calls).1 0 ∧ BucketsLive (blocksAfter poolsize calls).1 := by
  induction calls using List.reverseRecOn with
  | nil =>
      exact ⟨createbufferpool poolsize, rfl, createbufferpool_onHeap hpool,
        (bucketsLinked_initial poolsize).live⟩
  | append_singleton calls call ih =>
      obtain ⟨m, hrun, hrep, hlive⟩ := ih h.of_concat
      obtain ⟨m', hrun', hrep'⟩ := runFiles_concat_rule hrun hrep hlive call
      obtain ⟨m₁, log₁, hrun₁, halive⟩ := h _ (List.prefix_refl _)
      obtain ⟨rfl, -⟩ := Prod.mk.inj (Option.some.inj (hrun'.symm.trans hrun₁))
      exact ⟨m', hrun', hrep', (bucketsAlive_iff hrep').mp halive⟩

/-- Calls that all meet the condition keep the buckets live. -/
theorem onHeap_of_tailBucketsCleared (calls : List (Bytes × Bytes))
    (h : TailBucketsClearedThroughout poolsize calls) :
    ∃ m, runFiles poolsize calls = some (m, (blocksAfter poolsize calls).2) ∧
      OnHeap m (blocksAfter poolsize calls).1 0 ∧ BucketsLive (blocksAfter poolsize calls).1 := by
  induction calls using List.reverseRecOn with
  | nil =>
      exact ⟨createbufferpool poolsize, rfl, createbufferpool_onHeap hpool,
        (bucketsLinked_initial poolsize).live⟩
  | append_singleton calls call ih =>
      obtain ⟨m, hrun, hrep, hlive⟩ := ih h.of_concat
      obtain ⟨m', hrun', hrep'⟩ := runFiles_concat_rule hrun hrep hlive call
      have hcleared := h calls call m _ (List.prefix_refl _) hrun
      have hstep := (bucketsLive_request_iff hrep hlive call.1 call.2).mpr hcleared
      rw [blocksAfter_concat] at hrep' hrun' ⊢
      exact ⟨m', hrun', hrep', hstep⟩

/-- **When no bucket outlives its node**: the buckets point to linked nodes after
every call exactly if each call that drops a node leaves no other bucket pointing to
it. -/
theorem bucketsAlive_throughout_iff (calls : List (Bytes × Bytes)) :
    BucketsAliveThroughout poolsize calls ↔ TailBucketsClearedThroughout poolsize calls := by
  constructor
  · intro h past call m log hpast hrun
    have hbefore : BucketsAliveThroughout poolsize past :=
      fun p hp => h p (hp.trans ((List.prefix_append past [call]).trans hpast))
    have hafter : BucketsAliveThroughout poolsize (past ++ [call]) :=
      fun p hp => h p (hp.trans hpast)
    obtain ⟨m₁, hrun₁, hrep, hlive⟩ := onHeap_of_bucketsAlive hpool past hbefore
    obtain ⟨m₂, -, -, hlive'⟩ := onHeap_of_bucketsAlive hpool (past ++ [call]) hafter
    obtain ⟨rfl, -⟩ := Prod.mk.inj (Option.some.inj (hrun.symm.trans hrun₁))
    rw [blocksAfter_concat] at hlive'
    exact (bucketsLive_request_iff hrep hlive call.1 call.2).mp hlive'
  · intro h past hpast
    have hbefore : TailBucketsClearedThroughout poolsize past :=
      fun p c m log hp => h p c m log (hp.trans hpast)
    obtain ⟨m, hrun, hrep, hlive⟩ := onHeap_of_tailBucketsCleared hpool past hbefore
    exact ⟨m, _, hrun, (bucketsAlive_iff hrep).mpr hlive⟩

end Run

/-- Two keys that fit into a node. -/
theorem bucketsAlive_throughout_iff_twoKeys :
    BucketsAliveThroughout 10 [([97], [49]), ([98], [50])] ↔
      TailBucketsClearedThroughout 10 [([97], [49]), ([98], [50])] :=
  bucketsAlive_throughout_iff (by decide) _

/-- The key of 32 letters a hashes to bucket 1 and its first 31 letters to bucket 2.
Five more keys, none of them in bucket 1, evict its node. -/
theorem not_bucketsAlive_longKey :
    ¬ ∀ calls : List (Bytes × Bytes), BucketsAliveThroughout 10 calls := by
  intro h
  obtain ⟨m, -, -, hlive⟩ := onHeap_of_bucketsAlive (by decide : 0 < 10) _
    (h [(List.replicate 32 97, [49]), ([97], [50]), ([98], [51]), ([99], [52]), ([100], [53]),
      ([102], [54])])
  have hdangling := hlive 1 0 (by decide)
  revert hdangling
  decide

end SystemsInC.Ports.BlockCacheBuckets
