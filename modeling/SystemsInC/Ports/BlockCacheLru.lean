import SystemsInC.Verified.RecencyList
import SystemsInC.Ports.BlockCachePool

/-!
# When the block cache is an LRU cache

`cacheput` links a new node in front of its hash bucket and then `addtofront`
overwrites that link, so a bucket is a place in the recency list and not a list of
its own.  A search starts at the key that was last loaded into the bucket and
follows the recency list from there: it misses every cached key that has been used
more recently than that one.

The cache is an LRU cache exactly as long as no request asks for such a key.
-/

namespace SystemsInC.Ports.BlockCacheLru

open SystemsInC.Verified.CString
open SystemsInC.Verified.LinkedList
open SystemsInC.Verified.RecencyList
open SystemsInC.Ports.BlockCacheHeap hiding hash
open SystemsInC.Ports.BlockCacheShape
open SystemsInC.Ports.BlockCacheRequest
open SystemsInC.Ports.BlockCachePool

/-! ## What an LRU cache does -/

def IsHit : Outcome → Prop
  | .hit _ => True
  | _ => False

instance : DecidablePred IsHit
  | .hit _ => isTrue trivial
  | .loaded => isFalse id
  | .exhausted => isFalse id

/-- The keys of the completed requests, the latest first. -/
def requested (log : List Done) : List Bytes := log.map (fun done => cstr done.key)

/-- The most recent request for a key that missed. -/
def lastMiss (log : List Done) (key : Bytes) : Option Done :=
  log.find? (fun done => decide (cstr done.key = key ∧ ¬ IsHit done.outcome))

/-- A request for `key` after those of `log`, as an LRU cache answers it. -/
structure LruAnswer (log : List Done) (key : Bytes) (outcome : Outcome) : Prop where
  hit_iff : IsHit outcome ↔ cstr key ∈ recent cacheSize (requested log)
  data : ∀ data, outcome = .hit data → ∃ miss, lastMiss log (cstr key) = some miss ∧
    cstr data = (cstr miss.data).take (bufferSize - 1)

/-- A request for a cached key is a hit. -/
def CachedFound (m : FsMem) (key : Bytes) (outcome : Outcome) : Prop :=
  ∀ cached, cachedNodes m = some cached →
    ∀ node ∈ cached, strcmpEq node.key key → IsHit outcome

/-- No key is cached twice. -/
def CachedOnce (m : FsMem) : Prop :=
  ∀ cached, cachedNodes m = some cached → (cached.map (fun node => cstr node.key)).Nodup

/-- Every request of a sequence is answered as by an LRU cache. -/
def BehavesAsLru (poolsize : Nat) (calls : List (Bytes × Bytes)) : Prop :=
  ∀ past call, past ++ [call] <+: calls →
    ∃ m log outcome m', runFiles poolsize past = some (m, log) ∧
      files m call.1 call.2 = some (outcome, m') ∧
      LruAnswer log call.1 outcome ∧ CachedFound m call.1 outcome ∧ CachedOnce m'

/-! ## Which keys a search can reach -/

/-- The key last loaded into the bucket `i` by an LRU cache: the latest request for
a key of that bucket that was not among the recent ones. -/
def lastLoaded (i : Nat) : List Bytes → Option Bytes
  | [] => none
  | k :: past =>
      if BlockCacheHeap.hash k = i ∧ k ∉ recent cacheSize past then some k
      else lastLoaded i past

/-- The key last loaded into the bucket of `k` is still among the recent ones, and
`k` has not been used more recently than it. -/
def Reachable (past : List Bytes) (k : Bytes) : Prop :=
  ∃ j ∈ lastLoaded (BlockCacheHeap.hash k) past,
    k ∈ (recent cacheSize past).dropWhile (fun x => decide (x ≠ j))

instance (past : List Bytes) (k : Bytes) : Decidable (Reachable past k) := by
  unfold Reachable
  infer_instance

/-- Each request for a recent key was for a reachable one. -/
def AlwaysReachable : List Bytes → Prop
  | [] => True
  | k :: past => AlwaysReachable past ∧ (k ∈ recent cacheSize past → Reachable past k)

instance decidableAlwaysReachable : DecidablePred AlwaysReachable
  | [] => isTrue trivial
  | k :: past =>
      have := decidableAlwaysReachable past
      inferInstanceAs (Decidable (AlwaysReachable past ∧
        (k ∈ recent cacheSize past → Reachable past k)))

theorem AlwaysReachable.of_append {later past : List Bytes}
    (h : AlwaysReachable (later ++ past)) : AlwaysReachable past := by
  induction later with
  | nil => exact h
  | cons k later ih => exact ih h.1

theorem hash_of_lastLoaded {i : Nat} {past : List Bytes} {j : Bytes}
    (h : lastLoaded i past = some j) : BlockCacheHeap.hash j = i := by
  induction past with
  | nil => contradiction
  | cons k past ih =>
      rw [lastLoaded] at h
      split_ifs at h with hload
      · obtain rfl := Option.some.inj h
        exact hload.1
      · exact ih h

theorem lastLoaded_cons_of_mem {i : Nat} {past : List Bytes} {k : Bytes}
    (h : k ∈ recent cacheSize past) : lastLoaded i (k :: past) = lastLoaded i past := by
  rw [lastLoaded, if_neg (fun hload => hload.2 h)]

theorem lastLoaded_cons_self {past : List Bytes} {k : Bytes} (h : k ∉ recent cacheSize past) :
    lastLoaded (BlockCacheHeap.hash k) (k :: past) = some k := by
  rw [lastLoaded, if_pos ⟨rfl, h⟩]

theorem lastLoaded_cons_of_ne {i : Nat} {past : List Bytes} {k : Bytes}
    (h : BlockCacheHeap.hash k ≠ i) : lastLoaded i (k :: past) = lastLoaded i past := by
  rw [lastLoaded, if_neg (fun hload => h hload.1)]

/-! ## The cache while every search reaches its key -/

def keyOf (e : Nat × Block) : Bytes := cstr e.2.key

/-- The cached keys are the `n` most recent ones, each bucket points to the node last
loaded into it, and every block has the data of its last load.  Between two
requests `n` is `cacheSize`. -/
structure Lru (n : Nat) (log : List Done) (b : Blocks) : Prop where
  keys : b.entries.map keyOf = recent n (requested log)
  bucket : ∀ i a : Nat, b.bucket i = some a ↔
    ∃ e ∈ b.entries, e.1 = a ∧ lastLoaded i (requested log) = some (keyOf e)
  data : ∀ e ∈ b.entries, ∃ miss, lastMiss log (keyOf e) = some miss ∧
    e.2.data = storedData miss.data

theorem hash_cstr (key : Bytes) : BlockCacheHeap.hash (cstr key) = BlockCacheHeap.hash key :=
  hash_congr (cstr_cstr key)

section Invariant

variable {n : Nat} {log : List Done} {b : Blocks}

theorem Lru.keys_nodup (h : Lru n log b) : (b.entries.map keyOf).Nodup := by
  rw [h.keys]
  exact nodup_recent n _

theorem Lru.length_le (h : Lru n log b) : b.entries.length ≤ n := by
  have hlen := congrArg List.length h.keys
  rw [List.length_map] at hlen
  rw [hlen]
  exact length_recent_le n _

/-- What a search from the node of the block `c` passes. -/
theorem Lru.dropWhile_keys (h : Lru n log b) (hnodup : (b.entries.map Prod.fst).Nodup)
    {c : Nat × Block} (hc : c ∈ b.entries) :
    (b.entries.dropWhile (fun e => decide (e.1 ≠ c.1))).map keyOf =
      (recent n (requested log)).dropWhile (fun x => decide (x ≠ keyOf c)) := by
  rw [map_dropWhile_ne hnodup h.keys_nodup hc, h.keys]

/-- A search finds exactly the reachable keys. -/
theorem Lru.lookup_isSome_iff (h : Lru cacheSize log b)
    (hnodup : (b.entries.map Prod.fst).Nodup) (key : Bytes) :
    (b.lookup key).isSome ↔ Reachable (requested log) (cstr key) := by
  rw [Reachable, hash_cstr]
  constructor
  · intro hfound
    obtain ⟨e, he⟩ := Option.isSome_iff_exists.mp hfound
    obtain ⟨a, ha, hfind⟩ := Option.bind_eq_some_iff.mp he
    obtain ⟨c, hc, rfl, hlast⟩ := (h.bucket _ a).mp ha
    refine ⟨keyOf c, hlast, ?_⟩
    rw [← h.dropWhile_keys hnodup hc]
    have hkey : keyOf e = cstr key := (mem_of_lookup he).2
    rw [← hkey]
    exact List.mem_map_of_mem (List.mem_of_find?_eq_some hfind)
  · rintro ⟨j, hj, hmem⟩
    have hresident := mem_of_mem_dropWhile_ne hmem
    rw [← h.keys] at hresident
    obtain ⟨c, hc, rfl⟩ := List.mem_map.mp hresident
    have ha : b.bucket (BlockCacheHeap.hash key) = some c.1 := (h.bucket _ _).mpr ⟨c, hc, rfl, hj⟩
    rw [← h.dropWhile_keys hnodup hc] at hmem
    obtain ⟨e, he, hkey⟩ := List.mem_map.mp hmem
    rw [Blocks.lookup, ha, Option.bind_some, List.find?_isSome]
    exact ⟨e, he, decide_eq_true hkey⟩

end Invariant

/-! ## Requests -/

theorem requested_cons (done : Done) (log : List Done) :
    requested (done :: log) = cstr done.key :: requested log := rfl

theorem lastMiss_cons_self {done : Done} (log : List Done) (h : ¬ IsHit done.outcome) :
    lastMiss (done :: log) (cstr done.key) = some done := by
  rw [lastMiss, List.find?_cons_of_pos (by simpa using h)]

theorem lastMiss_cons_of_hit (done : Done) (log : List Done) (key : Bytes)
    (h : IsHit done.outcome) : lastMiss (done :: log) key = lastMiss log key := by
  rw [lastMiss, List.find?_cons_of_neg (by simpa using fun _ => h)]
  rfl

theorem lastMiss_cons_of_ne {done : Done} (log : List Done) {key : Bytes}
    (h : cstr done.key ≠ key) : lastMiss (done :: log) key = lastMiss log key := by
  rw [lastMiss, List.find?_cons_of_neg (by simpa using fun hkey => absurd hkey h)]
  rfl

/-- A hit moves its block to the front. -/
theorem Lru.hit {log : List Done} {b : Blocks} (h : Lru cacheSize log b)
    (hnodup : (b.entries.map Prod.fst).Nodup) {key data : Bytes} {e : Nat × Block}
    (hfound : b.lookup key = some e) :
    Lru cacheSize (⟨key, data, .hit e.2.data⟩ :: log) { b with entries := touch e b.entries } := by
  obtain ⟨he, heq⟩ := mem_of_lookup hfound
  have hkey : keyOf e = cstr key := heq
  have hperm := touch_perm hnodup he
  have hrecent : cstr key ∈ recent cacheSize (requested log) := by
    rw [← hkey, ← h.keys]
    exact List.mem_map_of_mem he
  constructor
  · show (touch e b.entries).map keyOf = _
    obtain ⟨l₁, l₂, hsplit⟩ := List.append_of_mem he
    have hkeys := h.keys
    rw [hsplit] at hnodup hkeys ⊢
    rw [List.map_append, List.map_cons, hkey] at hkeys
    rw [touch_append hnodup, requested_cons, recent_cons_of_split hkeys.symm, List.map_cons,
      List.map_append, hkey]
  · intro i a
    rw [requested_cons, lastLoaded_cons_of_mem hrecent, h.bucket]
    simp only [hperm.mem_iff]
  · intro c hc
    have hhit : IsHit (.hit e.2.data) := trivial
    rw [lastMiss_cons_of_hit ⟨key, data, .hit e.2.data⟩ log _ hhit]
    exact h.data c (hperm.mem_iff.mp hc)

theorem Lru.makeRoom {log : List Done} {b : Blocks} (h : Lru cacheSize log b)
    (hlinked : BucketsLinked b) (hnodup : (b.entries.map Prod.fst).Nodup) :
    Lru (cacheSize - 1) log b.makeRoom := by
  have hkept : ∀ e ∈ b.makeRoom.entries, e ∈ b.entries :=
    fun e he => (entries_makeRoom_sublist b).subset he
  constructor
  · rw [makeRoom_entries h.length_le, List.map_take, h.keys]
    exact take_recent (by decide) _
  · intro i a
    rw [makeRoom_bucket hlinked hnodup, h.bucket]
    constructor
    · rintro ⟨⟨c, hc, rfl, hlast⟩, hmem⟩
      obtain ⟨e, he, haddress⟩ := List.mem_map.mp hmem
      have hec : e = c := List.inj_on_of_nodup_map hnodup (hkept e he) hc haddress
      exact ⟨c, hec ▸ he, rfl, hlast⟩
    · rintro ⟨e, he, rfl, hlast⟩
      exact ⟨⟨e, hkept e he, rfl, hlast⟩, List.mem_map_of_mem he⟩
  · exact fun e he => h.data e (hkept e he)

/-- A new block goes in front. -/
theorem Lru.put {log : List Done} {b : Blocks} (h : Lru (cacheSize - 1) log b) {key : Bytes}
    (hlen : (cstr key).length ≤ keySize - 1)
    (hmiss : cstr key ∉ recent cacheSize (requested log)) (i : Nat) (data : Bytes) :
    Lru cacheSize (⟨key, data, .loaded⟩ :: log)
      (b.put ⟨storedKey key, i, storedData data⟩ key) := by
  have hnew : keyOf (b.nextNode, ⟨storedKey key, i, storedData data⟩) = cstr key :=
    cstr_storedKey hlen
  have hother : ∀ e ∈ b.entries, cstr key ≠ keyOf e := by
    intro e he heq
    apply hmiss
    have hmem := List.mem_map_of_mem (f := keyOf) he
    rw [h.keys, ← take_recent (m := cacheSize) (by decide)] at hmem
    rw [heq]
    exact List.mem_of_mem_take hmem
  constructor
  · show keyOf (b.nextNode, _) :: b.entries.map keyOf = _
    rw [hnew, h.keys]
    exact (recent_cons_of_not_mem (n := cacheSize - 1) hmiss).symm
  · intro i' a
    rw [requested_cons]
    by_cases hi : BlockCacheHeap.hash key = i'
    · have hlast : lastLoaded i' (cstr key :: requested log) = some (cstr key) := by
        rw [← hi, ← hash_cstr key]
        exact lastLoaded_cons_self hmiss
      have hbucket : (b.put ⟨storedKey key, i, storedData data⟩ key).bucket i' =
          some b.nextNode := by
        rw [← hi]
        exact Function.update_self _ _ _
      rw [hlast, hbucket]
      constructor
      · intro ha
        exact ⟨_, List.mem_cons_self, Option.some.inj ha, by rw [hnew]⟩
      · rintro ⟨e, he, rfl, hkey⟩
        rcases List.mem_cons.mp he with rfl | he
        · rfl
        · exact absurd (Option.some.inj hkey) (hother e he)
    · have hlast : lastLoaded i' (cstr key :: requested log) = lastLoaded i' (requested log) :=
        lastLoaded_cons_of_ne (by rwa [hash_cstr])
      have hbucket : (b.put ⟨storedKey key, i, storedData data⟩ key).bucket i' =
          b.bucket i' := Function.update_of_ne (Ne.symm hi) _ _
      rw [hlast, hbucket, h.bucket]
      constructor
      · rintro ⟨e, he, hrest⟩
        exact ⟨e, List.mem_cons_of_mem _ he, hrest⟩
      · rintro ⟨e, he, hrest⟩
        rcases List.mem_cons.mp he with rfl | he
        · rw [hnew] at hrest
          exact absurd (hash_of_lastLoaded hrest.2) (by rwa [hash_cstr])
        · exact ⟨e, he, hrest⟩
  · intro e he
    rcases List.mem_cons.mp he with rfl | he
    · rw [hnew]
      exact ⟨⟨key, data, .loaded⟩, lastMiss_cons_self log id, rfl⟩
    · rw [lastMiss_cons_of_ne log (hother e he)]
      exact h.data e he

theorem isHit_request_iff (b : Blocks) (key data : Bytes) :
    IsHit (b.request key data).1 ↔ (b.lookup key).isSome := by
  rw [Blocks.request]
  split
  next e hfound => simp [IsHit, hfound]
  next hmiss =>
    split
    next => simp [IsHit, hmiss]
    next => simp [IsHit, hmiss]

/-- A request whose key is reachable, if it is a recent one. -/
theorem Lru.request {log : List Done} {b : Blocks} (h : Lru cacheSize log b)
    (hlinked : BucketsLinked b) (hnodup : (b.entries.map Prod.fst).Nodup) (hfree : b.free ≠ [])
    {key : Bytes} (hlen : (cstr key).length ≤ keySize - 1) (data : Bytes)
    (hreach : cstr key ∈ recent cacheSize (requested log) →
      Reachable (requested log) (cstr key)) :
    LruAnswer log key (b.request key data).1 ∧
      Lru cacheSize (⟨key, data, (b.request key data).1⟩ :: log) (b.request key data).2 := by
  rw [Blocks.request]
  split
  next e hfound =>
    obtain ⟨he, heq⟩ := mem_of_lookup hfound
    have hkey : keyOf e = cstr key := heq
    refine ⟨?_, h.hit hnodup hfound⟩
    constructor
    · have hrecent : cstr key ∈ recent cacheSize (requested log) := by
        rw [← hkey, ← h.keys]
        exact List.mem_map_of_mem he
      exact iff_of_true trivial hrecent
    · intro found hdata
      obtain ⟨miss, hlast, hload⟩ := h.data e he
      refine ⟨miss, by rw [← hkey, hlast], ?_⟩
      rw [← Outcome.hit.inj hdata, hload, storedData, cstr_strncpy_append_zero]
  next hmissed =>
    have hmiss : cstr key ∉ recent cacheSize (requested log) := by
      intro hrecent
      have hfound := (h.lookup_isSome_iff hnodup key).mpr (hreach hrecent)
      rw [hmissed] at hfound
      contradiction
    split
    next hempty => exact absurd hempty hfree
    next i old free hfree =>
      have hroom : Lru cacheSize log { b with free := free } :=
        { keys := h.keys
          bucket := h.bucket
          data := h.data }
      refine ⟨?_, (hroom.makeRoom hlinked hnodup).put hlen hmiss i data⟩
      constructor
      · exact iff_of_false id hmiss
      · intro found hdata
        contradiction

/-! ## Runs -/

/-- The keys of a sequence of calls, the latest first. -/
def keysOf (calls : List (Bytes × Bytes)) : List Bytes :=
  (calls.map (fun call => cstr call.1)).reverse

theorem keysOf_append (calls later : List (Bytes × Bytes)) :
    keysOf (calls ++ later) = keysOf later ++ keysOf calls := by
  rw [keysOf, List.map_append, List.reverse_append, keysOf, keysOf]

theorem keysOf_concat (calls : List (Bytes × Bytes)) (call : Bytes × Bytes) :
    keysOf (calls ++ [call]) = cstr call.1 :: keysOf calls := keysOf_append calls [call]

theorem requested_blocksAfter (poolsize : Nat) (calls : List (Bytes × Bytes)) :
    requested (blocksAfter poolsize calls).2 = keysOf calls := by
  induction calls using List.reverseRecOn with
  | nil => rfl
  | append_singleton calls call ih =>
      rw [blocksAfter_concat, keysOf_concat, ← ih]
      rfl

theorem cachedOnce_of_onHeap {log : List Done} {m : FsMem} {b : Blocks} (hm : OnHeap m b 0)
    (h : Lru cacheSize log b) : CachedOnce m := by
  intro cached hcached
  obtain rfl := Option.some.inj ((cachedNodes_rule hm).symm.trans hcached)
  have hkeys : (records nodeLayout none b.entries none).map (fun cell => cstr cell.2.key) =
      b.entries.map keyOf := map_records nodeLayout (fun _ _ _ => rfl) none none b.entries
  rw [List.map_map]
  show ((records nodeLayout none b.entries none).map (fun cell => cstr cell.2.key)).Nodup
  rw [hkeys]
  exact h.keys_nodup

theorem cachedFound_of_answer {log : List Done} {m : FsMem} {b : Blocks} (hm : OnHeap m b 0)
    (h : Lru cacheSize log b) {key : Bytes} {outcome : Outcome}
    (hanswer : LruAnswer log key outcome) : CachedFound m key outcome := by
  intro cached hcached node hnode hkey
  obtain rfl := Option.some.inj ((cachedNodes_rule hm).symm.trans hcached)
  obtain ⟨cell, hcell, rfl⟩ := List.mem_map.mp hnode
  obtain ⟨e, he, q, r, rfl⟩ := mem_records nodeLayout hcell
  have hkeyOf : keyOf e = cstr key := hkey
  apply hanswer.hit_iff.mpr
  rw [← hkeyOf, ← h.keys]
  exact List.mem_map_of_mem he

section Run

variable {poolsize : Nat} (hpool : cacheSize < poolsize)

include hpool

/-- One more call in a run that has behaved as an LRU cache so far. -/
theorem call_after {calls : List (Bytes × Bytes)} (hkeys : KeysFit calls)
    (h : Lru cacheSize (blocksAfter poolsize calls).2 (blocksAfter poolsize calls).1)
    {call : Bytes × Bytes} (hlen : (cstr call.1).length ≤ keySize - 1)
    (hreach : cstr call.1 ∈ recent cacheSize (keysOf calls) →
      Reachable (keysOf calls) (cstr call.1)) :
    (∃ m log outcome m', runFiles poolsize calls = some (m, log) ∧
      files m call.1 call.2 = some (outcome, m') ∧
      LruAnswer log call.1 outcome ∧ CachedFound m call.1 outcome ∧ CachedOnce m') ∧
    Lru cacheSize (blocksAfter poolsize (calls ++ [call])).2
      (blocksAfter poolsize (calls ++ [call])).1 := by
  obtain ⟨m, hrun, hrep, hlinked⟩ :=
    runFiles_refines (Nat.zero_lt_of_lt hpool) calls hkeys
  obtain ⟨m', hfiles, hrep'⟩ := files_rule hrep hlinked.live call.1 call.2
  have hfree := (conserved_run hpool calls hkeys).1.free_ne_nil hpool
  rw [← requested_blocksAfter poolsize] at hreach
  obtain ⟨hanswer, hnext⟩ :=
    h.request hlinked (nodup_entries hrep) hfree hlen call.2 hreach
  refine ⟨⟨m, _, _, m', hrun, hfiles, hanswer, cachedFound_of_answer hrep h hanswer,
    cachedOnce_of_onHeap hrep' hnext⟩, ?_⟩
  rw [blocksAfter_concat]
  exact hnext

theorem lru_run (calls : List (Bytes × Bytes)) (hkeys : KeysFit calls)
    (h : AlwaysReachable (keysOf calls)) :
    Lru cacheSize (blocksAfter poolsize calls).2 (blocksAfter poolsize calls).1 := by
  induction calls using List.reverseRecOn with
  | nil =>
      exact
        { keys := rfl
          bucket := by simp [blocksAfter, initialBlocks]
          data := by simp [blocksAfter, initialBlocks] }
  | append_singleton calls call ih =>
      rw [keysOf_concat] at h
      have hpast : KeysFit calls := fun c hc => hkeys c (List.mem_append_left _ hc)
      have hlen := hkeys call (List.mem_append_right _ (List.mem_singleton_self _))
      exact (call_after hpool hpast (ih hpast h.1) hlen h.2).2

/-- A hit on a recent key means that the key was reachable. -/
theorem alwaysReachable_of_behavesAsLru (calls : List (Bytes × Bytes)) (hkeys : KeysFit calls)
    (h : BehavesAsLru poolsize calls) : AlwaysReachable (keysOf calls) := by
  induction calls using List.reverseRecOn with
  | nil => trivial
  | append_singleton calls call ih =>
      have hpast : KeysFit calls := fun c hc => hkeys c (List.mem_append_left _ hc)
      have hreached : AlwaysReachable (keysOf calls) :=
        ih hpast (fun past c hc => h past c (hc.trans (List.prefix_append _ _)))
      have hlru := lru_run hpool calls hpast hreached
      rw [keysOf_concat]
      refine ⟨hreached, ?_⟩
      intro hrecent
      obtain ⟨m, log, outcome, m', hrun, hfiles, hanswer, -⟩ :=
        h calls call (List.prefix_refl _)
      obtain ⟨m₁, hrun₁, hrep, hlinked⟩ :=
        runFiles_refines (Nat.zero_lt_of_lt hpool) calls hpast
      obtain ⟨m₂, hfiles₁, -⟩ := files_rule hrep hlinked.live call.1 call.2
      obtain ⟨rfl, rfl⟩ := Prod.mk.inj (Option.some.inj (hrun.symm.trans hrun₁))
      obtain ⟨rfl, -⟩ := Prod.mk.inj (Option.some.inj (hfiles.symm.trans hfiles₁))
      have hhit := hanswer.hit_iff
      rw [requested_blocksAfter] at hhit
      have hfound := (isHit_request_iff _ _ _).mp (hhit.mpr hrecent)
      rw [← requested_blocksAfter poolsize]
      exact (hlru.lookup_isSome_iff (nodup_entries hrep) call.1).mp hfound

/-- **When the cache is an LRU cache**: it answers every request of a sequence as one
exactly if every request for a recent key was for a reachable one. -/
theorem behavesAsLru_iff (calls : List (Bytes × Bytes)) (hkeys : KeysFit calls) :
    BehavesAsLru poolsize calls ↔ AlwaysReachable (keysOf calls) := by
  constructor
  · exact alwaysReachable_of_behavesAsLru hpool calls hkeys
  · intro h past call hprefix
    obtain ⟨rest, rfl⟩ := hprefix
    rw [keysOf_append] at h
    have hreached := h.of_append
    rw [keysOf_concat] at hreached
    have hpast : KeysFit past := fun c hc => hkeys c (by simp [hc])
    have hlen := hkeys call (by simp)
    exact (call_after hpool hpast (lru_run hpool past hpast hreached.1) hlen hreached.2).1

end Run

/-- Two keys of different buckets. -/
theorem behavesAsLru_iff_twoBuckets :
    BehavesAsLru 10 [([97], [49]), ([98], [50]), ([97], [51])] ↔
      AlwaysReachable (keysOf [([97], [49]), ([98], [50]), ([97], [51])]) :=
  behavesAsLru_iff (by decide) _ (by decide)

/-- The keys a and f share a bucket.  After the requests a, f, a the bucket still
points to f, which is now behind a, and the next request for a misses. -/
theorem not_behavesAsLru_sharedBucket :
    ¬ ∀ calls : List (Bytes × Bytes),
      (∀ call ∈ calls, 1 ≤ (cstr call.1).length ∧ (cstr call.1).length ≤ 31) →
        BehavesAsLru 10 calls := by
  intro h
  have hkeys : ∀ call ∈ ([([97], [49]), ([102], [50]), ([97], [51]), ([97], [52])] :
      List (Bytes × Bytes)), 1 ≤ (cstr call.1).length ∧ (cstr call.1).length ≤ 31 := by
    intro call hcall
    simp only [List.mem_cons, List.not_mem_nil, or_false] at hcall
    rcases hcall with rfl | rfl | rfl | rfl <;> decide
  have hlru := h _ hkeys
  have hreached := alwaysReachable_of_behavesAsLru (by decide) _
    (fun call hcall => (hkeys call hcall).2) hlru
  revert hreached
  decide

end SystemsInC.Ports.BlockCacheLru
