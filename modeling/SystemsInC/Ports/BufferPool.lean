import SystemsInC.Verified.GuardedRuns
import SystemsInC.Ports.BlockCachePool

/-!
# The buffer pool under any client

A client acquires and releases buffers of the pool in any order; it may release
NULL or a buffer that is free already, and it writes into the buffers it holds.
The list, the flags and the counter of the pool always agree.
-/

namespace SystemsInC.Ports.BufferPool

open SystemsInC.Verified.CString
open SystemsInC.Verified.CellHeap
open SystemsInC.Verified.LinkedList
open SystemsInC.Verified.GuardedRuns
open SystemsInC.Ports.BlockCacheHeap
open SystemsInC.Ports.BlockCacheShape
open SystemsInC.Ports.BlockCacheRequest
open SystemsInC.Ports.BlockCachePool

/-! ## Clients -/

inductive Act
  | acquire
  | release (buffer : Ptr)
  | write (i : Nat) (data : Bytes)

/-- One action, with the buffers that have been handed out so far. -/
def step (s : FsMem × List Nat) : Act → Option (FsMem × List Nat)
  | .acquire => do
      let (buffer, m) ← acquire_buffer s.1
      return (m, buffer.toList ++ s.2)
  | .release buffer => do
      let m ← release_buffer s.1 buffer
      return (m, s.2)
  | .write i data => do
      let m ← s.1.storeBuffer (some i) (fun b => { b with data := data })
      return (m, s.2)

/-- The buffer `i` is handed out and not yet released. -/
def InUse (m : FsMem) (i : Nat) : Prop :=
  ∃ cell, m.buffers i = some cell ∧ cell.isfree = false

/-- What a client of a pool of `n` buffers may do: release NULL or a buffer of the
pool, and write into a buffer in use. -/
def Allowed (n : Nat) (s : FsMem × List Nat) : Act → Prop
  | .acquire => True
  | .release buffer => ∀ i, buffer = some i → i < n
  | .write i _ => i < n ∧ InUse s.1 i

/-! ## What the pool promises -/

/-- The free list `free` of a pool of `n` buffers, of which `handed` have been handed
out at some time. -/
structure FreeList (n : Nat) (m : FsMem) (handed free : List Nat) : Prop where
  walk : freeBuffers m = some free
  acyclic : free.Nodup
  own : ∀ i ∈ free, i < n
  isfree : ∀ i < n, ∃ cell, m.buffers i = some cell ∧ (cell.isfree = true ↔ i ∈ free)
  freecount : m.freecount = free.length
  zeroed : ∀ i ∈ free, i ∈ handed → ∃ cell, m.buffers i = some cell ∧ cell.data = zeros

/-- `acquire_buffer` gives NULL exactly when all buffers are in use, and otherwise
takes a buffer that is not. -/
def AcquiresUnused (n : Nat) (m : FsMem) : Prop :=
  ∃ buffer m', acquire_buffer m = some (buffer, m') ∧
    (buffer = none ↔ ∀ i < n, InUse m i) ∧
    (buffer = none → m' = m) ∧
    ∀ i : Nat, buffer = some i → i < n ∧ ¬ InUse m i ∧
      ∀ j < n, InUse m' j ↔ j = i ∨ InUse m j

/-- `release_buffer` gives a buffer in use back with its data cleared, and does
nothing to the pool otherwise. -/
structure ReleasesOnce (n : Nat) (m : FsMem) : Prop where
  null : release_buffer m none = some m
  free : ∀ i < n, ¬ InUse m i → release_buffer m (some i) = some m
  used : ∀ i < n, InUse m i → ∃ m' cell, release_buffer m (some i) = some m' ∧
    m'.buffers i = some cell ∧ cell.data = zeros ∧
    ∀ j < n, InUse m' j ↔ j ≠ i ∧ InUse m j

/-! ## The pool without pointers -/

/-- The cells of the buffers in use. -/
def cellsInUse (used : Multiset (Nat × Bytes)) : Multiset (Nat × Buffer) :=
  used.map (fun c => usedCell c.1 c.2)

theorem cellsInUse_cons (c : Nat × Bytes) (used : Multiset (Nat × Bytes)) :
    cellsInUse (c ::ₘ used) = {usedCell c.1 c.2} + cellsInUse used := by
  rw [cellsInUse, Multiset.map_cons, ← Multiset.singleton_add, cellsInUse]

/-- The heap of the buffers holds the free ones in a list and the others apart. -/
structure OnPool (n : Nat) (m : FsMem) (handed : List Nat) (free : List (Nat × Bytes))
    (used : Multiset (Nat × Bytes)) : Prop where
  buffers : Holds m.buffers (listSeg freeLayout none free none + cellsInUse used)
  freelist : m.freelist = headPtr free none
  freecount : m.freecount = free.length
  own : (free.map Prod.fst : Multiset Nat) + used.map Prod.fst = Multiset.range n
  zeroed : ∀ e ∈ free, e.1 ∈ handed → e.2 = zeros

section OnPool

variable {n : Nat} {m : FsMem} {handed : List Nat} {free : List (Nat × Bytes)}
  {used : Multiset (Nat × Bytes)}

theorem OnPool.lt_of_free (h : OnPool n m handed free used) {i : Nat}
    (hi : i ∈ free.map Prod.fst) : i < n := by
  rw [← Multiset.mem_range, ← h.own, Multiset.mem_add]
  exact .inl hi

/-- A buffer of the pool is free or in use. -/
theorem OnPool.free_or_used (h : OnPool n m handed free used) {i : Nat} (hi : i < n) :
    i ∈ free.map Prod.fst ∨ ∃ data, (i, data) ∈ used := by
  rw [← Multiset.mem_range, ← h.own, Multiset.mem_add] at hi
  apply hi.imp id
  intro hused
  obtain ⟨c, hc, rfl⟩ := Multiset.mem_map.mp hused
  exact ⟨c.2, hc⟩

theorem OnPool.read_free (h : OnPool n m handed free used) {e : Nat × Bytes} (he : e ∈ free) :
    ∃ next, m.buffers e.1 = some ⟨e.2, true, next⟩ := by
  obtain ⟨_, next, hcell⟩ := exists_cell freeLayout h.buffers he
  exact ⟨next, hcell⟩

theorem OnPool.read_used (h : OnPool n m handed free used) {i : Nat} {data : Bytes}
    (hi : (i, data) ∈ used) : m.buffers i = some ⟨data, false, none⟩ :=
  h.buffers.right.read _ (Multiset.mem_map_of_mem (fun c => usedCell c.1 c.2) hi)

theorem OnPool.not_inUse (h : OnPool n m handed free used) {i : Nat}
    (hi : i ∈ free.map Prod.fst) : ¬ InUse m i := by
  obtain ⟨e, he, rfl⟩ := List.mem_map.mp hi
  obtain ⟨next, hread⟩ := h.read_free he
  intro hinuse
  obtain ⟨cell, hcell, hbusy⟩ := hinuse
  rw [← Option.some.inj (hread.symm.trans hcell)] at hbusy
  contradiction

theorem OnPool.inUse (h : OnPool n m handed free used) {i : Nat} {data : Bytes}
    (hi : (i, data) ∈ used) : InUse m i :=
  ⟨_, h.read_used hi, rfl⟩

theorem OnPool.inUse_iff (h : OnPool n m handed free used) {i : Nat} (hi : i < n) :
    InUse m i ↔ i ∈ used.map Prod.fst := by
  constructor
  · intro hinuse
    rcases h.free_or_used hi with hfree | ⟨data, hused⟩
    · exact absurd hinuse (h.not_inUse hfree)
    · exact Multiset.mem_map_of_mem Prod.fst hused
  · intro hmem
    obtain ⟨c, hc, rfl⟩ := Multiset.mem_map.mp hmem
    exact h.inUse hc

theorem OnPool.freeList (h : OnPool n m handed free used) :
    FreeList n m handed (free.map Prod.fst) :=
  { walk := freeBuffers_rule h.buffers h.freelist h.freecount
    acyclic := nodup_of_holds freeLayout h.buffers
    own := fun i hi => h.lt_of_free hi
    isfree := by
      intro i hi
      rcases h.free_or_used hi with hfree | ⟨data, hused⟩
      · obtain ⟨e, he, rfl⟩ := List.mem_map.mp hfree
        obtain ⟨next, hread⟩ := h.read_free he
        exact ⟨_, hread, iff_of_true rfl hfree⟩
      · refine ⟨_, h.read_used hused, iff_of_false Bool.false_ne_true ?_⟩
        exact fun hfree => h.not_inUse hfree (h.inUse hused)
    freecount := by rw [h.freecount, List.length_map]
    zeroed := by
      intro i hi hhanded
      obtain ⟨e, he, rfl⟩ := List.mem_map.mp hi
      obtain ⟨next, hread⟩ := h.read_free he
      exact ⟨_, hread, h.zeroed e he hhanded⟩ }

/-! ## Rules for the actions -/

theorem OnPool.acquire_nil (h : OnPool n m handed [] used) :
    acquire_buffer m = some (none, m) := by
  have hcount : m.freecount = 0 := h.freecount
  rw [acquire_buffer, if_pos hcount]

/-- The first free buffer is taken. -/
theorem OnPool.acquire_cons {i : Nat} {data : Bytes}
    (h : OnPool n m handed ((i, data) :: free) used) :
    ∃ m', acquire_buffer m = some (some i, m') ∧
      OnPool n m' (i :: handed) free ((i, data) ::ₘ used) := by
  obtain ⟨buffers, hop, h'⟩ := acquire_buffer_rule h.buffers h.freelist h.freecount
  have hnodup := nodup_of_holds freeLayout h.buffers
  rw [List.map_cons, List.nodup_cons] at hnodup
  refine ⟨_, hop, ?_⟩
  exact
    { buffers := by
        rw [cellsInUse_cons]
        convert h' using 1
        abel
      freelist := rfl
      freecount := rfl
      own := by
        rw [← h.own, Multiset.map_cons, List.map_cons, ← Multiset.cons_coe, Multiset.cons_add,
          Multiset.add_cons]
      zeroed := by
        intro e he hhanded
        have hmem := List.mem_map_of_mem (f := Prod.fst) he
        have hne : e.1 ≠ i := fun heq => hnodup.1 (heq ▸ hmem)
        exact h.zeroed e (List.mem_cons_of_mem _ he) ((List.mem_cons.mp hhanded).resolve_left hne) }

theorem OnPool.release_free (h : OnPool n m handed free used) {i : Nat}
    (hi : i ∈ free.map Prod.fst) : release_buffer m (some i) = some m := by
  obtain ⟨e, he, rfl⟩ := List.mem_map.mp hi
  obtain ⟨next, hread⟩ := h.read_free he
  simp [release_buffer, hread]

/-- A buffer in use, apart from the others. -/
theorem OnPool.cell {i : Nat} {data : Bytes} (h : OnPool n m handed free ((i, data) ::ₘ used)) :
    Holds m.buffers ({usedCell i data} +
      (listSeg freeLayout none free none + cellsInUse used)) := by
  have hall := h.buffers
  rw [cellsInUse_cons] at hall
  convert hall using 1
  abel

/-- A buffer in use goes to the front of the free list. -/
theorem OnPool.release_used {i : Nat} {data : Bytes}
    (h : OnPool n m handed free ((i, data) ::ₘ used)) :
    ∃ m', release_buffer m (some i) = some m' ∧
      OnPool n m' handed ((i, zeros) :: free) used := by
  obtain ⟨buffers, hop, h'⟩ := release_buffer_rule h.cell h.freelist
  refine ⟨_, hop, ?_⟩
  exact
    { buffers := h'
      freelist := rfl
      freecount := congrArg (· + 1) h.freecount
      own := by
        rw [← h.own, Multiset.map_cons, List.map_cons, ← Multiset.cons_coe, Multiset.cons_add,
          Multiset.add_cons]
      zeroed := by
        intro e he hhanded
        rcases List.mem_cons.mp he with rfl | he
        · rfl
        · exact h.zeroed e he hhanded }

theorem OnPool.write {i : Nat} {data : Bytes}
    (h : OnPool n m handed free ((i, data) ::ₘ used)) (data' : Bytes) :
    ∃ m', m.storeBuffer (some i) (fun b => { b with data := data' }) = some m' ∧
      OnPool n m' handed free ((i, data') ::ₘ used) := by
  obtain ⟨buffers, hop, h'⟩ := h.cell.write (fun b => { b with data := data' })
  refine ⟨_, storeBuffer_eq hop, ?_⟩
  exact
    { buffers := by
        rw [cellsInUse_cons]
        convert h' using 1
        rw [usedCell]
        abel
      freelist := h.freelist
      freecount := h.freecount
      own := by rw [← h.own, Multiset.map_cons, Multiset.map_cons]
      zeroed := h.zeroed }

/-! ## What the pool promises holds -/

theorem OnPool.acquiresUnused (h : OnPool n m handed free used) : AcquiresUnused n m := by
  cases free with
  | nil =>
      refine ⟨none, m, h.acquire_nil, ?_, fun _ => rfl, by simp⟩
      apply iff_of_true rfl
      intro i hi
      rcases h.free_or_used hi with hfree | ⟨data, hused⟩
      · simp at hfree
      · exact h.inUse hused
  | cons c free =>
      obtain ⟨m', hop, h'⟩ := h.acquire_cons
      have hfree : c.1 ∈ (c :: free).map Prod.fst := by simp
      have hi := h.lt_of_free hfree
      refine ⟨some c.1, m', hop, ?_, by simp, ?_⟩
      · exact iff_of_false (by simp) (fun hall => h.not_inUse hfree (hall c.1 hi))
      · intro i heq
        obtain rfl := Option.some.inj heq
        refine ⟨hi, h.not_inUse hfree, fun j hj => ?_⟩
        rw [h'.inUse_iff hj, h.inUse_iff hj, Multiset.map_cons, Multiset.mem_cons]

theorem OnPool.releasesOnce (h : OnPool n m handed free used) : ReleasesOnce n m :=
  { null := rfl
    free := by
      intro i hi hunused
      rcases h.free_or_used hi with hfree | ⟨data, hused⟩
      · exact h.release_free hfree
      · exact absurd (h.inUse hused) hunused
    used := by
      intro i hi hinuse
      rcases h.free_or_used hi with hfree | ⟨data, hused⟩
      · exact absurd hinuse (h.not_inUse hfree)
      · obtain ⟨rest, rfl⟩ := Multiset.exists_cons_of_mem hused
        obtain ⟨m', hop, h'⟩ := h.release_used
        obtain ⟨next, hread⟩ := h'.read_free List.mem_cons_self
        refine ⟨m', _, hop, hread, rfl, fun j hj => ?_⟩
        have hgone : i ∉ rest.map Prod.fst := by
          rw [← h'.inUse_iff hi]
          exact h'.not_inUse (by simp)
        rw [h'.inUse_iff hj, h.inUse_iff hj, Multiset.map_cons, Multiset.mem_cons]
        constructor
        · intro hmem
          exact ⟨fun heq => hgone (heq ▸ hmem), .inr hmem⟩
        · exact fun hboth => hboth.2.resolve_left hboth.1 }

end OnPool

/-! ## Runs -/

/-- **One action**: the pool stays as described, and no access fails. -/
theorem step_rule {n : Nat} {s : FsMem × List Nat} {free : List (Nat × Bytes)}
    {used : Multiset (Nat × Bytes)} (h : OnPool n s.1 s.2 free used) {act : Act}
    (hallowed : Allowed n s act) :
    ∃ s' free' used', step s act = some s' ∧ OnPool n s'.1 s'.2 free' used' := by
  cases act with
  | acquire =>
      cases free with
      | nil =>
          refine ⟨s, [], used, ?_, h⟩
          simp [step, h.acquire_nil]
      | cons c free =>
          obtain ⟨m', hop, h'⟩ := h.acquire_cons
          refine ⟨(m', c.1 :: s.2), free, _, ?_, h'⟩
          simp [step, hop]
  | release buffer =>
      cases buffer with
      | none => exact ⟨s, free, used, rfl, h⟩
      | some i =>
          rcases h.free_or_used (hallowed i rfl) with hfree | ⟨data, hused⟩
          · refine ⟨s, free, used, ?_, h⟩
            simp [step, h.release_free hfree]
          · obtain ⟨rest, rfl⟩ := Multiset.exists_cons_of_mem hused
            obtain ⟨m', hop, h'⟩ := h.release_used
            refine ⟨(m', s.2), _, rest, ?_, h'⟩
            simp [step, hop]
  | write i data =>
      rcases h.free_or_used hallowed.1 with hfree | ⟨old, hused⟩
      · exact absurd hallowed.2 (h.not_inUse hfree)
      · obtain ⟨rest, rfl⟩ := Multiset.exists_cons_of_mem hused
        obtain ⟨m', hop, h'⟩ := h.write data
        refine ⟨(m', s.2), free, _, ?_, h'⟩
        simp [step, hop]

theorem createbufferpool_onPool {n : Nat} (hn : 0 < n) :
    OnPool n (createbufferpool n) [] ((List.range n).map (fun i => (i, []))) 0 := by
  have hinit := createbufferpool_onHeap hn
  have hbuffers := hinit.buffers
  exact
    { buffers := by simpa [initialBlocks, usedCells, cellsInUse] using hbuffers
      freelist := hinit.freelist
      freecount := hinit.freecount
      own := by
        simp only [List.map_map, Function.comp_def, List.map_id', Multiset.map_zero, add_zero]
        rfl
      zeroed := by simp }

theorem onPool_of_reach {n : Nat} (hn : 0 < n) {s : FsMem × List Nat}
    (h : Reach step (Allowed n) (createbufferpool n, []) s) :
    ∃ free used, OnPool n s.1 s.2 free used := by
  apply h.keeps (P := fun s => ∃ free used, OnPool n s.1 s.2 free used)
  · exact ⟨_, _, createbufferpool_onPool hn⟩
  · intro s act s' hinv hallowed hs
    obtain ⟨free, used, hpool⟩ := hinv
    obtain ⟨s₁, free', used', hs₁, hpool'⟩ := step_rule hpool hallowed
    obtain rfl := Option.some.inj (hs.symm.trans hs₁)
    exact ⟨free', used', hpool'⟩

/-- **The list, the flags and the counter agree** after any actions of clients, no
action fails, and the next `acquire_buffer` or `release_buffer` does what it should. -/
theorem pool_agrees {n : Nat} (hn : 0 < n) {s : FsMem × List Nat}
    (h : Reach step (Allowed n) (createbufferpool n, []) s) :
    (∃ free, FreeList n s.1 s.2 free) ∧ AcquiresUnused n s.1 ∧ ReleasesOnce n s.1 ∧
      ∀ act, Allowed n s act → (step s act).isSome := by
  obtain ⟨free, used, hpool⟩ := onPool_of_reach hn h
  refine ⟨⟨_, hpool.freeList⟩, hpool.acquiresUnused, hpool.releasesOnce, ?_⟩
  intro act hallowed
  obtain ⟨s', -, -, hs, -⟩ := step_rule hpool hallowed
  rw [hs]
  rfl

/-- Three buffers are acquired, all there are; one is written and another one released,
and then released again. -/
theorem pool_agrees_released :
    ∃ s, run step (createbufferpool 3, []) [.acquire, .acquire, .acquire, .write 1 [104, 105],
        .release (some 2), .release (some 2)] = some s ∧
      (∃ free, FreeList 3 s.1 s.2 free) ∧ AcquiresUnused 3 s.1 ∧ ReleasesOnce 3 s.1 ∧
      ∀ act, Allowed 3 s act → (step s act).isSome := by
  have hacquired : Reach step (Allowed 3) (createbufferpool 3, []) _ :=
    .step .acquire (.step .acquire (.step .acquire .refl trivial rfl) trivial rfl) trivial rfl
  have hwritten : Reach step (Allowed 3) (createbufferpool 3, []) _ :=
    .step (.write 1 [104, 105]) hacquired ⟨by decide, _, rfl, rfl⟩ rfl
  have hown : ∀ i, some 2 = some i → i < 3 := by
    intro i hi
    cases hi
    decide
  have hreleased : Reach step (Allowed 3) (createbufferpool 3, []) _ :=
    .step (.release (some 2)) (.step (.release (some 2)) hwritten hown rfl) hown rfl
  exact ⟨_, rfl, pool_agrees (by decide) hreleased⟩

end SystemsInC.Ports.BufferPool
