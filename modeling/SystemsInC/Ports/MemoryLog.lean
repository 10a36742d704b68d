import SystemsInC.Verified.GuardedRuns
import SystemsInC.Verified.LinkedList
import SystemsInC.Verified.MachineInt

/-!
# A log of allocations

`memorylog.c` keeps a linked list with a node for every block that it has allocated and
not yet freed.  The nodes come from the same heap as the blocks, so the heap here holds
both, and an address that the system allocator gives out is any that is not in use.

`freememory` gives its pointer to `free` also when `removememory` has not found it.  As
long as its callers only give it NULL or pointers of the log, the log has one entry for
each tracked block, in the order of their allocation, and `free` is called on the pointers of
the log and on their nodes only, `log_guards_free`.
-/

namespace SystemsInC.Ports.MemoryLog

open SystemsInC.Verified.CellHeap
open SystemsInC.Verified.LinkedList
open SystemsInC.Verified.GuardedRuns
open SystemsInC.Verified.MachineInt

/-! ## The heap -/

/-- `struct m` without its link. -/
structure Entry where
  memoryid : Int
  address : Ptr
  size : Int
  type : String
  deriving DecidableEq

structure Node extends Entry where
  next : Ptr
  deriving DecidableEq

/-- What the system allocator has given out: a block of some bytes or a node of the log. -/
inductive Cell
  | block (bytes : Nat)
  | node (n : Node)
  deriving DecidableEq

def Cell.next : Cell → Ptr
  | .block _ => none
  | .node n => n.next

def logLayout : Layout Entry Cell where
  cell e _ q := .node ⟨e, q⟩
  setPrev _ c := c
  setNext q c := match c with
    | .block bytes => .block bytes
    | .node n => .node { n with next := q }
  setPrev_cell _ _ _ _ := rfl
  setNext_cell _ _ _ _ := rfl

/-- The end of a run without a result. -/
inductive Fault
  /-- an access through NULL or through an address that holds no node -/
  | access
  /-- `++` on the largest `int` -/
  | overflow
  /-- `free` of an address that is not allocated; with the calls of `free` up to it -/
  | invalidFree (frees : List Nat)
  deriving DecidableEq

structure Sys where
  heap : Heap Cell
  head : Ptr
  id : Int
  /-- the calls of `free`, the first one first -/
  frees : List Nat

/-- The program starts with an empty log; `heap` is what other code has allocated. -/
def Sys.init (heap : Heap Cell) : Sys :=
  { heap := heap
    head := none
    id := 1
    frees := [] }

/-- A call of the system allocator with its answer. -/
def Sys.malloc (s : Sys) (answer : Ptr) (c : Cell) : Sys :=
  match answer with
  | none => s
  | some a => { s with heap := Function.update s.heap a (some c) }

/-- `free(p)` of an address. -/
def Sys.free (s : Sys) (a : Nat) : Except Fault Sys :=
  if s.heap a = none then
    .error (.invalidFree (s.frees ++ [a]))
  else
    .ok { s with heap := Function.update s.heap a none, frees := s.frees ++ [a] }

/-- The node a pointer points to. -/
def Sys.load (s : Sys) (p : Ptr) : Except Fault Node :=
  match p.bind s.heap with
  | some (.node n) => .ok n
  | _ => .error .access

def Sys.setNext (s : Sys) (p q : Ptr) : Except Fault Sys :=
  match modify s.heap p (logLayout.setNext q) with
  | some heap => .ok { s with heap := heap }
  | none => .error .access

/-- What was behind a node comes behind its predecessor, or becomes the head. -/
def Sys.unlink (s : Sys) (prev next : Ptr) : Except Fault Sys :=
  if prev = none then .ok { s with head := next } else s.setNext prev next

/-! ## The functions -/

/-- `add(adr, size, type)` with the answer to its `malloc`. -/
def add (s : Sys) (adr : Ptr) (size : Nat) (type : String) (newnode : Ptr) : Except Fault Sys :=
  if newnode = none then
    .error .access
  else if s.id = 2147483647 then
    .error .overflow
  else
    let s' := s.malloc newnode (.node ⟨⟨s.id, adr, toInt size, type⟩, s.head⟩)
    .ok { s' with head := newnode, id := s.id + 1 }

/-- A block of `bytes` bytes, with `size` for the log; `ptr` and `newnode` are the answers of
the system allocator. -/
def allocate (s : Sys) (bytes size : Nat) (type : String) (ptr newnode : Ptr) :
    Except Fault Sys :=
  if ptr ≠ none then
    add (s.malloc ptr (.block bytes)) ptr size type newnode
  else
    .ok s

/-- `mallocAllocation(size)`. -/
def mallocAllocation (s : Sys) (size : UInt32) (ptr newnode : Ptr) : Except Fault Sys :=
  allocate s size.toNat size.toNat "malloc" ptr newnode

/-- `callocAllocation(num, size)`; `calloc` multiplies as `size_t`. -/
def callocAllocation (s : Sys) (num size : UInt32) (ptr newnode : Ptr) : Except Fault Sys :=
  allocate s (num.toNat * size.toNat) (num * size).toNat "calloc" ptr newnode

/-- The loop of `removememory`. -/
def removeLoop (ptr : Ptr) : Nat → Sys → Ptr → Ptr → Except Fault Sys
  | 0, _, _, _ => throw .access
  | _ + 1, s, none, _ => return s
  | fuel + 1, s, some temp, prev => do
      let n ← s.load (some temp)
      if n.address = ptr then
        let s ← s.unlink prev n.next
        s.free temp
      else
        removeLoop ptr fuel s n.next (some temp)

/-- `removememory(ptr)`; the log is shorter than `fuel`. -/
def removememory (fuel : Nat) (s : Sys) (ptr : Ptr) : Except Fault Sys :=
  removeLoop ptr fuel s s.head none

def freememory (fuel : Nat) (s : Sys) (ptr : Ptr) : Except Fault Sys :=
  match ptr with
  | none => return s
  | some a => do
      let s ← removememory fuel s ptr
      s.free a

/-- The nodes from `head` on. -/
def Sys.log (s : Sys) : Option (List (Nat × Cell)) :=
  walk s.heap Cell.next s.id.toNat s.head

/-! ## The log on the heap -/

variable {s s' : Sys} {log : List (Nat × Entry)}

/-- The heap holds the nodes of `log`, and apart from them the blocks of its entries. -/
structure OnLog (s : Sys) (log : List (Nat × Entry)) : Prop where
  nodes : Holds s.heap (listSeg logLayout none log none)
  head : s.head = headPtr log none
  blocks : ∀ c ∈ log, ∃ a bytes, c.2.address = some a ∧ s.heap a = some (.block bytes)
  distinct : (log.map (fun c => c.2.address)).Nodup
  decreasing : (log.map (fun c => c.2.memoryid)).Pairwise (· > ·)
  below : ∀ c ∈ log, c.2.memoryid < s.id
  short : (log.length : Int) < s.id

theorem OnLog.init (heap : Heap Cell) : OnLog (Sys.init heap) [] where
  nodes := holds_zero heap
  head := rfl
  blocks c hc := by cases hc
  distinct := .nil
  decreasing := .nil
  below c hc := by cases hc
  short := by
    show (0 : Int) < 1
    decide

/-- The nodes are linked forward only. -/
theorem listSeg_logLayout (p p' q : Ptr) (log : List (Nat × Entry)) :
    listSeg logLayout p log q = listSeg logLayout p' log q := by
  cases log <;> rfl

theorem OnLog.mem_nodes_iff (a : Nat) :
    a ∈ (listSeg logLayout none log none).map Prod.fst ↔ a ∈ log.map Prod.fst := by
  rw [map_fst_listSeg, Multiset.mem_coe]

theorem OnLog.read (h : OnLog s log) {c : Nat × Entry} (hc : c ∈ log) :
    ∃ next, s.heap c.1 = some (.node ⟨c.2, next⟩) := by
  have hnodes := h.nodes
  rw [← add_zero (listSeg logLayout none log none)] at hnodes
  have ⟨_, next, hcell⟩ := exists_cell logLayout hnodes hc
  exact ⟨next, hcell⟩

/-- What is not a node of the heap is not a node of the log. -/
theorem OnLog.not_mem (h : OnLog s log) {a : Nat} (ha : ∀ n, s.heap a ≠ some (.node n)) :
    a ∉ (listSeg logLayout none log none).map Prod.fst := by
  rw [OnLog.mem_nodes_iff]
  intro hmem
  have ⟨c, hc, heq⟩ := List.mem_map.mp hmem
  have ⟨next, hread⟩ := h.read hc
  rw [heq] at hread
  exact ha _ hread

/-- Only the pointers of the log matter for a change of the heap apart from it. -/
theorem OnLog.update (h : OnLog s log) {a : Nat} (ha : ∀ n, s.heap a ≠ some (.node n))
    (hblock : ∀ c ∈ log, c.2.address ≠ some a) (v : Option Cell) (frees : List Nat) :
    OnLog { s with heap := Function.update s.heap a v, frees := frees } log where
  nodes := h.nodes.update (h.not_mem ha) v
  head := h.head
  blocks c hc := by
    have ⟨b, bytes, hb, hread⟩ := h.blocks c hc
    have hne : b ≠ a := by
      intro heq
      rw [heq] at hb
      exact hblock c hc hb
    exact ⟨b, bytes, hb, (Function.update_of_ne hne _ _).trans hread⟩
  distinct := h.distinct
  decreasing := h.decreasing
  below := h.below
  short := h.short

/-- What is logged is allocated. -/
theorem OnLog.address_ne (h : OnLog s log) {a : Nat} (ha : s.heap a = none) :
    ∀ c ∈ log, c.2.address ≠ some a := by
  intro c hc heq
  have ⟨b, bytes, hb, hread⟩ := h.blocks c hc
  rw [heq] at hb
  rw [← Option.some.inj hb, ha] at hread
  cases hread

/-! ## The functions on the log -/

theorem load_of_read {a : Nat} {n : Node} (h : s.heap a = some (.node n)) :
    s.load (some a) = .ok n := by
  simp only [Sys.load, Option.bind_some, h]

theorem free_eq {a : Nat} (h : s.heap a ≠ none) :
    s.free a =
      .ok { s with heap := Function.update s.heap a none, frees := s.frees ++ [a] } := by
  rw [Sys.free, if_neg h]

/-- `add` puts an entry in front. -/
theorem add_rule (h : OnLog s log) {p q bytes : Nat} (hp : s.heap p = some (.block bytes))
    (hnew : ∀ c ∈ log, c.2.address ≠ some p) (hq : s.heap q = none) (hid : s.id < 2147483647)
    (size : Nat) (type : String) :
    ∃ s', add s (some p) size type (some q) = .ok s' ∧
      OnLog s' ((q, ⟨s.id, some p, toInt size, type⟩) :: log) ∧
      s'.heap = Function.update s.heap q
        (some (.node ⟨⟨s.id, some p, toInt size, type⟩, s.head⟩)) ∧
      s'.id = s.id + 1 ∧ s'.frees = s.frees := by
  have hfree := h.update (a := q) (by simp [hq]) (h.address_ne hq)
    (some (.node ⟨⟨s.id, some p, toInt size, type⟩, s.head⟩)) s.frees
  have hqmem := h.not_mem (a := q) (by simp [hq])
  have hpq : p ≠ q := by
    intro heq
    rw [heq, hq] at hp
    cases hp
  refine ⟨{ s with
      heap := Function.update s.heap q
        (some (.node ⟨⟨s.id, some p, toInt size, type⟩, s.head⟩))
      head := some q
      id := s.id + 1 }, ?_, ?_, rfl, rfl, rfl⟩
  · have hmax : s.id ≠ 2147483647 := by omega
    rw [add, if_neg (Option.some_ne_none q), if_neg hmax]
    rfl
  · exact
      { nodes := by
          have hnodes := h.nodes.alloc hqmem
            (.node ⟨⟨s.id, some p, toInt size, type⟩, s.head⟩)
          rw [listSeg_cons, listSeg_logLayout (some q) none, ← h.head]
          exact hnodes
        head := rfl
        blocks := fun c hc => by
          rcases List.mem_cons.mp hc with rfl | hc
          · exact ⟨p, bytes, rfl, (Function.update_of_ne hpq _ _).trans hp⟩
          · exact hfree.blocks c hc
        distinct := by
          rw [List.map_cons, List.nodup_cons]
          refine ⟨fun hmem => ?_, h.distinct⟩
          have ⟨c, hc, heq⟩ := List.mem_map.mp hmem
          exact hnew c hc heq
        decreasing := by
          rw [List.map_cons, List.pairwise_cons]
          refine ⟨fun memoryid hmem => ?_, h.decreasing⟩
          have ⟨c, hc, heq⟩ := List.mem_map.mp hmem
          exact heq ▸ h.below c hc
        below := fun c hc => by
          show _ < s.id + 1
          rcases List.mem_cons.mp hc with rfl | hc
          · exact Int.lt_succ s.id
          · have hlt := h.below c hc
            omega
        short := by
          show _ < s.id + 1
          have hshort := h.short
          rw [List.length_cons]
          omega }

/-- Taking the node `c` out of the list and freeing it. -/
theorem unlink_rule {visited l₂ : List (Nat × Entry)} {c : Nat × Entry}
    (hnodes : Holds s.heap (listSeg logLayout none (visited ++ c :: l₂) none))
    (hhead : s.head = headPtr (visited ++ c :: l₂) none) :
    ∃ s₁ s₂, s.unlink (lastPtr visited none) (headPtr l₂ none) = .ok s₁ ∧
      s₁.free c.1 = .ok s₂ ∧
      Holds s₂.heap (listSeg logLayout none (visited ++ l₂) none) ∧
      s₂.head = headPtr (visited ++ l₂) none ∧ s₂.id = s.id ∧ s₂.frees = s.frees ++ [c.1] ∧
      s₂.heap c.1 = none ∧ ∀ x, x ∉ (visited ++ c :: l₂).map Prod.fst → s₂.heap x = s.heap x := by
  cases visited using List.reverseRecOn with
  | nil =>
      rw [List.nil_append, listSeg_cons] at hnodes
      have hcell : s.heap c.1 ≠ none := by
        rw [hnodes.cell]
        exact Option.some_ne_none _
      refine ⟨_, _, rfl, free_eq hcell, ?_, rfl, rfl, rfl, Function.update_self _ _ _,
        fun x hx => ?_⟩
      · rw [List.nil_append, listSeg_logLayout none (some c.1)]
        exact hnodes.free
      · have hne : x ≠ c.1 := by
          intro heq
          exact hx (by simp [heq])
        exact Function.update_of_ne hne _ _
  | append_singleton visited d =>
      rw [listSeg_append, headPtr_cons] at hnodes
      have ⟨heap, hmodify, hheap⟩ := setNext_rule logLayout hnodes (headPtr l₂ none)
      rw [listSeg_cons, add_left_comm] at hheap
      have hset : s.setNext (some d.1) (headPtr l₂ none) = .ok { s with heap := heap } := by
        rw [Sys.setNext, hmodify]
      have hcell : heap c.1 ≠ none := by
        rw [hheap.cell]
        exact Option.some_ne_none _
      have hframe : ∀ x, x ≠ d.1 → heap x = s.heap x := by
        intro x hx
        have ⟨n, _, heq⟩ := Option.map_eq_some_iff.mp hmodify
        rw [← heq]
        exact Function.update_of_ne hx _ _
      refine ⟨{ s with heap := heap }, _, ?_, free_eq hcell, ?_, ?_, rfl, rfl,
        Function.update_self _ _ _, fun x hx => ?_⟩
      · rw [lastPtr_concat, Sys.unlink, if_neg (Option.some_ne_none _)]
        exact hset
      · rw [listSeg_append, listSeg_logLayout (lastPtr (visited ++ [d]) none) (some c.1)]
        exact hheap.free
      · show s.head = _
        rw [hhead, headPtr_append, headPtr_append, headPtr_append, headPtr_append, headPtr_cons,
          headPtr_cons]
      · have hd : x ≠ d.1 := by
          intro heq
          exact hx (by simp [heq])
        have hc : x ≠ c.1 := by
          intro heq
          exact hx (by simp [heq])
        exact (Function.update_of_ne hc _ _).trans (hframe x hd)

/-- A turn of the loop on a node with another pointer. -/
theorem removeLoop_miss {a : Nat} {n : Node} {ptr prev : Ptr} (hread : s.heap a = some (.node n))
    (hne : n.address ≠ ptr) (fuel : Nat) :
    removeLoop ptr (fuel + 1) s (some a) prev = removeLoop ptr fuel s n.next (some a) := by
  rw [removeLoop, load_of_read hread]
  exact if_neg hne

/-- The turn of the loop on the node with the pointer. -/
theorem removeLoop_hit {a : Nat} {n : Node} {ptr prev : Ptr} (hread : s.heap a = some (.node n))
    (heq : n.address = ptr) (fuel : Nat) :
    removeLoop ptr (fuel + 1) s (some a) prev =
      (s.unlink prev n.next).bind (fun s => s.free a) := by
  rw [removeLoop, load_of_read hread]
  exact if_pos heq

/-- `removememory` takes out the node with the pointer. -/
theorem removeLoop_found {visited l₁ l₂ : List (Nat × Entry)} {c : Nat × Entry} {ptr : Ptr}
    {fuel : Nat}
    (hnodes : Holds s.heap (listSeg logLayout none (visited ++ l₁ ++ c :: l₂) none))
    (hhead : s.head = headPtr (visited ++ l₁ ++ c :: l₂) none)
    (hother : ∀ d ∈ l₁, d.2.address ≠ ptr) (hptr : c.2.address = ptr)
    (hfuel : l₁.length < fuel) :
    ∃ s', removeLoop ptr fuel s (headPtr (l₁ ++ c :: l₂) none) (lastPtr visited none) = .ok s' ∧
      Holds s'.heap (listSeg logLayout none (visited ++ l₁ ++ l₂) none) ∧
      s'.head = headPtr (visited ++ l₁ ++ l₂) none ∧ s'.id = s.id ∧
      s'.frees = s.frees ++ [c.1] ∧ s'.heap c.1 = none ∧
      ∀ x, x ∉ (visited ++ l₁ ++ c :: l₂).map Prod.fst → s'.heap x = s.heap x := by
  induction l₁ generalizing visited fuel with
  | nil =>
      have ⟨fuel', hfuel'⟩ : ∃ n, fuel = n + 1 := ⟨fuel - 1, by omega⟩
      rw [List.append_nil] at hnodes hhead ⊢
      have ⟨s₁, s₂, hunlink, hfree, hrest⟩ := unlink_rule hnodes hhead
      have hread : s.heap c.1 = some (.node ⟨c.2, headPtr l₂ none⟩) := by
        rw [listSeg_append, listSeg_cons, add_left_comm] at hnodes
        exact hnodes.cell
      refine ⟨s₂, ?_, hrest⟩
      rw [hfuel', List.nil_append, headPtr_cons, removeLoop_hit hread hptr, hunlink]
      exact hfree
  | cons d l₁ ih =>
      have hshift : visited ++ d :: l₁ = visited ++ [d] ++ l₁ := by simp
      have hread : s.heap d.1 = some (.node ⟨d.2, headPtr (l₁ ++ c :: l₂) none⟩) := by
        rw [List.append_assoc, List.cons_append, listSeg_append, listSeg_cons,
          add_left_comm] at hnodes
        exact hnodes.cell
      rw [hshift] at hnodes hhead ⊢
      rw [List.length_cons] at hfuel
      have ⟨fuel', hfuel'⟩ : ∃ n, fuel = n + 1 := ⟨fuel - 1, by omega⟩
      have hless : l₁.length < fuel' := by omega
      have hrest := ih hnodes hhead (fun e he => hother e (List.mem_cons_of_mem d he)) hless
      rw [lastPtr_concat] at hrest
      rw [hfuel', List.cons_append, headPtr_cons,
        removeLoop_miss hread (hother d List.mem_cons_self)]
      exact hrest

/-- `removememory` does nothing for a pointer that is not in the log. -/
theorem removeLoop_not_found {visited rest : List (Nat × Entry)} {ptr : Ptr} {fuel : Nat}
    (hnodes : Holds s.heap (listSeg logLayout none (visited ++ rest) none))
    (hother : ∀ d ∈ rest, d.2.address ≠ ptr) (hfuel : rest.length < fuel) :
    removeLoop ptr fuel s (headPtr rest none) (lastPtr visited none) = .ok s := by
  induction rest generalizing visited fuel with
  | nil =>
      have ⟨fuel', hfuel'⟩ : ∃ n, fuel = n + 1 := ⟨fuel - 1, by omega⟩
      rw [hfuel']
      rfl
  | cons d rest ih =>
      have hread : s.heap d.1 = some (.node ⟨d.2, headPtr rest none⟩) := by
        rw [listSeg_append, listSeg_cons, add_left_comm] at hnodes
        exact hnodes.cell
      have hshift : visited ++ d :: rest = visited ++ [d] ++ rest := by simp
      rw [hshift] at hnodes
      rw [List.length_cons] at hfuel
      have ⟨fuel', hfuel'⟩ : ∃ n, fuel = n + 1 := ⟨fuel - 1, by omega⟩
      have hless : rest.length < fuel' := by omega
      have hrest := ih hnodes (fun e he => hother e (List.mem_cons_of_mem d he)) hless
      rw [lastPtr_concat] at hrest
      rw [hfuel', headPtr_cons, removeLoop_miss hread (hother d List.mem_cons_self)]
      exact hrest

/-- `freememory` of a pointer of the log frees its node and then its block. -/
theorem freememory_rule {l₁ l₂ : List (Nat × Entry)} {c : Nat × Entry} {a fuel : Nat}
    (h : OnLog s (l₁ ++ c :: l₂)) (ha : c.2.address = some a)
    (hfuel : (l₁ ++ c :: l₂).length < fuel) :
    ∃ s', freememory fuel s (some a) = .ok s' ∧ OnLog s' (l₁ ++ l₂) ∧
      s'.id = s.id ∧ s'.frees = s.frees ++ [c.1] ++ [a] ∧ s'.heap c.1 = none := by
  have hdistinct := h.distinct
  rw [List.map_append, List.map_cons, List.nodup_middle, List.nodup_cons, ← List.map_append,
    ha] at hdistinct
  have hother : ∀ d ∈ l₁ ++ l₂, d.2.address ≠ some a := fun d hd heq =>
    hdistinct.1 (List.mem_map.mpr ⟨d, hd, heq⟩)
  have hless : l₁.length < fuel := by
    rw [List.length_append] at hfuel
    omega
  have hfound : ∃ s', removeLoop (some a) fuel s (headPtr (l₁ ++ c :: l₂) none) none = .ok s' ∧
      Holds s'.heap (listSeg logLayout none (l₁ ++ l₂) none) ∧
      s'.head = headPtr (l₁ ++ l₂) none ∧ s'.id = s.id ∧ s'.frees = s.frees ++ [c.1] ∧
      s'.heap c.1 = none ∧
      ∀ x, x ∉ (l₁ ++ c :: l₂).map Prod.fst → s'.heap x = s.heap x :=
    @removeLoop_found s [] l₁ l₂ c (some a) fuel h.nodes h.head
      (fun d hd => hother d (List.mem_append_left l₂ hd)) ha hless
  have ⟨s₁, hremove, hnodes, hhead, hid, hfrees, hgone, hframe⟩ := hfound
  have hkeep : ∀ {b bytes : Nat}, s.heap b = some (.block bytes) →
      s₁.heap b = some (.block bytes) := by
    intro b bytes hb
    have hnot := h.not_mem (a := b) (by simp [hb])
    rw [OnLog.mem_nodes_iff] at hnot
    rw [hframe b hnot]
    exact hb
  have hsub : (l₁ ++ l₂).Sublist (l₁ ++ c :: l₂) :=
    (List.sublist_cons_self c l₂).append_left l₁
  have hlog : OnLog s₁ (l₁ ++ l₂) :=
    { nodes := hnodes
      head := hhead
      blocks := fun d hd => by
        have ⟨b, bytes, hb, hread⟩ := h.blocks d (hsub.subset hd)
        exact ⟨b, bytes, hb, hkeep hread⟩
      distinct := hdistinct.2
      decreasing := h.decreasing.sublist (hsub.map _)
      below := fun d hd => hid ▸ h.below d (hsub.subset hd)
      short := by
        have hshort := h.short
        have hlen := hsub.length_le
        rw [hid]
        omega }
  have ⟨b, bytes, hb, hread⟩ := h.blocks c (by simp)
  rw [ha] at hb
  have hblock : s₁.heap a = some (.block bytes) := hkeep (Option.some.inj hb ▸ hread)
  refine ⟨_, ?_, hlog.update (by simp [hblock]) hother none (s₁.frees ++ [a]), hid, ?_, ?_⟩
  · have hfree := free_eq (s := s₁) (a := a) (by simp [hblock])
    show (removeLoop (some a) fuel s s.head none).bind (fun s => s.free a) = _
    rw [h.head, hremove]
    exact hfree
  · rw [hfrees]
  · have hne : c.1 ≠ a := by
      intro heq
      rw [heq, hblock] at hgone
      cases hgone
    exact (Function.update_of_ne hne _ _).trans hgone

/-- `freememory` of a pointer that is not in the log calls `free` all the same. -/
theorem freememory_stray {a fuel : Nat} (h : OnLog s log)
    (hother : ∀ c ∈ log, c.2.address ≠ some a) (hfuel : log.length < fuel) :
    freememory fuel s (some a) = s.free a := by
  have hremove : removeLoop (some a) fuel s (headPtr log none) none = .ok s :=
    @removeLoop_not_found s [] log (some a) fuel h.nodes hother hfuel
  show (removeLoop (some a) fuel s s.head none).bind (fun s => s.free a) = _
  rw [h.head, hremove]
  rfl

/-! ## Any calls -/

/-- A call, with the answers of the system allocator. -/
inductive Act
  | malloc (size : UInt32) (ptr newnode : Ptr)
  | calloc (num size : UInt32) (ptr newnode : Ptr)
  | free (ptr : Ptr)
  deriving DecidableEq

/-- The program, with what its callers know. -/
structure Tracker where
  sys : Sys
  /-- the blocks that were allocated through it and not yet freed, the last one first -/
  tracked : List Nat

def Tracker.init (heap : Heap Cell) : Tracker := ⟨.init heap, []⟩

/-- The calls of `free` between two states. -/
def newFrees (s s' : Sys) : List Nat := s'.frees.drop s.frees.length

/-- Some entry of the log has the pointer. -/
def Sys.logged (s : Sys) (ptr : Ptr) : Bool :=
  match s.log with
  | none => false
  | some nodes => nodes.any (fun c => match c.2 with
      | .block _ => false
      | .node n => n.address = ptr)

/-- Addresses that are not in use, for a block and for a node. -/
def Fresh (s : Sys) (ptr newnode : Ptr) : Prop :=
  match ptr, newnode with
  | none, _ => True
  | some p, none => s.heap p = none
  | some p, some q => s.heap p = none ∧ s.heap q = none ∧ q ≠ p

instance (s : Sys) (ptr newnode : Ptr) : Decidable (Fresh s ptr newnode) := by
  unfold Fresh
  cases ptr <;> cases newnode <;> infer_instance

/-- The allocator gives out addresses that are not in use. -/
def Answers (t : Tracker) : Act → Prop
  | .malloc _ ptr newnode => Fresh t.sys ptr newnode
  | .calloc _ _ ptr newnode => Fresh t.sys ptr newnode
  | .free _ => True

instance (t : Tracker) (a : Act) : Decidable (Answers t a) := by
  unfold Answers
  cases a <;> infer_instance

def Tracker.call (t : Tracker) : Act → Except Fault Tracker
  | .malloc size ptr newnode => do
      let s ← mallocAllocation t.sys size ptr newnode
      return { t with sys := s, tracked := ptr.toList ++ t.tracked }
  | .calloc num size ptr newnode => do
      let s ← callocAllocation t.sys num size ptr newnode
      return { t with sys := s, tracked := ptr.toList ++ t.tracked }
  | .free ptr => do
      let s ← freememory t.sys.id.toNat t.sys ptr
      return { sys := s, tracked := (newFrees t.sys s).foldl List.erase t.tracked }

/-- The calls of `free` that a call makes, one without a result included. -/
def Tracker.freed (t : Tracker) (a : Act) : List Nat :=
  match t.call a with
  | .ok t' => newFrees t.sys t'.sys
  | .error (.invalidFree frees) => frees.drop t.sys.frees.length
  | .error _ => []

def step (t : Tracker) (a : Act) : Option Tracker :=
  if Answers t a then (t.call a).toOption else none

/-- There is memory and a number for the node of a block. -/
def HasNode (s : Sys) (ptr newnode : Ptr) : Prop :=
  ptr ≠ none → newnode ≠ none ∧ s.id < 2147483647

/-- What keeps the log: a node for every block, and only NULL and pointers of the log are freed. -/
def Meets (t : Tracker) : Act → Prop
  | .malloc _ ptr newnode => HasNode t.sys ptr newnode
  | .calloc _ _ ptr newnode => HasNode t.sys ptr newnode
  | .free ptr => ptr = none ∨ t.sys.logged ptr = true

instance (t : Tracker) (a : Act) : Decidable (Meets t a) := by
  unfold Meets HasNode
  cases a <;> infer_instance

/-- The log has one entry for each tracked block, the last one first, and its numbers decrease. -/
def Guarded (t : Tracker) : Prop :=
  ∃ log : List (Nat × Entry), t.sys.log = some (records logLayout none log none) ∧
    log.map (fun c => c.2.address) = t.tracked.map some ∧ t.tracked.Nodup ∧
    (log.map (fun c => c.2.memoryid)).Pairwise (· > ·) ∧
    ∀ a ∈ t.tracked, ∃ bytes, t.sys.heap a = some (.block bytes)

/-- There is a node for the pointer at `a`. -/
def Sys.entryAt (s : Sys) (a : Nat) (ptr : Ptr) : Prop :=
  ∃ nodes n, s.log = some nodes ∧ (a, .node n) ∈ nodes ∧ n.address = ptr

/-- What a call gives to `free` is a pointer that is in the log at that moment, or the node of its
entry; and a pointer that is not in the log leaves log and heap as they are. -/
structure Guards (t : Tracker) (a : Act) : Prop where
  onLog : ∀ b ∈ t.freed a, ∃ p, a = .free (some p) ∧ t.sys.logged (some p) = true ∧
    (b = p ∨ t.sys.entryAt b (some p))
  unchanged : ∀ ptr, a = .free ptr → t.sys.logged ptr = false →
    ∃ t', t.call a = .ok t' ∧ t'.sys.heap = t.sys.heap ∧ t'.sys.log = t.sys.log

/-- The invariant: the log on the heap, and its blocks are the tracked ones. -/
def Tracks (t : Tracker) (log : List (Nat × Entry)) : Prop :=
  OnLog t.sys log ∧ log.map (fun c => c.2.address) = t.tracked.map some

variable {t t' : Tracker}

theorem OnLog.log_eq (h : OnLog s log) : s.log = some (records logLayout none log none) := by
  have hnodes := h.nodes
  rw [← add_zero (listSeg logLayout none log none)] at hnodes
  have hshort := h.short
  rw [Sys.log, h.head]
  exact walk_rule logLayout Cell.next (fun _ _ _ => rfl) hnodes s.id.toNat (by omega)

theorem OnLog.logged_iff (h : OnLog s log) (ptr : Ptr) :
    s.logged ptr = true ↔ ∃ c ∈ log, c.2.address = ptr := by
  have hmap : (records logLayout none log none).map (fun c => match c.2 with
      | .block _ => false
      | .node n => decide (n.address = ptr)) =
        log.map (fun c => decide (c.2.address = ptr)) :=
    map_records logLayout (fun _ _ _ => rfl) none none log
  have hany : s.logged ptr = log.any (fun c => decide (c.2.address = ptr)) := by
    have hsame := congrArg (fun l => l.any id) hmap
    simp only [List.any_map, Function.id_comp] at hsame
    rw [Sys.logged, h.log_eq]
    exact hsame
  rw [hany, List.any_eq_true]
  simp

/-- A tracked block is a block of the heap. -/
theorem Tracks.block (h : Tracks t log) {a : Nat} (ha : a ∈ t.tracked) :
    ∃ bytes, t.sys.heap a = some (.block bytes) := by
  have ⟨hlog, haddresses⟩ := h
  have hmem : some a ∈ log.map (fun c => c.2.address) := by
    rw [haddresses]
    exact List.mem_map_of_mem ha
  have ⟨c, hc, heq⟩ := List.mem_map.mp hmem
  have ⟨b, bytes, hb, hread⟩ := hlog.blocks c hc
  have hab : a = b := Option.some.inj (heq.symm.trans hb)
  exact ⟨bytes, hab ▸ hread⟩

/-- The entries of the log are its nodes on the heap. -/
theorem OnLog.entryAt (h : OnLog s log) {c : Nat × Entry} {ptr : Ptr} (hc : c ∈ log)
    (hptr : c.2.address = ptr) : s.entryAt c.1 ptr := by
  have ⟨_, next, hmem⟩ := exists_mem_records logLayout hc none none
  exact ⟨_, ⟨c.2, next⟩, h.log_eq, hmem, hptr⟩

theorem Tracks.guarded (h : Tracks t log) : Guarded t := by
  have ⟨hlog, haddresses⟩ := h
  have hnodup := hlog.distinct
  rw [haddresses] at hnodup
  exact ⟨log, hlog.log_eq, haddresses, hnodup.of_map some, hlog.decreasing, fun _ => h.block⟩

theorem tracks_init (heap : Heap Cell) : Tracks (Tracker.init heap) [] :=
  ⟨.init heap, rfl⟩

/-- A block with its node is one more entry. -/
theorem allocate_rule (h : OnLog s log) {ptr newnode : Ptr} (hfresh : Fresh s ptr newnode)
    (hnode : HasNode s ptr newnode) (bytes size : Nat) (type : String) :
    ∃ s' log', allocate s bytes size type ptr newnode = .ok s' ∧ OnLog s' log' ∧
      log'.map (fun c => c.2.address) =
        ptr.toList.map some ++ log.map (fun c => c.2.address) := by
  cases ptr with
  | none => exact ⟨s, log, rfl, h, rfl⟩
  | some p =>
      have ⟨hnew, hid⟩ := hnode (Option.some_ne_none p)
      have ⟨q, hq⟩ := Option.ne_none_iff_exists'.mp hnew
      subst hq
      have ⟨hp, hqfree, hqp⟩ := hfresh
      have hblock := h.update (a := p) (by simp [hp]) (h.address_ne hp) (some (.block bytes))
        s.frees
      have hq' : Function.update s.heap p (some (.block bytes)) q = none :=
        (Function.update_of_ne hqp _ _).trans hqfree
      have ⟨s', hadd, hlog, _⟩ := add_rule hblock (Function.update_self p _ _)
        (h.address_ne hp) hq' hid size type
      exact ⟨s', _, hadd, hlog, rfl⟩

theorem tracks_allocate (h : Tracks t log) {ptr newnode : Ptr} (hfresh : Fresh t.sys ptr newnode)
    (hnode : HasNode t.sys ptr newnode) (bytes size : Nat) (type : String) :
    ∃ s' log', allocate t.sys bytes size type ptr newnode = .ok s' ∧
      Tracks { t with sys := s', tracked := ptr.toList ++ t.tracked } log' := by
  have ⟨hlog, haddresses⟩ := h
  have ⟨s', log', hop, hlog', haddresses'⟩ := allocate_rule hlog hfresh hnode bytes size type
  refine ⟨s', log', hop, hlog', ?_⟩
  rw [haddresses', haddresses, List.map_append]

/-- Freeing a pointer of the log frees its node and its block, and takes its entry away. -/
theorem tracks_free (h : Tracks t log) {a : Nat} (hlogged : t.sys.logged (some a) = true) :
    ∃ s' log' b, freememory t.sys.id.toNat t.sys (some a) = .ok s' ∧
      newFrees t.sys s' = [b, a] ∧ t.sys.entryAt b (some a) ∧
      Tracks { t with sys := s', tracked := [b, a].foldl List.erase t.tracked } log' := by
  have ⟨hlog, haddresses⟩ := h
  have ⟨c, hc, ha⟩ := (hlog.logged_iff (some a)).mp hlogged
  have ⟨l₁, l₂, hsplit⟩ := List.append_of_mem hc
  have hfuel : log.length < t.sys.id.toNat := by
    have hshort := hlog.short
    omega
  rw [hsplit] at hfuel
  have ⟨s', hop, hlog', _, hfrees, _⟩ := freememory_rule (hsplit ▸ hlog) ha hfuel
  refine ⟨s', l₁ ++ l₂, c.1, hop, ?_, hlog.entryAt hc ha, hlog', ?_⟩
  · rw [newFrees, hfrees, List.append_assoc, List.drop_left]
    rfl
  · -- the node is no tracked block
    have hnode : c.1 ∉ t.tracked := by
      intro hmem
      have ⟨bytes, hblock⟩ := h.block hmem
      have ⟨next, hread⟩ := hlog.read hc
      rw [hblock] at hread
      cases hread
    have hnodup := hlog.distinct
    rw [hsplit, List.map_append, List.map_cons, List.nodup_middle, List.nodup_cons, ha] at hnodup
    have hfirst : some a ∉ l₁.map (fun c => c.2.address) := fun hmem =>
      hnodup.1 (List.mem_append_left _ hmem)
    have herase : (log.map (fun c => c.2.address)).erase (some a) =
        (l₁ ++ l₂).map (fun c => c.2.address) := by
      rw [hsplit, List.map_append, List.map_cons, ha, List.erase_append_right _ hfirst,
        List.erase_cons_head, List.map_append]
    rw [← herase, haddresses, List.foldl_cons, List.erase_of_not_mem hnode]
    exact (List.map_erase (Option.some_injective Nat) t.tracked).symm

theorem call_free_eq {ptr : Ptr} (h : freememory t.sys.id.toNat t.sys ptr = .ok s') :
    t.call (.free ptr) =
      .ok { sys := s', tracked := (newFrees t.sys s').foldl List.erase t.tracked } := by
  rw [Tracker.call, h]
  rfl

/-- `freememory(NULL)` does nothing. -/
theorem call_free_null (t : Tracker) : t.call (.free none) = .ok t := by
  have hfrees : newFrees t.sys t.sys = [] := List.drop_length
  have hop : freememory t.sys.id.toNat t.sys none = .ok t.sys := rfl
  rw [call_free_eq hop, hfrees]
  rfl

/-- A call that meets the condition has a result and keeps the log. -/
theorem tracks_step (h : Tracks t log) {a : Act} (hmeets : Meets t a) (hanswers : Answers t a) :
    ∃ t' log', step t a = some t' ∧ Tracks t' log' := by
  cases a with
  | malloc size ptr newnode =>
      have ⟨s', log', hop, htracks⟩ :=
        tracks_allocate h hanswers hmeets size.toNat size.toNat "malloc"
      refine ⟨_, log', ?_, htracks⟩
      rw [step, if_pos hanswers, Tracker.call, mallocAllocation, hop]
      rfl
  | calloc num size ptr newnode =>
      have ⟨s', log', hop, htracks⟩ :=
        tracks_allocate h hanswers hmeets (num.toNat * size.toNat) (num * size).toNat "calloc"
      refine ⟨_, log', ?_, htracks⟩
      rw [step, if_pos hanswers, Tracker.call, callocAllocation, hop]
      rfl
  | free ptr =>
      cases ptr with
      | none =>
          refine ⟨t, log, ?_, h⟩
          rw [step, if_pos hanswers, call_free_null]
          rfl
      | some a =>
          have hlogged : t.sys.logged (some a) = true :=
            hmeets.resolve_left (Option.some_ne_none a)
          have ⟨s', log', b, hop, hfrees, _, htracks⟩ := tracks_free h hlogged
          refine ⟨_, log', ?_, htracks⟩
          rw [step, if_pos hanswers, call_free_eq hop, hfrees]
          rfl

theorem tracks_of_step (h : Tracks t log) {a : Act} (hmeets : Meets t a)
    (hstep : step t a = some t') : ∃ log', Tracks t' log' := by
  have hanswers : Answers t a := by
    rw [step, Option.ite_none_right_eq_some] at hstep
    exact hstep.1
  have ⟨t₁, log', hstep₁, htracks⟩ := tracks_step h hmeets hanswers
  have heq : t₁ = t' := Option.some.inj (hstep₁.symm.trans hstep)
  exact ⟨log', heq ▸ htracks⟩

/-! ## The calls of `free` -/

/-- An allocation frees nothing, whatever the system allocator answers. -/
theorem allocate_cases (s : Sys) (bytes size : Nat) (type : String) (ptr newnode : Ptr) :
    (∃ s', allocate s bytes size type ptr newnode = .ok s' ∧ s'.frees = s.frees) ∨
      allocate s bytes size type ptr newnode = .error .access ∨
      allocate s bytes size type ptr newnode = .error .overflow := by
  have hmalloc : ∀ (s : Sys) answer c, (s.malloc answer c).frees = s.frees := by
    intro s answer c
    cases answer <;> rfl
  unfold allocate
  by_cases hptr : ptr ≠ none
  · rw [if_pos hptr, add]
    by_cases hnode : newnode = none
    · rw [if_pos hnode]
      exact .inr (.inl rfl)
    · rw [if_neg hnode]
      by_cases hid : (s.malloc ptr (.block bytes)).id = 2147483647
      · rw [if_pos hid]
        exact .inr (.inr rfl)
      · rw [if_neg hid]
        exact .inl ⟨_, rfl, (hmalloc _ _ _).trans (hmalloc _ _ _)⟩
  · rw [if_neg hptr]
    exact .inl ⟨s, rfl, rfl⟩

theorem freed_allocate {a : Act} {bytes size : Nat} {type : String} {ptr newnode : Ptr}
    (hcall : t.call a = (allocate t.sys bytes size type ptr newnode).bind (fun s =>
      .ok { t with sys := s, tracked := ptr.toList ++ t.tracked })) : t.freed a = [] := by
  unfold Tracker.freed
  rw [hcall]
  rcases allocate_cases t.sys bytes size type ptr newnode with ⟨s', hop, hfrees⟩ | hop | hop
  · rw [hop]
    show s'.frees.drop t.sys.frees.length = []
    rw [hfrees, List.drop_length]
  · rw [hop]
    rfl
  · rw [hop]
    rfl

theorem guards_of_not_free {a : Act} (ha : ∀ ptr, a ≠ .free ptr) (hfreed : t.freed a = []) :
    Guards t a where
  onLog b hb := by
    rw [hfreed] at hb
    cases hb
  unchanged ptr heq := absurd heq (ha ptr)

/-- A pointer that is not in the log goes to `free` all the same. -/
theorem Tracks.freed_stray (h : Tracks t log) {a : Nat}
    (hstray : t.sys.logged (some a) = false) : t.freed (.free (some a)) = [a] := by
  have ⟨hlog, _⟩ := h
  have hother : ∀ c ∈ log, c.2.address ≠ some a := by
    intro c hc heq
    have hlogged := (hlog.logged_iff (some a)).mpr ⟨c, hc, heq⟩
    rw [hstray] at hlogged
    cases hlogged
  have hfuel : log.length < t.sys.id.toNat := by
    have hshort := hlog.short
    omega
  have hop := freememory_stray hlog hother hfuel
  unfold Tracker.freed
  by_cases hcell : t.sys.heap a = none
  · rw [Sys.free, if_pos hcell] at hop
    rw [Tracker.call, hop]
    exact List.drop_left
  · rw [free_eq hcell] at hop
    rw [call_free_eq hop]
    exact List.drop_left

/-- The only pointers that are guarded are NULL and those of the log. -/
theorem Tracks.guards_iff (h : Tracks t log) (a : Act) :
    Guards t a ↔ ∀ ptr, a = .free ptr → ptr = none ∨ t.sys.logged ptr = true := by
  cases a with
  | malloc size ptr newnode =>
      exact ⟨fun _ _ => Act.noConfusion, fun _ =>
        guards_of_not_free (fun _ => Act.noConfusion) (freed_allocate rfl)⟩
  | calloc num size ptr newnode =>
      exact ⟨fun _ _ => Act.noConfusion, fun _ =>
        guards_of_not_free (fun _ => Act.noConfusion) (freed_allocate rfl)⟩
  | free ptr =>
      cases ptr with
      | none =>
          have hfreed : t.freed (.free none) = [] := by
            rw [Tracker.freed, call_free_null]
            exact List.drop_length
          refine ⟨fun _ ptr heq => .inl (Act.free.inj heq).symm, fun _ =>
            ⟨fun b hb => ?_, fun ptr heq _ => ?_⟩⟩
          · rw [hfreed] at hb
            cases hb
          · cases heq
            exact ⟨t, call_free_null t, rfl, rfl⟩
      | some p =>
          constructor
          · intro hguards ptr heq
            cases heq
            refine .inr ?_
            by_contra hnot
            have hstray : t.sys.logged (some p) = false := by simpa using hnot
            have hfreed := h.freed_stray hstray
            have ⟨q, hq, hlogged, _⟩ := hguards.onLog p (by rw [hfreed]; exact List.mem_cons_self)
            cases hq
            exact hnot hlogged
          · intro hmeets
            have hlogged : t.sys.logged (some p) = true :=
              (hmeets _ rfl).resolve_left (Option.some_ne_none p)
            have ⟨s', _, b, hop, hfrees, hentry, _⟩ := tracks_free h hlogged
            have hfreed : t.freed (.free (some p)) = [b, p] := by
              rw [Tracker.freed, call_free_eq hop]
              exact hfrees
            refine ⟨fun x hx => ⟨p, rfl, hlogged, ?_⟩, fun ptr heq hstray => ?_⟩
            · rw [hfreed] at hx
              rcases List.mem_cons.mp hx with rfl | hx
              · exact .inr hentry
              · exact .inl (List.mem_singleton.mp hx)
            · cases heq
              rw [hlogged] at hstray
              cases hstray

/-- **The log guards `free`.**  In every run whose calls meet the condition, and every next such
call has a result; and a next call guards `free` if and only if it does not free a pointer that is
not in the log. -/
theorem log_guards_free {heap : Heap Cell} (h : Reach step Meets (Tracker.init heap) t) :
    Guarded t ∧ (∀ a, Meets t a → Answers t a → ∃ t', step t a = some t') ∧
      ∀ a, Guards t a ↔ ∀ ptr, a = .free ptr → ptr = none ∨ t.sys.logged ptr = true := by
  have hinvariant : ∃ log, Tracks t log :=
    Reach.keeps (P := fun t => ∃ log, Tracks t log) ⟨[], tracks_init heap⟩
      (fun _ _ _ hbefore hmeets hstep =>
        have ⟨_, htracks⟩ := hbefore
        tracks_of_step htracks hmeets hstep) h
  have ⟨log, htracks⟩ := hinvariant
  refine ⟨htracks.guarded, fun a hmeets hanswers => ?_, htracks.guards_iff⟩
  have ⟨t', _, hstep, _⟩ := tracks_step htracks hmeets hanswers
  exact ⟨t', hstep⟩

/-- Two blocks, the older one freed. -/
theorem log_guards_free_twoBlocks :
    ∃ t, Reach step Meets (Tracker.init (fun _ => none)) t ∧ t.tracked = [300] ∧
      t.sys.frees = [200, 100] ∧ Guarded t ∧ ¬ Guards t (.free (some 100)) := by
  have ⟨t, hrun, htracked, hfrees, hstray⟩ : ∃ t, run (guarded step Meets)
      (Tracker.init (fun _ => none))
      [.malloc 4 (some 100) (some 200), .calloc 2 8 (some 300) (some 400), .free (some 100)] =
        some t ∧ t.tracked = [300] ∧ t.sys.frees = [200, 100] ∧
          t.sys.logged (some 100) = false := ⟨_, rfl, rfl, rfl, rfl⟩
  have hreach := Reach.refl.of_guarded hrun
  have ⟨hguarded, _, hguards⟩ := log_guards_free hreach
  refine ⟨t, hreach, htracked, hfrees, hguarded, fun h => ?_⟩
  have hmeets := (hguards _).mp h (some 100) rfl
  rw [hstray] at hmeets
  simp at hmeets

/-- A block that other code has allocated is freed although it is not in the log. -/
theorem log_frees_untracked :
    ¬ ∀ (heap : Heap Cell) (t : Tracker),
      Reach step (fun _ _ => True) (Tracker.init heap) t →
        Guarded t ∧ ∀ a, Answers t a → Guards t a := by
  intro h
  let heap : Heap Cell := Function.update (fun _ => none) 7 (some (.block 16))
  have hguards := (h heap (Tracker.init heap) .refl).2 (.free (some 7)) trivial
  have hfreed : (Tracker.init heap).freed (.free (some 7)) = [7] := rfl
  have ⟨p, hp, hlogged, _⟩ := hguards.onLog 7 (by rw [hfreed]; exact List.mem_cons_self)
  cases hp
  have hstray : (Tracker.init heap).sys.logged (some 7) = false := rfl
  rw [hstray] at hlogged
  cases hlogged

end SystemsInC.Ports.MemoryLog
