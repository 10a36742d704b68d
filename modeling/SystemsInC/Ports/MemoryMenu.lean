import SystemsInC.Ports.MemoryLog

/-!
# The menu of the allocation log

The menu of `memorylog.c` reads a number of elements as an `int` and hands its product
with the element size on as an `unsigned int`, on two ways that multiply at different
places; the log keeps it as an `int` again, `sizes_agree_iff`.

Option 3 frees what `detailsofmemoryid` finds, so it frees pointers of the log only.
Option 5 frees every node once in `removememory` and once more in its own loop,
`exit_releases_iff`.
-/

namespace SystemsInC.Ports.MemoryMenu

open SystemsInC.Verified.CellHeap
open SystemsInC.Verified.LinkedList
open SystemsInC.Verified.MachineInt
open SystemsInC.Ports.MemoryLog

variable {s s' : Sys} {log : List (Nat × Entry)}

/-! ## Option 1 -/

/-- `sizeof` of the type that the menu offers under a number. -/
def sizeofType (datatype : Int) : Option Nat :=
  if datatype = 1 then some 4        -- int
  else if datatype = 2 then some 1   -- char
  else if datatype = 3 then some 4   -- float
  else if datatype = 4 then some 8   -- double
  else none

/-- Option 1 with the three numbers that have been read: `moc` is 1 for malloc and 2 for
calloc. -/
def allocation (s : Sys) (moc datatype size : Int) (ptr newnode : Ptr) : Except Fault Sys :=
  match sizeofType datatype with
  | none => .ok s
  | some elt =>
      if moc = 1 then
        -- `size * sizeof(…)` is a `size_t`, the parameter an `unsigned int`
        mallocAllocation s (.ofNat (toSize size * elt % 2 ^ 64)) ptr newnode
      else if moc = 2 then
        callocAllocation s (.ofInt size) (.ofNat elt) ptr newnode
      else
        .ok s

/-- The allocation was refused, or the bytes that were requested for the block and the size in its
entry are both `total`. -/
def SizesAgree (total : Int) (ptr : Ptr) (result : Except Fault Sys) : Prop :=
  ptr = none ∨ ∃ s' p bytes q n, result = .ok s' ∧ ptr = some p ∧
    s'.heap p = some (.block bytes) ∧ s'.head = some q ∧ s'.heap q = some (.node n) ∧
    n.address = ptr ∧ (bytes : Int) = total ∧ n.size = total

/-- Without memory or a number for the node the program ends in `add`. -/
theorem allocate_without_node {p : Nat} {newnode : Ptr}
    (h : ¬ (newnode ≠ none ∧ s.id ≠ 2147483647)) (bytes size : Nat) (type : String) :
    ∃ fault, allocate s bytes size type (some p) newnode = .error fault := by
  rw [allocate, if_pos (Option.some_ne_none p), add]
  by_cases hnew : newnode = none
  · exact ⟨.access, if_pos hnew⟩
  · have hid : s.id = 2147483647 := by_contra (fun hid => h ⟨hnew, hid⟩)
    rw [if_neg hnew]
    exact ⟨.overflow, if_pos hid⟩

/-- With both, the block and a node for it are on the heap. -/
theorem allocate_with_node {p q : Nat} (hfresh : Fresh s (some p) (some q))
    (hid : s.id ≠ 2147483647) (bytes size : Nat) (type : String) :
    ∃ s' n, allocate s bytes size type (some p) (some q) = .ok s' ∧
      s'.heap p = some (.block bytes) ∧ s'.head = some q ∧ s'.heap q = some (.node n) ∧
      n.address = some p ∧ n.size = toInt size := by
  have ⟨_, _, hqp⟩ := hfresh
  have ⟨n, hn⟩ : ∃ n : Node, n = ⟨⟨s.id, some p, toInt size, type⟩, s.head⟩ := ⟨_, rfl⟩
  have haddress : n.address = some p := by rw [hn]
  have hsize : n.size = toInt size := by rw [hn]
  refine ⟨{ s with
      heap := Function.update (Function.update s.heap p (some (.block bytes))) q (some (.node n))
      head := some q
      id := s.id + 1 }, n, ?_, ?_, rfl, Function.update_self q _ _, haddress, hsize⟩
  · rw [allocate, if_pos (Option.some_ne_none p), add, if_neg (Option.some_ne_none q), hn]
    exact if_neg hid
  · exact (Function.update_of_ne (Ne.symm hqp) _ _).trans (Function.update_self p _ _)

theorem sizesAgree_allocate_iff {ptr newnode : Ptr} (hfresh : Fresh s ptr newnode)
    (bytes size : Nat) (type : String) (total : Int) :
    SizesAgree total ptr (allocate s bytes size type ptr newnode) ↔
      ptr = none ∨ (newnode ≠ none ∧ s.id ≠ 2147483647) ∧
        (bytes : Int) = total ∧ toInt size = total := by
  cases ptr with
  | none => exact ⟨fun _ => .inl rfl, fun _ => .inl rfl⟩
  | some p =>
      by_cases hnode : newnode ≠ none ∧ s.id ≠ 2147483647
      · have ⟨q, hq⟩ := Option.ne_none_iff_exists'.mp hnode.1
        subst hq
        have ⟨s', n, hop, hblock, hhead, hread, haddress, hlogged⟩ :=
          allocate_with_node hfresh hnode.2 bytes size type
        constructor
        · intro h
          have ⟨s₁, p₁, bytes₁, q₁, n₁, hok, hptr, hblock₁, hhead₁, hread₁, _, htotal, hsize⟩ :=
            h.resolve_left (Option.some_ne_none p)
          rw [hop] at hok
          cases hok
          cases hptr
          rw [hhead] at hhead₁
          cases hhead₁
          rw [hread] at hread₁
          cases hread₁
          rw [hblock] at hblock₁
          cases hblock₁
          exact .inr ⟨hnode, htotal, hlogged ▸ hsize⟩
        · intro h
          have ⟨_, htotal, hsize⟩ := h.resolve_left (Option.some_ne_none p)
          exact .inr ⟨s', p, bytes, q, n, hop, rfl, hblock, hhead, hread, haddress, htotal,
            hlogged.trans hsize⟩
      · have ⟨fault, herror⟩ := allocate_without_node (p := p) hnode bytes size type
        rw [herror]
        constructor
        · intro h
          have ⟨_, _, _, _, _, hok, _⟩ := h.resolve_left (Option.some_ne_none p)
          cases hok
        · intro h
          exact absurd (h.resolve_left (Option.some_ne_none p)).1 hnode

theorem sizeofType_cases {datatype : Int} {elt : Nat} (h : sizeofType datatype = some elt) :
    elt = 1 ∨ elt = 4 ∨ elt = 8 := by
  unfold sizeofType at h
  split_ifs at h <;> simp_all

/-- The product is a `size_t`, cut to an `unsigned int` and kept as an `int`. -/
theorem malloc_agrees_iff {size : Int} {elt : Nat} (hsize : IsInt size)
    (helt : elt = 1 ∨ elt = 4 ∨ elt = 8) :
    (((UInt32.ofNat (toSize size * elt % 2 ^ 64)).toNat : Int) = size * elt ∧
      toInt (UInt32.ofNat (toSize size * elt % 2 ^ 64)).toNat = size * elt) ↔
        0 ≤ size ∧ size * elt < 2 ^ 31 := by
  unfold IsInt at hsize
  rw [UInt32.toNat_ofNat', toInt_def, toSize]
  rcases helt with rfl | rfl | rfl <;> omega

/-- `calloc` gets both factors and multiplies them as `size_t`, the log gets the product of two
`unsigned int`s. -/
theorem calloc_agrees_iff {size : Int} {elt : Nat} (hsize : IsInt size)
    (helt : elt = 1 ∨ elt = 4 ∨ elt = 8) :
    ((((UInt32.ofInt size).toNat * (UInt32.ofNat elt).toNat : Nat) : Int) = size * elt ∧
      toInt (UInt32.ofInt size * UInt32.ofNat elt).toNat = size * elt) ↔
        0 ≤ size ∧ size * elt < 2 ^ 31 := by
  unfold IsInt at hsize
  rw [UInt32.toNat_mul, UInt32.ofInt, UInt32.toNat_ofNat', UInt32.toNat_ofNat', toInt_def]
  rcases helt with rfl | rfl | rfl <;> omega

/-- **When the sizes agree.**  On both ways exactly when the allocation is refused, or there is a
node for it, the size is not negative and its product with the element size is an `int`. -/
theorem sizes_agree_iff {moc datatype size : Int} {elt : Nat} {ptr newnode : Ptr}
    (hfresh : Fresh s ptr newnode) (hmoc : moc = 1 ∨ moc = 2)
    (htype : sizeofType datatype = some elt) (hsize : IsInt size) :
    SizesAgree (size * elt) ptr (allocation s moc datatype size ptr newnode) ↔
      ptr = none ∨ (newnode ≠ none ∧ s.id ≠ 2147483647) ∧ 0 ≤ size ∧ size * elt < 2 ^ 31 := by
  have helt := sizeofType_cases htype
  rcases hmoc with rfl | rfl
  · rw [allocation, htype, ← malloc_agrees_iff hsize helt]
    exact sizesAgree_allocate_iff hfresh _ _ "malloc" _
  · rw [allocation, htype, ← calloc_agrees_iff hsize helt]
    exact sizesAgree_allocate_iff hfresh _ _ "calloc" _

/-- Three doubles from `calloc`. -/
theorem sizes_agree_threeDoubles :
    SizesAgree (3 * 8) (some 100)
      (allocation (Sys.init (fun _ => none)) 2 4 3 (some 100) (some 200)) :=
  (@sizes_agree_iff _ 2 4 3 8 _ _ (by decide) (.inr rfl) rfl (by decide)).mpr (by decide)

/-- `-1` characters: `malloc` gets 2^32-1 bytes and the log keeps `-1`. -/
theorem sizes_differ_negative :
    ¬ ∀ (s : Sys) (moc datatype size : Int) (elt : Nat) (ptr newnode : Ptr),
      Fresh s ptr newnode → HasNode s ptr newnode → (moc = 1 ∨ moc = 2) →
        sizeofType datatype = some elt → IsInt size →
          SizesAgree (size * elt) ptr (allocation s moc datatype size ptr newnode) := by
  intro h
  have hagree := h (Sys.init (fun _ => none)) 1 2 (-1) 1 (some 100) (some 200) (by decide)
    (by unfold HasNode; decide) (.inl rfl) rfl (by decide)
  have ⟨s', p, bytes, q, n, _, _, _, _, _, _, htotal, _⟩ :=
    hagree.resolve_left (Option.some_ne_none 100)
  omega

/-! ## Option 3 -/

/-- The loop of `detailsofmemoryid`. -/
def detailsLoop (id : Int) : Nat → Sys → Ptr → Except Fault Ptr
  | 0, _, _ => .error .access
  | _ + 1, _, none => .ok none
  | fuel + 1, s, some temp => do
      let n ← s.load (some temp)
      if n.memoryid = id then return n.address else detailsLoop id fuel s n.next

/-- `detailsofmemoryid(id)`; the log is shorter than `fuel`. -/
def detailsofmemoryid (fuel : Nat) (s : Sys) (id : Int) : Except Fault Ptr :=
  detailsLoop id fuel s s.head

theorem detailsLoop_spec (memoryid : Int) {p : Ptr} {fuel : Nat}
    (hnodes : Holds s.heap (listSeg logLayout p log none)) (hfuel : log.length < fuel) :
    ∃ ptr, detailsLoop memoryid fuel s (headPtr log none) = .ok ptr ∧
      (ptr = none ∨ ∃ c ∈ log, c.2.memoryid = memoryid ∧ c.2.address = ptr) := by
  induction log generalizing p fuel with
  | nil =>
      have ⟨fuel', hfuel'⟩ : ∃ n, fuel = n + 1 := ⟨fuel - 1, by omega⟩
      rw [hfuel']
      exact ⟨none, rfl, .inl rfl⟩
  | cons c log ih =>
      rw [List.length_cons] at hfuel
      have ⟨fuel', hfuel'⟩ : ∃ n, fuel = n + 1 := ⟨fuel - 1, by omega⟩
      have hless : log.length < fuel' := by omega
      rw [listSeg_cons] at hnodes
      have hturn : detailsLoop memoryid fuel s (headPtr (c :: log) none) =
          if c.2.memoryid = memoryid then .ok c.2.address
          else detailsLoop memoryid fuel' s (headPtr log none) := by
        rw [hfuel', headPtr_cons, detailsLoop, load_of_read hnodes.cell]
        rfl
      rw [hturn]
      by_cases hid : c.2.memoryid = memoryid
      · exact ⟨c.2.address, if_pos hid, .inr ⟨c, List.mem_cons_self, hid, rfl⟩⟩
      · have ⟨ptr, hloop, hptr⟩ := ih hnodes.right hless
        refine ⟨ptr, (if_neg hid).trans hloop, hptr.imp id (fun hfound => ?_)⟩
        have ⟨d, hd, hrest⟩ := hfound
        exact ⟨d, List.mem_cons_of_mem c hd, hrest⟩

/-- What option 3 frees is NULL or a pointer of the log. -/
theorem details_meets {t : Tracker} (h : Tracks t log) (memoryid : Int) :
    ∃ ptr, detailsofmemoryid t.sys.id.toNat t.sys memoryid = .ok ptr ∧
      Meets t (.free ptr) := by
  have hlog := h.1
  have hfuel : log.length < t.sys.id.toNat := by
    have hshort := hlog.short
    omega
  have ⟨ptr, hloop, hptr⟩ := detailsLoop_spec memoryid hlog.nodes hfuel
  rw [← hlog.head] at hloop
  refine ⟨ptr, hloop, hptr.imp id (fun hfound => ?_)⟩
  have ⟨c, hc, _, haddress⟩ := hfound
  exact (hlog.logged_iff ptr).mpr ⟨c, hc, haddress⟩

/-! ## Option 5 -/

/-- The clean-up loop; `fuel` bounds the log for `freememory`. -/
def exitLoop (fuel : Nat) : Nat → Sys → Ptr → Except Fault Sys
  | 0, _, _ => .error .access
  | _ + 1, s, none => .ok { s with head := none }
  | n + 1, s, some temp => do
      let node ← s.load (some temp)
      let s ← freememory fuel s node.address
      let s ← s.free temp
      exitLoop fuel n s node.next

/-- Option 5 up to `exit(0)`. -/
def exitMenu (fuel : Nat) (s : Sys) : Except Fault Sys := exitLoop fuel fuel s s.head

/-- The loop ends with an empty log, and in it `free` was called exactly once for each block and
each node of `log`. -/
def ReleasesOnce (fuel : Nat) (s : Sys) (log : List (Nat × Entry)) : Prop :=
  ∃ s' freed, exitMenu fuel s = .ok s' ∧ s'.head = none ∧ s'.frees = s.frees ++ freed ∧
    ∀ c ∈ log, freed.count c.1 = 1 ∧ ∀ a, c.2.address = some a → freed.count a = 1

/-- The first node of a log is freed by `removememory`, its block by `freememory`, and then the
loop frees the node again. -/
theorem exit_doubleFree {c : Nat × Entry} {fuel : Nat} (h : OnLog s (c :: log))
    (hfuel : (c :: log).length < fuel) :
    ∃ a, c.2.address = some a ∧
      exitMenu fuel s = .error (.invalidFree (s.frees ++ [c.1] ++ [a] ++ [c.1])) := by
  have ⟨a, bytes, ha, _⟩ := h.blocks c List.mem_cons_self
  have ⟨n, hn⟩ : ∃ n, fuel = n + 1 := ⟨fuel - 1, by omega⟩
  have hread : s.heap c.1 = some (.node ⟨c.2, headPtr log none⟩) := by
    have hnodes := h.nodes
    rw [listSeg_cons] at hnodes
    exact hnodes.cell
  have hfound : ∃ s', freememory fuel s (some a) = .ok s' ∧ OnLog s' log ∧ s'.id = s.id ∧
      s'.frees = s.frees ++ [c.1] ++ [a] ∧ s'.heap c.1 = none :=
    @freememory_rule s [] log c a fuel h ha hfuel
  have ⟨s', hfreed, _, _, hfrees, hgone⟩ := hfound
  have hdouble : s'.free c.1 = .error (.invalidFree (s.frees ++ [c.1] ++ [a] ++ [c.1])) := by
    rw [Sys.free, if_pos hgone, hfrees]
  refine ⟨a, ha, ?_⟩
  have hfreed' : freememory fuel s c.2.address = .ok s' := ha ▸ hfreed
  have hstart : exitMenu fuel s = exitLoop fuel (n + 1) s (some c.1) := by
    rw [exitMenu, h.head, headPtr_cons, ← hn]
  rw [hstart, exitLoop, load_of_read hread]
  show (freememory fuel s c.2.address).bind
    (fun s => (s.free c.1).bind (fun s => exitLoop fuel n s _)) = _
  rw [hfreed']
  show (s'.free c.1).bind (fun s => exitLoop fuel n s _) = _
  rw [hdouble]
  rfl

theorem not_releasesOnce_cons {c : Nat × Entry} {fuel : Nat} (h : OnLog s (c :: log))
    (hfuel : (c :: log).length < fuel) : ¬ ReleasesOnce fuel s (c :: log) := by
  intro hreleases
  have ⟨s', freed, hexit, _⟩ := hreleases
  have ⟨a, _, hdouble⟩ := exit_doubleFree h hfuel
  rw [hdouble] at hexit
  cases hexit

/-- **When the clean-up releases everything once.**  Only when there is nothing to release. -/
theorem exit_releases_iff {fuel : Nat} (h : OnLog s log) (hfuel : log.length < fuel) :
    ReleasesOnce fuel s log ↔ log = [] := by
  constructor
  · intro hreleases
    cases log with
    | nil => rfl
    | cons c log => exact absurd hreleases (not_releasesOnce_cons h hfuel)
  · intro hnil
    subst hnil
    have ⟨n, hn⟩ : ∃ n, fuel = n + 1 := ⟨fuel - 1, by omega⟩
    have hexit : exitMenu fuel s = .ok { s with head := none } := by
      rw [exitMenu, h.head, hn]
      rfl
    exact ⟨_, [], hexit, rfl, (List.append_nil _).symm, fun c hc => by cases hc⟩

/-- A log with one entry. -/
theorem exists_log_one : ∃ s log, OnLog s log ∧ log.length = 1 := by
  have hfresh : Fresh (Sys.init (fun _ => none)) (some 100) (some 200) := by decide
  have hnode : HasNode (Sys.init (fun _ => none)) (some 100) (some 200) := by
    unfold HasNode
    decide
  have ⟨s, log, _, hlog, haddresses⟩ :=
    allocate_rule (.init (fun _ => none)) hfresh hnode 4 4 "malloc"
  have hlen := congrArg List.length haddresses
  rw [List.length_map] at hlen
  exact ⟨s, log, hlog, hlen⟩

theorem exit_releases_iff_one :
    ∃ s log, log.length = 1 ∧ (ReleasesOnce 2 s log ↔ log = []) := by
  have ⟨s, log, hlog, hlen⟩ := exists_log_one
  exact ⟨s, log, hlen, exit_releases_iff hlog (by omega)⟩

/-- With one entry the loop does not release everything once. -/
theorem exit_frees_twice :
    ¬ ∀ (fuel : Nat) (s : Sys) (log : List (Nat × Entry)), OnLog s log → log.length < fuel →
      ReleasesOnce fuel s log := by
  intro h
  have ⟨s, log, hlog, hlen⟩ := exists_log_one
  have hreleases := h 2 s log hlog (by omega)
  cases log with
  | nil => cases hlen
  | cons c log => exact not_releasesOnce_cons hlog (by omega) hreleases

end SystemsInC.Ports.MemoryMenu
