import SystemsInC.Ports.MemoryMenu

/-!
# Sessions with the allocation log

The menu of `memorylog.c` works on the log through four operations: it lists it, puts an
entry in front, frees the block with a number, and cleans up at the exit.  `step` is the
menu over any log.  With the list on the heap it is the program; with a plain list of
entries it is a ledger, and `session_refines` says that a session shows and exports what the
ledger does, keeps nothing allocated but the ledger's blocks and their nodes, and never
comes to the exit, because the test in front of the menu refuses option 5.
-/

namespace SystemsInC.Ports.MemorySession

open SystemsInC.Verified.CellHeap
open SystemsInC.Verified.LinkedList
open SystemsInC.Verified.GuardedRuns
open SystemsInC.Verified.MachineInt
open SystemsInC.Ports.MemoryLog
open SystemsInC.Ports.MemoryMenu

/-! ## The menu -/

/-- The operations that the menu calls; `none` is a fault. -/
structure Ops (σ : Type) where
  /-- the lines of `printmemory` and `exportmemory` -/
  list : σ → Option (List Entry)
  /-- option 1 with its three numbers and the answers of the system allocator -/
  allocate : σ → Int → Int → Int → Ptr → Ptr → Option σ
  /-- option 3 with its number -/
  release : σ → Int → Option σ
  /-- option 5 -/
  cleanup : σ → Option σ

/-- Where the program reads a number. -/
inductive Pc
  | menu
  | moc
  | datatype (moc : Int)
  | size (moc datatype : Int)
  | memoryid
  | exited
  deriving DecidableEq

structure Session (σ : Type) where
  log : σ
  pc : Pc
  /-- what the calls of `printmemory` have listed -/
  printed : List (List Entry)
  /-- the lines of `memoryfile.txt` -/
  file : Option (List Entry)

def Session.start {σ : Type} (log : σ) : Session σ :=
  { log := log
    pc := .menu
    printed := []
    file := none }

/-- What the calls between two prompts return: `scanf`, if it converts anything, `malloc` and
`calloc` for a block and its node, and `fopen`. -/
structure Input where
  n : Option Int
  ptr : Ptr
  newnode : Ptr
  opened : Bool

variable {σ : Type}

/-- `printmemory()` and back to the menu. -/
def display (ops : Ops σ) (s : Session σ) : Option (Session σ) := do
  let entries ← ops.list s.log
  return { s with pc := .menu, printed := s.printed ++ [entries] }

/-- `exportmemory()`: a file that is opened for an empty log stays empty, and open.  The heap
here holds no streams. -/
def exportmemory (ops : Ops σ) (s : Session σ) (opened : Bool) : Option (Session σ) := do
  let entries ← ops.list s.log
  return if opened then { s with file := some entries } else s

/-- The `switch` of the menu. -/
def choose (ops : Ops σ) (s : Session σ) (options : Int) (opened : Bool) : Option (Session σ) :=
  if options = 1 then
    some { s with pc := .moc }
  else if options = 2 then
    display ops s
  else if options = 3 then do
    let entries ← ops.list s.log
    let s ← display ops s
    return if entries = [] then s else { s with pc := .memoryid }
  else if options = 4 then
    exportmemory ops s opened
  else if options = 5 then do
    let log ← ops.cleanup s.log
    return { s with log := log, pc := .exited }
  else
    some s

/-- From one prompt to the next. -/
def step (ops : Ops σ) (s : Session σ) (a : Input) : Option (Session σ) :=
  match s.pc, a.n with
  | .menu, none | .moc, none | .datatype _, none | .size _ _, none => some s
  | .menu, some options =>
      if options ≤ 0 ∨ options > 4 then some s else choose ops s options a.opened
  | .moc, some moc =>
      if moc ≤ 0 ∨ moc > 3 then some s else some { s with pc := .datatype moc }
  | .datatype moc, some datatype =>
      if datatype ≤ 0 ∨ datatype > 5 then some s else some { s with pc := .size moc datatype }
  | .size moc datatype, some size => do
      -- option 1 has no `break`, so the log is displayed
      let log ← ops.allocate s.log moc datatype size a.ptr a.newnode
      display ops { s with log := log }
  | .memoryid, none => some { s with pc := .menu }
  | .memoryid, some id => do
      let log ← ops.release s.log id
      return { s with log := log, pc := .menu }
  | .exited, _ => none

/-! ## The log on the heap -/

/-- The loop of `printmemory` and `exportmemory`. -/
def printLoop : Nat → Sys → Ptr → Except Fault (List Entry)
  | 0, _, _ => .error .access
  | _ + 1, _, none => .ok []
  | fuel + 1, s, some temp => do
      let n ← s.load (some temp)
      let rest ← printLoop fuel s n.next
      return n.toEntry :: rest

/-- Option 3 from `detailsofmemoryid` on. -/
def release (s : Sys) (id : Int) : Except Fault Sys := do
  let ptr ← detailsofmemoryid s.id.toNat s id
  freememory s.id.toNat s ptr

def heapOps : Ops Sys where
  list s := (printLoop s.id.toNat s s.head).toOption
  allocate s moc datatype size ptr newnode :=
    (allocation s moc datatype size ptr newnode).toOption
  release s id := (release s id).toOption
  cleanup s := (exitMenu s.id.toNat s).toOption

/-! ## The ledger -/

/-- The number of the next entry, and the entries, the last one first. -/
structure Ledger where
  id : Int
  entries : List Entry

/-- What option 1 writes into the log: the size and the type. -/
def requested (moc datatype size : Int) : Option (Int × String) :=
  match sizeofType datatype with
  | none => none
  | some elt =>
      if moc = 1 then
        some (toInt (UInt32.ofNat (toSize size * elt % 2 ^ 64)).toNat, "malloc")
      else if moc = 2 then
        some (toInt (UInt32.ofInt size * UInt32.ofNat elt).toNat, "calloc")
      else
        none

def Ledger.allocate (l : Ledger) (moc datatype size : Int) (ptr : Ptr) : Ledger :=
  match ptr, requested moc datatype size with
  | some p, some (size, type) =>
      { id := l.id + 1
        entries := ⟨l.id, some p, size, type⟩ :: l.entries }
  | _, _ => l

def ledgerOps : Ops Ledger where
  list l := some l.entries
  allocate l moc datatype size ptr _ := some (l.allocate moc datatype size ptr)
  release l id := some { l with entries := l.entries.filter (fun e => e.memoryid ≠ id) }
  cleanup l := some { l with entries := [] }

/-! ## The log and what is allocated -/

variable {heap₀ : Heap Cell} {s s' : Sys} {log : List (Nat × Entry)}

/-- The addresses of the nodes and of their blocks. -/
def owned (log : List (Nat × Entry)) : List Nat :=
  log.flatMap (fun c => c.1 :: c.2.address.toList)

/-- Apart from the log and its blocks the heap is the one of the other code. -/
structure Keeps (heap₀ : Heap Cell) (s : Sys) (log : List (Nat × Entry)) : Prop where
  onLog : OnLog s log
  apart : ∀ x ∈ owned log, heap₀ x = none
  frame : ∀ x, x ∉ owned log → s.heap x = heap₀ x

theorem mem_owned {x : Nat} :
    x ∈ owned log ↔ ∃ c ∈ log, x = c.1 ∨ c.2.address = some x := by
  simp [owned]

theorem keeps_init (heap₀ : Heap Cell) : Keeps heap₀ (Sys.init heap₀) [] where
  onLog := .init heap₀
  apart x hx := by cases hx
  frame _ _ := rfl

theorem Keeps.allocated (h : Keeps heap₀ s log) {x : Nat} (hx : x ∈ owned log) :
    s.heap x ≠ none := by
  have ⟨c, hc, hcase⟩ := mem_owned.mp hx
  cases hcase with
  | inl hnode =>
      have ⟨next, hread⟩ := h.onLog.read hc
      rw [hnode, hread]
      exact Option.some_ne_none _
  | inr hblock =>
      have ⟨a, bytes, ha, hread⟩ := h.onLog.blocks c hc
      have hxa : x = a := Option.some.inj (hblock.symm.trans ha)
      rw [hxa, hread]
      exact Option.some_ne_none _

/-- What is allocated is what the other code has, and the log with its blocks. -/
theorem Keeps.allocated_iff (h : Keeps heap₀ s log) (x : Nat) :
    s.heap x ≠ none ↔ heap₀ x ≠ none ∨ x ∈ owned log := by
  by_cases hx : x ∈ owned log
  · exact ⟨fun _ => .inr hx, fun _ => h.allocated hx⟩
  · rw [h.frame x hx]
    exact ⟨.inl, fun hcase => hcase.resolve_right hx⟩

theorem Keeps.not_owned (h : Keeps heap₀ s log) {x : Nat} (hx : s.heap x = none) :
    x ∉ owned log := fun hmem => h.allocated hmem hx

theorem Keeps.fuel (h : Keeps heap₀ s log) : log.length < s.id.toNat := by
  have hshort := h.onLog.short
  omega

/-! ## Listing -/

theorem printLoop_spec {p : Ptr} {fuel : Nat}
    (hnodes : Holds s.heap (listSeg logLayout p log none)) (hfuel : log.length < fuel) :
    printLoop fuel s (headPtr log none) = .ok (log.map Prod.snd) := by
  induction log generalizing p fuel with
  | nil =>
      have ⟨fuel', hfuel'⟩ : ∃ n, fuel = n + 1 := ⟨fuel - 1, by omega⟩
      rw [hfuel']
      rfl
  | cons c log ih =>
      rw [List.length_cons] at hfuel
      have ⟨fuel', hfuel'⟩ : ∃ n, fuel = n + 1 := ⟨fuel - 1, by omega⟩
      have hless : log.length < fuel' := by omega
      rw [listSeg_cons] at hnodes
      have hrest : printLoop fuel' s (headPtr log none) = .ok (log.map Prod.snd) :=
        ih hnodes.right hless
      rw [hfuel', headPtr_cons, printLoop, load_of_read hnodes.cell]
      show (printLoop fuel' s (headPtr log none)).bind (fun rest => .ok (c.2 :: rest)) = _
      rw [hrest]
      rfl

/-- `printmemory` and `exportmemory` list the entries. -/
theorem Keeps.list_eq (h : Keeps heap₀ s log) : heapOps.list s = some (log.map Prod.snd) := by
  show (printLoop s.id.toNat s s.head).toOption = _
  rw [h.onLog.head, printLoop_spec h.onLog.nodes h.fuel]
  rfl

/-! ## Freeing -/

/-- `detailsofmemoryid` finds no entry. -/
theorem detailsLoop_none {memoryid : Int} {p : Ptr} {fuel : Nat}
    (hnodes : Holds s.heap (listSeg logLayout p log none)) (hfuel : log.length < fuel)
    (hother : ∀ c ∈ log, c.2.memoryid ≠ memoryid) :
    detailsLoop memoryid fuel s (headPtr log none) = .ok none := by
  have ⟨ptr, hloop, hptr⟩ := detailsLoop_spec memoryid hnodes hfuel
  cases hptr with
  | inl hnone => rw [hloop, hnone]
  | inr hfound =>
      have ⟨c, hc, hid, _⟩ := hfound
      exact absurd hid (hother c hc)

/-- `detailsofmemoryid` finds the entry `c`. -/
theorem detailsLoop_some {memoryid : Int} {p : Ptr} {fuel : Nat} {l₁ l₂ : List (Nat × Entry)}
    {c : Nat × Entry}
    (hnodes : Holds s.heap (listSeg logLayout p (l₁ ++ c :: l₂) none))
    (hfuel : (l₁ ++ c :: l₂).length < fuel) (hother : ∀ d ∈ l₁, d.2.memoryid ≠ memoryid)
    (hid : c.2.memoryid = memoryid) :
    detailsLoop memoryid fuel s (headPtr (l₁ ++ c :: l₂) none) = .ok c.2.address := by
  have ⟨fuel', hfuel'⟩ : ∃ n, fuel = n + 1 := ⟨fuel - 1, by omega⟩
  subst hfuel'
  induction l₁ generalizing p fuel' with
  | nil =>
      rw [List.nil_append, listSeg_cons] at hnodes
      rw [List.nil_append, headPtr_cons, detailsLoop, load_of_read hnodes.cell]
      exact if_pos hid
  | cons d l₁ ih =>
      rw [List.cons_append, List.length_cons] at hfuel
      have ⟨n, hn⟩ : ∃ n, fuel' = n + 1 := ⟨fuel' - 1, by omega⟩
      subst hn
      rw [List.cons_append, listSeg_cons] at hnodes
      have hrest := ih hnodes.right (fun e he => hother e (List.mem_cons_of_mem d he)) n
        (by omega)
      rw [List.cons_append, headPtr_cons, detailsLoop, load_of_read hnodes.cell]
      exact (if_neg (hother d List.mem_cons_self)).trans hrest

/-- The other entries have other numbers. -/
theorem memoryid_ne {l₁ l₂ : List (Nat × Entry)} {c : Nat × Entry}
    (h : OnLog s (l₁ ++ c :: l₂)) : ∀ d ∈ l₁ ++ l₂, d.2.memoryid ≠ c.2.memoryid := by
  intro d hd heq
  have hids : ((l₁ ++ c :: l₂).map (fun c => c.2.memoryid)).Nodup :=
    h.decreasing.imp (fun {_ _} hgt => ne_of_gt hgt)
  rw [List.map_append, List.map_cons, List.nodup_middle, List.nodup_cons,
    ← List.map_append] at hids
  exact hids.1 (List.mem_map.mpr ⟨d, hd, heq⟩)

/-- The ledger without the number of `c`. -/
theorem filter_entries {l₁ l₂ : List (Nat × Entry)} {c : Nat × Entry}
    (hother : ∀ d ∈ l₁ ++ l₂, d.2.memoryid ≠ c.2.memoryid) :
    ((l₁ ++ c :: l₂).map Prod.snd).filter (fun e => e.memoryid ≠ c.2.memoryid) =
      (l₁ ++ l₂).map Prod.snd := by
  have hkeep : ((l₁ ++ l₂).map Prod.snd).filter (fun e => e.memoryid ≠ c.2.memoryid) =
      (l₁ ++ l₂).map Prod.snd := by
    refine List.filter_eq_self.mpr (fun e he => ?_)
    have ⟨d, hd, heq⟩ := List.mem_map.mp he
    exact decide_eq_true (heq ▸ hother d hd)
  rw [List.map_append, List.filter_append] at hkeep
  rw [List.map_append, List.map_cons, List.filter_append, List.filter_cons_of_neg (by simp),
    List.map_append]
  exact hkeep

theorem heap_of_free {a : Nat} (hop : s.free a = .ok s') :
    s'.heap = Function.update s.heap a none := by
  by_cases ha : s.heap a = none
  · rw [Sys.free, if_pos ha] at hop
    cases hop
  · rw [free_eq ha] at hop
    cases hop
    rfl

/-- `freememory` of the pointer of `c` changes the heap at nodes and at the block only. -/
theorem freememory_frame {l₁ l₂ : List (Nat × Entry)} {c : Nat × Entry} {a fuel : Nat}
    (h : OnLog s (l₁ ++ c :: l₂)) (ha : c.2.address = some a)
    (hother : ∀ d ∈ l₁, d.2.address ≠ some a) (hfuel : (l₁ ++ c :: l₂).length < fuel)
    (hop : freememory fuel s (some a) = .ok s') :
    s'.heap a = none ∧
      ∀ x, x ∉ (l₁ ++ c :: l₂).map Prod.fst → x ≠ a → s'.heap x = s.heap x := by
  have hless : l₁.length < fuel := by
    rw [List.length_append] at hfuel
    omega
  have hnodes : Holds s.heap (listSeg logLayout none ([] ++ l₁ ++ c :: l₂) none) := h.nodes
  have ⟨s₁, hremove, _, _, _, _, _, hframe⟩ :=
    removeLoop_found hnodes h.head hother ha hless
  have hfree : s₁.free a = .ok s' := by
    have hbind : (removeLoop (some a) fuel s s.head none).bind (fun s => s.free a) = .ok s' := hop
    rw [h.head] at hbind
    rw [← hbind]
    exact (congrArg (fun r => r.bind (fun s => s.free a)) hremove).symm
  rw [heap_of_free hfree]
  refine ⟨Function.update_self _ _ _, fun x hx hne => ?_⟩
  exact (Function.update_of_ne hne _ _).trans (hframe x hx)

/-- Option 3 of a number in the log takes its entry out and gives back its node and its block. -/
theorem Keeps.release_found {l₁ l₂ : List (Nat × Entry)} {c : Nat × Entry}
    (h : Keeps heap₀ s (l₁ ++ c :: l₂)) :
    ∃ s', release s c.2.memoryid = .ok s' ∧ s'.id = s.id ∧ Keeps heap₀ s' (l₁ ++ l₂) := by
  have hlog := h.onLog
  have ⟨a, bytes, ha, hblock⟩ := hlog.blocks c (by simp)
  have hdistinct := hlog.distinct
  rw [List.map_append, List.map_cons, List.nodup_middle, List.nodup_cons, ← List.map_append,
    ha] at hdistinct
  have hother : ∀ d ∈ l₁, d.2.address ≠ some a := fun d hd heq =>
    hdistinct.1 (List.mem_map.mpr ⟨d, List.mem_append_left l₂ hd, heq⟩)
  have hids := memoryid_ne hlog
  have ⟨s', hop, hlog', hid', _, hgone⟩ := freememory_rule hlog ha h.fuel
  have ⟨hfreed, hframe⟩ := freememory_frame hlog ha hother h.fuel hop
  have hdetails : detailsofmemoryid s.id.toNat s c.2.memoryid = .ok (some a) := by
    rw [detailsofmemoryid, hlog.head, ← ha]
    exact detailsLoop_some hlog.nodes h.fuel
      (fun d hd => hids d (List.mem_append_left l₂ hd)) rfl
  have hless : ∀ x, x ∈ owned (l₁ ++ l₂) → x ∈ owned (l₁ ++ c :: l₂) := by
    intro x hx
    have ⟨d, hd, hcase⟩ := mem_owned.mp hx
    exact mem_owned.mpr ⟨d, by simp at hd ⊢; tauto, hcase⟩
  refine ⟨s', ?_, hid', hlog', fun x hx => h.apart x (hless x hx), fun x hx => ?_⟩
  · show (detailsofmemoryid s.id.toNat s c.2.memoryid).bind (freememory s.id.toNat s) = _
    rw [hdetails]
    exact hop
  · by_cases hmem : x ∈ owned (l₁ ++ c :: l₂)
    · have ⟨d, hd, hcase⟩ := mem_owned.mp hmem
      have hdc : d = c := by
        by_contra hne
        have hd' : d ∈ l₁ ++ l₂ := by
          simp only [List.mem_append, List.mem_cons] at hd ⊢
          tauto
        exact hx (mem_owned.mpr ⟨d, hd', hcase⟩)
      rw [h.apart x hmem]
      rcases hcase with hnode | hblock
      · rw [hnode, hdc]
        exact hgone
      · rw [hdc, ha] at hblock
        rw [← Option.some.inj hblock]
        exact hfreed
    · have hnode : x ∉ (l₁ ++ c :: l₂).map Prod.fst := by
        intro hin
        have ⟨d, hd, heq⟩ := List.mem_map.mp hin
        exact hmem (mem_owned.mpr ⟨d, hd, .inl heq.symm⟩)
      have hne : x ≠ a := by
        intro heq
        exact hmem (mem_owned.mpr ⟨c, by simp, .inr (heq ▸ ha)⟩)
      rw [hframe x hnode hne]
      exact h.frame x hmem

/-- Option 3 of any number. -/
theorem Keeps.release (h : Keeps heap₀ s log) (memoryid : Int) :
    ∃ s' log', MemorySession.release s memoryid = .ok s' ∧ s'.id = s.id ∧
      Keeps heap₀ s' log' ∧
      log'.map Prod.snd = (log.map Prod.snd).filter (fun e => e.memoryid ≠ memoryid) := by
  by_cases hin : ∃ c ∈ log, c.2.memoryid = memoryid
  · have ⟨c, hc, hid⟩ := hin
    have ⟨l₁, l₂, hsplit⟩ := List.append_of_mem hc
    subst hsplit
    subst hid
    have ⟨s', hop, hid', hkeeps⟩ := h.release_found
    exact ⟨s', l₁ ++ l₂, hop, hid', hkeeps, (filter_entries (memoryid_ne h.onLog)).symm⟩
  · have hother : ∀ c ∈ log, c.2.memoryid ≠ memoryid := fun c hc hid => hin ⟨c, hc, hid⟩
    have hdetails : detailsofmemoryid s.id.toNat s memoryid = .ok none := by
      rw [detailsofmemoryid, h.onLog.head]
      exact detailsLoop_none h.onLog.nodes h.fuel hother
    refine ⟨s, log, ?_, rfl, h, ?_⟩
    · show (detailsofmemoryid s.id.toNat s memoryid).bind (freememory s.id.toNat s) = _
      rw [hdetails]
      rfl
    · refine (List.filter_eq_self.mpr (fun e he => ?_)).symm
      have ⟨d, hd, heq⟩ := List.mem_map.mp he
      exact decide_eq_true (heq ▸ hother d hd)

/-! ## Allocating -/

/-- Option 1 puts an entry in front, for a block and a node at free addresses. -/
theorem Keeps.allocate (h : Keeps heap₀ s log) {p q : Nat} (hfresh : Fresh s (some p) (some q))
    (hid : s.id < 2147483647) (bytes size : Nat) (type : String) :
    ∃ s', MemoryLog.allocate s bytes size type (some p) (some q) = .ok s' ∧
      s'.id = s.id + 1 ∧
      Keeps heap₀ s' ((q, ⟨s.id, some p, toInt size, type⟩) :: log) := by
  have ⟨hp, hq, hqp⟩ := hfresh
  have hblock := h.onLog.update (a := p) (by simp [hp]) (h.onLog.address_ne hp)
    (some (.block bytes)) s.frees
  have hq' : Function.update s.heap p (some (.block bytes)) q = none :=
    (Function.update_of_ne hqp _ _).trans hq
  have ⟨s', hadd, hlog, hheap, hid', _⟩ := add_rule hblock (Function.update_self p _ _)
    (h.onLog.address_ne hp) hq' hid size type
  have howned : ∀ x, x ∈ owned ((q, ⟨s.id, some p, toInt size, type⟩) :: log) ↔
      x = q ∨ x = p ∨ x ∈ owned log := by
    intro x
    simp [owned]
  refine ⟨s', hadd, hid', hlog, fun x hx => ?_, fun x hx => ?_⟩
  · rcases (howned x).mp hx with hxq | hxp | hmem
    · rw [hxq, ← h.frame q (h.not_owned hq)]
      exact hq
    · rw [hxp, ← h.frame p (h.not_owned hp)]
      exact hp
    · exact h.apart x hmem
  · rw [howned, not_or, not_or] at hx
    rw [hheap, Function.update_of_ne hx.1]
    exact (Function.update_of_ne hx.2.1 _ _).trans (h.frame x hx.2.2)

/-- What option 1 asks for is what it logs. -/
theorem allocation_eq {moc datatype size : Int} (ptr newnode : Ptr) :
    (requested moc datatype size = none ∧
        ∀ s, allocation s moc datatype size ptr newnode = .ok s) ∨
      ∃ (bytes n : Nat) (type : String),
        requested moc datatype size = some (toInt n, type) ∧
        ∀ s, allocation s moc datatype size ptr newnode =
          MemoryLog.allocate s bytes n type ptr newnode := by
  cases htype : sizeofType datatype with
  | none => exact .inl ⟨by rw [requested, htype], fun s => by rw [allocation, htype]⟩
  | some elt =>
      by_cases hmalloc : moc = 1
      · obtain ⟨n, hn⟩ : ∃ n, n = (UInt32.ofNat (toSize size * elt % 2 ^ 64)).toNat := ⟨_, rfl⟩
        refine .inr ⟨n, n, "malloc", ?_, fun s => ?_⟩
        · rw [requested, htype, hn]
          exact if_pos hmalloc
        · rw [allocation, htype, hn]
          exact if_pos hmalloc
      · by_cases hcalloc : moc = 2
        · refine .inr ⟨(UInt32.ofInt size).toNat * (UInt32.ofNat elt).toNat,
            (UInt32.ofInt size * UInt32.ofNat elt).toNat, "calloc", ?_, fun s => ?_⟩
          · rw [requested, htype]
            exact (if_neg hmalloc).trans (if_pos hcalloc)
          · rw [allocation, htype]
            exact (if_neg hmalloc).trans (if_pos hcalloc)
        · refine .inl ⟨?_, fun s => ?_⟩
          · rw [requested, htype]
            exact (if_neg hmalloc).trans (if_neg hcalloc)
          · rw [allocation, htype]
            exact (if_neg hmalloc).trans (if_neg hcalloc)

/-- What the system allocator answers to an allocation, and that it has memory for the node. -/
def Granted (s : Sys) (moc datatype size : Int) (ptr newnode : Ptr) : Prop :=
  requested moc datatype size ≠ none → Fresh s ptr newnode ∧ HasNode s ptr newnode

instance (s : Sys) (moc datatype size : Int) (ptr newnode : Ptr) :
    Decidable (Granted s moc datatype size ptr newnode) := by
  unfold Granted HasNode
  infer_instance

/-- The log as a ledger. -/
def ledger (s : Sys) (log : List (Nat × Entry)) : Ledger := ⟨s.id, log.map Prod.snd⟩

/-- Option 1 up to the display. -/
theorem Keeps.allocation (h : Keeps heap₀ s log) {moc datatype size : Int} {ptr newnode : Ptr}
    (hgranted : Granted s moc datatype size ptr newnode) :
    ∃ s' log', MemoryMenu.allocation s moc datatype size ptr newnode = .ok s' ∧
      Keeps heap₀ s' log' ∧
      ledger s' log' = (ledger s log).allocate moc datatype size ptr := by
  rcases allocation_eq ptr newnode with ⟨hnone, hop⟩ | ⟨bytes, n, type, hsome, hop⟩
  · refine ⟨s, log, hop s, h, ?_⟩
    cases ptr with
    | none => rfl
    | some p => simp only [Ledger.allocate, hnone]
  · have ⟨hfresh, hnode⟩ := hgranted (by simp [hsome])
    rw [hop]
    cases ptr with
    | none => exact ⟨s, log, rfl, h, rfl⟩
    | some p =>
        have ⟨hnew, hid⟩ := hnode (Option.some_ne_none p)
        have ⟨q, hq⟩ := Option.ne_none_iff_exists'.mp hnew
        subst hq
        have ⟨s', hallocate, hid', hkeeps⟩ := h.allocate hfresh hid bytes n type
        refine ⟨s', _, hallocate, hkeeps, ?_⟩
        simp only [Ledger.allocate, hsome, ledger, hid', List.map_cons]

/-! ## A session -/

/-- The ledger shows the same as the program, whose log is on the heap, and the program goes
on. -/
def Agrees (heap₀ : Heap Cell) (s : Session Sys) (l : Session Ledger) : Prop :=
  s.pc ≠ .exited ∧ l.pc = s.pc ∧ l.printed = s.printed ∧ l.file = s.file ∧
    ∃ log, Keeps heap₀ s.log log ∧ l.log = ledger s.log log

/-- Option 1 gets its answers when the size has been read. -/
def InputOk (s : Session Sys) (a : Input) : Prop :=
  match s.pc, a.n with
  | .size moc datatype, some size => Granted s.log moc datatype size a.ptr a.newnode
  | _, _ => True

instance (s : Session Sys) (a : Input) : Decidable (InputOk s a) := by
  unfold InputOk
  split <;> infer_instance

variable {t t' : Session Sys} {l l' : Session Ledger}

theorem Agrees.list_eq (h : Agrees heap₀ t l) :
    ∃ entries, heapOps.list t.log = some entries ∧ ledgerOps.list l.log = some entries := by
  have ⟨_, _, _, _, log, hkeeps, hlog⟩ := h
  refine ⟨_, hkeeps.list_eq, ?_⟩
  rw [hlog]
  rfl

/-- Going to another prompt. -/
theorem Agrees.goto (h : Agrees heap₀ t l) {pc : Pc} (hpc : pc ≠ .exited) :
    Agrees heap₀ { t with pc := pc } { l with pc := pc } := by
  have ⟨_, _, hprinted, hfile, hlog⟩ := h
  exact ⟨hpc, rfl, hprinted, hfile, hlog⟩

theorem Agrees.display (h : Agrees heap₀ t l) :
    ∃ t' l', MemorySession.display heapOps t = some t' ∧
      MemorySession.display ledgerOps l = some l' ∧ Agrees heap₀ t' l' := by
  have ⟨entries, hheap, hledger⟩ := h.list_eq
  have ⟨_, _, hprinted, hfile, hlog⟩ := h
  refine ⟨{ t with pc := .menu, printed := t.printed ++ [entries] },
    { l with pc := .menu, printed := l.printed ++ [entries] }, ?_, ?_, ?_⟩
  · rw [MemorySession.display, hheap]
    rfl
  · rw [MemorySession.display, hledger]
    rfl
  · refine ⟨Pc.noConfusion, rfl, ?_, hfile, hlog⟩
    show l.printed ++ [entries] = t.printed ++ [entries]
    rw [hprinted]

theorem Agrees.exportmemory (h : Agrees heap₀ t l) (opened : Bool) :
    ∃ t' l', MemorySession.exportmemory heapOps t opened = some t' ∧
      MemorySession.exportmemory ledgerOps l opened = some l' ∧ Agrees heap₀ t' l' := by
  have ⟨entries, hheap, hledger⟩ := h.list_eq
  have ⟨hpc, hsame, hprinted, hfile, hlog⟩ := h
  rw [MemorySession.exportmemory, MemorySession.exportmemory, hheap, hledger]
  cases opened with
  | false => exact ⟨t, l, rfl, rfl, h⟩
  | true => exact ⟨_, _, rfl, rfl, hpc, hsame, hprinted, rfl, hlog⟩

/-- The options that the test in front of the menu lets through. -/
theorem Agrees.choose (h : Agrees heap₀ t l) {options : Int} (hoption : options ≤ 4)
    (opened : Bool) :
    ∃ t' l', MemorySession.choose heapOps t options opened = some t' ∧
      MemorySession.choose ledgerOps l options opened = some l' ∧ Agrees heap₀ t' l' := by
  unfold MemorySession.choose
  by_cases hfirst : options = 1
  · rw [if_pos hfirst, if_pos hfirst]
    exact ⟨_, _, rfl, rfl, h.goto Pc.noConfusion⟩
  rw [if_neg hfirst, if_neg hfirst]
  by_cases hsecond : options = 2
  · rw [if_pos hsecond, if_pos hsecond]
    exact h.display
  rw [if_neg hsecond, if_neg hsecond]
  by_cases hthird : options = 3
  · have ⟨entries, hheap, hledger⟩ := h.list_eq
    have ⟨t₁, l₁, hdisplay, hdisplay', hshown⟩ := h.display
    rw [if_pos hthird, if_pos hthird, hheap, hledger, hdisplay, hdisplay']
    by_cases hempty : entries = []
    · exact ⟨_, _, congrArg some (if_pos hempty), congrArg some (if_pos hempty), hshown⟩
    · exact ⟨_, _, congrArg some (if_neg hempty), congrArg some (if_neg hempty),
        hshown.goto Pc.noConfusion⟩
  rw [if_neg hthird, if_neg hthird]
  by_cases hfourth : options = 4
  · rw [if_pos hfourth, if_pos hfourth]
    exact h.exportmemory opened
  have hfifth : options ≠ 5 := by omega
  rw [if_neg hfourth, if_neg hfourth, if_neg hfifth, if_neg hfifth]
  exact ⟨t, l, rfl, rfl, h⟩

/-- **One prompt.**  Whatever is typed in, the program comes to the next prompt, and the ledger
to the same. -/
theorem Agrees.step (h : Agrees heap₀ t l) {a : Input} (hok : InputOk t a) :
    ∃ t' l', MemorySession.step heapOps t a = some t' ∧
      MemorySession.step ledgerOps l a = some l' ∧ Agrees heap₀ t' l' := by
  have ⟨hexited, hsame, hprinted, hfile, log, hkeeps, hlog⟩ := h
  unfold MemorySession.step
  rw [hsame]
  unfold InputOk at hok
  cases hpc : t.pc with
  | exited => exact absurd hpc hexited
  | menu =>
      cases a.n with
      | none => exact ⟨t, l, rfl, rfl, h⟩
      | some options =>
          by_cases hrefused : options ≤ 0 ∨ options > 4
          · exact ⟨t, l, if_pos hrefused, if_pos hrefused, h⟩
          · have hoption : options ≤ 4 := by omega
            have ⟨t', l', hchoose, hchoose', hagrees⟩ := h.choose hoption a.opened
            exact ⟨t', l', (if_neg hrefused).trans hchoose, (if_neg hrefused).trans hchoose',
              hagrees⟩
  | moc =>
      cases a.n with
      | none => exact ⟨t, l, rfl, rfl, h⟩
      | some moc =>
          by_cases hrefused : moc ≤ 0 ∨ moc > 3
          · exact ⟨t, l, if_pos hrefused, if_pos hrefused, h⟩
          · exact ⟨_, _, if_neg hrefused, if_neg hrefused, h.goto Pc.noConfusion⟩
  | datatype moc =>
      cases a.n with
      | none => exact ⟨t, l, rfl, rfl, h⟩
      | some datatype =>
          by_cases hrefused : datatype ≤ 0 ∨ datatype > 5
          · exact ⟨t, l, if_pos hrefused, if_pos hrefused, h⟩
          · exact ⟨_, _, if_neg hrefused, if_neg hrefused, h.goto Pc.noConfusion⟩
  | size moc datatype =>
      cases hn : a.n with
      | none => exact ⟨t, l, rfl, rfl, h⟩
      | some size =>
          rw [hpc, hn] at hok
          have ⟨s', log', hop, hkeeps', hledger⟩ := hkeeps.allocation hok
          have hallocated : Agrees heap₀ { t with log := s' }
              { l with log := l.log.allocate moc datatype size a.ptr } :=
            ⟨hexited, hsame, hprinted, hfile, log', hkeeps', by rw [hlog, hledger]⟩
          have ⟨t', l', hdisplay, hdisplay', hagrees⟩ := hallocated.display
          refine ⟨t', l', ?_, hdisplay', hagrees⟩
          show ((allocation t.log moc datatype size a.ptr a.newnode).toOption).bind
            (fun s => MemorySession.display heapOps { t with log := s }) = _
          rw [hop]
          exact hdisplay
  | memoryid =>
      cases a.n with
      | none => exact ⟨_, _, rfl, rfl, h.goto Pc.noConfusion⟩
      | some id =>
          have ⟨s', log', hop, hid, hkeeps', hledger⟩ := hkeeps.release id
          refine ⟨{ t with log := s', pc := .menu }, _, ?_, rfl, Pc.noConfusion, rfl, hprinted,
            hfile, log', hkeeps', ?_⟩
          · show ((MemorySession.release t.log id).toOption).bind
              (fun s => some { t with log := s, pc := .menu }) = _
            rw [hop]
            rfl
          · rw [ledger, hid, hledger, hlog]
            rfl

theorem agrees_start (heap₀ : Heap Cell) :
    Agrees heap₀ (.start (Sys.init heap₀)) (.start ⟨1, []⟩) :=
  ⟨Pc.noConfusion, rfl, rfl, rfl, [], keeps_init heap₀, rfl⟩

/-- The blocks of the ledger are allocated, all at different addresses, under decreasing
numbers. -/
def Tracked (heap : Heap Cell) (l : Ledger) : Prop :=
  (l.entries.map Entry.memoryid).Pairwise (· > ·) ∧ (l.entries.map Entry.address).Nodup ∧
    ∀ e ∈ l.entries, ∃ a bytes, e.address = some a ∧ heap a = some (.block bytes)

theorem Keeps.tracked (h : Keeps heap₀ s log) : Tracked s.heap (ledger s log) := by
  have ⟨hdecreasing, hdistinct, hblocks⟩ := And.intro h.onLog.decreasing
    (And.intro h.onLog.distinct h.onLog.blocks)
  refine ⟨?_, ?_, fun e he => ?_⟩
  · rw [ledger, List.map_map]
    exact hdecreasing
  · rw [ledger, List.map_map]
    exact hdistinct
  · have ⟨c, hc, heq⟩ := List.mem_map.mp he
    exact heq ▸ hblocks c hc

/-- Besides the heap of the other code there are the blocks of the ledger and a node for each. -/
def AllocatedBy (heap₀ heap : Heap Cell) (l : Ledger) : Prop :=
  ∃ nodes : List Nat, nodes.length = l.entries.length ∧ nodes.Nodup ∧
    (∀ x ∈ nodes, ∃ n, heap x = some (.node n)) ∧
    ∀ x, heap x ≠ none ↔
      heap₀ x ≠ none ∨ x ∈ nodes ∨ ∃ e ∈ l.entries, e.address = some x

theorem Keeps.allocatedBy (h : Keeps heap₀ s log) :
    AllocatedBy heap₀ s.heap (ledger s log) := by
  have hnodup : (log.map Prod.fst).Nodup := by
    have hnodes := h.onLog.nodes
    rw [← add_zero (listSeg logLayout none log none)] at hnodes
    exact nodup_of_holds logLayout hnodes
  refine ⟨log.map Prod.fst, by simp [ledger], hnodup, fun x hx => ?_, fun x => ?_⟩
  · have ⟨c, hc, heq⟩ := List.mem_map.mp hx
    have ⟨next, hread⟩ := h.onLog.read hc
    exact ⟨_, heq ▸ hread⟩
  · rw [h.allocated_iff, mem_owned]
    simp only [ledger, List.mem_map]
    constructor
    · rintro (hother | ⟨c, hc, hnode | hblock⟩)
      · exact .inl hother
      · exact .inr (.inl ⟨c, hc, hnode.symm⟩)
      · exact .inr (.inr ⟨c.2, ⟨c, hc, rfl⟩, hblock⟩)
    · rintro (hother | ⟨c, hc, hnode⟩ | ⟨_, ⟨c, hc, rfl⟩, hblock⟩)
      · exact .inl hother
      · exact .inr ⟨c, hc, .inl hnode.symm⟩
      · exact .inr ⟨c, hc, .inr hblock⟩

/-- **A session refines the ledger.**  Whatever is typed in, the program never comes to the exit
or a fault, shows and exports what the ledger does, and has nothing allocated but the blocks of
the ledger and their nodes. -/
theorem session_refines {heap₀ : Heap Cell} {as : List Input}
    (hok : Admitted (step heapOps) InputOk (.start (Sys.init heap₀)) as) :
    ∃ t l, run (step heapOps) (.start (Sys.init heap₀)) as = some t ∧
      run (step ledgerOps) (.start ⟨1, []⟩) as = some l ∧ t.pc ≠ .exited ∧ l.pc = t.pc ∧
      l.printed = t.printed ∧ l.file = t.file ∧ Tracked t.log.heap l.log ∧
      AllocatedBy heap₀ t.log.heap l.log := by
  have hsim : ∀ t l a, Agrees heap₀ t l → InputOk t a → ∃ t' l', step heapOps t a = some t' ∧
      step ledgerOps l a = some l' ∧ Agrees heap₀ t' l' :=
    fun _ _ _ hagrees hinput => hagrees.step hinput
  have ⟨t, l, hrun, hledger, hagrees⟩ := run_simulates hsim (agrees_start heap₀) hok
  have ⟨hexited, hpc, hprinted, hfile, log, hkeeps, hlog⟩ := hagrees
  refine ⟨t, l, hrun, hledger, hexited, hpc, hprinted, hfile, ?_, ?_⟩
  · rw [hlog]
    exact hkeeps.tracked
  · rw [hlog]
    exact hkeeps.allocatedBy

/-- Three `int`s from `malloc` and two `double`s from `calloc`, the first block freed, with an
option 5 that is refused on the way. -/
def twoBlocks : List Input :=
  [⟨some 1, none, none, false⟩, ⟨some 1, none, none, false⟩, ⟨some 1, none, none, false⟩,
    ⟨some 3, some 100, some 200, false⟩, ⟨some 5, none, none, false⟩,
    ⟨some 1, none, none, false⟩, ⟨some 2, none, none, false⟩, ⟨some 4, none, none, false⟩,
    ⟨some 2, some 300, some 400, false⟩, ⟨some 3, none, none, false⟩,
    ⟨some 1, none, none, false⟩, ⟨some 4, none, none, true⟩]

theorem session_refines_twoBlocks :
    ∃ t l, run (step heapOps) (.start (Sys.init (fun _ => none))) twoBlocks = some t ∧
      run (step ledgerOps) (.start ⟨1, []⟩) twoBlocks = some l ∧
      l.file = some [⟨2, some 300, 16, "calloc"⟩] ∧ t.file = l.file ∧
      AllocatedBy (fun _ => none) t.log.heap l.log := by
  have ⟨t, hguarded⟩ : ∃ t, run (guarded (step heapOps) InputOk)
      (.start (Sys.init (fun _ => none))) twoBlocks = some t := ⟨_, rfl⟩
  have ⟨t, l, hrun, hledger, _, _, _, hfile, _, hallocated⟩ :=
    session_refines (.of_guarded hguarded)
  have hexported : (run (step ledgerOps) (.start ⟨1, []⟩) twoBlocks).map Session.file =
      some (some [⟨2, some 300, 16, "calloc"⟩]) := by decide
  rw [hledger] at hexported
  exact ⟨t, l, hrun, hledger, Option.some.inj hexported, hfile.symm, hallocated⟩

end SystemsInC.Ports.MemorySession
