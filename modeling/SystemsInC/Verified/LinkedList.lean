import Mathlib.Algebra.Order.Group.Multiset
import Mathlib.Data.List.Induction
import Mathlib.Tactic.Abel
import Mathlib.Tactic.Convert
import SystemsInC.Verified.CellHeap

/-!
# Linked lists on a heap

`listSeg L p l q` is the part of a heap that holds the list `l`, from the pointer
`p` before it to the pointer `q` after it.  A `Layout` says where a record keeps
its two links; a singly linked list is one whose layout has no room for the link
back.
-/

namespace SystemsInC.Verified.LinkedList

open SystemsInC.Verified.CellHeap

variable {ν α : Type*}

/-- Records with a payload and two links. -/
structure Layout (ν α : Type*) where
  cell : ν → Ptr → Ptr → α
  setPrev : Ptr → α → α
  setNext : Ptr → α → α
  setPrev_cell : ∀ p v q r, setPrev p (cell v q r) = cell v p r
  setNext_cell : ∀ p v q r, setNext p (cell v q r) = cell v q p

/-- The first address, or what follows an empty list. -/
def headPtr : List (Nat × ν) → Ptr → Ptr
  | [], q => q
  | c :: _, _ => some c.1

/-- The last address, or what precedes an empty list. -/
def lastPtr : List (Nat × ν) → Ptr → Ptr
  | [], p => p
  | c :: l, _ => lastPtr l (some c.1)

/-- The cells of a list. -/
def listSeg (L : Layout ν α) : Ptr → List (Nat × ν) → Ptr → Multiset (Nat × α)
  | _, [], _ => 0
  | p, c :: l, q => {(c.1, L.cell c.2 p (headPtr l q))} + listSeg L (some c.1) l q

/-- The cells of a list, in its order. -/
def records (L : Layout ν α) : Ptr → List (Nat × ν) → Ptr → List (Nat × α)
  | _, [], _ => []
  | p, c :: l, q => (c.1, L.cell c.2 p (headPtr l q)) :: records L (some c.1) l q

/-- Follow the links forward from a pointer; `fuel` bounds the steps. -/
def walk (h : Heap α) (next : α → Ptr) : Nat → Ptr → Option (List (Nat × α))
  | 0, _ => none
  | _ + 1, none => some []
  | fuel + 1, some a => do
      let r ← h a
      let rest ← walk h next fuel (next r)
      return (a, r) :: rest

@[simp] theorem headPtr_nil (q : Ptr) : headPtr ([] : List (Nat × ν)) q = q := rfl

@[simp] theorem headPtr_cons (c : Nat × ν) (l : List (Nat × ν)) (q : Ptr) :
    headPtr (c :: l) q = some c.1 := rfl

theorem headPtr_eq_head? (l : List (Nat × ν)) : headPtr l none = (l.map Prod.fst).head? := by
  cases l <;> rfl

@[simp] theorem lastPtr_nil (p : Ptr) : lastPtr ([] : List (Nat × ν)) p = p := rfl

@[simp] theorem lastPtr_cons (c : Nat × ν) (l : List (Nat × ν)) (p : Ptr) :
    lastPtr (c :: l) p = lastPtr l (some c.1) := rfl

theorem headPtr_append (l m : List (Nat × ν)) (q : Ptr) :
    headPtr (l ++ m) q = headPtr l (headPtr m q) := by
  cases l <;> rfl

theorem lastPtr_append (l m : List (Nat × ν)) (p : Ptr) :
    lastPtr (l ++ m) p = lastPtr m (lastPtr l p) := by
  induction l generalizing p with
  | nil => rfl
  | cons c l ih => exact ih _

@[simp] theorem lastPtr_concat (l : List (Nat × ν)) (c : Nat × ν) (p : Ptr) :
    lastPtr (l ++ [c]) p = some c.1 := by
  rw [lastPtr_append, lastPtr_cons, lastPtr_nil]

theorem lastPtr_eq_getLast? (l : List (Nat × ν)) :
    lastPtr l none = (l.map Prod.fst).getLast? := by
  induction l using List.reverseRecOn with
  | nil => rfl
  | append_singleton l c _ =>
      rw [lastPtr_concat, List.map_append, List.map_singleton, List.getLast?_append_cons,
        List.getLast?_singleton]

section Segments

variable (L : Layout ν α)

@[simp] theorem listSeg_nil (p q : Ptr) : listSeg L p [] q = 0 := rfl

theorem listSeg_cons (p q : Ptr) (c : Nat × ν) (l : List (Nat × ν)) :
    listSeg L p (c :: l) q =
      {(c.1, L.cell c.2 p (headPtr l q))} + listSeg L (some c.1) l q := rfl

theorem listSeg_append (p q : Ptr) (l m : List (Nat × ν)) :
    listSeg L p (l ++ m) q = listSeg L p l (headPtr m q) + listSeg L (lastPtr l p) m q := by
  induction l generalizing p with
  | nil => simp
  | cons c l ih =>
      rw [List.cons_append, listSeg_cons, listSeg_cons, ih, headPtr_append, lastPtr_cons,
        add_assoc]

theorem map_fst_listSeg (p q : Ptr) (l : List (Nat × ν)) :
    (listSeg L p l q).map Prod.fst = (l.map Prod.fst : Multiset Nat) := by
  induction l generalizing p with
  | nil => rfl
  | cons c l ih =>
      rw [listSeg_cons, Multiset.map_add, Multiset.map_singleton, ih, List.map_cons,
        ← Multiset.cons_coe, Multiset.singleton_add]

/-- The addresses of a list on the heap are distinct. -/
theorem nodup_of_holds {h : Heap α} {p q : Ptr} {l : List (Nat × ν)} {s : Multiset (Nat × α)}
    (hl : Holds h (listSeg L p l q + s)) : (l.map Prod.fst).Nodup := by
  have hnodup := hl.left.nodup
  rwa [map_fst_listSeg, Multiset.coe_nodup] at hnodup

/-- A member of a list is a cell with the payload of the list. -/
theorem exists_cell {h : Heap α} {p q : Ptr} {l : List (Nat × ν)} {s : Multiset (Nat × α)}
    (hl : Holds h (listSeg L p l q + s)) {c : Nat × ν} (hc : c ∈ l) :
    ∃ r r', h c.1 = some (L.cell c.2 r r') := by
  obtain ⟨l₁, l₂, rfl⟩ := List.append_of_mem hc
  rw [listSeg_append, listSeg_cons] at hl
  exact ⟨_, _, hl.left.right.cell⟩

/-- Change the link back of the first cell. -/
theorem setPrev_rule {h : Heap α} {p q : Ptr} {c : Nat × ν} {l : List (Nat × ν)}
    {s : Multiset (Nat × α)} (hl : Holds h (listSeg L p (c :: l) q + s)) (p' : Ptr) :
    ∃ h', modify h (some c.1) (L.setPrev p') = some h' ∧
      Holds h' (listSeg L p' (c :: l) q + s) := by
  rw [listSeg_cons, add_assoc] at hl
  obtain ⟨h', hop, hh'⟩ := hl.write (L.setPrev p')
  rw [L.setPrev_cell] at hh'
  exact ⟨h', hop, by rw [listSeg_cons, add_assoc]; exact hh'⟩

/-- Change the link forward of the last cell. -/
theorem setNext_rule {h : Heap α} {p q : Ptr} {c : Nat × ν} {l : List (Nat × ν)}
    {s : Multiset (Nat × α)} (hl : Holds h (listSeg L p (l ++ [c]) q + s)) (q' : Ptr) :
    ∃ h', modify h (some c.1) (L.setNext q') = some h' ∧
      Holds h' (listSeg L p (l ++ [c]) q' + s) := by
  have hsplit : Holds h ({(c.1, L.cell c.2 (lastPtr l p) q)} +
      (listSeg L p l (some c.1) + s)) := by
    rw [listSeg_append, listSeg_cons] at hl
    convert hl using 1
    simp only [listSeg_nil, headPtr_nil, headPtr_cons]
    abel
  obtain ⟨h', hop, hh'⟩ := hsplit.write (L.setNext q')
  rw [L.setNext_cell] at hh'
  refine ⟨h', hop, ?_⟩
  rw [listSeg_append, listSeg_cons]
  convert hh' using 1
  simp only [listSeg_nil, headPtr_nil, headPtr_cons]
  abel

theorem records_concat (p q : Ptr) (l : List (Nat × ν)) (c : Nat × ν) :
    records L p (l ++ [c]) q = records L p l (some c.1) ++ [(c.1, L.cell c.2 (lastPtr l p) q)] := by
  induction l generalizing p with
  | nil => rfl
  | cons d l ih =>
      rw [List.cons_append, records, records, ih, headPtr_append]
      rfl

/-- What does not depend on the links is the same along the cells as along the list. -/
theorem map_records {β : Type*} {g : Nat × α → β} {g' : Nat × ν → β}
    (hg : ∀ c q r, g (c.1, L.cell c.2 q r) = g' c) (p q : Ptr) (l : List (Nat × ν)) :
    (records L p l q).map g = l.map g' := by
  induction l generalizing p with
  | nil => rfl
  | cons c l ih => rw [records, List.map_cons, List.map_cons, hg, ih]

theorem exists_mem_records {l : List (Nat × ν)} {c : Nat × ν} (h : c ∈ l) (p q : Ptr) :
    ∃ r r', (c.1, L.cell c.2 r r') ∈ records L p l q := by
  induction l generalizing p with
  | nil => cases h
  | cons d l ih =>
      rcases List.mem_cons.mp h with rfl | h
      · exact ⟨_, _, List.mem_cons_self⟩
      · have ⟨r, r', hmem⟩ := ih h (some d.1)
        exact ⟨r, r', List.mem_cons_of_mem _ hmem⟩

theorem mem_records {p q : Ptr} {l : List (Nat × ν)} {cell : Nat × α}
    (h : cell ∈ records L p l q) :
    ∃ c ∈ l, ∃ r r', cell = (c.1, L.cell c.2 r r') := by
  induction l generalizing p with
  | nil => simp [records] at h
  | cons c l ih =>
      rcases List.mem_cons.mp h with rfl | h
      · exact ⟨c, List.mem_cons_self, _, _, rfl⟩
      · obtain ⟨d, hd, hcell⟩ := ih h
        exact ⟨d, List.mem_cons_of_mem _ hd, hcell⟩

/-- A walk over a list on the heap passes its cells. -/
theorem walk_rule (next : α → Ptr) (hnext : ∀ v q r, next (L.cell v q r) = r) {h : Heap α}
    {s : Multiset (Nat × α)} {l : List (Nat × ν)} :
    ∀ {p : Ptr}, Holds h (listSeg L p l none + s) → ∀ fuel, l.length < fuel →
      walk h next fuel (headPtr l none) = some (records L p l none) := by
  induction l with
  | nil =>
      intro p _ fuel hfuel
      obtain ⟨n, rfl⟩ : ∃ n, fuel = n + 1 := ⟨fuel - 1, by omega⟩
      rfl
  | cons c l ih =>
      intro p hl fuel hfuel
      rw [List.length_cons] at hfuel
      obtain ⟨n, rfl⟩ : ∃ n, fuel = n + 1 := ⟨fuel - 1, by omega⟩
      rw [listSeg_cons, add_assoc] at hl
      have hrest := ih hl.right n (by omega)
      rw [headPtr_cons, walk, hl.cell]
      simp only [Option.bind_eq_bind, Option.bind_some, hnext, hrest]
      rfl

/-- A walk back over a list on the heap passes its cells from the last one on. -/
theorem walk_back_rule (prev : α → Ptr) (hprev : ∀ v q r, prev (L.cell v q r) = q) {h : Heap α}
    {l : List (Nat × ν)} :
    ∀ {q : Ptr} {s : Multiset (Nat × α)}, Holds h (listSeg L none l q + s) →
      ∀ fuel, l.length < fuel →
        walk h prev fuel (lastPtr l none) = some (records L none l q).reverse := by
  induction l using List.reverseRecOn with
  | nil =>
      intro q s _ fuel hfuel
      obtain ⟨n, rfl⟩ : ∃ n, fuel = n + 1 := ⟨fuel - 1, by omega⟩
      rfl
  | append_singleton l c ih =>
      intro q s hl fuel hfuel
      rw [List.length_append, List.length_singleton] at hfuel
      obtain ⟨n, rfl⟩ : ∃ n, fuel = n + 1 := ⟨fuel - 1, by omega⟩
      rw [listSeg_append, listSeg_cons, listSeg_nil, add_zero, headPtr_cons, headPtr_nil,
        add_assoc] at hl
      have hrest := ih hl n (by omega)
      rw [lastPtr_concat, walk, hl.right.cell]
      simp only [Option.bind_eq_bind, Option.bind_some, hprev, hrest, records_concat,
        List.reverse_append]
      rfl

end Segments

end SystemsInC.Verified.LinkedList
