import Mathlib.Data.Multiset.MapFold
import Mathlib.Logic.Function.Basic

/-!
# Heaps of records

A heap maps addresses to records; a pointer is an address or NULL, and an access
through NULL or through a dangling pointer fails.  `Holds h s` says that the
cells of `s` are in `h` at distinct addresses.  A sum of multisets is thus a
separating conjunction, and what is not mentioned by a write is framed by
`Holds.write`.
-/

namespace SystemsInC.Verified.CellHeap

variable {α : Type*}

abbrev Ptr := Option Nat

abbrev Heap (α : Type*) := Nat → Option α

/-- Read the record a pointer points to. -/
def load (h : Heap α) (p : Ptr) : Option α := p.bind h

/-- Write through a pointer: `f` is what happens to the record. -/
def modify (h : Heap α) (p : Ptr) (f : α → α) : Option (Heap α) :=
  p.bind (fun a => (h a).map (fun n => Function.update h a (some (f n))))

@[simp] theorem load_none (h : Heap α) : load h none = none := rfl

@[simp] theorem load_some (h : Heap α) (a : Nat) : load h (some a) = h a := rfl

/-- The cells of `s` are in the heap, at distinct addresses. -/
structure Holds (h : Heap α) (s : Multiset (Nat × α)) : Prop where
  read : ∀ c ∈ s, h c.1 = some c.2
  nodup : (s.map Prod.fst).Nodup

theorem Holds.mono {h : Heap α} {s t : Multiset (Nat × α)} (hs : Holds h s) (hle : t ≤ s) :
    Holds h t :=
  { read := fun c hc => hs.read c (Multiset.mem_of_le hle hc)
    nodup := Multiset.nodup_of_le (Multiset.map_le_map hle) hs.nodup }

theorem Holds.left {h : Heap α} {s t : Multiset (Nat × α)} (hs : Holds h (s + t)) : Holds h s :=
  hs.mono (Multiset.le_add_right s t)

theorem Holds.right {h : Heap α} {s t : Multiset (Nat × α)} (hs : Holds h (s + t)) : Holds h t :=
  hs.mono (Multiset.le_add_left t s)

theorem Holds.cell {h : Heap α} {s : Multiset (Nat × α)} {a : Nat} {n : α}
    (hs : Holds h ({(a, n)} + s)) : h a = some n :=
  hs.read (a, n) (by simp)

theorem holds_zero (h : Heap α) : Holds h 0 :=
  { read := by simp
    nodup := by simp }

/-- A cell is apart from the rest. -/
theorem Holds.not_mem {h : Heap α} {s : Multiset (Nat × α)} {a : Nat} {n : α}
    (hs : Holds h ({(a, n)} + s)) : a ∉ s.map Prod.fst := by
  have hnodup := hs.nodup
  rw [Multiset.singleton_add, Multiset.map_cons, Multiset.nodup_cons] at hnodup
  exact hnodup.1

theorem Holds.ne {h : Heap α} {s : Multiset (Nat × α)} {a : Nat} {n : α}
    (hs : Holds h ({(a, n)} + s)) {c : Nat × α} (hc : c ∈ s) : c.1 ≠ a := by
  rintro rfl
  exact hs.not_mem (Multiset.mem_map_of_mem Prod.fst hc)

/-- Writing outside `s`. -/
theorem Holds.update {h : Heap α} {s : Multiset (Nat × α)} (hs : Holds h s) {a : Nat}
    (ha : a ∉ s.map Prod.fst) (v : Option α) : Holds (Function.update h a v) s := by
  refine { read := fun c hc => ?_, nodup := hs.nodup }
  have hne : c.1 ≠ a := by
    rintro rfl
    exact ha (Multiset.mem_map_of_mem Prod.fst hc)
  rw [Function.update_of_ne hne]
  exact hs.read c hc

/-- A new cell. -/
theorem Holds.alloc {h : Heap α} {s : Multiset (Nat × α)} (hs : Holds h s) {a : Nat}
    (ha : a ∉ s.map Prod.fst) (n : α) :
    Holds (Function.update h a (some n)) ({(a, n)} + s) := by
  have hframe := hs.update ha (some n)
  refine { read := fun c hc => ?_, nodup := ?_ }
  · rcases Multiset.mem_add.mp hc with hc | hc
    · obtain rfl := Multiset.mem_singleton.mp hc
      exact Function.update_self _ _ _
    · exact hframe.read c hc
  · rw [Multiset.singleton_add, Multiset.map_cons, Multiset.nodup_cons]
    exact ⟨ha, hs.nodup⟩

/-- Giving a cell back. -/
theorem Holds.free {h : Heap α} {s : Multiset (Nat × α)} {a : Nat} {n : α}
    (hs : Holds h ({(a, n)} + s)) : Holds (Function.update h a none) s :=
  hs.right.update hs.not_mem none

/-- **The frame rule**: a write changes its own cell and no other. -/
theorem Holds.write {h : Heap α} {s : Multiset (Nat × α)} {a : Nat} {n : α}
    (hs : Holds h ({(a, n)} + s)) (f : α → α) :
    ∃ h', modify h (some a) f = some h' ∧ Holds h' ({(a, f n)} + s) := by
  refine ⟨Function.update h a (some (f n)), ?_, hs.right.alloc hs.not_mem (f n)⟩
  simp [modify, hs.cell]

end SystemsInC.Verified.CellHeap
