import Mathlib.Algebra.Order.Group.Multiset
import Mathlib.Tactic.Abel
import Mathlib.Tactic.Convert
import SystemsInC.Ports.RedBlackHeap

/-!
# The heap of a red-black tree

`OnHeap m t` says that the nodes of `t` are in the heap, each at an address of its
own, each pointing to its two children and back to its parent, and that the root
pointer points to the first.  Each function of `RedBlackHeap` has a rule that
says what it does to the tree; the rules use a path to the place where the
function works, and `cells_plug` separates the heap along it.
-/

namespace SystemsInC.Ports.RedBlackShape

open SystemsInC.Verified.CellHeap
open SystemsInC.Verified.TreeZipper
open SystemsInC.Ports.RedBlackHeap (Color RbNode RbMem)

/-! ## Trees as heaps -/

structure RbVal where
  key : Int
  color : Color
  deriving DecidableEq, Repr

def RbVal.paint (c : Color) (v : RbVal) : RbVal := { v with color := c }

abbrev RbTree := HeapTree RbVal

abbrev RbPath := List (Frame RbVal)

/-- The record of a node whose children in direction `d` and opposite to it are
`near` and `far`. -/
def cellOf (d : Dir) (v : RbVal) (parent near far : Ptr) : RbNode :=
  match d with
  | .left => ⟨v.key, v.color, near, far, parent⟩
  | .right => ⟨v.key, v.color, far, near, parent⟩

section CellOf

variable (d : Dir) (v : RbVal) (parent near far p : Ptr) (c : Color)

@[simp] theorem cellOf_child : (cellOf d v parent near far).child d = near := by cases d <;> rfl
@[simp] theorem cellOf_child_flip : (cellOf d v parent near far).child d.flip = far := by
  cases d <;> rfl
@[simp] theorem left_cellOf_left : (cellOf .left v parent near far).left = near := rfl
@[simp] theorem left_cellOf_right : (cellOf .right v parent near far).left = far := rfl
@[simp] theorem cellOf_parent : (cellOf d v parent near far).parent = parent := by cases d <;> rfl
@[simp] theorem cellOf_color : (cellOf d v parent near far).color = v.color := by cases d <;> rfl
@[simp] theorem cellOf_data : (cellOf d v parent near far).data = v.key := by cases d <;> rfl

@[simp] theorem cellOf_setChild :
    (cellOf d v parent near far).setChild d p = cellOf d v parent p far := by cases d <;> rfl
@[simp] theorem cellOf_setChild_flip :
    (cellOf d v parent near far).setChild d.flip p = cellOf d v parent near p := by cases d <;> rfl
@[simp] theorem cellOf_setParent :
    (cellOf d v parent near far).setParent p = cellOf d v p near far := by cases d <;> rfl
@[simp] theorem cellOf_setColor :
    (cellOf d v parent near far).setColor c = cellOf d (v.paint c) parent near far := by
  cases d <;> rfl

theorem cellOf_flip : cellOf d.flip v parent near far = cellOf d v parent far near := by
  cases d <;> rfl

end CellOf

/-- The cells of a tree whose root hangs below `parent`. -/
def cells (parent : Ptr) : RbTree → Multiset (Nat × RbNode)
  | .leaf => 0
  | .node a v l r =>
      {(a, cellOf .left v parent l.ptr r.ptr)} + (cells (some a) l + cells (some a) r)

/-- The cells of a path whose hole holds a tree with root `child`. -/
def pathCells (child : Ptr) : RbPath → Multiset (Nat × RbNode)
  | [] => 0
  | f :: path =>
      {(f.addr, cellOf f.dir f.val (parentPtr path) child f.sibling.ptr)} +
        (cells (some f.addr) f.sibling + pathCells (some f.addr) path)

theorem cells_branch (parent : Ptr) (d : Dir) (a : Nat) (v : RbVal) (s t : RbTree) :
    cells parent (branch d a v s t) =
      {(a, cellOf d v parent s.ptr t.ptr)} + (cells (some a) s + cells (some a) t) := by
  cases d
  · rfl
  · simp only [branch, cells, cellOf, add_comm (cells (some a) t)]

/-- The heap of a tree falls into the heap below the hole and the heap of the path. -/
theorem cells_plug (t : RbTree) (path : RbPath) :
    cells none (plug t path) = cells (parentPtr path) t + pathCells t.ptr path := by
  induction path generalizing t with
  | nil => simp [plug, pathCells]
  | cons f path ih =>
      have hattach : (f.attach t).ptr = some f.addr := ptr_branch _ _ _ _ _
      rw [plug, ih, hattach, Frame.attach, cells_branch, pathCells]
      simp only [parentPtr_cons]
      abel

/-- **The heap of the program is the tree `t`.** -/
structure OnHeap (m : RbMem) (t : RbTree) : Prop where
  root : m.root = t.ptr
  holds : Holds m.heap (cells none t)

theorem OnHeap.split {m : RbMem} {t : RbTree} {path : RbPath} (h : OnHeap m (plug t path)) :
    Holds m.heap (cells (parentPtr path) t + pathCells t.ptr path) := by
  rw [← cells_plug]
  exact h.holds

/-- The root does not depend on what a hole below it holds. -/
theorem ptr_plug (s t : RbTree) (h : s.ptr = t.ptr) (path : RbPath) :
    (plug s path).ptr = (plug t path).ptr := by
  induction path generalizing s t with
  | nil => exact h
  | cons f path ih => exact ih _ _ ((ptr_branch _ _ _ _ _).trans (ptr_branch _ _ _ _ _).symm)

theorem ptr_plug_cons (s t : RbTree) (f : Frame RbVal) (path : RbPath) :
    (plug s (f :: path)).ptr = (plug t (f :: path)).ptr :=
  ptr_plug (f.attach s) (f.attach t)
    ((ptr_branch _ _ _ _ _).trans (ptr_branch _ _ _ _ _).symm) path

/-- With a nonempty path the root is a node of the path. -/
theorem exists_root_mem_pathCells (t : RbTree) {path : RbPath} (hpath : path ≠ []) :
    ∃ c ∈ pathCells t.ptr path, (plug t path).ptr = some c.1 := by
  induction path generalizing t with
  | nil => exact absurd rfl hpath
  | cons f path ih =>
      have hattach : (f.attach t).ptr = some f.addr := ptr_branch _ _ _ _ _
      cases path with
      | nil =>
          exact ⟨(f.addr, cellOf f.dir f.val (parentPtr []) t.ptr f.sibling.ptr),
            by rw [pathCells]; exact Multiset.mem_add.mpr (Or.inl (Multiset.mem_singleton_self _)),
            hattach⟩
      | cons g path =>
          obtain ⟨c, hc, hroot⟩ := ih (f.attach t) (by simp)
          rw [hattach] at hc
          refine ⟨c, ?_, hroot⟩
          rw [pathCells]
          exact Multiset.mem_add.mpr (Or.inr (Multiset.mem_add.mpr (Or.inr hc)))

theorem OnHeap.root_ne {m : RbMem} {d : Dir} {a : Nat} {v : RbVal} {s t : RbTree}
    {path : RbPath} (h : OnHeap m (plug (branch d a v s t) path)) (hpath : path ≠ []) :
    some a ≠ m.root := by
  obtain ⟨c, hc, hroot⟩ := exists_root_mem_pathCells (branch d a v s t) hpath
  have hsplit := h.split
  rw [cells_branch, add_assoc] at hsplit
  have hne := hsplit.ne (Multiset.mem_add.mpr (Or.inr hc))
  rw [h.root, hroot]
  simpa using Ne.symm hne

/-- What a read of a node of the tree returns. -/
theorem OnHeap.read {m : RbMem} {d : Dir} {a : Nat} {v : RbVal} {s t : RbTree} {q : RbPath}
    (h : OnHeap m (plug (branch d a v s t) q)) :
    m.heap a = some (cellOf d v (parentPtr q) s.ptr t.ptr) := by
  have hsplit := h.split
  rw [cells_branch, add_assoc] at hsplit
  exact hsplit.cell

/-- A heap is the heap of one tree only. -/
theorem cells_unique {heap : Heap RbNode} {p : Ptr} {s t : RbTree} (hptr : s.ptr = t.ptr)
    (hs : Holds heap (cells p s)) (ht : Holds heap (cells p t)) : s = t := by
  induction s generalizing t p with
  | leaf =>
      cases t with
      | leaf => rfl
      | node b w l r => simp at hptr
  | node a v l r ihl ihr =>
      cases t with
      | leaf => simp at hptr
      | node b w l' r' =>
          obtain rfl : a = b := by simpa using hptr
          have hcell := hs.cell.symm.trans ht.cell
          simp only [cellOf, Option.some.injEq, RbNode.mk.injEq] at hcell
          obtain ⟨hkey, hcolor, hl, hr, -⟩ := hcell
          have hval : v = w := by
            obtain ⟨k, c⟩ := v
            obtain ⟨k', c'⟩ := w
            simp only at hkey hcolor
            rw [hkey, hcolor]
          rw [hval, ihl hl hs.right.left ht.right.left, ihr hr hs.right.right ht.right.right]

theorem OnHeap.unique {m : RbMem} {s t : RbTree} (hs : OnHeap m s) (ht : OnHeap m t) : s = t :=
  cells_unique (hs.root.symm.trans ht.root) hs.holds ht.holds

/-! ## Rules for writes -/

theorem store_rule {m : RbMem} {a : Nat} {n : RbNode} {s : Multiset (Nat × RbNode)}
    (h : Holds m.heap ({(a, n)} + s)) (f : RbNode → RbNode) :
    ∃ heap, m.store (some a) f = some { m with heap := heap } ∧ Holds heap ({(a, f n)} + s) := by
  obtain ⟨heap, hmodify, hholds⟩ := h.write f
  exact ⟨heap, by rw [RbMem.store, hmodify]; rfl, hholds⟩

theorem reparent_rule {m : RbMem} {p : Ptr} {t : RbTree} {s : Multiset (Nat × RbNode)}
    (h : Holds m.heap (cells p t + s)) (q : Ptr) :
    ∃ heap, RedBlackHeap.reparent m t.ptr q = some { m with heap := heap } ∧
      Holds heap (cells q t + s) := by
  cases t with
  | leaf => exact ⟨m.heap, rfl, h⟩
  | node a v l r =>
      rw [cells, add_assoc] at h
      obtain ⟨heap, hstore, hholds⟩ := store_rule h (RbNode.setParent q)
      refine ⟨heap, ?_, ?_⟩
      · simpa [RedBlackHeap.reparent] using hstore
      · rw [cells, add_assoc]
        exact hholds

theorem replaceChild_rule {m : RbMem} {x : Nat} {n : RbNode} {path : RbPath}
    {s : Multiset (Nat × RbNode)} (hparent : n.parent = parentPtr path)
    (h : Holds m.heap ({(x, n)} + (pathCells (some x) path + s))) (y : Ptr) :
    ∃ heap, RedBlackHeap.replaceChild m (some x) y =
        some { m with
          heap := heap
          root := if path = [] then y else m.root } ∧
      Holds heap ({(x, n)} + (pathCells y path + s)) := by
  have hx := h.cell
  cases path with
  | nil => exact ⟨m.heap, by simp [RedBlackHeap.replaceChild, hx, hparent], h⟩
  | cons f path =>
      have hsibling : f.sibling.ptr ≠ some x := by
        cases hs : f.sibling with
        | leaf => simp
        | node b w l r =>
            have hmem : (b, cellOf .left w (some f.addr) l.ptr r.ptr) ∈
                pathCells (some x) (f :: path) + s := by
              simp [pathCells, hs, cells]
            have hne := h.ne hmem
            simpa using hne
      have hsplit : Holds m.heap
          ({(f.addr, cellOf f.dir f.val (parentPtr path) (some x) f.sibling.ptr)} +
            ({(x, n)} + (cells (some f.addr) f.sibling + pathCells (some f.addr) path + s))) := by
        rw [pathCells] at h
        convert h using 1
        abel
      obtain ⟨heap, hstore, hholds⟩ := store_rule hsplit (RbNode.setChild f.dir y)
      have hread := hsplit.cell
      refine ⟨heap, ?_, ?_⟩
      · cases hd : f.dir with
        | left =>
            rw [hd] at hread hstore
            simp [RedBlackHeap.replaceChild, hx, hparent, hread, hstore]
        | right =>
            rw [hd] at hread hstore
            simp [RedBlackHeap.replaceChild, hx, hparent, hread, hstore,
              Ne.symm hsibling]
      · rw [cellOf_setChild] at hholds
        rw [pathCells]
        convert hholds using 1
        abel

section Rotate

variable {m : RbMem} {d : Dir} {a b : Nat} {va vb : RbVal} {p q x y : Ptr}
  {r : Multiset (Nat × RbNode)}

/-- The subtree between the two nodes comes below the one that sinks. -/
theorem moveInner_rule {t : RbTree}
    (h : Holds m.heap ({(a, cellOf d va p x (some b))} + (cells (some b) t + r))) :
    ∃ heap₁ heap, m.store (some a) (RbNode.setChild d.flip t.ptr) = some { m with heap := heap₁ } ∧
      RedBlackHeap.reparent { m with heap := heap₁ } t.ptr (some a) = some { m with heap := heap } ∧
      Holds heap ({(a, cellOf d va p x t.ptr)} + (cells (some a) t + r)) := by
  obtain ⟨heap₁, hop₁, h₁⟩ := store_rule h (RbNode.setChild d.flip t.ptr)
  rw [cellOf_setChild_flip] at h₁
  have h₁' : Holds heap₁ (cells (some b) t + ({(a, cellOf d va p x t.ptr)} + r)) := by
    convert h₁ using 1
    abel
  obtain ⟨heap₂, hop₂, h₂⟩ := reparent_rule (m := { m with heap := heap₁ }) h₁' (some a)
  refine ⟨heap₁, heap₂, hop₁, hop₂, ?_⟩
  convert h₂ using 1
  abel

/-- The lower node takes the place of the upper one below its parent. -/
theorem takePlace_rule {n : RbNode} {path : RbPath} (hparent : n.parent = parentPtr path)
    (h : Holds m.heap
      ({(b, cellOf d vb p x y)} + ({(a, n)} + (pathCells (some a) path + r)))) :
    ∃ heap₁ heap,
      m.store (some b) (RbNode.setParent (parentPtr path)) = some { m with heap := heap₁ } ∧
      RedBlackHeap.replaceChild { m with heap := heap₁ } (some a) (some b) =
        some { m with
          heap := heap
          root := if path = [] then some b else m.root } ∧
      Holds heap ({(b, cellOf d vb (parentPtr path) x y)} +
        ({(a, n)} + (pathCells (some b) path + r))) := by
  obtain ⟨heap₁, hop₁, h₁⟩ := store_rule h (RbNode.setParent (parentPtr path))
  rw [cellOf_setParent] at h₁
  have h₁' : Holds heap₁ ({(a, n)} + (pathCells (some a) path +
      ({(b, cellOf d vb (parentPtr path) x y)} + r))) := by
    convert h₁ using 1
    abel
  obtain ⟨heap₂, hop₂, h₂⟩ :=
    replaceChild_rule (m := { m with heap := heap₁ }) hparent h₁' (some b)
  refine ⟨heap₁, heap₂, hop₁, hop₂, ?_⟩
  convert h₂ using 1
  abel

/-- The upper node is hung below the lower one. -/
theorem sink_rule
    (h : Holds m.heap ({(b, cellOf d vb p x y)} + ({(a, cellOf d va p q x)} + r))) :
    ∃ heap₁ heap, m.store (some b) (RbNode.setChild d (some a)) = some { m with heap := heap₁ } ∧
      RedBlackHeap.RbMem.store { m with heap := heap₁ } (some a) (RbNode.setParent (some b)) =
        some { m with heap := heap } ∧
      Holds heap ({(b, cellOf d vb p (some a) y)} + ({(a, cellOf d va (some b) q x)} + r)) := by
  obtain ⟨heap₁, hop₁, h₁⟩ := store_rule h (RbNode.setChild d (some a))
  rw [cellOf_setChild] at h₁
  have h₁' : Holds heap₁
      ({(a, cellOf d va p q x)} + ({(b, cellOf d vb p (some a) y)} + r)) := by
    convert h₁ using 1
    abel
  obtain ⟨heap₂, hop₂, h₂⟩ :=
    store_rule (m := { m with heap := heap₁ }) h₁' (RbNode.setParent (some b))
  rw [cellOf_setParent] at h₂
  refine ⟨heap₁, heap₂, hop₁, hop₂, ?_⟩
  convert h₂ using 1
  abel

/-- **Rotations rotate.** -/
theorem rotate_rule {s t u : RbTree} {path : RbPath}
    (h : OnHeap m (plug (branch d a va s (branch d b vb t u)) path)) :
    ∃ m', RedBlackHeap.rotate d m (some a) = some m' ∧
      OnHeap m' (plug (branch d b vb (branch d a va s t) u) path) ∧
      m'.next = m.next ∧ m'.rotationcount = m.rotationcount + 1 := by
  have hsplit := h.split
  rw [cells_branch, cells_branch, ptr_branch, ptr_branch] at hsplit
  have hread_a := h.read
  rw [ptr_branch] at hread_a
  have h₀ : Holds m.heap ({(a, cellOf d va (parentPtr path) s.ptr (some b))} +
      (cells (some b) t + ({(b, cellOf d vb (some a) t.ptr u.ptr)} + (cells (some a) s +
        (cells (some b) u + pathCells (some a) path))))) := by
    convert hsplit using 1
    abel
  have hread_b : m.heap b = some (cellOf d vb (some a) t.ptr u.ptr) := h₀.right.right.cell
  obtain ⟨heap₁, heap₂, hop₁, hop₂, h₂⟩ := moveInner_rule h₀
  have hread_a₂ : heap₂ a = some (cellOf d va (parentPtr path) s.ptr t.ptr) := h₂.cell
  have h₂' : Holds heap₂ ({(b, cellOf d vb (some a) t.ptr u.ptr)} +
      ({(a, cellOf d va (parentPtr path) s.ptr t.ptr)} + (pathCells (some a) path +
        (cells (some a) t + (cells (some a) s + cells (some b) u))))) := by
    convert h₂ using 1
    abel
  obtain ⟨heap₃, heap₄, hop₃, hop₄, h₄⟩ :=
    takePlace_rule (m := { m with heap := heap₂ }) (cellOf_parent _ _ _ _ _) h₂'
  generalize hroot : (if path = [] then some b else m.root) = root at hop₄
  obtain ⟨heap₅, heap₆, hop₅, hop₆, h₆⟩ :=
    sink_rule (m := { m with heap := heap₄, root := root }) h₄
  refine ⟨{ heap := heap₆, next := m.next, root := root, rotationcount := m.rotationcount + 1 },
    ?_, { root := ?_, holds := ?_ }, rfl, rfl⟩
  · simp [RedBlackHeap.rotate, hread_a, hread_b, hread_a₂, hop₁, hop₂, hop₃, hop₄, hop₅, hop₆]
  · rw [← hroot]
    cases path with
    | nil => simp [plug]
    | cons f path =>
        have hsame := ptr_plug_cons (branch d b vb (branch d a va s t) u)
          (branch d a va s (branch d b vb t u)) f path
        simp [h.root, hsame]
  · rw [cells_plug, cells_branch, cells_branch, ptr_branch, ptr_branch]
    convert h₆ using 1
    abel

end Rotate

/-- Painting a node. -/
theorem paint_rule {m : RbMem} {d : Dir} {a : Nat} {v : RbVal} {s t : RbTree} {q : RbPath}
    (h : OnHeap m (plug (branch d a v s t) q)) (c : Color) :
    ∃ m', m.store (some a) (RbNode.setColor c) = some m' ∧
      OnHeap m' (plug (branch d a (v.paint c) s t) q) ∧
      m'.next = m.next ∧ m'.rotationcount = m.rotationcount := by
  have hsplit := h.split
  rw [cells_branch, add_assoc] at hsplit
  obtain ⟨heap, hstore, hholds⟩ := store_rule hsplit (RbNode.setColor c)
  refine ⟨{ m with heap := heap }, hstore, { root := ?_, holds := ?_ }, rfl, rfl⟩
  · rw [← ptr_plug (branch d a v s t) _ (by simp) q]
    exact h.root
  · rw [cells_plug, cells_branch, add_assoc]
    simpa using hholds

end SystemsInC.Ports.RedBlackShape
