import Mathlib.Data.List.Basic
import Mathlib.Data.List.Perm.Basic
import Mathlib.Order.Lattice

/-!
# Binary trees with a hole

Trees whose nodes carry an address and a value, and paths from a hole up to the
root.  `branch` and `child` name the two children by a direction, so that an
operation and its mirror image are one definition.  `graft` is what a search that
ends in a leaf produces; `inorder_graft_sorted` says that it keeps a sorted traversal
sorted, also with equal keys on both sides.
-/

namespace SystemsInC.Verified.TreeZipper

variable {ν κ : Type*}

inductive Dir
  | left
  | right
  deriving DecidableEq, Repr

def Dir.flip : Dir → Dir
  | .left => .right
  | .right => .left

theorem Dir.eq_flip_of_ne {d e : Dir} (h : d ≠ e) : d = e.flip := by
  cases d <;> cases e <;> first | rfl | exact absurd rfl h

inductive HeapTree (ν : Type*)
  | leaf
  | node (addr : Nat) (val : ν) (l r : HeapTree ν)
  deriving DecidableEq, Repr

/-- The node with child `near` in direction `d`. -/
def branch (d : Dir) (a : Nat) (v : ν) (near far : HeapTree ν) : HeapTree ν :=
  match d with
  | .left => .node a v near far
  | .right => .node a v far near

def HeapTree.child (d : Dir) : HeapTree ν → HeapTree ν
  | .leaf => .leaf
  | .node _ _ l r =>
      match d with
      | .left => l
      | .right => r

theorem branch_flip (d : Dir) (a : Nat) (v : ν) (s t : HeapTree ν) :
    branch d.flip a v s t = branch d a v t s := by cases d <;> rfl

theorem node_eq_branch (d : Dir) (a : Nat) (v : ν) (l r : HeapTree ν) :
    HeapTree.node a v l r =
      branch d a v ((HeapTree.node a v l r).child d) ((HeapTree.node a v l r).child d.flip) := by
  cases d <;> rfl

/-- The address of the root. -/
def HeapTree.ptr : HeapTree ν → Option Nat
  | .leaf => none
  | .node a _ _ _ => some a

@[simp] theorem ptr_leaf : (HeapTree.leaf : HeapTree ν).ptr = none := rfl

@[simp] theorem ptr_node (a : Nat) (v : ν) (l r : HeapTree ν) :
    (HeapTree.node a v l r).ptr = some a := rfl

@[simp] theorem ptr_branch (d : Dir) (a : Nat) (v : ν) (s t : HeapTree ν) :
    (branch d a v s t).ptr = some a := by cases d <;> rfl

def HeapTree.size : HeapTree ν → Nat
  | .leaf => 0
  | .node _ _ l r => l.size + 1 + r.size

def HeapTree.height : HeapTree ν → Nat
  | .leaf => 0
  | .node _ _ l r => max l.height r.height + 1

/-! ## Traversals -/

/-- The inorder traversal, with `g` applied to each node. -/
def inorder (g : Nat → ν → κ) : HeapTree ν → List κ
  | .leaf => []
  | .node a v l r => inorder g l ++ g a v :: inorder g r

/-- A rotation moves no node in the traversal; `g` may be blind to what else
changes in the values. -/
theorem inorder_rotate {g : Nat → ν → κ} (d : Dir) {a b : Nat} {va va' vb vb' : ν}
    (ha : g a va = g a va') (hb : g b vb = g b vb') (s t u : HeapTree ν) :
    inorder g (branch d a va s (branch d b vb t u)) =
      inorder g (branch d b vb' (branch d a va' s t) u) := by
  cases d <;> simp [branch, inorder, ha, hb]

theorem inorder_branch_congr {g : Nat → ν → κ} (d : Dir) {a : Nat} {v v' : ν}
    (hv : g a v = g a v') {s s' t t' : HeapTree ν} (hs : inorder g s = inorder g s')
    (ht : inorder g t = inorder g t') :
    inorder g (branch d a v s t) = inorder g (branch d a v' s' t') := by
  cases d <;> simp [branch, inorder, hv, hs, ht]

theorem length_inorder (g : Nat → ν → κ) (t : HeapTree ν) : (inorder g t).length = t.size := by
  induction t with
  | leaf => rfl
  | node a v l r ihl ihr =>
      simp only [inorder, HeapTree.size, List.length_append, List.length_cons, ihl, ihr]
      omega

/-! ## Paths -/

/-- A node on the path: which child the path goes on to, and the other child. -/
structure Frame (ν : Type*) where
  dir : Dir
  addr : Nat
  val : ν
  sibling : HeapTree ν
  deriving DecidableEq, Repr

def Frame.attach (f : Frame ν) (t : HeapTree ν) : HeapTree ν :=
  branch f.dir f.addr f.val t f.sibling

/-- Put a tree into the hole of a path, the lowest frame first. -/
def plug : HeapTree ν → List (Frame ν) → HeapTree ν
  | t, [] => t
  | t, f :: path => plug (f.attach t) path

/-- The address of the lowest frame. -/
def parentPtr : List (Frame ν) → Option Nat
  | [] => none
  | f :: _ => some f.addr

@[simp] theorem parentPtr_nil : parentPtr ([] : List (Frame ν)) = none := rfl

@[simp] theorem parentPtr_cons (f : Frame ν) (path : List (Frame ν)) :
    parentPtr (f :: path) = some f.addr := rfl

theorem inorder_plug_congr {g : Nat → ν → κ} {s t : HeapTree ν} (h : inorder g s = inorder g t)
    (path : List (Frame ν)) : inorder g (plug s path) = inorder g (plug t path) := by
  induction path generalizing s t with
  | nil => exact h
  | cons f path ih => exact ih (inorder_branch_congr f.dir rfl h rfl)

/-! ## Searching -/

/-- The path to the leaf where a search ends. -/
def descend (goLeft : ν → Bool) : HeapTree ν → List (Frame ν) → List (Frame ν)
  | .leaf, path => path
  | .node a v l r, path =>
      if goLeft v then descend goLeft l (⟨.left, a, v, r⟩ :: path)
      else descend goLeft r (⟨.right, a, v, l⟩ :: path)

/-- Replace the leaf where a search ends. -/
def graft (goLeft : ν → Bool) (s : HeapTree ν) : HeapTree ν → HeapTree ν
  | .leaf => s
  | .node a v l r =>
      if goLeft v then .node a v (graft goLeft s l) r
      else .node a v l (graft goLeft s r)

theorem plug_descend (goLeft : ν → Bool) (s t : HeapTree ν) (path : List (Frame ν)) :
    plug s (descend goLeft t path) = plug (graft goLeft s t) path := by
  induction t generalizing path with
  | leaf => rfl
  | node a v l r ihl ihr =>
      unfold descend graft
      split
      · rw [ihl]
        rfl
      · rw [ihr]
        rfl

theorem graft_leaf (goLeft : ν → Bool) (t : HeapTree ν) : graft goLeft .leaf t = t := by
  induction t with
  | leaf => rfl
  | node a v l r ihl ihr =>
      unfold graft
      rw [ihl, ihr, ite_self]

theorem length_descend_le (goLeft : ν → Bool) (t : HeapTree ν) (path : List (Frame ν)) :
    (descend goLeft t path).length ≤ t.size + path.length := by
  induction t generalizing path with
  | leaf => simp [descend]
  | node a v l r ihl ihr =>
      unfold descend
      simp only [HeapTree.size]
      split
      · have h := ihl (⟨.left, a, v, r⟩ :: path)
        simp only [List.length_cons] at h
        omega
      · have h := ihr (⟨.right, a, v, l⟩ :: path)
        simp only [List.length_cons] at h
        omega

theorem length_le_descend (goLeft : ν → Bool) (t : HeapTree ν) (path : List (Frame ν)) :
    path.length ≤ (descend goLeft t path).length := by
  induction t generalizing path with
  | leaf => exact Nat.le_refl _
  | node a v l r ihl ihr =>
      have hleft := ihl (⟨.left, a, v, r⟩ :: path)
      have hright := ihr (⟨.right, a, v, l⟩ :: path)
      rw [List.length_cons] at hleft hright
      unfold descend
      split
      · omega
      · omega

theorem length_descend_le_height (goLeft : ν → Bool) (t : HeapTree ν) (path : List (Frame ν)) :
    (descend goLeft t path).length ≤ t.height + path.length := by
  induction t generalizing path with
  | leaf => simp [descend]
  | node a v l r ihl ihr =>
      have hleft := ihl (⟨.left, a, v, r⟩ :: path)
      have hright := ihr (⟨.right, a, v, l⟩ :: path)
      rw [List.length_cons] at hleft hright
      rw [descend, HeapTree.height]
      by_cases hgo : goLeft v = true
      · rw [if_pos hgo]
        omega
      · rw [if_neg hgo]
        omega

theorem descend_left {goLeft : ν → Bool} {v : ν} (hgo : goLeft v = true) (a : Nat)
    (l r : HeapTree ν) (path : List (Frame ν)) :
    descend goLeft (.node a v l r) path = descend goLeft l (⟨.left, a, v, r⟩ :: path) := by
  rw [descend, if_pos hgo]

theorem descend_right {goLeft : ν → Bool} {v : ν} (hgo : goLeft v = false) (a : Nat)
    (l r : HeapTree ν) (path : List (Frame ν)) :
    descend goLeft (.node a v l r) path = descend goLeft r (⟨.right, a, v, l⟩ :: path) := by
  rw [descend, if_neg (Bool.not_eq_true _ ▸ hgo)]

/-- A search that keeps to the right on a path comes to its hole. -/
theorem descend_plug_right (goLeft : ν → Bool) (t : HeapTree ν) {path : List (Frame ν)}
    (hright : ∀ f ∈ path, f.dir = .right ∧ goLeft f.val = false) :
    descend goLeft (plug t path) [] = descend goLeft t path := by
  induction path generalizing t with
  | nil => rfl
  | cons f path ih =>
      have ⟨hdir, hgo⟩ := hright f List.mem_cons_self
      have hattach : f.attach t = .node f.addr f.val f.sibling t := by
        rw [Frame.attach, hdir]
        rfl
      have hframe : (⟨.right, f.addr, f.val, f.sibling⟩ : Frame ν) = f := by rw [← hdir]
      rw [plug, ih _ (fun g hg => hright g (List.mem_cons_of_mem f hg)), hattach,
        descend_right hgo, hframe]

theorem height_branch (d : Dir) (a : Nat) (v : ν) (s t : HeapTree ν) :
    (branch d a v s t).height = max s.height t.height + 1 := by
  cases d with
  | left => rfl
  | right => exact congrArg (· + 1) (Nat.max_comm _ _)

theorem height_plug_ge (t : HeapTree ν) (path : List (Frame ν)) :
    t.height + path.length ≤ (plug t path).height := by
  induction path generalizing t with
  | nil => exact Nat.le_refl _
  | cons f path ih =>
      have hrest := ih (f.attach t)
      rw [Frame.attach, height_branch] at hrest
      rw [List.length_cons, plug, Frame.attach]
      omega

/-- Grafting a node adds its entry to the traversal. -/
theorem inorder_graft_perm (g : Nat → ν → κ) (goLeft : ν → Bool) (a : Nat) (v : ν)
    (t : HeapTree ν) :
    (inorder g (graft goLeft (.node a v .leaf .leaf) t)).Perm (g a v :: inorder g t) := by
  induction t with
  | leaf => exact List.Perm.refl _
  | node b w l r ihl ihr =>
      unfold graft
      split
      · exact ihl.append_right (g b w :: inorder g r)
      · calc inorder g l ++ g b w :: inorder g (graft goLeft (.node a v .leaf .leaf) r)
            = (inorder g l ++ [g b w]) ++ inorder g (graft goLeft (.node a v .leaf .leaf) r) := by
              simp
          List.Perm _ ((inorder g l ++ [g b w]) ++ g a v :: inorder g r) := ihr.append_left _
          List.Perm _ (g a v :: ((inorder g l ++ [g b w]) ++ inorder g r)) := List.perm_middle
          _ = g a v :: (inorder g l ++ g b w :: inorder g r) := by simp

/-- Searching to the left of larger keys and to the right of all others keeps the
traversal sorted. -/
theorem inorder_graft_sorted [LinearOrder κ] (key : ν → κ) (a : Nat) (v : ν) (t : HeapTree ν)
    (h : (inorder (fun _ v => key v) t).Pairwise (· ≤ ·)) :
    (inorder (fun _ v => key v)
      (graft (fun w => decide (key v < key w)) (.node a v .leaf .leaf) t)).Pairwise (· ≤ ·) := by
  induction t with
  | leaf => simp [graft, inorder]
  | node b w l r ihl ihr =>
      have hperm := fun s => inorder_graft_perm (fun _ v => key v)
        (fun w => decide (key v < key w)) a v s
      simp only [inorder, List.pairwise_append, List.pairwise_cons, List.mem_cons] at h
      obtain ⟨hl, ⟨hw, hr⟩, hlr⟩ := h
      unfold graft
      by_cases hlt : key v < key w
      · simp only [hlt, decide_true, if_true, inorder, List.pairwise_append, List.pairwise_cons,
          List.mem_cons]
        refine ⟨ihl hl, ⟨hw, hr⟩, fun x hx y hy => ?_⟩
        rcases List.mem_cons.mp ((hperm l).mem_iff.mp hx) with rfl | hx
        · rcases hy with rfl | hy
          · exact le_of_lt hlt
          · exact le_trans (le_of_lt hlt) (hw y hy)
        · exact hlr x hx y hy
      · simp only [hlt, decide_false, Bool.false_eq_true, if_false, inorder,
          List.pairwise_append, List.pairwise_cons, List.mem_cons]
        have hle : key w ≤ key v := le_of_not_gt hlt
        refine ⟨hl, ⟨fun y hy => ?_, ihr hr⟩, fun x hx y hy => ?_⟩
        · rcases List.mem_cons.mp ((hperm r).mem_iff.mp hy) with rfl | hy
          · exact hle
          · exact hw y hy
        · rcases hy with rfl | hy
          · exact hlr x hx _ (Or.inl rfl)
          · rcases List.mem_cons.mp ((hperm r).mem_iff.mp hy) with rfl | hy
            · exact le_trans (hlr x hx _ (Or.inl rfl)) hle
            · exact hlr x hx y (Or.inr hy)

end SystemsInC.Verified.TreeZipper
