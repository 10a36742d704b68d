import Mathlib.Data.List.Induction
import SystemsInC.Ports.RedBlackInsert

/-!
# Shape and content of the tree after any sequence of insertions

Insertion never fails: no access goes through NULL and every loop ends.  After
it the heap below the root pointer is a tree with parent pointers, and `inorder`
lists the inserted values in order.
-/

namespace SystemsInC.Ports.RedBlackContent

open SystemsInC.Verified.TreeZipper
open SystemsInC.Ports.RedBlackHeap (Color RbMem)
open SystemsInC.Ports.RedBlackShape
open SystemsInC.Ports.RedBlackInsert

/-- The keys of a tree, in traversal order. -/
def keys (t : RbTree) : List Int := inorder (fun _ v => v.key) t

/-- What `inorder` prints for a tree. -/
def listing (t : RbTree) : List (Int × Color) := inorder (fun _ v => (v.key, v.color)) t

theorem map_fst_listing (t : RbTree) : (listing t).map Prod.fst = keys t := by
  induction t with
  | leaf => rfl
  | node a v l r ihl ihr =>
      simp only [listing, keys, inorder, List.map_append, List.map_cons] at ihl ihr ⊢
      rw [ihl, ihr]

theorem isRed_insertTree (addr : Nat) (data : Int) (t : RbTree) :
    isRed (insertTree addr data t) = false := by
  unfold insertTree
  cases fixUp (newNode addr data) (descend (goesLeft data) t []) with
  | leaf => rfl
  | node a v l r => simp [paintRoot, isRed, RbVal.paint]

theorem keys_insertTree_perm (addr : Nat) (data : Int) (t : RbTree) :
    (keys (insertTree addr data t)).Perm (data :: keys t) := by
  rw [keys, inorder_insertTree (fun _ _ _ => rfl)]
  exact inorder_graft_perm (fun _ v => v.key) _ addr ⟨data, .red⟩ t

theorem keys_insertTree_sorted (addr : Nat) (data : Int) (t : RbTree)
    (h : (keys t).Pairwise (· ≤ ·)) : (keys (insertTree addr data t)).Pairwise (· ≤ ·) := by
  rw [keys, inorder_insertTree (fun _ _ _ => rfl)]
  exact inorder_graft_sorted RbVal.key addr ⟨data, .red⟩ t h

/-- The tree of a sequence of insertions; the addresses count the nodes. -/
def build (values : List Int) : RbTree :=
  values.zipIdx.foldl (fun t p => insertTree p.2 p.1 t) .leaf

theorem build_concat (values : List Int) (data : Int) :
    build (values ++ [data]) = insertTree values.length data (build values) := by
  simp [build, List.zipIdx_append]

/-- What holds between two insertions, whatever the colors of the nodes. -/
structure Content (values : List Int) (m : RbMem) (t : RbTree) : Prop where
  shape : Shape m t
  next_eq : m.next = values.length
  rootBlack : isRed t = false
  sorted : (keys t).Pairwise (· ≤ ·)
  perm : (keys t).Perm values
  rotations : m.rotationcount ≤ 2 * values.length

theorem Content.insert {values : List Int} {m : RbMem} {t : RbTree} (h : Content values m t)
    (data : Int) :
    ∃ m', RedBlackHeap.insertion m data = some m' ∧
      Content (values ++ [data]) m' (insertTree m.next data t) := by
  obtain ⟨m', hop, hshape, hnext, hcount⟩ := insertion_rule h.shape h.rootBlack data
  refine ⟨m', hop,
    { shape := hshape
      next_eq := by rw [hnext, h.next_eq, List.length_append, List.length_singleton]
      rootBlack := isRed_insertTree _ _ _
      sorted := keys_insertTree_sorted _ _ _ h.sorted
      perm := ?_
      rotations := ?_ }⟩
  · calc List.Perm (keys (insertTree m.next data t)) (data :: keys t) :=
          keys_insertTree_perm _ _ _
      List.Perm _ (data :: values) := h.perm.cons data
      List.Perm _ (values ++ [data]) := (List.perm_append_singleton data values).symm
  · have hold := h.rotations
    simp only [List.length_append, List.length_singleton]
    omega

/-- Every sequence of insertions succeeds. -/
theorem exists_content (values : List Int) :
    ∃ m, RedBlackHeap.insertAll values = some m ∧ Content values m (build values) := by
  induction values using List.reverseRecOn with
  | nil =>
      refine ⟨RbMem.init, rfl, ?_⟩
      exact
        { shape := shape_init
          next_eq := rfl
          rootBlack := rfl
          sorted := .nil
          perm := .nil
          rotations := Nat.le_refl _ }
  | append_singleton values data ih =>
      obtain ⟨m, hrun, hcontent⟩ := ih
      obtain ⟨m', hop, hcontent'⟩ := hcontent.insert data
      refine ⟨m', ?_, ?_⟩
      · rw [RedBlackHeap.insertAll_concat, hrun]
        exact hop
      · rw [build_concat, ← hcontent.next_eq]
        exact hcontent'

/-- The traversal of the program is the traversal of the tree. -/
theorem inorder_rule {m : RbMem} (t : RbTree) :
    ∀ (path : RbPath) (fuel : Nat), OnHeap m (plug t path) → t.size < fuel →
      RedBlackHeap.inorder fuel m t.ptr = some (listing t) := by
  induction t with
  | leaf =>
      intro path fuel h hfuel
      obtain ⟨n, rfl⟩ : ∃ n, fuel = n + 1 := ⟨fuel - 1, by omega⟩
      simp [RedBlackHeap.inorder, listing, inorder]
  | node a v l r ihl ihr =>
      intro path fuel h hfuel
      obtain ⟨n, rfl⟩ : ∃ n, fuel = n + 1 := ⟨fuel - 1, by omega⟩
      have hread : m.heap a = some ⟨v.key, v.color, l.ptr, r.ptr, parentPtr path⟩ :=
        h.read (d := .left)
      simp only [HeapTree.size] at hfuel
      have hleft := ihl (⟨.left, a, v, r⟩ :: path) n h (by omega)
      have hright := ihr (⟨.right, a, v, l⟩ :: path) n h (by omega)
      simp [RedBlackHeap.inorder, hread, hleft, hright, listing, inorder]

/-- **Content and shape.**  After any sequence of insertions the nodes reachable
from the root are a finite tree without sharing, each with the parent pointer of
the node it hangs from, and `inorder` lists exactly the inserted values in
non-decreasing order. -/
theorem insertAll_content (values : List Int) :
    ∃ m t out, RedBlackHeap.insertAll values = some m ∧ OnHeap m t ∧
      (∀ fuel, m.next < fuel → RedBlackHeap.inorder fuel m m.root = some out) ∧
      (out.map Prod.fst).Pairwise (· ≤ ·) ∧ (out.map Prod.fst).Perm values := by
  obtain ⟨m, hrun, hcontent⟩ := exists_content values
  have hrep := hcontent.shape.rep
  refine ⟨m, build values, listing (build values), hrun, hrep, fun fuel hfuel => ?_, ?_, ?_⟩
  · rw [hrep.root]
    exact inorder_rule (build values) [] fuel hrep (Nat.lt_of_le_of_lt hcontent.shape.size_le hfuel)
  · rw [map_fst_listing]
    exact hcontent.sorted
  · rw [map_fst_listing]
    exact hcontent.perm

end SystemsInC.Ports.RedBlackContent
