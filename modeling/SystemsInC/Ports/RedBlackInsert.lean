import SystemsInC.Ports.RedBlackShape

/-!
# What insertion does to the tree

`insertTree` is `insertion` on trees: hang a RED node below the leaf where the
search ends, let the fix-up climb the path, and paint the root BLACK.
`insertion_rule` connects it to the heap.  It assumes a BLACK root and nothing
else about colors, because the fix-up does not always leave a red-black tree
behind; the traversal and the parent pointers survive all the same.
-/

namespace SystemsInC.Ports.RedBlackInsert

open SystemsInC.Verified.CellHeap
open SystemsInC.Verified.TreeZipper
open SystemsInC.Ports.RedBlackHeap (Color RbNode RbMem)
open SystemsInC.Ports.RedBlackShape

/-! ## The fix-up on trees -/

def isRed : RbTree → Bool
  | .leaf => false
  | .node _ v _ _ => decide (v.color = .red)

def paintRoot (c : Color) : RbTree → RbTree
  | .leaf => .leaf
  | .node a v l r => .node a (v.paint c) l r

/-- RED uncle: the grandparent `g` becomes RED, its children BLACK. -/
def recolored (t : RbTree) (f g : Frame RbVal) : RbTree :=
  branch g.dir g.addr (g.val.paint .red)
    (branch f.dir f.addr (f.val.paint .black) t f.sibling) (paintRoot .black g.sibling)

/-- The outer case: the parent `f` rises above the grandparent. -/
def rotatedOuter (t : RbTree) (f g : Frame RbVal) : RbTree :=
  branch g.dir f.addr (f.val.paint .black) t
    (branch g.dir g.addr (g.val.paint .red) f.sibling g.sibling)

/-- The inner case: the node itself rises above both with its own color, and the
BLACK goes to the old parent. -/
def rotatedInner (t : RbTree) (f g : Frame RbVal) : RbTree :=
  match t with
  | .leaf => .leaf
  | .node a v l r =>
      branch g.dir a v
        (branch g.dir f.addr (f.val.paint .black) f.sibling ((HeapTree.node a v l r).child g.dir))
        (branch g.dir g.addr (g.val.paint .red) ((HeapTree.node a v l r).child g.dir.flip)
          g.sibling)

/-- The loop of `fixinsertion` on the tree `t` and the path above it. -/
def fixUp : RbTree → RbPath → RbTree
  | t, f :: g :: path =>
      if isRed t = true ∧ f.val.color = .red then
        if isRed g.sibling = true then fixUp (recolored t f g) path
        else if f.dir = g.dir then plug (rotatedOuter t f g) path
        else plug (rotatedInner t f g) path
      else plug t (f :: g :: path)
  | t, path => plug t path

def newNode (addr : Nat) (data : Int) : RbTree := .node addr ⟨data, .red⟩ .leaf .leaf

/-- The test `data < current->data`. -/
def goesLeft (data : Int) (v : RbVal) : Bool := decide (data < v.key)

def insertTree (addr : Nat) (data : Int) (t : RbTree) : RbTree :=
  paintRoot .black (fixUp (newNode addr data) (descend (goesLeft data) t []))

/-! ## Traversals survive the fix-up -/

section Traversal

variable {κ : Type*} {g : Nat → RbVal → κ}

theorem inorder_paintRoot (hg : ∀ a v c, g a (v.paint c) = g a v) (c : Color) (t : RbTree) :
    inorder g (paintRoot c t) = inorder g t := by
  cases t with
  | leaf => rfl
  | node a v l r => simp only [paintRoot, inorder, hg]

theorem inorder_recolored (hg : ∀ a v c, g a (v.paint c) = g a v) (t : RbTree)
    (f g' : Frame RbVal) :
    inorder g (recolored t f g') = inorder g (g'.attach (f.attach t)) :=
  inorder_branch_congr _ (hg _ _ _) (inorder_branch_congr _ (hg _ _ _) rfl rfl)
    (inorder_paintRoot hg .black g'.sibling)

theorem inorder_rotatedOuter (hg : ∀ a v c, g a (v.paint c) = g a v) (t : RbTree)
    {f g' : Frame RbVal} (hdir : f.dir = g'.dir) :
    inorder g (rotatedOuter t f g') = inorder g (g'.attach (f.attach t)) := by
  unfold rotatedOuter Frame.attach
  rw [hdir]
  exact (inorder_rotate g'.dir (hg _ _ _) (hg _ _ _) t f.sibling g'.sibling)

theorem inorder_rotatedInner (hg : ∀ a v c, g a (v.paint c) = g a v) {a : Nat} {v : RbVal}
    {l r : RbTree} {f g' : Frame RbVal} (hdir : f.dir ≠ g'.dir) :
    inorder g (rotatedInner (.node a v l r) f g') =
      inorder g (g'.attach (f.attach (.node a v l r))) := by
  have hflip : f.dir = g'.dir.flip := Dir.eq_flip_of_ne hdir
  simp only [rotatedInner, Frame.attach, hflip, branch_flip]
  cases g'.dir <;> simp [branch, HeapTree.child, inorder, hg, Dir.flip]

theorem inorder_fixUp (hg : ∀ a v c, g a (v.paint c) = g a v) (t : RbTree) (path : RbPath)
    (ht : t ≠ .leaf) : inorder g (fixUp t path) = inorder g (plug t path) := by
  induction t, path using fixUp.induct with
  | case1 t f g' path hred huncle ih =>
      have hne : recolored t f g' ≠ .leaf := by
        intro hleaf
        have hptr := congrArg HeapTree.ptr hleaf
        simp [recolored] at hptr
      rw [fixUp, if_pos hred, if_pos huncle, ih hne]
      exact inorder_plug_congr (inorder_recolored hg t f g') path
  | case2 t f g' path hred huncle hdir =>
      rw [fixUp, if_pos hred, if_neg huncle, if_pos hdir]
      exact inorder_plug_congr (inorder_rotatedOuter hg t hdir) path
  | case3 t f g' path hred huncle hdir =>
      rw [fixUp, if_pos hred, if_neg huncle, if_neg hdir]
      cases t with
      | leaf => exact absurd rfl ht
      | node a v l r => exact inorder_plug_congr (inorder_rotatedInner hg hdir) path
  | case4 t f g' path hred => rw [fixUp, if_neg hred]
  | case5 t path hshort =>
      rw [fixUp]
      exact hshort

/-- The traversal of the new tree is that of the search tree with a new leaf. -/
theorem inorder_insertTree (hg : ∀ a v c, g a (v.paint c) = g a v) (addr : Nat) (data : Int)
    (t : RbTree) :
    inorder g (insertTree addr data t) =
      inorder g (graft (goesLeft data) (newNode addr data) t) := by
  rw [insertTree, inorder_paintRoot hg, inorder_fixUp hg _ _ (by simp [newNode]), plug_descend]
  rfl

/-- Insertion adds one address. -/
theorem addresses_insertTree (addr : Nat) (data : Int) (t : RbTree) :
    (inorder (fun a _ => a) (insertTree addr data t)).Perm
      (addr :: inorder (fun a _ => a) t) := by
  rw [inorder_insertTree (fun _ _ _ => rfl)]
  exact inorder_graft_perm (fun a _ => a) (goesLeft data) addr ⟨data, .red⟩ t

theorem exists_fixUp_newNode (addr : Nat) (data : Int) (t : RbTree) :
    ∃ a v l r, fixUp (newNode addr data) (descend (goesLeft data) t []) = .node a v l r := by
  cases hfix : fixUp (newNode addr data) (descend (goesLeft data) t []) with
  | node a v l r => exact ⟨a, v, l, r, rfl⟩
  | leaf =>
      have hperm := addresses_insertTree addr data t
      rw [insertTree, hfix] at hperm
      exact absurd hperm.symm.eq_nil (by simp)

end Traversal

/-! ## Rules for the loop body -/

/-- A child in direction `d` and its sibling are at different addresses. -/
theorem OnHeap.sibling_ne {m : RbMem} {d : Dir} {a : Nat} {v : RbVal} {s t : RbTree}
    {f : Frame RbVal} {path : RbPath} (h : OnHeap m (plug (branch d a v s t) (f :: path))) :
    f.sibling.ptr ≠ some a := by
  intro heq
  have hsplit := h.split
  rw [cells_branch, add_assoc] at hsplit
  cases hs : f.sibling with
  | leaf => simp [hs] at heq
  | node b w l r =>
      have hab : b = a := by simpa [hs] using heq
      have hmem : (b, cellOf .left w (some f.addr) l.ptr r.ptr) ∈
          cells (some a) s + cells (some a) t + pathCells (branch d a v s t).ptr (f :: path) := by
        simp [pathCells, hs, cells]
      exact hsplit.ne hmem hab

theorem plug_sibling (d : Dir) (a : Nat) (v : RbVal) (s t : RbTree) (path : RbPath) :
    plug s (⟨d.flip, a, v, t⟩ :: path) = plug t (⟨d, a, v, s⟩ :: path) := by
  simp [plug, Frame.attach, branch_flip]

theorem isRed_rule {m : RbMem} {t : RbTree} {q : RbPath} (h : OnHeap m (plug t q)) :
    RedBlackHeap.isRed m t.ptr = some (isRed t) := by
  cases t with
  | leaf => rfl
  | node a v l r =>
      have hread := h.read (d := .left)
      simp [RedBlackHeap.isRed, isRed, hread]

/-- The lowest frame is a RED node. -/
def headRed : RbPath → Bool
  | [] => false
  | f :: _ => decide (f.val.color = .red)

theorem fixNeeded_rule {m : RbMem} {d : Dir} {a : Nat} {v : RbVal} {s t : RbTree}
    {q : RbPath} (h : OnHeap m (plug (branch d a v s t) q)) :
    RedBlackHeap.fixNeeded m (some a) = some (decide (v.color = .red) && headRed q) := by
  have hread := h.read
  cases q with
  | nil =>
      have hroot : m.root = some a := h.root.trans (ptr_branch _ _ _ _ _)
      simp [RedBlackHeap.fixNeeded, hroot, headRed]
  | cons f path =>
      have hne := h.root_ne (by simp)
      have hparent : m.heap f.addr = some (cellOf f.dir f.val (parentPtr path) (some a)
          f.sibling.ptr) := by
        have hread_f := OnHeap.read (t := f.sibling) (q := path) h
        rwa [ptr_branch] at hread_f
      by_cases hred : v.color = .red
      · simp [RedBlackHeap.fixNeeded, hne, hread, hred, hparent, headRed]
      · simp [RedBlackHeap.fixNeeded, hne, hread, hred]

/-- The loop body works on the side of the grandparent on which the parent is. -/
theorem fixStep_eq {m : RbMem} {d : Dir} {a : Nat} {v : RbVal} {s t : RbTree}
    {f g : Frame RbVal} {path : RbPath} (h : OnHeap m (plug (branch d a v s t) (f :: g :: path))) :
    RedBlackHeap.fixStep m (some a) =
      RedBlackHeap.fixSide g.dir m (some a) (some f.addr) (some g.addr) := by
  have hread := h.read
  have hread_f : m.heap f.addr = some (cellOf f.dir f.val (some g.addr) (some a)
      f.sibling.ptr) := by
    have hread_f := OnHeap.read (t := f.sibling) (q := g :: path) h
    rwa [ptr_branch] at hread_f
  have hread_g : m.heap g.addr = some (cellOf g.dir g.val (parentPtr path) (some f.addr)
      g.sibling.ptr) := by
    have hread_g := OnHeap.read (s := f.attach (branch d a v s t)) (t := g.sibling) (q := path) h
    rwa [Frame.attach, ptr_branch] at hread_g
  have hne : g.sibling.ptr ≠ some f.addr :=
    OnHeap.sibling_ne (d := f.dir) (s := branch d a v s t) (t := f.sibling) h
  cases hd : g.dir with
  | left =>
      rw [hd] at hread_g
      simp [RedBlackHeap.fixStep, hread, hread_f, hread_g]
  | right =>
      rw [hd] at hread_g
      simp [RedBlackHeap.fixStep, hread, hread_f, hread_g, Ne.symm hne]

/-- What the branches of the loop body read first. -/
private theorem fixSide_reads {m : RbMem} {t : RbTree} {f g : Frame RbVal} {path : RbPath}
    (h : OnHeap m (plug t (f :: g :: path))) :
    (∃ p q, m.heap g.addr = some (cellOf g.dir g.val p q g.sibling.ptr)) ∧
      (∃ p, m.heap f.addr = some (cellOf f.dir f.val p t.ptr f.sibling.ptr)) ∧
      RedBlackHeap.isRed m g.sibling.ptr = some (isRed g.sibling) := by
  refine ⟨⟨_, _, OnHeap.read (s := f.attach t) (t := g.sibling) (q := path) h⟩,
    ⟨_, OnHeap.read (s := t) (t := f.sibling) (q := g :: path) h⟩, ?_⟩
  refine isRed_rule (q := ⟨g.dir.flip, g.addr, g.val, f.attach t⟩ :: path) ?_
  rw [plug_sibling]
  exact h

/-- RED uncle: three nodes change their color. -/
theorem recolor_rule {m : RbMem} {t : RbTree} {f g : Frame RbVal} {path : RbPath}
    (h : OnHeap m (plug t (f :: g :: path))) (huncle : isRed g.sibling = true) (p : Ptr) :
    ∃ m', RedBlackHeap.fixSide g.dir m p (some f.addr) (some g.addr) =
        some (m', some g.addr) ∧
      OnHeap m' (plug (recolored t f g) path) ∧
      m'.next = m.next ∧ m'.rotationcount = m.rotationcount := by
  obtain ⟨⟨pg, qg, hread_g⟩, -, hisRed⟩ := fixSide_reads h
  obtain ⟨m₁, hop₁, h₁, hnext₁, hcount₁⟩ :=
    paint_rule (s := f.attach t) (t := g.sibling) (q := path) h .red
  obtain ⟨m₂, hop₂, h₂, hnext₂, hcount₂⟩ := paint_rule (s := t) (t := f.sibling)
    (q := ⟨g.dir, g.addr, g.val.paint .red, g.sibling⟩ :: path) h₁ .black
  cases hs : g.sibling with
  | leaf => simp [hs, isRed] at huncle
  | node b w l r =>
      rw [hs] at h₂ hread_g hisRed huncle
      rw [← plug_sibling] at h₂
      obtain ⟨m₃, hop₃, h₃, hnext₃, hcount₃⟩ := paint_rule (d := .left) h₂ .black
      refine ⟨m₃, ?_, ?_, by omega, by omega⟩
      · have hptr : (HeapTree.node b w l r).ptr = some b := rfl
        rw [hptr] at hread_g hisRed
        simp [RedBlackHeap.fixSide, hread_g, hisRed, huncle, hop₁, hop₂, hop₃]
      · rw [plug_sibling] at h₃
        rw [recolored, hs]
        exact h₃

/-- Outer case: two changes of color and one rotation. -/
theorem rotateOuter_rule {m : RbMem} {d : Dir} {a : Nat} {v : RbVal} {s t : RbTree}
    {f g : Frame RbVal} {path : RbPath} (h : OnHeap m (plug (branch d a v s t) (f :: g :: path)))
    (huncle : isRed g.sibling = false) (hdir : f.dir = g.dir) :
    ∃ m', RedBlackHeap.fixSide g.dir m (some a) (some f.addr) (some g.addr) =
        some (m', some a) ∧
      OnHeap m' (plug (rotatedOuter (branch d a v s t) f g) path) ∧
      m'.next = m.next ∧ m'.rotationcount = m.rotationcount + 1 := by
  obtain ⟨⟨pg, qg, hread_g⟩, ⟨pf, hread_f⟩, hisRed⟩ := fixSide_reads h
  have hne := OnHeap.sibling_ne h
  obtain ⟨m₁, hop₁, h₁, hnext₁, hcount₁⟩ := paint_rule (s := branch d a v s t) (t := f.sibling)
    (q := g :: path) h .black
  obtain ⟨m₂, hop₂, h₂, hnext₂, hcount₂⟩ := paint_rule
    (s := branch f.dir f.addr (f.val.paint .black) (branch d a v s t) f.sibling)
    (t := g.sibling) (q := path) h₁ .red
  rw [hdir, ← branch_flip g.dir g.addr, ← branch_flip g.dir f.addr] at h₂
  obtain ⟨m₃, hop₃, h₃, hnext₃, hcount₃⟩ := rotate_rule h₂
  refine ⟨m₃, ?_, ?_, by omega, by omega⟩
  · rw [hdir] at hread_f
    simp [RedBlackHeap.fixSide, hread_g, hread_f, hisRed, huncle, hop₁, hop₂, hop₃, Ne.symm hne]
  · rw [branch_flip, branch_flip] at h₃
    exact h₃

/-- Inner case: two rotations, and the old parent becomes BLACK in between. -/
theorem rotateInner_rule {m : RbMem} {a : Nat} {v : RbVal} {l r : RbTree}
    {f g : Frame RbVal} {path : RbPath} (h : OnHeap m (plug (.node a v l r) (f :: g :: path)))
    (huncle : isRed g.sibling = false) (hdir : f.dir ≠ g.dir) :
    ∃ m', RedBlackHeap.fixSide g.dir m (some a) (some f.addr) (some g.addr) =
        some (m', some f.addr) ∧
      OnHeap m' (plug (rotatedInner (.node a v l r) f g) path) ∧
      m'.next = m.next ∧ m'.rotationcount = m.rotationcount + 2 := by
  obtain ⟨⟨pg, qg, hread_g⟩, ⟨pf, hread_f⟩, hisRed⟩ := fixSide_reads h
  have hflip : f.dir = g.dir.flip := Dir.eq_flip_of_ne hdir
  have hfocus : plug (HeapTree.node a v l r) (f :: g :: path) =
      plug (branch g.dir f.addr f.val f.sibling
        (branch g.dir a v ((HeapTree.node a v l r).child g.dir)
          ((HeapTree.node a v l r).child g.dir.flip))) (g :: path) := by
    rw [← node_eq_branch]
    simp only [plug, Frame.attach, hflip, branch_flip]
  rw [hfocus] at h
  obtain ⟨m₀, hop₀, h₀, hnext₀, hcount₀⟩ := rotate_rule h
  -- `parentnode` is now the child of the node that was below it
  obtain ⟨m₁, hop₁, h₁, hnext₁, hcount₁⟩ := paint_rule
    (q := ⟨g.dir, a, v, (HeapTree.node a v l r).child g.dir.flip⟩ :: g :: path) h₀ .black
  obtain ⟨m₂, hop₂, h₂, hnext₂, hcount₂⟩ := paint_rule (d := g.dir) (a := g.addr)
    (t := g.sibling) (q := path) h₁ .red
  rw [← branch_flip g.dir g.addr, Frame.attach, ← branch_flip g.dir a] at h₂
  obtain ⟨m₃, hop₃, h₃, hnext₃, hcount₃⟩ := rotate_rule h₂
  refine ⟨m₃, ?_, ?_, by omega, by omega⟩
  · rw [hflip, cellOf_flip] at hread_f
    have hptr : (HeapTree.node a v l r).ptr = some a := rfl
    rw [hptr] at hread_f
    simp [RedBlackHeap.fixSide, hread_g, hread_f, hisRed, huncle, hop₀, hop₁, hop₂, hop₃]
  · rw [branch_flip, branch_flip] at h₃
    exact h₃

/-! ## The loop -/

theorem fixUp_of_not_needed {t : RbTree} {path : RbPath}
    (h : (isRed t && headRed path) = false) : fixUp t path = plug t path := by
  cases path with
  | nil => rfl
  | cons f path =>
      cases path with
      | nil => rfl
      | cons g path =>
          rw [fixUp, if_neg]
          rintro ⟨hred, hparent⟩
          simp [hred, headRed, hparent] at h

private theorem fixLoop_exit {m : RbMem} {p : Ptr} (fuel : Nat)
    (h : RedBlackHeap.fixNeeded m p = some false) :
    RedBlackHeap.fixLoop (fuel + 1) m p = some m := by
  simp [RedBlackHeap.fixLoop, h]

private theorem fixLoop_step {m m' : RbMem} {p q : Ptr} (fuel : Nat)
    (h : RedBlackHeap.fixNeeded m p = some true)
    (hstep : RedBlackHeap.fixStep m p = some (m', q)) :
    RedBlackHeap.fixLoop (fuel + 1) m p = RedBlackHeap.fixLoop fuel m' q := by
  simp [RedBlackHeap.fixLoop, h, hstep]

/-- The highest frame, if there is one, is BLACK. -/
def TopBlack (path : RbPath) : Prop := ∀ f, path.getLast? = some f → f.val.color = .black

theorem TopBlack.tail {f g : Frame RbVal} {path : RbPath} (h : TopBlack (f :: g :: path)) :
    TopBlack path := by
  intro e he
  refine h e ?_
  cases path with
  | nil => simp at he
  | cons e' path => rwa [List.getLast?_cons_cons, List.getLast?_cons_cons]

/-- A RED parent is not the root, so it has a parent of its own. -/
theorem TopBlack.grandparent {path : RbPath} (h : TopBlack path) (hred : headRed path = true) :
    ∃ f g rest, path = f :: g :: rest := by
  cases path with
  | nil => simp [headRed] at hred
  | cons f rest =>
      cases rest with
      | nil =>
          have hblack := h f rfl
          simp [headRed, hblack] at hred
      | cons g rest => exact ⟨f, g, rest, rfl⟩

/-- The loop of `fixinsertion` at the node `p`: the tree `t` below it, and the path
above it, whose highest node is BLACK.  Nothing else is known about colors. -/
structure Climbing (m : RbMem) (p : Ptr) (t : RbTree) (path : RbPath) : Prop where
  focus : t.ptr = p
  node : p ≠ none
  rep : OnHeap m (plug t path)
  top : TopBlack path

/-- The condition of the loop follows no NULL pointer. -/
theorem Climbing.needed {m : RbMem} {p : Ptr} {t : RbTree} {path : RbPath}
    (h : Climbing m p t path) :
    RedBlackHeap.fixNeeded m p = some (isRed t && headRed path) := by
  cases t with
  | leaf => exact absurd h.focus.symm h.node
  | node b v l r =>
      rw [← h.focus]
      exact fixNeeded_rule (d := .left) h.rep

/-- Where the loop ends, the heap is the tree that `fixUp` describes. -/
theorem Climbing.exit {m : RbMem} {p : Ptr} {t : RbTree} {path : RbPath}
    (h : Climbing m p t path) (hdone : RedBlackHeap.fixNeeded m p = some false) :
    OnHeap m (fixUp t path) := by
  have hfalse : (isRed t && headRed path) = false := Option.some.inj (h.needed.symm.trans hdone)
  rw [fixUp_of_not_needed hfalse]
  exact h.rep

/-- **One round of the loop.**  The grandparent exists, since a RED parent is not the
BLACK root; the loop either climbs two levels without a rotation, or rotates at most
twice and ends. -/
theorem Climbing.round {m : RbMem} {p : Ptr} {t : RbTree} {path : RbPath}
    (h : Climbing m p t path) (htrue : RedBlackHeap.fixNeeded m p = some true) :
    ∃ f g rest m' q, path = f :: g :: rest ∧ RedBlackHeap.fixStep m p = some (m', q) ∧
      m'.next = m.next ∧
      ((∃ t', Climbing m' q t' rest ∧ fixUp t path = fixUp t' rest ∧
          m'.rotationcount = m.rotationcount) ∨
        (OnHeap m' (fixUp t path) ∧ RedBlackHeap.fixNeeded m' q = some false ∧
          m'.rotationcount ≤ m.rotationcount + 2)) := by
  have hloop : (isRed t && headRed path) = true := Option.some.inj (h.needed.symm.trans htrue)
  have hred : headRed path = true := ((Bool.and_eq_true _ _).mp hloop).2
  obtain ⟨f, g, rest, rfl⟩ := h.top.grandparent hred
  have hcond : isRed t = true ∧ f.val.color = .red := by simpa [headRed] using hloop
  cases t with
  | leaf => exact absurd h.focus.symm h.node
  | node b v l r =>
      have hp : p = some b := h.focus.symm
      subst hp
      have hstep := fixStep_eq (d := .left) h.rep
      rw [fixUp, if_pos hcond]
      by_cases huncle : isRed g.sibling = true
      · obtain ⟨m₁, hop, h₁, hnext, hcount⟩ := recolor_rule h.rep huncle (some b)
        have hclimb : Climbing m₁ (some g.addr) (recolored (HeapTree.node b v l r) f g) rest :=
          { focus := ptr_branch _ _ _ _ _
            node := by simp
            rep := h₁
            top := h.top.tail }
        rw [if_pos huncle]
        exact ⟨f, g, rest, m₁, _, rfl, hstep.trans hop, hnext, .inl ⟨_, hclimb, rfl, hcount⟩⟩
      · have huncle' : isRed g.sibling = false := by simpa using huncle
        rw [if_neg huncle]
        by_cases hdir : f.dir = g.dir
        · obtain ⟨m₁, hop, h₁, hnext, hcount⟩ := rotateOuter_rule (d := .left) h.rep huncle' hdir
          have hdone := fixNeeded_rule (d := .left) (a := b) (v := v) (s := l) (t := r)
            (q := ⟨g.dir, f.addr, f.val.paint .black, _⟩ :: rest) h₁
          rw [if_pos hdir]
          refine ⟨f, g, rest, m₁, _, rfl, hstep.trans hop, hnext, .inr ⟨h₁, ?_, by omega⟩⟩
          simpa [headRed, RbVal.paint] using hdone
        · obtain ⟨m₁, hop, h₁, hnext, hcount⟩ := rotateInner_rule h.rep huncle' hdir
          have hdone := fixNeeded_rule (d := g.dir) (a := f.addr)
            (q := ⟨g.dir, b, v, _⟩ :: rest) h₁
          rw [if_neg hdir]
          refine ⟨f, g, rest, m₁, _, rfl, hstep.trans hop, hnext, .inr ⟨h₁, ?_, by omega⟩⟩
          simpa [RbVal.paint] using hdone

/-- **The loop of `fixinsertion` ends**, and does what `fixUp` says with at most
two rotations. -/
theorem fixLoop_rule (fuel : Nat) :
    ∀ {m : RbMem} {p : Ptr} {t : RbTree} {path : RbPath},
      Climbing m p t path → path.length < fuel →
      ∃ m', RedBlackHeap.fixLoop fuel m p = some m' ∧ OnHeap m' (fixUp t path) ∧
        m'.next = m.next ∧ m'.rotationcount ≤ m.rotationcount + 2 := by
  induction fuel with
  | zero => exact fun _ hfuel => absurd hfuel (Nat.not_lt_zero _)
  | succ fuel ih =>
      intro m p t path h hfuel
      have hneeded := h.needed
      cases hloop : (isRed t && headRed path) with
      | false =>
          rw [hloop] at hneeded
          exact ⟨m, fixLoop_exit fuel hneeded, h.exit hneeded, rfl, by omega⟩
      | true =>
          rw [hloop] at hneeded
          obtain ⟨f, g, rest, m₁, q, rfl, hstep, hnext, hcases⟩ := h.round hneeded
          simp only [List.length_cons] at hfuel
          rw [fixLoop_step fuel hneeded hstep]
          rcases hcases with ⟨t', hclimb, hfix, hcount⟩ | ⟨h₁, hdone, hcount⟩
          · obtain ⟨m₂, hrun, h₂, hnext₂, hcount₂⟩ := ih hclimb (by omega)
            rw [hfix]
            exact ⟨m₂, hrun, h₂, by omega, by omega⟩
          · obtain ⟨n, rfl⟩ : ∃ n, fuel = n + 1 := ⟨fuel - 1, by omega⟩
            exact ⟨m₁, fixLoop_exit n hdone, h₁, hnext, hcount⟩

/-! ## Insertion -/

/-- The root of `t` stays on the path, so a BLACK root tops it. -/
theorem topBlack_descend (goLeft : RbVal → Bool) (t : RbTree) (path : RbPath)
    (htop : TopBlack path) (hroot : path = [] → isRed t = false) :
    TopBlack (descend goLeft t path) := by
  induction t generalizing path with
  | leaf => exact htop
  | node a v l r ihl ihr =>
      have hframe : ∀ d s, TopBlack (⟨d, a, v, s⟩ :: path) := by
        intro d s f hf
        cases path with
        | nil =>
            obtain rfl : (⟨d, a, v, s⟩ : Frame RbVal) = f := by simpa using hf
            have hblack := hroot rfl
            cases hc : v.color with
            | red => simp [isRed, hc] at hblack
            | black => rfl
        | cons g path =>
            rw [List.getLast?_cons_cons] at hf
            exact htop f hf
      unfold descend
      split
      · exact ihl _ (hframe _ _) (by simp)
      · exact ihr _ (hframe _ _) (by simp)

/-- The path turns left exactly where the test says so. -/
theorem dir_of_mem_descend (goLeft : RbVal → Bool) (t : RbTree) (path : RbPath)
    (hpath : ∀ f ∈ path, f.dir = .left ↔ goLeft f.val = true) :
    ∀ f ∈ descend goLeft t path, f.dir = .left ↔ goLeft f.val = true := by
  induction t generalizing path with
  | leaf => exact hpath
  | node a v l r ihl ihr =>
      unfold descend
      split
      · rename_i hleft
        refine ihl _ (fun f hf => ?_)
        rcases List.mem_cons.mp hf with rfl | hf
        · simp [hleft]
        · exact hpath f hf
      · rename_i hright
        refine ihr _ (fun f hf => ?_)
        rcases List.mem_cons.mp hf with rfl | hf
        · simp [hright]
        · exact hpath f hf

theorem findParent_rule {m : RbMem} (data : Int) (t : RbTree) :
    ∀ (path : RbPath) (fuel : Nat), OnHeap m (plug t path) → t.size < fuel →
      RedBlackHeap.findParent fuel m data t.ptr (parentPtr path) =
        some (parentPtr (descend (goesLeft data) t path)) := by
  induction t with
  | leaf =>
      intro path fuel h hfuel
      obtain ⟨n, rfl⟩ : ∃ n, fuel = n + 1 := ⟨fuel - 1, by omega⟩
      simp [RedBlackHeap.findParent, descend]
  | node a v l r ihl ihr =>
      intro path fuel h hfuel
      obtain ⟨n, rfl⟩ : ∃ n, fuel = n + 1 := ⟨fuel - 1, by omega⟩
      have hread : m.heap a = some ⟨v.key, v.color, l.ptr, r.ptr, parentPtr path⟩ :=
        h.read (d := .left)
      simp only [HeapTree.size] at hfuel
      by_cases hlt : data < v.key
      · have hleft := ihl (⟨.left, a, v, r⟩ :: path) n h (by omega)
        simpa [RedBlackHeap.findParent, hread, hlt, descend, goesLeft] using hleft
      · have hright := ihr (⟨.right, a, v, l⟩ :: path) n h (by omega)
        simpa [RedBlackHeap.findParent, hread, hlt, descend, goesLeft] using hright

/-- The heap is the tree `t`, and its addresses have been allocated. -/
structure Shape (m : RbMem) (t : RbTree) : Prop where
  rep : OnHeap m t
  bounded : ∀ a ∈ inorder (fun a _ => a) t, a < m.next
  size_le : t.size ≤ m.next

theorem shape_init : Shape RbMem.init .leaf :=
  { rep :=
      { root := rfl
        holds := holds_zero _ }
    bounded := by simp [inorder]
    size_le := Nat.zero_le _ }

/-- The addresses of the cells are those of the tree. -/
theorem map_fst_cells (p : Ptr) (t : RbTree) :
    (cells p t).map Prod.fst = (inorder (fun a _ => a) t : Multiset Nat) := by
  induction t generalizing p with
  | leaf => rfl
  | node a v l r ihl ihr =>
      simp only [cells, Multiset.map_add, Multiset.map_singleton, ihl, ihr, inorder,
        ← Multiset.coe_add, ← Multiset.cons_coe, ← Multiset.singleton_add]
      abel

/-- Hanging the new node below the end of the search path. -/
theorem hang_rule {m : RbMem} (data : Int) (a : Nat) (path : RbPath)
    (hdir : ∀ f ∈ path, f.dir = .left ↔ goesLeft data f.val = true)
    (hroot : path ≠ [] → m.root = (plug .leaf path).ptr)
    (h : Holds m.heap ({(a, cellOf .left ⟨data, .red⟩ (parentPtr path) none none)} +
      pathCells none path)) :
    ∃ m', RedBlackHeap.hang m data (some a) (parentPtr path) = some m' ∧
      OnHeap m' (plug (newNode a data) path) ∧
      m'.next = m.next ∧ m'.rotationcount = m.rotationcount := by
  cases path with
  | nil =>
      refine ⟨{ m with root := some a }, rfl, { root := rfl, holds := ?_ }, rfl, rfl⟩
      simpa [plug, newNode, cells, pathCells] using h
  | cons f path =>
      have hsplit : Holds m.heap
          ({(f.addr, cellOf f.dir f.val (parentPtr path) none f.sibling.ptr)} +
            ({(a, cellOf .left ⟨data, .red⟩ (some f.addr) none none)} +
              (cells (some f.addr) f.sibling + pathCells (some f.addr) path))) := by
        rw [pathCells] at h
        convert h using 1
        simp only [parentPtr_cons]
        abel
      obtain ⟨heap, hstore, hholds⟩ := store_rule hsplit (RbNode.setChild f.dir (some a))
      rw [cellOf_setChild] at hholds
      have hread := hsplit.cell
      refine ⟨{ m with heap := heap }, ?_, { root := ?_, holds := ?_ }, rfl, rfl⟩
      · have hf := hdir f (by simp)
        cases hd : f.dir with
        | left =>
            have hlt : data < f.val.key := by simpa [hd, goesLeft] using hf
            rw [hd] at hstore
            simp [RedBlackHeap.hang, hread, hlt, hstore]
        | right =>
            have hge : ¬ data < f.val.key := by simpa [hd, goesLeft] using hf
            rw [hd] at hstore
            simp [RedBlackHeap.hang, hread, hge, hstore]
      · exact (hroot (by simp)).trans (ptr_plug_cons _ _ f path)
      · rw [cells_plug]
        simp only [newNode, cells, pathCells, parentPtr_cons, ptr_node, ptr_leaf]
        convert hholds using 1
        simp only [add_zero]
        abel

/-- The new node is created and hung below the end of its search path. -/
theorem attach_rule {m : RbMem} {t : RbTree} (h : Shape m t) (data : Int) :
    ∃ m₁ m₂ : RbMem, RedBlackHeap.createnode m data = (some m.next, m₁) ∧
      RedBlackHeap.findParent (m₁.next + 1) m₁ data m₁.root none =
        some (parentPtr (descend (goesLeft data) t [])) ∧
      m₁.store (some m.next)
        (RbNode.setParent (parentPtr (descend (goesLeft data) t []))) = some m₂ ∧
      ∃ m₃, RedBlackHeap.hang m₂ data (some m.next)
          (parentPtr (descend (goesLeft data) t [])) = some m₃ ∧
        OnHeap m₃ (plug (newNode m.next data) (descend (goesLeft data) t [])) ∧
        m₃.next = m.next + 1 ∧ m₃.rotationcount = m.rotationcount := by
  have hsize := h.size_le
  have hfresh : m.next ∉ (cells none t).map Prod.fst := by
    rw [map_fst_cells]
    intro hmem
    exact Nat.lt_irrefl _ (h.bounded _ hmem)
  have h₁ : Holds (RedBlackHeap.createnode m data).2.heap
      ({(m.next, cellOf .left ⟨data, .red⟩ none none none)} + cells none t) :=
    h.rep.holds.alloc hfresh _
  have hrep₁ : OnHeap (RedBlackHeap.createnode m data).2 (plug t []) :=
    { root := h.rep.root
      holds := h₁.right }
  have hplug : plug .leaf (descend (goesLeft data) t []) = t := by
    rw [plug_descend, graft_leaf]
    rfl
  have hroot : (RedBlackHeap.createnode m data).2.root = t.ptr := h.rep.root
  have hfind : RedBlackHeap.findParent (m.next + 1 + 1) (RedBlackHeap.createnode m data).2 data
      (RedBlackHeap.createnode m data).2.root none =
        some (parentPtr (descend (goesLeft data) t [])) := by
    rw [hroot]
    exact findParent_rule data t [] (m.next + 1 + 1) hrep₁ (by omega)
  obtain ⟨heap₂, hop₂, h₂⟩ := store_rule h₁
    (RbNode.setParent (parentPtr (descend (goesLeft data) t [])))
  rw [cellOf_setParent] at h₂
  have hcells : cells none t = pathCells none (descend (goesLeft data) t []) := by
    conv_lhs => rw [← hplug]
    rw [cells_plug, cells, zero_add]
    rfl
  rw [hcells] at h₂
  obtain ⟨m₃, hop₃, h₃, hnext₃, hcount₃⟩ := hang_rule
    (m := { (RedBlackHeap.createnode m data).2 with heap := heap₂ }) data m.next
    (descend (goesLeft data) t []) (dir_of_mem_descend _ t [] (by simp))
    (fun _ => by rw [hplug]; exact hroot) h₂
  exact ⟨_, _, rfl, hfind, hop₂, m₃, hop₃, h₃, hnext₃, hcount₃⟩

/-- **Insertion on the heap is insertion into the tree**: it succeeds, keeps the
shape and rotates at most twice. -/
theorem insertion_rule {m : RbMem} {t : RbTree} (h : Shape m t) (hblack : isRed t = false)
    (data : Int) :
    ∃ m', RedBlackHeap.insertion m data = some m' ∧ Shape m' (insertTree m.next data t) ∧
      m'.next = m.next + 1 ∧ m'.rotationcount ≤ m.rotationcount + 2 := by
  have hsize := h.size_le
  obtain ⟨m₁, m₂, hcreate, hfind, hop₂, m₃, hop₃, h₃, hnext₃, hcount₃⟩ := attach_rule h data
  have hlen : (descend (goesLeft data) t []).length ≤ t.size := length_descend_le _ t []
  have htop : TopBlack (descend (goesLeft data) t []) :=
    topBlack_descend _ t [] (by simp [TopBlack]) (fun _ => hblack)
  have hclimb : Climbing m₃ (some m.next) (newNode m.next data) (descend (goesLeft data) t []) :=
    { focus := rfl
      node := by simp
      rep := h₃
      top := htop }
  obtain ⟨m₄, hop₄, h₄, hnext₄, hcount₄⟩ := fixLoop_rule (m₃.next + 1) hclimb (by omega)
  obtain ⟨b, w, l, r, hfix⟩ :=
    exists_fixUp_newNode m.next data t
  rw [hfix] at h₄
  obtain ⟨m₅, hop₅, h₅, hnext₅, hcount₅⟩ := paint_rule (d := .left) (q := []) h₄ .black
  have htree : insertTree m.next data t = .node b (w.paint .black) l r := by
    rw [insertTree, hfix]
    rfl
  have hnext : m₅.next = m.next + 1 := by omega
  have haddresses := addresses_insertTree m.next data t
  refine ⟨m₅, ?_, ?_, hnext, by omega⟩
  · have hroot₄ : m₄.root = some b := h₄.root
    simp only [RedBlackHeap.insertion, hcreate, hfind, hop₂, hop₃,
      RedBlackHeap.fixinsertion, hop₄, hroot₄, hop₅, Option.bind_eq_bind, Option.bind_some]
  · constructor
    · rw [htree]
      exact h₅
    · intro c hc
      rcases List.mem_cons.mp (haddresses.mem_iff.mp hc) with rfl | hc
      · omega
      · have hold := h.bounded c hc
        omega
    · have hcard := haddresses.length_eq
      rw [length_inorder, List.length_cons, length_inorder] at hcard
      omega

end SystemsInC.Ports.RedBlackInsert
