import SystemsInC.Verified.CellHeap
import SystemsInC.Verified.TreeZipper

/-!
# Red-black insertion on the heap

`insertion`, `fixinsertion`, the rotations and `inorder` of
`R-Blacktree-file-2.c`, on a heap of nodes with parent pointers.  Every access
through NULL fails, and so does a loop that runs out of fuel; `RedBlackShape`
shows that neither happens.  `RD-Black-tree-1.c` has the same functions without
`rotationcount`.

`rotateright` is `rotateleft` with the children exchanged, up to the test for the
child that is replaced in the parent, which is the same in both; the two halves
of `fixinsertion` are mirror images as well.  They are one definition here, with
a direction.
-/

namespace SystemsInC.Ports.RedBlackHeap

open SystemsInC.Verified.CellHeap
open SystemsInC.Verified.TreeZipper

inductive Color
  | red
  | black
  deriving DecidableEq, Repr

structure RbNode where
  data : Int
  color : Color
  left : Ptr
  right : Ptr
  parent : Ptr
  deriving DecidableEq, Repr

def RbNode.child (d : Dir) (n : RbNode) : Ptr :=
  match d with
  | .left => n.left
  | .right => n.right

def RbNode.setChild (d : Dir) (p : Ptr) (n : RbNode) : RbNode :=
  match d with
  | .left => { n with left := p }
  | .right => { n with right := p }

def RbNode.setParent (p : Ptr) (n : RbNode) : RbNode := { n with parent := p }

def RbNode.setColor (c : Color) (n : RbNode) : RbNode := { n with color := c }

/-- The heap, the next address `malloc` returns, and the globals. -/
structure RbMem where
  heap : Heap RbNode
  next : Nat
  root : Ptr
  rotationcount : Nat

def RbMem.init : RbMem :=
  { heap := fun _ => none
    next := 0
    root := none
    rotationcount := 0 }

/-- Write to the node `p` points to. -/
def RbMem.store (m : RbMem) (p : Ptr) (f : RbNode → RbNode) : Option RbMem :=
  (modify m.heap p f).map (fun heap => { m with heap := heap })

def createnode (m : RbMem) (data : Int) : Ptr × RbMem :=
  (some m.next,
    { m with
      heap := Function.update m.heap m.next (some
        { data := data
          color := .red
          left := none
          right := none
          parent := none })
      next := m.next + 1 })

/-! ## Rotations -/

/-- `if (p) p->parent = parent;` -/
def reparent (m : RbMem) (p parent : Ptr) : Option RbMem :=
  if p = none then some m else m.store p (RbNode.setParent parent)

/-- Let the parent of `x`, or the root pointer, point to `y` instead. -/
def replaceChild (m : RbMem) (x y : Ptr) : Option RbMem := do
  let parent := (← load m.heap x).parent
  if parent = none then
    return { m with root := y }
  else
    if x = (← load m.heap parent).left then
      m.store parent (RbNode.setChild .left y)
    else
      m.store parent (RbNode.setChild .right y)

/-- Rotate at `x` in direction `d`: the other child of `x` rises. -/
def rotate (d : Dir) (m : RbMem) (x : Ptr) : Option RbMem := do
  let y := (← load m.heap x).child d.flip
  let inner := (← load m.heap y).child d
  let m ← m.store x (RbNode.setChild d.flip inner)
  let m ← reparent m inner x
  let parent := (← load m.heap x).parent
  let m ← m.store y (RbNode.setParent parent)
  let m ← replaceChild m x y
  let m ← m.store y (RbNode.setChild d x)
  let m ← m.store x (RbNode.setParent y)
  return { m with rotationcount := m.rotationcount + 1 }

def rotateleft (m : RbMem) (x : Ptr) : Option RbMem := rotate .left m x

def rotateright (m : RbMem) (y : Ptr) : Option RbMem := rotate .right m y

/-! ## The fix-up loop -/

/-- `unclenode && unclenode->color == RED` -/
def isRed (m : RbMem) (p : Ptr) : Option Bool :=
  if p = none then some false else do return decide ((← load m.heap p).color = .red)

/-- The body of the loop when `parentnode` is the child of `grandparnt` in
direction `d`. -/
def fixSide (d : Dir) (m : RbMem) (newnode parentnode grandparnt : Ptr) :
    Option (RbMem × Ptr) := do
  let unclenode := (← load m.heap grandparnt).child d.flip
  if ← isRed m unclenode then
    let m ← m.store grandparnt (RbNode.setColor .red)
    let m ← m.store parentnode (RbNode.setColor .black)
    let m ← m.store unclenode (RbNode.setColor .black)
    return (m, grandparnt)
  else
    -- `parentnode` is not read again, so it still names the node that sinks
    let (m, newnode) ←
      if newnode = (← load m.heap parentnode).child d.flip then
        (rotate d m parentnode).map (·, parentnode)
      else
        some (m, newnode)
    let m ← m.store parentnode (RbNode.setColor .black)
    let m ← m.store grandparnt (RbNode.setColor .red)
    let m ← rotate d.flip m grandparnt
    return (m, newnode)

/-- The body of the loop of `fixinsertion`. -/
def fixStep (m : RbMem) (newnode : Ptr) : Option (RbMem × Ptr) := do
  let parentnode := (← load m.heap newnode).parent
  let grandparnt := (← load m.heap parentnode).parent
  if parentnode = (← load m.heap grandparnt).left then
    fixSide .left m newnode parentnode grandparnt
  else
    fixSide .right m newnode parentnode grandparnt

/-- The condition of the loop of `fixinsertion`. -/
def fixNeeded (m : RbMem) (newnode : Ptr) : Option Bool :=
  if newnode = m.root then some false
  else do
    let node ← load m.heap newnode
    if node.color = .red then
      return decide ((← load m.heap node.parent).color = .red)
    else
      return false

def fixLoop : Nat → RbMem → Ptr → Option RbMem
  | 0, _, _ => none
  | fuel + 1, m, newnode => do
      if ← fixNeeded m newnode then
        let (m, newnode) ← fixStep m newnode
        fixLoop fuel m newnode
      else
        return m

def fixinsertion (m : RbMem) (newnode : Ptr) : Option RbMem := do
  let m ← fixLoop (m.next + 1) m newnode
  m.store m.root (RbNode.setColor .black)

/-! ## Insertion and traversal -/

/-- The loop of `insertion`: the node that becomes the parent. -/
def findParent : Nat → RbMem → Int → Ptr → Ptr → Option Ptr
  | 0, _, _, _, _ => none
  | fuel + 1, m, data, current, parentnode =>
      if current = none then
        some parentnode
      else do
        let node ← load m.heap current
        if data < node.data then
          findParent fuel m data node.left current
        else
          findParent fuel m data node.right current

/-- Hang `newnode` below `parentnode`. -/
def hang (m : RbMem) (data : Int) (newnode parentnode : Ptr) : Option RbMem :=
  if parentnode = none then
    some { m with root := newnode }
  else do
    if data < (← load m.heap parentnode).data then
      m.store parentnode (RbNode.setChild .left newnode)
    else
      m.store parentnode (RbNode.setChild .right newnode)

def insertion (m : RbMem) (data : Int) : Option RbMem := do
  let (newnode, m) := createnode m data
  let parentnode ← findParent (m.next + 1) m data m.root none
  let m ← m.store newnode (RbNode.setParent parentnode)
  let m ← hang m data newnode parentnode
  fixinsertion m newnode

/-- What `inorder` prints: the data and the colors. -/
def inorder : Nat → RbMem → Ptr → Option (List (Int × Color))
  | 0, _, _ => none
  | fuel + 1, m, p =>
      if p = none then
        some []
      else do
        let node ← load m.heap p
        let left ← inorder fuel m node.left
        let right ← inorder fuel m node.right
        return left ++ (node.data, node.color) :: right

/-- Insert one value after another into an empty tree. -/
def insertAll (values : List Int) : Option RbMem :=
  values.foldlM insertion RbMem.init

theorem insertAll_concat (values : List Int) (data : Int) :
    insertAll (values ++ [data]) = (insertAll values).bind (fun m => insertion m data) := by
  rw [insertAll, List.foldlM_append]
  simp [insertAll]

end SystemsInC.Ports.RedBlackHeap
