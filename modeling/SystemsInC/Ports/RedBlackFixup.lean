import SystemsInC.Ports.RedBlackContent

/-!
# The fix-up is safe and cheap

`fixups_safe`: in every call of `fixinsertion` along any sequence of insertions,
each round of the loop finds a grandparent, each rotation finds the child that is
to rise, the loop ends, and at most two rotations are made.  The tree need not be
a red-black tree for this.
-/

namespace SystemsInC.Ports.RedBlackFixup

open SystemsInC.Verified.CellHeap
open SystemsInC.Verified.TreeZipper
open SystemsInC.Ports.RedBlackHeap (RbNode RbMem)
open SystemsInC.Ports.RedBlackShape
open SystemsInC.Ports.RedBlackInsert
open SystemsInC.Ports.RedBlackContent

/-! ## Calls of the rotations -/

/-- `insertion` up to its call of `fixinsertion`: the heap and the new node. -/
def beforeFixup (m : RbMem) (data : Int) : Option (RbMem × Ptr) := do
  let (newnode, m) := RedBlackHeap.createnode m data
  let parentnode ← RedBlackHeap.findParent (m.next + 1) m data m.root none
  let m ← m.store newnode (RbNode.setParent parentnode)
  let m ← RedBlackHeap.hang m data newnode parentnode
  return (m, newnode)

theorem insertion_eq (m : RbMem) (data : Int) :
    RedBlackHeap.insertion m data =
      (beforeFixup m data).bind (fun s => RedBlackHeap.fixinsertion s.1 s.2) := by
  simp only [RedBlackHeap.insertion, beforeFixup, Option.bind_eq_bind, Option.bind_assoc,
    Option.pure_def, Option.bind_some]

/-- A call of `rotateleft` or `rotateright`, with the heap it is made on. -/
structure RotationCall where
  dir : Dir
  mem : RbMem
  node : Ptr

/-- The node exists, and so does the child that rises above it. -/
def RotationCall.RisingChild (c : RotationCall) : Prop :=
  ∃ x y, load c.mem.heap c.node = some x ∧ load c.mem.heap (x.child c.dir.flip) = some y

/-- The rotations that `fixSide` calls, the first one first. -/
def sideRotations (d : Dir) (m : RbMem) (newnode parentnode grandparnt : Ptr) :
    Option (List RotationCall) := do
  let unclenode := (← load m.heap grandparnt).child d.flip
  if ← RedBlackHeap.isRed m unclenode then
    return []
  else
    let (m, calls) ←
      if newnode = (← load m.heap parentnode).child d.flip then
        (RedBlackHeap.rotate d m parentnode).map (·, [⟨d, m, parentnode⟩])
      else
        some (m, [])
    let m ← m.store parentnode (RbNode.setColor .black)
    let m ← m.store grandparnt (RbNode.setColor .red)
    return calls ++ [⟨d.flip, m, grandparnt⟩]

/-- The rotations that the body of the loop of `fixinsertion` calls. -/
def stepRotations (m : RbMem) (newnode : Ptr) : Option (List RotationCall) := do
  let parentnode := (← load m.heap newnode).parent
  let grandparnt := (← load m.heap parentnode).parent
  if parentnode = (← load m.heap grandparnt).left then
    sideRotations .left m newnode parentnode grandparnt
  else
    sideRotations .right m newnode parentnode grandparnt

/-! ## What a rotation counts -/

theorem store_rotationcount {m m' : RbMem} {p : Ptr} {f : RbNode → RbNode}
    (h : m.store p f = some m') : m'.rotationcount = m.rotationcount := by
  obtain ⟨heap, -, rfl⟩ := Option.map_eq_some_iff.mp h
  rfl

theorem reparent_rotationcount {m m' : RbMem} {p q : Ptr}
    (h : RedBlackHeap.reparent m p q = some m') : m'.rotationcount = m.rotationcount := by
  rw [RedBlackHeap.reparent] at h
  split at h
  · rw [← Option.some.inj h]
  · exact store_rotationcount h

theorem replaceChild_rotationcount {m m' : RbMem} {x y : Ptr}
    (h : RedBlackHeap.replaceChild m x y = some m') : m'.rotationcount = m.rotationcount := by
  obtain ⟨n, -, h⟩ := Option.bind_eq_some_iff.mp h
  dsimp only at h
  split at h
  · rw [← Option.some.inj h]
  · obtain ⟨k, -, h⟩ := Option.bind_eq_some_iff.mp h
    split at h
    · exact store_rotationcount h
    · exact store_rotationcount h

/-- A rotation that returns has read both nodes, and is counted once. -/
theorem rotate_some {d : Dir} {m m' : RbMem} {x : Ptr}
    (h : RedBlackHeap.rotate d m x = some m') :
    RotationCall.RisingChild ⟨d, m, x⟩ ∧ m'.rotationcount = m.rotationcount + 1 := by
  obtain ⟨nx, hx, h⟩ := Option.bind_eq_some_iff.mp h
  obtain ⟨ny, hy, h⟩ := Option.bind_eq_some_iff.mp h
  obtain ⟨m₁, h₁, h⟩ := Option.bind_eq_some_iff.mp h
  obtain ⟨m₂, h₂, h⟩ := Option.bind_eq_some_iff.mp h
  obtain ⟨nx₂, -, h⟩ := Option.bind_eq_some_iff.mp h
  obtain ⟨m₃, h₃, h⟩ := Option.bind_eq_some_iff.mp h
  obtain ⟨m₄, h₄, h⟩ := Option.bind_eq_some_iff.mp h
  obtain ⟨m₅, h₅, h⟩ := Option.bind_eq_some_iff.mp h
  obtain ⟨m₆, h₆, h⟩ := Option.bind_eq_some_iff.mp h
  have hcount₁ := store_rotationcount h₁
  have hcount₂ := reparent_rotationcount h₂
  have hcount₃ := store_rotationcount h₃
  have hcount₄ := replaceChild_rotationcount h₄
  have hcount₅ := store_rotationcount h₅
  have hcount₆ := store_rotationcount h₆
  refine ⟨⟨nx, ny, hx, hy⟩, ?_⟩
  rw [← Option.some.inj h]
  show m₆.rotationcount + 1 = m.rotationcount + 1
  omega

/-- The end of the rotating branch: two changes of color and the rotation of the
grandparent. -/
private theorem outer_some {d : Dir} {m m' : RbMem} {p f g q : Ptr}
    (h : (do
      let m ← m.store f (RbNode.setColor .black)
      let m ← m.store g (RbNode.setColor .red)
      let m ← RedBlackHeap.rotate d m g
      return (m, p)) = some (m', q)) :
    ∃ m₂ m₃, m.store f (RbNode.setColor .black) = some m₂ ∧
      m₂.store g (RbNode.setColor .red) = some m₃ ∧
      RotationCall.RisingChild ⟨d, m₃, g⟩ ∧ m'.rotationcount = m.rotationcount + 1 := by
  obtain ⟨m₂, h₂, h⟩ := Option.bind_eq_some_iff.mp h
  obtain ⟨m₃, h₃, h⟩ := Option.bind_eq_some_iff.mp h
  obtain ⟨m₄, h₄, h⟩ := Option.bind_eq_some_iff.mp h
  have hcount₂ := store_rotationcount h₂
  have hcount₃ := store_rotationcount h₃
  have ⟨hrise, hcount₄⟩ := rotate_some h₄
  have hm' : m₄ = m' := congrArg Prod.fst (Option.some.inj h)
  refine ⟨m₂, m₃, h₂, h₃, hrise, ?_⟩
  rw [← hm']
  omega

/-- The rotations of a branch that returns are all of nodes with a rising child, and
`rotationcount` counts them. -/
theorem fixSide_some {d : Dir} {m m' : RbMem} {p f g q : Ptr}
    (h : RedBlackHeap.fixSide d m p f g = some (m', q)) :
    ∃ calls, sideRotations d m p f g = some calls ∧
      m'.rotationcount = m.rotationcount + calls.length ∧ ∀ c ∈ calls, c.RisingChild := by
  obtain ⟨ng, hg, h⟩ := Option.bind_eq_some_iff.mp h
  obtain ⟨uncleRed, huncle, h⟩ := Option.bind_eq_some_iff.mp h
  dsimp only at h
  cases uncleRed with
  | true =>
      obtain ⟨m₁, h₁, h⟩ := Option.bind_eq_some_iff.mp h
      obtain ⟨m₂, h₂, h⟩ := Option.bind_eq_some_iff.mp h
      obtain ⟨m₃, h₃, h⟩ := Option.bind_eq_some_iff.mp h
      have hcount₁ := store_rotationcount h₁
      have hcount₂ := store_rotationcount h₂
      have hcount₃ := store_rotationcount h₃
      have hm' : m₃ = m' := congrArg Prod.fst (Option.some.inj h)
      refine ⟨[], ?_, ?_, by simp⟩
      · simp [sideRotations, hg, huncle]
      · rw [← hm', List.length_nil]
        omega
  | false =>
      obtain ⟨nf, hf, h⟩ := Option.bind_eq_some_iff.mp h
      by_cases hinner : p = nf.child d.flip
      · rw [if_pos hinner] at h
        obtain ⟨⟨m₁, p₁⟩, h₁, h⟩ := Option.bind_eq_some_iff.mp h
        obtain ⟨m₁', hrot, heq⟩ := Option.map_eq_some_iff.mp h₁
        have hm₁ : m₁' = m₁ := congrArg Prod.fst heq
        subst hm₁
        have ⟨hrise₁, hcount₁⟩ := rotate_some hrot
        have ⟨m₂, m₃, h₂, h₃, hrise₃, hcount₃⟩ := outer_some h
        refine ⟨[⟨d, m, f⟩, ⟨d.flip, m₃, g⟩], ?_, ?_, ?_⟩
        · simp [sideRotations, hg, huncle, hf, hinner, hrot, h₂, h₃]
        · have hcount : m'.rotationcount = m₁'.rotationcount + 1 := hcount₃
          show m'.rotationcount = m.rotationcount + 2
          omega
        · simpa using ⟨hrise₁, hrise₃⟩
      · rw [if_neg hinner] at h
        have ⟨m₂, m₃, h₂, h₃, hrise₃, hcount₃⟩ := outer_some h
        refine ⟨[⟨d.flip, m₃, g⟩], ?_, ?_, ?_⟩
        · simp [sideRotations, hg, huncle, hf, hinner, h₂, h₃]
        · exact hcount₃
        · simpa using hrise₃

/-- What a round of the loop that returns has met: the parent, the grandparent, and
a rising child at every rotation. -/
theorem fixStep_some {m m' : RbMem} {p q : Ptr} (h : RedBlackHeap.fixStep m p = some (m', q)) :
    (∃ node parentnode grandparnt, load m.heap p = some node ∧
      load m.heap node.parent = some parentnode ∧
      load m.heap parentnode.parent = some grandparnt) ∧
    ∃ calls, stepRotations m p = some calls ∧
      m'.rotationcount = m.rotationcount + calls.length ∧ ∀ c ∈ calls, c.RisingChild := by
  obtain ⟨n, hn, h⟩ := Option.bind_eq_some_iff.mp h
  obtain ⟨nf, hf, h⟩ := Option.bind_eq_some_iff.mp h
  obtain ⟨ng, hg, h⟩ := Option.bind_eq_some_iff.mp h
  refine ⟨⟨n, nf, ng, hn, hf, hg⟩, ?_⟩
  by_cases hleft : n.parent = ng.left
  · rw [if_pos hleft] at h
    obtain ⟨calls, hcalls, hcount, hrise⟩ := fixSide_some h
    refine ⟨calls, ?_, hcount, hrise⟩
    simp only [stepRotations, hn, hf, hg, Option.bind_eq_bind, Option.bind_some, if_pos hleft]
    exact hcalls
  · rw [if_neg hleft] at h
    obtain ⟨calls, hcalls, hcount, hrise⟩ := fixSide_some h
    refine ⟨calls, ?_, hcount, hrise⟩
    simp only [stepRotations, hn, hf, hg, Option.bind_eq_bind, Option.bind_some, if_neg hleft]
    exact hcalls

/-! ## Along the loop -/

/-- The states in which the condition of the loop is tested, from the call on. -/
inductive Rounds (m : RbMem) (p : Ptr) : RbMem → Ptr → Prop
  | entry : Rounds m p m p
  | round {m₁ m₂ : RbMem} {p₁ p₂ : Ptr} : Rounds m p m₁ p₁ →
      RedBlackHeap.fixNeeded m₁ p₁ = some true →
      RedBlackHeap.fixStep m₁ p₁ = some (m₂, p₂) → Rounds m p m₂ p₂

/-- The call of `fixinsertion` for `p` is safe: it ends with at most two rotations, with
any fuel beyond a bound; the condition follows no NULL pointer; whenever the body
runs the parent and the grandparent exist and the body succeeds, with a rising child
at every rotation. -/
structure FixupSafe (m : RbMem) (p : Ptr) : Prop where
  ends : ∃ m', RedBlackHeap.fixinsertion m p = some m' ∧
    m'.rotationcount ≤ m.rotationcount + 2
  fuel : ∃ m', ∀ fuel, m.next + 1 ≤ fuel → RedBlackHeap.fixLoop fuel m p = some m'
  condition : ∀ m₁ p₁, Rounds m p m₁ p₁ → (RedBlackHeap.fixNeeded m₁ p₁).isSome
  body : ∀ m₁ p₁, Rounds m p m₁ p₁ → RedBlackHeap.fixNeeded m₁ p₁ = some true →
    (∃ node parentnode grandparnt, load m₁.heap p₁ = some node ∧
      load m₁.heap node.parent = some parentnode ∧
      load m₁.heap parentnode.parent = some grandparnt) ∧
    ∃ m₂ p₂ calls, RedBlackHeap.fixStep m₁ p₁ = some (m₂, p₂) ∧
      stepRotations m₁ p₁ = some calls ∧
      m₂.rotationcount = m₁.rotationcount + calls.length ∧ ∀ c ∈ calls, c.RisingChild

/-- The loop is still climbing, or its condition has become false. -/
def InLoop (m : RbMem) (p : Ptr) : Prop :=
  (∃ t path, Climbing m p t path) ∨ RedBlackHeap.fixNeeded m p = some false

theorem InLoop.needed {m : RbMem} {p : Ptr} (h : InLoop m p) :
    (RedBlackHeap.fixNeeded m p).isSome := by
  rcases h with ⟨t, path, hclimb⟩ | hdone
  · rw [hclimb.needed]
    rfl
  · rw [hdone]
    rfl

theorem InLoop.round {m : RbMem} {p : Ptr} (h : InLoop m p)
    (htrue : RedBlackHeap.fixNeeded m p = some true) :
    ∃ m' q, RedBlackHeap.fixStep m p = some (m', q) ∧ InLoop m' q := by
  rcases h with ⟨t, path, hclimb⟩ | hdone
  · obtain ⟨f, g, rest, m', q, -, hstep, -, hcases⟩ := hclimb.round htrue
    refine ⟨m', q, hstep, ?_⟩
    rcases hcases with ⟨t', hclimb', -, -⟩ | ⟨-, hdone, -⟩
    · exact .inl ⟨t', rest, hclimb'⟩
    · exact .inr hdone
  · rw [hdone] at htrue
    cases htrue

theorem Rounds.inLoop {m m₁ : RbMem} {p p₁ : Ptr} (h : Rounds m p m₁ p₁) (hp : InLoop m p) :
    InLoop m₁ p₁ := by
  induction h with
  | entry => exact hp
  | round _ htrue hstep ih =>
      obtain ⟨m', q, hstep', hq⟩ := ih.round htrue
      have heq := Option.some.inj (hstep.symm.trans hstep')
      rw [Prod.mk.injEq] at heq
      obtain ⟨rfl, rfl⟩ := heq
      exact hq

/-- More fuel does not change a result. -/
theorem fixLoop_mono {n : Nat} : ∀ {m m' : RbMem} {p : Ptr},
    RedBlackHeap.fixLoop n m p = some m' → ∀ k, n ≤ k →
      RedBlackHeap.fixLoop k m p = some m' := by
  induction n with
  | zero =>
      intro m m' p h
      cases h
  | succ n ih =>
      intro m m' p h k hk
      obtain ⟨k, rfl⟩ : ∃ j, k = j + 1 := ⟨k - 1, by omega⟩
      rw [RedBlackHeap.fixLoop] at h ⊢
      obtain ⟨needed, hneeded, h⟩ := Option.bind_eq_some_iff.mp h
      rw [hneeded]
      cases needed with
      | false => exact h
      | true =>
          obtain ⟨⟨m₁, q⟩, hstep, hrest⟩ := Option.bind_eq_some_iff.mp h
          have hlater := ih hrest k (by omega)
          simpa [hstep] using hlater

theorem fixupSafe_of_climbing {m : RbMem} {p : Ptr} {t : RbTree} {path : RbPath}
    (h : Climbing m p t path) (hlen : path.length ≤ m.next)
    (hnode : ∃ a v l r, fixUp t path = .node a v l r) : FixupSafe m p := by
  obtain ⟨m₁, hloop, h₁, -, hcount⟩ := fixLoop_rule (m.next + 1) h (by omega)
  refine
    { ends := ?_
      fuel := ⟨m₁, fixLoop_mono hloop⟩
      condition := fun m₂ q hrounds => (hrounds.inLoop (.inl ⟨t, path, h⟩)).needed
      body := fun m₂ q hrounds htrue => ?_ }
  · obtain ⟨a, v, l, r, hfix⟩ := hnode
    rw [hfix] at h₁
    obtain ⟨m₂, hpaint, -, -, hcount₂⟩ := paint_rule (d := .left) (q := []) h₁ .black
    have hroot : m₁.root = some a := h₁.root
    refine ⟨m₂, ?_, by omega⟩
    simp only [RedBlackHeap.fixinsertion, hloop, hroot, hpaint, Option.bind_eq_bind,
      Option.bind_some]
  · obtain ⟨m₃, q', hstep, -⟩ := (hrounds.inLoop (.inl ⟨t, path, h⟩)).round htrue
    obtain ⟨hnodes, calls, hcalls, hcount₃, hrise⟩ := fixStep_some hstep
    exact ⟨hnodes, m₃, q', calls, hstep, hcalls, hcount₃, hrise⟩

/-! ## Every insertion -/

/-- After any sequence of insertions the root is BLACK, and the next call of
`fixinsertion` is safe. -/
theorem fixupSafe_of_shape {m : RbMem} {t : RbTree} (h : Shape m t) (hblack : isRed t = false)
    (data : Int) :
    ∃ m₁ p, beforeFixup m data = some (m₁, p) ∧
      RedBlackHeap.insertion m data = RedBlackHeap.fixinsertion m₁ p ∧ FixupSafe m₁ p := by
  have hsize := h.size_le
  obtain ⟨m₁, m₂, hcreate, hfind, hop₂, m₃, hop₃, h₃, hnext₃, -⟩ := attach_rule h data
  have hlen : (descend (goesLeft data) t []).length ≤ t.size := length_descend_le _ t []
  have hclimb : Climbing m₃ (some m.next) (newNode m.next data) (descend (goesLeft data) t []) :=
    { focus := rfl
      node := by simp
      rep := h₃
      top := topBlack_descend _ t [] (by simp [TopBlack]) (fun _ => hblack) }
  have hbefore : beforeFixup m data = some (m₃, some m.next) := by
    simp only [beforeFixup, hcreate, hfind, hop₂, hop₃, Option.bind_eq_bind, Option.bind_some,
      Option.pure_def]
  refine ⟨m₃, some m.next, hbefore, ?_,
    fixupSafe_of_climbing hclimb (by omega) (exists_fixUp_newNode m.next data t)⟩
  rw [insertion_eq, hbefore, Option.bind_some]

/-- **Insertion fix-up is safe and cheap on every reachable tree.** -/
theorem fixups_safe (values : List Int) :
    ∃ m, RedBlackHeap.insertAll values = some m ∧ m.rotationcount ≤ 2 * values.length ∧
      ∀ data, ∃ m₁ p, beforeFixup m data = some (m₁, p) ∧
        RedBlackHeap.insertion m data = RedBlackHeap.fixinsertion m₁ p ∧ FixupSafe m₁ p := by
  have h : ∃ m t, RedBlackHeap.insertAll values = some m ∧ Shape m t ∧ isRed t = false ∧
      m.rotationcount ≤ 2 * values.length := by
    induction values using List.reverseRecOn with
    | nil => exact ⟨RbMem.init, .leaf, rfl, shape_init, rfl, Nat.le_refl _⟩
    | append_singleton values data ih =>
        obtain ⟨m, t, hrun, hshape, hblack, hcount⟩ := ih
        obtain ⟨m', hop, hshape', -, hcount'⟩ := insertion_rule hshape hblack data
        refine ⟨m', _, ?_, hshape', isRed_insertTree m.next data t, ?_⟩
        · rw [RedBlackHeap.insertAll_concat, hrun]
          exact hop
        · rw [List.length_append, List.length_singleton]
          omega
  obtain ⟨m, t, hrun, hshape, hblack, hcount⟩ := h
  exact ⟨m, hrun, hcount, fixupSafe_of_shape hshape hblack⟩

end SystemsInC.Ports.RedBlackFixup
