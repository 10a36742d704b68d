import SystemsInC.Ports.RedBlackColors

/-!
# How deep the tree gets

The height of a red-black tree is at most twice the logarithm of its size, so the loop of
`insertion` is short as long as the insertions keep clear of the inner case of the fix-up.
With the inner case the tree need not be balanced at all: the values 0, 3, 2, 1, 6, 5, 4, 9,
8, 7, … hang below each other, two levels for every three insertions, `insertAll_spine`.
-/

namespace SystemsInC.Ports.RedBlackHeight

open SystemsInC.Verified.CellHeap
open SystemsInC.Verified.TreeZipper
open SystemsInC.Ports.RedBlackHeap (Color RbMem)
open SystemsInC.Ports.RedBlackShape
open SystemsInC.Ports.RedBlackInsert
open SystemsInC.Ports.RedBlackContent
open SystemsInC.Ports.RedBlackColors

/-! ## Red-black trees are balanced -/

/-- The loop of `insertion` makes `n` turns to find a place for `data`. -/
def SearchTurns (m : RbMem) (data : Int) (n : Nat) : Prop :=
  ∀ fuel, (RedBlackHeap.findParent fuel m data m.root none).isSome = true ↔ n < fuel

theorem goesLeft_of_lt {data : Int} {v : RbVal} (h : data < v.key) : goesLeft data v = true :=
  decide_eq_true h

theorem goesLeft_of_le {data : Int} {v : RbVal} (h : v.key ≤ data) : goesLeft data v = false :=
  decide_eq_false (Int.not_lt.mpr h)

/-- The loop makes a turn for each node on the way down. -/
theorem findParent_isSome_iff {m : RbMem} (data : Int) (t : RbTree) (path : RbPath) (q : Ptr)
    (fuel : Nat) (h : OnHeap m (plug t path)) :
    (RedBlackHeap.findParent fuel m data t.ptr q).isSome = true ↔
      (descend (goesLeft data) t path).length < fuel + path.length := by
  induction t generalizing path q fuel with
  | leaf =>
      rw [descend]
      cases fuel with
      | zero => simp [RedBlackHeap.findParent]
      | succ fuel => simp [RedBlackHeap.findParent]
  | node a v l r ihl ihr =>
      cases fuel with
      | zero =>
          have hlonger := length_le_descend (goesLeft data) (.node a v l r) path
          simp [RedBlackHeap.findParent, hlonger]
      | succ fuel =>
          have hread : m.heap a = some ⟨v.key, v.color, l.ptr, r.ptr, parentPtr path⟩ :=
            h.read (d := .left)
          by_cases hgo : data < v.key
          · have hleft := ihl (⟨.left, a, v, r⟩ :: path) (some a) fuel h
            rw [descend_left (goesLeft_of_lt hgo)]
            simp only [ptr_node, RedBlackHeap.findParent, reduceCtorEq, if_false, load_some, hread,
              Option.bind_eq_bind, Option.bind_some, if_pos hgo]
            rw [hleft, List.length_cons]
            omega
          · have hright := ihr (⟨.right, a, v, l⟩ :: path) (some a) fuel h
            rw [descend_right (goesLeft_of_le (Int.not_lt.mp hgo))]
            simp only [ptr_node, RedBlackHeap.findParent, reduceCtorEq, if_false, load_some, hread,
              Option.bind_eq_bind, Option.bind_some, if_neg hgo]
            rw [hright, List.length_cons]
            omega

theorem searchTurns_descend {m : RbMem} {t : RbTree} (h : OnHeap m t) (data : Int) :
    SearchTurns m data (descend (goesLeft data) t []).length := by
  intro fuel
  rw [h.root]
  exact findParent_isSome_iff data t [] none fuel h

/-- Half of the nodes of a way, rounded up, are BLACK, except for a RED root. -/
theorem height_le_blackHeight {t : RbTree} {n : Nat} (hred : NoRedRed t)
    (hblack : blackHeight t = some n) : t.height ≤ 2 * n + (isRed t).toNat := by
  induction t generalizing n with
  | leaf =>
      cases hblack
      exact Nat.le_refl 0
  | node a v l r ihl ihr =>
      obtain ⟨m, hl, hr, hn⟩ := blackHeight_node_eq_some.mp hblack
      have hleft := ihl hred.2.1 hl
      have hright := ihr hred.2.2 hr
      have hcolor : isRed (.node a v l r) = decide (v.color = .red) := rfl
      rw [HeapTree.height, hcolor, hn]
      cases hv : v.color with
      | red =>
          obtain ⟨hlred, hrred⟩ := hred.1 hv
          rw [hlred] at hleft
          rw [hrred] at hright
          simp only [Bool.toNat_false, Nat.add_zero] at hleft hright
          simp [weight]
          omega
      | black =>
          have hlone := Bool.toNat_le (isRed l)
          have hrone := Bool.toNat_le (isRed r)
          simp [weight]
          omega

theorem two_pow_blackHeight_le {t : RbTree} {n : Nat} (hblack : blackHeight t = some n) :
    2 ^ n ≤ t.size + 1 := by
  induction t generalizing n with
  | leaf =>
      cases hblack
      exact Nat.le_refl 1
  | node a v l r ihl ihr =>
      have ⟨m, hl, hr, hn⟩ := blackHeight_node_eq_some.mp hblack
      have hleft := ihl hl
      have hright := ihr hr
      have hweight : weight v.color ≤ 1 := by cases v.color <;> decide
      calc 2 ^ n ≤ 2 ^ (m + 1) := Nat.pow_le_pow_right (by decide) (by omega)
        _ = 2 ^ m + 2 ^ m := by rw [Nat.pow_succ]; omega
        _ ≤ (l.size + 1) + (r.size + 1) := Nat.add_le_add hleft hright
        _ = (HeapTree.node a v l r).size + 1 := by rw [HeapTree.size]; omega

/-- Twice the logarithm of the size bounds the height. -/
theorem RedBlack.height_le {t : RbTree} (h : RedBlack t) : t.height ≤ 2 * (t.size + 1).log2 := by
  have ⟨n, hn⟩ := Option.isSome_iff_exists.mp h.balanced
  have hheight := height_le_blackHeight h.noRedRed hn
  rw [h.rootBlack, Bool.toNat_false, Nat.add_zero] at hheight
  have hlog : n ≤ (t.size + 1).log2 :=
    (Nat.le_log2 (Nat.succ_ne_zero t.size)).mpr (two_pow_blackHeight_le hn)
  omega

/-- Insertions that keep clear of the inner case leave red-black trees behind. -/
theorem redBlack_of_neverInner {values : List Int} (h : NeverInner values) {past : List Int}
    (hpast : past <+: values) : RedBlack (build past) := by
  induction past using List.reverseRecOn with
  | nil =>
      exact
        { rootBlack := rfl
          noRedRed := trivial
          balanced := rfl }
  | append_singleton past data ih =>
      have hbefore := ih ((List.prefix_append past [data]).trans hpast)
      have ⟨m, hrun, hcontent⟩ := exists_content past
      rw [build_concat]
      exact (redBlack_insertTree hbefore _ data).mpr
        (h past data m (build past) hpast hrun hcontent.shape.rep)

/-- **Short searches.**  As long as no insertion runs into the inner case, the loop of the next
one makes at most twice as many turns as the logarithm of the number of values. -/
theorem insertAll_short {values : List Int} (h : NeverInner values) (past : List Int)
    (hpast : past <+: values) :
    ∃ m t, RedBlackHeap.insertAll past = some m ∧ OnHeap m t ∧
      t.height ≤ 2 * (past.length + 1).log2 ∧
      ∀ data, ∃ n, SearchTurns m data n ∧ n ≤ 2 * (past.length + 1).log2 := by
  have ⟨m, hrun, hcontent⟩ := exists_content past
  have hrep := hcontent.shape.rep
  have hheight := RedBlack.height_le (redBlack_of_neverInner h hpast)
  have hsize : (build past).size = past.length := by
    rw [← length_inorder (fun _ v => v.key) (build past)]
    exact hcontent.perm.length_eq
  rw [hsize] at hheight
  refine ⟨m, build past, hrun, hrep, hheight, fun data => ⟨_, searchTurns_descend hrep data, ?_⟩⟩
  exact (length_descend_le_height (goesLeft data) (build past) []).trans hheight

/-- A search to the right of every node takes no turn to the left. -/
theorem dir_eq_right {data : Int} {t : RbTree} (hkeys : ∀ key ∈ keys t, key ≤ data)
    {path : RbPath} (hpath : ∀ f ∈ path, f.dir = .right) :
    ∀ f ∈ descend (goesLeft data) t path, f.dir = .right := by
  induction t generalizing path with
  | leaf => exact hpath
  | node a v l r _ ihr =>
      have hroot : v.key ≤ data := hkeys v.key (by simp [keys, inorder])
      have hrest : ∀ key ∈ keys r, key ≤ data := by
        intro key hkey
        refine hkeys key ?_
        rw [keys, inorder]
        exact List.mem_append_right _ (List.mem_cons_of_mem _ hkey)
      rw [descend_right (goesLeft_of_le hroot)]
      refine ihr hrest (fun f hf => ?_)
      rcases List.mem_cons.mp hf with heq | hf
      · rw [heq]
      · exact hpath f hf

/-- Without turns there is no inner case. -/
theorem takesInner_of_right {path : RbPath} (h : ∀ f ∈ path, f.dir = .right) :
    takesInner path = false := by
  induction path using takesInner.induct with
  | case1 f g path hred huncle ih =>
      rw [takesInner, if_pos hred, if_pos huncle]
      exact ih (fun e he => h e (List.mem_cons_of_mem f (List.mem_cons_of_mem g he)))
  | case2 f g path hred huncle =>
      have hf := h f List.mem_cons_self
      have hg := h g (List.mem_cons_of_mem f List.mem_cons_self)
      rw [takesInner, if_pos hred, if_neg huncle, hf, hg]
      rfl
  | case3 f g path hred => rw [takesInner, if_neg hred]
  | case4 path hshort =>
      rw [takesInner]
      exact hshort

/-- Values in ascending order keep clear of the inner case. -/
theorem neverInner_ascending {values : List Int} (h : values.Pairwise (· ≤ ·)) :
    NeverInner values := by
  intro past data m t hpast hrun hrep
  have ⟨m', hrun', hcontent⟩ := exists_content past
  have hm : m' = m := Option.some.inj (hrun'.symm.trans hrun)
  subst hm
  have ht : build past = t := hcontent.shape.rep.unique hrep
  subst ht
  have hsorted := h.sublist hpast.sublist
  rw [List.pairwise_append] at hsorted
  refine takesInner_of_right (dir_eq_right (fun key hkey => ?_) (fun f hf => nomatch hf))
  exact hsorted.2.2 key (hcontent.perm.mem_iff.mp hkey) data List.mem_cons_self

theorem insertAll_short_ascending :
    ∃ m, RedBlackHeap.insertAll [1, 2, 3, 4, 5, 6, 7] = some m ∧
      ∀ data, ∃ n, SearchTurns m data n ∧ n ≤ 6 := by
  have ⟨m, _, hrun, _, _, hshort⟩ :=
    insertAll_short (neverInner_ascending (by decide)) [1, 2, 3, 4, 5, 6, 7] (List.prefix_refl _)
  exact ⟨m, hrun, hshort⟩

/-! ## The inner case makes them deep -/

/-- 0, then three numbers in descending order, the next three, and so on. -/
def triples : Nat → List Int
  | 0 => [0]
  | k + 1 => triples k ++ [3 * (k : Int) + 3] ++ [3 * (k : Int) + 2] ++ [3 * (k : Int) + 1]

theorem length_triples (k : Nat) : (triples k).length = 3 * k + 1 := by
  induction k with
  | zero => rfl
  | succ k ih =>
      rw [triples, List.length_append, List.length_append, List.length_append, ih]
      simp
      omega

theorem mem_triples {k : Nat} {v : Int} (h : v ∈ triples k) : 0 ≤ v ∧ v ≤ 3 * (k : Int) := by
  induction k with
  | zero =>
      rw [List.mem_singleton.mp h]
      exact ⟨Int.le_refl 0, Int.le_refl 0⟩
  | succ k ih =>
      simp only [triples, List.mem_append, List.mem_singleton] at h
      push_cast
      rcases h with ((hold | rfl) | rfl) | rfl
      · have hbound := ih hold
        omega
      all_goals omega

theorem paintRoot_plug (t : RbTree) {path : RbPath} (hne : path ≠ []) (htop : TopBlack path) :
    paintRoot .black (plug t path) = plug t path := by
  induction path generalizing t with
  | nil => exact absurd rfl hne
  | cons f path ih =>
      cases path with
      | nil =>
          have hblack := htop f rfl
          have hpaint : f.val.paint .black = f.val := by rw [RbVal.paint, ← hblack]
          rw [plug, plug, Frame.attach]
          cases f.dir with
          | left => rw [branch, paintRoot, hpaint]
          | right => rw [branch, paintRoot, hpaint]
      | cons g path =>
          refine ih (f.attach t) (List.cons_ne_nil g path) (fun e he => htop e ?_)
          rw [List.getLast?_cons_cons]
          exact he

/-- The path goes to the right at keys up to `top`, from a BLACK root. -/
structure Spine (top : Int) (path : RbPath) : Prop where
  nonempty : path ≠ []
  topBlack : TopBlack path
  right : ∀ f ∈ path, f.dir = .right ∧ f.val.key ≤ top

theorem Spine.descend_eq {top data : Int} {path : RbPath} (h : Spine top path)
    (hdata : top ≤ data) (t : RbTree) :
    descend (goesLeft data) (plug t path) [] = descend (goesLeft data) t path := by
  refine descend_plug_right _ t (fun f hf => ?_)
  have ⟨hdir, hkey⟩ := h.right f hf
  exact ⟨hdir, goesLeft_of_le (hkey.trans hdata)⟩

/-- An insertion in a tree with a spine, when the fix-up stays below the spine. -/
theorem Spine.insert {top data : Int} {path : RbPath} (h : Spine top path) (hdata : top ≤ data)
    {addr : Nat} {t : RbTree} (t' : RbTree)
    (hfix : fixUp (newNode addr data) (descend (goesLeft data) t path) = plug t' path) :
    insertTree addr data (plug t path) = plug t' path := by
  rw [insertTree, h.descend_eq hdata, hfix]
  exact paintRoot_plug t' h.nonempty h.topBlack

/-- The first number of three becomes the child of the last node. -/
theorem insert_first {top : Int} {path : RbPath} (h : Spine top path) (a b : Nat) :
    insertTree b (top + 3) (plug (.node a ⟨top, .black⟩ .leaf .leaf) path) =
      plug (.node a ⟨top, .black⟩ .leaf (newNode b (top + 3))) path := by
  refine h.insert (by omega) _ ?_
  have hlast : goesLeft (top + 3) ⟨top, .black⟩ = false := goesLeft_of_le (by show top ≤ _; omega)
  rw [descend_right hlast, descend]
  exact fixUp_of_not_needed rfl

/-- The second one runs into the inner case. -/
theorem insert_second {top : Int} {path : RbPath} (h : Spine top path) (a b c : Nat) :
    insertTree c (top + 2) (plug (.node a ⟨top, .black⟩ .leaf (newNode b (top + 3))) path) =
      plug (.node c ⟨top + 2, .red⟩ (.node a ⟨top, .red⟩ .leaf .leaf)
        (.node b ⟨top + 3, .black⟩ .leaf .leaf)) path := by
  refine h.insert (by omega) _ ?_
  have hlast : goesLeft (top + 2) ⟨top, .black⟩ = false := goesLeft_of_le (by show top ≤ _; omega)
  have hfirst : goesLeft (top + 2) ⟨top + 3, .red⟩ = true :=
    goesLeft_of_lt (by show _ < top + 3; omega)
  have huncle : ¬ isRed (.leaf : RbTree) = true := Bool.false_ne_true
  rw [descend_right hlast, newNode, newNode, descend_left hfirst, descend, fixUp, if_pos ⟨rfl, rfl⟩,
    if_neg huncle, if_neg Dir.noConfusion]
  rfl

/-- So does the third one, below the second. -/
theorem insert_third {top : Int} {path : RbPath} (h : Spine top path) (a b c d : Nat) :
    insertTree d (top + 1) (plug (.node c ⟨top + 2, .red⟩ (.node a ⟨top, .red⟩ .leaf .leaf)
        (.node b ⟨top + 3, .black⟩ .leaf .leaf)) path) =
      plug (.node b ⟨top + 3, .black⟩ .leaf .leaf)
        (⟨.right, c, ⟨top + 2, .red⟩, .leaf⟩ ::
          ⟨.right, d, ⟨top + 1, .red⟩, .node a ⟨top, .black⟩ .leaf .leaf⟩ :: path) := by
  refine h.insert (by omega) (.node d ⟨top + 1, .red⟩ (.node a ⟨top, .black⟩ .leaf .leaf)
    (.node c ⟨top + 2, .red⟩ .leaf (.node b ⟨top + 3, .black⟩ .leaf .leaf))) ?_
  have huncle : ¬ isRed (.node b ⟨top + 3, .black⟩ .leaf .leaf) = true := Bool.false_ne_true
  have hsecond : goesLeft (top + 1) ⟨top + 2, .red⟩ = true :=
    goesLeft_of_lt (by show _ < top + 2; omega)
  have hlast : goesLeft (top + 1) ⟨top, .red⟩ = false := goesLeft_of_le (by show top ≤ _; omega)
  rw [descend_left hsecond, descend_right hlast, descend, fixUp, if_pos ⟨rfl, rfl⟩,
    if_neg huncle, if_neg Dir.noConfusion]
  rfl

/-- Three insertions make the spine longer by two. -/
theorem Spine.next {top : Int} {path : RbPath} (h : Spine top path) (a c d : Nat) :
    Spine (top + 3) (⟨.right, c, ⟨top + 2, .red⟩, .leaf⟩ ::
      ⟨.right, d, ⟨top + 1, .red⟩, .node a ⟨top, .black⟩ .leaf .leaf⟩ :: path) where
  nonempty := List.cons_ne_nil _ _
  topBlack f hf := by
    have ⟨g, rest, hpath⟩ := List.exists_cons_of_ne_nil h.nonempty
    refine h.topBlack f ?_
    rw [hpath] at hf ⊢
    rw [List.getLast?_cons_cons, List.getLast?_cons_cons] at hf
    exact hf
  right f hf := by
    rcases List.mem_cons.mp hf with hfirst | hf
    · rw [hfirst]
      exact ⟨rfl, by show top + 2 ≤ top + 3; omega⟩
    rcases List.mem_cons.mp hf with hsecond | hf
    · rw [hsecond]
      exact ⟨rfl, by show top + 1 ≤ top + 3; omega⟩
    · have ⟨hdir, hkey⟩ := h.right f hf
      exact ⟨hdir, by omega⟩

theorem build_triples (k : Nat) :
    ∃ a path,
      build (triples (k + 1)) = plug (.node a ⟨3 * (k : Int) + 3, .black⟩ .leaf .leaf) path ∧
      Spine (3 * (k : Int) + 3) path ∧ path.length = 2 * (k + 1) := by
  induction k with
  | zero =>
      refine ⟨1, [⟨.right, 2, ⟨2, .red⟩, .leaf⟩,
        ⟨.right, 3, ⟨1, .black⟩, .node 0 ⟨0, .black⟩ .leaf .leaf⟩], by decide, ?_, rfl⟩
      exact
        { nonempty := List.cons_ne_nil _ _
          topBlack := fun f hf => by cases hf; rfl
          right := by decide }
  | succ k ih =>
      have ⟨a, path, hbuild, hspine, hlength⟩ := ih
      have ⟨top, htop⟩ : ∃ top : Int, top = 3 * (k : Int) + 3 := ⟨_, rfl⟩
      have hcast : 3 * ((k + 1 : Nat) : Int) = top := by
        rw [htop]
        push_cast
        omega
      rw [← htop] at hbuild hspine
      rw [triples, hcast, build_concat, build_concat, build_concat, hbuild, insert_first hspine,
        insert_second hspine, insert_third hspine]
      exact ⟨_, _, rfl, hspine.next a _ _, by simp only [List.length_cons]; omega⟩

/-- **Deep trees.**  For any `k` there are `3 k + 1` values of type `int` after which the tree
has more than `2 k` levels and the loop of `insertion` makes `2 k + 1` turns for every greater
value. -/
theorem insertAll_spine (k : Nat) (hk : 3 * k ≤ 2147483647) :
    ∃ values m t, values.length = 3 * k + 1 ∧ (∀ v ∈ values, 0 ≤ v ∧ v ≤ 2147483647) ∧
      RedBlackHeap.insertAll values = some m ∧ OnHeap m t ∧ 2 * k + 1 ≤ t.height ∧
      ∀ data, 3 * (k : Int) ≤ data → SearchTurns m data (2 * k + 1) := by
  have ⟨m, hrun, hcontent⟩ := exists_content (triples k)
  have hrep := hcontent.shape.rep
  have hint : ∀ v ∈ triples k, 0 ≤ v ∧ v ≤ 2147483647 := by
    intro v hv
    have hbound := mem_triples hv
    omega
  refine ⟨triples k, m, build (triples k), length_triples k, hint, hrun, hrep, ?_⟩
  suffices h : 2 * k + 1 ≤ (build (triples k)).height ∧ ∀ data, 3 * (k : Int) ≤ data →
      (descend (goesLeft data) (build (triples k)) []).length = 2 * k + 1 from
    ⟨h.1, fun data hdata => h.2 data hdata ▸ searchTurns_descend hrep data⟩
  cases k with
  | zero =>
      refine ⟨by decide, fun data hdata => ?_⟩
      show (descend (goesLeft data) (.node 0 ⟨0, .black⟩ .leaf .leaf) []).length = 1
      have hroot : goesLeft data ⟨0, .black⟩ = false := goesLeft_of_le (by simpa using hdata)
      rw [descend_right hroot]
      rfl
  | succ k =>
      have ⟨a, path, hbuild, hspine, hlength⟩ := build_triples k
      rw [hbuild]
      constructor
      · have hheight := height_plug_ge (.node a ⟨3 * (k : Int) + 3, .black⟩ .leaf .leaf) path
        have hone :
            (HeapTree.node a (⟨3 * (k : Int) + 3, .black⟩ : RbVal) .leaf .leaf).height = 1 := rfl
        omega
      · intro data hdata
        have htop : 3 * (k : Int) + 3 ≤ data := by omega
        have hlast : goesLeft data ⟨3 * (k : Int) + 3, .black⟩ = false := goesLeft_of_le htop
        rw [hspine.descend_eq htop, descend_right hlast, descend, List.length_cons, hlength]

/-- Seven values for five levels. -/
theorem insertAll_spine_seven :
    ∃ values m t, values.length = 3 * 2 + 1 ∧ (∀ v ∈ values, 0 ≤ v ∧ v ≤ 2147483647) ∧
      RedBlackHeap.insertAll values = some m ∧ OnHeap m t ∧ 2 * 2 + 1 ≤ t.height ∧
      ∀ data, 3 * ((2 : Nat) : Int) ≤ data → SearchTurns m data (2 * 2 + 1) :=
  insertAll_spine 2 (by decide)

end SystemsInC.Ports.RedBlackHeight
