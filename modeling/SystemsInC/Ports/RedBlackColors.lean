import SystemsInC.Ports.RedBlackContent

/-!
# When insertion keeps the red-black invariant

In the inner case `fixinsertion` saves the parent, rotates it below the new node
and then paints the parent, not the node that has taken its place.  The new node
keeps its RED above a RED grandparent, or, if it has become the root, the two
sides under it count a different number of BLACK nodes.  `redBlack_insertTree`:
from a red-black tree, insertion leads to a red-black tree exactly if it does not
run into the inner case.
-/

namespace SystemsInC.Ports.RedBlackColors

open SystemsInC.Verified.TreeZipper
open SystemsInC.Ports.RedBlackHeap (Color RbMem)
open SystemsInC.Ports.RedBlackShape
open SystemsInC.Ports.RedBlackInsert
open SystemsInC.Ports.RedBlackContent

/-! ## Red-black trees -/

/-- No RED node has a RED child. -/
def NoRedRed : RbTree → Prop
  | .leaf => True
  | .node _ v l r =>
      (v.color = .red → isRed l = false ∧ isRed r = false) ∧ NoRedRed l ∧ NoRedRed r

instance decidableNoRedRed : (t : RbTree) → Decidable (NoRedRed t)
  | .leaf => isTrue trivial
  | .node _ v l r =>
      have := decidableNoRedRed l
      have := decidableNoRedRed r
      inferInstanceAs (Decidable
        ((v.color = .red → isRed l = false ∧ isRed r = false) ∧ NoRedRed l ∧ NoRedRed r))

def weight : Color → Nat
  | .red => 0
  | .black => 1

/-- The number of BLACK nodes on every way from the root to a NULL link, if it is
the same on all of them. -/
def blackHeight : RbTree → Option Nat
  | .leaf => some 0
  | .node _ v l r =>
      match blackHeight l, blackHeight r with
      | some m, some n => if m = n then some (m + weight v.color) else none
      | _, _ => none

structure RedBlack (t : RbTree) : Prop where
  rootBlack : isRed t = false
  noRedRed : NoRedRed t
  balanced : (blackHeight t).isSome

theorem noRedRed_branch (d : Dir) (a : Nat) (v : RbVal) (s t : RbTree) :
    NoRedRed (branch d a v s t) ↔
      (v.color = .red → isRed s = false ∧ isRed t = false) ∧ NoRedRed s ∧ NoRedRed t := by
  cases d
  · rfl
  · simp only [branch, NoRedRed]
    tauto

theorem isRed_branch (d : Dir) (a : Nat) (v : RbVal) (s t : RbTree) :
    isRed (branch d a v s t) = decide (v.color = .red) := by
  cases d <;> rfl

theorem blackHeight_node_eq_some {a : Nat} {v : RbVal} {l r : RbTree} {n : Nat} :
    blackHeight (.node a v l r) = some n ↔
      ∃ m, blackHeight l = some m ∧ blackHeight r = some m ∧ n = m + weight v.color := by
  simp only [blackHeight]
  cases hl : blackHeight l with
  | none => simp
  | some m =>
      cases hr : blackHeight r with
      | none => simp
      | some m' =>
          by_cases hm : m = m'
          · subst hm
            simp [eq_comm]
          · simp only [if_neg hm, Option.some.injEq]
            constructor
            · intro h
              simp at h
            · rintro ⟨k, hk, hk', -⟩
              exact absurd (hk.trans hk'.symm) hm

theorem blackHeight_branch_eq_some {d : Dir} {a : Nat} {v : RbVal} {s t : RbTree} {n : Nat} :
    blackHeight (branch d a v s t) = some n ↔
      ∃ m, blackHeight s = some m ∧ blackHeight t = some m ∧ n = m + weight v.color := by
  cases d
  · exact blackHeight_node_eq_some
  · refine blackHeight_node_eq_some.trans ⟨?_, ?_⟩
    · rintro ⟨m, hl, hr, hn⟩
      exact ⟨m, hr, hl, hn⟩
    · rintro ⟨m, hl, hr, hn⟩
      exact ⟨m, hr, hl, hn⟩

theorem noRedRed_paintRoot {t : RbTree} (h : NoRedRed t) : NoRedRed (paintRoot .black t) := by
  cases t with
  | leaf => exact h
  | node a v l r => exact ⟨by simp [RbVal.paint], h.2.1, h.2.2⟩

theorem balanced_paintRoot {t : RbTree} (c : Color) (h : (blackHeight t).isSome) :
    (blackHeight (paintRoot c t)).isSome := by
  obtain ⟨n, hn⟩ := Option.isSome_iff_exists.mp h
  cases t with
  | leaf => rfl
  | node a v l r =>
      obtain ⟨m, hl, hr, -⟩ := blackHeight_node_eq_some.mp hn
      have hpaint : blackHeight (paintRoot c (.node a v l r)) =
          some (m + weight (v.paint c).color) :=
        blackHeight_node_eq_some.mpr ⟨m, hl, hr, rfl⟩
      simp [hpaint]

/-- Painting a RED root BLACK adds one BLACK node to every way. -/
theorem blackHeight_paintRoot_black {t : RbTree} {n : Nat} (hred : isRed t = true)
    (h : blackHeight t = some n) : blackHeight (paintRoot .black t) = some (n + 1) := by
  cases t with
  | leaf => simp [isRed] at hred
  | node a v l r =>
      obtain ⟨m, hl, hr, hn⟩ := blackHeight_node_eq_some.mp h
      have hcolor : v.color = .red := by simpa [isRed] using hred
      rw [hcolor] at hn
      exact blackHeight_node_eq_some.mpr ⟨m, hl, hr, by rw [hn]; rfl⟩

/-! ## Paths in red-black trees -/

/-- The path of a red-black tree with a hole of black height `n`. -/
def PathOk : Nat → RbPath → Prop
  | _, [] => True
  | n, f :: path =>
      NoRedRed f.sibling ∧ blackHeight f.sibling = some n ∧
        (f.val.color = .red → isRed f.sibling = false ∧ headRed path = false) ∧
        PathOk (n + weight f.val.color) path

theorem plug_ok {t : RbTree} {n : Nat} {path : RbPath} (hpath : PathOk n path)
    (hheight : blackHeight t = some n) (hnored : NoRedRed t)
    (hjoin : isRed t = true → headRed path = false) :
    NoRedRed (plug t path) ∧ (blackHeight (plug t path)).isSome := by
  induction path generalizing t n with
  | nil => exact ⟨hnored, by simp [plug, hheight]⟩
  | cons f path ih =>
      obtain ⟨hsibling, hsame, hred, hrest⟩ := hpath
      refine ih hrest (blackHeight_branch_eq_some.mpr ⟨n, hheight, hsame, rfl⟩) ?_ ?_
      · refine (noRedRed_branch _ _ _ _ _).mpr ⟨fun hf => ?_, hnored, hsibling⟩
        refine ⟨?_, (hred hf).1⟩
        by_contra ht
        have hhead := hjoin (by simpa using ht)
        simp [headRed, hf] at hhead
      · intro hf
        have hf' : f.val.color = .red := by simpa [Frame.attach, isRed_branch] using hf
        exact (hred hf').2

theorem noRedRed_of_plug {t : RbTree} {path : RbPath} (h : NoRedRed (plug t path)) :
    NoRedRed t := by
  induction path generalizing t with
  | nil => exact h
  | cons f path ih => exact ((noRedRed_branch _ _ _ _ _).mp (ih h)).2.1

/-- A search in a red-black tree ends below a good path. -/
theorem pathOk_descend (goLeft : RbVal → Bool) {t : RbTree} {n : Nat} {path : RbPath}
    (hpath : PathOk n path) (hheight : blackHeight t = some n) (hnored : NoRedRed t)
    (hjoin : isRed t = true → headRed path = false) : PathOk 0 (descend goLeft t path) := by
  induction t generalizing n path with
  | leaf =>
      have hzero : n = 0 := by simpa [blackHeight, eq_comm] using hheight
      rw [hzero] at hpath
      exact hpath
  | node a v l r ihl ihr =>
      obtain ⟨m, hl, hr, hn⟩ := blackHeight_node_eq_some.mp hheight
      obtain ⟨hred, hnl, hnr⟩ := hnored
      rw [hn] at hpath
      have hhead : v.color = .red → headRed path = false := fun hv => hjoin (by simp [isRed, hv])
      unfold descend
      split
      · refine ihl (n := m) ⟨hnr, hr, fun hv => ⟨(hred hv).2, hhead hv⟩, hpath⟩ hl hnl ?_
        intro hlred
        by_contra hv
        have hv' : v.color = .red := by simpa [headRed] using hv
        simp [(hred hv').1] at hlred
      · refine ihr (n := m) ⟨hnl, hl, fun hv => ⟨(hred hv).1, hhead hv⟩, hpath⟩ hr hnr ?_
        intro hrred
        by_contra hv
        have hv' : v.color = .red := by simpa [headRed] using hv
        simp [(hred hv').2] at hrred

/-! ## The inner case -/

/-- Climbing a path from a RED node, the fix-up passes the pairs of a RED parent
and a RED uncle; at the first RED parent without a RED uncle it is in the inner
case if the two turns differ. -/
def takesInner : RbPath → Bool
  | f :: g :: path =>
      if f.val.color = .red then
        if isRed g.sibling then takesInner path else decide (f.dir ≠ g.dir)
      else false
  | _ => false

/-- The black height of the two lowest frames when the parent is RED. -/
private theorem pathOk_two {n : Nat} {f g : Frame RbVal} {path : RbPath}
    (h : PathOk n (f :: g :: path)) (hf : f.val.color = .red) :
    NoRedRed f.sibling ∧ blackHeight f.sibling = some n ∧ isRed f.sibling = false ∧
      NoRedRed g.sibling ∧ blackHeight g.sibling = some n ∧ PathOk (n + 1) path := by
  obtain ⟨hfs, hfh, hred, hgs, hgh, -, hrest⟩ := h
  obtain ⟨hfb, hgb⟩ := hred hf
  have hblack : g.val.color = .black := by
    cases hc : g.val.color with
    | red => simp [headRed, hc] at hgb
    | black => rfl
  rw [hf] at hgh hrest
  rw [hblack] at hrest
  exact ⟨hfs, hfh, hfb, hgs, hgh, hrest⟩

theorem recolored_ok {t : RbTree} {n : Nat} {f g : Frame RbVal} {path : RbPath}
    (hpath : PathOk n (f :: g :: path)) (hheight : blackHeight t = some n) (hnored : NoRedRed t)
    (hf : f.val.color = .red) (huncle : isRed g.sibling = true) :
    blackHeight (recolored t f g) = some (n + 1) ∧ NoRedRed (recolored t f g) := by
  obtain ⟨hfs, hfh, -, hgs, hgh, -⟩ := pathOk_two hpath hf
  have hpaint := blackHeight_paintRoot_black huncle hgh
  constructor
  · refine blackHeight_branch_eq_some.mpr ⟨n + 1, ?_, hpaint, rfl⟩
    exact blackHeight_branch_eq_some.mpr ⟨n, hheight, hfh, rfl⟩
  · refine (noRedRed_branch _ _ _ _ _).mpr ⟨fun _ => ⟨?_, ?_⟩, ?_, noRedRed_paintRoot hgs⟩
    · simp [isRed_branch, RbVal.paint]
    · cases hs : g.sibling with
      | leaf => rfl
      | node b w l r => simp [paintRoot, isRed, RbVal.paint]
    · exact (noRedRed_branch _ _ _ _ _).mpr ⟨by simp [RbVal.paint], hnored, hfs⟩

theorem rotatedOuter_ok {t : RbTree} {n : Nat} {f g : Frame RbVal} {path : RbPath}
    (hpath : PathOk n (f :: g :: path)) (hheight : blackHeight t = some n) (hnored : NoRedRed t)
    (hf : f.val.color = .red) (huncle : isRed g.sibling = false) :
    NoRedRed (plug (rotatedOuter t f g) path) ∧
      (blackHeight (plug (rotatedOuter t f g) path)).isSome := by
  obtain ⟨hfs, hfh, hfb, hgs, hgh, hrest⟩ := pathOk_two hpath hf
  refine plug_ok hrest ?_ ?_ ?_
  · refine blackHeight_branch_eq_some.mpr ⟨n, hheight, ?_, rfl⟩
    exact blackHeight_branch_eq_some.mpr ⟨n, hfh, hgh, rfl⟩
  · refine (noRedRed_branch _ _ _ _ _).mpr ⟨by simp [RbVal.paint], hnored, ?_⟩
    exact (noRedRed_branch _ _ _ _ _).mpr ⟨fun _ => ⟨hfb, huncle⟩, hfs, hgs⟩
  · simp [rotatedOuter, isRed_branch, RbVal.paint]

/-- Painting the root of a tree with a hole below the root changes the path only. -/
private theorem exists_plug_paintRoot (c : Color) (s : RbTree) (f : Frame RbVal)
    (path : RbPath) : ∃ path', paintRoot c (plug s (f :: path)) = plug s path' := by
  induction path generalizing s f with
  | nil =>
      refine ⟨[⟨f.dir, f.addr, f.val.paint c, f.sibling⟩], ?_⟩
      simp only [plug, Frame.attach]
      cases f.dir <;> rfl
  | cons g path ih =>
      obtain ⟨path', hpath⟩ := ih (f.attach s) g
      exact ⟨f :: path', hpath⟩

/-- The inner case never leaves a red-black tree behind. -/
theorem not_redBlack_rotatedInner {a : Nat} {v : RbVal} {l r : RbTree} {n : Nat}
    {f g : Frame RbVal} {path : RbPath} (hpath : PathOk n (f :: g :: path))
    (hheight : blackHeight (.node a v l r) = some n) (hv : v.color = .red)
    (hf : f.val.color = .red) :
    ¬ RedBlack (paintRoot .black (plug (rotatedInner (.node a v l r) f g) path)) := by
  intro h
  cases path with
  | cons e path =>
      -- the node is RED, and so is the grandparent below it
      obtain ⟨path', heq⟩ := exists_plug_paintRoot .black (rotatedInner (.node a v l r) f g) e path
      have hnored := h.noRedRed
      rw [heq] at hnored
      have hchildren := ((noRedRed_branch _ _ _ _ _).mp (noRedRed_of_plug hnored)).1 hv
      simp [isRed_branch, RbVal.paint] at hchildren
  | nil =>
      -- the node is the root: one BLACK node more on the side of the old parent
      obtain ⟨hfs, hfh, -, hgs, hgh, -⟩ := pathOk_two hpath hf
      have hnode := hheight
      rw [node_eq_branch g.dir] at hnode
      obtain ⟨m, hnear, hfar, hn⟩ := blackHeight_branch_eq_some.mp hnode
      rw [hv] at hn
      have hmn : m = n := hn.symm
      subst hmn
      have hpaint := Option.isSome_iff_exists.mp h.balanced
      obtain ⟨k, hk⟩ := hpaint
      have hbranch : paintRoot .black (plug (rotatedInner (.node a v l r) f g) []) =
          branch g.dir a (v.paint .black)
            (branch g.dir f.addr (f.val.paint .black) f.sibling
              ((HeapTree.node a v l r).child g.dir))
            (branch g.dir g.addr (g.val.paint .red)
              ((HeapTree.node a v l r).child g.dir.flip) g.sibling) := by
        simp only [plug, rotatedInner]
        cases g.dir <;> rfl
      rw [hbranch] at hk
      obtain ⟨j, hleft, hright, -⟩ := blackHeight_branch_eq_some.mp hk
      have hleft' := blackHeight_branch_eq_some.mpr ⟨m, hfh, hnear, rfl⟩
        |>.symm.trans hleft
      have hright' := blackHeight_branch_eq_some.mpr ⟨m, hfar, hgh, rfl⟩
        |>.symm.trans hright
      have hsame := Option.some.inj (hleft'.trans hright'.symm)
      simp [RbVal.paint, weight] at hsame

/-- **The fix-up repairs a red-black tree exactly outside the inner case.** -/
theorem redBlack_fixUp_iff {t : RbTree} {n : Nat} {path : RbPath} (hpath : PathOk n path)
    (hheight : blackHeight t = some n) (hnored : NoRedRed t) (hred : isRed t = true)
    (htop : TopBlack path) :
    RedBlack (paintRoot .black (fixUp t path)) ↔ takesInner path = false := by
  have hgood : ∀ {s : RbTree}, NoRedRed s ∧ (blackHeight s).isSome →
      RedBlack (paintRoot .black s) := by
    intro s hs
    refine
      { rootBlack := ?_
        noRedRed := noRedRed_paintRoot hs.1
        balanced := balanced_paintRoot .black hs.2 }
    cases s with
    | leaf => rfl
    | node a v l r => simp [paintRoot, isRed, RbVal.paint]
  induction t, path using fixUp.induct generalizing n with
  | case1 t f g path hcond huncle ih =>
      have hok := recolored_ok hpath hheight hnored hcond.2 huncle
      have hrec : RedBlack (paintRoot .black (fixUp (recolored t f g) path)) ↔
          takesInner path = false := ih (pathOk_two hpath hcond.2).2.2.2.2.2 hok.1 hok.2
        (by simp [recolored, isRed_branch, RbVal.paint]) htop.tail
      rw [fixUp, if_pos hcond, if_pos huncle, hrec]
      simp [takesInner, hcond.2, huncle]
  | case2 t f g path hcond huncle hdir =>
      rw [fixUp, if_pos hcond, if_neg huncle, if_pos hdir]
      have hok := rotatedOuter_ok hpath hheight hnored hcond.2 (by simpa using huncle)
      simp [takesInner, hcond.2, huncle, hdir, hgood hok]
  | case3 t f g path hcond huncle hdir =>
      rw [fixUp, if_pos hcond, if_neg huncle, if_neg hdir]
      cases t with
      | leaf => simp [isRed] at hred
      | node a v l r =>
          have hv : v.color = .red := by simpa [isRed] using hred
          have hbad := not_redBlack_rotatedInner hpath hheight hv hcond.2
          simp [takesInner, hcond.2, huncle, hdir, hbad]
  | case4 t f g path hcond =>
      have hf : f.val.color ≠ .red := fun hf => hcond ⟨hred, hf⟩
      rw [fixUp, if_neg hcond]
      have hok := plug_ok hpath hheight hnored (fun _ => by simp [headRed, hf])
      simp [takesInner, hf, hgood hok]
  | case5 t path hshort =>
      have hhead : headRed path = false := by
        cases path with
        | nil => rfl
        | cons f path =>
            cases path with
            | nil => simp [headRed, htop f rfl]
            | cons g path => exact absurd rfl (hshort f g path)
      have hinner : takesInner path = false := by
        cases path with
        | nil => rfl
        | cons f path =>
            cases path with
            | nil => rfl
            | cons g path => exact absurd rfl (hshort f g path)
      rw [fixUp_of_not_needed (by simp [hhead])]
      have hok := plug_ok hpath hheight hnored (fun _ => hhead)
      simp [hinner, hgood hok]

theorem redBlack_insertTree {t : RbTree} (h : RedBlack t) (addr : Nat) (data : Int) :
    RedBlack (insertTree addr data t) ↔
      takesInner (descend (goesLeft data) t []) = false := by
  obtain ⟨n, hn⟩ := Option.isSome_iff_exists.mp h.balanced
  have hhole : PathOk n [] := trivial
  refine redBlack_fixUp_iff (n := 0) ?_ rfl ?_ rfl ?_
  · exact pathOk_descend _ hhole hn h.noRedRed (by simp [h.rootBlack])
  · simp [newNode, NoRedRed, isRed]
  · exact topBlack_descend _ t [] (by simp [TopBlack]) (fun _ => h.rootBlack)

/-! ## Sequences of insertions -/

/-- After each of the insertions the heap is a red-black tree. -/
def RedBlackAfter (values : List Int) : Prop :=
  ∀ past, past <+: values →
    ∃ m t, RedBlackHeap.insertAll past = some m ∧ OnHeap m t ∧ RedBlack t

/-- None of the insertions runs into the inner case. -/
def NeverInner (values : List Int) : Prop :=
  ∀ past data m t, past ++ [data] <+: values → RedBlackHeap.insertAll past = some m →
    OnHeap m t → takesInner (descend (goesLeft data) t []) = false

/-- The tree after `past` is a red-black tree exactly if `build past` is. -/
theorem redBlack_build_iff (past : List Int) :
    (∃ m t, RedBlackHeap.insertAll past = some m ∧ OnHeap m t ∧ RedBlack t) ↔
      RedBlack (build past) := by
  obtain ⟨m, hrun, hcontent⟩ := exists_content past
  constructor
  · rintro ⟨m', t, hrun', hrep, hgood⟩
    obtain rfl : m' = m := Option.some.inj (hrun'.symm.trans hrun)
    rwa [hcontent.shape.rep.unique hrep]
  · exact fun hgood => ⟨m, build past, hrun, hcontent.shape.rep, hgood⟩

/-- **The inner case is the only way to lose the red-black invariant.** -/
theorem redBlackAfter_iff (values : List Int) : RedBlackAfter values ↔ NeverInner values := by
  constructor
  · intro h past data m t hpast hrun hrep
    obtain ⟨m', hrun', hcontent⟩ := exists_content past
    obtain rfl : m' = m := Option.some.inj (hrun'.symm.trans hrun)
    obtain rfl : build past = t := hcontent.shape.rep.unique hrep
    have hbefore := (redBlack_build_iff past).mp
      (h past ((List.prefix_append past [data]).trans hpast))
    have hafter := (redBlack_build_iff (past ++ [data])).mp (h _ hpast)
    rw [build_concat] at hafter
    exact (redBlack_insertTree hbefore _ data).mp hafter
  · intro h past
    induction past using List.reverseRecOn with
    | nil =>
        intro _
        refine (redBlack_build_iff []).mpr ?_
        exact
          { rootBlack := rfl
            noRedRed := trivial
            balanced := rfl }
    | append_singleton past data ih =>
        intro hpast
        have hbefore := (redBlack_build_iff past).mp
          (ih ((List.prefix_append past [data]).trans hpast))
        obtain ⟨m, hrun, hcontent⟩ := exists_content past
        refine (redBlack_build_iff _).mpr ?_
        rw [build_concat]
        exact (redBlack_insertTree hbefore _ data).mpr
          (h past data m (build past) hpast hrun hcontent.shape.rep)

/-- After 10, 5 and 7 the root 7 has a BLACK left child and a RED right child. -/
theorem not_redBlackAfter_three : ¬ ∀ values, RedBlackAfter values := by
  intro h
  have hgood := (redBlack_build_iff [10, 5, 7]).mp (h [10, 5, 7] _ (List.prefix_refl _))
  have hbalanced := hgood.balanced
  revert hbalanced
  decide

end SystemsInC.Ports.RedBlackColors
