import SystemsInC.Verified.PrintedText
import SystemsInC.Ports.ExpressionTree

/-!
# The printed expression

`inorder` of `expression_evaluator.c` prints a parenthesis only next to a child that is
there.  For the trees in which every node has two children or none the text determines the
tree, so `main` prints no two expressions alike (`inorder_build_iff`).  With an only child
it does not: a left child opens a parenthesis that nothing closes, and there are two trees
of seven nodes with the same text.
-/

namespace SystemsInC.Ports.ExpressionText

open SystemsInC.Verified.CString
open SystemsInC.Verified.TextInput
open SystemsInC.Verified.PrintedText
open SystemsInC.Ports.ExpressionTree

/-- What `inorder(root)` prints. -/
def inorder : Node → Bytes
  | .null => []
  | .node data left right =>
      (if left = .null then [] else ascii "(") ++ inorder left ++
        (ascii " " ++ cstr data ++ ascii " ") ++ inorder right ++
        (if right = .null then [] else ascii ")")

/-- The tree with the strings of the nodes only, without what is behind their NULs. -/
def strings : Node → Node
  | .null => .null
  | .node data left right => .node (cstr data) (strings left) (strings right)

/-- Every node has two children or none, and no string has a blank. -/
inductive Full : Node → Prop
  | leaf {data : Bytes} (hdata : 32 ∉ cstr data) : Full (.node data .null .null)
  | both {data : Bytes} {left right : Node} (hdata : 32 ∉ cstr data) (hleft : Full left)
      (hright : Full right) : Full (.node data left right)

theorem Full.ne_null {t : Node} (h : Full t) : t ≠ .null := by
  rintro rfl
  cases h

/-! ## The text of a full tree -/

theorem inorder_leaf (data : Bytes) :
    inorder (.node data .null .null) = 32 :: (cstr data ++ [32]) := by
  have hnull : inorder .null = [] := rfl
  rw [inorder, if_pos rfl, hnull]
  simp [ascii]

theorem inorder_both {left right : Node} (hleft : left ≠ .null) (hright : right ≠ .null)
    (data : Bytes) :
    inorder (.node data left right) =
      40 :: (inorder left ++ 32 :: (cstr data ++ 32 :: (inorder right ++ [41]))) := by
  rw [inorder, if_neg hleft, if_neg hright]
  simp [ascii]

/-- The text of a full tree ends where the tree does, whatever follows. -/
theorem Full.inorder_append_inj {t : Node} (ht : Full t) :
    ∀ {t' : Node} {rest rest' : Bytes}, Full t' → inorder t ++ rest = inorder t' ++ rest' →
      strings t = strings t' ∧ rest = rest' := by
  induction ht with
  | @leaf data hdata =>
      intro t' rest rest' ht' heq
      rw [inorder_leaf] at heq
      cases ht' with
      | @leaf data' hdata' =>
          rw [inorder_leaf, List.cons_append, List.cons_append, List.append_assoc,
            List.append_assoc] at heq
          have htail := (List.cons.inj heq).2
          obtain ⟨hstring, hrest⟩ := delimited_inj hdata hdata' htail
          exact ⟨by simp only [strings, hstring], hrest⟩
      | both hdata' hleft hright =>
          rw [inorder_both hleft.ne_null hright.ne_null] at heq
          exact absurd (List.cons.inj heq).1 (by decide)
  | @both data left right hdata hleft hright ihleft ihright =>
      intro t' rest rest' ht' heq
      rw [inorder_both hleft.ne_null hright.ne_null] at heq
      cases ht' with
      | leaf hdata' =>
          rw [inorder_leaf] at heq
          exact absurd (List.cons.inj heq).1 (by decide)
      | @both data' left' right' hdata' hleft' hright' =>
          rw [inorder_both hleft'.ne_null hright'.ne_null] at heq
          simp only [List.append_assoc, List.cons_append] at heq
          have hinner := (List.cons.inj heq).2
          obtain ⟨hstrings, hmiddle⟩ := ihleft hleft' hinner
          obtain ⟨hstring, hlast⟩ := delimited_inj hdata hdata' (List.cons.inj hmiddle).2
          obtain ⟨hstrings', hclose⟩ := ihright hright' hlast
          refine ⟨by simp only [strings, hstring, hstrings, hstrings'], ?_⟩
          exact (List.cons.inj hclose).2

theorem Full.inorder_inj {t t' : Node} (ht : Full t) (ht' : Full t')
    (heq : inorder t = inorder t') : strings t = strings t' :=
  (ht.inorder_append_inj ht' (congrArg (· ++ []) heq)).1

/-! ## Expressions -/

theorem Literal.no_blank (d : Literal) : 32 ∉ d.digits := by
  intro hmem
  have hdigit := d.isDigit 32 hmem
  cases hdigit

theorem Literal.cstr_digits (d : Literal) : cstr d.digits = d.digits := by
  apply cstr_eq_self
  rintro b hb rfl
  have hdigit := d.isDigit 0 hb
  cases hdigit

theorem cstr_symbol (o : Op) : cstr (o.symbol ++ [0]) = o.symbol := by
  cases o <;> decide

theorem symbol_inj {o o' : Op} (h : o.symbol = o'.symbol) : o = o' := by
  revert h
  cases o <;> cases o' <;> decide

theorem strings_leaf (d : Literal) :
    strings (Expr.leaf d).build = .node d.digits .null .null := by
  have hmem : ∀ b ∈ d.digits, b ≠ 0 := by
    rintro b hb rfl
    have hdigit := d.isDigit 0 hb
    cases hdigit
  rw [Expr.build, createNode, Literal.cstr_digits, strings, cstr_append_zero hmem []]
  rfl

theorem strings_op (o : Op) (left right : Expr) :
    strings (Expr.op o left right).build =
      .node o.symbol (strings left.build) (strings right.build) := by
  rw [Expr.build, strings, cstr_symbol]

theorem full_build (e : Expr) : Full e.build := by
  induction e with
  | leaf d =>
      have hdata : cstr (cstr d.digits ++ [0]) = d.digits := by
        have hnode := strings_leaf d
        rw [Expr.build, createNode, strings] at hnode
        exact (Node.node.inj hnode).1
      exact .leaf (by rw [hdata]; exact Literal.no_blank d)
  | op o left right ihleft ihright =>
      refine .both ?_ ihleft ihright
      rw [cstr_symbol]
      cases o <;> decide

theorem strings_build_ne_null (e : Expr) : strings e.build ≠ .null := by
  cases e with
  | leaf d => simp [strings_leaf]
  | op o left right => simp [strings_op]

/-- The tree of an expression determines it. -/
theorem strings_build_inj {e e' : Expr} (h : strings e.build = strings e'.build) : e = e' := by
  induction e generalizing e' with
  | leaf d =>
      cases e' with
      | leaf d' =>
          rw [strings_leaf, strings_leaf] at h
          have hdigits : d.digits = d'.digits := (Node.node.inj h).1
          cases d
          cases d'
          cases hdigits
          rfl
      | op o left right =>
          rw [strings_leaf, strings_op] at h
          exact absurd (Node.node.inj h).2.1.symm (strings_build_ne_null left)
  | op o left right ihleft ihright =>
      cases e' with
      | leaf d =>
          rw [strings_leaf, strings_op] at h
          exact absurd (Node.node.inj h).2.1 (strings_build_ne_null left)
      | op o' left' right' =>
          rw [strings_op, strings_op] at h
          obtain ⟨hsymbol, hleft, hright⟩ := Node.node.inj h
          rw [symbol_inj hsymbol, ihleft hleft, ihright hright]

/-- **The printed line determines the expression**, and with it the value. -/
theorem inorder_build_iff (e e' : Expr) : inorder e.build = inorder e'.build ↔ e = e' := by
  constructor
  · intro h
    exact strings_build_inj ((full_build e).inorder_inj (full_build e') h)
  · rintro rfl
    rfl

/-- Two trees of seven nodes, some with an only child, that are printed alike. -/
example :
    let zero : Node → Node → Node := .node [48, 0]
    let leaf := zero .null .null
    inorder (zero leaf (zero (zero (zero .null (zero .null leaf)) .null) .null)) =
      inorder (zero (zero .null (zero .null (zero (zero leaf .null) .null))) leaf) := by
  decide

end SystemsInC.Ports.ExpressionText
