import SystemsInC.Verified.MachineInt
import SystemsInC.Verified.TextInput

/-!
# Evaluating an expression tree

`evaluate` of `expression_evaluator.c` computes both operands of a node before it looks
at the operator.  A division by zero and an `int` operation that overflows have no
result, so the tree has none either.

`Expr.ref` is the meaning that C itself gives to the same expression: `&` and `|` need
their right operand only if the left one does not decide.  `evaluate` computes this
meaning for the trees all of whose operands have one, needed or not, and no other tree
has a result, `evaluate_strict`.
-/

namespace SystemsInC.Ports.ExpressionTree

open SystemsInC.Verified.CString
open SystemsInC.Verified.TextInput
open SystemsInC.Verified.MachineInt

/-! ## The evaluator -/

inductive Node
  | null
  | node (data : Bytes) (left right : Node)
  deriving DecidableEq

/-- `createNode(data)`. -/
def createNode (data : Bytes) : Node := .node (cstr data ++ [0]) .null .null

/-- `atoi` of a string that starts with a digit. -/
def atoi (data : Bytes) : Int :=
  toInt (min (ofDecimal ((cstr data).takeWhile isDigit)) (2 ^ 63 - 1))

/-- The value of a comparison or of `&&` and `||`. -/
def truth (p : Prop) [Decidable p] : Int := if p then 1 else 0

/-- The chain of `strcmp` tests, on the operands' values. -/
def combine (data : Bytes) (left right : Int) : Option Int :=
  if strcmpEq data (ascii "+") then int (left + right)
  else if strcmpEq data (ascii "-") then int (left - right)
  else if strcmpEq data (ascii "*") then int (left * right)
  else if strcmpEq data (ascii "/") then
    if right = 0 then none else int (left.tdiv right)
  else if strcmpEq data (ascii ">") then some (truth (left > right))
  else if strcmpEq data (ascii "<") then some (truth (left < right))
  else if strcmpEq data (ascii "=") then some (truth (left = right))
  else if strcmpEq data (ascii "&") then some (truth (left ≠ 0 ∧ right ≠ 0))
  else if strcmpEq data (ascii "|") then some (truth (left ≠ 0 ∨ right ≠ 0))
  else some 0

def evaluate : Node → Option Int
  | .null => some 0
  | .node data left right =>
      if data.head?.any isDigit then
        some (atoi data)
      else do
        let left ← evaluate left
        let right ← evaluate right
        combine data left right

/-! ## Expressions -/

inductive Op
  | add
  | sub
  | mul
  | div
  | gt
  | lt
  | eq
  | and
  | or
  deriving DecidableEq

/-- The string of the operator in a node. -/
def Op.symbol : Op → Bytes
  | .add => ascii "+"
  | .sub => ascii "-"
  | .mul => ascii "*"
  | .div => ascii "/"
  | .gt => ascii ">"
  | .lt => ascii "<"
  | .eq => ascii "="
  | .and => ascii "&"
  | .or => ascii "|"

/-- A literal that a node has room for. -/
structure Literal where
  digits : Bytes
  nonempty : digits ≠ []
  isDigit : ∀ b ∈ digits, isDigit b = true
  short : digits.length ≤ 9

inductive Expr
  | leaf (d : Literal)
  | op (o : Op) (left right : Expr)

/-- The tree of an expression. -/
def Expr.build : Expr → Node
  | .leaf d => createNode d.digits
  | .op o left right => .node (o.symbol ++ [0]) left.build right.build

/-- The meaning of an operator on two values. -/
def Op.apply : Op → Int → Int → Option Int
  | .add, a, b => int (a + b)
  | .sub, a, b => int (a - b)
  | .mul, a, b => int (a * b)
  | .div, a, b => if b = 0 then none else int (a.tdiv b)
  | .gt, a, b => some (truth (a > b))
  | .lt, a, b => some (truth (a < b))
  | .eq, a, b => some (truth (a = b))
  | .and, a, b => some (truth (a ≠ 0 ∧ b ≠ 0))
  | .or, a, b => some (truth (a ≠ 0 ∨ b ≠ 0))

/-- The value of the whole where the left operand decides it. -/
def Op.decided : Op → Int → Option Int
  | .and, a => if a = 0 then some 0 else none
  | .or, a => if a ≠ 0 then some 1 else none
  | _, _ => none

/-- The reference meaning: from left to right, and the right operand only if it is needed. -/
def Expr.ref : Expr → Option Int
  | .leaf d => some (ofDecimal d.digits)
  | .op o left right => do
      let a ← left.ref
      match o.decided a with
      | some v => return v
      | none =>
          let b ← right.ref
          o.apply a b

/-- Every operand in the tree has a meaning, needed or not. -/
def Expr.Total : Expr → Prop
  | .leaf _ => True
  | .op o left right => left.Total ∧ right.Total ∧ (Expr.op o left right).ref ≠ none

/-! ## Both operands first -/

theorem combine_symbol (o : Op) (a b : Int) : combine (o.symbol ++ [0]) a b = o.apply a b := by
  cases o <;> rfl

theorem symbol_not_digit (o : Op) : (o.symbol ++ [0]).head?.any isDigit = false := by
  cases o <;> rfl

/-- The right operand could not have changed what the left one decides. -/
theorem apply_of_decided {o : Op} {a v : Int} (h : o.decided a = some v) (b : Int) :
    o.apply a b = some v := by
  cases o with
  | and =>
      rw [Op.decided, Option.ite_none_right_eq_some, Option.some.injEq] at h
      simp [Op.apply, truth, h.1, ← h.2]
  | or =>
      rw [Op.decided, Option.ite_none_right_eq_some, Option.some.injEq] at h
      simp [Op.apply, truth, h.1, ← h.2]
  | _ => cases h

/-- So many digits denote a number below so great a power of ten. -/
theorem ofDecimal_lt {digits : Bytes} (h : ∀ b ∈ digits, isDigit b = true) :
    ofDecimal digits < 10 ^ digits.length := by
  have hfrom : ∀ n, digits.foldl (fun n b => 10 * n + (b.toNat - 48)) n <
      (n + 1) * 10 ^ digits.length := by
    induction digits with
    | nil => intro n; simp
    | cons b digits ih =>
        intro n
        have hb := (isDigit_iff b).mp (h b List.mem_cons_self)
        have hrest := ih (fun c hc => h c (List.mem_cons_of_mem b hc)) (10 * n + (b.toNat - 48))
        have hstep : 10 * n + (b.toNat - 48) + 1 ≤ (n + 1) * 10 := by omega
        have hpower := Nat.mul_le_mul_right (10 ^ digits.length) hstep
        rw [List.foldl_cons, List.length_cons, Nat.pow_succ, Nat.mul_comm (10 ^ _) 10,
          ← Nat.mul_assoc]
        exact Nat.lt_of_lt_of_le hrest hpower
  have hzero := hfrom 0
  rwa [Nat.zero_add, Nat.one_mul] at hzero

theorem evaluate_leaf (d : Literal) :
    evaluate (createNode d.digits) = some (ofDecimal d.digits : Int) := by
  have hne : ∀ b ∈ d.digits, b ≠ 0 := by
    intro b hb heq
    have hdigit := d.isDigit b hb
    rw [heq] at hdigit
    cases hdigit
  have hself : cstr d.digits = d.digits := cstr_eq_self hne
  have hfirst : (cstr d.digits ++ [0]).head?.any isDigit = true := by
    rw [hself]
    cases hdigits : d.digits with
    | nil => exact absurd hdigits d.nonempty
    | cons b l => exact d.isDigit b (hdigits ▸ List.mem_cons_self)
  have hdata : (cstr (d.digits ++ [0])).takeWhile isDigit = d.digits := by
    rw [cstr_append_zero hne [], List.takeWhile_eq_self_iff]
    exact d.isDigit
  have hlt := ofDecimal_lt d.isDigit
  have hpower : (10 : Nat) ^ d.digits.length ≤ 10 ^ 9 :=
    Nat.pow_le_pow_right (by decide) d.short
  rw [createNode, evaluate, if_pos hfirst, atoi, hself, hdata, toInt_eq]
  · congr 1
    omega
  · unfold IsInt
    omega

theorem evaluate_op (o : Op) (left right : Node) :
    evaluate (.node (o.symbol ++ [0]) left right) =
      (evaluate left).bind (fun a => (evaluate right).bind (fun b => o.apply a b)) := by
  have hsymbol := symbol_not_digit o
  rw [evaluate, if_neg (by rw [hsymbol]; exact Bool.false_ne_true)]
  simp only [combine_symbol]
  rfl

/-- With both operands known the reference meaning is that of the operator. -/
theorem ref_op_of_some {o : Op} {left right : Expr} {a b : Int} (ha : left.ref = some a)
    (hb : right.ref = some b) : (Expr.op o left right).ref = o.apply a b := by
  rw [Expr.ref, ha]
  show (match o.decided a with
    | some v => some v
    | none => right.ref.bind (fun b => o.apply a b)) = _
  cases hdecided : o.decided a with
  | none => rw [hb, Option.bind_some]
  | some v => rw [apply_of_decided hdecided]

theorem Expr.Total.ref_ne_none {e : Expr} (h : e.Total) : e.ref ≠ none := by
  cases e with
  | leaf d => exact Option.some_ne_none _
  | op o left right => exact h.2.2

/-- The evaluator has a result where every operand has a meaning, and it is the reference
meaning. -/
theorem evaluate_build_iff (e : Expr) (v : Int) :
    evaluate e.build = some v ↔ e.Total ∧ e.ref = some v := by
  induction e generalizing v with
  | leaf d =>
      rw [Expr.build, evaluate_leaf, Expr.ref]
      exact ⟨fun h => ⟨trivial, h⟩, fun h => h.2⟩
  | op o left right ihleft ihright =>
      rw [Expr.build, evaluate_op]
      constructor
      · intro h
        have ⟨a, hleft, hrest⟩ := Option.bind_eq_some_iff.mp h
        have ⟨b, hright, happly⟩ := Option.bind_eq_some_iff.mp hrest
        have ⟨htotal, ha⟩ := (ihleft a).mp hleft
        have ⟨htotal', hb⟩ := (ihright b).mp hright
        have href := ref_op_of_some (o := o) ha hb
        rw [happly] at href
        exact ⟨⟨htotal, htotal', by rw [href]; exact Option.some_ne_none v⟩, href⟩
      · intro ⟨⟨htotal, htotal', _⟩, href⟩
        have ⟨a, ha⟩ := Option.ne_none_iff_exists'.mp htotal.ref_ne_none
        have ⟨b, hb⟩ := Option.ne_none_iff_exists'.mp htotal'.ref_ne_none
        rw [(ihleft a).mpr ⟨htotal, ha⟩, (ihright b).mpr ⟨htotal', hb⟩, Option.bind_some,
          Option.bind_some, ← ref_op_of_some ha hb]
        exact href

/-! ## The guard of `&` and `|` -/

/-- Where the expression has a meaning, `evaluate` returns it, with no division by zero and no
overflow on the way. -/
def Guarded (e : Expr) : Prop := ∀ v, e.ref = some v → evaluate e.build = some v

/-- An expression with a meaning is evaluated to it exactly when all its operands have one. -/
theorem evaluate_guarded_iff (e : Expr) : Guarded e ↔ e.ref = none ∨ e.Total := by
  constructor
  · intro h
    cases href : e.ref with
    | none => exact .inl rfl
    | some v => exact .inr ((evaluate_build_iff e v).mp (h v href)).1
  · intro h v href
    have htotal : e.Total := h.resolve_left (by rw [href]; exact Option.some_ne_none v)
    exact (evaluate_build_iff e v).mpr ⟨htotal, href⟩

/-- **Both operands are evaluated.**  Where all operands have a meaning the result is the
reference meaning, and otherwise there is none. -/
theorem evaluate_strict (e : Expr) :
    (e.Total → ∃ v, e.ref = some v ∧ evaluate e.build = some v) ∧
      (¬ e.Total → evaluate e.build = none) := by
  constructor
  · intro htotal
    have ⟨v, href⟩ := Option.ne_none_iff_exists'.mp htotal.ref_ne_none
    exact ⟨v, href, (evaluate_build_iff e v).mpr ⟨htotal, href⟩⟩
  · intro hpartial
    cases hvalue : evaluate e.build with
    | none => rfl
    | some v => exact absurd ((evaluate_build_iff e v).mp hvalue).1 hpartial

def zero : Literal :=
  { digits := [48]
    nonempty := by decide
    isDigit := List.all_eq_true.mp rfl
    short := by decide }

def one : Literal :=
  { digits := [49]
    nonempty := by decide
    isDigit := List.all_eq_true.mp rfl
    short := by decide }

/-- `0 & (1 / 0)` -/
theorem and_does_not_guard : ¬ ∀ e : Expr, Guarded e := by
  intro h
  have hvalue := h (.op .and (.leaf zero) (.op .div (.leaf one) (.leaf zero))) 0 rfl
  have hnone : evaluate
      (Expr.op .and (.leaf zero) (.op .div (.leaf one) (.leaf zero))).build = none := rfl
  rw [hnone] at hvalue
  cases hvalue

end SystemsInC.Ports.ExpressionTree
