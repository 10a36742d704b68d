import Mathlib.Data.List.Basic

/-!
# A parser driven by tables

The loop of a generated LALR parser.  The tables say what a state does: with an
entry `pactNinf` in `pact` it has one reduction only and asks for no token;
otherwise it reads one, if there is none, and `pact` with `table` and `check` gives
the state to shift to, the rule to reduce, or nothing, where `defact` gives the
default.  After a reduction `pgoto` and `defgoto` give the state.

A scanner and the actions of the rules are parameters; an action without a result
is undefined behaviour.  A `Parser` is the state of the loop at its start, so that a
step is one shift, one reduction, or the end.
-/

namespace SystemsInC.Verified.TableParser

/-! ## Tables -/

structure Tables where
  final : Nat
  ntokens : Nat
  pactNinf : Int
  pact : List Int
  defact : List Nat
  pgoto : List Int
  defgoto : List Nat
  table : List Int
  check : List Nat
  r1 : List Nat
  r2 : List Nat

/-- The entry for a key in the part of `table` that starts at `base`. -/
def Tables.entry (t : Tables) (base : Int) (key : Nat) : Option Int :=
  let n := base + key
  if 0 ≤ n ∧ n < t.table.length ∧ t.check[n.toNat]? = some key then t.table[n.toNat]? else none

inductive Action
  | shift (state : Nat)
  | reduce (rule : Nat)
  | error
  deriving DecidableEq

/-- `yydefault`. -/
def Tables.byDefault (t : Tables) (state : Nat) : Action :=
  if t.defact.getD state 0 = 0 then .error else .reduce (t.defact.getD state 0)

/-- What a state does with a token. -/
def Tables.onToken (t : Tables) (state symbol : Nat) : Action :=
  match t.entry (t.pact.getD state 0) symbol with
  | none => t.byDefault state
  | some n => if n ≤ 0 then .reduce (-n).toNat else .shift n.toNat

/-- The state after a reduction to a symbol, on top of a state. -/
def Tables.goto (t : Tables) (state lhs : Nat) : Nat :=
  match t.entry (t.pgoto.getD (lhs - t.ntokens) 0) state with
  | some n => n.toNat
  | none => t.defgoto.getD (lhs - t.ntokens) 0

/-- The state to which the error token is shifted. -/
def Tables.onErrorToken (t : Tables) (state : Nat) : Option Nat :=
  if t.pact.getD state 0 = t.pactNinf then
    none
  else
    match t.entry (t.pact.getD state 0) 1 with
    | some n => if 0 < n then some n.toNat else none
    | none => none

/-! ## The loop -/

variable {V S O : Type*}

/-- What the scanner returns: a symbol, 0 at the end of the input, with the value
of `yylval` after it. -/
structure Scanned (V S O : Type*) where
  symbol : Nat
  yylval : V
  rest : S
  out : List O

/-- What the loop calls. -/
structure Calls (V S O : Type*) where
  yylex : V → S → Scanned V S O
  /-- an action, with the values of its right-hand side -/
  action : Nat → List V → Option (V × List O)
  yyerror : O

inductive Outcome
  /-- the return value of the parser -/
  | returned (n : Nat)
  | undefined
  deriving DecidableEq

structure Parser (V S O : Type*) where
  /-- the states with their values, the top first, above state 0 -/
  stack : List (Nat × V)
  lookahead : Option Nat
  yylval : V
  errStatus : Nat
  rest : S
  out : List O
  outcome : Option Outcome

def Parser.state (p : Parser V S O) : Nat := (p.stack.head?.map Prod.fst).getD 0

/-- Read a token if there is none. -/
def Parser.read (calls : Calls V S O) (p : Parser V S O) : Nat × Parser V S O :=
  match p.lookahead with
  | some symbol => (symbol, p)
  | none =>
      let scanned := calls.yylex p.yylval p.rest
      (scanned.symbol, { p with
        lookahead := some scanned.symbol
        yylval := scanned.yylval
        rest := scanned.rest
        out := p.out ++ scanned.out })

/-- Pop until a state shifts the error token. -/
def popError (t : Tables) : List (Nat × V) → Option (Nat × List (Nat × V))
  | [] => (t.onErrorToken 0).map (fun state => (state, []))
  | frame :: stack =>
      match t.onErrorToken frame.1 with
      | some state => some (state, frame :: stack)
      | none => popError t stack

/-- `yyerrlab1`. -/
def Parser.recover (t : Tables) (p : Parser V S O) : Parser V S O :=
  match popError t p.stack with
  | some (state, stack) => { p with stack := (state, p.yylval) :: stack, errStatus := 3 }
  | none => { p with outcome := some (.returned 1) }

/-- `yyerrlab`. -/
def Parser.error (t : Tables) (calls : Calls V S O) (p : Parser V S O) : Parser V S O :=
  let p := if p.errStatus = 0 then { p with out := p.out ++ [calls.yyerror] } else p
  if p.errStatus = 3 then
    if p.lookahead = some 0 then
      { p with outcome := some (.returned 1) }
    else
      Parser.recover t { p with lookahead := none }
  else
    p.recover t

def Parser.perform (t : Tables) (calls : Calls V S O) (p : Parser V S O) :
    Action → Parser V S O
  | .shift state => { p with
      stack := (state, p.yylval) :: p.stack
      lookahead := none
      errStatus := p.errStatus - 1 }
  | .reduce rule =>
      let len := t.r2.getD rule 0
      match calls.action rule ((p.stack.take len).reverse.map Prod.snd) with
      | some (value, out) =>
          let below : Parser V S O := { p with stack := p.stack.drop len, out := p.out ++ out }
          { below with
            stack := (t.goto below.state (t.r1.getD rule 0), value) :: below.stack }
      | none => { p with outcome := some .undefined }
  | .error => p.error t calls

/-- One round, from a state to the next one. -/
def Parser.step (t : Tables) (calls : Calls V S O) (p : Parser V S O) : Parser V S O :=
  if p.outcome.isSome then
    p
  else if p.state = t.final then
    { p with outcome := some (.returned 0) }
  else if t.pact.getD p.state 0 = t.pactNinf then
    p.perform t calls (t.byDefault p.state)
  else
    (p.read calls).2.perform t calls (t.onToken p.state (p.read calls).1)

/-- The parser after some rounds. -/
def Parser.run (t : Tables) (calls : Calls V S O) : Nat → Parser V S O → Parser V S O
  | 0, p => p
  | n + 1, p => (p.step t calls).run t calls n

/-! ## Rounds -/

variable {t : Tables} {calls : Calls V S O} {p : Parser V S O}

theorem step_of_outcome (h : p.outcome ≠ none) : p.step t calls = p :=
  if_pos (Option.isSome_iff_ne_none.mpr h)

theorem step_final (hrunning : p.outcome = none) (hfinal : p.state = t.final) :
    p.step t calls = { p with outcome := some (.returned 0) } := by
  rw [Parser.step, hrunning, if_neg (by decide), if_pos hfinal]

/-- A state with one reduction only. -/
theorem step_default (hrunning : p.outcome = none) (hfinal : p.state ≠ t.final)
    (hpact : t.pact.getD p.state 0 = t.pactNinf) :
    p.step t calls = p.perform t calls (t.byDefault p.state) := by
  rw [Parser.step, hrunning, if_neg (by decide), if_neg hfinal, if_pos hpact]

/-- A state that reads a token. -/
theorem step_token (hrunning : p.outcome = none) (hfinal : p.state ≠ t.final)
    (hpact : t.pact.getD p.state 0 ≠ t.pactNinf) :
    p.step t calls = (p.read calls).2.perform t calls (t.onToken p.state (p.read calls).1) := by
  rw [Parser.step, hrunning, if_neg (by decide), if_neg hfinal, if_neg hpact]

theorem popError_eq_none (h : ∀ state, t.onErrorToken state = none) (stack : List (Nat × V)) :
    popError t stack = none := by
  induction stack with
  | nil => rw [popError, h, Option.map_none]
  | cons frame stack ih =>
      rw [popError, h]
      exact ih

/-- Without a rule for errors the first one ends the parser. -/
theorem error_of_no_recovery (h : ∀ state, t.onErrorToken state = none)
    (hstatus : p.errStatus = 0) : p.error t calls =
      { p with out := p.out ++ [calls.yyerror], outcome := some (.returned 1) } := by
  rw [Parser.error, if_pos hstatus]
  simp only [hstatus, Parser.recover, popError_eq_none h]
  rfl

theorem run_add (m n : Nat) : p.run t calls (m + n) = (p.run t calls m).run t calls n := by
  induction m generalizing p with
  | zero => rw [Nat.zero_add, Parser.run]
  | succ m ih =>
      rw [Nat.succ_add, Parser.run, Parser.run]
      exact ih

end SystemsInC.Verified.TableParser
