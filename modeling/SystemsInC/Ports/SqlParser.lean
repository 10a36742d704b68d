import SystemsInC.Ports.SqlLexer
import Mathlib.Data.List.GetD

/-!
# The parser for SQL statements

The tables and the actions of the parser.  Its states are followed through a
statement: a `Stage` is a place in a statement with the names read so far, and it
determines the stack, `yylval` and the tokens that are consumed (`Fits`).  Each
round of the loop goes from a stage to the next one, or ends with a syntax error at
a token that the stage does not take (`step_reduce`, `step_shift`, `step_refuse`).

The states that only reduce do not look at the next token, so that the action of the
statement runs when its semicolon is read, whatever follows.
-/

namespace SystemsInC.Ports.SqlParser

open SystemsInC.Verified.CString (Bytes)
open SystemsInC.Verified.TableParser
open SystemsInC.Verified.TextInput (ascii decimal)
open SystemsInC.Ports.SqlLexer

/-! ## Tables and actions -/

def tables : Tables :=
  { final := 5
    ntokens := 16
    pactNinf := -8
    pact := [-4, -1, 3, -8, -6, -8, 1, 2, -8, 0, -8, 6, -7, -5, 7, -8, -8]
    defact := [0, 0, 0, 3, 0, 1, 0, 0, 5, 0, 4, 0, 0, 0, 0, 2, 6]
    pgoto := [-8, -8, -8, -8, -8]
    defgoto := [0, 2, 4, 9, 13]
    table := [6, 1, 3, 5, 8, 10, 14, 11, 7, 12, 15, 16]
    check := [6, 5, 3, 0, 3, 3, 13, 7, 14, 3, 15, 4]
    r1 := [0, 16, 17, 18, 18, 19, 20]
    r2 := [0, 2, 7, 1, 3, 1, 3] }

/-- `%d` -/
def decimalInt (n : Int32) : Bytes :=
  if n.toInt < 0 then 45 :: decimal n.toInt.natAbs else decimal n.toInt.natAbs

/-- `sprintf` into a buffer of some size; a text that does not fit with its NUL is
undefined behaviour. -/
def sprintf (size : Nat) (text : Bytes) : Option Bytes :=
  if text.length + 1 ≤ size then some text else none

/-- The actions, with the values of the symbols of the right-hand side.  Where a rule
has none, its value is that of the first symbol. -/
def action : Nat → List Value → Option (Value × List Output)
  | 2, [first, .str columns, _, .str table, _, .str condition, _] =>
      some (first, [.parsed columns table condition])
  | 3, [.str name] => some (.str name, [])
  | 4, [.str columns, _, .str name] =>
      (sprintf (columns.length + name.length + 2) (columns ++ ascii "," ++ name)).map
        (fun tmp => (.str tmp, []))
  | 5, [.str name] => some (.str name, [])
  | 6, [.str name, _, .num n] =>
      (sprintf (name.length + 20) (name ++ ascii "=" ++ decimalInt n)).map
        (fun tmp => (.str tmp, []))
  | _, _ => none

def calls : Calls Value Bytes Output := { yylex := yylex, action := action, yyerror := .syntaxError }

/-- `main`, at the start of `yyparse`. -/
def start (input : Bytes) : Parser Value Bytes Output :=
  { stack := []
    lookahead := none
    yylval := .num 0
    errStatus := 0
    rest := input
    out := [.prompt]
    outcome := none }

/-- The program on its standard input, after some rounds of the parser. -/
def parse (input : Bytes) (rounds : Nat) : Parser Value Bytes Output :=
  (start input).run tables calls rounds

/-- What is printed; `%s` of an unknown NUL is empty. -/
def Output.text : Output → Bytes
  | .prompt => ascii "Enter SQL statement:\n"
  | .unknownCharacter b =>
      ascii "Unknown character: " ++ [b].takeWhile (· != 0) ++ ascii "\n"
  | .parsed columns table condition =>
      ascii "\nParsed Successfully!\n" ++ ascii "Columns: " ++ columns ++ ascii "\n" ++
        ascii "Table: " ++ table ++ ascii "\n" ++ ascii "Condition: " ++ condition ++ ascii "\n\n"
  | .syntaxError => ascii "Error: syntax error\n"

/-! ## Statements -/

/-- The list of the columns, as the parser builds it. -/
def joined (first : Bytes) (columns : List Bytes) : Bytes :=
  columns.foldl (fun list name => list ++ ascii "," ++ name) first

/-- A statement: its first column and the others, its table, and its condition. -/
structure Statement where
  first : Bytes
  columns : List Bytes
  table : Bytes
  column : Bytes
  number : Int32

def Statement.condition (s : Statement) : Bytes := s.column ++ ascii "=" ++ decimalInt s.number

/-- The tokens of a statement up to its columns. -/
def listTokens (first : Bytes) (columns : List Bytes) : List Token :=
  .select :: .identifier first :: columns.flatMap (fun name => [.comma, .identifier name])

def Statement.tokens (s : Statement) : List Token :=
  listTokens s.first s.columns ++
    [.fromWord, .identifier s.table, .whereWord, .identifier s.column, .eq, .number s.number,
      .semicolon]

def Statement.output (s : Statement) : Output :=
  .parsed (joined s.first s.columns) s.table s.condition

/-! ## Stages -/

/-- A place in a statement, with its first column `c`, the other columns `cs`, the
table `t`, and the column `x` of the condition, as far as they are read. -/
inductive Stage
  | start
  | select
  | column (c : Bytes)
  | columns (c : Bytes) (cs : List Bytes)
  | comma (c : Bytes) (cs : List Bytes)
  | nextColumn (c : Bytes) (cs : List Bytes) (name : Bytes)
  | fromWord (c : Bytes) (cs : List Bytes)
  | tableName (c : Bytes) (cs : List Bytes) (t : Bytes)
  | table (c : Bytes) (cs : List Bytes) (t : Bytes)
  | whereWord (c : Bytes) (cs : List Bytes) (t : Bytes)
  | conditionColumn (c : Bytes) (cs : List Bytes) (t x : Bytes)
  | eq (c : Bytes) (cs : List Bytes) (t x : Bytes)
  | number (s : Statement)
  | condition (s : Statement)
  | semicolon (s : Statement)
  | statement (s : Statement)
  | finished (s : Statement)

/-- The tokens that are consumed. -/
def Stage.tokens : Stage → List Token
  | .start => []
  | .select => [.select]
  | .column c => listTokens c []
  | .columns c cs => listTokens c cs
  | .comma c cs => listTokens c cs ++ [.comma]
  | .nextColumn c cs name => listTokens c (cs ++ [name])
  | .fromWord c cs => listTokens c cs ++ [.fromWord]
  | .tableName c cs t => listTokens c cs ++ [.fromWord, .identifier t]
  | .table c cs t => listTokens c cs ++ [.fromWord, .identifier t]
  | .whereWord c cs t => listTokens c cs ++ [.fromWord, .identifier t, .whereWord]
  | .conditionColumn c cs t x =>
      listTokens c cs ++ [.fromWord, .identifier t, .whereWord, .identifier x]
  | .eq c cs t x => listTokens c cs ++ [.fromWord, .identifier t, .whereWord, .identifier x, .eq]
  | .number s | .condition s =>
      listTokens s.first s.columns ++
        [.fromWord, .identifier s.table, .whereWord, .identifier s.column, .eq, .number s.number]
  | .semicolon s | .statement s | .finished s => s.tokens

/-- The string of the last identifier among the columns. -/
def lastName (c : Bytes) (cs : List Bytes) : Value := .str (cs.getLastD c)

/-- The stack; a token without a value of its own has that of the last one before
it. -/
def Stage.stack : Stage → List (Nat × Value)
  | .start => []
  | .select => [(1, .num 0)]
  | .column c => [(3, .str c), (1, .num 0)]
  | .columns c cs => [(4, .str (joined c cs)), (1, .num 0)]
  | .comma c cs => [(7, lastName c cs), (4, .str (joined c cs)), (1, .num 0)]
  | .nextColumn c cs name =>
      [(10, .str name), (7, lastName c cs), (4, .str (joined c cs)), (1, .num 0)]
  | .fromWord c cs => [(6, lastName c cs), (4, .str (joined c cs)), (1, .num 0)]
  | .tableName c cs t => [(8, .str t), (6, lastName c cs), (4, .str (joined c cs)), (1, .num 0)]
  | .table c cs t => [(9, .str t), (6, lastName c cs), (4, .str (joined c cs)), (1, .num 0)]
  | .whereWord c cs t =>
      [(11, .str t), (9, .str t), (6, lastName c cs), (4, .str (joined c cs)), (1, .num 0)]
  | .conditionColumn c cs t x =>
      [(12, .str x), (11, .str t), (9, .str t), (6, lastName c cs), (4, .str (joined c cs)),
        (1, .num 0)]
  | .eq c cs t x =>
      [(14, .str x), (12, .str x), (11, .str t), (9, .str t), (6, lastName c cs),
        (4, .str (joined c cs)), (1, .num 0)]
  | .number s =>
      [(16, .num s.number), (14, .str s.column), (12, .str s.column), (11, .str s.table),
        (9, .str s.table), (6, lastName s.first s.columns),
        (4, .str (joined s.first s.columns)), (1, .num 0)]
  | .condition s =>
      [(13, .str s.condition), (11, .str s.table), (9, .str s.table),
        (6, lastName s.first s.columns), (4, .str (joined s.first s.columns)), (1, .num 0)]
  | .semicolon s =>
      [(15, .num s.number), (13, .str s.condition), (11, .str s.table), (9, .str s.table),
        (6, lastName s.first s.columns), (4, .str (joined s.first s.columns)), (1, .num 0)]
  | .statement _ => [(2, .num 0)]
  | .finished s => [(5, .num s.number), (2, .num 0)]

def Stage.yylval : Stage → Value
  | .start | .select => .num 0
  | .column c => .str c
  | .columns c cs | .comma c cs | .fromWord c cs => lastName c cs
  | .nextColumn _ _ name => .str name
  | .tableName _ _ t | .table _ _ t | .whereWord _ _ t => .str t
  | .conditionColumn _ _ _ x | .eq _ _ _ x => .str x
  | .number s | .condition s | .semicolon s | .statement s | .finished s => .num s.number

/-- The stage after a reduction, where the stage has one. -/
def Stage.reduce : Stage → Option Stage
  | .column c => some (.columns c [])
  | .nextColumn c cs name => some (.columns c (cs ++ [name]))
  | .tableName c cs t => some (.table c cs t)
  | .number s => some (.condition s)
  | .semicolon s => some (.statement s)
  | _ => none

/-- What is printed at this reduction. -/
def Stage.output : Stage → List Output
  | .semicolon s => [s.output]
  | _ => []

/-- The stage after a token, or the end of the input. -/
def Stage.shift : Stage → Option Token → Option Stage
  | .start, some .select => some .select
  | .select, some (.identifier c) => some (.column c)
  | .columns c cs, some .comma => some (.comma c cs)
  | .columns c cs, some .fromWord => some (.fromWord c cs)
  | .comma c cs, some (.identifier name) => some (.nextColumn c cs name)
  | .fromWord c cs, some (.identifier t) => some (.tableName c cs t)
  | .table c cs t, some .whereWord => some (.whereWord c cs t)
  | .whereWord c cs t, some (.identifier x) => some (.conditionColumn c cs t x)
  | .conditionColumn c cs t x, some .eq => some (.eq c cs t x)
  | .eq c cs t x, some (.number n) =>
      some (.number { first := c, columns := cs, table := t, column := x, number := n })
  | .condition s, some .semicolon => some (.semicolon s)
  | .statement s, none => some (.finished s)
  | _, _ => none

/-- The parser is at a stage. -/
structure Fits (p : Parser Value Bytes Output) (σ : Stage) : Prop where
  stack : p.stack = σ.stack
  lookahead : p.lookahead = none
  yylval : p.yylval = σ.yylval
  errStatus : p.errStatus = 0
  outcome : p.outcome = none

/-- A reduction consumes nothing. -/
theorem reduce_tokens {σ σ' : Stage} (h : σ.reduce = some σ') : σ'.tokens = σ.tokens := by
  unfold Stage.reduce at h
  split at h <;> cases h <;> rfl

/-- A shift consumes its token. -/
theorem shift_tokens {σ σ' : Stage} {token : Option Token} (h : σ.shift token = some σ') :
    σ'.tokens = σ.tokens ++ token.toList := by
  unfold Stage.shift at h
  split at h <;> cases h <;> simp [Stage.tokens, Statement.tokens, listTokens]

/-- A whole statement takes the end of the input only. -/
theorem shift_statement {σ : Stage} {s : Statement} {token : Option Token}
    (h : (Stage.statement s).shift token = some σ) : σ = .finished s := by
  cases token with
  | none => exact (Option.some.inj h).symm
  | some token => cases token <;> cases h

theorem shift_finished {σ : Stage} {s : Statement} {token : Option Token}
    (h : σ.shift token = some (.finished s)) : token = none := by
  unfold Stage.shift at h
  split at h <;> cases h
  rfl

/-! ## The actions -/

theorem decimalInt_length (n : Int32) : (decimalInt n).length ≤ 11 := by
  have hlow := n.le_toInt
  have hhigh := n.toInt_lt
  have hdigits : (decimal n.toInt.natAbs).length ≤ 10 := by
    rw [decimal, List.length_map]
    apply (Nat.length_toDigits_le_iff (by decide) (by decide)).mpr
    omega
  rw [decimalInt]
  split
  · rw [List.length_cons]
    omega
  · omega

theorem joined_concat (c : Bytes) (cs : List Bytes) (name : Bytes) :
    joined c (cs ++ [name]) = joined c cs ++ ascii "," ++ name := by
  rw [joined, List.foldl_append]
  rfl

/-- The buffer for a longer list has the size of its text. -/
theorem action_columns (c : Bytes) (cs : List Bytes) (name : Bytes) (v : Value) :
    action 4 [.str (joined c cs), v, .str name] = some (.str (joined c (cs ++ [name])), []) := by
  have hfits : (joined c cs ++ ascii "," ++ name).length + 1 ≤
      (joined c cs).length + name.length + 2 := by
    rw [List.length_append, List.length_append, show (ascii ",").length = 1 from rfl]
    omega
  rw [action, sprintf, if_pos hfits, joined_concat]
  rfl

/-- The buffer for the condition is large enough for every number. -/
theorem action_condition (s : Statement) (v : Value) :
    action 6 [.str s.column, v, .num s.number] = some (.str s.condition, []) := by
  have hlen := decimalInt_length s.number
  have hfits : (s.column ++ ascii "=" ++ decimalInt s.number).length + 1 ≤
      s.column.length + 20 := by
    rw [List.length_append, List.length_append, show (ascii "=").length = 1 from rfl]
    omega
  rw [action, sprintf, if_pos hfits]
  rfl

/-! ## One round -/

variable {p : Parser Value Bytes Output} {σ σ' : Stage}

/-- The number of the state at the top. -/
def Stage.state (σ : Stage) : Nat := (σ.stack.head?.map Prod.fst).getD 0

theorem Fits.state (h : Fits p σ) : p.state = σ.state := by
  rw [Parser.state, h.stack]
  rfl

/-- State `q` has one rule only, with `len` symbols. -/
structure Reduces (q rule len : Nat) : Prop where
  not_final : q ≠ tables.final
  no_token : tables.pact.getD q 0 = tables.pactNinf
  byDefault : tables.byDefault q = .reduce rule
  len : tables.r2.getD rule 0 = len

/-- The symbols of a rule become one. -/
theorem step_rule {q rule len : Nat} {value : Value} {out : List Output} (h : Fits p σ)
    (hstate : σ.state = q) (hq : Reduces q rule len)
    (haction : action rule ((σ.stack.take len).reverse.map Prod.snd) = some (value, out))
    (hstack : σ'.stack = (tables.goto (((σ.stack.drop len).head?.map Prod.fst).getD 0)
      (tables.r1.getD rule 0), value) :: σ.stack.drop len)
    (hyylval : σ'.yylval = σ.yylval) :
    Fits (p.step tables calls) σ' ∧ (p.step tables calls).rest = p.rest ∧
      (p.step tables calls).out = p.out ++ out := by
  have hstate : p.state = q := h.state.trans hstate
  have haction : calls.action rule ((p.stack.take len).reverse.map Prod.snd) =
      some (value, out) := by
    rw [h.stack]
    exact haction
  have hstep : p.step tables calls = { p with stack := σ'.stack, out := p.out ++ out } := by
    rw [step_default h.outcome (hstate ▸ hq.not_final) (hstate ▸ hq.no_token), hstate,
      hq.byDefault]
    simp only [Parser.perform, hq.len, haction]
    rw [hstack, ← h.stack]
    rfl
  rw [hstep]
  exact ⟨⟨rfl, h.lookahead, h.yylval.trans hyylval.symm, h.errStatus, h.outcome⟩, rfl, rfl⟩

/-- A stage with a reduction goes on without a token. -/
theorem step_reduce (h : Fits p σ) (hreduce : σ.reduce = some σ') :
    Fits (p.step tables calls) σ' ∧ (p.step tables calls).rest = p.rest ∧
      (p.step tables calls).out = p.out ++ σ.output := by
  cases σ with
  | column c =>
      cases hreduce
      exact step_rule h (q := 3) rfl ⟨by decide, by decide, rfl, rfl⟩ rfl rfl rfl
  | nextColumn c cs name =>
      cases hreduce
      refine step_rule h (q := 10) rfl ⟨by decide, by decide, rfl, rfl⟩
        (action_columns c cs name _) rfl ?_
      show lastName c (cs ++ [name]) = .str name
      rw [lastName, List.getLastD_concat]
  | tableName c cs t =>
      cases hreduce
      exact step_rule h (q := 8) rfl ⟨by decide, by decide, rfl, rfl⟩ rfl rfl rfl
  | number s =>
      cases hreduce
      exact step_rule h (q := 16) rfl ⟨by decide, by decide, rfl, rfl⟩
        (action_condition s _) rfl rfl
  | semicolon s =>
      cases hreduce
      exact step_rule h (q := 15) rfl ⟨by decide, by decide, rfl, rfl⟩ rfl rfl rfl
  | start | select | columns | comma | fromWord | table | whereWord | conditionColumn | eq
  | condition | statement | finished => cases hreduce

/-- A stage that reads a token. -/
def Stage.Reads (σ : Stage) : Prop := σ.reduce = none ∧ ∀ s, σ ≠ .finished s

theorem reads_of_shift {token : Option Token} (h : σ.shift token = some σ') : σ.Reads := by
  constructor
  · cases σ <;> first | rfl | cases h
  · intro s hs
    subst hs
    cases h

/-- What the tables say about a token. -/
theorem onToken_eq (hreads : σ.Reads) (token : Option Token) :
    tables.onToken σ.state (symbolOf token) =
      match σ.shift token with
      | some σ' => .shift σ'.state
      | none => .error := by
  cases σ with
  | start | select | columns | comma | fromWord | table | whereWord | conditionColumn | eq
  | condition | statement =>
      cases token with
      | none => rfl
      | some token => cases token <;> rfl
  | finished s => exact absurd rfl (hreads.2 s)
  | column | nextColumn | tableName | number | semicolon => cases hreads.1

theorem reads_state (hreads : σ.Reads) :
    σ.state ≠ tables.final ∧ tables.pact.getD σ.state 0 ≠ tables.pactNinf := by
  have hall : ∀ q ∈ [0, 1, 2, 4, 6, 7, 9, 11, 12, 13, 14],
      q ≠ tables.final ∧ tables.pact.getD q 0 ≠ tables.pactNinf := by decide
  cases σ with
  | start | select | columns | comma | fromWord | table | whereWord | conditionColumn | eq
  | condition | statement => exact hall _ (by simp [Stage.state, Stage.stack])
  | finished s => exact absurd rfl (hreads.2 s)
  | column | nextColumn | tableName | number | semicolon => cases hreads.1

/-- The new top of the stack. -/
theorem shift_stack {token : Option Token} (h : σ.shift token = some σ') :
    σ'.yylval = yylvalAfter token σ.yylval ∧
      σ'.stack = (σ'.state, yylvalAfter token σ.yylval) :: σ.stack := by
  unfold Stage.shift at h
  split at h <;> cases h <;> exact ⟨rfl, rfl⟩

theorem step_reads (h : Fits p σ) (hreads : σ.Reads) : p.step tables calls =
    Parser.perform tables calls
      { p with
        lookahead := some (symbolOf (next 0 p.rest).token)
        yylval := yylvalAfter (next 0 p.rest).token p.yylval
        rest := (next 0 p.rest).rest
        out := p.out ++ (next 0 p.rest).unknown.map .unknownCharacter }
      (match σ.shift (next 0 p.rest).token with
        | some σ' => .shift σ'.state
        | none => .error) := by
  have ⟨hfinal, hpact⟩ := reads_state hreads
  rw [← h.state] at hfinal hpact
  have hread : p.read calls = (symbolOf (next 0 p.rest).token, { p with
      lookahead := some (symbolOf (next 0 p.rest).token)
      yylval := yylvalAfter (next 0 p.rest).token p.yylval
      rest := (next 0 p.rest).rest
      out := p.out ++ (next 0 p.rest).unknown.map .unknownCharacter }) := by
    rw [Parser.read, h.lookahead]
    rfl
  rw [step_token h.outcome hfinal hpact, hread, h.state, onToken_eq hreads]

/-- A stage that takes the next token goes on behind it. -/
theorem step_shift (h : Fits p σ) (hshift : σ.shift (next 0 p.rest).token = some σ') :
    Fits (p.step tables calls) σ' ∧ (p.step tables calls).rest = (next 0 p.rest).rest ∧
      (p.step tables calls).out = p.out ++ (next 0 p.rest).unknown.map .unknownCharacter := by
  have ⟨hyylval, hstack⟩ := shift_stack hshift
  rw [step_reads h (reads_of_shift hshift), hshift]
  refine ⟨⟨?_, rfl, ?_, ?_, h.outcome⟩, rfl, rfl⟩
  · show (σ'.state, yylvalAfter _ p.yylval) :: p.stack = σ'.stack
    rw [h.stack, h.yylval, hstack]
  · show yylvalAfter _ p.yylval = σ'.yylval
    rw [h.yylval, hyylval]
  · show p.errStatus - 1 = 0
    rw [h.errStatus]

/-- There is no rule for errors. -/
theorem no_recovery (state : Nat) : tables.onErrorToken state = none := by
  have hall : ∀ state < tables.pact.length, tables.onErrorToken state = none := by decide
  rcases Nat.lt_or_ge state tables.pact.length with hlt | hge
  · exact hall state hlt
  · have hpact : tables.pact.getD state 0 = 0 := List.getD_eq_default _ _ hge
    rw [Tables.onErrorToken, hpact]
    rfl

/-- A stage that does not take the next token is the end of the parser. -/
theorem step_refuse (h : Fits p σ) (hreads : σ.Reads)
    (hshift : σ.shift (next 0 p.rest).token = none) :
    (p.step tables calls).outcome = some (.returned 1) ∧
      (p.step tables calls).out =
        p.out ++ (next 0 p.rest).unknown.map .unknownCharacter ++ [.syntaxError] := by
  rw [step_reads h hreads, hshift]
  simp only [Parser.perform]
  rw [error_of_no_recovery no_recovery (by exact h.errStatus)]
  exact ⟨rfl, rfl⟩

/-- At its last state the parser accepts. -/
theorem step_accept {s : Statement} (h : Fits p (.finished s)) :
    p.step tables calls = { p with outcome := some (.returned 0) } :=
  step_final h.outcome (h.state.trans rfl)

end SystemsInC.Ports.SqlParser
