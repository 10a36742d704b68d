import SystemsInC.Ports.SqlStatements

/-!
# Number literals of the SQL program

The scanner takes a run of digits of any length as a number, and `atoi` makes an `int`
of it: a value beyond the largest `long` becomes that, and what an `int` has no room for
is cut off.  Every statement is accepted with what is left, so a literal keeps its value
exactly up to the largest `int`, `number_kept_iff`.
-/

namespace SystemsInC.Ports.SqlNumbers

open SystemsInC.Verified.CString (Bytes)
open SystemsInC.Verified.TableParser
open SystemsInC.Verified.TextInput (ascii decimal isDigit ofDecimal decimal_spec)
open SystemsInC.Ports.SqlLexer
open SystemsInC.Ports.SqlLayout
open SystemsInC.Ports.SqlParser
open SystemsInC.Ports.SqlStatements

/-! ## Literals -/

/-- A literal that the rule for numbers matches. -/
structure Digits where
  bytes : Bytes
  nonempty : bytes ≠ []
  isDigit : ∀ b ∈ bytes, isDigit b = true

/-- The decimal value of a literal. -/
def Digits.value (d : Digits) : Nat := ofDecimal d.bytes

/-- The lexemes of a statement with the literal `d`. -/
def lexemesWith (c : Name) (cs : List Name) (t x : Name) (d : Digits) : List Bytes :=
  ascii "SELECT" :: c.bytes :: cs.flatMap (fun name => [ascii ",", name.bytes]) ++
    [ascii "FROM", t.bytes, ascii "WHERE", x.bytes, ascii "=", d.bytes, ascii ";"]

/-- The statement that they make. -/
def statementWith (c : Name) (cs : List Name) (t x : Name) (d : Digits) : Statement :=
  { first := c.bytes
    columns := cs.map Name.bytes
    table := t.bytes
    column := x.bytes
    number := atoi d.bytes }

theorem scans_digits (d : Digits) : Scans d.bytes (.number (atoi d.bytes)) where
  ne_nil := d.nonempty
  items _ hend := items_digits d.nonempty d.isDigit hend

/-- A statement is accepted whatever its literal is. -/
theorem accepted_with {c : Name} {cs : List Name} {t x : Name} {d : Digits} {text : Bytes}
    (hlayout : Layout (lexemesWith c cs t x d) text) :
    ∃ rounds, (parse text rounds).outcome = some (.returned 0) ∧
      (parse text rounds).out = [.prompt, (statementWith c cs t x d).output] :=
  Ready.accept _ (items_of_scans hlayout (statement_scans c cs t x (scans_digits d)))

/-! ## The end of a run -/

variable {text : Bytes}

/-- Behind its end the parser does nothing. -/
theorem parse_add {rounds : Nat} (h : (parse text rounds).outcome ≠ none) (n : Nat) :
    parse text (rounds + n) = parse text rounds := by
  induction n with
  | zero => rfl
  | succ n ih =>
      have hstep := parse_succ text (rounds + n)
      rw [ih, step_of_outcome h] at hstep
      exact hstep

theorem parse_unique {m n : Nat} (hm : (parse text m).outcome ≠ none)
    (hn : (parse text n).outcome ≠ none) : parse text m = parse text n := by
  rcases Nat.le_total m n with hle | hle
  · have heq := parse_add hm (n - m)
    rwa [Nat.add_sub_cancel' hle, eq_comm] at heq
  · have heq := parse_add hn (m - n)
    rwa [Nat.add_sub_cancel' hle] at heq

/-! ## The value of a literal -/

theorem decimal_injective {m n : Nat} (h : decimal m = decimal n) : m = n := by
  have hm := (decimal_spec m).2.2
  have hn := (decimal_spec n).2.2
  rw [h, hn] at hm
  exact hm.symm

/-- A number in decimal does not begin with a sign. -/
theorem decimal_head_ne (n : Nat) (tail : Bytes) : decimal n ≠ 45 :: tail := by
  intro heq
  have hdigit := (decimal_spec n).2.1 45 (heq ▸ List.mem_cons_self)
  cases hdigit

/-- `%d` prints the value of a literal exactly up to the largest `int`. -/
theorem decimalInt_atoi_iff (digits : Bytes) :
    decimalInt (atoi digits) = decimal (ofDecimal digits) ↔ ofDecimal digits ≤ 2147483647 := by
  constructor
  · intro h
    have hlt := Int32.toInt_lt (atoi digits)
    rw [decimalInt] at h
    by_cases hneg : (atoi digits).toInt < 0
    · rw [if_pos hneg] at h
      exact absurd h.symm (decimal_head_ne _ _)
    · rw [if_neg hneg] at h
      have hvalue := decimal_injective h
      omega
  · intro h
    have hmin : min (ofDecimal digits) (2 ^ 63 - 1) = ofDecimal digits := by omega
    rw [atoi, hmin]
    exact decimalInt_ofNat h

/-- If the text is accepted, its condition is printed with the value `value`; and it is not
accepted if no `int` has this value. -/
structure KeepsNumber (text : Bytes) (column : Bytes) (value : Nat) : Prop where
  keeps : ∀ rounds, (parse text rounds).outcome = some (.returned 0) →
    (∃ columns table condition, .parsed columns table condition ∈ (parse text rounds).out) ∧
    ∀ columns table condition, .parsed columns table condition ∈ (parse text rounds).out →
      condition = column ++ ascii "=" ++ decimal value
  rejects : (∀ n : Int32, n.toInt ≠ value) →
    ∀ rounds, (parse text rounds).outcome ≠ some (.returned 0)

/-- What a statement with the literal `d` prints when it is accepted. -/
theorem out_with {c : Name} {cs : List Name} {t x : Name} {d : Digits}
    (hlayout : Layout (lexemesWith c cs t x d) text) {rounds : Nat}
    (h : (parse text rounds).outcome = some (.returned 0)) {columns table condition : Bytes} :
    .parsed columns table condition ∈ (parse text rounds).out ↔
      .parsed columns table condition = (statementWith c cs t x d).output := by
  have ⟨n, houtcome, hout⟩ := accepted_with hlayout
  have hrounds : (parse text rounds).outcome ≠ none := h ▸ Option.some_ne_none _
  have hn : (parse text n).outcome ≠ none := houtcome ▸ Option.some_ne_none _
  rw [parse_unique hrounds hn, hout, List.mem_cons, List.mem_singleton]
  simp only [reduceCtorEq, false_or]

/-- **When a literal keeps its value.**  In every layout of a statement, exactly when the largest
`int` is not smaller. -/
theorem number_kept_iff {c : Name} {cs : List Name} {t x : Name} {d : Digits}
    (hlayout : Layout (lexemesWith c cs t x d) text) :
    KeepsNumber text x.bytes d.value ↔ d.value ≤ 2147483647 := by
  have ⟨rounds, houtcome, _⟩ := accepted_with hlayout
  constructor
  · intro h
    have hmem := (out_with hlayout houtcome).mpr rfl
    have hcondition := (h.keeps rounds houtcome).2 _ _ _ hmem
    exact (decimalInt_atoi_iff d.bytes).mp (List.append_cancel_left hcondition)
  · intro hvalue
    have hkept := (decimalInt_atoi_iff d.bytes).mpr hvalue
    constructor
    · intro n hn
      refine ⟨⟨_, _, _, (out_with hlayout hn).mpr rfl⟩, ?_⟩
      intro columns table condition hmem
      have hparsed := (out_with hlayout hn).mp hmem
      cases hparsed
      exact congrArg (x.bytes ++ ascii "=" ++ ·) hkept
    · intro hnone
      exact absurd (Int32.toInt_ofNat_of_lt (by omega)) (hnone (Int32.ofNat d.value))

/-! ## A literal that is too large -/

/-- The lexemes with a space in front of each. -/
theorem layout_spaced (lexemes : List Bytes) :
    Layout lexemes (lexemes.flatMap (32 :: ·)) := by
  induction lexemes with
  | nil => exact .nil (fun b hb => absurd hb List.not_mem_nil)
  | cons lexeme lexemes ih =>
      have hspace : ∀ b ∈ [(32 : UInt8)], isWhite b = true := List.all_eq_true.mp rfl
      refine .cons hspace ih ?_
      intro _ next hnext _
      cases lexemes with
      | nil => cases hnext
      | cons _ _ => exact ⟨32, rfl, rfl⟩

def smallLiteral : Digits :=
  { bytes := ascii "0002147483647"
    nonempty := by decide
    isDigit := List.all_eq_true.mp rfl }

def largeLiteral : Digits :=
  { bytes := ascii "2147483648"
    nonempty := by decide
    isDigit := List.all_eq_true.mp rfl }

/-- `SELECT SELECTED , from_1 FROM SELECTED WHERE from_1 = d ;` -/
def textWith (d : Digits) : Bytes :=
  (lexemesWith selectedName [fromName] selectedName fromName d).flatMap (32 :: ·)

/-- The largest `int`, with zeros in front. -/
theorem number_kept_iff_largest :
    KeepsNumber (textWith smallLiteral) fromName.bytes smallLiteral.value :=
  (number_kept_iff (layout_spaced _)).mpr (by decide)

/-- `-2147483648` is printed for the number behind the largest `int`. -/
theorem literal_not_kept :
    ¬ ∀ (c : Name) (cs : List Name) (t x : Name) (d : Digits) (text : Bytes),
      Layout (lexemesWith c cs t x d) text → KeepsNumber text x.bytes d.value := by
  intro h
  have hlayout := layout_spaced
    (lexemesWith selectedName [fromName] selectedName fromName largeLiteral)
  have hkept := h selectedName [fromName] selectedName fromName largeLiteral _ hlayout
  have ⟨rounds, houtcome, _⟩ := accepted_with hlayout
  have hmem := (out_with hlayout houtcome).mpr rfl
  have hcondition := (hkept.keeps rounds houtcome).2 _ _ _ hmem
  revert hcondition
  decide

end SystemsInC.Ports.SqlNumbers
