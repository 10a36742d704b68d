import SystemsInC.Ports.SqlLayout
import SystemsInC.Ports.SqlParser
import Mathlib.Data.List.Forall2

/-!
# What the SQL program accepts

Every layout of a statement is accepted, and printed with its columns, its table
and its condition (`statement_accepted`).

Conversely a success is printed for a statement at the start of the tokens of the
input.  Characters that belong to no token are reported and dropped, and what
follows the semicolon is read after the success was printed; only the return value
0 says that there is nothing (`success_only_for_statement`).
-/

namespace SystemsInC.Ports.SqlStatements

open SystemsInC.Verified.CString (Bytes)
open SystemsInC.Verified.TableParser
open SystemsInC.Verified.TextInput (ascii decimal)
open SystemsInC.Ports.SqlLexer
open SystemsInC.Ports.SqlLayout
open SystemsInC.Ports.SqlParser

/-! ## The next token -/

/-- A token in front, without unknown characters. -/
theorem next_of_token {input : Bytes} {token : Token} {rest : List Item}
    (h : items 0 input = .token token :: rest) :
    (next 0 input).token = some token ∧ (next 0 input).unknown = [] ∧
      items 0 (next 0 input).rest = rest := by
  rw [items_next] at h
  cases hunknown : (next 0 input).unknown with
  | cons b bs =>
      rw [hunknown] at h
      cases h
  | nil =>
      rw [hunknown] at h
      cases htoken : (next 0 input).token with
      | none =>
          rw [htoken] at h
          cases h
      | some found =>
          rw [htoken] at h
          cases h
          exact ⟨rfl, rfl, rfl⟩

/-- Nothing but white space. -/
theorem next_of_nil {input : Bytes} (h : items 0 input = []) :
    (next 0 input).token = none ∧ (next 0 input).unknown = [] := by
  rw [items_next] at h
  have ⟨hunknown, htoken⟩ := List.append_eq_nil_iff.mp h
  refine ⟨?_, List.map_eq_nil_iff.mp hunknown⟩
  cases hfound : (next 0 input).token with
  | none => rfl
  | some token =>
      rw [hfound] at htoken
      cases htoken

/-! ## Statements are accepted -/

/-- At some round the parser is at a stage, with the items that are still to come and
what is printed so far. -/
def Ready (input : Bytes) (σ : Stage) (its : List Item) (out : List Output) : Prop :=
  ∃ rounds, Fits (parse input rounds) σ ∧ items 0 (parse input rounds).rest = its ∧
    (parse input rounds).out = out

variable {input : Bytes} {σ σ' : Stage} {its : List Item} {out : List Output}

theorem parse_succ (input : Bytes) (rounds : Nat) :
    parse input (rounds + 1) = (parse input rounds).step tables calls :=
  run_add rounds 1

theorem Ready.start (input : Bytes) : Ready input .start (items 0 input) [.prompt] :=
  ⟨0, ⟨rfl, rfl, rfl, rfl, rfl⟩, rfl, rfl⟩

theorem Ready.reduce (h : Ready input σ its out) (hreduce : σ.reduce = some σ') :
    Ready input σ' its (out ++ σ.output) := by
  have ⟨rounds, fits, hits, hout⟩ := h
  have ⟨fits', hrest, hout'⟩ := step_reduce fits hreduce
  rw [← parse_succ] at fits' hrest hout'
  exact ⟨rounds + 1, fits', hrest ▸ hits, hout ▸ hout'⟩

/-- A reduction that prints nothing. -/
theorem Ready.reduce_silent (h : Ready input σ its out) (hreduce : σ.reduce = some σ')
    (houtput : σ.output = []) : Ready input σ' its out := by
  have hnext := h.reduce hreduce
  rwa [houtput, List.append_nil] at hnext

theorem Ready.shift {token : Token} (h : Ready input σ (.token token :: its) out)
    (hshift : σ.shift (some token) = some σ') : Ready input σ' its out := by
  have ⟨rounds, fits, hits, hout⟩ := h
  have ⟨htoken, hunknown, hrest⟩ := next_of_token hits
  have ⟨fits', hrest', hout'⟩ := step_shift fits (htoken ▸ hshift)
  rw [← parse_succ] at fits' hrest' hout'
  rw [hunknown, List.map_nil, List.append_nil] at hout'
  exact ⟨rounds + 1, fits', by rw [hrest', hrest], hout'.trans hout⟩

/-- The list of the columns is read. -/
theorem Ready.columns {c : Bytes} {cs : List Bytes} (more : List Bytes)
    (h : Ready input (.columns c cs)
      ((more.flatMap (fun name => [Token.comma, .identifier name])).map Item.token ++ its) out) :
    Ready input (.columns c (cs ++ more)) its out := by
  induction more generalizing cs with
  | nil => rwa [List.append_nil]
  | cons name more ih =>
      have hcomma := h.shift rfl
      have hname := hcomma.shift rfl
      have hlist := hname.reduce_silent rfl rfl
      have hmore := ih hlist
      rwa [List.append_assoc] at hmore

/-- The tokens of a statement lead to its last stage but one, and its output is
printed. -/
theorem Ready.statement (s : Statement) (h : items 0 input = s.tokens.map .token ++ its) :
    Ready input (.statement s) its [.prompt, s.output] := by
  have hstart := Ready.start input
  rw [h, Statement.tokens, listTokens, List.map_append, List.append_assoc] at hstart
  have hselect := hstart.shift rfl
  have hfirst := (hselect.shift rfl).reduce_silent rfl rfl
  have hcolumns := hfirst.columns s.columns
  have hfrom := hcolumns.shift rfl
  have htable := (hfrom.shift rfl).reduce_silent rfl rfl
  have hwhere := htable.shift rfl
  have hcolumn := hwhere.shift rfl
  have heq := hcolumn.shift rfl
  have hcondition := (heq.shift rfl).reduce_silent rfl rfl
  have hsemicolon := hcondition.shift rfl
  exact hsemicolon.reduce rfl

/-- Nothing follows a statement, and the parser accepts it. -/
theorem Ready.accept (s : Statement) (h : items 0 input = s.tokens.map .token) :
    ∃ rounds, (parse input rounds).outcome = some (.returned 0) ∧
      (parse input rounds).out = [.prompt, s.output] := by
  have ⟨rounds, fits, hits, hout⟩ := Ready.statement s (h.trans (List.append_nil _).symm)
  have ⟨htoken, hunknown⟩ := next_of_nil hits
  have hshift : (Stage.statement s).shift (next 0 (parse input rounds).rest).token =
      some (.finished s) := by
    rw [htoken]
    rfl
  have ⟨fits', _, hout'⟩ := step_shift fits hshift
  rw [← parse_succ] at fits' hout'
  rw [hunknown, List.map_nil, List.append_nil] at hout'
  refine ⟨rounds + 1 + 1, ?_, ?_⟩
  · rw [parse_succ, step_accept fits']
  · rw [parse_succ, step_accept fits']
    exact hout'.trans hout

/-! ## Layouts -/

/-- The lexemes of a statement. -/
def lexemes (c : Name) (cs : List Name) (t x : Name) (n : Nat) : List Bytes :=
  ascii "SELECT" :: c.bytes :: cs.flatMap (fun name => [ascii ",", name.bytes]) ++
    [ascii "FROM", t.bytes, ascii "WHERE", x.bytes, ascii "=", decimal n, ascii ";"]

/-- The statement that they make. -/
def statementOf (c : Name) (cs : List Name) (t x : Name) (n : Nat) : Statement :=
  { first := c.bytes
    columns := cs.map Name.bytes
    table := t.bytes
    column := x.bytes
    number := Int32.ofNat n }

theorem columns_scans (cs : List Name) :
    List.Forall₂ Scans (cs.flatMap (fun name => [ascii ",", name.bytes]))
      ((cs.map Name.bytes).flatMap (fun name => [Token.comma, .identifier name])) := by
  induction cs with
  | nil => exact .nil
  | cons name cs ih =>
      have hcomma : Lexeme (ascii ",") .comma := .symbol (k := (ascii ",", .comma)) (by decide)
      exact .cons hcomma.scans (.cons (Lexeme.name name).scans ih)

/-- The tokens of a statement, with any way to write its number. -/
theorem statement_scans (c : Name) (cs : List Name) (t x : Name) {digits : Bytes} {number : Int32}
    (hnumber : Scans digits (.number number)) :
    List.Forall₂ Scans
      (ascii "SELECT" :: c.bytes :: cs.flatMap (fun name => [ascii ",", name.bytes]) ++
        [ascii "FROM", t.bytes, ascii "WHERE", x.bytes, ascii "=", digits, ascii ";"])
      (Statement.mk c.bytes (cs.map Name.bytes) t.bytes x.bytes number).tokens := by
  have hkeyword : ∀ k ∈ keywords, Scans k.1 k.2 := fun _ hk => (Lexeme.keyword hk).scans
  have hsymbol : ∀ k ∈ symbols, Scans k.1 k.2 := fun _ hk => (Lexeme.symbol hk).scans
  have hname : ∀ name : Name, Scans name.bytes (.identifier name.bytes) := fun name =>
    (Lexeme.name name).scans
  refine .cons (hkeyword (ascii "SELECT", .select) (by decide)) (.cons (hname c) ?_)
  refine List.rel_append (columns_scans cs) ?_
  refine .cons (hkeyword (ascii "FROM", .fromWord) (by decide)) (.cons (hname t) ?_)
  refine .cons (hkeyword (ascii "WHERE", .whereWord) (by decide)) (.cons (hname x) ?_)
  refine .cons (hsymbol (ascii "=", .eq) (by decide)) (.cons hnumber ?_)
  exact .cons (hsymbol (ascii ";", .semicolon) (by decide)) .nil

/-- The list of the columns has single commas between the names. -/
theorem joined_eq (c : Bytes) (cs : List Bytes) : joined c cs = (ascii ",").intercalate (c :: cs) := by
  induction cs generalizing c with
  | nil => exact List.intercalate_singleton.symm
  | cons name cs ih =>
      rw [joined, List.foldl_cons, ← joined, ih, List.intercalate_cons_cons]
      cases cs with
      | nil => rw [List.intercalate_singleton, List.intercalate_singleton, List.append_assoc]
      | cons next cs =>
          rw [List.intercalate_cons_cons, List.intercalate_cons_cons]
          simp only [List.append_assoc]

theorem decimalInt_ofNat {n : Nat} (hn : n ≤ 2147483647) : decimalInt (Int32.ofNat n) = decimal n := by
  have hint : (Int32.ofNat n).toInt = n := Int32.toInt_ofNat_of_lt (by omega)
  rw [decimalInt, hint, if_neg (by omega), Int.natAbs_natCast]

/-- **Every layout of a statement is accepted, and printed with its content.** -/
theorem statement_accepted (c : Name) (cs : List Name) (t x : Name) (n : Nat) (text : Bytes)
    (hn : n ≤ 2147483647) (hlayout : Layout (lexemes c cs t x n) text) :
    ∃ rounds, (parse text rounds).outcome = some (.returned 0) ∧
      (parse text rounds).out.flatMap Output.text =
        ascii "Enter SQL statement:\n" ++
          (ascii "\nParsed Successfully!\n" ++
            ascii "Columns: " ++ (ascii ",").intercalate (c.bytes :: cs.map Name.bytes) ++
              ascii "\n" ++
            ascii "Table: " ++ t.bytes ++ ascii "\n" ++
            ascii "Condition: " ++ (x.bytes ++ ascii "=" ++ decimal n) ++ ascii "\n\n") := by
  have hitems := items_of_scans hlayout (statement_scans c cs t x (Lexeme.number n hn).scans)
  have ⟨rounds, houtcome, hout⟩ := Ready.accept (statementOf c cs t x n) hitems
  refine ⟨rounds, houtcome, ?_⟩
  rw [hout, ← decimalInt_ofNat hn, ← joined_eq]
  simp only [List.flatMap_cons, List.flatMap_nil, List.append_nil]
  rfl

def selectedName : Name :=
  { bytes := ascii "SELECTED"
    letter := ⟨83, ascii "ELECTED", rfl, rfl, List.all_eq_true.mp rfl⟩
    not_keyword := by decide }

def fromName : Name :=
  { bytes := ascii "from_1"
    letter := ⟨102, ascii "rom_1", rfl, rfl, List.all_eq_true.mp rfl⟩
    not_keyword := by decide }

/-- Names that begin with a keyword, some neighbours without white space, and a newline
at the end. -/
theorem statement_accepted_twoColumns :
    ∃ rounds, (parse (ascii "SELECT SELECTED ,from_1 FROM SELECTED WHERE from_1 =17 ;\n")
      rounds).outcome = some (.returned 0) := by
  have hnone : ∀ b ∈ ([] : Bytes), isWhite b = true := List.all_eq_true.mp rfl
  have hspace : ∀ b ∈ ascii " ", isWhite b = true := List.all_eq_true.mp rfl
  have hcomma := symbol_not_wordLike (k := (ascii ",", .comma)) (by decide)
  have heq := symbol_not_wordLike (k := (ascii "=", .eq)) (by decide)
  have h₁₂ := @Layout.nil (ascii "\n") (List.all_eq_true.mp rfl)
  have h₁₁ := @Layout.cons (ascii " ") (ascii ";") _ _ hspace h₁₂ (fun _ _ h => nomatch h)
  have h₁₀ := @Layout.cons [] (decimal 17) _ _ hnone h₁₁ (fun _ _ _ _ => ⟨32, rfl, rfl⟩)
  have h₉ := @Layout.cons (ascii " ") (ascii "=") _ _ hspace h₁₀ (fun h => absurd h heq)
  have h₈ := @Layout.cons (ascii " ") fromName.bytes _ _ hspace h₉ (fun _ _ _ _ => ⟨32, rfl, rfl⟩)
  have h₇ := @Layout.cons (ascii " ") (ascii "WHERE") _ _ hspace h₈
    (fun _ _ _ _ => ⟨32, rfl, rfl⟩)
  have h₆ := @Layout.cons (ascii " ") selectedName.bytes _ _ hspace h₇
    (fun _ _ _ _ => ⟨32, rfl, rfl⟩)
  have h₅ := @Layout.cons (ascii " ") (ascii "FROM") _ _ hspace h₆
    (fun _ _ _ _ => ⟨32, rfl, rfl⟩)
  have h₄ := @Layout.cons [] fromName.bytes _ _ hnone h₅ (fun _ _ _ _ => ⟨32, rfl, rfl⟩)
  have h₃ := @Layout.cons (ascii " ") (ascii ",") _ _ hspace h₄ (fun h => absurd h hcomma)
  have h₂ := @Layout.cons (ascii " ") selectedName.bytes _ _ hspace h₃
    (fun _ _ _ _ => ⟨32, rfl, rfl⟩)
  have h₁ := @Layout.cons [] (ascii "SELECT") _ _ hnone h₂ (fun _ _ _ _ => ⟨32, rfl, rfl⟩)
  have ⟨rounds, houtcome, _⟩ :=
    statement_accepted selectedName [fromName] selectedName fromName 17 _ (by decide) h₁
  exact ⟨rounds, houtcome⟩

/-! ## What a success says -/

/-- The input begins with the tokens of a statement, and the unknown characters among
them are reported. -/
def Begins (input : Bytes) (s : Statement) (out : List Output) : Prop :=
  ∃ consumed rest, items 0 input = consumed ++ rest ∧
    consumed.filterMap Item.token? = s.tokens ∧
    ∀ b, .unknown b ∈ consumed → .unknownCharacter b ∈ out

/-- Each success that is printed is that of a statement at the start of the input. -/
def Printed (input : Bytes) (out : List Output) : Prop :=
  ∀ columns table condition, .parsed columns table condition ∈ out →
    ∃ s : Statement, Begins input s out ∧ .parsed columns table condition = s.output

/-- The tokens are those of one statement, and all unknown characters are reported. -/
def Exact (input : Bytes) (out : List Output) : Prop :=
  ∃ s : Statement, tokens input = s.tokens ∧
    ∀ b, .unknown b ∈ items 0 input ↔ .unknownCharacter b ∈ out

/-- The items of the input that are consumed at a stage, with what is printed. -/
structure Track (input : Bytes) (p : Parser Value Bytes Output) (σ : Stage)
    (consumed : List Item) : Prop where
  split : items 0 input = consumed ++ items 0 p.rest
  tokens : consumed.filterMap Item.token? = σ.tokens
  unknown : ∀ b, .unknown b ∈ consumed ↔ .unknownCharacter b ∈ p.out
  printed : ∀ columns table condition, .parsed columns table condition ∈ p.out →
    ∃ s, (σ = .statement s ∨ σ = .finished s) ∧ .parsed columns table condition = s.output
  ended : ∀ s, σ = .finished s → items 0 p.rest = []

variable {p : Parser Value Bytes Output} {consumed : List Item}

theorem Track.out_printed (track : Track input p σ consumed) : Printed input p.out := by
  intro columns table condition hmem
  have ⟨s, hσ, heq⟩ := track.printed columns table condition hmem
  have htokens := track.tokens
  refine ⟨s, ⟨consumed, _, track.split, ?_, fun b => (track.unknown b).mp⟩, heq⟩
  rcases hσ with hσ | hσ <;> rw [hσ] at htokens <;> exact htokens

/-- The parser is at a stage of the input, or at its end. -/
inductive Sound (input : Bytes) (p : Parser Value Bytes Output) : Prop
  | running (σ : Stage) (consumed : List Item) : Fits p σ → Track input p σ consumed → Sound input p
  | accepted : p.outcome = some (.returned 0) → Printed input p.out → Exact input p.out →
      Sound input p
  | refused : p.outcome = some (.returned 1) → Printed input p.out → Sound input p

theorem Sound.start (input : Bytes) : Sound input (start input) := by
  refine .running .start [] ⟨rfl, rfl, rfl, rfl, rfl⟩ ⟨rfl, rfl, fun b => ?_, ?_, fun s h => nomatch h⟩
  · constructor
    · intro h
      cases h
    · intro h
      cases List.mem_singleton.mp h
  · intro columns table condition h
    cases List.mem_singleton.mp h

variable {p' : Parser Value Bytes Output}

theorem Track.reduce (track : Track input p σ consumed) (hreduce : σ.reduce = some σ')
    (hrest : p'.rest = p.rest) (hout : p'.out = p.out ++ σ.output) :
    Track input p' σ' consumed where
  split := hrest ▸ track.split
  tokens := track.tokens.trans (reduce_tokens hreduce).symm
  unknown := by
    intro b
    have hnot : .unknownCharacter b ∉ σ.output := by
      cases σ <;> simp [Stage.output, Statement.output]
    rw [track.unknown, hout, List.mem_append]
    exact (or_iff_left hnot).symm
  printed := by
    intro columns table condition hmem
    rw [hout] at hmem
    rcases List.mem_append.mp hmem with hold | hnew
    · have ⟨s, hσ, _⟩ := track.printed columns table condition hold
      rcases hσ with hσ | hσ <;> rw [hσ] at hreduce <;> cases hreduce
    · unfold Stage.output at hnew
      split at hnew
      · cases hreduce
        exact ⟨_, .inl rfl, List.mem_singleton.mp hnew⟩
      · cases hnew
  ended := by
    intro s hσ
    unfold Stage.reduce at hreduce
    split at hreduce <;> cases hreduce <;> cases hσ

/-- Behind a whole statement only the end of the input is taken. -/
theorem Track.printed_shift (track : Track input p σ consumed)
    (hshift : σ.shift (next 0 p.rest).token = some σ') (unknown : List UInt8)
    (columns table condition : Bytes)
    (hmem : .parsed columns table condition ∈ p.out ++ unknown.map Output.unknownCharacter) :
    ∃ s, (σ' = .statement s ∨ σ' = .finished s) ∧ .parsed columns table condition = s.output := by
  rcases List.mem_append.mp hmem with hold | hnew
  · have ⟨s, hσ, heq⟩ := track.printed columns table condition hold
    rcases hσ with hσ | hσ
    · subst hσ
      exact ⟨s, .inr (shift_statement hshift), heq⟩
    · subst hσ
      cases hshift
  · have ⟨b, _, heq⟩ := List.mem_map.mp hnew
    cases heq

theorem Track.shift (track : Track input p σ consumed)
    (hshift : σ.shift (next 0 p.rest).token = some σ') (hrest : p'.rest = (next 0 p.rest).rest)
    (hout : p'.out = p.out ++ (next 0 p.rest).unknown.map .unknownCharacter) :
    Track input p' σ' (consumed ++ ((next 0 p.rest).unknown.map .unknown ++
      ((next 0 p.rest).token.map Item.token).toList)) where
  split := by
    rw [track.split, items_next 0 p.rest, hrest]
    cases htoken : (next 0 p.rest).token with
    | none =>
        rw [next_rest_eq_nil htoken]
        simp [items]
    | some token => simp
  tokens := by
    have hunknown : ((next 0 p.rest).unknown.map Item.unknown).filterMap Item.token? = [] := by
      simp [List.filterMap_map, Function.comp_def, Item.token?]
    have htoken : ((next 0 p.rest).token.map Item.token).toList.filterMap Item.token? =
        (next 0 p.rest).token.toList := by
      cases (next 0 p.rest).token <;> rfl
    rw [List.filterMap_append, List.filterMap_append, hunknown, htoken, track.tokens,
      shift_tokens hshift, List.nil_append]
  unknown := by
    intro b
    have htoken : .unknown b ∉ ((next 0 p.rest).token.map Item.token).toList := by
      cases (next 0 p.rest).token <;> simp
    rw [hout, List.mem_append, List.mem_append, List.mem_append, track.unknown,
      or_iff_left htoken]
    simp
  printed := by
    rw [hout]
    exact track.printed_shift hshift _
  ended := by
    intro s hσ
    rw [hσ] at hshift
    rw [hrest, next_rest_eq_nil (shift_finished hshift)]
    rfl

theorem Sound.step (h : Sound input p) : Sound input (p.step tables calls) := by
  cases h with
  | running σ consumed fits track =>
      cases hreduce : σ.reduce with
      | some σ' =>
          have ⟨fits', hrest, hout⟩ := step_reduce fits hreduce
          exact .running σ' consumed fits' (track.reduce hreduce hrest hout)
      | none =>
          by_cases hfinished : ∃ s, σ = .finished s
          · have ⟨s, hσ⟩ := hfinished
            subst hσ
            rw [step_accept fits]
            have hall : items 0 input = consumed := by
              rw [track.split, track.ended s rfl, List.append_nil]
            have htokens : tokens input = s.tokens := by
              rw [SqlLexer.tokens, hall]
              exact track.tokens
            exact .accepted rfl track.out_printed ⟨s, htokens, hall ▸ track.unknown⟩
          · have hreads : σ.Reads := ⟨hreduce, fun s hσ => hfinished ⟨s, hσ⟩⟩
            cases hshift : σ.shift (next 0 p.rest).token with
            | some σ' =>
                have ⟨fits', hrest, hout⟩ := step_shift fits hshift
                exact .running σ' _ fits' (track.shift hshift hrest hout)
            | none =>
                have ⟨houtcome, hout⟩ := step_refuse fits hreads hshift
                refine .refused houtcome ?_
                intro columns table condition hmem
                rw [hout, List.append_assoc] at hmem ⊢
                rcases List.mem_append.mp hmem with hold | hnew
                · have ⟨s, ⟨_, _, hsplit, htokens, hunknown⟩, heq⟩ :=
                    track.out_printed columns table condition hold
                  exact ⟨s, ⟨_, _, hsplit, htokens,
                    fun b hb => List.mem_append_left _ (hunknown b hb)⟩, heq⟩
                · simp at hnew
  | accepted houtcome hprinted hexact =>
      rw [step_of_outcome (by rw [houtcome]; exact Option.some_ne_none _)]
      exact .accepted houtcome hprinted hexact
  | refused houtcome hprinted =>
      rw [step_of_outcome (by rw [houtcome]; exact Option.some_ne_none _)]
      exact .refused houtcome hprinted

theorem sound_parse (input : Bytes) (rounds : Nat) : Sound input (parse input rounds) := by
  induction rounds with
  | zero => exact Sound.start input
  | succ rounds ih =>
      rw [parse_succ]
      exact ih.step

/-- **A success is printed for a statement at the start of the input only**, with its
content, and each unknown character in it is reported.  The parser returns 0 only if
the input has no other tokens, and all its unknown characters are reported. -/
theorem success_only_for_statement (input : Bytes) (rounds : Nat) :
    (∀ columns table condition,
      .parsed columns table condition ∈ (parse input rounds).out →
        ∃ s : Statement, Begins input s (parse input rounds).out ∧
          columns = joined s.first s.columns ∧ table = s.table ∧ condition = s.condition) ∧
    ((parse input rounds).outcome = some (.returned 0) →
      ∃ s : Statement, tokens input = s.tokens ∧
        ∀ b, .unknown b ∈ items 0 input ↔
          .unknownCharacter b ∈ (parse input rounds).out) := by
  have hprinted : Printed input (parse input rounds).out := by
    cases sound_parse input rounds with
    | running σ consumed _ track => exact track.out_printed
    | accepted _ hprinted _ => exact hprinted
    | refused _ hprinted => exact hprinted
  refine ⟨fun columns table condition hmem => ?_, fun houtcome => ?_⟩
  · have ⟨s, hbegins, heq⟩ := hprinted columns table condition hmem
    cases heq
    exact ⟨s, hbegins, rfl, rfl, rfl⟩
  · cases sound_parse input rounds with
    | running σ consumed fits _ =>
        rw [fits.outcome] at houtcome
        cases houtcome
    | accepted _ _ hexact => exact hexact
    | refused hrefused _ =>
        rw [hrefused] at houtcome
        cases houtcome

/-- The input is one statement, up to white space. -/
def OneStatement (input : Bytes) : Prop := ∃ s : Statement, items 0 input = s.tokens.map .token

/-- A success is printed with an unknown character inside the statement, and with a
token behind it. -/
theorem success_without_statement :
    (∃ rounds, .parsed (ascii "a") (ascii "t") (ascii "x=1") ∈
      (parse (ascii "SELECT @a FROM t WHERE x=1;") rounds).out) ∧
    ¬ OneStatement (ascii "SELECT @a FROM t WHERE x=1;") ∧
    (∃ rounds, .parsed (ascii "a") (ascii "t") (ascii "x=1") ∈
      (parse (ascii "SELECT a FROM t WHERE x=1;b") rounds).out) ∧
    ¬ OneStatement (ascii "SELECT a FROM t WHERE x=1;b") := by
  refine ⟨⟨16, by decide +kernel⟩, ?_, ⟨16, by decide +kernel⟩, ?_⟩
  · rintro ⟨s, hs⟩
    have hmem : Item.unknown 64 ∈ items 0 (ascii "SELECT @a FROM t WHERE x=1;") := by
      decide +kernel
    rw [hs] at hmem
    simp at hmem
  · rintro ⟨s, hs⟩
    have hlast : (items 0 (ascii "SELECT a FROM t WHERE x=1;b")).getLast? =
        some (.token (.identifier (ascii "b"))) := by
      decide +kernel
    rw [hs, Statement.tokens, List.map_append, List.getLast?_append] at hlast
    simp at hlast

end SystemsInC.Ports.SqlStatements
