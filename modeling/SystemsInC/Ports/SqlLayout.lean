import SystemsInC.Ports.SqlLexer
import Mathlib.Data.List.Forall2

/-!
# Layouts of a statement

Keywords, symbols, names and numbers written one after the other, with white space
around them, and with some white space wherever two words or numbers are neighbours.
The scanner takes such a text apart into the tokens of its lexemes, whatever the
white space is (`items_of_scans`).  A name may begin with a keyword or be a part of
one, as the longest match decides.
-/

namespace SystemsInC.Ports.SqlLayout

open SystemsInC.Verified.CString (Bytes)
open SystemsInC.Verified.LongestMatch
open SystemsInC.Verified.TextInput (ascii decimal isDigit ofDecimal decimal_spec)
open SystemsInC.Ports.SqlLexer

/-! ## Lexemes -/

/-- A name that is not a keyword. -/
structure Name where
  bytes : Bytes
  letter : ∃ b tail, bytes = b :: tail ∧ isLetter b = true ∧ ∀ c ∈ tail, isWord c = true
  not_keyword : ∀ k ∈ keywords, k.1 ≠ bytes

/-- A lexeme with its token. -/
inductive Lexeme : Bytes → Token → Prop
  | keyword {k : Bytes × Token} : k ∈ keywords → Lexeme k.1 k.2
  | symbol {k : Bytes × Token} : k ∈ symbols → Lexeme k.1 k.2
  | name (name : Name) : Lexeme name.bytes (.identifier name.bytes)
  | number (n : Nat) : n ≤ 2147483647 → Lexeme (decimal n) (.number (Int32.ofNat n))

/-- A word or a number, as opposed to a symbol. -/
def WordLike (lexeme : Bytes) : Prop := ∃ b, lexeme.head? = some b ∧ isWord b = true

/-- The text does not go on with a character of words and numbers. -/
def Ends (text : Bytes) : Prop := ∀ b ∈ text.head?, isWord b = false

/-- A text that has the lexemes in their order, with white space in front of each
and at the end. -/
inductive Layout : List Bytes → Bytes → Prop
  | nil {gap : Bytes} : (∀ b ∈ gap, isWhite b = true) → Layout [] gap
  | cons {gap lexeme text : Bytes} {lexemes : List Bytes} :
      (∀ b ∈ gap, isWhite b = true) → Layout lexemes text →
      (WordLike lexeme → ∀ next, lexemes.head? = some next → WordLike next →
        ∃ b, text.head? = some b ∧ isWhite b = true) →
      Layout (lexeme :: lexemes) (gap ++ (lexeme ++ text))

/-! ## Characters -/

theorem isWord_of_isLetter {b : UInt8} (h : isLetter b = true) : isWord b = true := by
  rw [isWord, h]
  rfl

theorem isWord_of_isDigit {b : UInt8} (h : isDigit b = true) : isWord b = true := by
  rw [isWord, h, Bool.or_true]

theorem isWhite_of_isWord {b : UInt8} (h : isWord b = true) : isWhite b = false := by
  by_contra hwhite
  rw [Bool.not_eq_false] at hwhite
  have hb : b = 32 ∨ b = 9 ∨ b = 13 ∨ b = 10 := by
    simpa [isWhite, or_assoc] using hwhite
  rcases hb with hb | hb | hb | hb <;> rw [hb] at h <;> exact absurd h (by decide)

theorem isDigit_of_isLetter {b : UInt8} (h : isLetter b = true) : isDigit b = false := by
  unfold isLetter at h
  unfold isDigit
  grind

/-- A keyword is a letter and some more of them. -/
theorem keyword_letters : ∀ k ∈ keywords, k.1.head?.any isLetter = true ∧ k.1.all isWord = true := by
  decide

/-- A symbol is one character, which is of no other class. -/
theorem symbol_letter : ∀ k ∈ symbols, k.1.length = 1 ∧
    k.1.head?.any (fun b => ! isWord b && ! isWhite b) = true := by
  decide

theorem keyword_not_start {k : Bytes × Token} (hk : k ∈ keywords) {b : UInt8} {text : Bytes}
    (hb : isLetter b = false) : ¬ k.1 <+: b :: text := by
  intro hpre
  have hletters := (keyword_letters k hk).1
  cases hword : k.1 with
  | nil =>
      rw [hword] at hletters
      cases hletters
  | cons c tail =>
      rw [hword] at hletters hpre
      have hc : c = b := (List.cons_prefix_cons.mp hpre).1
      have hletter : isLetter c = true := hletters
      rw [hc, hb] at hletter
      cases hletter

theorem symbol_not_start {k : Bytes × Token} (hk : k ∈ symbols) {b : UInt8} {text : Bytes}
    (hb : k.1.head? ≠ some b) : ¬ k.1 <+: b :: text := by
  intro hpre
  have hlen := (symbol_letter k hk).1
  cases hword : k.1 with
  | nil =>
      rw [hword] at hlen
      cases hlen
  | cons c tail =>
      rw [hword] at hpre hb
      exact hb (congrArg some (List.cons_prefix_cons.mp hpre).1)

theorem symbol_head_ne {k : Bytes × Token} (hk : k ∈ symbols) {b : UInt8}
    (hb : isWord b = true ∨ isWhite b = true) : k.1.head? ≠ some b := by
  intro heq
  have hletter := (symbol_letter k hk).2
  rw [heq] at hletter
  rcases hb with hb | hb <;> simp [hb] at hletter

theorem symbol_not_wordLike {k : Bytes × Token} (hk : k ∈ symbols) : ¬ WordLike k.1 := by
  intro h
  have ⟨b, hhead, hb⟩ := h
  exact symbol_head_ne hk (.inl hb) hhead

/-- In front of a character that does not go on with a word, a keyword matches
another word in a part of it only. -/
theorem keyword_atMost {k : Bytes × Token} (hk : k ∈ keywords) {b : UInt8} {tail text : Bytes}
    (hne : k.1 ≠ b :: tail) (hend : Ends text) :
    AtMost (.literal k.1) ((b :: tail) ++ text) tail.length := by
  by_cases hpre : k.1 <+: (b :: tail) ++ text
  · apply atMost_of_longest (longest_literal hpre)
    rcases List.prefix_or_prefix_of_prefix hpre (List.prefix_append (b :: tail) text) with h | h
    · have hlen := h.length_le
      rcases Nat.lt_or_eq_of_le hlen with hlt | heq
      · exact Nat.le_of_lt_succ hlt
      · exact absurd (h.eq_of_length heq) hne
    · -- the text would go on with a letter of the keyword
      have ⟨rest, hrest⟩ := h
      rw [← hrest] at hpre hne
      have hpre := (List.prefix_append_right_inj (b :: tail)).mp hpre
      cases rest with
      | nil => exact absurd (List.append_nil _) hne
      | cons c rest =>
          have ⟨more, hmore⟩ := hpre
          have hc := hend c (by rw [← hmore]; rfl)
          have hword := List.all_eq_true.mp (keyword_letters k hk).2 c (by
            rw [← hrest]
            simp)
          rw [hc] at hword
          cases hword
  · exact atMost_literal hpre

/-! ## The rule of a lexeme -/

/-- Keywords do not match in front of another character than a letter. -/
theorem keywords_atMost {b : UInt8} {text : Bytes} (n : Nat) (hletter : isLetter b = false) :
    ∀ rule ∈ keywords.map literalRule, AtMost rule.1 (b :: text) n := by
  refine List.forall_mem_map.mpr (fun k hk => ?_)
  exact atMost_literal (keyword_not_start hk hletter)

/-- Symbols do not match in front of words, numbers and white space. -/
theorem symbols_atMost {b : UInt8} {text : Bytes} (n : Nat)
    (hclass : isWord b = true ∨ isWhite b = true) :
    ∀ rule ∈ symbols.map literalRule, AtMost rule.1 (b :: text) n := by
  refine List.forall_mem_map.mpr (fun k hk => ?_)
  exact atMost_literal (symbol_not_start hk (symbol_head_ne hk hclass))

theorem literals_atMost {b : UInt8} {text : Bytes} (n : Nat) (hletter : isLetter b = false)
    (hclass : isWord b = true ∨ isWhite b = true) :
    ∀ rule ∈ keywords.map literalRule ++ symbols.map literalRule, AtMost rule.1 (b :: text) n :=
  List.forall_mem_append.mpr ⟨keywords_atMost n hletter, symbols_atMost n hclass⟩

/-- An entry of a table with distinct keys, with those in front of it and behind it. -/
theorem split_of_mem {κ : Type*} {table : List (Bytes × Token)} {key : Bytes × Token → κ}
    (hnodup : (table.map key).Nodup) {k : Bytes × Token} (hk : k ∈ table) :
    ∃ l₁ l₂, table = l₁ ++ k :: l₂ ∧ ∀ k' ∈ l₁ ++ l₂, k' ∈ table ∧ key k' ≠ key k := by
  have ⟨l₁, l₂, hsplit⟩ := List.append_of_mem hk
  have hperm : table.Perm (k :: (l₁ ++ l₂)) := hsplit ▸ List.perm_middle
  have hdistinct := (hperm.map key).nodup_iff.mp hnodup
  rw [List.map_cons, List.nodup_cons] at hdistinct
  refine ⟨l₁, l₂, hsplit, fun k' hk' => ⟨?_, fun heq => ?_⟩⟩
  · exact hperm.mem_iff.mpr (List.mem_cons_of_mem _ hk')
  · exact hdistinct.1 (heq ▸ List.mem_map_of_mem hk')

/-- The rules behind the keywords match no more than a word. -/
theorem later_atMost {b : UInt8} {tail text : Bytes} (hb : isLetter b = true)
    (htail : ∀ c ∈ tail, isWord c = true) (hend : Ends text) :
    ∀ rule ∈ symbols.map literalRule ++ classRules,
      AtMost rule.1 ((b :: tail) ++ text) (tail.length + 1) := by
  intro rule hrule
  rcases List.mem_append.mp hrule with hsymbol | hclass
  · exact symbols_atMost _ (.inl (isWord_of_isLetter hb)) rule hsymbol
  · simp only [classRules, List.mem_cons, List.not_mem_nil, or_false] at hclass
    rcases hclass with h | h | h | h <;> rw [h]
    · exact atMost_of_longest (longest_run hb htail hend) (Nat.le_refl _)
    · exact atMost_run (isDigit_of_isLetter hb)
    · exact atMost_run (isWhite_of_isWord (isWord_of_isLetter hb))
    · exact atMost_one _ _ _

theorem munch_keyword {k : Bytes × Token} (hk : k ∈ keywords) {text : Bytes} (hend : Ends text) :
    munch rules (k.1 ++ text) = some (.returns k.2, k.1.length) := by
  have ⟨hletter, hall⟩ := keyword_letters k hk
  have hnodup : (keywords.map Prod.fst).Nodup := by decide
  have ⟨l₁, l₂, hsplit, hothers⟩ := split_of_mem hnodup hk
  cases hword : k.1 with
  | nil =>
      rw [hword] at hletter
      cases hletter
  | cons b tail =>
      rw [hword] at hletter hall hothers
      have htail : ∀ c ∈ tail, isWord c = true := fun c hc =>
        List.all_eq_true.mp hall c (List.mem_cons_of_mem _ hc)
      have hlongest : (Pattern.literal k.1).longest ((b :: tail) ++ text) = some (tail.length + 1) := by
        rw [hword, longest_literal (List.prefix_append _ _), List.length_cons]
      have hkeywords : ∀ k' ∈ l₁ ++ l₂,
          AtMost (literalRule k').1 ((b :: tail) ++ text) tail.length := by
        intro k' hk'
        have ⟨hmem, hne⟩ := hothers k' hk'
        exact keyword_atMost hmem hne hend
      have hrules : rules = l₁.map literalRule ++ (Pattern.literal k.1, Rule.returns k.2) ::
          (l₂.map literalRule ++ (symbols.map literalRule ++ classRules)) := by
        rw [rules, hsplit, List.map_append, List.map_cons, List.append_assoc]
        rfl
      rw [hrules]
      refine munch_eq_some hlongest (List.forall_mem_map.mpr ?_)
        (List.forall_mem_append.mpr ⟨List.forall_mem_map.mpr ?_, later_atMost hletter htail hend⟩)
      · exact fun k' hk' => hkeywords k' (List.mem_append_left _ hk')
      · exact fun k' hk' m hm =>
          Nat.le_succ_of_le (hkeywords k' (List.mem_append_right _ hk') m hm)

theorem isLetter_of_not_isWord {b : UInt8} (h : isWord b = false) : isLetter b = false := by
  rw [isWord, Bool.or_eq_false_iff] at h
  exact h.1

theorem isDigit_of_not_isWord {b : UInt8} (h : isWord b = false) : isDigit b = false := by
  rw [isWord, Bool.or_eq_false_iff] at h
  exact h.2

theorem munch_name (name : Name) {text : Bytes} (hend : Ends text) :
    munch rules (name.bytes ++ text) = some (.identifier, name.bytes.length) := by
  have ⟨b, tail, hbytes, hb, htail⟩ := name.letter
  have hrules : rules = (keywords.map literalRule ++ symbols.map literalRule) ++
      (Pattern.run isLetter isWord, Rule.identifier) :: classRules.tail := by
    rw [rules, ← List.append_assoc]
    rfl
  rw [hrules, hbytes]
  refine munch_eq_some (longest_run hb htail hend) (fun rule hrule => ?_) (fun rule hrule => ?_)
  · rcases List.mem_append.mp hrule with hrule | hrule
    · have ⟨k, hk, heq⟩ := List.mem_map.mp hrule
      rw [← heq]
      exact keyword_atMost hk (hbytes ▸ name.not_keyword k hk) hend
    · exact symbols_atMost _ (.inl (isWord_of_isLetter hb)) rule hrule
  · exact later_atMost hb htail hend rule
      (List.mem_append_right _ (List.mem_of_mem_tail hrule))

theorem munch_number {b : UInt8} {tail text : Bytes} (hb : isDigit b = true)
    (htail : ∀ c ∈ tail, isDigit c = true) (hend : Ends text) :
    munch rules ((b :: tail) ++ text) = some (.number, tail.length + 1) := by
  have hletter : isLetter b = false := by
    by_contra h
    rw [Bool.not_eq_false] at h
    have hnot := isDigit_of_isLetter h
    rw [hb] at hnot
    cases hnot
  have hrules : rules = ((keywords.map literalRule ++ symbols.map literalRule) ++
      [(Pattern.run isLetter isWord, Rule.identifier)]) ++
        (Pattern.run isDigit isDigit, Rule.number) :: classRules.tail.tail := by
    rw [rules, ← List.append_assoc, List.append_assoc (_ ++ _)]
    rfl
  have hdigits : ∀ c ∈ text.head?, isDigit c = false := fun c hc =>
    isDigit_of_not_isWord (hend c hc)
  rw [hrules]
  refine munch_eq_some (longest_run hb htail hdigits) (fun rule hrule => ?_)
    (fun rule hrule => ?_)
  · rcases List.mem_append.mp hrule with hrule | hrule
    · exact literals_atMost _ hletter (.inl (isWord_of_isDigit hb)) rule hrule
    · rw [List.mem_singleton.mp hrule]
      exact atMost_run hletter
  · simp only [classRules, List.tail_cons, List.mem_cons, List.not_mem_nil, or_false] at hrule
    rcases hrule with h | h <;> rw [h]
    · exact atMost_run (isWhite_of_isWord (isWord_of_isDigit hb))
    · exact atMost_one _ _ _

/-- A run of white space is ignored as a whole. -/
theorem munch_white {b : UInt8} (hb : isWhite b = true) (text : Bytes) :
    munch rules (b :: text) = some (.ignore, (text.takeWhile isWhite).length + 1) := by
  have hword : isWord b = false := by
    by_contra h
    rw [Bool.not_eq_false] at h
    have hnot := isWhite_of_isWord h
    rw [hb] at hnot
    cases hnot
  have hrules : rules = ((keywords.map literalRule ++ symbols.map literalRule) ++
      [(Pattern.run isLetter isWord, Rule.identifier), (.run isDigit isDigit, .number)]) ++
        (Pattern.run isWhite isWhite, Rule.ignore) :: [(.one (fun b => b != 10), .unknown)] := by
    rw [rules, ← List.append_assoc, List.append_assoc (_ ++ _)]
    rfl
  rw [hrules]
  refine munch_eq_some (if_pos hb) (fun rule hrule => ?_) (fun rule hrule => ?_)
  · rcases List.mem_append.mp hrule with hrule | hrule
    · exact literals_atMost _ (isLetter_of_not_isWord hword) (.inr hb) rule hrule
    · simp only [List.mem_cons, List.not_mem_nil, or_false] at hrule
      rcases hrule with h | h <;> rw [h]
      · exact atMost_run (isLetter_of_not_isWord hword)
      · exact atMost_run (isDigit_of_not_isWord hword)
  · rw [List.mem_singleton.mp hrule]
    exact atMost_one _ _ _

theorem munch_symbol {k : Bytes × Token} (hk : k ∈ symbols) (text : Bytes) :
    munch rules (k.1 ++ text) = some (.returns k.2, k.1.length) := by
  have ⟨hlen, hclass⟩ := symbol_letter k hk
  have hnodup : (symbols.map (fun k => k.1.head?)).Nodup := by decide
  have ⟨l₁, l₂, hsplit, hothers⟩ := split_of_mem hnodup hk
  have ⟨b, hword⟩ := List.length_eq_one_iff.mp hlen
  have hb : isWord b = false ∧ isWhite b = false := by
    simpa [hword] using hclass
  have hletter := isLetter_of_not_isWord hb.1
  have hhead : k.1.head? = some b := by rw [hword]; rfl
  rw [hhead] at hothers
  have hlongest : (Pattern.literal [b]).longest ([b] ++ text) = some (0 + 1) :=
    longest_literal (List.prefix_append _ _)
  have hsymbols : ∀ n, ∀ k' ∈ l₁ ++ l₂, AtMost (literalRule k').1 (b :: text) n := by
    intro n k' hk'
    have ⟨hmem, hne⟩ := hothers k' hk'
    exact atMost_literal (symbol_not_start hmem hne)
  have hrules : rules = (keywords.map literalRule ++ l₁.map literalRule) ++
      (Pattern.literal k.1, Rule.returns k.2) :: (l₂.map literalRule ++ classRules) := by
    rw [rules, hsplit, List.map_append, List.map_cons, List.append_assoc, List.append_assoc]
    rfl
  rw [hrules, hlen, hword]
  refine munch_eq_some hlongest
    (List.forall_mem_append.mpr ⟨keywords_atMost 0 hletter, List.forall_mem_map.mpr ?_⟩)
    (List.forall_mem_append.mpr ⟨List.forall_mem_map.mpr ?_, fun rule hrule => ?_⟩)
  · exact fun k' hk' => hsymbols 0 k' (List.mem_append_left _ hk')
  · exact fun k' hk' => hsymbols 1 k' (List.mem_append_right _ hk')
  · simp only [classRules, List.mem_cons, List.not_mem_nil, or_false] at hrule
    rcases hrule with h | h | h | h <;> rw [h]
    · exact atMost_run hletter
    · exact atMost_run (isDigit_of_not_isWord hb.1)
    · exact atMost_run hb.2
    · exact atMost_one _ _ _

/-! ## The items of a layout -/

/-- The whole lexeme is matched. -/
theorem items_of_munch {lexeme text : Bytes} {rule : Rule} (hne : lexeme ≠ [])
    (h : munch rules (lexeme ++ text) = some (rule, lexeme.length)) :
    items 0 (lexeme ++ text) = itemsOf (rule.action lexeme) ++ items 0 text := by
  cases hlen : lexeme.length with
  | zero => exact absurd (List.length_eq_zero_iff.mp hlen) hne
  | succ n =>
      rw [hlen] at h
      rw [items_munch h, List.take_left' hlen, List.drop_left' hlen]

theorem items_dropWhile (text : Bytes) : items 0 (text.dropWhile isWhite) = items 0 text := by
  cases text with
  | nil => rfl
  | cons b text =>
      by_cases hb : isWhite b = true
      · have hsplit : b :: text = (b :: text.takeWhile isWhite) ++ text.dropWhile isWhite := by
          rw [List.cons_append, List.takeWhile_append_dropWhile]
        have hmunch := munch_white hb text
        rw [hsplit] at hmunch
        rw [List.dropWhile_cons_of_pos hb, hsplit,
          items_of_munch (List.cons_ne_nil _ _) hmunch]
        rfl
      · rw [List.dropWhile_cons_of_neg hb]

/-- White space has no items. -/
theorem items_gap {gap : Bytes} (hgap : ∀ b ∈ gap, isWhite b = true) (text : Bytes) :
    items 0 (gap ++ text) = items 0 text := by
  rw [← items_dropWhile (gap ++ text), List.dropWhile_append_of_pos hgap, items_dropWhile]

theorem Lexeme.ne_nil {lexeme : Bytes} {token : Token} (h : Lexeme lexeme token) :
    lexeme ≠ [] := by
  cases h with
  | keyword hk =>
      intro hnil
      have hletter := (keyword_letters _ hk).1
      rw [hnil] at hletter
      cases hletter
  | symbol hk =>
      intro hnil
      have hlen := (symbol_letter _ hk).1
      rw [hnil] at hlen
      cases hlen
  | name name =>
      have ⟨b, tail, hbytes, _⟩ := name.letter
      rw [hbytes]
      exact List.cons_ne_nil _ _
  | number n _ => exact (decimal_spec n).1

/-- In range, `atoi` reads what is written. -/
theorem atoi_decimal {n : Nat} (h : n ≤ 2147483647) : atoi (decimal n) = Int32.ofNat n := by
  have hmin : min n (2 ^ 63 - 1) = n := by omega
  rw [atoi, (decimal_spec n).2.2, hmin]

/-- A run of digits is one number. -/
theorem items_digits {digits text : Bytes} (hne : digits ≠ [])
    (hdigits : ∀ b ∈ digits, isDigit b = true) (hend : WordLike digits → Ends text) :
    items 0 (digits ++ text) = .token (.number (atoi digits)) :: items 0 text := by
  cases digits with
  | nil => exact absurd rfl hne
  | cons b tail =>
      have hb := hdigits b List.mem_cons_self
      have hword : WordLike (b :: tail) := ⟨b, rfl, isWord_of_isDigit hb⟩
      have hmunch := munch_number hb (fun c hc => hdigits c (List.mem_cons_of_mem _ hc))
        (hend hword)
      rw [items_of_munch (List.cons_ne_nil _ _) hmunch]
      rfl

theorem items_lexeme {lexeme text : Bytes} {token : Token} (h : Lexeme lexeme token)
    (hend : WordLike lexeme → Ends text) :
    items 0 (lexeme ++ text) = .token token :: items 0 text := by
  have hne := h.ne_nil
  cases h with
  | @keyword k hk =>
      have hword : WordLike k.1 := by
        have ⟨hletter, _⟩ := keyword_letters k hk
        cases hhead : k.1.head? with
        | none =>
            rw [hhead] at hletter
            cases hletter
        | some b =>
            rw [hhead] at hletter
            exact ⟨b, hhead, isWord_of_isLetter hletter⟩
      exact items_of_munch hne (munch_keyword hk (hend hword))
  | symbol hk => exact items_of_munch hne (munch_symbol hk text)
  | name name =>
      have ⟨b, tail, hbytes, hb, _⟩ := name.letter
      have hword : WordLike name.bytes := ⟨b, by rw [hbytes]; rfl, isWord_of_isLetter hb⟩
      exact items_of_munch hne (munch_name name (hend hword))
  | number n hn =>
      have ⟨_, hdigits, _⟩ := decimal_spec n
      rw [items_digits hne hdigits hend, atoi_decimal hn]

/-- The scanner takes the text as this token, whatever follows it; behind a word or a number it
must not go on with one. -/
structure Scans (lexeme : Bytes) (token : Token) : Prop where
  ne_nil : lexeme ≠ []
  items : ∀ text, (WordLike lexeme → Ends text) →
    items 0 (lexeme ++ text) = .token token :: items 0 text

theorem Lexeme.scans {lexeme : Bytes} {token : Token} (h : Lexeme lexeme token) :
    Scans lexeme token where
  ne_nil := h.ne_nil
  items _ hend := items_lexeme h hend

/-- A layout begins with white space, or with its first lexeme. -/
theorem Layout.head {lexemes : List Bytes} {text : Bytes} (h : Layout lexemes text)
    (hne : ∀ lexeme ∈ lexemes, lexeme ≠ []) :
    ∀ b ∈ text.head?, isWhite b = true ∨
      ∃ next, lexemes.head? = some next ∧ next.head? = some b := by
  cases h with
  | nil hgap => exact fun b hb => .inl (hgap b (List.mem_of_mem_head? hb))
  | @cons gap lexeme text lexemes hgap _ _ =>
      intro b hb
      cases gap with
      | nil =>
          refine .inr ⟨lexeme, rfl, ?_⟩
          cases lexeme with
          | nil => exact absurd rfl (hne [] List.mem_cons_self)
          | cons c tail => exact hb
      | cons c gap =>
          have hc : c = b := Option.some.inj hb
          exact .inl (hc ▸ hgap c List.mem_cons_self)

theorem ne_nil_of_scans {lexemes : List Bytes} {tokens : List Token}
    (h : List.Forall₂ Scans lexemes tokens) : ∀ lexeme ∈ lexemes, lexeme ≠ [] := by
  induction h with
  | nil => exact List.forall_mem_nil _
  | cons hscans _ ih => exact List.forall_mem_cons.mpr ⟨hscans.ne_nil, ih⟩

/-- **A layout is scanned into the tokens of its lexemes.** -/
theorem items_of_scans {lexemes : List Bytes} {tokens : List Token} {text : Bytes}
    (h : Layout lexemes text) (hscans : List.Forall₂ Scans lexemes tokens) :
    items 0 text = tokens.map .token := by
  induction h generalizing tokens with
  | @nil gap hgap =>
      cases hscans
      have hitems := items_gap hgap []
      rwa [List.append_nil] at hitems
  | @cons gap lexeme text lexemes hgap hlayout hsep ih =>
      cases hscans with
      | @cons _ token _ rest hlexeme hrest =>
          have hend : WordLike lexeme → Ends text := by
            intro hword b hb
            by_contra hnot
            rw [Bool.not_eq_false] at hnot
            have hwhite := isWhite_of_isWord hnot
            rcases hlayout.head (ne_nil_of_scans hrest) b hb with h | ⟨next, hnext, hhead⟩
            · rw [hwhite] at h
              cases h
            · have ⟨c, hc, hcwhite⟩ := hsep hword next hnext ⟨b, hhead, hnot⟩
              rw [Option.some.inj (hc.symm.trans hb), hwhite] at hcwhite
              cases hcwhite
          rw [items_gap hgap, hlexeme.items text hend, ih hrest]
          rfl

end SystemsInC.Ports.SqlLayout
