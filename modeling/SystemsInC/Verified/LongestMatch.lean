import Mathlib.Data.List.TakeWhile

/-!
# The longest match of the earliest rule

A scanner has a list of rules, each with a pattern.  At a position of its input
it takes the rule whose pattern matches most, and of several such rules the one
that stands first (`munch_eq_some`).
-/

namespace SystemsInC.Verified.LongestMatch

variable {α β : Type*} [DecidableEq α]

/-! ## Patterns -/

inductive Pattern (α : Type*)
  /-- a word -/
  | literal (word : List α)
  /-- a letter of one class, and any number of letters of another -/
  | run (first rest : α → Bool)
  /-- one letter of a class -/
  | one (letter : α → Bool)

/-- The length of the longest match at the start of the input. -/
def Pattern.longest : Pattern α → List α → Option Nat
  | .literal word, input => if word <+: input then some word.length else none
  | .run _ _, [] => none
  | .run first rest, a :: input =>
      if first a then some ((input.takeWhile rest).length + 1) else none
  | .one _, [] => none
  | .one letter, a :: _ => if letter a then some 1 else none

theorem longest_literal {word input : List α} (h : word <+: input) :
    (Pattern.literal word).longest input = some word.length :=
  if_pos h

/-- A run ends where a letter of another class follows. -/
theorem longest_run {first rest : α → Bool} {a : α} {w input : List α} (hfirst : first a = true)
    (hw : ∀ b ∈ w, rest b = true) (hend : ∀ b ∈ input.head?, rest b = false) :
    (Pattern.run first rest).longest (a :: (w ++ input)) = some (w.length + 1) := by
  have hwhile : (w ++ input).takeWhile rest = w := by
    rw [List.takeWhile_append_of_pos hw]
    cases input with
    | nil => exact List.append_nil w
    | cons b input =>
        have hb : ¬ rest b = true := by simp [hend b rfl]
        rw [List.takeWhile_cons_of_neg hb, List.append_nil]
  rw [Pattern.longest, if_pos hfirst, hwhile]

/-! ## Rules -/

/-- The rule that is taken at the start of the input, with the length of its
match. -/
def munch : List (Pattern α × β) → List α → Option (β × Nat)
  | [], _ => none
  | (p, b) :: rules, input =>
      match p.longest input, munch rules input with
      | none, later => later
      | some n, none => some (b, n)
      | some n, some (c, m) => if m ≤ n then some (b, n) else some (c, m)

variable {input : List α}

/-- A pattern matches at most `n` letters. -/
def AtMost (p : Pattern α) (input : List α) (n : Nat) : Prop :=
  ∀ m, p.longest input = some m → m ≤ n

theorem atMost_of_longest {p : Pattern α} {n m : Nat} (h : p.longest input = some m) (hm : m ≤ n) :
    AtMost p input n := by
  intro k hk
  rw [h] at hk
  cases hk
  exact hm

theorem atMost_of_none {p : Pattern α} {n : Nat} (h : p.longest input = none) :
    AtMost p input n := by
  intro k hk
  rw [h] at hk
  cases hk

theorem atMost_literal {word : List α} {n : Nat} (h : ¬ word <+: input) :
    AtMost (.literal word) input n :=
  atMost_of_none (if_neg h)

theorem atMost_run {first rest : α → Bool} {a : α} {n : Nat} (h : first a = false) :
    AtMost (.run first rest) (a :: input) n :=
  atMost_of_none (if_neg (by simp [h]))

theorem atMost_one (letter : α → Bool) (input : List α) (n : Nat) :
    AtMost (.one letter) input (n + 1) := by
  cases input with
  | nil => exact atMost_of_none rfl
  | cons a input =>
      intro m hm
      rw [Pattern.longest] at hm
      split at hm
      · cases hm
        omega
      · cases hm

theorem munch_mem {rules : List (Pattern α × β)} {b : β} {n : Nat}
    (h : munch rules input = some (b, n)) : ∃ rule ∈ rules, rule.1.longest input = some n := by
  induction rules with
  | nil => cases h
  | cons rule rules ih =>
      rw [munch] at h
      cases hp : rule.1.longest input with
      | none =>
          simp only [hp] at h
          have ⟨found, hmem, hfound⟩ := ih h
          exact ⟨found, List.mem_cons_of_mem _ hmem, hfound⟩
      | some m =>
          cases hlater : munch rules input with
          | none =>
              simp only [hp, hlater] at h
              cases h
              exact ⟨rule, List.mem_cons_self, hp⟩
          | some later =>
              simp only [hp, hlater] at h
              split at h
              · cases h
                exact ⟨rule, List.mem_cons_self, hp⟩
              · cases h
                have ⟨found, hmem, hfound⟩ := ih hlater
                exact ⟨found, List.mem_cons_of_mem _ hmem, hfound⟩

/-- The rules in front match less, and those behind not more. -/
theorem munch_eq_some {rules₁ rules₂ : List (Pattern α × β)} {p : Pattern α} {b : β} {n : Nat}
    (hp : p.longest input = some (n + 1)) (h₁ : ∀ rule ∈ rules₁, AtMost rule.1 input n)
    (h₂ : ∀ rule ∈ rules₂, AtMost rule.1 input (n + 1)) :
    munch (rules₁ ++ (p, b) :: rules₂) input = some (b, n + 1) := by
  induction rules₁ with
  | nil =>
      rw [List.nil_append, munch, hp]
      cases hlater : munch rules₂ input with
      | none => rfl
      | some later =>
          have ⟨rule, hmem, hrule⟩ := munch_mem hlater
          exact if_pos (h₂ rule hmem _ hrule)
  | cons rule rules₁ ih =>
      have hrest := ih (fun r hr => h₁ r (List.mem_cons_of_mem _ hr))
      rw [List.cons_append, munch, hrest]
      cases hrule : rule.1.longest input with
      | none => rfl
      | some m =>
          have hle := h₁ rule List.mem_cons_self m hrule
          exact if_neg (by omega)

end SystemsInC.Verified.LongestMatch
