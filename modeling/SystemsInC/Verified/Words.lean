import Mathlib.Data.List.TakeDrop
import Mathlib.Data.List.TakeWhile

/-!
# The words of a text

A word is a run of entries that are no separators and that cannot be made longer.
`words` lists them in their order; `words_append` peels the first one off, and
`words_append_cons` says how long it is.
-/

namespace SystemsInC.Verified.Words

variable {α : Type*}

/-- The maximal runs of entries that are no separators. -/
def words (sep : α → Bool) : List α → List (List α)
  | [] => []
  | x :: l =>
      if sep x then
        words sep l
      else if l.head?.all sep then
        [x] :: words sep l
      else
        match words sep l with
        | [] => [[x]]
        | w :: ws => (x :: w) :: ws

variable {sep : α → Bool} {l tok rest : List α}

@[simp] theorem words_nil : words sep [] = [] := rfl

theorem words_cons_of_sep {x : α} (h : sep x = true) : words sep (x :: l) = words sep l := by
  rw [words, if_pos h]

theorem words_dropWhile (sep : α → Bool) (l : List α) :
    words sep (l.dropWhile sep) = words sep l := by
  induction l with
  | nil => rfl
  | cons x l ih =>
      cases hx : sep x with
      | true => rw [List.dropWhile_cons_of_pos hx, words_cons_of_sep hx, ih]
      | false => rw [List.dropWhile_cons_of_neg (by rw [hx]; exact Bool.false_ne_true)]

/-- A run of entries that are no separators, in front of a separator or the end. -/
theorem words_append (hne : tok ≠ []) (htok : ∀ x ∈ tok, sep x = false)
    (hstop : rest.head?.all sep = true) : words sep (tok ++ rest) = tok :: words sep rest := by
  induction tok with
  | nil => contradiction
  | cons x tok ih =>
      have hx : ¬ sep x = true := by
        rw [htok x List.mem_cons_self]
        exact Bool.false_ne_true
      have hrest : ∀ y ∈ tok, sep y = false := fun y hy => htok y (List.mem_cons_of_mem x hy)
      rw [List.cons_append, words, if_neg hx]
      cases tok with
      | nil =>
          rw [List.nil_append, if_pos hstop]
      | cons y tok =>
          have hy : sep y = false := hrest y List.mem_cons_self
          rw [ih (List.cons_ne_nil y tok) hrest, if_neg (by simp [hy])]

theorem head?_dropWhile_all (sep : α → Bool) (l : List α) :
    (l.dropWhile (fun x => !sep x)).head?.all sep = true := by
  have hhead := List.head?_dropWhile_not (fun x => !sep x) l
  cases hd : (l.dropWhile (fun x => !sep x)).head? with
  | none => rfl
  | some x =>
      rw [hd] at hhead
      simpa using hhead

/-- The word that `tok` is the start of, and the words behind it. -/
theorem words_append_cons (htok : ∀ y ∈ tok, sep y = false) {x : α} (hx : sep x = false) :
    words sep (tok ++ x :: l) = (tok ++ x :: l.takeWhile (fun y => !sep y)) ::
      words sep (l.dropWhile (fun y => !sep y)) := by
  have hfirst : ∀ y ∈ tok ++ x :: l.takeWhile (fun y => !sep y), sep y = false := by
    intro y hy
    rw [List.mem_append, List.mem_cons] at hy
    rcases hy with hy | rfl | hy
    · exact htok y hy
    · exact hx
    · simpa using List.mem_takeWhile_imp hy
  have hword := words_append (by simp) hfirst (head?_dropWhile_all sep l)
  rwa [List.append_assoc, List.cons_append, List.takeWhile_append_dropWhile] at hword

theorem words_cons_of_not_sep {x : α} (hx : sep x = false) :
    words sep (x :: l) = (x :: l.takeWhile (fun y => !sep y)) ::
      words sep (l.dropWhile (fun y => !sep y)) :=
  words_append_cons (List.forall_mem_nil (fun y => sep y = false)) hx

/-- A blank text has no words. -/
theorem words_eq_nil_iff : words sep l = [] ↔ l.dropWhile sep = [] := by
  rw [← words_dropWhile]
  cases hrest : l.dropWhile sep with
  | nil => simp
  | cons x rest =>
      have hx : sep x = false := by
        have hhead := List.head?_dropWhile_not sep l
        rw [hrest] at hhead
        simpa using hhead
      rw [words_cons_of_not_sep hx]
      simp

/-- A text of separators has no words. -/
theorem words_eq_nil_of_all (h : ∀ x ∈ l, sep x = true) : words sep l = [] := by
  induction l with
  | nil => rfl
  | cons x l ih =>
      rw [words_cons_of_sep (h x List.mem_cons_self)]
      exact ih (fun y hy => h y (List.mem_cons_of_mem x hy))

theorem words_eq_nil_iff_forall : words sep l = [] ↔ ∀ x ∈ l, sep x = true := by
  rw [words_eq_nil_iff, List.dropWhile_eq_nil_iff]

/-- Separators in front of a text change nothing. -/
theorem words_blank_append (h : ∀ x ∈ l, sep x = true) (rest : List α) :
    words sep (l ++ rest) = words sep rest := by
  induction l with
  | nil => rfl
  | cons x l ih =>
      rw [List.cons_append, words_cons_of_sep (h x List.mem_cons_self)]
      exact ih (fun y hy => h y (List.mem_cons_of_mem x hy))

/-- Nor do separators behind it. -/
theorem words_append_blank (l : List α) (h : ∀ x ∈ rest, sep x = true) :
    words sep (l ++ rest) = words sep l := by
  have hblank := words_eq_nil_of_all h
  induction l with
  | nil => exact hblank
  | cons x l ih =>
      cases hx : sep x with
      | true => rw [List.cons_append, words_cons_of_sep hx, words_cons_of_sep hx, ih]
      | false =>
          have hx' : ¬ sep x = true := by
            rw [hx]
            exact Bool.false_ne_true
          have hhead : (l ++ rest).head?.all sep = l.head?.all sep := by
            cases l with
            | cons y l => rfl
            | nil =>
                cases rest with
                | nil => rfl
                | cons y rest => exact h y List.mem_cons_self
          rw [List.cons_append, words, words, if_neg hx', if_neg hx', hhead, ih]

/-- The words make up the entries that are no separators. -/
theorem flatten_words (sep : α → Bool) (l : List α) :
    (words sep l).flatten = l.filter (fun x => !sep x) := by
  induction l with
  | nil => rfl
  | cons x l ih =>
      cases hx : sep x with
      | true =>
          rw [words_cons_of_sep hx, List.filter_cons_of_neg (by simp [hx]), ih]
      | false =>
          have hx' : ¬ sep x = true := by
            rw [hx]
            exact Bool.false_ne_true
          rw [words, if_neg hx', List.filter_cons_of_pos (by simp [hx]), ← ih]
          split
          · rfl
          · cases words sep l <;> rfl

end SystemsInC.Verified.Words
