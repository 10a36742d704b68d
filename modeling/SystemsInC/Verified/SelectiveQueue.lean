import Mathlib.Data.List.Basic

/-!
# A queue with selective receive

Items join a queue at its end.  A receiver takes the first item of its kind, from
wherever that stands, and leaves all others in their order.  Seen through the
items of one kind the queue is an ordinary one: a receive takes the front of
these (`take_filter`), and does not touch the items of another kind
(`take_filter_other`).
-/

namespace SystemsInC.Verified.SelectiveQueue

variable {α : Type*} {p r : α → Bool} {a : α} {q q' : List α}

/-- The first item that satisfies `p`, and the queue without it. -/
def take (p : α → Bool) : List α → Option (α × List α)
  | [] => none
  | a :: q => if p a then some (a, q) else (take p q).map (fun found => (found.1, a :: found.2))

/-- A receiver waits as long as there is nothing of its kind. -/
theorem take_eq_none : take p q = none ↔ ∀ a ∈ q, p a = false := by
  induction q with
  | nil => simp [take]
  | cons a q ih =>
      rw [take, List.forall_mem_cons]
      cases ha : p a with
      | true => simp
      | false => simp [ih]

/-- What is taken stands in the queue, behind items of other kinds only. -/
theorem take_split (h : take p q = some (a, q')) :
    p a = true ∧ ∃ q₁ q₂, q = q₁ ++ a :: q₂ ∧ q' = q₁ ++ q₂ ∧ ∀ b ∈ q₁, p b = false := by
  induction q generalizing q' with
  | nil => cases h
  | cons b q ih =>
      rw [take] at h
      cases hb : p b with
      | true =>
          rw [hb, if_pos rfl] at h
          cases h
          exact ⟨hb, [], q, rfl, rfl, by simp⟩
      | false =>
          rw [hb, if_neg Bool.false_ne_true] at h
          have ⟨found, hfound, heq⟩ := Option.map_eq_some_iff.mp h
          cases heq
          have ⟨ha, q₁, q₂, hq, hq', hall⟩ := ih hfound
          refine ⟨ha, b :: q₁, q₂, by rw [hq]; rfl, by rw [hq']; rfl, ?_⟩
          exact List.forall_mem_cons.mpr ⟨hb, hall⟩

theorem take_length (h : take p q = some (a, q')) : q.length = q'.length + 1 := by
  have ⟨_, q₁, q₂, hq, hq', _⟩ := take_split h
  rw [hq, hq', List.length_append, List.length_append, List.length_cons]
  omega

theorem mem_of_take (h : take p q = some (a, q')) : a ∈ q := by
  have ⟨_, q₁, q₂, hq, _, _⟩ := take_split h
  rw [hq]
  exact List.mem_append_right _ List.mem_cons_self

theorem mem_of_mem_rest {b : α} (h : take p q = some (a, q')) (hb : b ∈ q') : b ∈ q := by
  have ⟨_, q₁, q₂, hq, hq', _⟩ := take_split h
  rw [hq'] at hb
  rw [hq]
  rcases List.mem_append.mp hb with hb | hb
  · exact List.mem_append_left _ hb
  · exact List.mem_append_right _ (List.mem_cons_of_mem _ hb)

/-- Among the items of its kind the first one is taken. -/
theorem take_filter (h : take p q = some (a, q')) : q.filter p = a :: q'.filter p := by
  have ⟨ha, q₁, q₂, hq, hq', hall⟩ := take_split h
  have hfront : q₁.filter p = [] := by
    rw [List.filter_eq_nil_iff]
    intro b hb
    simp [hall b hb]
  rw [hq, hq', List.filter_append, List.filter_append, hfront, List.filter_cons_of_pos ha]
  rfl

/-- The items of another kind stay as they are. -/
theorem take_filter_other (h : take p q = some (a, q')) (hother : ∀ b, p b = true → r b = false) :
    q'.filter r = q.filter r := by
  have ⟨ha, q₁, q₂, hq, hq', _⟩ := take_split h
  have hout : ¬ r a = true := by simp [hother a ha]
  rw [hq, hq', List.filter_append, List.filter_append, List.filter_cons_of_neg hout]

end SystemsInC.Verified.SelectiveQueue
