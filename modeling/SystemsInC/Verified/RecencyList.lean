import Mathlib.Data.List.Dedup
import Mathlib.Data.List.TakeWhile
import Mathlib.Tactic.Tauto

/-!
# The most recently used keys

A history is a list of keys, the latest first.  `order` lists its distinct keys
by their latest use, and `recent n` keeps the first `n` of them: what a cache of
`n` places that always replaces the least recently used key holds.
-/

namespace SystemsInC.Verified.RecencyList

variable {κ : Type*} [DecidableEq κ]

/-- The distinct keys of a history, by their latest use. -/
def order : List κ → List κ
  | [] => []
  | k :: past => k :: (order past).erase k

/-- The `n` most recently used distinct keys. -/
def recent (n : Nat) (past : List κ) : List κ := (order past).take n

theorem nodup_order (past : List κ) : (order past).Nodup := by
  induction past with
  | nil => exact .nil
  | cons k past ih => exact List.nodup_cons.mpr ⟨ih.not_mem_erase, ih.erase k⟩

theorem nodup_recent (n : Nat) (past : List κ) : (recent n past).Nodup :=
  (nodup_order past).sublist (List.take_sublist n _)

theorem length_recent_le (n : Nat) (past : List κ) : (recent n past).length ≤ n :=
  List.length_take_le n _

/-- Erasing a key that is not among the first ones leaves these alone. -/
private theorem take_erase_of_not_mem {n : Nat} {l : List κ} {k : κ} (h : k ∉ l.take n) :
    (l.erase k).take n = l.take n := by
  induction l generalizing n with
  | nil => simp
  | cons j l ih =>
      cases n with
      | zero => simp
      | succ n =>
          rw [List.take_succ_cons, List.mem_cons, not_or] at h
          rw [List.erase_cons_tail (by simpa using Ne.symm h.1), List.take_succ_cons,
            List.take_succ_cons, ih h.2]

private theorem take_erase_of_mem {n : Nat} {l : List κ} {k : κ} (h : k ∈ l.take (n + 1)) :
    (l.erase k).take n = (l.take (n + 1)).erase k := by
  induction l generalizing n with
  | nil => simp at h
  | cons j l ih =>
      by_cases hj : j = k
      · subst hj
        simp
      · rw [List.take_succ_cons, List.mem_cons] at h
        have hk : k ∈ l.take n := h.resolve_left (Ne.symm hj)
        have hbeq : ¬ (j == k) = true := by simpa using hj
        rw [List.erase_cons_tail hbeq, List.take_succ_cons, List.erase_cons_tail hbeq]
        cases n with
        | zero => simp at hk
        | succ n => rw [List.take_succ_cons, ih hk]

/-- A use of a key among the recent ones moves it to the front. -/
theorem recent_cons_of_mem {n : Nat} {past : List κ} {k : κ} (h : k ∈ recent n past) :
    recent n (k :: past) = k :: (recent n past).erase k := by
  cases n with
  | zero => simp [recent] at h
  | succ n =>
      rw [recent, order, List.take_succ_cons]
      exact congrArg (k :: ·) (take_erase_of_mem h)

/-- A use of another key puts it in front and drops the last one if there are `n`. -/
theorem recent_cons_of_not_mem {n : Nat} {past : List κ} {k : κ} (h : k ∉ recent (n + 1) past) :
    recent (n + 1) (k :: past) = k :: recent n past := by
  have hk : k ∉ (order past).take n := by
    intro hmem
    exact h (List.take_subset_take_left _ (Nat.le_succ n) hmem)
  rw [recent, order, List.take_succ_cons, take_erase_of_not_mem hk, recent]

theorem take_recent {n m : Nat} (h : n ≤ m) (past : List κ) :
    (recent m past).take n = recent n past := by
  rw [recent, recent, List.take_take, Nat.min_eq_left h]

/-- The same, with the list of the recent keys cut at the key. -/
theorem recent_cons_of_split {n : Nat} {past l₁ l₂ : List κ} {k : κ}
    (h : recent n past = l₁ ++ k :: l₂) : recent n (k :: past) = k :: (l₁ ++ l₂) := by
  have hnodup := nodup_recent n past
  rw [h, List.nodup_append] at hnodup
  have hapart : k ∉ l₁ := fun hmem => hnodup.2.2 k hmem k List.mem_cons_self rfl
  rw [recent_cons_of_mem (by simp [h]), h, List.erase_append_right _ hapart,
    List.erase_cons_head]

/-! ## Numbered uses -/

/-- The position of the latest use of a key, the uses numbered from `1`. -/
def lastUse : List κ → κ → Nat
  | [], _ => 0
  | j :: past, k => if j = k then past.length + 1 else lastUse past k

theorem lastUse_le_length (past : List κ) (k : κ) : lastUse past k ≤ past.length := by
  induction past with
  | nil => exact Nat.le_refl 0
  | cons j past ih =>
      unfold lastUse
      split
      · exact Nat.le_refl _
      · exact Nat.le_succ_of_le ih

@[simp] theorem lastUse_cons_self (past : List κ) (k : κ) :
    lastUse (k :: past) k = past.length + 1 := if_pos rfl

theorem lastUse_cons_of_ne {j k : κ} (past : List κ) (h : j ≠ k) :
    lastUse (j :: past) k = lastUse past k := if_neg h

/-- A key listed earlier was used later. -/
theorem lastUse_order (past : List κ) :
    (order past).Pairwise (fun j k => lastUse past k < lastUse past j) := by
  induction past with
  | nil => exact .nil
  | cons k past ih =>
      -- the key in front has the last number, and the others keep theirs
      have hapart : ∀ j ∈ (order past).erase k, k ≠ j := by
        rintro j hj rfl
        exact (nodup_order past).not_mem_erase hj
      apply List.Pairwise.cons
      · intro j hj
        rw [lastUse_cons_self, lastUse_cons_of_ne past (hapart j hj)]
        exact Nat.lt_succ_of_le (lastUse_le_length past j)
      · apply (ih.sublist List.erase_sublist).imp_of_mem
        intro i j hi hj hlt
        rw [lastUse_cons_of_ne past (hapart i hi), lastUse_cons_of_ne past (hapart j hj)]
        exact hlt

theorem mem_order (past : List κ) (k : κ) : k ∈ order past ↔ k ∈ past := by
  induction past with
  | nil => rfl
  | cons j past ih =>
      rw [order, List.mem_cons, List.mem_cons, (nodup_order past).mem_erase_iff, ih]
      tauto

theorem length_order (past : List κ) : (order past).length = past.dedup.length := by
  apply List.Perm.length_eq
  rw [List.perm_ext_iff_of_nodup (nodup_order past) past.nodup_dedup]
  intro k
  rw [mem_order, List.mem_dedup]

theorem length_recent (n : Nat) (past : List κ) :
    (recent n past).length = min n past.dedup.length := by
  rw [recent, List.length_take, length_order]

/-- Of `n` recent keys the one whose latest use is the first is dropped first. -/
theorem recent_eq_concat {n : Nat} {past : List κ} {k : κ}
    (hfull : (recent (n + 1) past).length = n + 1) (hk : k ∈ recent (n + 1) past)
    (hleast : ∀ j ∈ recent (n + 1) past, lastUse past k ≤ lastUse past j) :
    recent (n + 1) past = recent n past ++ [k] := by
  have hn : n < (order past).length := by
    rw [recent, List.length_take] at hfull
    omega
  have hsplit : recent (n + 1) past = recent n past ++ [(order past)[n]] :=
    List.take_succ_eq_append_getElem hn
  rw [hsplit] at hk hleast ⊢
  rcases List.mem_append.mp hk with hk | hk
  · have hlt : lastUse past (order past)[n] < lastUse past k := by
      have hpair := (lastUse_order past).sublist (List.take_sublist (n + 1) _)
      rw [List.take_succ_eq_append_getElem hn, List.pairwise_append] at hpair
      exact hpair.2.2 k hk _ (List.mem_singleton_self _)
    have hle := hleast (order past)[n] (by simp)
    omega
  · rw [List.mem_singleton.mp hk]

/-! ## From a key on -/

theorem mem_of_mem_dropWhile_ne {l : List κ} {j k : κ}
    (h : k ∈ l.dropWhile (fun x => decide (x ≠ j))) : j ∈ l := by
  by_contra hj
  have hempty : l.dropWhile (fun x => decide (x ≠ j)) = [] := by
    rw [List.dropWhile_eq_nil_iff]
    intro x hx
    rw [decide_eq_true_iff]
    rintro rfl
    exact hj hx
  rw [hempty] at h
  contradiction

/-- Two ways to tell the members of a list apart cut it at the same place. -/
theorem map_dropWhile_ne {α ι : Type*} [DecidableEq ι] {f : α → ι} {g : α → κ} {l : List α}
    {c : α} (hf : (l.map f).Nodup) (hg : (l.map g).Nodup) (hc : c ∈ l) :
    (l.dropWhile (fun e => decide (f e ≠ f c))).map g =
      (l.map g).dropWhile (fun x => decide (x ≠ g c)) := by
  induction l with
  | nil => rfl
  | cons e l ih =>
      rw [List.map_cons, List.nodup_cons] at hf hg
      rcases List.mem_cons.mp hc with rfl | hc
      · simp
      · have hfe : f e ≠ f c := by
          intro heq
          exact hf.1 (heq ▸ List.mem_map_of_mem hc)
        have hge : g e ≠ g c := by
          intro heq
          exact hg.1 (heq ▸ List.mem_map_of_mem hc)
        have hrest := ih hf.2 hg.2 hc
        rw [List.map_cons, List.dropWhile_cons_of_pos (by simpa using hfe),
          List.dropWhile_cons_of_pos (by simpa using hge)]
        exact hrest

end SystemsInC.Verified.RecencyList
