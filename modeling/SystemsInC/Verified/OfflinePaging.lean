import Mathlib.Data.Finset.Card
import Mathlib.Data.Finset.Dedup
import Mathlib.Data.List.Infix
import Mathlib.Tactic.Ring
import SystemsInC.Verified.RecencyList

/-!
# Paging against a schedule that knows the future

A schedule serves a string of requests with `h` frames and may change their
contents before each request as it likes; it pays for the pages it loads.  A
policy is conservative when it misses at most `k` times in any stretch of requests
of at most `k` pages.  The string is cut into such stretches, each as long as
possible: a schedule has to load `k + 1 - h` pages for each of them, since it held
the first page of the stretch and at most `h - 1` others.
-/

namespace SystemsInC.Verified.OfflinePaging

open SystemsInC.Verified.RecencyList

variable {κ : Type*} [DecidableEq κ]

/-- `Schedule h cache requests n`: with `h` frames that hold `cache` at first, the
requests can be served by loading `n` pages. -/
inductive Schedule (h : ℕ) : Finset κ → List κ → ℕ → Prop
  | nil (cache : Finset κ) : Schedule h cache [] 0
  | cons {cache next : Finset κ} {page : κ} {rest : List κ} {n : ℕ} (hpage : page ∈ next)
      (hfits : next.card ≤ h) (hrest : Schedule h next rest n) :
      Schedule h cache (page :: rest) ((next \ cache).card + n)

/-- At most `k` misses in any stretch of at most `k` pages of the string. -/
def Conservative (k : ℕ) (misses : List κ → ℕ) (requests : List κ) : Prop :=
  ∀ past stretch, past ++ stretch <+: requests → stretch.toFinset.card ≤ k →
    misses (past ++ stretch) ≤ misses past + k

/-- Up to a request a schedule has loaded every page asked for that it did not hold. -/
theorem Schedule.cut {h : ℕ} {cache : Finset κ} {stretch rest : List κ} {page : κ} {n : ℕ}
    (hs : Schedule h cache (stretch ++ page :: rest) n) :
    ∃ next m, page ∈ next ∧ next.card ≤ h ∧ Schedule h next rest m ∧
      ((stretch ++ [page]).toFinset \ cache).card + m ≤ n := by
  induction stretch generalizing cache n with
  | nil =>
      rw [List.nil_append] at hs
      cases hs with
      | @cons _ next _ _ m hpage hfits hrest =>
          have hsub : ([] ++ [page]).toFinset \ cache ⊆ next \ cache := by
            apply Finset.sdiff_subset_sdiff _ (Finset.Subset.refl cache)
            simpa using hpage
          have hcard := Finset.card_le_card hsub
          exact ⟨next, m, hpage, hfits, hrest, by omega⟩
  | cons first stretch ih =>
      rw [List.cons_append] at hs
      cases hs with
      | @cons _ after _ _ m hfirst _ hrest =>
          obtain ⟨next, m', hpage, hfits, hrest', hcost⟩ := ih hrest
          -- a page not held at first is loaded for the first request or later
          have hsub : (first :: stretch ++ [page]).toFinset \ cache ⊆
              (after \ cache) ∪ ((stretch ++ [page]).toFinset \ after) := by
            intro x hx
            rw [List.cons_append, List.toFinset_cons, Finset.mem_sdiff, Finset.mem_insert] at hx
            rw [Finset.mem_union, Finset.mem_sdiff, Finset.mem_sdiff]
            by_cases hafter : x ∈ after
            · exact .inl ⟨hafter, hx.2⟩
            · have hne : x ≠ first := by
                rintro rfl
                exact hafter hfirst
              exact .inr ⟨hx.1.resolve_left hne, hafter⟩
          have hcard := (Finset.card_le_card hsub).trans (Finset.card_union_le _ _)
          exact ⟨next, m', hpage, hfits, hrest', by omega⟩

/-- The stretch of at most `k` pages, as long as possible, that follows the pages `seen`. -/
theorem exists_stretch {k : ℕ} {seen : Finset κ} (hseen : seen.card ≤ k) (requests : List κ) :
    (seen ∪ requests.toFinset).card ≤ k ∨
      ∃ stretch page rest, requests = stretch ++ page :: rest ∧
        (seen ∪ stretch.toFinset).card = k ∧ page ∉ seen ∪ stretch.toFinset := by
  induction requests generalizing seen with
  | nil =>
      left
      simpa using hseen
  | cons page requests ih =>
      by_cases hmem : page ∈ seen
      · have hunion : ∀ l : List κ, seen ∪ (page :: l).toFinset = seen ∪ l.toFinset := by
          intro l
          rw [List.toFinset_cons, Finset.union_insert, Finset.insert_eq_of_mem
            (Finset.mem_union_left _ hmem)]
        rcases ih hseen with hall | ⟨stretch, next, rest, rfl, hcard, hnew⟩
        · exact .inl (by rw [hunion]; exact hall)
        · exact .inr ⟨page :: stretch, next, rest, rfl, by rw [hunion]; exact hcard,
            by rw [hunion]; exact hnew⟩
      · by_cases hfull : seen.card = k
        · exact .inr ⟨[], page, requests, rfl, by simpa using hfull, by simpa using hmem⟩
        · have hunion : ∀ l : List κ,
              seen ∪ (page :: l).toFinset = insert page seen ∪ l.toFinset := by
            intro l
            rw [List.toFinset_cons, Finset.union_insert, Finset.insert_union]
          have hroom : (insert page seen).card ≤ k := by
            rw [Finset.card_insert_of_notMem hmem]
            omega
          rcases ih hroom with hall | ⟨stretch, next, rest, rfl, hcard, hnew⟩
          · exact .inl (by rw [hunion]; exact hall)
          · exact .inr ⟨page :: stretch, next, rest, rfl, by rw [hunion]; exact hcard,
              by rw [hunion]; exact hnew⟩

section Ratio

variable {k h : ℕ} {misses : List κ → ℕ} {requests : List κ}

/-- A stretch costs a schedule that holds its first page `k + 1 - h` loads. -/
theorem Schedule.cut_stretch {cache : Finset κ} {first page : κ} {stretch rest : List κ} {n : ℕ}
    (hfirst : first ∈ cache) (hfits : cache.card ≤ h)
    (hcard : (insert first stretch.toFinset).card = k)
    (hnew : page ∉ insert first stretch.toFinset)
    (hs : Schedule h cache (stretch ++ page :: rest) n) :
    ∃ next m, page ∈ next ∧ next.card ≤ h ∧ Schedule h next rest m ∧ k + 1 - h + m ≤ n := by
  obtain ⟨next, m, hpage, hnext, hrest, hcost⟩ := hs.cut
  -- the stretch and the next page are `k + 1` pages, of which `h` were held
  have hpages : (insert first (stretch ++ [page]).toFinset).card = k + 1 := by
    rw [List.toFinset_append, List.toFinset_cons, List.toFinset_nil, Finset.union_insert,
      Finset.union_empty, Finset.insert_comm, Finset.card_insert_of_notMem hnew, hcard]
  have hheld : insert first (stretch ++ [page]).toFinset \ cache =
      (stretch ++ [page]).toFinset \ cache := Finset.insert_sdiff_of_mem _ hfirst
  have hloaded := Finset.le_card_sdiff cache (insert first (stretch ++ [page]).toFinset)
  rw [hpages, hheld] at hloaded
  exact ⟨next, m, hpage, hnext, hrest, by omega⟩

/-- The rest of a run, from a request that the schedule has served. -/
theorem Conservative.run (hc : Conservative k misses requests) {cache : Finset κ}
    {first : κ} {past rest : List κ} {n : ℕ} (hrun : past ++ first :: rest = requests)
    (hfirst : first ∈ cache) (hfits : cache.card ≤ h) (hle : h ≤ k)
    (hs : Schedule h cache rest n) :
    misses requests * (k + 1 - h) ≤
      misses past * (k + 1 - h) + k * n + k * (k + 1 - h) := by
  induction hlen : rest.length using Nat.strong_induction_on generalizing cache first past rest n with
  | _ len ih =>
    have hone : ({first} : Finset κ).card ≤ k := by
      have := Finset.card_pos.mpr ⟨first, hfirst⟩
      rw [Finset.card_singleton]
      omega
    rcases exists_stretch hone rest with hall | ⟨stretch, page, later, rfl, hcard, hnew⟩
    · have hstretch : (first :: rest).toFinset.card ≤ k := by
        rwa [List.toFinset_cons, Finset.insert_eq]
      have hmiss := hc past (first :: rest) (hrun ▸ List.prefix_refl _) hstretch
      rw [hrun] at hmiss
      have hscaled := Nat.mul_le_mul_right (k + 1 - h) hmiss
      rw [Nat.add_mul] at hscaled
      omega
    · rw [← Finset.insert_eq] at hcard hnew
      obtain ⟨next, m, hpage, hnext, hlater, hcost⟩ := hs.cut_stretch hfirst hfits hcard hnew
      have hsplit : (past ++ first :: stretch) ++ page :: later = requests := by
        rw [← hrun, List.append_assoc, List.cons_append]
      have hmiss := hc past (first :: stretch) (hsplit ▸ List.prefix_append _ _)
        (by rw [List.toFinset_cons, hcard])
      have hrec := ih later.length (by rw [← hlen, List.length_append, List.length_cons]; omega)
        hsplit hpage hnext hlater rfl
      calc misses requests * (k + 1 - h)
          ≤ misses (past ++ first :: stretch) * (k + 1 - h) + k * m + k * (k + 1 - h) := hrec
        _ ≤ (misses past + k) * (k + 1 - h) + k * m + k * (k + 1 - h) :=
            Nat.add_le_add_right (Nat.add_le_add_right (Nat.mul_le_mul_right _ hmiss) _) _
        _ = misses past * (k + 1 - h) + k * (k + 1 - h + m) + k * (k + 1 - h) := by ring
        _ ≤ misses past * (k + 1 - h) + k * n + k * (k + 1 - h) :=
            Nat.add_le_add_right (Nat.add_le_add_left (Nat.mul_le_mul_left k hcost) _) _

/-- A conservative policy with `k` frames misses at most `k / (k + 1 - h)` times as
often as a schedule with `h` frames loads a page, up to `k` misses more. -/
theorem Conservative.competitive (hc : Conservative k misses requests) (hstart : misses [] = 0)
    (hle : h ≤ k) {cache : Finset κ} {n : ℕ} (hs : Schedule h cache requests n) :
    misses requests * (k + 1 - h) ≤ k * n + k * (k + 1 - h) := by
  cases hs with
  | nil =>
      rw [hstart, Nat.zero_mul]
      exact Nat.zero_le _
  | @cons _ next page rest m hpage hfits hrest =>
      have hbound := hc.run (List.nil_append _) hpage hfits hle hrest
      rw [hstart, Nat.zero_mul, Nat.zero_add] at hbound
      have hmore := Nat.mul_le_mul_left k (Nat.le_add_left m (next \ cache).card)
      omega

end Ratio

/-! ## The least recently used page -/

/-- The requests of a history, the latest first, for a page that was not recent. -/
def faults (k : ℕ) : List κ → ℕ
  | [] => 0
  | page :: past => faults k past + if page ∈ recent k past then 0 else 1

/-- The keys of the latest stretch come first in the order of the latest use. -/
theorem exists_order_append (stretch past : List κ) :
    ∃ older, order (stretch ++ past) = order stretch ++ older := by
  induction stretch with
  | nil => exact ⟨order past, rfl⟩
  | cons page stretch ih =>
      obtain ⟨older, hsplit⟩ := ih
      rw [List.cons_append, order, order, hsplit, List.erase_append]
      split
      · exact ⟨older, rfl⟩
      · rename_i hnew
        exact ⟨older.erase page, by rw [List.erase_of_not_mem hnew, List.cons_append]⟩

/-- A page asked for within the latest `k` pages is recent. -/
theorem mem_recent_of_stretch {k : ℕ} {stretch past : List κ} {page : κ} (hmem : page ∈ stretch)
    (hcard : stretch.toFinset.card ≤ k) : page ∈ recent k (stretch ++ past) := by
  obtain ⟨older, hsplit⟩ := exists_order_append stretch past
  have hlen : (order stretch).length ≤ k := by
    rw [length_order, ← List.card_toFinset]
    exact hcard
  rw [recent, hsplit, List.take_append, List.take_of_length_le hlen]
  exact List.mem_append_left _ ((mem_order stretch page).mpr hmem)

theorem faults_stretch {k : ℕ} {stretch : List κ} (past : List κ)
    (hcard : stretch.toFinset.card ≤ k) :
    faults k (stretch ++ past) ≤ faults k past + stretch.toFinset.card := by
  induction stretch with
  | nil => exact Nat.le_add_right _ _
  | cons page stretch ih =>
      rw [List.toFinset_cons] at hcard ⊢
      have hsub := Finset.card_le_card (Finset.subset_insert page stretch.toFinset)
      have hrest := ih (by omega)
      rw [List.cons_append, faults]
      by_cases hmem : page ∈ stretch
      · rw [if_pos (mem_recent_of_stretch hmem (by omega))]
        omega
      · rw [Finset.card_insert_of_notMem (by simpa using hmem)]
        split <;> omega

theorem conservative_faults (k : ℕ) (requests : List κ) :
    Conservative k (fun past => faults k past.reverse) requests := by
  intro past stretch _ hcard
  have hreverse : stretch.reverse.toFinset = stretch.toFinset := List.toFinset_reverse
  have hcard' : stretch.reverse.toFinset.card ≤ k := hreverse ▸ hcard
  have hbound := faults_stretch past.reverse hcard'
  show faults k (past ++ stretch).reverse ≤ faults k past.reverse + k
  rw [List.reverse_append]
  omega

end SystemsInC.Verified.OfflinePaging
