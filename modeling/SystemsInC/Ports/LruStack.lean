import SystemsInC.Ports.LruPaging

/-!
# More frames never hurt LRU

The pages in the frames are the most recent ones, and the `n` most recent are
among the `m` most recent for `n ≤ m`.  So a run with more frames holds more
pages at every point and reports at least as many hits (`more_frames_dominate`).
-/

namespace SystemsInC.Ports.LruStack

open SystemsInC.Verified.RecencyList
open SystemsInC.Ports.LruPaging

/-- A run with fewer frames next to one with more: its pages are among those of the
other, and it has no more hits.  The two counters overflow at the same request. -/
inductive Dominated : Option Lru → Option Lru → Prop
  | running {few many : Lru} (hpages : ∀ page ∈ occupied few, page ∈ occupied many)
      (hhits : few.hits ≤ many.hits) : Dominated (some few) (some many)
  | overflow : Dominated none none

/-! ## Strings that the counter can count -/

theorem recent_subset {frames more : Nat} (hle : frames ≤ more) (past : List Int) {page : Int}
    (h : page ∈ recent frames past) : page ∈ recent more past := by
  rw [← take_recent hle past] at h
  exact List.mem_of_mem_take h

/-- The pages of the smaller run are pages of the larger one. -/
theorem Stamped.occupied_subset {frames more : Nat} {past : List Int} {few many : Lru}
    (hfew : Stamped frames past few) (hmany : Stamped more past many) (hle : frames ≤ more) :
    ∀ page ∈ occupied few, page ∈ occupied many := by
  intro page hpage
  rw [hfew.pages.mem_iff] at hpage
  rw [hmany.pages.mem_iff]
  exact recent_subset hle past hpage

/-- One request: a hit with fewer frames is a hit with more. -/
theorem Served.hits_le {frames more : Nat} {past : List Int} {page : Int}
    {few few' many many' : Lru} (hfew : Served frames past page few few')
    (hmany : Served more past page many many') (hle : frames ≤ more)
    (hhits : few.hits ≤ many.hits) : few'.hits ≤ many'.hits := by
  by_cases hsmall : page ∈ recent frames past
  · have hboth := hmany.hit (recent_subset hle past hsmall)
    have hhit := hfew.hit hsmall
    omega
  · have hmiss := hfew.miss hsmall
    by_cases hlarge : page ∈ recent more past
    · have hhit := hmany.hit hlarge
      omega
    · have hmiss' := hmany.miss hlarge
      omega

theorem dominated_of_countable {frames more : Nat} (hframes : 1 ≤ frames) (hle : frames ≤ more)
    {pages : List Int} (h : Countable pages) :
    ∃ few many, simulateLRU frames pages = some few ∧ simulateLRU more pages = some many ∧
      Stamped frames pages.reverse few ∧ Stamped more pages.reverse many ∧
      few.hits ≤ many.hits := by
  induction pages using List.reverseRecOn with
  | nil => exact ⟨_, _, rfl, rfl, stamped_init frames, stamped_init more, Int.le_refl 0⟩
  | append_singleton past page ih =>
      obtain ⟨few, many, hrun, hrun', hst, hst', hhits⟩ :=
        ih (h.of_prefix (List.prefix_append past [page]))
      obtain ⟨few₁, hnext, hserved⟩ := served_of_stamped hframes h hrun hst
      obtain ⟨many₁, hnext', hserved'⟩ :=
        served_of_stamped (Nat.le_trans hframes hle) h hrun' hst'
      rw [List.reverse_append, List.reverse_singleton, List.singleton_append]
      exact ⟨few₁, many₁, hnext, hnext', hserved.stamped, hserved'.stamped,
        Served.hits_le hserved hserved' hle hhits⟩

/-! ## Longer strings -/

/-- The counter has no value beyond `INT_MAX`. -/
theorem request_overflow {st : Lru} (h : st.counter = 2147483647) (page : Int) :
    request st page = none := by
  have hcounter : increment st.counter = none := by
    rw [h]
    decide
  unfold request
  split
  · simp [hcounter]
  · simp [hcounter]

/-- A run of `2 ^ 31` requests or more has no result. -/
theorem simulateLRU_overflow {frames : Nat} (hframes : 1 ≤ frames) {pages : List Int}
    (hreal : ∀ page ∈ pages, page ≠ -1) (hlong : 2147483648 ≤ pages.length) :
    simulateLRU frames pages = none := by
  obtain ⟨past, page, rest, hsplit, hlen⟩ : ∃ past page rest, pages = past ++ page :: rest ∧
      past.length = 2147483647 := by
    have hlt : 2147483647 < pages.length := by omega
    refine ⟨pages.take 2147483647, pages[2147483647], pages.drop (2147483647 + 1), ?_, ?_⟩
    · rw [List.getElem_cons_drop, List.take_append_drop]
    · rw [List.length_take]
      omega
  have hpast : ∀ x ∈ past, x ≠ -1 := by
    intro x hx
    exact hreal x (by rw [hsplit]; exact List.mem_append_left _ hx)
  obtain ⟨st, hrun, hst⟩ := stamped_simulateLRU hframes
    { real := hpast
      short := by omega : Countable past }
  have hcounter : st.counter = 2147483647 := by
    rw [hst.counted, List.length_reverse, hlen]
    rfl
  rw [simulateLRU] at hrun
  rw [simulateLRU, hsplit, List.foldlM_append, hrun]
  simp [request_overflow hcounter]

/-- **More frames never hurt LRU.**  At every point of a reference string the pages of
the run with fewer frames are pages of the run with more, and its hits are not more;
below `2 ^ 31` requests both runs have results. -/
theorem more_frames_dominate (frames more : Nat) (hframes : 1 ≤ frames) (hle : frames ≤ more)
    (pages : List Int) (hreal : ∀ page ∈ pages, page ≠ -1) :
    (∀ past, past <+: pages → Dominated (simulateLRU frames past) (simulateLRU more past)) ∧
      (pages.length < 2147483648 →
        (simulateLRU frames pages).isSome ∧ (simulateLRU more pages).isSome) := by
  constructor
  · intro past hpast
    have hpages : ∀ page ∈ past, page ≠ -1 := fun page hpage => hreal page (hpast.subset hpage)
    by_cases hshort : past.length < 2147483648
    · obtain ⟨few, many, hrun, hrun', hst, hst', hhits⟩ := dominated_of_countable hframes hle
        { real := hpages
          short := hshort : Countable past }
      rw [hrun, hrun']
      exact .running (Stamped.occupied_subset hst hst' hle) hhits
    · rw [simulateLRU_overflow hframes hpages (by omega),
        simulateLRU_overflow (Nat.le_trans hframes hle) hpages (by omega)]
      exact .overflow
  · intro hshort
    obtain ⟨few, many, hrun, hrun', -⟩ := dominated_of_countable hframes hle
      { real := hreal
        short := hshort : Countable pages }
    rw [hrun, hrun']
    exact ⟨rfl, rfl⟩

/-- A string on which FIFO replacement does worse with four frames than with three. -/
def anomalyString : List Int := [1, 2, 3, 4, 1, 2, 5, 1, 2, 3, 4, 5]

theorem more_frames_dominate_anomalyString :
    (∀ past, past <+: anomalyString → Dominated (simulateLRU 3 past) (simulateLRU 4 past)) ∧
      (anomalyString.length < 2147483648 →
        (simulateLRU 3 anomalyString).isSome ∧ (simulateLRU 4 anomalyString).isSome) :=
  more_frames_dominate 3 4 (by decide) (by decide) anomalyString (by decide)

end SystemsInC.Ports.LruStack
