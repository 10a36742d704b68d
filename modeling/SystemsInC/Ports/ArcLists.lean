import SystemsInC.Ports.ArcDirectory

/-!
# Where the ARC simulator keeps a page

`lists_disjoint` follows one request: the page goes to `T1` or to the front of
`T2`, no page stands in two places, the target stays within the frames, and hits
are counted for resident pages only.  Markers and an exceeded capacity do not
matter for any of this.
-/

namespace SystemsInC.Ports.ArcLists

open SystemsInC.Ports.LruPaging (countUp countUp_of_lt)
open SystemsInC.Ports.ArcCache
open SystemsInC.Ports.ArcCapacity
open SystemsInC.Ports.ArcDirectory

/-! ## The target -/

/-- The target is a number of frames. -/
def TargetInRange (frames : Nat) (st : Arc) : Prop := 0 ≤ st.p ∧ st.p ≤ frames

theorem raisedTarget_inRange {frames : Nat} {st : Arc} (h : TargetInRange frames st) :
    0 ≤ raisedTarget frames st ∧ raisedTarget frames st ≤ frames := by
  unfold TargetInRange at h
  unfold raisedTarget
  by_cases hghosts : 0 < length st.b2
  · rw [if_pos hghosts]
    split <;> omega
  · rw [if_neg hghosts]
    split <;> omega

theorem loweredTarget_inRange {frames : Nat} {st : Arc} (h : TargetInRange frames st) :
    0 ≤ loweredTarget st ∧ loweredTarget st ≤ frames := by
  unfold TargetInRange at h
  unfold loweredTarget
  by_cases hghosts : 0 < length st.b1
  · rw [if_pos hghosts]
    split <;> omega
  · rw [if_neg hghosts]
    split <;> omega

/-- `replaceARC` moves an entry and nothing else. -/
theorem replaceARC_counters (st : Arc) :
    (replaceARC st).p = st.p ∧ (replaceARC st).hits = st.hits ∧
      (replaceARC st).misses = st.misses := by
  unfold replaceARC
  split <;> exact ⟨rfl, rfl, rfl⟩

theorem targetInRange_request {frames : Nat} {st : Arc} (h : TargetInRange frames st)
    (page : Int) : TargetInRange frames (request frames st page) := by
  have hcases := request_cases frames st page
  generalize request frames st page = st' at hcases
  cases hcases with
  | hitT1 h1 hcall => exact h
  | hitT2 h1 h2 hcall => exact h
  | ghostB1 mid h1 h2 hb1 hmid hcall =>
      have hp : (replaceARC mid).p = raisedTarget frames st := by
        rw [(replaceARC_counters mid).1, hmid]
      have hrange := raisedTarget_inRange h
      rw [← hp] at hrange
      exact hrange
  | ghostB2 mid h1 h2 hb1 hb2 hmid hcall =>
      have hp : (replaceARC mid).p = loweredTarget st := by
        rw [(replaceARC_counters mid).1, hmid]
      have hrange := loweredTarget_inRange h
      rw [← hp] at hrange
      exact hrange
  | evict mid h1 h2 hb1 hb2 hfull hmid hcall =>
      have hp : (replaceARC mid).p = st.p := by
        rw [(replaceARC_counters mid).1, hmid]
      unfold TargetInRange at h ⊢
      rw [← hp] at h
      exact h
  | fill h1 h2 hb1 hb2 hroom hcall => exact h

theorem targetInRange_simulateARC (frames : Nat) (pages : List Int) :
    TargetInRange frames (simulateARC frames pages) := by
  induction pages using List.reverseRecOn with
  | nil => exact ⟨Int.le_refl 0, Int.natCast_nonneg frames⟩
  | append_singleton past page ih =>
      rw [simulateARC_concat]
      exact targetInRange_request ih page

/-! ## The page requested -/

/-- A new page enters `T1`; a page from any of the lists goes to the front of `T2`. -/
theorem place_request (frames : Nat) (st : Arc) (page : Int) :
    (page ∉ directory st → page ∈ (request frames st page).t1) ∧
      (page ∈ directory st → (request frames st page).t2.head? = some page) := by
  have hcases := request_cases frames st page
  generalize request frames st page = st' at hcases
  simp only [directory, List.mem_append, not_or]
  cases hcases with
  | hitT1 h1 hcall => exact ⟨fun hnot => absurd h1 hnot.1.1, fun _ => rfl⟩
  | hitT2 h1 h2 hcall => exact ⟨fun hnot => absurd h2 hnot.1.2, fun _ => rfl⟩
  | ghostB1 mid h1 h2 hb1 hmid hcall => exact ⟨fun hnot => absurd hb1 hnot.2.1, fun _ => rfl⟩
  | ghostB2 mid h1 h2 hb1 hb2 hmid hcall =>
      exact ⟨fun hnot => absurd hb2 hnot.2.2, fun _ => rfl⟩
  | evict mid h1 h2 hb1 hb2 hfull hmid hcall =>
      refine ⟨fun _ => List.mem_cons_self, fun hin => ?_⟩
      simp [h1, h2, hb1, hb2] at hin
  | fill h1 h2 hb1 hb2 hroom hcall =>
      refine ⟨fun _ => List.mem_cons_self, fun hin => ?_⟩
      simp [h1, h2, hb1, hb2] at hin

/-- Each request is counted once, as a hit exactly when its page is resident. -/
theorem counted_request (frames : Nat) (st : Arc) (page : Int) :
    (request frames st page).hits =
        (if page ∈ st.t1 ++ st.t2 then countUp st.hits else st.hits) ∧
      (request frames st page).misses =
        (if page ∈ st.t1 ++ st.t2 then st.misses else countUp st.misses) := by
  have hcases := request_cases frames st page
  generalize request frames st page = st' at hcases
  cases hcases with
  | hitT1 h1 hcall => simp [h1]
  | hitT2 h1 h2 hcall => simp [h2]
  | ghostB1 mid h1 h2 hb1 hmid hcall =>
      have hcounters := (replaceARC_counters mid).2
      rw [hmid] at hcounters
      simpa [h1, h2, hmid] using hcounters
  | ghostB2 mid h1 h2 hb1 hb2 hmid hcall =>
      have hcounters := (replaceARC_counters mid).2
      rw [hmid] at hcounters
      simpa [h1, h2, hmid] using hcounters
  | evict mid h1 h2 hb1 hb2 hfull hmid hcall =>
      have hcounters := (replaceARC_counters mid).2
      rw [hmid] at hcounters
      simpa [h1, h2, hmid] using hcounters
  | fill h1 h2 hb1 hb2 hroom hcall => simp [h1, h2]

/-- Both counters have values in a run of fewer than `2 ^ 31` requests. -/
theorem counted_simulateARC (frames : Nat) {pages : List Int} (hlen : pages.length < 2147483648) :
    ∃ hits misses : Nat, (simulateARC frames pages).hits = some (hits : Int) ∧
      (simulateARC frames pages).misses = some (misses : Int) ∧ hits + misses = pages.length := by
  induction pages using List.reverseRecOn with
  | nil => exact ⟨0, 0, rfl, rfl, rfl⟩
  | append_singleton past page ih =>
      rw [List.length_append, List.length_singleton] at hlen ⊢
      obtain ⟨hits, misses, hhits, hmisses, hsum⟩ := ih (by omega)
      have hcounted := counted_request frames (simulateARC frames past) page
      rw [simulateARC_concat, hcounted.1, hcounted.2, hhits, hmisses]
      by_cases hmem : page ∈ (simulateARC frames past).t1 ++ (simulateARC frames past).t2
      · refine ⟨hits + 1, misses, ?_, if_pos hmem, by omega⟩
        rw [if_pos hmem, countUp_of_lt (by omega)]
      · refine ⟨hits, misses + 1, if_neg hmem, ?_, by omega⟩
        rw [if_neg hmem, countUp_of_lt (by omega)]

/-- **ARC keeps its lists disjoint and its target in range**: what holds after the
request of `page` that follows the requests of `past`. -/
theorem lists_disjoint (frames : Nat) (past : List Int) (page : Int)
    (hpages : ∀ x ∈ past ++ [page], 0 ≤ x) :
    let st := simulateARC frames past
    let st' := simulateARC frames (past ++ [page])
    (∀ x ∈ past ++ [page], (directory st').count x = 1) ∧
    (page ∉ directory st → page ∈ st'.t1) ∧
    (page ∈ directory st → st'.t2.head? = some page) ∧
    (0 ≤ st'.p ∧ st'.p ≤ frames) ∧
    st'.hits = (if page ∈ st.t1 ++ st.t2 then countUp st.hits else st.hits) ∧
    st'.misses = (if page ∈ st.t1 ++ st.t2 then st.misses else countUp st.misses) ∧
    ((past ++ [page]).length < 2147483648 → ∃ hits misses : Nat, st'.hits = some (hits : Int) ∧
      st'.misses = some (misses : Int) ∧ hits + misses = (past ++ [page]).length) := by
  intro st st'
  have hst' : st' = request frames st page := simulateARC_concat frames past page
  have hplace := place_request frames st page
  rw [← hst'] at hplace
  have hcounted := counted_request frames st page
  rw [← hst'] at hcounted
  refine ⟨fun x hx => ?_, hplace.1, hplace.2, targetInRange_simulateARC frames _, hcounted.1,
    hcounted.2, counted_simulateARC frames⟩
  have hnonneg := hpages x hx
  have honce := (directory_simulateARC frames _ hpages).once x (by omega)
  rw [if_pos hx] at honce
  exact honce

/-- With two frames page 4 comes back from `B1` to the front of `T2`. -/
theorem lists_disjoint_ghost :
    let st := simulateARC 2 [4, 7, 9]
    let st' := simulateARC 2 ([4, 7, 9] ++ [4])
    (∀ x ∈ [4, 7, 9] ++ [4], (directory st').count x = 1) ∧
    (4 ∉ directory st → 4 ∈ st'.t1) ∧
    (4 ∈ directory st → st'.t2.head? = some 4) ∧
    (0 ≤ st'.p ∧ st'.p ≤ (2 : Nat)) ∧
    st'.hits = (if 4 ∈ st.t1 ++ st.t2 then countUp st.hits else st.hits) ∧
    st'.misses = (if 4 ∈ st.t1 ++ st.t2 then st.misses else countUp st.misses) ∧
    (([4, 7, 9] ++ [4] : List Int).length < 2147483648 → ∃ hits misses : Nat,
      st'.hits = some (hits : Int) ∧ st'.misses = some (misses : Int) ∧
        hits + misses = ([4, 7, 9] ++ [4] : List Int).length) :=
  lists_disjoint 2 [4, 7, 9] 4 (by decide)

end SystemsInC.Ports.ArcLists
