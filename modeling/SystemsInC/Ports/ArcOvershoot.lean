import SystemsInC.Ports.ArcLists

/-!
# How far the ARC simulator exceeds its frames

A starved call of `replaceARC` finds all pages in `T1` and no more of them than the target, so
there are exactly as many as frames.  After it there is one page more, and that excludes a
second starved call for the rest of the run: the cache is never more than one page too large,
and `-1` comes into `B2` at most once.
-/

namespace SystemsInC.Ports.ArcOvershoot

open SystemsInC.Ports.ArcCache
open SystemsInC.Ports.ArcCapacity
open SystemsInC.Ports.ArcDirectory
open SystemsInC.Ports.ArcLists

variable {frames : Nat} {st mid : Arc} {page : Int}

/-! ## A starved call -/

/-- The target with which a request calls `replaceARC`. -/
theorem targetInRange_of_beforeReplace (h : TargetInRange frames st)
    (hcall : beforeReplace frames st page = some mid) : TargetInRange frames mid := by
  unfold beforeReplace at hcall
  split at hcall
  · cases hcall
  · split at hcall
    · cases hcall
      exact raisedTarget_inRange h
    · split at hcall
      · cases hcall
        exact loweredTarget_inRange h
      · split at hcall
        · cases hcall
          exact h
        · cases hcall

/-- Before the call the resident pages and the directory are those before the request. -/
theorem lists_of_beforeReplace (hcall : beforeReplace frames st page = some mid) :
    resident mid = resident st ∧ directory mid = directory st := by
  unfold beforeReplace at hcall
  split at hcall
  · cases hcall
  · split at hcall
    · cases hcall
      exact ⟨rfl, rfl⟩
    · split at hcall
      · cases hcall
        exact ⟨rfl, rfl⟩
      · split at hcall
        · cases hcall
          exact ⟨rfl, rfl⟩
        · cases hcall

/-- A starved cache has its pages in `T1`, and no more than the target. -/
theorem resident_le_of_starved (htarget : TargetInRange frames mid) (hstarved : Starved mid) :
    resident mid ≤ frames := by
  have hlen : ((resident mid : Nat) : Int) = length mid.t1 := by
    rw [resident, hstarved.empty, List.length_nil, Nat.add_zero]
    rfl
  obtain ⟨hlow, hhigh⟩ := htarget
  have hnot := hstarved.selected
  by_cases hsome : 1 ≤ length mid.t1
  · have hp : ¬ mid.p < length mid.t1 := by
      intro hlt
      simp [replacesT1, hsome, hlt] at hnot
    omega
  · omega

/-- The frames are exactly full when a call is starved. -/
theorem resident_eq_of_starved (hghosts : GhostsFull frames st) (htarget : TargetInRange frames st)
    (hcall : beforeReplace frames st page = some mid) (hstarved : Starved mid) :
    resident st = frames := by
  have hfull := full_of_beforeReplace hghosts hcall
  have hle := resident_le_of_starved (targetInRange_of_beforeReplace htarget hcall) hstarved
  have hsame := (lists_of_beforeReplace hcall).1
  omega

/-! ## One request -/

/-- After the call a request has a page more, which is one too many if the call was starved. -/
theorem resident_replaced (hghosts : GhostsFull frames st) (htarget : TargetInRange frames st)
    (hcall : beforeReplace frames st page = some mid) :
    resident (replaceARC mid) + 1 = resident st ∨
      resident (replaceARC mid) + 1 = resident st + 1 ∧ resident st = frames := by
  have hsame := (lists_of_beforeReplace hcall).1
  by_cases hstarved : Starved mid
  · have hfull := resident_eq_of_starved hghosts htarget hcall hstarved
    have hkept := resident_replaceARC_of_starved hstarved
    omega
  · have hone := resident_of_movesOne (replaceARC_movesOne hstarved)
    omega

/-- **One request.**  No page goes without another one coming, and a page comes in addition only
while the cache is not too large. -/
theorem resident_request (hghosts : GhostsFull frames st) (htarget : TargetInRange frames st)
    (page : Int) :
    resident (request frames st page) = resident st ∨
      resident (request frames st page) = resident st + 1 ∧ resident st ≤ frames := by
  have hcases := request_cases frames st page
  generalize request frames st page = st' at hcases
  cases hcases with
  | hitT1 h1 hcall => exact .inl (resident_erase_t1 h1)
  | hitT2 h1 h2 hcall => exact .inl (resident_erase_t2 h2)
  | ghostB1 mid h1 h2 hb1 hmid hcall =>
      have hreplaced := resident_replaced hghosts htarget hcall
      simp only [resident, List.length_cons] at hreplaced ⊢
      omega
  | ghostB2 mid h1 h2 hb1 hb2 hmid hcall =>
      have hreplaced := resident_replaced hghosts htarget hcall
      simp only [resident, List.length_cons] at hreplaced ⊢
      omega
  | evict mid h1 h2 hb1 hb2 hfull hmid hcall =>
      have hreplaced := resident_replaced hghosts htarget hcall
      simp only [resident, List.length_cons] at hreplaced ⊢
      omega
  | fill h1 h2 hb1 hb2 hroom hcall =>
      refine .inr ⟨?_, Nat.le_of_lt hroom⟩
      simp only [resident, List.length_cons]
      omega

/-! ## Whole runs -/

theorem resident_simulateARC_le (frames : Nat) (pages : List Int) :
    resident (simulateARC frames pages) ≤ frames + 1 := by
  induction pages using List.reverseRecOn with
  | nil => exact Nat.zero_le _
  | append_singleton past page ih =>
      have hstep := resident_request (ghostsFull_simulateARC frames past)
        (targetInRange_simulateARC frames past) page
      rw [simulateARC_concat]
      omega

/-- Before the frames are full there is no ghost list for a placeholder. -/
theorem placeholders_eq_zero {pages : List Int} (hst : Directory frames pages st)
    (hghosts : GhostsFull frames st) (hroom : resident st < frames) : placeholders st = 0 := by
  have hempty : st.b1 = [] ∧ st.b2 = [] := by
    by_contra hne
    have hfull := hghosts (by tauto)
    omega
  have hout := List.count_eq_zero_of_not_mem hst.residents
  simpa [placeholders, directory, hempty.1, hempty.2] using hout

theorem placeholders_le_one {pages : List Int}
    (hst : Directory frames pages (simulateARC frames pages)) :
    placeholders (simulateARC frames pages) ≤ 1 := by
  have hle := resident_simulateARC_le frames pages
  have hfilled := hst.filled
  by_cases hfull : frames ≤ resident (simulateARC frames pages)
  · have hgrown := hst.grown hfull
    omega
  · have hzero := placeholders_eq_zero hst (ghostsFull_simulateARC frames pages) (by omega)
    omega

/-- **One page too many, and once.**  After any requests the cache holds the pages that fit, and
the directory all pages requested, each with one entry more if a call of `replaceARC` was
starved; and then no later call is. -/
theorem overshoot_le_one (frames : Nat) (pages : List Int) (hpages : ∀ page ∈ pages, 0 ≤ page) :
    let st := simulateARC frames pages
    placeholders st ≤ 1 ∧
    resident st = min frames (distinct pages) + placeholders st ∧
    length st.t1 + length st.t2 + length st.b1 + length st.b2 =
      distinct pages + placeholders st ∧
    ∀ page, resident st ≤ resident (request frames st page) ∧
      ∀ mid, beforeReplace frames st page = some mid → Starved mid → placeholders st = 0 := by
  intro st
  have hst := directory_simulateARC frames pages hpages
  have hghosts := ghostsFull_simulateARC frames pages
  have htarget := targetInRange_simulateARC frames pages
  refine ⟨placeholders_le_one hst, hst.filled, ?_, fun page => ⟨?_, fun mid hcall hstarved => ?_⟩⟩
  · rw [← length_directory, hst.length_eq hpages]
    rfl
  · have hstep := resident_request hghosts htarget page
    show resident (simulateARC frames pages) ≤
      resident (request frames (simulateARC frames pages) page)
    omega
  · have hfull := resident_eq_of_starved hghosts htarget hcall hstarved
    have hfilled := hst.filled
    have hgrown := hst.grown (Nat.le_of_eq hfull.symm)
    show placeholders (simulateARC frames pages) = 0
    omega

/-- With three frames the ninth of these requests is starved, and a tenth one is not. -/
theorem overshoot_le_one_ten :
    let st := simulateARC 3 [1, 2, 3, 4, 1, 2, 5, 6, 3, 7]
    resident st = 4 ∧ placeholders st ≤ 1 := by
  have h := overshoot_le_one 3 [1, 2, 3, 4, 1, 2, 5, 6, 3, 7] (by decide)
  exact ⟨by decide, h.1⟩

end SystemsInC.Ports.ArcOvershoot
