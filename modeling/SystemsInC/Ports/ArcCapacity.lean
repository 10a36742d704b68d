import Mathlib.Data.List.Induction
import SystemsInC.Ports.ArcCache

/-!
# How many pages the ARC simulator holds

`replaceARC` makes room for one page, except when its test selects `T2` while
`T2` is empty: then it moves nothing and pushes `-1` on `B2`, and the page that
is added next exceeds the number of frames.  `capacityKept_iff` shows that this
call is the only way to lose the bound.
-/

namespace SystemsInC.Ports.ArcCapacity

open SystemsInC.Ports.ArcCache

/-! ## What `replaceARC` moves -/

/-- One resident page has become a ghost. -/
def MovesOne (st st' : Arc) : Prop :=
  ∃ page, (st.t1 ++ st.t2).Perm (page :: (st'.t1 ++ st'.t2)) ∧
    (st'.b1 ++ st'.b2).Perm (page :: (st.b1 ++ st.b2))

theorem replaceARC_movesOne {st : Arc} (h : ¬ Starved st) : MovesOne st (replaceARC st) := by
  rcases replaceARC_cases st with ⟨t1, old, ht1, heq⟩ | ⟨t2, old, ht2, heq⟩ | ⟨hstarved, -⟩
  · refine ⟨old, ?_, ?_⟩
    · rw [heq, ht1, List.append_assoc]
      exact List.perm_middle
    · rw [heq]
      exact List.Perm.refl _
  · refine ⟨old, ?_, ?_⟩
    · rw [heq, ht2, ← List.append_assoc]
      exact List.perm_append_singleton old _
    · rw [heq]
      exact List.perm_middle
  · exact absurd hstarved h

/-- A starved call keeps every resident page. -/
theorem resident_replaceARC_of_starved {st : Arc} (h : Starved st) :
    resident (replaceARC st) = resident st := by
  simp [replaceARC, h.selected, h.empty, resident]

theorem resident_of_movesOne {st st' : Arc} (h : MovesOne st st') :
    resident st = resident st' + 1 := by
  obtain ⟨page, hresident, -⟩ := h
  have hlen := hresident.length_eq
  simp only [List.length_append, List.length_cons] at hlen
  unfold resident
  omega

theorem not_movesOne_of_starved {st : Arc} (h : Starved st) : ¬ MovesOne st (replaceARC st) := by
  intro hmoves
  have hone := resident_of_movesOne hmoves
  rw [resident_replaceARC_of_starved h] at hone
  omega

/-- `replaceARC` never gives up more than one page. -/
theorem resident_le_replaceARC (st : Arc) : resident st ≤ resident (replaceARC st) + 1 := by
  by_cases h : Starved st
  · rw [resident_replaceARC_of_starved h]
    omega
  · exact Nat.le_of_eq (resident_of_movesOne (replaceARC_movesOne h))

/-! ## Ghosts appear when the frames are full -/

/-- A cache that remembers evicted pages is full. -/
def GhostsFull (frames : Nat) (st : Arc) : Prop :=
  st.b1 ≠ [] ∨ st.b2 ≠ [] → frames ≤ resident st

theorem resident_erase_t1 {st : Arc} {page : Int} (h : page ∈ st.t1) :
    (st.t1.erase page).length + (page :: st.t2).length = resident st := by
  have hlen := List.length_erase_add_one h
  simp only [List.length_cons, resident]
  omega

theorem resident_erase_t2 {st : Arc} {page : Int} (h : page ∈ st.t2) :
    st.t1.length + (page :: st.t2.erase page).length = resident st := by
  have hlen := List.length_erase_add_one h
  simp only [List.length_cons, resident]
  omega

theorem ghostsFull_request {frames : Nat} {st : Arc} (hst : GhostsFull frames st) (page : Int) :
    GhostsFull frames (request frames st page) := by
  have hcases := request_cases frames st page
  generalize request frames st page = st' at hcases
  intro hghosts
  -- after a call of `replaceARC` the new page makes up for the one that left
  have hreplaced : ∀ mid : Arc, frames ≤ resident mid →
      frames ≤ resident (replaceARC mid) + 1 :=
    fun mid hmid => Nat.le_trans hmid (resident_le_replaceARC mid)
  cases hcases with
  | hitT1 h1 hcall =>
      show frames ≤ (st.t1.erase page).length + (page :: st.t2).length
      rw [resident_erase_t1 h1]
      exact hst hghosts
  | hitT2 h1 h2 hcall =>
      show frames ≤ st.t1.length + (page :: st.t2.erase page).length
      rw [resident_erase_t2 h2]
      exact hst hghosts
  | ghostB1 mid h1 h2 hb1 hmid hcall =>
      have hfull : frames ≤ resident st := hst (Or.inl (List.ne_nil_of_mem hb1))
      have hafter := hreplaced mid (by rw [hmid]; exact hfull)
      simp only [resident, List.length_cons] at hafter ⊢
      omega
  | ghostB2 mid h1 h2 hb1 hb2 hmid hcall =>
      have hfull : frames ≤ resident st := hst (Or.inr (List.ne_nil_of_mem hb2))
      have hafter := hreplaced mid (by rw [hmid]; exact hfull)
      simp only [resident, List.length_cons] at hafter ⊢
      omega
  | evict mid h1 h2 hb1 hb2 hfull hmid hcall =>
      have hafter := hreplaced mid (by rw [hmid]; exact hfull)
      simp only [resident, List.length_cons] at hafter ⊢
      omega
  | fill h1 h2 hb1 hb2 hroom hcall =>
      have hfull : frames ≤ resident st := hst hghosts
      omega

theorem ghostsFull_simulateARC (frames : Nat) (past : List Int) :
    GhostsFull frames (simulateARC frames past) := by
  induction past using List.reverseRecOn with
  | nil => simp [GhostsFull, Arc.init]
  | append_singleton past page ih =>
      rw [simulateARC_concat]
      exact ghostsFull_request ih page

/-- `replaceARC` is only called with all frames in use. -/
theorem full_of_beforeReplace {frames : Nat} {st mid : Arc} {page : Int}
    (hst : GhostsFull frames st) (hcall : beforeReplace frames st page = some mid) :
    frames ≤ resident mid := by
  unfold beforeReplace at hcall
  split at hcall
  · simp at hcall
  · split at hcall
    · rename_i hb1
      obtain rfl := Option.some.inj hcall
      exact hst (Or.inl (List.ne_nil_of_mem hb1))
    · split at hcall
      · rename_i hb2
        obtain rfl := Option.some.inj hcall
        exact hst (Or.inr (List.ne_nil_of_mem hb2))
      · split at hcall
        · rename_i hfull
          obtain rfl := Option.some.inj hcall
          exact hfull
        · simp at hcall

/-! ## The bound -/

/-- No more pages than frames, and every remembered page was requested. -/
structure Kept (frames : Nat) (past : List Int) (st : Arc) : Prop where
  bounded : resident st ≤ frames
  residents : ∀ x ∈ st.t1 ++ st.t2, x ∈ past
  ghosts : ∀ x ∈ st.b1 ++ st.b2, x ∈ past

/-- A call of `replaceARC` that is not starved leaves room for the page requested. -/
theorem kept_replaceARC {frames : Nat} {past : List Int} {st : Arc} (hst : Kept frames past st)
    (hstarved : ¬ Starved st) :
    resident (replaceARC st) + 1 ≤ frames ∧ Kept frames past (replaceARC st) := by
  have hmoves := replaceARC_movesOne hstarved
  have hone := resident_of_movesOne hmoves
  have hbound := hst.bounded
  obtain ⟨page, hresident, hghosts⟩ := hmoves
  refine ⟨by omega, { bounded := by omega, residents := fun x hx => ?_, ghosts := fun x hx => ?_ }⟩
  · exact hst.residents x (hresident.mem_iff.mpr (List.mem_cons_of_mem page hx))
  · rcases List.mem_cons.mp (hghosts.mem_iff.mp hx) with rfl | hx
    · exact hst.residents x (hresident.mem_iff.mpr (by simp))
    · exact hst.ghosts x hx

/-- A request may add its own page to the resident ones, and no other page. -/
theorem Kept.request_of {frames : Nat} {past : List Int} {st st' : Arc} {page : Int}
    (hst : Kept frames past st) (hbound : resident st' ≤ frames)
    (hresidents : ∀ x ∈ st'.t1 ++ st'.t2, x = page ∨ x ∈ st.t1 ++ st.t2)
    (hghosts : ∀ x ∈ st'.b1 ++ st'.b2, x ∈ st.b1 ++ st.b2) :
    Kept frames (past ++ [page]) st' := by
  constructor
  · exact hbound
  · intro x hx
    rcases hresidents x hx with rfl | hx
    · exact List.mem_append_right _ (List.mem_singleton_self _)
    · exact List.mem_append_left _ (hst.residents x hx)
  · intro x hx
    exact List.mem_append_left _ (hst.ghosts x (hghosts x hx))

theorem kept_request {frames : Nat} {past : List Int} {st : Arc} (hst : Kept frames past st)
    (page : Int)
    (hfed : ∀ mid, beforeReplace frames st page = some mid → ¬ Starved mid) :
    Kept frames (past ++ [page]) (request frames st page) := by
  have hcases := request_cases frames st page
  generalize request frames st page = st' at hcases
  -- `misses` and `p` do not matter to what is kept
  have hreplaced : ∀ misses p, beforeReplace frames st page =
        some { st with misses := misses, p := p } →
      resident (replaceARC { st with misses := misses, p := p }) + 1 ≤ frames ∧
        Kept frames past (replaceARC { st with misses := misses, p := p }) := by
    intro misses p hcall
    have hmid : Kept frames past { st with misses := misses, p := p } :=
      { bounded := hst.bounded
        residents := hst.residents
        ghosts := hst.ghosts }
    exact kept_replaceARC hmid (hfed _ hcall)
  cases hcases with
  | hitT1 h1 hcall =>
      apply hst.request_of
      · show (st.t1.erase page).length + (page :: st.t2).length ≤ frames
        rw [resident_erase_t1 h1]
        exact hst.bounded
      · grind [List.mem_of_mem_erase]
      · exact fun x hx => hx
  | hitT2 h1 h2 hcall =>
      apply hst.request_of
      · show st.t1.length + (page :: st.t2.erase page).length ≤ frames
        rw [resident_erase_t2 h2]
        exact hst.bounded
      · grind [List.mem_of_mem_erase]
      · exact fun x hx => hx
  | ghostB1 mid h1 h2 hb1 hmid hcall =>
      subst hmid
      obtain ⟨hroom, hkept⟩ := hreplaced _ _ hcall
      apply hkept.request_of
      · simp only [resident, List.length_cons] at hroom ⊢
        omega
      · grind
      · grind [List.mem_of_mem_erase]
  | ghostB2 mid h1 h2 hb1 hb2 hmid hcall =>
      subst hmid
      obtain ⟨hroom, hkept⟩ := hreplaced _ _ hcall
      apply hkept.request_of
      · simp only [resident, List.length_cons] at hroom ⊢
        omega
      · grind
      · grind [List.mem_of_mem_erase]
  | evict mid h1 h2 hb1 hb2 hfull hmid hcall =>
      subst hmid
      obtain ⟨hroom, hkept⟩ := hreplaced _ _ hcall
      apply hkept.request_of
      · simp only [resident, List.length_cons] at hroom ⊢
        omega
      · grind
      · exact fun x hx => hx
  | fill h1 h2 hb1 hb2 hroom hcall =>
      apply hst.request_of
      · simp only [resident, List.length_cons] at hroom ⊢
        omega
      · grind
      · exact fun x hx => hx

/-- No request of the string makes `replaceARC` select `T2` while it is empty. -/
def NeverStarved (frames : Nat) (pages : List Int) : Prop :=
  ∀ past page mid, past ++ [page] <+: pages →
    beforeReplace frames (simulateARC frames past) page = some mid → ¬ Starved mid

theorem kept_simulateARC {frames : Nat} {pages : List Int} (h : NeverStarved frames pages)
    (past : List Int) (hpast : past <+: pages) :
    Kept frames past (simulateARC frames past) := by
  induction past using List.reverseRecOn with
  | nil =>
      exact
        { bounded := by simp [resident, Arc.init]
          residents := by simp [Arc.init]
          ghosts := by simp [Arc.init] }
  | append_singleton past page ih =>
      rw [simulateARC_concat]
      have hshort : past <+: pages := (List.prefix_append past [page]).trans hpast
      exact kept_request (ih hshort) page (fun mid hcall => h past page mid hpast hcall)

/-- What a cache of `frames` frames should do along a reference string: hold at
most `frames` pages, turn one resident page into a ghost whenever it has to make
room, and remember requested pages only. -/
structure CapacityKept (frames : Nat) (pages : List Int) : Prop where
  bounded : ∀ past, past <+: pages → resident (simulateARC frames past) ≤ frames
  moves : ∀ past page mid, past ++ [page] <+: pages →
    beforeReplace frames (simulateARC frames past) page = some mid →
    frames ≤ resident mid → MovesOne mid (replaceARC mid)
  requested : ∀ past, past <+: pages →
    ∀ x ∈ (simulateARC frames past).b1 ++ (simulateARC frames past).b2, x ∈ past

/-- **The starved call is the only way to lose the bound.** -/
theorem capacityKept_iff (frames : Nat) (pages : List Int) :
    CapacityKept frames pages ↔ NeverStarved frames pages := by
  constructor
  · intro h past page mid hpast hcall hstarved
    have hfull := full_of_beforeReplace (ghostsFull_simulateARC frames past) hcall
    exact not_movesOne_of_starved hstarved (h.moves past page mid hpast hcall hfull)
  · intro h
    exact
      { bounded := fun past hpast => (kept_simulateARC h past hpast).bounded
        moves := fun past page mid hpast hcall _ =>
          replaceARC_movesOne (h past page mid hpast hcall)
        requested := fun past hpast => (kept_simulateARC h past hpast).ghosts }

/-- With three frames the ninth request of this string finds `p = 3`, three pages
in `T1` and none in `T2`. -/
theorem not_capacityKept_nine_requests :
    ¬ ∀ (frames : Nat) (pages : List Int), 1 ≤ frames → (∀ x ∈ pages, 0 ≤ x) →
      CapacityKept frames pages := by
  intro h
  have hkept := h 3 [1, 2, 3, 4, 1, 2, 5, 6, 3] (by decide) (by decide)
  have hbound := hkept.bounded _ (List.prefix_refl _)
  revert hbound
  decide

end SystemsInC.Ports.ArcCapacity
