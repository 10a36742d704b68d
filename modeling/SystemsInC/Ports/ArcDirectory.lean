import Mathlib.Data.Finset.Card
import Mathlib.Data.List.Induction
import SystemsInC.Ports.ArcCapacity

/-!
# What the ARC simulator remembers

No path of the request loop trims the ghost lists, so every page requested stays
in one of the four lists.  `directory_exact` counts what they hold: the distinct
pages of the string, and one `-1` for each starved call of `replaceARC`.
-/

namespace SystemsInC.Ports.ArcDirectory

open SystemsInC.Ports.ArcCache
open SystemsInC.Ports.ArcCapacity

/-- The entries of the four lists. -/
def directory (st : Arc) : List Int := st.t1 ++ st.t2 ++ (st.b1 ++ st.b2)

/-- The number of distinct pages of a string. -/
def distinct (pages : List Int) : Nat := pages.toFinset.card

/-- The entries that stand for no page. -/
def placeholders (st : Arc) : Nat := (directory st).count (-1)

theorem length_directory (st : Arc) :
    ((directory st).length : Int) = length st.t1 + length st.t2 + length st.b1 + length st.b2 := by
  simp only [directory, List.length_append, length]
  omega

theorem distinct_concat_of_mem {past : List Int} {page : Int} (h : page ∈ past) :
    distinct (past ++ [page]) = distinct past := by
  have hset : (past ++ [page]).toFinset = past.toFinset := by
    ext x
    simp only [List.mem_toFinset, List.mem_append, List.mem_singleton]
    constructor
    · rintro (hx | rfl)
      · exact hx
      · exact h
    · exact Or.inl
  rw [distinct, hset, distinct]

theorem distinct_concat_of_not_mem {past : List Int} {page : Int} (h : page ∉ past) :
    distinct (past ++ [page]) = distinct past + 1 := by
  have hset : (past ++ [page]).toFinset = insert page past.toFinset := by
    ext x
    simp
  rw [distinct, hset, Finset.card_insert_of_notMem (by simpa using h), distinct]

/-! ## One request -/

/-- What a call of `replaceARC` adds to the directory: nothing, or `-1` for a starved call. -/
theorem replaceARC_change (st : Arc) :
    ∃ gap : List Int, (gap = [] ∨ gap = [-1]) ∧
      (directory (replaceARC st)).Perm (gap ++ directory st) ∧
      resident (replaceARC st) + 1 = resident st + gap.length ∧
      ∀ entry ∈ (replaceARC st).t1 ++ (replaceARC st).t2, entry ∈ st.t1 ++ st.t2 := by
  by_cases hstarved : Starved st
  · have heq : replaceARC st = { st with b2 := -1 :: st.b2 } := by
      simp [replaceARC, hstarved.selected, hstarved.empty, addToFront]
    refine ⟨[-1], Or.inr rfl, ?_, ?_, ?_⟩
    · rw [heq]
      show (st.t1 ++ st.t2 ++ (st.b1 ++ -1 :: st.b2)).Perm (-1 :: directory st)
      rw [← List.append_assoc]
      exact List.perm_middle.trans (by rw [List.append_assoc]; exact List.Perm.refl _)
    · rw [resident_replaceARC_of_starved hstarved]
      rfl
    · rw [heq]
      exact fun entry hentry => hentry
  · have hmoves := replaceARC_movesOne hstarved
    have hone := resident_of_movesOne hmoves
    obtain ⟨page, hresident, hghosts⟩ := hmoves
    refine ⟨[], Or.inl rfl, ?_, ?_, ?_⟩
    · have hmiddle : (directory (replaceARC st)).Perm
          (page :: ((replaceARC st).t1 ++ (replaceARC st).t2) ++ (st.b1 ++ st.b2)) :=
        (hghosts.append_left _).trans List.perm_middle
      exact hmiddle.trans (hresident.symm.append_right _)
    · rw [List.length_nil]
      omega
    · intro entry hentry
      exact hresident.mem_iff.mpr (List.mem_cons_of_mem page hentry)

/-- `replaceARC` forgets no ghost. -/
theorem ghosts_replaceARC (st : Arc) :
    st.b1 <:+ (replaceARC st).b1 ∧ st.b2 <:+ (replaceARC st).b2 := by
  rcases replaceARC_cases st with ⟨t1, old, -, heq⟩ | ⟨t2, old, -, heq⟩ | ⟨-, heq⟩
  · rw [heq]
    exact ⟨List.suffix_cons old st.b1, List.suffix_refl st.b2⟩
  · rw [heq]
    exact ⟨List.suffix_refl st.b1, List.suffix_cons old st.b2⟩
  · rw [heq]
    exact ⟨List.suffix_refl st.b1, List.suffix_cons (-1) st.b2⟩

/-- A page taken out of one list and put into another is counted once. -/
theorem count_erase_add {list : List Int} {page : Int} (h : page ∈ list) (entry : Int) :
    (list.erase page).count entry + (if page = entry then 1 else 0) = list.count entry := by
  rw [(List.perm_cons_erase h).count_eq, List.count_cons]
  simp [beq_iff_eq]

/-- The directory of a run over `past`. -/
structure Directory (frames : Nat) (past : List Int) (st : Arc) : Prop where
  once : ∀ page, page ≠ -1 → (directory st).count page = if page ∈ past then 1 else 0
  residents : -1 ∉ st.t1 ++ st.t2
  filled : resident st = min frames (distinct past) + placeholders st
  grown : frames ≤ resident st → frames ≤ distinct past

/-- A request of a remembered page. -/
theorem Directory.again {frames : Nat} {past : List Int} {st st' : Arc} {page : Int}
    {gap : List Int} (hst : Directory frames past st) (hpage : page ∈ past)
    (hgap : gap = [] ∨ gap = [-1] ∧ frames ≤ resident st)
    (hdirectory : ∀ entry, (directory st').count entry = (gap ++ directory st).count entry)
    (hresident : resident st' = resident st + gap.length)
    (hresidents : -1 ∉ st'.t1 ++ st'.t2) :
    Directory frames (past ++ [page]) st' := by
  have hfilled := hst.filled
  have hgrown := hst.grown
  have hcount := hdirectory (-1)
  constructor
  · intro x hx
    rw [hdirectory, List.count_append, hst.once x hx]
    rcases hgap with rfl | ⟨rfl, -⟩
    · grind
    · grind
  · exact hresidents
  · rw [distinct_concat_of_mem hpage, placeholders, hdirectory, List.count_append, hresident]
    unfold placeholders at hfilled
    rcases hgap with rfl | ⟨rfl, -⟩
    · simpa using hfilled
    · simp only [List.count_singleton_self, List.length_singleton]
      omega
  · rw [distinct_concat_of_mem hpage, hresident]
    rcases hgap with rfl | ⟨rfl, hfull⟩
    · exact hgrown
    · exact fun _ => hgrown hfull

/-- A request of a ghost: `replaceARC` makes a place, and the page moves from its
ghost list to `T2`. -/
theorem Directory.ghost {frames : Nat} {past : List Int} {st mid st' : Arc} {page : Int}
    (hst : Directory frames past st) (hpage : page ∈ past) (hreal : page ≠ -1)
    (hfull : frames ≤ resident st)
    (hmid : mid.t1 = st.t1 ∧ mid.t2 = st.t2 ∧ directory mid = directory st)
    (ht1 : st'.t1 = (replaceARC mid).t1) (ht2 : st'.t2 = page :: (replaceARC mid).t2)
    (hmoved : ∀ entry, (directory st').count entry = (directory (replaceARC mid)).count entry) :
    Directory frames (past ++ [page]) st' := by
  obtain ⟨gap, hgap, hperm, hone, hsub⟩ := replaceARC_change mid
  obtain ⟨hmid1, hmid2, hdirectory⟩ := hmid
  apply hst.again hpage (hgap.imp_right fun h => ⟨h, hfull⟩)
  · intro entry
    rw [hmoved, hperm.count_eq, hdirectory]
  · simp only [resident, ht1, ht2, hmid1, hmid2, List.length_cons] at hone ⊢
    omega
  · intro hin
    rw [ht1, ht2, List.mem_append, List.mem_cons] at hin
    have hold : -1 ∈ mid.t1 ++ mid.t2 := by
      apply hsub
      rw [List.mem_append]
      exact hin.imp_right fun h => h.resolve_left (Ne.symm hreal)
    rw [hmid1, hmid2] at hold
    exact hst.residents hold

/-- A request of a new page with all frames in use. -/
theorem Directory.replaced {frames : Nat} {past : List Int} {st st' : Arc} {page : Int}
    {gap : List Int} (hst : Directory frames past st) (hpage : page ∉ past) (hreal : page ≠ -1)
    (hgap : gap = [] ∨ gap = [-1]) (hfull : frames ≤ resident st)
    (hdirectory : ∀ entry, (directory st').count entry = (gap ++ page :: directory st).count entry)
    (hresident : resident st' = resident st + gap.length)
    (hresidents : -1 ∉ st'.t1 ++ st'.t2) :
    Directory frames (past ++ [page]) st' := by
  have hfilled := hst.filled
  have hgrown := hst.grown hfull
  constructor
  · intro x hx
    rw [hdirectory, List.count_append, List.count_cons, hst.once x hx]
    rcases hgap with rfl | rfl
    · grind
    · grind
  · exact hresidents
  · rw [distinct_concat_of_not_mem hpage, placeholders, hdirectory, List.count_append,
      List.count_cons_of_ne hreal, hresident]
    unfold placeholders at hfilled
    rcases hgap with rfl | rfl
    · simp only [List.count_nil, List.length_nil]
      omega
    · simp only [List.count_singleton_self, List.length_singleton]
      omega
  · rw [distinct_concat_of_not_mem hpage]
    omega

/-- A request of a new page with a frame left. -/
theorem Directory.added {frames : Nat} {past : List Int} {st st' : Arc} {page : Int}
    (hst : Directory frames past st) (hghosts : GhostsFull frames st) (hpage : page ∉ past)
    (hreal : page ≠ -1) (hroom : resident st < frames)
    (hdirectory : ∀ entry, (directory st').count entry = (page :: directory st).count entry)
    (hresident : resident st' = resident st + 1)
    (hresidents : -1 ∉ st'.t1 ++ st'.t2) :
    Directory frames (past ++ [page]) st' := by
  have hfilled := hst.filled
  -- without ghosts there is no placeholder
  have hnone : placeholders st = 0 := by
    have hempty : st.b1 = [] ∧ st.b2 = [] := by
      by_contra hne
      have hfull := hghosts (by tauto)
      omega
    have hout := List.count_eq_zero_of_not_mem hst.residents
    simpa [placeholders, directory, hempty.1, hempty.2] using hout
  constructor
  · intro x hx
    rw [hdirectory, List.count_cons, hst.once x hx]
    grind
  · exact hresidents
  · rw [distinct_concat_of_not_mem hpage, placeholders, hdirectory, List.count_cons_of_ne hreal,
      hresident]
    unfold placeholders at hfilled hnone
    omega
  · rw [distinct_concat_of_not_mem hpage, hresident]
    omega

theorem Directory.mem_iff {frames : Nat} {past : List Int} {st : Arc} {page : Int}
    (hst : Directory frames past st) (hreal : page ≠ -1) : page ∈ directory st ↔ page ∈ past := by
  rw [← List.count_pos_iff, hst.once page hreal]
  by_cases hpast : page ∈ past
  · simp [hpast]
  · simp [hpast]

section Request

variable {frames : Nat} {past : List Int} {st mid : Arc} {page : Int}

theorem Directory.hitT1 (hst : Directory frames past st) (hreal : page ≠ -1) (h1 : page ∈ st.t1)
    (hits : Option Int) :
    Directory frames (past ++ [page])
      { st with
        hits := hits
        t1 := st.t1.erase page
        t2 := page :: st.t2 } := by
  have hres := hst.residents
  apply hst.again ((hst.mem_iff hreal).mp (by simp [directory, h1])) (Or.inl rfl)
  · intro entry
    have hmoved := count_erase_add h1 entry
    simp only [directory, List.count_append, List.count_cons, List.count_nil, beq_iff_eq]
    omega
  · exact resident_erase_t1 h1
  · grind [List.mem_of_mem_erase]

theorem Directory.hitT2 (hst : Directory frames past st) (hreal : page ≠ -1) (h2 : page ∈ st.t2)
    (hits : Option Int) :
    Directory frames (past ++ [page])
      { st with
        hits := hits
        t2 := page :: st.t2.erase page } := by
  have hres := hst.residents
  apply hst.again ((hst.mem_iff hreal).mp (by simp [directory, h2])) (Or.inl rfl)
  · intro entry
    have hmoved := count_erase_add h2 entry
    simp only [directory, List.count_append, List.count_cons, List.count_nil, beq_iff_eq]
    omega
  · exact resident_erase_t2 h2
  · grind [List.mem_of_mem_erase]

theorem Directory.ghostB1 (hst : Directory frames past st) (hghosts : GhostsFull frames st)
    (hreal : page ≠ -1) (hb1 : page ∈ st.b1) {misses : Option Int} {p : Int}
    (hmid : mid = { st with misses := misses, p := p }) :
    Directory frames (past ++ [page])
      { replaceARC mid with
        b1 := (replaceARC mid).b1.erase page
        t2 := page :: (replaceARC mid).t2 } := by
  have hfull : frames ≤ resident st := hghosts (Or.inl (List.ne_nil_of_mem hb1))
  have hghost : page ∈ (replaceARC mid).b1 :=
    (ghosts_replaceARC mid).1.subset (by rw [hmid]; exact hb1)
  have hlists : mid.t1 = st.t1 ∧ mid.t2 = st.t2 ∧ directory mid = directory st := by
    rw [hmid]
    exact ⟨rfl, rfl, rfl⟩
  have hold : page ∈ past := (hst.mem_iff hreal).mp (by simp [directory, hb1])
  refine hst.ghost hold hreal hfull hlists rfl rfl (fun entry => ?_)
  have hmoved := count_erase_add hghost entry
  simp only [directory, List.count_append, List.count_cons, beq_iff_eq]
  omega

theorem Directory.ghostB2 (hst : Directory frames past st) (hghosts : GhostsFull frames st)
    (hreal : page ≠ -1) (hb2 : page ∈ st.b2) {misses : Option Int} {p : Int}
    (hmid : mid = { st with misses := misses, p := p }) :
    Directory frames (past ++ [page])
      { replaceARC mid with
        b2 := (replaceARC mid).b2.erase page
        t2 := page :: (replaceARC mid).t2 } := by
  have hfull : frames ≤ resident st := hghosts (Or.inr (List.ne_nil_of_mem hb2))
  have hghost : page ∈ (replaceARC mid).b2 :=
    (ghosts_replaceARC mid).2.subset (by rw [hmid]; exact hb2)
  have hlists : mid.t1 = st.t1 ∧ mid.t2 = st.t2 ∧ directory mid = directory st := by
    rw [hmid]
    exact ⟨rfl, rfl, rfl⟩
  have hold : page ∈ past := (hst.mem_iff hreal).mp (by simp [directory, hb2])
  refine hst.ghost hold hreal hfull hlists rfl rfl (fun entry => ?_)
  have hmoved := count_erase_add hghost entry
  simp only [directory, List.count_append, List.count_cons, beq_iff_eq]
  omega

theorem Directory.evict (hst : Directory frames past st) (hreal : page ≠ -1)
    (hnew : page ∉ directory st) (hfull : frames ≤ resident st) {misses : Option Int}
    (hmid : mid = { st with misses := misses }) :
    Directory frames (past ++ [page])
      { replaceARC mid with t1 := page :: (replaceARC mid).t1 } := by
  have hres := hst.residents
  obtain ⟨gap, hgap, hperm, hone, hsub⟩ := replaceARC_change mid
  have hlists : directory mid = directory st ∧ resident mid = resident st := by
    rw [hmid]
    exact ⟨rfl, rfl⟩
  rw [hst.mem_iff hreal] at hnew
  apply hst.replaced hnew hreal hgap hfull
  · intro entry
    have hcount := hperm.count_eq entry
    rw [hlists.1] at hcount
    simp only [directory, List.count_append, List.count_cons, List.cons_append] at hcount ⊢
    omega
  · simp only [resident, List.length_cons] at hone hlists ⊢
    omega
  · grind

theorem Directory.fill (hst : Directory frames past st) (hghosts : GhostsFull frames st)
    (hreal : page ≠ -1) (hnew : page ∉ directory st) (hroom : resident st < frames)
    (misses : Option Int) :
    Directory frames (past ++ [page])
      { st with
        misses := misses
        t1 := page :: st.t1 } := by
  have hres := hst.residents
  rw [hst.mem_iff hreal] at hnew
  apply hst.added hghosts hnew hreal hroom
  · intro entry
    simp only [directory, List.cons_append]
  · simp only [resident, List.length_cons]
    omega
  · grind

theorem directory_request (hst : Directory frames past st) (hghosts : GhostsFull frames st)
    (hpage : 0 ≤ page) : Directory frames (past ++ [page]) (request frames st page) := by
  have hcases := request_cases frames st page
  generalize request frames st page = st' at hcases
  have hreal : page ≠ -1 := by omega
  cases hcases with
  | hitT1 h1 hcall => exact hst.hitT1 hreal h1 _
  | hitT2 h1 h2 hcall => exact hst.hitT2 hreal h2 _
  | ghostB1 mid h1 h2 hb1 hmid hcall => exact hst.ghostB1 hghosts hreal hb1 hmid
  | ghostB2 mid h1 h2 hb1 hb2 hmid hcall => exact hst.ghostB2 hghosts hreal hb2 hmid
  | evict mid h1 h2 hb1 hb2 hfull hmid hcall =>
      exact hst.evict hreal (by simp [directory, h1, h2, hb1, hb2]) hfull hmid
  | fill h1 h2 hb1 hb2 hroom hcall =>
      exact hst.fill hghosts hreal (by simp [directory, h1, h2, hb1, hb2]) hroom _

end Request

/-! ## Whole runs -/

theorem directory_simulateARC (frames : Nat) (pages : List Int)
    (hpages : ∀ page ∈ pages, 0 ≤ page) :
    Directory frames pages (simulateARC frames pages) := by
  induction pages using List.reverseRecOn with
  | nil =>
      constructor
      · intro page hpage
        simp [directory, Arc.init]
      · simp [Arc.init]
      · simp [resident, distinct, placeholders, directory, Arc.init]
      · simp [resident, distinct, Arc.init]
  | append_singleton past page ih =>
      rw [simulateARC_concat]
      have hpast : ∀ x ∈ past, 0 ≤ x := fun x hx => hpages x (List.mem_append_left _ hx)
      exact directory_request (ih hpast) (ghostsFull_simulateARC frames past)
        (hpages page (by simp))

/-- The resident entries are distinct requested pages. -/
theorem Directory.resident_le {frames : Nat} {past : List Int} {st : Arc}
    (hst : Directory frames past st) : resident st ≤ distinct past := by
  have hcount : ∀ page, (st.t1 ++ st.t2).count page ≤ if page ∈ past then 1 else 0 := by
    intro page
    by_cases hreal : page = -1
    · rw [hreal, List.count_eq_zero_of_not_mem hst.residents]
      exact Nat.zero_le _
    · rw [← hst.once page hreal]
      exact (List.sublist_append_left _ _).count_le page
  have hnodup : (st.t1 ++ st.t2).Nodup := by
    rw [List.nodup_iff_count_le_one]
    intro page
    have hle := hcount page
    split at hle <;> omega
  have hsub : (st.t1 ++ st.t2).toFinset ⊆ past.toFinset := by
    intro page hpage
    rw [List.mem_toFinset] at hpage ⊢
    have hpos := List.count_pos_iff.mpr hpage
    have hle := hcount page
    by_contra hout
    rw [if_neg hout] at hle
    omega
  have hcard := Finset.card_le_card hsub
  rw [List.toFinset_card_of_nodup hnodup, List.length_append] at hcard
  exact hcard

/-- The other entries are the requested pages, each once. -/
theorem Directory.length_eq {frames : Nat} {past : List Int} {st : Arc}
    (hst : Directory frames past st) (hpast : ∀ page ∈ past, 0 ≤ page) :
    (directory st).length = distinct past + placeholders st := by
  have hreal : ∀ page ∈ past, page ≠ -1 := by
    intro page hpage
    have hnonneg := hpast page hpage
    omega
  -- the pages of the directory, without the placeholders
  have hcount : ∀ page, ((directory st).filter (fun x => x ≠ -1)).count page =
      if page ∈ past then 1 else 0 := by
    intro page
    by_cases hpage : page = -1
    · have hout : page ∉ past := fun hmem => hreal page hmem hpage
      rw [if_neg hout, List.count_eq_zero]
      simp [hpage]
    · rw [List.count_filter (by simpa using hpage), hst.once page hpage]
  have hperm : ((directory st).filter (fun x => x ≠ -1)).Perm past.dedup := by
    rw [List.perm_iff_count]
    intro page
    rw [hcount, List.count_dedup]
  have hlen := List.length_eq_countP_add_countP (fun x => x == -1) (l := directory st)
  have hpages : (directory st).countP (fun x => ¬ (x == -1) = true) = past.dedup.length := by
    rw [List.countP_eq_length_filter, ← hperm.length_eq]
    simp
  rw [hlen, hpages, distinct, List.card_toFinset, placeholders, List.count]
  exact Nat.add_comm _ _

/-- **The lists remember every page.**  After a run over `pages` each page requested
stands in one of the four lists, once; the only other entries are placeholders, at
most one for each distinct page that exceeds the frames. -/
theorem directory_exact (frames : Nat) (pages : List Int) (hpages : ∀ page ∈ pages, 0 ≤ page) :
    let st := simulateARC frames pages
    (∀ page, page ≠ -1 → (directory st).count page = if page ∈ pages then 1 else 0) ∧
    length st.t1 + length st.t2 + length st.b1 + length st.b2 =
      distinct pages + placeholders st ∧
    placeholders st + min frames (distinct pages) ≤ distinct pages := by
  intro st
  have hst := directory_simulateARC frames pages hpages
  refine ⟨hst.once, ?_, ?_⟩
  · rw [← length_directory, hst.length_eq hpages]
    rfl
  · have hfilled := hst.filled
    have hle := hst.resident_le
    show placeholders (simulateARC frames pages) + min frames (distinct pages) ≤ distinct pages
    omega

theorem directory_exact_four :
    let st := simulateARC 2 [4, 7, 4, 9]
    (∀ page, page ≠ -1 → (directory st).count page = if page ∈ [4, 7, 4, 9] then 1 else 0) ∧
    length st.t1 + length st.t2 + length st.b1 + length st.b2 =
      distinct [4, 7, 4, 9] + placeholders st ∧
    placeholders st + min 2 (distinct [4, 7, 4, 9]) ≤ distinct [4, 7, 4, 9] :=
  directory_exact 2 [4, 7, 4, 9] (by decide)

/-- With one frame three different pages are one too many for twice the frames. -/
theorem not_directory_le_three :
    ¬ ∀ (frames : Nat) (pages : List Int), 1 ≤ frames → (∀ page ∈ pages, 0 ≤ page) →
      let st := simulateARC frames pages
      length st.t1 + length st.t2 + length st.b1 + length st.b2 ≤ 2 * frames := by
  intro h
  have hbound := h 1 [1, 2, 3] (by decide) (by decide)
  revert hbound
  decide

end SystemsInC.Ports.ArcDirectory
