import Mathlib.Data.List.Induction
import SystemsInC.Ports.ArcCache

/-!
# Renaming the pages of the ARC simulator

A replacement policy should look at which pages are equal, not at their numbers.
`replaceARC` looks at one number: with `length(T1) == p` it asks whether `B2`
holds page `0`.  `samePattern_iff` shows that a renaming changes the run exactly
when it changes the answer to that question.
-/

namespace SystemsInC.Ports.ArcRenaming

open SystemsInC.Ports.ArcCache

/-! ## Renamings -/

/-- An injective map of page numbers, which are not negative. -/
structure Renaming where
  toFun : Int → Int
  nonneg : ∀ page, 0 ≤ page → 0 ≤ toFun page
  injective : ∀ page page', 0 ≤ page → 0 ≤ page' → toFun page = toFun page' → page = page'

/-- The new name of an entry of a list: the placeholder `-1` of `removeLRU` is no
page and keeps its name. -/
def Renaming.page (f : Renaming) (entry : Int) : Int :=
  if 0 ≤ entry then f.toFun entry else entry

def Renaming.arc (f : Renaming) (st : Arc) : Arc :=
  { st with
    t1 := st.t1.map f.page
    t2 := st.t2.map f.page
    b1 := st.b1.map f.page
    b2 := st.b2.map f.page }

theorem Renaming.page_of_nonneg (f : Renaming) {page : Int} (h : 0 ≤ page) :
    f.page page = f.toFun page := if_pos h

@[simp] theorem Renaming.page_placeholder (f : Renaming) : f.page (-1) = -1 := by
  simp [Renaming.page]

theorem Renaming.page_injective (f : Renaming) : Function.Injective f.page := by
  intro x y h
  have hx := f.nonneg x
  have hy := f.nonneg y
  unfold Renaming.page at h
  split at h <;> split at h
  · exact f.injective x y ‹_› ‹_› h
  · omega
  · omega
  · exact h

section Fields

variable (f : Renaming) (st : Arc)

@[simp] theorem arc_t1 : (f.arc st).t1 = st.t1.map f.page := rfl
@[simp] theorem arc_t2 : (f.arc st).t2 = st.t2.map f.page := rfl
@[simp] theorem arc_b1 : (f.arc st).b1 = st.b1.map f.page := rfl
@[simp] theorem arc_b2 : (f.arc st).b2 = st.b2.map f.page := rfl
@[simp] theorem arc_p : (f.arc st).p = st.p := rfl

end Fields

/-! ## The operations on lists -/

section Operations

variable (f : Renaming) (list : List Int)

@[simp] theorem length_map : length (list.map f.page) = length list := by
  simp [length]

@[simp] theorem removeLRU_map :
    removeLRU (list.map f.page) = (f.page (removeLRU list).1, (removeLRU list).2.map f.page) := by
  rcases List.eq_nil_or_concat' list with rfl | ⟨front, last, rfl⟩
  · simp
  · rw [List.map_append, List.map_singleton, removeLRU_concat, removeLRU_concat]

end Operations

/-! ## One request -/

/-- `length(T1) == p` with a page in `T1`: here the test of `replaceARC` asks for page `0`. -/
def Tie (st : Arc) : Prop := 1 ≤ length st.t1 ∧ length st.t1 = st.p

/-- `B2` holds page `0` exactly when it holds the page renamed to `0`. -/
def ZeroAlike (f : Renaming) (st : Arc) : Prop :=
  0 ∈ st.b2 ↔ ∃ page ∈ st.b2, f.page page = 0

theorem replacesT1_rename_iff (f : Renaming) (st : Arc) :
    replacesT1 (f.arc st) = replacesT1 st ↔ (Tie st → ZeroAlike f st) := by
  have hzero : contains (f.arc st).b2 0 = decide (∃ page ∈ st.b2, f.page page = 0) := by
    simp [contains, Renaming.arc]
  have hlen : length (f.arc st).t1 = length st.t1 := length_map f st.t1
  have hp : (f.arc st).p = st.p := rfl
  unfold replacesT1 Tie ZeroAlike
  rw [hzero, hlen, hp]
  by_cases hpos : 1 ≤ length st.t1
  · by_cases htie : length st.t1 = st.p
    · by_cases hold : 0 ∈ st.b2 <;> by_cases hnew : ∃ page ∈ st.b2, f.page page = 0 <;>
        simp [contains, htie, hold, hnew, htie ▸ hpos]
    · simp [htie]
  · simp [hpos]

/-- With the same answer to its test, `replaceARC` does the same on the renamed lists. -/
theorem replaceARC_rename {f : Renaming} {st : Arc}
    (h : replacesT1 (f.arc st) = replacesT1 st) :
    replaceARC (f.arc st) = f.arc (replaceARC st) := by
  have ht1 : removeLRU (f.arc st).t1 = _ := removeLRU_map f st.t1
  have ht2 : removeLRU (f.arc st).t2 = _ := removeLRU_map f st.t2
  unfold replaceARC
  rw [h, ht1, ht2]
  cases replacesT1 st
  · rfl
  · rfl

/-- The pages left in `T1` tell which list `replaceARC` has chosen. -/
theorem length_t1_replaceARC (st : Arc) :
    (replaceARC st).t1.length + (if replacesT1 st then 1 else 0) = st.t1.length := by
  unfold replaceARC
  by_cases htest : replacesT1 st = true
  · have hne : st.t1 ≠ [] := by
      intro hnil
      simp [replacesT1, length, hnil] at htest
    obtain ⟨t1, old, heq⟩ := (List.eq_nil_or_concat' st.t1).resolve_left hne
    simp [htest, heq]
  · simp [htest]

@[simp] theorem mem_map_page (f : Renaming) (list : List Int) (page : Int) :
    f.page page ∈ list.map f.page ↔ page ∈ list :=
  List.mem_map_of_injective f.page_injective

@[simp] theorem resident_arc (f : Renaming) (st : Arc) : resident (f.arc st) = resident st := by
  simp [resident]

theorem beforeReplace_rename (frames : Nat) (f : Renaming) (st : Arc) (page : Int) :
    beforeReplace frames (f.arc st) (f.page page) = (beforeReplace frames st page).map f.arc := by
  unfold beforeReplace
  by_cases hres : page ∈ st.t1 ∨ page ∈ st.t2
  · simp [hres]
  · by_cases hb1 : page ∈ st.b1
    · simp [hres, hb1, Renaming.arc, raisedTarget]
    · by_cases hb2 : page ∈ st.b2
      · simp [hres, hb1, hb2, Renaming.arc, loweredTarget]
      · by_cases hfull : frames ≤ resident st
        · simp [hres, hb1, hb2, hfull]
          rfl
        · simp [hres, hb1, hb2, hfull]

/-- The same decisions lead to the renamed state. -/
theorem request_rename {frames : Nat} {f : Renaming} {st : Arc} {page : Int}
    (h : ∀ mid, beforeReplace frames st page = some mid →
      replacesT1 (f.arc mid) = replacesT1 mid) :
    request frames (f.arc st) (f.page page) = f.arc (request frames st page) := by
  have hcases := request_cases frames st page
  generalize request frames st page = st' at hcases
  have hcall' := beforeReplace_rename frames f st page
  apply Request.eq
  cases hcases with
  | hitT1 h1 hcall =>
      rw [hcall] at hcall'
      have hreq : Request frames (f.arc st) (f.page page) _ := .hitT1 (by simpa) hcall'
      rw [arc_t1, ← List.map_erase f.page_injective] at hreq
      exact hreq
  | hitT2 h1 h2 hcall =>
      rw [hcall] at hcall'
      have hreq : Request frames (f.arc st) (f.page page) _ := .hitT2 (by simpa) (by simpa) hcall'
      rw [arc_t2, ← List.map_erase f.page_injective] at hreq
      exact hreq
  | ghostB1 mid h1 h2 hb1 hmid hcall =>
      rw [hcall] at hcall'
      have hreq : Request frames (f.arc st) (f.page page) _ :=
        .ghostB1 (f.arc mid) (by simpa) (by simpa) (by simpa)
          (by rw [hmid]; simp [Renaming.arc, raisedTarget]) hcall'
      rw [replaceARC_rename (h mid hcall), arc_b1, ← List.map_erase f.page_injective] at hreq
      exact hreq
  | ghostB2 mid h1 h2 hb1 hb2 hmid hcall =>
      rw [hcall] at hcall'
      have hreq : Request frames (f.arc st) (f.page page) _ :=
        .ghostB2 (f.arc mid) (by simpa) (by simpa) (by simpa)
          (by simpa) (by rw [hmid]; simp [Renaming.arc, loweredTarget]) hcall'
      rw [replaceARC_rename (h mid hcall), arc_b2, ← List.map_erase f.page_injective] at hreq
      exact hreq
  | evict mid h1 h2 hb1 hb2 hfull hmid hcall =>
      rw [hcall] at hcall'
      have hreq : Request frames (f.arc st) (f.page page) _ :=
        .evict (f.arc mid) (by simpa) (by simpa) (by simpa)
          (by simpa) (by simpa) (by rw [hmid]; rfl) hcall'
      rw [replaceARC_rename (h mid hcall)] at hreq
      exact hreq
  | fill h1 h2 hb1 hb2 hroom hcall =>
      rw [hcall] at hcall'
      exact .fill (by simpa) (by simpa) (by simpa) (by simpa) (by simpa)
        hcall'

/-- A request that calls `replaceARC` adds a page to `T1` if it was not remembered. -/
theorem length_t1_request {frames : Nat} {st mid : Arc} {page : Int}
    (hcall : beforeReplace frames st page = some mid) :
    (request frames st page).t1.length =
      (replaceARC mid).t1.length + (if page ∈ st.b1 ∨ page ∈ st.b2 then 0 else 1) := by
  have hcases := request_cases frames st page
  generalize request frames st page = st' at hcases
  cases hcases with
  | hitT1 h1 hnone => simp [hnone] at hcall
  | hitT2 h1 h2 hnone => simp [hnone] at hcall
  | ghostB1 mid' h1 h2 hb1 hmid hsome =>
      obtain rfl := Option.some.inj (hsome.symm.trans hcall)
      simp [hb1]
  | ghostB2 mid' h1 h2 hb1 hb2 hmid hsome =>
      obtain rfl := Option.some.inj (hsome.symm.trans hcall)
      simp [hb2]
  | evict mid' h1 h2 hb1 hb2 hfull hmid hsome =>
      obtain rfl := Option.some.inj (hsome.symm.trans hcall)
      simp [hb1, hb2]
  | fill h1 h2 hb1 hb2 hroom hnone => simp [hnone] at hcall

/-- Lists `T1` of one length show that `replaceARC` has decided alike. -/
theorem replacesT1_of_length_t1 {frames : Nat} {f : Renaming} {st mid : Arc} {page : Int}
    (hcall : beforeReplace frames st page = some mid)
    (hlen : (request frames (f.arc st) (f.page page)).t1.length =
      (request frames st page).t1.length) :
    replacesT1 (f.arc mid) = replacesT1 mid := by
  have hcall' : beforeReplace frames (f.arc st) (f.page page) = some (f.arc mid) := by
    rw [beforeReplace_rename, hcall, Option.map_some]
  rw [length_t1_request hcall, length_t1_request hcall'] at hlen
  simp only [arc_b1, arc_b2, mem_map_page, Nat.add_right_cancel_iff] at hlen
  have hafter := length_t1_replaceARC mid
  have hafter' := length_t1_replaceARC (f.arc mid)
  rw [arc_t1, List.length_map] at hafter'
  cases hdec : replacesT1 mid <;> cases hdec' : replacesT1 (f.arc mid)
  · rfl
  · simp only [hdec, hdec', if_true, Bool.false_eq_true, if_false] at hafter hafter'
    omega
  · simp only [hdec, hdec', if_true, Bool.false_eq_true, if_false] at hafter hafter'
    omega
  · rfl

/-! ## Whole runs -/

/-- The renamed string runs like the original one: after the same hits and misses
every list is the renaming of the original list. -/
structure SamePattern (frames : Nat) (f : Renaming) (pages : List Int) : Prop where
  hits : ∀ past, past <+: pages →
    (simulateARC frames (past.map f.toFun)).hits = (simulateARC frames past).hits
  misses : ∀ past, past <+: pages →
    (simulateARC frames (past.map f.toFun)).misses = (simulateARC frames past).misses
  t1 : ∀ past, past <+: pages →
    (simulateARC frames (past.map f.toFun)).t1 = (simulateARC frames past).t1.map f.page
  t2 : ∀ past, past <+: pages →
    (simulateARC frames (past.map f.toFun)).t2 = (simulateARC frames past).t2.map f.page
  b1 : ∀ past, past <+: pages →
    (simulateARC frames (past.map f.toFun)).b1 = (simulateARC frames past).b1.map f.page
  b2 : ∀ past, past <+: pages →
    (simulateARC frames (past.map f.toFun)).b2 = (simulateARC frames past).b2.map f.page

/-- At every tie in which a request of the string calls `replaceARC`, page `0` and
the page renamed to `0` are both in `B2` or both not. -/
def TiesAlike (frames : Nat) (f : Renaming) (pages : List Int) : Prop :=
  ∀ past page mid, past ++ [page] <+: pages →
    beforeReplace frames (simulateARC frames past) page = some mid → Tie mid → ZeroAlike f mid

theorem simulateARC_rename_concat {frames : Nat} {f : Renaming} {past : List Int} {page : Int}
    (hpage : 0 ≤ page)
    (hpast : simulateARC frames (past.map f.toFun) = f.arc (simulateARC frames past)) :
    simulateARC frames ((past ++ [page]).map f.toFun) =
      request frames (f.arc (simulateARC frames past)) (f.page page) := by
  rw [List.map_append, List.map_singleton, simulateARC_concat, hpast, f.page_of_nonneg hpage]

/-- If the ties of a run are alike, both runs keep step. -/
theorem simulateARC_rename {frames : Nat} {f : Renaming} {pages : List Int}
    (hpages : ∀ page ∈ pages, 0 ≤ page) (h : TiesAlike frames f pages) (past : List Int)
    (hpast : past <+: pages) :
    simulateARC frames (past.map f.toFun) = f.arc (simulateARC frames past) := by
  induction past using List.reverseRecOn with
  | nil => rfl
  | append_singleton past page ih =>
      have hshort : past <+: pages := (List.prefix_append past [page]).trans hpast
      have hpage : 0 ≤ page := hpages page (hpast.subset (by simp))
      rw [simulateARC_rename_concat hpage (ih hshort), simulateARC_concat]
      apply request_rename
      intro mid hmid
      rw [replacesT1_rename_iff]
      exact h past page mid hpast hmid

/-- Lists that agree after a request show that it was decided alike. -/
theorem SamePattern.decided {frames : Nat} {f : Renaming} {pages past : List Int} {page : Int}
    (h : SamePattern frames f pages) (hpage : 0 ≤ page) (hpast : past ++ [page] <+: pages)
    (hst : simulateARC frames (past.map f.toFun) = f.arc (simulateARC frames past)) (mid : Arc)
    (hcall : beforeReplace frames (simulateARC frames past) page = some mid) :
    replacesT1 (f.arc mid) = replacesT1 mid := by
  have ht1 := h.t1 _ hpast
  rw [simulateARC_rename_concat hpage hst, simulateARC_concat] at ht1
  apply replacesT1_of_length_t1 hcall
  rw [ht1, List.length_map]

theorem SamePattern.simulateARC_rename {frames : Nat} {f : Renaming} {pages : List Int}
    (hpages : ∀ page ∈ pages, 0 ≤ page) (h : SamePattern frames f pages) (past : List Int)
    (hpast : past <+: pages) :
    simulateARC frames (past.map f.toFun) = f.arc (simulateARC frames past) := by
  induction past using List.reverseRecOn with
  | nil => rfl
  | append_singleton past page ih =>
      have hshort : past <+: pages := (List.prefix_append past [page]).trans hpast
      have hpage : 0 ≤ page := hpages page (hpast.subset (by simp))
      rw [simulateARC_rename_concat hpage (ih hshort), simulateARC_concat]
      exact request_rename (h.decided hpage hpast (ih hshort))

/-- **Only the question for page `0` looks at a number.** -/
theorem samePattern_iff (frames : Nat) (f : Renaming) (pages : List Int)
    (hpages : ∀ page ∈ pages, 0 ≤ page) :
    SamePattern frames f pages ↔ TiesAlike frames f pages := by
  constructor
  · intro h past page mid hpast hcall
    rw [← replacesT1_rename_iff]
    have hshort : past <+: pages := (List.prefix_append past [page]).trans hpast
    have hpage : 0 ≤ page := hpages page (hpast.subset (by simp))
    exact h.decided hpage hpast (h.simulateARC_rename hpages past hshort) mid hcall
  · intro h
    have hrun := simulateARC_rename hpages h
    exact
      { hits := fun past hpast => by rw [hrun past hpast]; rfl
        misses := fun past hpast => by rw [hrun past hpast]; rfl
        t1 := fun past hpast => by rw [hrun past hpast]; rfl
        t2 := fun past hpast => by rw [hrun past hpast]; rfl
        b1 := fun past hpast => by rw [hrun past hpast]; rfl
        b2 := fun past hpast => by rw [hrun past hpast]; rfl }

/-- Exchange the names of the pages `0` and `1`. -/
def exchange : Renaming where
  toFun page := if page = 0 then 1 else if page = 1 then 0 else page
  nonneg := by grind
  injective := by grind

theorem samePattern_iff_exchange :
    SamePattern 3 exchange [2, 3, 2, 4, 5] ↔ TiesAlike 3 exchange [2, 3, 2, 4, 5] :=
  samePattern_iff 3 exchange [2, 3, 2, 4, 5] (by decide)

/-- With two frames the sixth request finds one page in `T1`, `p = 1` and page `1`
in `B2`; under its new name `0` it is `T1` that loses a page. -/
theorem not_samePattern_six_requests :
    ¬ ∀ (frames : Nat) (f : Renaming) (pages : List Int), 1 ≤ frames →
      (∀ page ∈ pages, 0 ≤ page) → SamePattern frames f pages := by
  intro h
  have hsame := h 2 exchange [1, 1, 2, 3, 2, 4] (by decide) (by decide)
  have ht1 := hsame.t1 _ (List.prefix_refl _)
  revert ht1
  decide

end SystemsInC.Ports.ArcRenaming
