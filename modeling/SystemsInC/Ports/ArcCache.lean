import Mathlib.Data.List.Basic
import Mathlib.Data.List.Perm.Basic
import SystemsInC.Ports.LruPaging

/-!
# The ARC simulator

The lists and the request loop of `simulateARC` in `page_cache_simulator.c`.  A
singly linked list of pages is a `List`, its front first; the number of frames is
a parameter.  `Request` lists the six paths of the loop body and
`replaceARC_cases` the three of `replaceARC`.
-/

namespace SystemsInC.Ports.ArcCache

open SystemsInC.Ports.LruPaging (countUp)

/-! ## Lists of pages -/

def contains (list : List Int) (page : Int) : Bool := decide (page ∈ list)

/-- Remove the first node that holds `page`. -/
def removeNode (list : List Int) (page : Int) : List Int := list.erase page

def addToFront (list : List Int) (page : Int) : List Int := page :: list

def length (list : List Int) : Int := list.length

/-- Remove the last node: the page it held, or `-1` if there is none. -/
def removeLRU (list : List Int) : Int × List Int :=
  match list.getLast? with
  | none => (-1, list)
  | some page => (page, list.dropLast)

@[simp] theorem removeLRU_nil : removeLRU [] = (-1, []) := rfl

@[simp] theorem removeLRU_concat (list : List Int) (page : Int) :
    removeLRU (list ++ [page]) = (page, list) := by
  simp [removeLRU]

/-! ## The simulator -/

structure Arc where
  t1 : List Int
  t2 : List Int
  b1 : List Int
  b2 : List Int
  p : Int
  hits : Option Int
  misses : Option Int
  deriving DecidableEq, Repr

def Arc.init : Arc :=
  { t1 := []
    t2 := []
    b1 := []
    b2 := []
    p := 0
    hits := some 0
    misses := some 0 }

/-- The test of `replaceARC`. -/
def replacesT1 (st : Arc) : Bool :=
  decide (1 ≤ length st.t1) &&
    (decide (st.p < length st.t1) || (contains st.b2 0 && decide (length st.t1 = st.p)))

def replaceARC (st : Arc) : Arc :=
  if replacesT1 st then
    let (old, t1) := removeLRU st.t1
    { st with t1 := t1, b1 := addToFront st.b1 old }
  else
    let (old, t2) := removeLRU st.t2
    { st with t2 := t2, b2 := addToFront st.b2 old }

/-- The target after a hit in `B1`. -/
def raisedTarget (frames : Nat) (st : Arc) : Int :=
  if st.p + (if 0 < length st.b2 then 1 else 0) < frames then st.p + 1 else frames

/-- The target after a hit in `B2`. -/
def loweredTarget (st : Arc) : Int :=
  if 0 < st.p - (if 0 < length st.b1 then 1 else 0) then st.p - 1 else 0

/-- The body of the request loop. -/
def request (frames : Nat) (st : Arc) (page : Int) : Arc :=
  if contains st.t1 page || contains st.t2 page then
    let st := { st with hits := countUp st.hits }
    if contains st.t1 page then
      { st with t1 := removeNode st.t1 page, t2 := addToFront st.t2 page }
    else
      { st with t2 := addToFront (removeNode st.t2 page) page }
  else
    let st := { st with misses := countUp st.misses }
    if contains st.b1 page then
      let st := replaceARC { st with p := raisedTarget frames st }
      { st with b1 := removeNode st.b1 page, t2 := addToFront st.t2 page }
    else if contains st.b2 page then
      let st := replaceARC { st with p := loweredTarget st }
      { st with b2 := removeNode st.b2 page, t2 := addToFront st.t2 page }
    else
      let st := if length st.t1 + length st.t2 ≥ frames then replaceARC st else st
      { st with t1 := addToFront st.t1 page }

/-- The loop of `simulateARC` over a reference string. -/
def simulateARC (frames : Nat) (pages : List Int) : Arc :=
  pages.foldl (request frames) Arc.init

@[simp] theorem simulateARC_nil (frames : Nat) : simulateARC frames [] = Arc.init := rfl

@[simp] theorem simulateARC_concat (frames : Nat) (past : List Int) (page : Int) :
    simulateARC frames (past ++ [page]) = request frames (simulateARC frames past) page := by
  simp [simulateARC, List.foldl_append]

/-! ## The paths of a request -/

/-- The number of resident pages. -/
def resident (st : Arc) : Nat := st.t1.length + st.t2.length

/-- The state in which a request calls `replaceARC`, if it does. -/
def beforeReplace (frames : Nat) (st : Arc) (page : Int) : Option Arc :=
  if page ∈ st.t1 ∨ page ∈ st.t2 then none
  else if page ∈ st.b1 then
    some { st with misses := countUp st.misses, p := raisedTarget frames st }
  else if page ∈ st.b2 then
    some { st with misses := countUp st.misses, p := loweredTarget st }
  else if frames ≤ resident st then some { st with misses := countUp st.misses }
  else none

/-- The six ways in which a request changes the lists. -/
inductive Request (frames : Nat) (st : Arc) (page : Int) : Arc → Prop
  | hitT1 (h1 : page ∈ st.t1) (hcall : beforeReplace frames st page = none) :
      Request frames st page
        { st with
          hits := countUp st.hits
          t1 := st.t1.erase page
          t2 := page :: st.t2 }
  | hitT2 (h1 : page ∉ st.t1) (h2 : page ∈ st.t2)
      (hcall : beforeReplace frames st page = none) :
      Request frames st page
        { st with
          hits := countUp st.hits
          t2 := page :: st.t2.erase page }
  | ghostB1 (mid : Arc) (h1 : page ∉ st.t1) (h2 : page ∉ st.t2) (hb1 : page ∈ st.b1)
      (hmid : mid = { st with misses := countUp st.misses, p := raisedTarget frames st })
      (hcall : beforeReplace frames st page = some mid) :
      Request frames st page
        { replaceARC mid with
          b1 := (replaceARC mid).b1.erase page
          t2 := page :: (replaceARC mid).t2 }
  | ghostB2 (mid : Arc) (h1 : page ∉ st.t1) (h2 : page ∉ st.t2) (hb1 : page ∉ st.b1)
      (hb2 : page ∈ st.b2)
      (hmid : mid = { st with misses := countUp st.misses, p := loweredTarget st })
      (hcall : beforeReplace frames st page = some mid) :
      Request frames st page
        { replaceARC mid with
          b2 := (replaceARC mid).b2.erase page
          t2 := page :: (replaceARC mid).t2 }
  | evict (mid : Arc) (h1 : page ∉ st.t1) (h2 : page ∉ st.t2) (hb1 : page ∉ st.b1)
      (hb2 : page ∉ st.b2) (hfull : frames ≤ resident st)
      (hmid : mid = { st with misses := countUp st.misses })
      (hcall : beforeReplace frames st page = some mid) :
      Request frames st page
        { replaceARC mid with t1 := page :: (replaceARC mid).t1 }
  | fill (h1 : page ∉ st.t1) (h2 : page ∉ st.t2) (hb1 : page ∉ st.b1) (hb2 : page ∉ st.b2)
      (hroom : resident st < frames) (hcall : beforeReplace frames st page = none) :
      Request frames st page
        { st with
          misses := countUp st.misses
          t1 := page :: st.t1 }

theorem request_cases (frames : Nat) (st : Arc) (page : Int) :
    Request frames st page (request frames st page) := by
  unfold request
  by_cases h1 : page ∈ st.t1
  · simp only [contains, h1, decide_true, Bool.true_or, if_true]
    exact .hitT1 h1 (by simp [beforeReplace, h1])
  · by_cases h2 : page ∈ st.t2
    · simp only [contains, h1, h2, decide_true, decide_false, Bool.or_true, if_true,
        Bool.false_eq_true, if_false]
      exact .hitT2 h1 h2 (by simp [beforeReplace, h2])
    · by_cases hb1 : page ∈ st.b1
      · simp only [contains, h1, h2, hb1, decide_true, decide_false, Bool.or_false,
          Bool.false_eq_true, if_false, if_true]
        exact .ghostB1 _ h1 h2 hb1 rfl
          (by simp [beforeReplace, h1, h2, hb1, raisedTarget])
      · by_cases hb2 : page ∈ st.b2
        · simp only [contains, h1, h2, hb1, hb2, decide_true, decide_false, Bool.or_false,
            Bool.false_eq_true, if_false, if_true]
          exact .ghostB2 _ h1 h2 hb1 hb2 rfl
            (by simp [beforeReplace, h1, h2, hb1, hb2, loweredTarget])
        · simp only [contains, h1, h2, hb1, hb2, decide_false, Bool.or_false,
            Bool.false_eq_true, if_false]
          by_cases hfull : frames ≤ resident st
          · have htest : length st.t1 + length st.t2 ≥ frames := by
              unfold resident at hfull
              unfold length
              omega
            rw [if_pos htest]
            exact .evict _ h1 h2 hb1 hb2 hfull rfl
              (by simp [beforeReplace, h1, h2, hb1, hb2, hfull])
          · have htest : ¬ length st.t1 + length st.t2 ≥ frames := by
              unfold resident at hfull
              unfold length
              omega
            rw [if_neg htest]
            exact .fill h1 h2 hb1 hb2 (by omega)
              (by simp [beforeReplace, h1, h2, hb1, hb2, hfull])

/-- The six ways exclude one another, so each of them is what the loop body computes. -/
theorem Request.eq {frames : Nat} {st st' : Arc} {page : Int} (h : Request frames st page st') :
    request frames st page = st' := by
  cases h with
  | hitT1 h1 hcall =>
      simp [request, contains, removeNode, addToFront, h1]
  | hitT2 h1 h2 hcall =>
      simp [request, contains, removeNode, addToFront, h1, h2]
  | ghostB1 mid h1 h2 hb1 hmid hcall =>
      subst hmid
      simp [request, contains, removeNode, addToFront, raisedTarget, h1, h2, hb1]
  | ghostB2 mid h1 h2 hb1 hb2 hmid hcall =>
      subst hmid
      simp [request, contains, removeNode, addToFront, loweredTarget, h1, h2, hb1, hb2]
  | evict mid h1 h2 hb1 hb2 hfull hmid hcall =>
      have htest : (frames : Int) ≤ length st.t1 + length st.t2 := by
        unfold resident at hfull
        unfold length
        omega
      subst hmid
      simp [request, contains, addToFront, h1, h2, hb1, hb2, htest]
  | fill h1 h2 hb1 hb2 hroom hcall =>
      have htest : ¬ (frames : Int) ≤ length st.t1 + length st.t2 := by
        unfold resident at hroom
        unfold length
        omega
      simp [request, contains, addToFront, h1, h2, hb1, hb2, htest]

/-- `replaceARC` selects `T2` although there is no page in it. -/
structure Starved (st : Arc) : Prop where
  empty : st.t2 = []
  selected : replacesT1 st = false

/-- What `replaceARC` does: move the last page of `T1`, move the last page of
`T2`, or push `-1` on `B2`. -/
theorem replaceARC_cases (st : Arc) :
    (∃ t1 old, st.t1 = t1 ++ [old] ∧ replaceARC st = { st with t1 := t1, b1 := old :: st.b1 }) ∨
    (∃ t2 old, st.t2 = t2 ++ [old] ∧ replaceARC st = { st with t2 := t2, b2 := old :: st.b2 }) ∨
    (Starved st ∧ replaceARC st = { st with b2 := -1 :: st.b2 }) := by
  unfold replaceARC
  by_cases htest : replacesT1 st = true
  · rw [if_pos htest]
    have hne : st.t1 ≠ [] := by
      intro hnil
      simp [replacesT1, length, hnil] at htest
    obtain ⟨t1, old, heq⟩ := (List.eq_nil_or_concat' st.t1).resolve_left hne
    rw [heq, removeLRU_concat]
    exact Or.inl ⟨t1, old, rfl, rfl⟩
  · rw [if_neg htest]
    rcases List.eq_nil_or_concat' st.t2 with hnil | ⟨t2, old, heq⟩
    · refine Or.inr (Or.inr ⟨⟨hnil, by simpa using htest⟩, ?_⟩)
      rw [hnil, removeLRU_nil]
      simp [addToFront, ← hnil]
    · rw [heq, removeLRU_concat]
      exact Or.inr (Or.inl ⟨t2, old, rfl, rfl⟩)

end SystemsInC.Ports.ArcCache
