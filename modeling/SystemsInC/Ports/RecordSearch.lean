import SystemsInC.Verified.CString
import SystemsInC.Verified.MachineInt
import SystemsInC.Verified.Sorting

/-!
# Linear and binary search over records

`filtering.c` looks for the records from an age on, once along an array as it is and
once by halving the array after `qsort`.  An access outside the array and an `int`
operation that overflows have no result, so that a result says there were none.

The interval of the binary search keeps `Halving`: what lies before it is too young,
what lies behind it is not, and `result` is the first index behind it.  When the
interval is empty, `result` is where the matching records begin.
-/

namespace SystemsInC.Ports.RecordSearch

open SystemsInC.Verified.CString
open SystemsInC.Verified.MachineInt
open SystemsInC.Verified.Sorting

structure Record where
  id : Int
  name : Bytes
  age : Int
  deriving DecidableEq

/-- `records[i]`. -/
def recordAt (records : List Record) (i : Int) : Option Record :=
  if 0 ≤ i then records[i.toNat]? else none

/-- The loop of `linearsearch`: the records it prints, one a line. -/
def linearLoop (records : List Record) (n minage : Int) : Nat → Int → Option (List Record)
  | 0, _ => none
  | fuel + 1, i =>
      if i < n then do
        let r ← recordAt records i
        let next ← int (i + 1)
        let printed ← linearLoop records n minage fuel next
        if r.age ≥ minage then
          return r :: printed
        else
          return printed
      else
        some []

def linearsearch (records : List Record) (n minage : Int) : Option (List Record) :=
  linearLoop records n minage (n.toNat + 1) 0

def comparebyage (ra rb : Record) : Option Int := int (ra.age - rb.age)

/-- The loop of `binarysearch`. -/
def searchLoop (records : List Record) (minage : Int) : Nat → Int → Int → Int → Option Int
  | 0, _, _, _ => none
  | fuel + 1, left, right, result =>
      if left ≤ right then do
        let width ← int (right - left)
        let mid ← int (left + width.tdiv 2)
        let r ← recordAt records mid
        if r.age ≥ minage then
          let right ← int (mid - 1)
          searchLoop records minage fuel left right mid
        else
          let left ← int (mid + 1)
          searchLoop records minage fuel left right result
      else
        some result

def binarysearch (records : List Record) (n minage : Int) : Option Int :=
  searchLoop records minage (n.toNat + 1) 0 (n - 1) (-1)

variable {records : List Record} {minage left right result : Int}

/-- The array has a length that an `int` can hold. -/
def Indexed (records : List Record) : Prop := (records.length : Int) ≤ 2147483647

theorem recordAt_natCast (k : Nat) : recordAt records k = records[k]? := by
  rw [recordAt, if_pos (by omega), Int.toNat_natCast]

/-! ## Along the array -/

theorem linearLoop_eq (hn : Indexed records) {fuel k : Nat} (hk : k ≤ records.length)
    (hfuel : records.length < k + fuel) :
    linearLoop records records.length minage fuel k =
      some ((records.drop k).filter (fun r => decide (minage ≤ r.age))) := by
  have hmax : (records.length : Int) ≤ 2147483647 := hn
  induction fuel generalizing k with
  | zero => omega
  | succ fuel ih =>
      by_cases hlt : k < records.length
      · have ⟨r, hr⟩ : ∃ r, records[k]? = some r := ⟨_, List.getElem?_eq_getElem hlt⟩
        have hdrop : records.drop k = r :: records.drop (k + 1) := by
          rw [List.drop_eq_getElem?_toList_append, hr]
          rfl
        have hint : int ((k : Int) + 1) = some ((k + 1 : Nat) : Int) := by
          rw [int_eq_some (by unfold IsInt; omega)]
          rfl
        have hrest := ih (k := k + 1) hlt (by omega)
        rw [linearLoop, if_pos (by omega), recordAt_natCast, hr, hdrop]
        simp only [Option.bind_eq_bind, Option.bind_some, hint, hrest, List.filter_cons,
          decide_eq_true_eq, ge_iff_le]
        by_cases hage : minage ≤ r.age
        · rw [if_pos hage, if_pos hage]
          rfl
        · rw [if_neg hage, if_neg hage]
          rfl
      · have hnil : records.drop k = [] := List.drop_eq_nil_iff.mpr (by omega)
        rw [linearLoop, if_neg (by omega), hnil]
        rfl

theorem linearsearch_eq (hn : Indexed records) (minage : Int) :
    linearsearch records records.length minage =
      some (records.filter (fun r => decide (minage ≤ r.age))) := by
  rw [linearsearch, Int.toNat_natCast]
  exact linearLoop_eq hn (Nat.zero_le _) (by omega)

/-! ## Halving -/

/-- What the interval from `left` to `right` leaves out is settled. -/
structure Halving (records : List Record) (minage left right result : Int) : Prop where
  left_nonneg : 0 ≤ left
  right_lt : right < records.length
  meet : left ≤ right + 1
  below : ∀ (i : Nat) r, (i : Int) < left → records[i]? = some r → ¬ minage ≤ r.age
  above : ∀ (i : Nat) r, right < i → records[i]? = some r → minage ≤ r.age
  found : result = if right + 1 < records.length then right + 1 else -1

theorem Halving.init (records : List Record) (minage : Int) :
    Halving records minage 0 (records.length - 1) (-1) where
  left_nonneg := Int.le_refl 0
  right_lt := by omega
  meet := by omega
  below i _ hi := by omega
  above i r hi hr := by
    have hlt := (List.getElem?_eq_some_iff.mp hr).1
    omega
  found := by rw [if_neg (by omega)]

/-- One turn of the loop looks at a record of the interval and goes on with the part before or
behind it. -/
theorem searchLoop_step (h : Halving records minage left right result) (hn : Indexed records)
    (hle : left ≤ right) (fuel : Nat) :
    ∃ (k : Nat) (r : Record), left ≤ k ∧ k ≤ right ∧ records[k]? = some r ∧
      searchLoop records minage (fuel + 1) left right result =
        if r.age ≥ minage then searchLoop records minage fuel left (k - 1) k
        else searchLoop records minage fuel (k + 1) right result := by
  have hmax : (records.length : Int) ≤ 2147483647 := hn
  have hleft := h.left_nonneg
  have hright := h.right_lt
  have hhalf : (right - left).tdiv 2 = (right - left) / 2 :=
    Int.tdiv_eq_ediv_of_nonneg (by omega)
  have ⟨k, hk⟩ : ∃ k : Nat, (k : Int) = left + (right - left).tdiv 2 :=
    ⟨(left + (right - left).tdiv 2).toNat, by omega⟩
  have hlow : left ≤ k := by omega
  have hhigh : (k : Int) ≤ right := by omega
  have hlt : k < records.length := by omega
  have ⟨r, hr⟩ : ∃ r, records[k]? = some r := ⟨_, List.getElem?_eq_getElem hlt⟩
  have hwidth : int (right - left) = some (right - left) :=
    int_eq_some (by unfold IsInt; omega)
  have hmid : int (left + (right - left).tdiv 2) = some (k : Int) := by
    rw [← hk]
    exact int_eq_some (by unfold IsInt; omega)
  have hdown : int ((k : Int) - 1) = some ((k : Int) - 1) :=
    int_eq_some (by unfold IsInt; omega)
  have hup : int ((k : Int) + 1) = some ((k : Int) + 1) :=
    int_eq_some (by unfold IsInt; omega)
  refine ⟨k, r, hlow, hhigh, hr, ?_⟩
  rw [searchLoop, if_pos hle, hwidth]
  simp only [Option.bind_eq_bind, Option.bind_some, hmid, recordAt_natCast, hr, hdown, hup]

variable (hrising : Rising (fun r : Record => minage ≤ r.age) records)

include hrising

/-- The record is old enough: the part before it is left. -/
theorem Halving.before {k : Nat} {r : Record} (h : Halving records minage left right result)
    (hlow : left ≤ k) (hhigh : k ≤ right) (hr : records[k]? = some r) (hage : minage ≤ r.age) :
    Halving records minage left (k - 1) k := by
  have hright := h.right_lt
  refine ⟨h.left_nonneg, by omega, by omega, h.below, fun i r' hi hr' => ?_, ?_⟩
  · have hki : k ≤ i := by omega
    exact hrising.of_le hki hr hr' hage
  · rw [if_pos (by omega)]
    omega

/-- The record is too young: the part behind it is left. -/
theorem Halving.behind {k : Nat} {r : Record} (h : Halving records minage left right result)
    (hhigh : k ≤ right) (hr : records[k]? = some r) (hage : ¬ minage ≤ r.age) :
    Halving records minage (k + 1) right result := by
  refine ⟨by omega, h.right_lt, by omega, fun i r' hi hr' hage' => ?_, h.above, h.found⟩
  have hik : i ≤ k := by omega
  exact hage (hrising.of_le hik hr' hr hage')

/-- The loop ends with the place where the records begin to be old enough. -/
theorem searchLoop_spec (hn : Indexed records) {fuel : Nat}
    (h : Halving records minage left right result) (hfuel : right + 1 < left + fuel) :
    ∃ k, BeginsAt (fun r : Record => minage ≤ r.age) records k ∧
      searchLoop records minage fuel left right result =
        some (if k < records.length then (k : Int) else -1) := by
  induction fuel generalizing left right result with
  | zero =>
      have hmeet := h.meet
      omega
  | succ fuel ih =>
      by_cases hle : left ≤ right
      · have ⟨k, r, hlow, hhigh, hr, hstep⟩ := searchLoop_step h hn hle fuel
        rw [hstep]
        by_cases hage : minage ≤ r.age
        · rw [if_pos hage]
          exact ih (h.before hrising hlow hhigh hr hage) (by omega)
        · rw [if_neg hage]
          exact ih (h.behind hrising hhigh hr hage) (by omega)
      · have hmeet := h.meet
        have hright := h.right_lt
        have hleft := h.left_nonneg
        have ⟨k, hk⟩ : ∃ k : Nat, (k : Int) = left := ⟨left.toNat, by omega⟩
        refine ⟨k, ⟨by omega, fun i r hi hr => h.below i r (by omega) hr,
          fun i r hi hr => h.above i r (by omega) hr⟩, ?_⟩
        rw [searchLoop, if_neg hle, h.found]
        have heq : right + 1 = k := by omega
        rw [heq]
        by_cases hlt : k < records.length
        · rw [if_pos (by omega), if_pos hlt]
        · rw [if_neg (by omega), if_neg hlt]

omit hrising

/-! ## After sorting -/

/-- Ages as `generaterecords` makes them. -/
def AgesBelow100 (records : List Record) : Prop := ∀ r ∈ records, 0 ≤ r.age ∧ r.age ≤ 99

theorem comparebyage_eq {ra rb : Record} (ha : 0 ≤ ra.age ∧ ra.age ≤ 99)
    (hb : 0 ≤ rb.age ∧ rb.age ≤ 99) : comparebyage ra rb = some (ra.age - rb.age) :=
  int_eq_some (by unfold IsInt; omega)

theorem before_iff {ra rb : Record} (ha : 0 ≤ ra.age ∧ ra.age ≤ 99)
    (hb : 0 ≤ rb.age ∧ rb.age ≤ 99) : Before comparebyage ra rb ↔ ra.age ≤ rb.age := by
  have hcmp := comparebyage_eq ha hb
  constructor
  · intro ⟨c, hc, hle⟩
    have heq : ra.age - rb.age = c := Option.some.inj (hcmp.symm.trans hc)
    omega
  · intro hle
    exact ⟨ra.age - rb.age, hcmp, by omega⟩

/-- The subtraction neither overflows nor disagrees with itself. -/
theorem comparebyage_consistent (hages : AgesBelow100 records) :
    Consistent comparebyage records where
  opposite a ha b hb :=
    ⟨a.age - b.age, b.age - a.age, comparebyage_eq (hages a ha) (hages b hb),
      comparebyage_eq (hages b hb) (hages a ha), by omega⟩
  trans a ha b hb c hc hab hbc := by
    rw [before_iff (hages a ha) (hages b hb)] at hab
    rw [before_iff (hages b hb) (hages c hc)] at hbc
    rw [before_iff (hages a ha) (hages c hc)]
    omega

theorem rising_of_ordered (hages : AgesBelow100 records)
    (hordered : records.Pairwise (Before comparebyage)) (minage : Int) :
    Rising (fun r : Record => minage ≤ r.age) records := by
  refine hordered.imp_of_mem (fun {a b} ha hb hab hmin => ?_)
  rw [before_iff (hages a ha) (hages b hb)] at hab
  omega

/-- `binarysearch` answers for the sorted array what `linearsearch` prints for `records`: -1
for no record, else the first index of a matching one, with the matching ones behind it. -/
def Agrees (sorted printed : List Record) (minage idx : Int) : Prop :=
  (idx = -1 ↔ printed = []) ∧
    (idx ≠ -1 → ∃ k : Nat, idx = k ∧ (∃ r, sorted[k]? = some r ∧ minage ≤ r.age) ∧
      (∀ (i : Nat) r, i < k → sorted[i]? = some r → r.age < minage) ∧
        (sorted.drop k).Perm printed)

theorem agrees_of_beginsAt {sorted printed : List Record} {k : Nat}
    (hk : BeginsAt (fun r : Record => minage ≤ r.age) sorted k)
    (hperm : (sorted.drop k).Perm printed) :
    Agrees sorted printed minage (if k < sorted.length then (k : Int) else -1) := by
  by_cases hlt : k < sorted.length
  · have ⟨r, hr⟩ : ∃ r, sorted[k]? = some r := ⟨_, List.getElem?_eq_getElem hlt⟩
    have hne : printed ≠ [] := by
      intro hnil
      rw [hnil, List.perm_nil, List.drop_eq_nil_iff] at hperm
      omega
    rw [if_pos hlt]
    refine ⟨⟨fun h => by omega, fun h => absurd h hne⟩, fun _ => ⟨k, rfl, ?_, ?_, hperm⟩⟩
    · exact ⟨r, hr, hk.behind k r (Nat.le_refl k) hr⟩
    · intro i r' hi hr'
      have hnot := hk.before i r' hi hr'
      omega
  · have hnil : printed = [] := by
      rw [List.drop_eq_nil_iff.mpr (by omega)] at hperm
      exact hperm.nil_eq.symm
    rw [if_neg hlt]
    exact ⟨⟨fun _ => hnil, fun _ => rfl⟩, fun h => absurd rfl h⟩

/-- **Binary search agrees with linear search.**  For ages from 0 to 99, whatever `qsort` sorts
with. -/
theorem binarysearch_agrees
    (qsort : (Record → Record → Option Int) → List Record → Option (List Record))
    (hqsort : Sorts qsort) (records : List Record) (hn : Indexed records)
    (hages : AgesBelow100 records) (minage : Int) :
    ∃ sorted printed idx, qsort comparebyage records = some sorted ∧
      linearsearch records records.length minage = some printed ∧
      binarysearch sorted records.length minage = some idx ∧
      Agrees sorted printed minage idx := by
  have ⟨sorted, hsorted, hperm, hordered⟩ :=
    hqsort comparebyage records (comparebyage_consistent hages)
  have hlen := hperm.length_eq
  have hn' : Indexed sorted := by
    unfold Indexed at hn ⊢
    omega
  have hages' : AgesBelow100 sorted := fun r hr => hages r (hperm.mem_iff.mp hr)
  have hrising := rising_of_ordered hages' hordered minage
  have hfuel : (sorted.length : Int) - 1 + 1 < 0 + (sorted.length + 1 : Nat) := by omega
  have ⟨k, hk, hsearch⟩ := searchLoop_spec hrising hn' (.init sorted minage) hfuel
  have hbinary : binarysearch sorted records.length minage =
      some (if k < sorted.length then (k : Int) else -1) := by
    rw [binarysearch, ← hlen, Int.toNat_natCast]
    exact hsearch
  have hmatching := hperm.filter (fun r => decide (minage ≤ r.age))
  rw [hk.filter_eq_drop] at hmatching
  exact ⟨sorted, _, _, hsorted, linearsearch_eq hn minage, hbinary,
    agrees_of_beginsAt hk hmatching⟩

/-- Three records, two of one age, none of them in place. -/
theorem binarysearch_agrees_threeRecords :
    ∃ sorted printed idx,
      mergingQsort comparebyage [⟨1, [97], 70⟩, ⟨2, [98], 20⟩, ⟨3, [99], 70⟩] = some sorted ∧
      linearsearch [⟨1, [97], 70⟩, ⟨2, [98], 20⟩, ⟨3, [99], 70⟩] 3 50 = some printed ∧
      binarysearch sorted 3 50 = some idx ∧ Agrees sorted printed 50 idx :=
  binarysearch_agrees mergingQsort sorts_mergingQsort
    [⟨1, [97], 70⟩, ⟨2, [98], 20⟩, ⟨3, [99], 70⟩] (by unfold Indexed; decide)
    (by unfold AgesBelow100; decide) 50

end SystemsInC.Ports.RecordSearch
