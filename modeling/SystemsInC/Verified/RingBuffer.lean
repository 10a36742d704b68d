import Mathlib.Data.List.Basic

/-!
# A ring of slots as a first-in first-out queue

The slots of a ring hold `count` items, one after another from `outPos` on and
round the end of the list; the next item goes to `inPos`.  `IsRing` relates such
a ring to the list of its items.  Writing the slot at `inPos` appends an item,
moving `outPos` on drops the first one.
-/

namespace SystemsInC.Verified.RingBuffer

variable {α : Type*} {slots items : List α} {inPos outPos count : Nat}

/-- The slot that `k` steps round the ring from `pos` lead to. -/
def slotAt (slots : List α) (pos k : Nat) : Nat := (pos + k) % slots.length

/-- The contents of `count` slots from `pos` on. -/
def readFrom (slots : List α) (pos : Nat) : Nat → List α
  | 0 => []
  | count + 1 => slots[pos]?.toList ++ readFrom slots (slotAt slots pos 1) count

/-- The slot is one of the `count` slots from `outPos` on. -/
def Occupied (slots : List α) (outPos count slot : Nat) : Prop :=
  ∃ k < count, slot = slotAt slots outPos k

/-- The ring holds the items, the oldest one first. -/
structure IsRing (slots : List α) (inPos outPos count : Nat) (items : List α) : Prop where
  inPos_eq : inPos = slotAt slots outPos count
  outPos_lt : outPos < slots.length
  count_le : count ≤ slots.length
  items_eq : readFrom slots outPos count = items

/-! ## Positions -/

theorem slotAt_lt (hpos : outPos < slots.length) (k : Nat) :
    slotAt slots outPos k < slots.length :=
  Nat.mod_lt _ (Nat.zero_lt_of_lt hpos)

theorem slotAt_zero (hpos : outPos < slots.length) : slotAt slots outPos 0 = outPos :=
  Nat.mod_eq_of_lt hpos

/-- One step and then `k` more. -/
theorem slotAt_slotAt_one (pos k : Nat) :
    slotAt slots (slotAt slots pos 1) k = slotAt slots pos (k + 1) := by
  show ((pos + 1) % slots.length + k) % slots.length = (pos + (k + 1)) % slots.length
  rw [Nat.mod_add_mod]
  congr 1
  omega

/-- `k` steps and then one more. -/
theorem slotAt_one_slotAt (pos k : Nat) :
    slotAt slots (slotAt slots pos k) 1 = slotAt slots pos (k + 1) :=
  Nat.mod_add_mod _ _ _

@[simp] theorem slotAt_set (i : Nat) (x : α) (pos k : Nat) :
    slotAt (slots.set i x) pos k = slotAt slots pos k := by
  simp [slotAt]

/-- Two numbers of steps below one turn lead to two slots. -/
theorem slotAt_ne {j k : Nat} (hjk : j < k) (hk : k < slots.length) :
    slotAt slots outPos j ≠ slotAt slots outPos k := by
  intro heq
  have hmod : (outPos + k) % slots.length = (outPos + j) % slots.length := heq.symm
  have hdvd := Nat.dvd_of_mod_eq_zero (Nat.sub_mod_eq_zero_of_mod_eq hmod)
  have hle := Nat.le_of_dvd (by omega) hdvd
  omega

/-- A ring that is not full has room at `inPos`. -/
theorem IsRing.not_occupied (h : IsRing slots inPos outPos count items)
    (hroom : count ≠ slots.length) : ¬ Occupied slots outPos count inPos := by
  rintro ⟨k, hk, heq⟩
  have hlt : count < slots.length := Nat.lt_of_le_of_ne h.count_le hroom
  exact slotAt_ne hk hlt (heq.symm.trans h.inPos_eq)

theorem IsRing.inPos_lt (h : IsRing slots inPos outPos count items) : inPos < slots.length := by
  rw [h.inPos_eq]
  exact slotAt_lt h.outPos_lt count

/-! ## The items -/

/-- A write outside the slots that are read changes nothing. -/
theorem readFrom_set {pos i : Nat} (x : α) (count : Nat)
    (hne : ∀ k < count, i ≠ slotAt slots pos k) (hpos : pos < slots.length) :
    readFrom (slots.set i x) pos count = readFrom slots pos count := by
  induction count generalizing pos with
  | zero => rfl
  | succ count ih =>
      have hhead : i ≠ pos := by
        have hzero := hne 0 (Nat.succ_pos count)
        rwa [slotAt_zero hpos] at hzero
      have htail : ∀ k < count, i ≠ slotAt slots (slotAt slots pos 1) k := by
        intro k hk
        rw [slotAt_slotAt_one]
        exact hne (k + 1) (by omega)
      simp only [readFrom, slotAt_set]
      rw [List.getElem?_set_ne hhead, ih htail (slotAt_lt hpos 1)]

/-- The last slot that is read gives the last item. -/
theorem readFrom_succ {pos : Nat} (count : Nat) (hpos : pos < slots.length) :
    readFrom slots pos (count + 1) =
      readFrom slots pos count ++ slots[slotAt slots pos count]?.toList := by
  induction count generalizing pos with
  | zero =>
      show slots[pos]?.toList ++ [] = [] ++ slots[slotAt slots pos 0]?.toList
      rw [slotAt_zero hpos, List.append_nil, List.nil_append]
  | succ count ih =>
      have hrest := ih (slotAt_lt hpos 1)
      rw [slotAt_slotAt_one] at hrest
      calc readFrom slots pos (count + 1 + 1)
          = slots[pos]?.toList ++ readFrom slots (slotAt slots pos 1) (count + 1) := rfl
        _ = slots[pos]?.toList ++ (readFrom slots (slotAt slots pos 1) count ++
              slots[slotAt slots pos (count + 1)]?.toList) := by rw [hrest]
        _ = readFrom slots pos (count + 1) ++
              slots[slotAt slots pos (count + 1)]?.toList := by
            rw [← List.append_assoc]
            rfl

/-- The items by their distance from the first one. -/
theorem readFrom_eq_map {pos : Nat} (d : α) (count : Nat) (hpos : pos < slots.length) :
    readFrom slots pos count =
      (List.range count).map (fun k => slots.getD (slotAt slots pos k) d) := by
  induction count with
  | zero => rfl
  | succ count ih =>
      have hlast : slots[slotAt slots pos count]?.toList =
          [slots.getD (slotAt slots pos count) d] := by
        rw [List.getD_eq_getElem?_getD, List.getElem?_eq_getElem (slotAt_lt hpos count)]
        rfl
      rw [readFrom_succ count hpos, ih, hlast, List.range_succ, List.map_append]
      rfl

/-! ## The operations -/

/-- A ring without items. -/
theorem IsRing.empty (hsize : 0 < slots.length) : IsRing slots 0 0 0 [] :=
  { inPos_eq := (slotAt_zero hsize).symm
    outPos_lt := hsize
    count_le := Nat.zero_le _
    items_eq := rfl }

/-- Write the slot at `inPos` of a ring that is not full. -/
theorem IsRing.put (h : IsRing slots inPos outPos count items) (hroom : count ≠ slots.length)
    (x : α) :
    IsRing (slots.set inPos x) (slotAt slots inPos 1) outPos (count + 1) (items ++ [x]) where
  inPos_eq := by
    rw [slotAt_set, h.inPos_eq]
    exact slotAt_one_slotAt outPos count
  outPos_lt := by
    rw [List.length_set]
    exact h.outPos_lt
  count_le := by
    have hle := h.count_le
    rw [List.length_set]
    omega
  items_eq := by
    have hpos : outPos < (slots.set inPos x).length := by
      rw [List.length_set]
      exact h.outPos_lt
    have hfree : ∀ k < count, inPos ≠ slotAt slots outPos k :=
      fun k hk heq => h.not_occupied hroom ⟨k, hk, heq⟩
    rw [readFrom_succ count hpos, readFrom_set x count hfree h.outPos_lt, h.items_eq,
      slotAt_set, ← h.inPos_eq, List.getElem?_set_self h.inPos_lt]
    rfl

/-- Move on from the slot at `outPos`, which holds the oldest item. -/
theorem IsRing.take (h : IsRing slots inPos outPos count items) (hsome : count ≠ 0) :
    ∃ x rest, items = x :: rest ∧ slots[outPos]? = some x ∧
      IsRing slots inPos (slotAt slots outPos 1) (count - 1) rest := by
  cases count with
  | zero => exact absurd rfl hsome
  | succ count =>
      have ⟨x, hget⟩ : ∃ x, slots[outPos]? = some x :=
        ⟨_, List.getElem?_eq_getElem h.outPos_lt⟩
      refine ⟨x, readFrom slots (slotAt slots outPos 1) count, ?_, hget, ?_⟩
      · rw [← h.items_eq]
        simp only [readFrom, hget, Option.toList_some, List.singleton_append]
      · exact
          { inPos_eq := by
              rw [Nat.add_sub_cancel, slotAt_slotAt_one]
              exact h.inPos_eq
            outPos_lt := slotAt_lt h.outPos_lt 1
            count_le := by
              have hle := h.count_le
              omega
            items_eq := rfl }

/-! ## Looking round the ring -/

/-- A whole turn leads back. -/
theorem slotAt_length {pos : Nat} (hpos : pos < slots.length) :
    slotAt slots pos slots.length = pos := by
  rw [slotAt, Nat.add_mod_right, Nat.mod_eq_of_lt hpos]

/-- Less than a turn leads to every slot. -/
theorem exists_slotAt {pos i : Nat} (hpos : pos < slots.length) (hi : i < slots.length) :
    ∃ k < slots.length, slotAt slots pos k = i := by
  by_cases hle : pos ≤ i
  · refine ⟨i - pos, by omega, ?_⟩
    rw [slotAt, Nat.add_sub_cancel' hle, Nat.mod_eq_of_lt hi]
  · refine ⟨i + slots.length - pos, by omega, ?_⟩
    have hsum : pos + (i + slots.length - pos) = i + slots.length := by omega
    rw [slotAt, hsum, Nat.add_mod_right, Nat.mod_eq_of_lt hi]

/-- Among the first `n` slots there is a first one with a property, or none has it. -/
theorem exists_first_slotAt (P : α → Prop) {pos : Nat} (hpos : pos < slots.length) (n : Nat) :
    (∃ k < n, (∃ x, slots[slotAt slots pos k]? = some x ∧ P x) ∧
        ∀ i < k, ∃ x, slots[slotAt slots pos i]? = some x ∧ ¬ P x) ∨
      ∀ i < n, ∃ x, slots[slotAt slots pos i]? = some x ∧ ¬ P x := by
  induction n with
  | zero => exact .inr (fun i hi => absurd hi (Nat.not_lt_zero i))
  | succ n ih =>
      rcases ih with ⟨k, hk, hfirst⟩ | hnone
      · exact .inl ⟨k, Nat.lt_succ_of_lt hk, hfirst⟩
      · have ⟨x, hget⟩ : ∃ x, slots[slotAt slots pos n]? = some x :=
          ⟨_, List.getElem?_eq_getElem (slotAt_lt hpos n)⟩
        by_cases hx : P x
        · exact .inl ⟨n, Nat.lt_succ_self n, ⟨x, hget, hx⟩, hnone⟩
        · right
          intro i hi
          rcases Nat.lt_succ_iff_lt_or_eq.mp hi with hi | rfl
          · exact hnone i hi
          · exact ⟨x, hget, hx⟩

end SystemsInC.Verified.RingBuffer
