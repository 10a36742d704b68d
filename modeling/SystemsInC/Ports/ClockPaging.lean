import SystemsInC.Verified.RingBuffer
import SystemsInC.Ports.LruPaging

/-!
# The Clock page simulator

`simulateClock` of `page_cache_simulator.c`: an array of pages, an array of
reference bits and a hand that goes round them.  The loop that looks for a victim
has no bound in the source; here it has fuel, and `replace_rule` shows that it
ends once the hand has gone round, since it clears the bits that it passes.  The
frames fill up in the order of the hand before the first page is replaced.
-/

namespace SystemsInC.Ports.ClockPaging

open SystemsInC.Verified.RingBuffer
open SystemsInC.Ports.LruPaging (countUp countUp_of_lt findPage findPage_eq_some findPage_eq_none)

/-! ## The simulator -/

structure Clock where
  buffer : List Int
  refBit : List Nat
  pointer : Nat
  hits : Option Int
  misses : Option Int
  deriving DecidableEq, Repr

def Clock.init (frames : Nat) : Clock :=
  { buffer := List.replicate frames (-1)
    refBit := List.replicate frames 0
    pointer := 0
    hits := some 0
    misses := some 0 }

/-- The `else` branch of the loop: clear the bit and move on. -/
def advance (frames : Nat) (st : Clock) : Clock :=
  { st with
    refBit := st.refBit.set st.pointer 0
    pointer := (st.pointer + 1) % frames }

/-- The loop `while (1)`: at most `fuel` rounds. -/
def replace (frames : Nat) : Nat → Clock → Int → Option Clock
  | 0, _, _ => none
  | fuel + 1, st, page =>
      match st.refBit[st.pointer]? with
      | none => none
      | some bit =>
          if bit = 0 then
            some { st with
              buffer := st.buffer.set st.pointer page
              refBit := st.refBit.set st.pointer 1
              pointer := (st.pointer + 1) % frames }
          else
            replace frames fuel (advance frames st) page

/-- The body of the request loop. -/
def request (frames fuel : Nat) (st : Clock) (page : Int) : Option Clock :=
  match findPage st.buffer page with
  | some j =>
      some { st with
        refBit := st.refBit.set j 1
        hits := countUp st.hits }
  | none => replace frames fuel { st with misses := countUp st.misses } page

/-- The loop over a reference string, with `frames + 1` rounds for each victim. -/
def simulateClock (frames : Nat) (pages : List Int) : Option Clock :=
  pages.foldlM (request frames (frames + 1)) (Clock.init frames)

theorem simulateClock_concat {frames : Nat} {past : List Int} {page : Int} {st : Clock}
    (h : simulateClock frames past = some st) :
    simulateClock frames (past ++ [page]) = request frames (frames + 1) st page := by
  unfold simulateClock at h ⊢
  rw [List.foldlM_append, h]
  simp

/-- The pages in the frames. -/
def resident (st : Clock) : List Int := st.buffer.filter (· ≠ -1)

theorem mem_resident {st : Clock} {page : Int} :
    page ∈ resident st ↔ page ∈ st.buffer ∧ page ≠ -1 := by
  rw [resident, List.mem_filter, decide_eq_true_iff]

/-- The frames that the hand passes in the loop. -/
def handPasses (frames : Nat) : Nat → Clock → List Nat
  | 0, _ => []
  | fuel + 1, st =>
      match st.refBit[st.pointer]? with
      | none => []
      | some bit =>
          if bit = 0 then [st.pointer]
          else st.pointer :: handPasses frames fuel (advance frames st)

/-- The frames that the hand passes during a request. -/
def passed (frames : Nat) (st : Clock) (page : Int) : List Nat :=
  if page ∈ st.buffer then [] else handPasses frames (frames + 1) st

/-! ## One turn of the hand -/

/-- The bits after the hand has cleared `k` of them. -/
def swept : List Nat → Nat → Nat → List Nat
  | bits, _, 0 => bits
  | bits, pos, k + 1 => swept (bits.set pos 0) (slotAt bits pos 1) k

@[simp] theorem length_swept (bits : List Nat) (pos k : Nat) :
    (swept bits pos k).length = bits.length := by
  induction k generalizing bits pos with
  | zero => rfl
  | succ k ih => rw [swept, ih, List.length_set]

theorem mem_swept {bits : List Nat} {pos k b : Nat} (h : b ∈ swept bits pos k) :
    b = 0 ∨ b ∈ bits := by
  induction k generalizing bits pos with
  | zero => exact .inr h
  | succ k ih =>
      rcases ih h with hzero | hmem
      · exact .inl hzero
      · exact (List.mem_or_eq_of_mem_set hmem).symm

/-- A bit that the hand does not pass stays. -/
theorem getElem?_swept {bits : List Nat} {pos k j : Nat} (hpos : pos < bits.length)
    (hj : ∀ i < k, slotAt bits pos i ≠ j) : (swept bits pos k)[j]? = bits[j]? := by
  induction k generalizing bits pos with
  | zero => rfl
  | succ k ih =>
      have hhead : pos ≠ j := by
        have hzero := hj 0 (Nat.succ_pos k)
        rwa [slotAt_zero hpos] at hzero
      have hlt : slotAt bits pos 1 < (bits.set pos 0).length := by
        rw [List.length_set]
        exact slotAt_lt hpos 1
      rw [swept, ih hlt, List.getElem?_set_ne hhead]
      intro i hi
      rw [slotAt_set, slotAt_slotAt_one]
      exact hj (i + 1) (by omega)

/-- The hand stands before `k` frames with a set bit; then comes one whose bit is
clear, or the turn is complete. -/
structure Sweep (frames : Nat) (st : Clock) (k : Nat) : Prop where
  pointer : st.pointer < frames
  bits : st.refBit.length = frames
  ones : ∀ i < k, st.refBit[slotAt st.refBit st.pointer i]? = some 1
  stop : (k < frames ∧ st.refBit[slotAt st.refBit st.pointer k]? = some 0) ∨ k = frames

/-- The frame at which the hand stops. -/
def stopAt (st : Clock) (k : Nat) : Nat := slotAt st.refBit st.pointer k

theorem Sweep.first {frames k : Nat} {st : Clock} (h : Sweep frames st k) :
    st.refBit[st.pointer]? = st.refBit[slotAt st.refBit st.pointer 0]? := by
  rw [slotAt_zero (by rw [h.bits]; exact h.pointer)]

theorem Sweep.advance_pointer {frames k : Nat} {st : Clock} (h : Sweep frames st k) :
    (st.pointer + 1) % frames = slotAt st.refBit st.pointer 1 := by
  rw [slotAt, h.bits]

/-- Moving on, the hand has one frame less before it. -/
theorem Sweep.slotAt_advance {frames k : Nat} {st : Clock} (h : Sweep frames st k) (i : Nat) :
    slotAt (advance frames st).refBit (advance frames st).pointer i =
      slotAt st.refBit st.pointer (i + 1) := by
  show slotAt (st.refBit.set st.pointer 0) ((st.pointer + 1) % frames) i = _
  rw [slotAt_set, h.advance_pointer, slotAt_slotAt_one]

/-- Passing a frame leaves the rest of the sweep; after a turn the hand finds the bit
that it cleared first. -/
theorem Sweep.rest {frames k : Nat} {st : Clock} (h : Sweep frames st (k + 1)) :
    Sweep frames (advance frames st) k := by
  have hlt : st.pointer < st.refBit.length := by rw [h.bits]; exact h.pointer
  have hbits : (advance frames st).refBit = st.refBit.set st.pointer 0 := rfl
  have hapart : ∀ i, i + 1 < frames → st.pointer ≠ slotAt st.refBit st.pointer (i + 1) := by
    intro i hi
    have hne : slotAt st.refBit st.pointer 0 ≠ slotAt st.refBit st.pointer (i + 1) :=
      slotAt_ne (Nat.succ_pos i) (by rw [h.bits]; exact hi)
    rwa [slotAt_zero hlt] at hne
  have hkle : k + 1 ≤ frames := by
    rcases h.stop with ⟨hk, -⟩ | hk <;> omega
  refine
    { pointer := Nat.mod_lt _ (Nat.zero_lt_of_lt h.pointer)
      bits := by rw [hbits, List.length_set, h.bits]
      ones := fun i hi => ?_
      stop := .inl ⟨by omega, ?_⟩ }
  · rw [h.slotAt_advance, hbits, List.getElem?_set_ne (hapart i (by omega))]
    exact h.ones (i + 1) (by omega)
  · rw [h.slotAt_advance, hbits]
    rcases h.stop with ⟨hk, hzero⟩ | hk
    · rw [List.getElem?_set_ne (hapart k hk)]
      exact hzero
    · have hturn : slotAt st.refBit st.pointer (k + 1) = st.pointer := by
        rw [hk, ← h.bits, slotAt_length hlt]
      rw [hturn, List.getElem?_set_self hlt]

/-- **The loop ends** after `k + 1` rounds with the page in the frame where the hand
stops. -/
theorem replace_rule {frames : Nat} (k : Nat) :
    ∀ {st : Clock}, Sweep frames st k → (page : Int) → ∀ fuel, k + 1 ≤ fuel →
      replace frames fuel st page = some { st with
        buffer := st.buffer.set (stopAt st k) page
        refBit := (swept st.refBit st.pointer k).set (stopAt st k) 1
        pointer := slotAt st.refBit st.pointer (k + 1) } := by
  induction k with
  | zero =>
      intro st h page fuel hfuel
      obtain ⟨fuel, rfl⟩ : ∃ n, fuel = n + 1 := ⟨fuel - 1, by omega⟩
      have hzero : st.refBit[st.pointer]? = some 0 := by
        rcases h.stop with ⟨-, hzero⟩ | hk
        · rw [h.first]
          exact hzero
        · have hpos := h.pointer
          omega
      have hstop : stopAt st 0 = st.pointer := slotAt_zero (by rw [h.bits]; exact h.pointer)
      rw [replace, hzero]
      simp only [if_true, hstop, swept, h.advance_pointer, Nat.zero_add]
  | succ k ih =>
      intro st h page fuel hfuel
      obtain ⟨fuel, rfl⟩ : ∃ n, fuel = n + 1 := ⟨fuel - 1, by omega⟩
      have hone : st.refBit[st.pointer]? = some 1 := by
        rw [h.first]
        exact h.ones 0 (Nat.succ_pos k)
      have hrun := ih h.rest page fuel (by omega)
      rw [stopAt, h.slotAt_advance, h.slotAt_advance] at hrun
      rw [replace, hone]
      simp only [Nat.one_ne_zero, if_false]
      rw [hrun, swept, ← h.advance_pointer]
      rfl

/-- The hand passes the frames before the one where it stops, and that one. -/
theorem mem_handPasses {frames : Nat} (k : Nat) :
    ∀ {st : Clock}, Sweep frames st k → ∀ fuel, k + 1 ≤ fuel → ∀ i ≤ k,
      slotAt st.refBit st.pointer i ∈ handPasses frames fuel st := by
  induction k with
  | zero =>
      intro st h fuel hfuel i hi
      obtain ⟨fuel, rfl⟩ : ∃ n, fuel = n + 1 := ⟨fuel - 1, by omega⟩
      have hlt : st.pointer < st.refBit.length := by rw [h.bits]; exact h.pointer
      rw [Nat.le_zero.mp hi, slotAt_zero hlt, handPasses, List.getElem?_eq_getElem hlt]
      dsimp only
      split <;> exact List.mem_cons_self
  | succ k ih =>
      intro st h fuel hfuel i hi
      obtain ⟨fuel, rfl⟩ : ∃ n, fuel = n + 1 := ⟨fuel - 1, by omega⟩
      have hone : st.refBit[st.pointer]? = some 1 := by
        rw [h.first]
        exact h.ones 0 (Nat.succ_pos k)
      rw [handPasses, hone]
      simp only [Nat.one_ne_zero, if_false, List.mem_cons]
      cases i with
      | zero => exact .inl (slotAt_zero (by rw [h.bits]; exact h.pointer))
      | succ i =>
          right
          have hmem := ih h.rest fuel (by omega) i (by omega)
          rw [h.slotAt_advance] at hmem
          exact hmem

/-! ## Between two requests -/

/-- What holds between two requests.  While a frame is empty, the empty frames are
those from the hand on, and their bits are clear. -/
structure Turning (frames : Nat) (st : Clock) : Prop where
  buffer : st.buffer.length = frames
  bits : st.refBit.length = frames
  binary : ∀ bit ∈ st.refBit, bit = 0 ∨ bit = 1
  pointer : st.pointer < frames
  distinct : (resident st).Nodup
  filling : -1 ∈ st.buffer → ∀ j < frames,
    (j < st.pointer → st.buffer[j]? ≠ some (-1)) ∧
    (st.pointer ≤ j → st.buffer[j]? = some (-1) ∧ st.refBit[j]? = some 0)

theorem turning_init {frames : Nat} (hframes : 1 ≤ frames) : Turning frames (Clock.init frames) :=
  { buffer := List.length_replicate
    bits := List.length_replicate
    binary := fun _ hbit => .inl (List.eq_of_mem_replicate hbit)
    pointer := hframes
    distinct := by simp [resident, Clock.init]
    filling := by
      intro _ j hj
      refine ⟨fun hlt => absurd hlt (Nat.not_lt_zero j), fun _ => ?_⟩
      simp [Clock.init, hj] }

theorem Turning.exists_sweep {frames : Nat} {st : Clock} (h : Turning frames st) :
    ∃ k ≤ frames, Sweep frames st k := by
  have hpos : st.pointer < st.refBit.length := by rw [h.bits]; exact h.pointer
  have hone : ∀ i x, st.refBit[slotAt st.refBit st.pointer i]? = some x → ¬ x = 0 →
      st.refBit[slotAt st.refBit st.pointer i]? = some 1 := by
    intro i x hx hne
    rw [hx, (h.binary x (List.mem_of_getElem? hx)).resolve_left hne]
  rcases exists_first_slotAt (· = 0) hpos frames with ⟨k, hk, ⟨x, hx, hzero⟩, hfirst⟩ | hnone
  · refine ⟨k, Nat.le_of_lt hk,
      { pointer := h.pointer
        bits := h.bits
        ones := fun i hi => ?_
        stop := .inl ⟨hk, hzero ▸ hx⟩ }⟩
    obtain ⟨y, hy, hne⟩ := hfirst i hi
    exact hone i y hy hne
  · refine ⟨frames, Nat.le_refl frames,
      { pointer := h.pointer
        bits := h.bits
        ones := fun i hi => ?_
        stop := .inr rfl }⟩
    obtain ⟨y, hy, hne⟩ := hnone i hi
    exact hone i y hy hne

/-- A frame is filled in the order of the hand. -/
theorem Turning.stopAt_of_empty {frames k : Nat} {st : Clock} (h : Turning frames st)
    (hsweep : Sweep frames st k) (hempty : -1 ∈ st.buffer) : k = 0 ∧ stopAt st k = st.pointer := by
  have hpos : st.pointer < st.refBit.length := by rw [h.bits]; exact h.pointer
  have hclear := ((h.filling hempty st.pointer h.pointer).2 (Nat.le_refl _)).2
  cases k with
  | zero => exact ⟨rfl, slotAt_zero hpos⟩
  | succ k =>
      have hset := hsweep.ones 0 (Nat.succ_pos k)
      rw [slotAt_zero hpos, hclear] at hset
      cases hset

theorem stopAt_lt {frames k : Nat} {st : Clock} (hsweep : Sweep frames st k) :
    stopAt st k < frames := by
  have hlt : slotAt st.refBit st.pointer k < st.refBit.length :=
    slotAt_lt (by rw [hsweep.bits]; exact hsweep.pointer) k
  rwa [hsweep.bits] at hlt

/-- The state after a hit in frame `j`. -/
def hitState (st : Clock) (j : Nat) : Clock :=
  { st with
    refBit := st.refBit.set j 1
    hits := countUp st.hits }

/-- The state after a miss that ends in frame `stopAt st k`. -/
def missState (st : Clock) (k : Nat) (page : Int) : Clock :=
  { buffer := st.buffer.set (stopAt st k) page
    refBit := (swept st.refBit st.pointer k).set (stopAt st k) 1
    pointer := slotAt st.refBit st.pointer (k + 1)
    hits := st.hits
    misses := countUp st.misses }

theorem Turning.hit {frames j : Nat} {st : Clock} {page : Int} (h : Turning frames st)
    (hj : j < st.buffer.length) (hpage : st.buffer[j] = page) (hreal : page ≠ -1) :
    Turning frames (hitState st j) := by
  have hbits : (hitState st j).refBit = st.refBit.set j 1 := rfl
  refine
    { buffer := h.buffer
      bits := by rw [hbits, List.length_set, h.bits]
      binary := fun bit hbit => ?_
      pointer := h.pointer
      distinct := h.distinct
      filling := fun hempty i hi => ?_ }
  · rcases List.mem_or_eq_of_mem_set hbit with hold | hnew
    · exact h.binary bit hold
    · exact .inr hnew
  · obtain ⟨hbefore, hfrom⟩ := h.filling hempty i hi
    refine ⟨hbefore, fun hle => ⟨(hfrom hle).1, ?_⟩⟩
    have hne : j ≠ i := by
      rintro rfl
      have hfree := (hfrom hle).1
      rw [List.getElem?_eq_getElem hj, hpage] at hfree
      exact hreal (Option.some.inj hfree)
    rw [hbits, List.getElem?_set_ne hne]
    exact (hfrom hle).2

/-- Writing a new page into a frame. -/
theorem nodup_set {buffer : List Int} (h : (buffer.filter (· ≠ -1)).Nodup) {page : Int}
    (hnew : page ∉ buffer) {v : Nat} (hv : v < buffer.length) :
    ((buffer.set v page).filter (· ≠ -1)).Nodup := by
  have hperm := (List.set_perm_cons_eraseIdx hv page).filter (· ≠ -1)
  have hrest := (List.eraseIdx_sublist buffer v).filter (· ≠ -1)
  rw [hperm.nodup_iff, List.filter_cons]
  split
  · refine List.nodup_cons.mpr ⟨fun hmem => hnew ?_, h.sublist hrest⟩
    exact List.mem_of_mem_eraseIdx (List.mem_of_mem_filter hmem)
  · exact h.sublist hrest

/-- The page goes into the first empty frame, and another one is empty behind it. -/
theorem Turning.filling_set {frames : Nat} {st : Clock} {page : Int} (h : Turning frames st)
    (hreal : page ≠ -1) (hempty : -1 ∈ st.buffer.set st.pointer page) :
    st.pointer + 1 < frames ∧ ∀ i < frames,
      (i < st.pointer + 1 → (st.buffer.set st.pointer page)[i]? ≠ some (-1)) ∧
      (st.pointer + 1 ≤ i → (st.buffer.set st.pointer page)[i]? = some (-1) ∧
        (st.refBit.set st.pointer 1)[i]? = some 0) := by
  have hold : -1 ∈ st.buffer := (List.mem_or_eq_of_mem_set hempty).resolve_right (Ne.symm hreal)
  have hsize : st.pointer < st.buffer.length := by rw [h.buffer]; exact h.pointer
  have hbefore : ∀ i < frames, i < st.pointer + 1 →
      (st.buffer.set st.pointer page)[i]? ≠ some (-1) := by
    intro i hi hlt
    by_cases heq : st.pointer = i
    · subst heq
      rw [List.getElem?_set_self hsize]
      exact fun hsome => hreal (Option.some.inj hsome)
    · rw [List.getElem?_set_ne heq]
      exact (h.filling hold i hi).1 (by omega)
  constructor
  · obtain ⟨j, hj⟩ := List.mem_iff_getElem?.mp hempty
    have hlt : j < frames := by
      have hlen := (List.getElem?_eq_some_iff.mp hj).1
      rwa [List.length_set, h.buffer] at hlen
    have hbehind : ¬ j < st.pointer + 1 := fun hle => hbefore j hlt hle hj
    omega
  · intro i hi
    refine ⟨hbefore i hi, fun hle => ?_⟩
    rw [List.getElem?_set_ne (by omega), List.getElem?_set_ne (by omega)]
    exact (h.filling hold i hi).2 (by omega)

theorem Turning.miss {frames k : Nat} {st : Clock} {page : Int} (h : Turning frames st)
    (hsweep : Sweep frames st k) (hnew : page ∉ st.buffer) (hreal : page ≠ -1) :
    Turning frames (missState st k page) := by
  have hv := stopAt_lt hsweep
  have hpos : st.pointer < st.refBit.length := by rw [h.bits]; exact h.pointer
  have hbits : (missState st k page).refBit =
      (swept st.refBit st.pointer k).set (stopAt st k) 1 := rfl
  have hbuffer : (missState st k page).buffer = st.buffer.set (stopAt st k) page := rfl
  refine
    { buffer := by rw [hbuffer, List.length_set, h.buffer]
      bits := by rw [hbits, List.length_set, length_swept, h.bits]
      binary := fun bit hbit => ?_
      pointer := by
        have hlt := slotAt_lt hpos (k + 1)
        rwa [h.bits] at hlt
      distinct := nodup_set h.distinct hnew (by rw [h.buffer]; exact hv)
      filling := fun hempty i hi => ?_ }
  · rcases List.mem_or_eq_of_mem_set hbit with hold | hnew
    · rcases mem_swept hold with hzero | hmem
      · exact .inl hzero
      · exact h.binary bit hmem
    · exact .inr hnew
  · -- a frame is still empty, so the page went into the first empty one
    have hold : -1 ∈ st.buffer :=
      (List.mem_or_eq_of_mem_set hempty).resolve_right (Ne.symm hreal)
    obtain ⟨rfl, hstop⟩ := h.stopAt_of_empty hsweep hold
    rw [hbuffer, hstop] at hempty ⊢
    obtain ⟨hroom, hfilling⟩ := h.filling_set hreal hempty
    have hpointer : (missState st 0 page).pointer = st.pointer + 1 :=
      hsweep.advance_pointer.symm.trans (Nat.mod_eq_of_lt hroom)
    rw [hpointer, hbits, hstop, swept]
    exact hfilling i hi

/-! ## One request -/

/-- The frame that second chance replaces: the first one from the hand on whose bit is
clear, or the one under the hand if all bits are set. -/
def Victim (frames : Nat) (st : Clock) (v : Nat) : Prop :=
  (∃ k < frames, v = (st.pointer + k) % frames ∧ st.refBit[v]? = some 0 ∧
      ∀ i < k, st.refBit[(st.pointer + i) % frames]? = some 1) ∨
    (v = st.pointer ∧ ∀ j < frames, st.refBit[j]? = some 1)

theorem Turning.victim {frames k : Nat} {st : Clock} (h : Turning frames st)
    (hsweep : Sweep frames st k) : Victim frames st (stopAt st k) := by
  have hpos : st.pointer < st.refBit.length := by rw [h.bits]; exact h.pointer
  have hones := hsweep.ones
  simp only [slotAt, h.bits] at hones
  rcases hsweep.stop with ⟨hk, hzero⟩ | rfl
  · refine .inl ⟨k, hk, ?_, hzero, hones⟩
    rw [stopAt, slotAt, h.bits]
  · refine .inr ⟨?_, fun j hj => ?_⟩
    · have hturn := slotAt_length hpos
      rwa [h.bits] at hturn
    · obtain ⟨i, hi, hslot⟩ := exists_slotAt hpos (by rw [h.bits]; exact hj : j < st.refBit.length)
      rw [← hslot]
      exact hsweep.ones i (by rw [← h.bits]; exact hi)

/-- What the second-chance policy asks of a request. -/
structure SecondChance (frames : Nat) (st st' : Clock) (page : Int) : Prop where
  distinct : (resident st').Nodup
  pointer : st'.pointer < frames
  /-- No page leaves while a frame is empty. -/
  kept : -1 ∈ st.buffer → ∀ x ∈ resident st, x ∈ resident st'
  hit : page ∈ resident st →
    st'.hits = countUp st.hits ∧ st'.misses = st.misses ∧ st'.buffer = st.buffer
  miss : page ∉ resident st → st'.hits = st.hits ∧ st'.misses = countUp st.misses ∧
    ∃ v, Victim frames st v ∧ st'.buffer = st.buffer.set v page

/-- The state after a request, whatever the fuel beyond one turn and one round. -/
theorem request_cases {frames : Nat} {st : Clock} (h : Turning frames st) (page : Int) :
    (∃ (j : Nat) (hj : j < st.buffer.length), st.buffer[j] = page ∧
      ∀ fuel, request frames fuel st page = some (hitState st j)) ∨
    (page ∉ st.buffer ∧ ∃ k ≤ frames, Sweep frames st k ∧
      ∀ fuel, frames + 1 ≤ fuel → request frames fuel st page = some (missState st k page)) := by
  cases hpos : findPage st.buffer page with
  | some j =>
      obtain ⟨hj, hpage⟩ := findPage_eq_some hpos
      exact .inl ⟨j, hj, hpage, fun fuel => by rw [request, hpos]; rfl⟩
  | none =>
      obtain ⟨k, hk, hsweep⟩ := h.exists_sweep
      refine .inr ⟨findPage_eq_none hpos, k, hk, hsweep, fun fuel hfuel => ?_⟩
      have hsweep' : Sweep frames { st with misses := countUp st.misses } k :=
        { pointer := hsweep.pointer
          bits := hsweep.bits
          ones := hsweep.ones
          stop := hsweep.stop }
      have hrun := replace_rule k hsweep' page fuel (by omega)
      rw [request, hpos]
      exact hrun

theorem turning_request {frames : Nat} {st : Clock} {page : Int} (h : Turning frames st)
    (hreal : page ≠ -1) :
    ∃ st', (∀ fuel, frames + 1 ≤ fuel → request frames fuel st page = some st') ∧
      Turning frames st' ∧ SecondChance frames st st' page := by
  rcases request_cases h page with ⟨j, hj, hpage, hrun⟩ | ⟨hnew, k, -, hsweep, hrun⟩
  · have hst' := h.hit hj hpage hreal
    have hmem : page ∈ resident st := mem_resident.mpr ⟨hpage ▸ List.getElem_mem hj, hreal⟩
    exact ⟨_, fun fuel _ => hrun fuel, hst',
      { distinct := hst'.distinct
        pointer := hst'.pointer
        kept := fun _ x hx => hx
        hit := fun _ => ⟨rfl, rfl, rfl⟩
        miss := fun hnew => absurd hmem hnew }⟩
  · have hst' := h.miss hsweep hnew hreal
    refine ⟨_, hrun, hst',
      { distinct := hst'.distinct
        pointer := hst'.pointer
        kept := fun hempty x hx => ?_
        hit := fun hmem => absurd (mem_resident.mp hmem).1 hnew
        miss := fun _ => ⟨rfl, rfl, _, h.victim hsweep, rfl⟩ }⟩
    -- the frame written to was empty
    obtain ⟨hxmem, hxreal⟩ := mem_resident.mp hx
    obtain ⟨-, hstop⟩ := h.stopAt_of_empty hsweep hempty
    obtain ⟨i, hi, hxi⟩ := List.getElem_of_mem hxmem
    have hne : stopAt st k ≠ i := by
      rw [hstop]
      rintro rfl
      have hfree := ((h.filling hempty _ h.pointer).2 (Nat.le_refl _)).1
      rw [List.getElem?_eq_getElem hi, hxi] at hfree
      exact hxreal (Option.some.inj hfree)
    refine mem_resident.mpr ⟨List.mem_of_getElem? (i := i) ?_, hxreal⟩
    show (st.buffer.set (stopAt st k) page)[i]? = some x
    rw [List.getElem?_set_ne hne, List.getElem?_eq_getElem hi, hxi]

/-! ## Bits of frames that were hit -/

/-- A set bit stays as long as the hand does not pass the frame. -/
theorem bit_kept {frames j : Nat} {st st' : Clock} {page : Int} (h : Turning frames st)
    (hreq : request frames (frames + 1) st page = some st') (hpass : j ∉ passed frames st page)
    (hbit : st.refBit[j]? = some 1) : st'.refBit[j]? = some 1 := by
  have hj : j < st.refBit.length := (List.getElem?_eq_some_iff.mp hbit).1
  rcases request_cases h page with ⟨i, hi, hpage, hrun⟩ | ⟨hnew, k, hk, hsweep, hrun⟩
  · rw [hrun] at hreq
    rw [← Option.some.inj hreq, hitState, List.getElem?_set]
    split
    · rename_i heq
      rw [heq, if_pos hj]
    · exact hbit
  · rw [hrun (frames + 1) (Nat.le_refl _)] at hreq
    rw [passed, if_neg hnew] at hpass
    have hapart : ∀ i ≤ k, slotAt st.refBit st.pointer i ≠ j := by
      rintro i hi rfl
      exact hpass (mem_handPasses k hsweep (frames + 1) (by omega) i hi)
    have hstop : stopAt st k ≠ j := hapart k (Nat.le_refl k)
    rw [← Option.some.inj hreq, missState, List.getElem?_set_ne hstop,
      getElem?_swept (by rw [h.bits]; exact h.pointer) (fun i hi => hapart i (by omega))]
    exact hbit

theorem turning_simulateClock {frames : Nat} (hframes : 1 ≤ frames) {pages : List Int}
    (hreal : ∀ page ∈ pages, page ≠ -1) :
    ∃ st, simulateClock frames pages = some st ∧ Turning frames st := by
  induction pages using List.reverseRecOn with
  | nil => exact ⟨_, rfl, turning_init hframes⟩
  | append_singleton past page ih =>
      obtain ⟨st, hrun, hst⟩ := ih (fun x hx => hreal x (List.mem_append_left _ hx))
      obtain ⟨st', hreq, hst', -⟩ := turning_request hst (hreal page (by simp))
      exact ⟨st', (simulateClock_concat hrun).trans (hreq _ (Nat.le_refl _)), hst'⟩

/-- Both counters have values in a run of fewer than `2 ^ 31` requests, and each request is
counted in one of them. -/
theorem counted_simulateClock {frames : Nat} (hframes : 1 ≤ frames) {pages : List Int}
    (hreal : ∀ page ∈ pages, page ≠ -1) (hlen : pages.length < 2147483648) {st : Clock}
    (hrun : simulateClock frames pages = some st) :
    ∃ hits misses : Nat, st.hits = some (hits : Int) ∧ st.misses = some (misses : Int) ∧
      hits + misses = pages.length := by
  induction pages using List.reverseRecOn generalizing st with
  | nil =>
      cases hrun
      exact ⟨0, 0, rfl, rfl, rfl⟩
  | append_singleton past page ih =>
      have hpast : ∀ x ∈ past, x ≠ -1 := fun x hx => hreal x (List.mem_append_left _ hx)
      rw [List.length_append, List.length_singleton] at hlen ⊢
      obtain ⟨mid, hmid, hturning⟩ := turning_simulateClock hframes hpast
      obtain ⟨hits, misses, hhits, hmisses, hsum⟩ := ih hpast (by omega) hmid
      obtain ⟨st', hreq, -, hchance⟩ := turning_request hturning (hreal page (by simp))
      rw [simulateClock_concat hmid, hreq _ (Nat.le_refl _)] at hrun
      cases hrun
      by_cases hmem : page ∈ resident mid
      · obtain ⟨hhit, hsame, -⟩ := hchance.hit hmem
        refine ⟨hits + 1, misses, ?_, hsame.trans hmisses, by omega⟩
        rw [hhit, hhits, countUp_of_lt (by omega)]
      · obtain ⟨hsame, hmiss, -⟩ := hchance.miss hmem
        refine ⟨hits, misses + 1, hsame.trans hhits, ?_, by omega⟩
        rw [hmiss, hmisses, countUp_of_lt (by omega)]

/-- Some request of the run was a hit in frame `j`, and the hand has not passed the
frame since. -/
def HitSincePassed (frames : Nat) (past : List Int) (j : Nat) : Prop :=
  ∃ before x after st, past = before ++ x :: after ∧ simulateClock frames before = some st ∧
    findPage st.buffer x = some j ∧
    ∀ mid y rest st₁, after = mid ++ y :: rest →
      simulateClock frames (before ++ x :: mid) = some st₁ → j ∉ passed frames st₁ y

theorem HitSincePassed.bit {frames j : Nat} {past : List Int} (hframes : 1 ≤ frames)
    (hreal : ∀ page ∈ past, page ≠ -1) (h : HitSincePassed frames past j) {st : Clock}
    (hrun : simulateClock frames past = some st) : st.refBit[j]? = some 1 := by
  obtain ⟨before, x, after, st₀, rfl, hbefore, hhit, hpass⟩ := h
  induction after using List.reverseRecOn generalizing st with
  | nil =>
      obtain ⟨hj, -⟩ := findPage_eq_some hhit
      obtain ⟨st₁, hrun₁, hst₁⟩ := turning_simulateClock hframes
        (fun y hy => hreal y (List.mem_append_left _ hy) : ∀ y ∈ before, y ≠ -1)
      obtain rfl : st₀ = st₁ := Option.some.inj (hbefore.symm.trans hrun₁)
      rw [simulateClock_concat hbefore, request, hhit] at hrun
      rw [← Option.some.inj hrun]
      exact List.getElem?_set_self (by rw [hst₁.bits, ← hst₁.buffer]; exact hj)
  | append_singleton after y ih =>
      have hsplit : before ++ x :: (after ++ [y]) = (before ++ x :: after) ++ [y] := by simp
      rw [hsplit] at hrun hreal
      obtain ⟨st₁, hrun₁, hst₁⟩ := turning_simulateClock hframes
        (fun z hz => hreal z (List.mem_append_left _ hz) : ∀ z ∈ before ++ x :: after, z ≠ -1)
      rw [simulateClock_concat hrun₁] at hrun
      refine bit_kept hst₁ hrun (hpass after y [] st₁ rfl hrun₁) (ih ?_ hrun₁ ?_)
      · exact fun z hz => hreal z (List.mem_append_left _ hz)
      · intro mid z rest st₂ hafter hmid
        exact hpass mid z (rest ++ [y]) st₂ (by simp [hafter]) hmid

/-! ## Every request -/

/-- **The simulator gives pages a second chance.**  For the request of `page` that follows
the requests of `past`: the loop ends within `frames + 1` rounds, the request does what
the policy asks, a frame hit since the hand last passed it is the victim only if all bits
are set, and as long as the counters have values they count every request. -/
theorem clock_second_chance (frames : Nat) (hframes : 1 ≤ frames) (past : List Int) (page : Int)
    (hreal : ∀ x ∈ past ++ [page], x ≠ -1) :
    ∃ st st', simulateClock frames past = some st ∧
      simulateClock frames (past ++ [page]) = some st' ∧
      (∀ fuel, frames + 1 ≤ fuel → request frames fuel st page = some st') ∧
      SecondChance frames st st' page ∧
      (∀ v, Victim frames st v → HitSincePassed frames past v →
        ∀ j < frames, st.refBit[j]? = some 1) ∧
      ((past ++ [page]).length < 2147483648 → ∃ hits misses : Nat, st'.hits = some (hits : Int) ∧
        st'.misses = some (misses : Int) ∧ hits + misses = (past ++ [page]).length) := by
  have hpast : ∀ x ∈ past, x ≠ -1 := fun x hx => hreal x (List.mem_append_left _ hx)
  obtain ⟨st, hrun, hst⟩ := turning_simulateClock hframes hpast
  obtain ⟨st', hreq, -, hchance⟩ := turning_request hst (hreal page (by simp))
  have hnext := (simulateClock_concat hrun).trans (hreq _ (Nat.le_refl _))
  refine ⟨st, st', hrun, hnext, hreq, hchance, fun v hvictim hhit => ?_,
    fun hlen => counted_simulateClock hframes hreal hlen hnext⟩
  have hset := hhit.bit hframes hpast hrun
  rcases hvictim with ⟨k, -, -, hclear, -⟩ | ⟨-, hall⟩
  · rw [hset] at hclear
    cases hclear
  · exact hall

/-- Three frames are full and all bits are set: page 4 replaces the page under the hand. -/
theorem clock_second_chance_full :
    ∃ st st', simulateClock 3 [1, 2, 3] = some st ∧
      simulateClock 3 ([1, 2, 3] ++ [4]) = some st' ∧
      (∀ fuel, 3 + 1 ≤ fuel → request 3 fuel st 4 = some st') ∧
      SecondChance 3 st st' 4 ∧
      (∀ v, Victim 3 st v → HitSincePassed 3 [1, 2, 3] v → ∀ j < 3, st.refBit[j]? = some 1) ∧
      (([1, 2, 3] ++ [4] : List Int).length < 2147483648 → ∃ hits misses : Nat,
        st'.hits = some (hits : Int) ∧ st'.misses = some (misses : Int) ∧
          hits + misses = ([1, 2, 3] ++ [4] : List Int).length) :=
  clock_second_chance 3 (by decide) [1, 2, 3] 4 (by decide)

end SystemsInC.Ports.ClockPaging
