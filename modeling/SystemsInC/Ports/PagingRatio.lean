import Mathlib.Data.Int.ModEq
import SystemsInC.Verified.OfflinePaging
import SystemsInC.Ports.ClockPaging

/-!
# The page simulators against schedules that know the future

The misses that `simulateLRU` and `simulateClock` count are bounded by the pages
that any schedule loads for the same reference string, also one that knows the
whole string and fetches pages in advance.  Both policies are conservative.  For
LRU this is a fact about recent pages.  For the clock it is one about the hand:
in a stretch of at most as many pages as there are frames it goes round at most
twice, and it loads no frame on both tours.
-/

namespace SystemsInC.Ports.PagingRatio

open SystemsInC.Verified.OfflinePaging
open SystemsInC.Verified.RecencyList
open SystemsInC.Verified.RingBuffer
open SystemsInC.Ports.LruPaging (Lru simulateLRU Countable stamped_simulateLRU served_of_stamped
  countUp countUp_of_lt findPage findPage_eq_some findPage_eq_none)
open SystemsInC.Ports.ClockPaging

/-! ## LRU -/

/-- The misses counted are the requests for pages that are not recent. -/
theorem misses_simulateLRU {frames : ℕ} (hframes : 1 ≤ frames) {pages : List Int}
    (h : Countable pages) :
    ∃ st, simulateLRU frames pages = some st ∧ st.misses = (faults frames pages.reverse : Int) := by
  induction pages using List.reverseRecOn with
  | nil => exact ⟨_, rfl, rfl⟩
  | append_singleton past page ih =>
      have hpast : Countable past := h.of_prefix (List.prefix_append past [page])
      obtain ⟨st, hrun, hmisses⟩ := ih hpast
      obtain ⟨_, hrun', hst⟩ := stamped_simulateLRU hframes hpast
      cases hrun.symm.trans hrun'
      obtain ⟨st', hnext, hserved⟩ := served_of_stamped hframes h hrun hst
      refine ⟨st', hnext, ?_⟩
      rw [List.reverse_append, List.reverse_singleton, List.singleton_append, faults]
      split
      · rename_i hmem
        rw [(hserved.hit hmem).2, hmisses]
        simp
      · rename_i hmem
        rw [(hserved.miss hmem).2, hmisses]
        simp

/-- **LRU is competitive.**  With `frames` frames it misses at most
`frames / (frames + 1 - few)` times as often as any schedule with `few` frames loads
a page, up to `frames` misses more. -/
theorem simulateLRU_competitive (frames few : ℕ) (hframes : 1 ≤ frames) (hfew : few ≤ frames)
    (pages : List Int) (hreal : ∀ page ∈ pages, page ≠ -1) (hlen : pages.length < 2147483648)
    (cache : Finset Int) (loads : ℕ) (hs : Schedule few cache pages loads) :
    ∃ st, simulateLRU frames pages = some st ∧
      st.misses * (frames + 1 - few : ℕ) ≤ frames * loads + frames * (frames + 1 - few : ℕ) := by
  have hcountable : Countable pages := { real := hreal, short := hlen }
  obtain ⟨st, hrun, hmisses⟩ := misses_simulateLRU hframes hcountable
  have hbound := (conservative_faults frames pages).competitive rfl hfew hs
  refine ⟨st, hrun, ?_⟩
  rw [hmisses]
  exact_mod_cast hbound

/-- With two frames four requests for three pages can be served by three loads. -/
theorem schedule_two : Schedule 2 (∅ : Finset Int) [1, 2, 1, 3] 3 := by
  have hlast : Schedule 2 ({1, 2} : Finset Int) [3] 1 :=
    .cons (by decide : (3 : Int) ∈ ({1, 3} : Finset Int)) (by decide) (.nil _)
  have hagain : Schedule 2 ({1, 2} : Finset Int) [1, 3] 1 :=
    .cons (by decide : (1 : Int) ∈ ({1, 2} : Finset Int)) (by decide) hlast
  have hsecond : Schedule 2 ({1} : Finset Int) [2, 1, 3] 2 :=
    .cons (by decide : (2 : Int) ∈ ({1, 2} : Finset Int)) (by decide) hagain
  exact .cons (by decide : (1 : Int) ∈ ({1} : Finset Int)) (by decide) hsecond

theorem simulateLRU_competitive_four :
    ∃ st, simulateLRU 3 [1, 2, 1, 3] = some st ∧
      st.misses * (3 + 1 - 2 : ℕ) ≤ 3 * 3 + 3 * (3 + 1 - 2 : ℕ) :=
  simulateLRU_competitive 3 2 (by decide) (by decide) [1, 2, 1, 3] (by decide) (by decide) ∅ 3
    schedule_two

/-! ## The tours of the hand -/

/-- The frame that the hand reaches after `d` moves from `base`. -/
def frameAt (frames base d : ℕ) : ℕ := (base + d) % frames

/-- During a stretch that asks for the pages `seen` the hand has moved `moves` times
from frame `base` and has loaded pages on the moves `loaded`, counted on one tour. -/
structure Toured (frames base : ℕ) (seen : Finset Int) (moves : ℕ) (loaded : Finset ℕ)
    (st : Clock) : Prop where
  buffer : st.buffer.length = frames
  bits : st.refBit.length = frames
  pointer : st.pointer = frameAt frames base moves
  /-- The hand has cleared the bit on the first tour, so one that is set is for a page seen. -/
  once : ∀ d < frames, d < moves → ∀ bit, st.refBit[frameAt frames base d]? = some bit →
    bit ≠ 0 → ∀ page, st.buffer[frameAt frames base d]? = some page → page ∈ seen
  /-- What the hand left in its place on the second tour had been asked for. -/
  twice : ∀ d < frames, d + frames < moves →
    ∀ page, st.buffer[frameAt frames base d]? = some page → page ∈ seen
  /-- A page loaded on the first tour is not replaced on the second. -/
  loaded : ∀ d ∈ loaded, d < frames ∧ d < moves ∧
    (moves ≤ d + frames → st.refBit[frameAt frames base d]? ≠ some 0)

/-- On its first two tours the hand is at a frame on two moves only. -/
theorem frameAt_eq {frames base moves d : ℕ} (hd : d < frames) (hmoves : moves < 2 * frames)
    (heq : frameAt frames base moves = frameAt frames base d) : moves = d ∨ moves = d + frames := by
  have hmod : moves % frames = d % frames :=
    Nat.ModEq.add_left_cancel' (n := frames) base heq
  rw [Nat.mod_eq_of_lt hd] at hmod
  by_cases hfirst : moves < frames
  · left
    rwa [Nat.mod_eq_of_lt hfirst] at hmod
  · right
    rw [Nat.mod_eq_sub_mod (by omega), Nat.mod_eq_of_lt (by omega)] at hmod
    omega

theorem frameAt_succ {frames base moves : ℕ} :
    frameAt frames base (moves + 1) = (frameAt frames base moves + 1) % frames := by
  rw [frameAt, frameAt, Nat.mod_add_mod, Nat.add_assoc]

theorem exists_frameAt {frames base j : ℕ} (hbase : base < frames) (hj : j < frames) :
    ∃ d < frames, frameAt frames base d = j := by
  have hlen : (List.replicate frames 0).length = frames := List.length_replicate
  rw [← hlen] at hbase hj
  obtain ⟨d, hd, hslot⟩ := exists_slotAt hbase hj
  rw [slotAt, hlen] at hslot
  rw [hlen] at hd
  exact ⟨d, hd, hslot⟩

theorem Turning.toured {frames : ℕ} {st : Clock} (h : Turning frames st) :
    Toured frames st.pointer ∅ 0 ∅ st where
  buffer := h.buffer
  bits := h.bits
  pointer := (Nat.mod_eq_of_lt h.pointer).symm
  once := fun _ _ hd => absurd hd (Nat.not_lt_zero _)
  twice := fun _ _ hd => absurd hd (Nat.not_lt_zero _)
  loaded := fun _ hd => absurd hd (Finset.notMem_empty _)

section Stretch

variable {frames base moves : ℕ} {seen : Finset Int} {loaded : Finset ℕ} {st : Clock}
  {page : Int}

/-- A request for one more page. -/
theorem Toured.ask (h : Toured frames base seen moves loaded st) (page : Int) :
    Toured frames base (insert page seen) moves loaded st :=
  { h with
    once := fun d hd hlt bit hbit hne x hx =>
      Finset.mem_insert_of_mem (h.once d hd hlt bit hbit hne x hx)
    twice := fun d hd hlt x hx => Finset.mem_insert_of_mem (h.twice d hd hlt x hx) }

theorem Toured.hit (h : Toured frames base seen moves loaded st) {j : ℕ}
    (hj : st.buffer[j]? = some page) (hseen : page ∈ seen) :
    Toured frames base seen moves loaded (hitState st j) where
  buffer := h.buffer
  bits := by rw [hitState, List.length_set, h.bits]
  pointer := h.pointer
  once := by
    intro d hd hlt bit hbit hne x hx
    by_cases heq : frameAt frames base d = j
    · have hsame : st.buffer[frameAt frames base d]? = some x := hx
      rw [heq, hj] at hsame
      exact Option.some.inj hsame ▸ hseen
    · rw [hitState, List.getElem?_set_ne (Ne.symm heq)] at hbit
      exact h.once d hd hlt bit hbit hne x hx
  twice := h.twice
  loaded := by
    intro d hd
    obtain ⟨hlt, hpast, hset⟩ := h.loaded d hd
    refine ⟨hlt, hpast, fun hle => ?_⟩
    rw [hitState, List.getElem?_set]
    split
    · split <;> simp
    · exact hset hle

/-- The hand clears a bit and moves on. -/
theorem Toured.advance (h : Toured frames base seen moves loaded st) (hframes : 1 ≤ frames)
    (hmoves : moves < 2 * frames) {bit : ℕ} (hbit : st.refBit[st.pointer]? = some bit)
    (hset : bit ≠ 0) :
    Toured frames base seen (moves + 1) loaded (advance frames st) where
  buffer := h.buffer
  bits := by rw [ClockPaging.advance, List.length_set, h.bits]
  pointer := by rw [ClockPaging.advance, h.pointer, frameAt_succ]
  once := by
    intro d hd hlt b hb hne x hx
    have hlen : st.pointer < st.refBit.length := (List.getElem?_eq_some_iff.mp hbit).1
    by_cases hhere : st.pointer = frameAt frames base d
    · rw [ClockPaging.advance, ← hhere, List.getElem?_set_self hlen] at hb
      exact absurd (Option.some.inj hb).symm hne
    · rw [ClockPaging.advance, List.getElem?_set_ne hhere] at hb
      have hbefore : d ≠ moves := by
        rintro rfl
        exact hhere h.pointer
      exact h.once d hd (by omega) b hb hne x hx
  twice := by
    intro d hd hlt x hx
    by_cases hnow : d + frames = moves
    · -- the second visit: the bit was set since the first
      have hhere : frameAt frames base d = st.pointer := by
        rw [h.pointer, ← hnow, frameAt, frameAt, ← Nat.add_assoc, Nat.add_mod_right]
      exact h.once d hd (by omega) bit (hhere ▸ hbit) hset x hx
    · exact h.twice d hd (by omega) x hx
  loaded := by
    intro d hd
    obtain ⟨hlt, hpast, hkept⟩ := h.loaded d hd
    refine ⟨hlt, by omega, fun hle => ?_⟩
    have hother : st.pointer ≠ frameAt frames base d := by
      intro hhere
      rcases frameAt_eq hlt hmoves (h.pointer.symm.trans hhere) with hfirst | hsecond <;> omega
    rw [ClockPaging.advance, List.getElem?_set_ne hother]
    exact hkept (by omega)

/-- The state after the hand has loaded a page. -/
def loadState (frames : ℕ) (st : Clock) (page : Int) : Clock :=
  { st with
    buffer := st.buffer.set st.pointer page
    refBit := st.refBit.set st.pointer 1
    pointer := (st.pointer + 1) % frames }

/-- The hand loads a page, and has not loaded another on the same frame. -/
theorem Toured.load (h : Toured frames base seen moves loaded st) (hframes : 1 ≤ frames)
    (hmoves : moves < 2 * frames) (hbit : st.refBit[st.pointer]? = some 0) (hseen : page ∈ seen) :
    moves % frames ∉ loaded ∧
      Toured frames base seen (moves + 1) (insert (moves % frames) loaded)
        (loadState frames st page) := by
  have hlen : st.pointer < st.refBit.length := (List.getElem?_eq_some_iff.mp hbit).1
  have hsize : st.pointer < st.buffer.length := by rw [h.buffer, ← h.bits]; exact hlen
  have hturn : moves % frames < frames := Nat.mod_lt _ hframes
  have hhere : frameAt frames base (moves % frames) = st.pointer := by
    rw [h.pointer, frameAt, frameAt, Nat.add_mod_mod]
  constructor
  · intro hmem
    obtain ⟨-, hpast, hkept⟩ := h.loaded _ hmem
    rw [hhere] at hkept
    apply hkept _ hbit
    have hdiv := Nat.mod_add_div moves frames
    rcases frameAt_eq hturn hmoves (h.pointer.symm.trans hhere.symm) with heq | heq <;> omega
  · refine
      { buffer := by rw [loadState, List.length_set, h.buffer]
        bits := by rw [loadState, List.length_set, h.bits]
        pointer := by rw [loadState, h.pointer, frameAt_succ]
        once := ?_
        twice := ?_
        loaded := ?_ }
    · intro d hd hlt b hb hne x hx
      by_cases heq : st.pointer = frameAt frames base d
      · rw [loadState, ← heq, List.getElem?_set_self hsize] at hx
        exact Option.some.inj hx ▸ hseen
      · rw [loadState, List.getElem?_set_ne heq] at hx hb
        have hbefore : d ≠ moves := by
          rintro rfl
          exact heq h.pointer
        exact h.once d hd (by omega) b hb hne x hx
    · intro d hd hlt x hx
      by_cases heq : st.pointer = frameAt frames base d
      · rw [loadState, ← heq, List.getElem?_set_self hsize] at hx
        exact Option.some.inj hx ▸ hseen
      · rw [loadState, List.getElem?_set_ne heq] at hx
        have hbefore : d + frames ≠ moves := by
          intro hnow
          apply heq
          rw [h.pointer, ← hnow, frameAt, frameAt, ← Nat.add_assoc, Nat.add_mod_right]
        exact h.twice d hd (by omega) x hx
    · intro d hd
      rw [loadState, List.getElem?_set]
      rcases Finset.mem_insert.mp hd with rfl | hold
      · refine ⟨hturn, Nat.lt_succ_of_le (Nat.mod_le _ _), fun _ => ?_⟩
        rw [if_pos hhere.symm, if_pos hlen]
        simp
      · obtain ⟨hlt, hpast, hkept⟩ := h.loaded d hold
        refine ⟨hlt, by omega, fun hle => ?_⟩
        split
        · simp
        · exact hkept (by omega)

/-- After two tours every frame holds a page of the stretch, and they are too many
for another page to be asked for. -/
theorem Toured.moves_lt (h : Toured frames base seen moves loaded st) (hbase : base < frames)
    (hreal : ∀ x ∈ seen, x ≠ -1) (hcard : seen.card ≤ frames) (hdistinct : (resident st).Nodup)
    (hseen : page ∈ seen) (hnew : page ∉ st.buffer) : moves < 2 * frames := by
  by_contra hlate
  have hall : ∀ x ∈ st.buffer, x ∈ seen := by
    intro x hx
    obtain ⟨j, hj, hxj⟩ := List.getElem_of_mem hx
    obtain ⟨d, hd, hframe⟩ := exists_frameAt hbase (h.buffer ▸ hj)
    apply h.twice d hd (by omega)
    rw [hframe, List.getElem?_eq_getElem hj, hxj]
  have hfull : resident st = st.buffer := by
    rw [resident, List.filter_eq_self]
    intro x hx
    simpa using hreal x (hall x hx)
  rw [hfull] at hdistinct
  have hsub : insert page st.buffer.toFinset ⊆ seen := by
    intro x hx
    rw [Finset.mem_insert, List.mem_toFinset] at hx
    rcases hx with rfl | hx
    · exact hseen
    · exact hall x hx
  have hmore := Finset.card_le_card hsub
  rw [Finset.card_insert_of_notMem (by simpa using hnew), List.toFinset_card_of_nodup hdistinct,
    h.buffer] at hmore
  omega

/-- The loop over the hand loads the page once. -/
theorem Toured.replace (hbase : base < frames) (hreal : ∀ x ∈ seen, x ≠ -1)
    (hcard : seen.card ≤ frames) (hseen : page ∈ seen) (fuel : ℕ) :
    ∀ {moves : ℕ} {st st' : Clock}, Toured frames base seen moves loaded st →
      (resident st).Nodup → page ∉ st.buffer →
      ClockPaging.replace frames fuel st page = some st' →
      ∃ moves' loaded', Toured frames base seen moves' loaded' st' ∧
        loaded'.card = loaded.card + 1 ∧ st'.misses = st.misses := by
  have hframes : 1 ≤ frames := by omega
  induction fuel with
  | zero =>
      intro moves st st' _ _ _ hrun
      cases hrun
  | succ fuel ih =>
      intro moves st st' h hdistinct hnew hrun
      have hmoves := h.moves_lt hbase hreal hcard hdistinct hseen hnew
      rw [ClockPaging.replace] at hrun
      cases hbit : st.refBit[st.pointer]? with
      | none =>
          rw [hbit] at hrun
          cases hrun
      | some bit =>
          rw [hbit] at hrun
          dsimp only at hrun
          by_cases hzero : bit = 0
          · rw [if_pos hzero] at hrun
            obtain ⟨hfresh, hload⟩ := h.load hframes hmoves (hzero ▸ hbit) hseen
            have hst' : st' = loadState frames st page := (Option.some.inj hrun).symm
            rw [hst']
            exact ⟨_, _, hload, Finset.card_insert_of_notMem hfresh, rfl⟩
          · rw [if_neg hzero] at hrun
            exact @ih _ (ClockPaging.advance frames st) st' (h.advance hframes hmoves hbit hzero)
              hdistinct hnew hrun

end Stretch

/-! ## The clock -/

/-- The stretch `stretch` of a run, from the state `st` in which it starts: `misses` are
counted before it. -/
theorem toured_stretch {frames misses : ℕ} {past : List Int} {st : Clock}
    (hrun : simulateClock frames past = some st) (hst : Turning frames st)
    (hstart : st.misses = some (misses : Int)) {stretch : List Int}
    (hreal : ∀ page ∈ past ++ stretch, page ≠ -1)
    (hlen : (past ++ stretch).length < 2147483648) (hcard : stretch.toFinset.card ≤ frames) :
    ∃ moves loaded st', simulateClock frames (past ++ stretch) = some st' ∧ Turning frames st' ∧
      Toured frames st.pointer stretch.toFinset moves loaded st' ∧
      st'.misses = some ((misses + loaded.card : ℕ) : Int) := by
  induction stretch using List.reverseRecOn with
  | nil => exact ⟨0, ∅, st, by rwa [List.append_nil], hst, Turning.toured hst, hstart⟩
  | append_singleton before page ih =>
      have hpage : page ≠ -1 := hreal page (by simp)
      have hseen : (before ++ [page]).toFinset = insert page before.toFinset := by
        ext x
        simp
      rw [hseen] at hcard ⊢
      have hless := Finset.card_le_card (Finset.subset_insert page before.toFinset)
      rw [← List.append_assoc] at hreal hlen
      rw [List.length_append, List.length_singleton] at hlen
      have hbefore : ∀ x ∈ past ++ before, x ≠ -1 :=
        fun x hx => hreal x (List.mem_append_left _ hx)
      obtain ⟨moves, loaded, mid, hmid, hmidst, htoured, hmisses⟩ :=
        ih hbefore (by omega) (by omega)
      have htoured := htoured.ask page
      have hmem := Finset.mem_insert_self page before.toFinset
      obtain ⟨st', hall, hst', -⟩ := turning_request hmidst hpage
      have hreq := hall (frames + 1) (Nat.le_refl _)
      have hnext : simulateClock frames (past ++ (before ++ [page])) = some st' := by
        rw [← List.append_assoc, simulateClock_concat hmid, hreq]
      rw [request] at hreq
      cases hfind : findPage mid.buffer page with
      | some j =>
          rw [hfind] at hreq
          obtain ⟨hj, hpagej⟩ := findPage_eq_some hfind
          have hat : mid.buffer[j]? = some page := by rw [List.getElem?_eq_getElem hj, hpagej]
          have hhit : st' = hitState mid j := (Option.some.inj hreq).symm
          exact ⟨moves, loaded, st', hnext, hst', hhit ▸ htoured.hit hat hmem, hhit ▸ hmisses⟩
      | none =>
          rw [hfind] at hreq
          have hstart : Toured frames st.pointer (insert page before.toFinset) moves loaded
              { mid with misses := countUp mid.misses } := { htoured with }
          have hrealseen : ∀ x ∈ insert page before.toFinset, x ≠ -1 := by
            intro x hx
            rcases Finset.mem_insert.mp hx with rfl | hx
            · exact hpage
            · exact hbefore x (List.mem_append_right _ (List.mem_toFinset.mp hx))
          obtain ⟨moves', loaded', htoured', hcount, hmiss⟩ :=
            hstart.replace hst.pointer hrealseen hcard hmem (frames + 1) hmidst.distinct
              (findPage_eq_none hfind) hreq
          refine ⟨moves', loaded', st', hnext, hst', htoured', ?_⟩
          have hframes : 1 ≤ frames := Nat.lt_of_le_of_lt (Nat.zero_le _) hst.pointer
          obtain ⟨_, counted, -, hcounted, hsum⟩ :=
            counted_simulateClock hframes hbefore (by omega) hmid
          rw [hmisses] at hcounted
          have hsame : misses + loaded.card = counted := Int.ofNat.inj (Option.some.inj hcounted)
          rw [hmiss]
          show countUp mid.misses = _
          rw [hmisses, countUp_of_lt (by omega), hcount]
          rfl

/-- The misses that `simulateClock` has counted. -/
def clockMisses (frames : ℕ) (pages : List Int) : ℕ :=
  (((simulateClock frames pages).bind Clock.misses).getD 0).toNat

theorem misses_simulateClock {frames : ℕ} (hframes : 1 ≤ frames) {pages : List Int}
    (hreal : ∀ page ∈ pages, page ≠ -1) (hlen : pages.length < 2147483648) :
    ∃ st, simulateClock frames pages = some st ∧ Turning frames st ∧
      st.misses = some (clockMisses frames pages : Int) := by
  obtain ⟨st, hrun, hst⟩ := turning_simulateClock hframes hreal
  obtain ⟨_, misses, -, hmisses, -⟩ := counted_simulateClock hframes hreal hlen hrun
  have hcount : clockMisses frames pages = misses := by
    rw [clockMisses, hrun, Option.bind_some, hmisses]
    rfl
  exact ⟨st, hrun, hst, hcount ▸ hmisses⟩

/-- In a stretch of at most as many pages as frames each frame is loaded at most once. -/
theorem conservative_clockMisses {frames : ℕ} (hframes : 1 ≤ frames) {pages : List Int}
    (hreal : ∀ page ∈ pages, page ≠ -1) (hlen : pages.length < 2147483648) :
    Conservative frames (clockMisses frames) pages := by
  intro past stretch hinit hcard
  have hboth : ∀ page ∈ past ++ stretch, page ≠ -1 :=
    fun page hpage => hreal page (hinit.subset hpage)
  have hshort : (past ++ stretch).length < 2147483648 :=
    Nat.lt_of_le_of_lt hinit.length_le hlen
  have hpast : past.length < 2147483648 := by
    rw [List.length_append] at hshort
    omega
  obtain ⟨st, hrun, hst, hstart⟩ := misses_simulateClock hframes
    (fun page hpage => hboth page (List.mem_append_left _ hpage)) hpast
  obtain ⟨_, loaded, st', hrun', -, htoured, hmisses⟩ :=
    toured_stretch hrun hst hstart hboth hshort hcard
  obtain ⟨_, hrun'', -, hend⟩ := misses_simulateClock hframes hboth hshort
  cases hrun'.symm.trans hrun''
  rw [hmisses] at hend
  have hsame : clockMisses frames past + loaded.card = clockMisses frames (past ++ stretch) :=
    Int.ofNat.inj (Option.some.inj hend)
  have hsub : loaded ⊆ Finset.range frames :=
    fun d hd => Finset.mem_range.mpr (htoured.loaded d hd).1
  have hcount := Finset.card_le_card hsub
  rw [Finset.card_range] at hcount
  omega

/-- **The clock is as competitive as LRU.**  Its misses have the same bound against any
schedule with `few` frames, although a page can be replaced right after a hit.  In a stretch
that asks for at most `frames` pages the hand loads at most `frames` times. -/
theorem simulateClock_competitive (frames few : ℕ) (hframes : 1 ≤ frames) (hfew : few ≤ frames)
    (pages : List Int) (hreal : ∀ page ∈ pages, page ≠ -1) (hlen : pages.length < 2147483648)
    (cache : Finset Int) (loads : ℕ) (hs : Schedule few cache pages loads) :
    (∃ st, ∃ misses : ℕ, simulateClock frames pages = some st ∧ st.misses = some (misses : Int) ∧
      misses * (frames + 1 - few) ≤ frames * loads + frames * (frames + 1 - few)) ∧
    ∀ past stretch, past ++ stretch <+: pages → stretch.toFinset.card ≤ frames →
      ∃ st st', ∃ before after : ℕ, simulateClock frames past = some st ∧
        simulateClock frames (past ++ stretch) = some st' ∧ st.misses = some (before : Int) ∧
        st'.misses = some (after : Int) ∧ after ≤ before + frames := by
  have hconservative := conservative_clockMisses hframes hreal hlen
  constructor
  · obtain ⟨st, hrun, -, hmisses⟩ := misses_simulateClock hframes hreal hlen
    exact ⟨st, _, hrun, hmisses, hconservative.competitive rfl hfew hs⟩
  · intro past stretch hinit hcard
    have hshort := Nat.lt_of_le_of_lt hinit.length_le hlen
    have hpast : past <+: pages := (List.prefix_append past stretch).trans hinit
    obtain ⟨st, hrun, -, hbefore⟩ := misses_simulateClock hframes
      (fun page hpage => hreal page (hpast.subset hpage))
      (Nat.lt_of_le_of_lt hpast.length_le hlen)
    obtain ⟨st', hrun', -, hafter⟩ := misses_simulateClock hframes
      (fun page hpage => hreal page (hinit.subset hpage)) hshort
    exact ⟨st, st', _, _, hrun, hrun', hbefore, hafter, hconservative past stretch hinit hcard⟩

theorem simulateClock_competitive_four :
    (∃ st, ∃ misses : ℕ, simulateClock 3 [1, 2, 1, 3] = some st ∧
      st.misses = some (misses : Int) ∧
      misses * (3 + 1 - 2) ≤ 3 * 3 + 3 * (3 + 1 - 2)) ∧
    ∀ past stretch, past ++ stretch <+: [1, 2, 1, 3] → stretch.toFinset.card ≤ 3 →
      ∃ st st', ∃ before after : ℕ, simulateClock 3 past = some st ∧
        simulateClock 3 (past ++ stretch) = some st' ∧ st.misses = some (before : Int) ∧
        st'.misses = some (after : Int) ∧ after ≤ before + 3 :=
  simulateClock_competitive 3 2 (by decide) (by decide) [1, 2, 1, 3] (by decide) (by decide) ∅ 3
    schedule_two

end SystemsInC.Ports.PagingRatio
