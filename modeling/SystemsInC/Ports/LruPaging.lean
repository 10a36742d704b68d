import Mathlib.Data.List.Induction
import Mathlib.Data.List.Perm.Basic
import SystemsInC.Verified.RecencyList

/-!
# The LRU page simulator

`simulateLRU` of `page_cache_simulator.c`: an array of pages, an array of time
stamps and a counter.  The number of frames is the length of the arrays.  The
stamp of a page is the number of its latest request, so that the frame with the
least stamp holds the last of the `recent` pages.
-/

namespace SystemsInC.Ports.LruPaging

open SystemsInC.Verified.RecencyList

/-! ## The simulator -/

/-- `++` on an `int`; there is no result beyond `INT_MAX`. -/
def increment (n : Int) : Option Int := if n < 2147483647 then some (n + 1) else none

/-- `++` on a counter that only the report reads: beyond `INT_MAX` it has no value. -/
def countUp (n : Option Int) : Option Int := n.bind increment

theorem countUp_of_lt {n : Nat} (h : n < 2147483647) :
    countUp (some (n : Int)) = some ((n + 1 : Nat) : Int) := by
  rw [countUp, Option.bind_some, increment, if_pos (by omega), Int.natCast_succ]

/-- The position of the first frame that holds `page`; `none` stands for `-1`. -/
def findPage (buffer : List Int) (page : Int) : Option Nat := buffer.findIdx? (· = page)

/-- The position of the first frame that is empty, if there is one. -/
def findEmpty (buffer : List Int) : Option Nat := buffer.findIdx? (· = -1)

/-- The loop that looks for the least stamp. -/
def findLRU (time : List Int) : Nat :=
  (List.range' 1 (time.length - 1)).foldl
    (fun lru j => if time.getD j 0 < time.getD lru 0 then j else lru) 0

structure Lru where
  buffer : List Int
  time : List Int
  hits : Int
  misses : Int
  counter : Int
  deriving DecidableEq, Repr

def Lru.init (frames : Nat) : Lru :=
  { buffer := List.replicate frames (-1)
    time := List.replicate frames (-1)
    hits := 0
    misses := 0
    counter := 0 }

/-- The body of the request loop. -/
def request (st : Lru) (page : Int) : Option Lru :=
  match findPage st.buffer page with
  | some pos => do
      let hits ← increment st.hits
      let counter ← increment st.counter
      return { st with hits := hits, counter := counter, time := st.time.set pos counter }
  | none => do
      let misses ← increment st.misses
      let counter ← increment st.counter
      match findEmpty st.buffer with
      | none =>
          let lru := findLRU st.time
          return { st with
            misses := misses
            counter := counter
            buffer := st.buffer.set lru page
            time := st.time.set lru counter }
      | some empty =>
          return { st with
            misses := misses
            counter := counter
            buffer := st.buffer.set empty page
            time := st.time.set empty counter }

/-- The loop over a reference string. -/
def simulateLRU (frames : Nat) (pages : List Int) : Option Lru :=
  pages.foldlM request (Lru.init frames)

theorem simulateLRU_concat {frames : Nat} {past : List Int} {page : Int} {st : Lru}
    (h : simulateLRU frames past = some st) :
    simulateLRU frames (past ++ [page]) = request st page := by
  unfold simulateLRU at h ⊢
  rw [List.foldlM_append, h]
  simp

/-! ## The searches -/

theorem findPage_eq_some {buffer : List Int} {page : Int} {pos : Nat}
    (h : findPage buffer page = some pos) : ∃ hpos : pos < buffer.length, buffer[pos] = page := by
  obtain ⟨hpos, hpage, -⟩ := List.findIdx?_eq_some_iff_getElem.mp h
  exact ⟨hpos, by simpa using hpage⟩

theorem findPage_eq_none {buffer : List Int} {page : Int} (h : findPage buffer page = none) :
    page ∉ buffer := by
  rw [findPage, List.findIdx?_eq_none_iff] at h
  intro hmem
  simpa using h page hmem

/-- After `n` rounds the frame chosen is the least of the first `n + 1`. -/
theorem findLRU_rounds (time : List Int) (n : Nat) :
    let lru := (List.range' 1 n).foldl
      (fun lru j => if time.getD j 0 < time.getD lru 0 then j else lru) 0
    lru ≤ n ∧ ∀ j, j ≤ n → time.getD lru 0 ≤ time.getD j 0 := by
  induction n with
  | zero =>
      constructor
      · exact Nat.le_refl 0
      · intro j hj
        rw [Nat.le_zero.mp hj]
        exact Int.le_refl _
  | succ n ih =>
      rw [List.range'_1_concat, List.foldl_append, List.foldl_cons, List.foldl_nil,
        Nat.add_comm 1 n]
      obtain ⟨hle, hleast⟩ := ih
      split
      · rename_i hlt
        constructor
        · exact Nat.le_refl _
        · intro j hj
          rcases Nat.lt_or_eq_of_le hj with hj | rfl
          · exact Int.le_of_lt (Int.lt_of_lt_of_le hlt (hleast j (by omega)))
          · exact Int.le_refl _
      · rename_i hge
        constructor
        · exact Nat.le_succ_of_le hle
        · intro j hj
          rcases Nat.lt_or_eq_of_le hj with hj | rfl
          · exact hleast j (by omega)
          · exact Int.not_lt.mp hge

/-- The frame chosen has the least stamp. -/
theorem findLRU_least {time : List Int} (h : 0 < time.length) :
    findLRU time < time.length ∧
      ∀ j, j < time.length → time.getD (findLRU time) 0 ≤ time.getD j 0 := by
  obtain ⟨hle, hleast⟩ := findLRU_rounds time (time.length - 1)
  constructor
  · show (List.range' 1 (time.length - 1)).foldl _ 0 < time.length
    omega
  · intro j hj
    exact hleast j (by omega)

/-! ## Stamps are the numbers of the latest requests -/

/-- The pages in the frames. -/
def occupied (st : Lru) : List Int := st.buffer.filter (· ≠ -1)

/-- The state after the requests `past`, the latest first. -/
structure Stamped (frames : Nat) (past : List Int) (st : Lru) : Prop where
  buffer : st.buffer.length = frames
  time : st.time.length = frames
  pages : (occupied st).Perm (recent frames past)
  stamps : ∀ (i : Nat) (page : Int), st.buffer[i]? = some page → page ≠ -1 →
    st.time[i]? = some (lastUse past page : Int)
  counted : st.counter = past.length
  total : st.hits + st.misses = st.counter
  hits : 0 ≤ st.hits
  misses : 0 ≤ st.misses

/-- A request that ends with `page` and the new stamp in frame `i`, the other frames
being the rest of the recent pages. -/
theorem Stamped.use {frames : Nat} {past : List Int} {st st' : Lru} {page : Int} {i : Nat}
    (hst : Stamped frames past st) (hreal : page ≠ -1) (hi : i < st.buffer.length)
    (hbuffer : st'.buffer = st.buffer.set i page)
    (hcounter : st'.counter = st.counter + 1)
    (htime : st'.time = st.time.set i st'.counter)
    (hrest : (page :: (st.buffer.eraseIdx i).filter (· ≠ -1)).Perm (recent frames (page :: past)))
    (htotal : st'.hits + st'.misses = st'.counter) (hhits : 0 ≤ st'.hits)
    (hmisses : 0 ≤ st'.misses) :
    Stamped frames (page :: past) st' := by
  have hcounted : st'.counter = ((page :: past).length : Int) := by
    rw [hcounter, hst.counted, List.length_cons]
    omega
  constructor
  · rw [hbuffer, List.length_set, hst.buffer]
  · rw [htime, List.length_set, hst.time]
  · have hset : (occupied st').Perm (page :: (st.buffer.eraseIdx i).filter (· ≠ -1)) := by
      have hperm := (List.set_perm_cons_eraseIdx hi page).filter (· ≠ -1)
      rw [List.filter_cons_of_pos (by simpa using hreal)] at hperm
      rw [occupied, hbuffer]
      exact hperm
    exact hset.trans hrest
  · intro j x hx hxreal
    rw [htime, List.getElem?_set]
    rw [hbuffer, List.getElem?_set] at hx
    by_cases hij : i = j
    · have hlt : i < st.time.length := by
        rw [hst.time, ← hst.buffer]
        exact hi
      have hpage : page = x := by simpa [hij, hij ▸ hi] using hx
      rw [if_pos hij, if_pos hlt, hcounted, ← hpage, lastUse_cons_self]
      rfl
    · rw [if_neg hij] at hx ⊢
      -- the other pages are not the one requested
      have hmem : x ∈ (st.buffer.eraseIdx i).filter (· ≠ -1) := by
        rw [List.mem_filter, List.mem_eraseIdx_iff_getElem?]
        exact ⟨⟨j, Ne.symm hij, hx⟩, by simpa using hxreal⟩
      have hne : page ≠ x := by
        have hnodup := hrest.nodup_iff.mpr (nodup_recent frames (page :: past))
        rintro rfl
        exact (List.nodup_cons.mp hnodup).1 hmem
      rw [hst.stamps j x hx hxreal, lastUse_cons_of_ne past hne]
  · exact hcounted
  · exact htotal
  · exact hhits
  · exact hmisses

/-- An `int` counts the requests without overflow. -/
theorem increment_eq {n : Int} (h : n < 2147483647) : increment n = some (n + 1) := if_pos h

section OneRequest

variable {frames : Nat} {past : List Int} {st : Lru} {page : Int}

theorem Stamped.mem_occupied (hst : Stamped frames past st) (x : Int) :
    x ∈ recent frames past ↔ x ∈ st.buffer ∧ x ≠ -1 := by
  rw [← hst.pages.mem_iff, occupied, List.mem_filter, decide_eq_true_iff]

/-- Taking the frame `i` out of the buffer. -/
theorem occupied_perm {i : Nat} (hi : i < st.buffer.length) :
    (List.filter (· ≠ -1) (st.buffer[i] :: st.buffer.eraseIdx i)).Perm (occupied st) :=
  (List.getElem_cons_eraseIdx_perm hi).filter _

/-- A hit: the frame found keeps its page. -/
theorem Stamped.rest_hit (hst : Stamped frames past st) (hreal : page ≠ -1) {i : Nat}
    (hi : i < st.buffer.length) (hpage : st.buffer[i] = page) :
    (page :: (st.buffer.eraseIdx i).filter (· ≠ -1)).Perm (recent frames (page :: past)) := by
  have hperm := occupied_perm hi
  rw [hpage, List.filter_cons_of_pos (by simpa using hreal)] at hperm
  have hmem : page ∈ recent frames past := by
    rw [hst.mem_occupied]
    exact ⟨hpage ▸ List.getElem_mem hi, hreal⟩
  rw [recent_cons_of_mem hmem]
  exact (hperm.trans hst.pages).trans (List.perm_cons_erase hmem)

/-- A miss that fills an empty frame. -/
theorem Stamped.rest_insert (hst : Stamped frames past st) (hnew : page ∉ recent frames past)
    {i : Nat} (hi : i < st.buffer.length) (hempty : st.buffer[i] = -1) :
    (page :: (st.buffer.eraseIdx i).filter (· ≠ -1)).Perm (recent frames (page :: past)) := by
  have hperm := occupied_perm hi
  rw [hempty, List.filter_cons_of_neg (by simp)] at hperm
  have hrecent := hperm.trans hst.pages
  -- one frame is empty, so all recent pages but one frame's worth are kept
  have hroom : (recent frames past).length < frames := by
    rw [← hrecent.length_eq, ← hst.buffer]
    have hfilter := List.length_filter_le (fun x => decide (x ≠ -1)) (st.buffer.eraseIdx i)
    rw [List.length_eraseIdx_of_lt hi] at hfilter
    omega
  obtain ⟨n, rfl⟩ : ∃ n, frames = n + 1 := ⟨frames - 1, by omega⟩
  have hall : recent n past = recent (n + 1) past := by
    rw [← take_recent (Nat.le_add_right n 1) past]
    exact List.take_of_length_le (by omega)
  rw [recent_cons_of_not_mem hnew, hall]
  exact hrecent.cons page

/-- A miss without an empty frame: the page with the least stamp leaves. -/
theorem Stamped.rest_evict (hst : Stamped frames past st) (hframes : 1 ≤ frames)
    (hnew : page ∉ recent frames past) (hfull : -1 ∉ st.buffer) :
    findLRU st.time < st.buffer.length ∧
      (page :: (st.buffer.eraseIdx (findLRU st.time)).filter (· ≠ -1)).Perm
        (recent frames (page :: past)) := by
  obtain ⟨hlt, hleast⟩ := findLRU_least (by rw [hst.time]; omega : 0 < st.time.length)
  rw [hst.time] at hlt hleast
  have hi : findLRU st.time < st.buffer.length := by rw [hst.buffer]; exact hlt
  refine ⟨hi, ?_⟩
  have hreal : ∀ x ∈ st.buffer, x ≠ -1 := by
    rintro x hx rfl
    exact hfull hx
  have hold : st.buffer[findLRU st.time] ≠ -1 := hreal _ (List.getElem_mem hi)
  have hperm := occupied_perm hi
  rw [List.filter_cons_of_pos (by simpa using hold)] at hperm
  have hrecent := hperm.trans hst.pages
  obtain ⟨n, rfl⟩ : ∃ n, frames = n + 1 := ⟨frames - 1, by omega⟩
  -- all frames are occupied, and the stamps are in the order of the latest uses
  have hcount : (recent (n + 1) past).length = n + 1 := by
    rw [← hst.pages.length_eq, occupied, ← hst.buffer]
    congr 1
    rw [List.filter_eq_self]
    intro x hx
    simpa using hreal x hx
  have hstamp : ∀ (j : Nat) (x : Int), st.buffer[j]? = some x →
      st.time.getD j 0 = (lastUse past x : Int) := by
    intro j x hx
    rw [List.getD_eq_getElem?_getD, hst.stamps j x hx (hreal x (List.mem_of_getElem? hx)),
      Option.getD_some]
  have hlast : recent (n + 1) past = recent n past ++ [st.buffer[findLRU st.time]] := by
    apply recent_eq_concat hcount
    · rw [hst.mem_occupied]
      exact ⟨List.getElem_mem hi, hold⟩
    · intro x hx
      obtain ⟨j, hj, hxj⟩ := List.getElem_of_mem ((hst.mem_occupied x).mp hx).1
      have hle := hleast j (by rw [← hst.buffer]; exact hj)
      rw [hstamp _ _ (List.getElem?_eq_getElem hi),
        hstamp j x (by rw [List.getElem?_eq_getElem hj, hxj])] at hle
      omega
  rw [recent_cons_of_not_mem hnew]
  rw [hlast] at hrecent
  exact (hrecent.trans (List.perm_append_singleton _ _)).cons_inv.cons page

end OneRequest

/-! ## Whole runs -/

theorem stamped_init (frames : Nat) : Stamped frames [] (Lru.init frames) := by
  constructor
  · simp [Lru.init]
  · simp [Lru.init]
  · simp [occupied, Lru.init, recent, order]
  · intro i page hpage hreal
    exact absurd (List.eq_of_mem_replicate (List.mem_of_getElem? hpage)) hreal
  · rfl
  · rfl
  · exact Int.le_refl 0
  · exact Int.le_refl 0

/-- What one request does, in a string that an `int` can count. -/
structure Served (frames : Nat) (past : List Int) (page : Int) (st st' : Lru) : Prop where
  stamped : Stamped frames (page :: past) st'
  hit : page ∈ recent frames past → st'.hits = st.hits + 1 ∧ st'.misses = st.misses
  miss : page ∉ recent frames past → st'.hits = st.hits ∧ st'.misses = st.misses + 1
  kept : -1 ∈ st.buffer → ∀ x ∈ st.buffer, x ≠ -1 → x ∈ st'.buffer

/-- A miss that puts the page into frame `i`. -/
theorem Stamped.served_miss {frames : Nat} {past : List Int} {st : Lru} {page : Int} {i : Nat}
    (hst : Stamped frames past st) (hreal : page ≠ -1) (hnew : page ∉ recent frames past)
    (hi : i < st.buffer.length)
    (hrest : (page :: (st.buffer.eraseIdx i).filter (· ≠ -1)).Perm (recent frames (page :: past)))
    (hkept : -1 ∈ st.buffer → ∀ x ∈ st.buffer, x ≠ -1 → x ∈ st.buffer.set i page) :
    Served frames past page st
      { st with
        misses := st.misses + 1
        counter := st.counter + 1
        buffer := st.buffer.set i page
        time := st.time.set i (st.counter + 1) } := by
  have htotal := hst.total
  have hmisses := hst.misses
  constructor
  · apply hst.use hreal hi
    · rfl
    · rfl
    · rfl
    · exact hrest
    · show st.hits + (st.misses + 1) = st.counter + 1
      omega
    · exact hst.hits
    · show 0 ≤ st.misses + 1
      omega
  · exact fun hmem => absurd hmem hnew
  · exact fun _ => ⟨rfl, rfl⟩
  · exact hkept

theorem request_served {frames : Nat} {past : List Int} {st : Lru} {page : Int}
    (hst : Stamped frames past st) (hframes : 1 ≤ frames) (hreal : page ≠ -1)
    (hlen : past.length + 1 < 2147483648) :
    ∃ st', request st page = some st' ∧ Served frames past page st st' := by
  have hcounted := hst.counted
  have htotal := hst.total
  have hhits := hst.hits
  have hmisses := hst.misses
  have hcounter : increment st.counter = some (st.counter + 1) := increment_eq (by omega)
  cases hpos : findPage st.buffer page with
  | some pos =>
      obtain ⟨hi, hpage⟩ := findPage_eq_some hpos
      have hhit : increment st.hits = some (st.hits + 1) := increment_eq (by omega)
      have hmem : page ∈ recent frames past := by
        rw [hst.mem_occupied]
        exact ⟨hpage ▸ List.getElem_mem hi, hreal⟩
      refine ⟨_, by simp [request, hpos, hhit, hcounter]; rfl, ?_⟩
      constructor
      · apply hst.use hreal hi
        · show st.buffer = st.buffer.set pos page
          rw [← hpage, List.set_getElem_self]
        · rfl
        · rfl
        · exact hst.rest_hit hreal hi hpage
        · show st.hits + 1 + st.misses = st.counter + 1
          omega
        · show 0 ≤ st.hits + 1
          omega
        · exact hmisses
      · exact fun _ => ⟨rfl, rfl⟩
      · exact fun hnew => absurd hmem hnew
      · exact fun _ x hx _ => hx
  | none =>
      have hmiss : increment st.misses = some (st.misses + 1) := increment_eq (by omega)
      have hnew : page ∉ recent frames past := by
        rw [hst.mem_occupied]
        exact fun hmem => findPage_eq_none hpos hmem.1
      cases hfree : findEmpty st.buffer with
      | some empty =>
          obtain ⟨hi, hempty⟩ := findPage_eq_some hfree
          refine ⟨_, by simp [request, hpos, hmiss, hcounter, hfree]; rfl, ?_⟩
          apply hst.served_miss hreal hnew hi (hst.rest_insert hnew hi hempty)
          -- the frame written to held no page
          intro _ x hx hxreal
          obtain ⟨j, hj, hxj⟩ := List.getElem_of_mem hx
          have hne : empty ≠ j := by
            rintro rfl
            exact hxreal (hxj.symm.trans hempty)
          apply List.mem_of_getElem?
          rw [List.getElem?_set_ne hne, List.getElem?_eq_getElem hj, hxj]
      | none =>
          have hfull : -1 ∉ st.buffer := findPage_eq_none hfree
          obtain ⟨hi, hrest⟩ := hst.rest_evict hframes hnew hfull
          refine ⟨_, by simp [request, hpos, hmiss, hcounter, hfree]; rfl, ?_⟩
          apply hst.served_miss hreal hnew hi hrest
          exact fun hempty => absurd hempty hfull

/-- A reference string that the counters can count. -/
structure Countable (pages : List Int) : Prop where
  real : ∀ page ∈ pages, page ≠ -1
  short : pages.length < 2147483648

theorem Countable.of_prefix {past pages : List Int} (h : Countable pages)
    (hpast : past <+: pages) : Countable past := by
  constructor
  · exact fun page hpage => h.real page (hpast.subset hpage)
  · exact Nat.lt_of_le_of_lt hpast.length_le h.short

theorem served_of_stamped {frames : Nat} {past : List Int} {page : Int} {st : Lru}
    (hframes : 1 ≤ frames) (h : Countable (past ++ [page]))
    (hrun : simulateLRU frames past = some st) (hst : Stamped frames past.reverse st) :
    ∃ st', simulateLRU frames (past ++ [page]) = some st' ∧
      Served frames past.reverse page st st' := by
  have hlen := h.short
  rw [List.length_append, List.length_singleton] at hlen
  have hreal : page ≠ -1 := h.real page (by simp)
  obtain ⟨st', hreq, hserved⟩ := request_served hst hframes hreal
    (by rw [List.length_reverse]; exact hlen)
  exact ⟨st', by rw [simulateLRU_concat hrun, hreq], hserved⟩

theorem stamped_simulateLRU {frames : Nat} (hframes : 1 ≤ frames) {pages : List Int}
    (h : Countable pages) :
    ∃ st, simulateLRU frames pages = some st ∧ Stamped frames pages.reverse st := by
  induction pages using List.reverseRecOn with
  | nil => exact ⟨_, rfl, stamped_init frames⟩
  | append_singleton past page ih =>
      obtain ⟨st, hrun, hst⟩ := ih (h.of_prefix (List.prefix_append past [page]))
      obtain ⟨st', hrun', hserved⟩ := served_of_stamped hframes h hrun hst
      refine ⟨st', hrun', ?_⟩
      rw [List.reverse_append, List.reverse_singleton, List.singleton_append]
      exact hserved.stamped

/-- What the least recently used policy asks of a run over `pages`. -/
structure ImplementsLru (frames : Nat) (pages : List Int) : Prop where
  /-- The pages in the frames are the most recent ones, each once. -/
  contents : ∀ past, past <+: pages →
    ∃ st, simulateLRU frames past = some st ∧ (occupied st).Nodup ∧
      (∀ page, page ∈ occupied st ↔ page ∈ recent frames past.reverse) ∧
      (occupied st).length = min frames past.dedup.length
  /-- A hit is a request of one of them. -/
  hits : ∀ past page, past ++ [page] <+: pages →
    ∃ st st', simulateLRU frames past = some st ∧ simulateLRU frames (past ++ [page]) = some st' ∧
      (st'.hits = st.hits + 1 ↔ page ∈ recent frames past.reverse) ∧
      (st'.misses = st.misses + 1 ↔ page ∉ recent frames past.reverse)
  /-- No page leaves while a frame is empty. -/
  kept : ∀ past page, past ++ [page] <+: pages →
    ∃ st st', simulateLRU frames past = some st ∧ simulateLRU frames (past ++ [page]) = some st' ∧
      (-1 ∈ st.buffer → ∀ x ∈ occupied st, x ∈ occupied st')

/-- **The simulator replaces the least recently used page.** -/
theorem implementsLru (frames : Nat) (hframes : 1 ≤ frames) (pages : List Int)
    (hpages : ∀ page ∈ pages, page ≠ -1) (hlen : pages.length < 2147483648) :
    ImplementsLru frames pages := by
  have hcountable : Countable pages := { real := hpages, short := hlen }
  have hstep : ∀ past page, past ++ [page] <+: pages →
      ∃ st st', simulateLRU frames past = some st ∧
        simulateLRU frames (past ++ [page]) = some st' ∧ Stamped frames past.reverse st ∧
        Served frames past.reverse page st st' := by
    intro past page hpast
    have hboth := hcountable.of_prefix hpast
    obtain ⟨st, hrun, hst⟩ :=
      stamped_simulateLRU hframes (hboth.of_prefix (List.prefix_append past [page]))
    obtain ⟨st', hrun', hserved⟩ := served_of_stamped hframes hboth hrun hst
    exact ⟨st, st', hrun, hrun', hst, hserved⟩
  constructor
  · intro past hpast
    obtain ⟨st, hrun, hst⟩ := stamped_simulateLRU hframes (hcountable.of_prefix hpast)
    refine ⟨st, hrun, ?_, ?_, ?_⟩
    · exact hst.pages.nodup_iff.mpr (nodup_recent _ _)
    · exact fun page => hst.pages.mem_iff
    · rw [hst.pages.length_eq, length_recent, past.reverse_perm.dedup.length_eq]
  · intro past page hpast
    obtain ⟨st, st', hrun, hrun', hst, hserved⟩ := hstep past page hpast
    refine ⟨st, st', hrun, hrun', ?_⟩
    by_cases hmem : page ∈ recent frames past.reverse
    · have hhit := hserved.hit hmem
      exact ⟨iff_of_true hhit.1 hmem, iff_of_false (by omega) (not_not_intro hmem)⟩
    · have hmiss := hserved.miss hmem
      exact ⟨iff_of_false (by omega) hmem, iff_of_true hmiss.2 hmem⟩
  · intro past page hpast
    obtain ⟨st, st', hrun, hrun', hst, hserved⟩ := hstep past page hpast
    refine ⟨st, st', hrun, hrun', ?_⟩
    intro hempty x hx
    rw [occupied, List.mem_filter, decide_eq_true_iff] at hx ⊢
    exact ⟨hserved.kept hempty x hx.1 hx.2, hx.2⟩

theorem implementsLru_five : ImplementsLru 2 [3, 1, 3, 0, 1] :=
  implementsLru 2 (by decide) [3, 1, 3, 0, 1] (by decide) (by decide)

end SystemsInC.Ports.LruPaging
