import Mathlib.Data.Fintype.Card
import Mathlib.Data.List.FinRange
import SystemsInC.Verified.AcyclicRelation

/-!
# Cycle detection on the wait-for matrix

`dfs_cycle` and `detect_deadlock` of `mvcc-in-memory-key-value.c`, over any
number `n` of transactions.  The source recurses without a bound; here the
recursion carries fuel, and `detectDeadlock_terminates` shows that `n` is
always enough, so `detectDeadlock` itself is total.

## Main results

* `dfsCycle_isSome`: a call on an unvisited vertex returns.
* `dfsCycle_finished`: a call that returns `false` leaves the finished
  vertices closed under edges and free of cycles.
* `acyclic_of_detectDeadlock_eq_false`: the verdict "no deadlock" is right.
* `detectDeadlock_iff`: so is the verdict "deadlock".
* `cycleDetection_exact`: both, for any bound on the recursion from `n` on.
-/

namespace SystemsInC.Ports.WaitForGraph

open SystemsInC.Verified.AcyclicRelation

variable {n : Nat}

/-! ## The search -/

/-- The two arrays shared by all calls of one `detect_deadlock`. -/
structure DfsState (n : Nat) where
  visited : Fin n → Bool
  recStack : Fin n → Bool

/-- `visited[u] = 1; recStack[u] = 1;` -/
def DfsState.enter (s : DfsState n) (u : Fin n) : DfsState n :=
  { visited := Function.update s.visited u true
    recStack := Function.update s.recStack u true }

/-- `recStack[u] = 0;` -/
def DfsState.leave (s : DfsState n) (u : Fin n) : DfsState n :=
  { s with recStack := Function.update s.recStack u false }

/-- The `for` loop of `dfs_cycle(u)` over the vertices that remain; `visit` is
the recursive call. -/
def dfsSuccessors (waitFor : Fin n → Fin n → Bool)
    (visit : Fin n → DfsState n → Option (Bool × DfsState n)) (u : Fin n) :
    List (Fin n) → DfsState n → Option (Bool × DfsState n)
  | [], s => some (false, s.leave u)
  | v :: vs, s =>
      if waitFor u v then
        if s.visited v then
          if s.recStack v then some (true, s) else dfsSuccessors waitFor visit u vs s
        else
          match visit v s with
          | none => none
          | some (true, s') => some (true, s')
          | some (false, s') =>
              if s'.recStack v then some (true, s')
              else dfsSuccessors waitFor visit u vs s'
      else dfsSuccessors waitFor visit u vs s

/-- `dfs_cycle(u, visited, recStack)`; `none` is running out of fuel. -/
def dfsCycle (waitFor : Fin n → Fin n → Bool) :
    Nat → Fin n → DfsState n → Option (Bool × DfsState n)
  | 0, _, _ => none
  | fuel + 1, u, s =>
      dfsSuccessors waitFor (dfsCycle waitFor fuel) u (List.finRange n) (s.enter u)

/-- The `for` loop of `detect_deadlock` over the roots that remain. -/
def dfsRoots (waitFor : Fin n → Fin n → Bool) (fuel : Nat) :
    List (Fin n) → DfsState n → Option (Bool × DfsState n)
  | [], s => some (false, s)
  | i :: roots, s =>
      if s.visited i then dfsRoots waitFor fuel roots s
      else
        match dfsCycle waitFor fuel i s with
        | none => none
        | some (true, s') => some (true, s')
        | some (false, s') => dfsRoots waitFor fuel roots s'

/-- Both arrays as `detect_deadlock` initialises them. -/
def DfsState.fresh (n : Nat) : DfsState n :=
  { visited := fun _ => false
    recStack := fun _ => false }

/-- `detect_deadlock()` with explicit fuel. -/
def detectDeadlockFuel (waitFor : Fin n → Fin n → Bool) (fuel : Nat) : Option Bool :=
  (dfsRoots waitFor fuel (List.finRange n) (DfsState.fresh n)).map Prod.fst

/-! ## Termination

The fuel bounds the number of unvisited vertices.
-/

/-- Number of vertices not visited yet. -/
def DfsState.unvisited (s : DfsState n) : Nat :=
  (Finset.univ.filter (fun v => s.visited v = false)).card

/-- `s'` has visited everything `s` has. -/
def DfsState.Extends (s s' : DfsState n) : Prop :=
  ∀ v, s.visited v = true → s'.visited v = true

theorem DfsState.Extends.refl (s : DfsState n) : s.Extends s := fun _ h => h

theorem DfsState.Extends.trans {s s' s'' : DfsState n} (h : s.Extends s')
    (h' : s'.Extends s'') : s.Extends s'' := fun v hv => h' v (h v hv)

theorem DfsState.extends_enter (s : DfsState n) (u : Fin n) : s.Extends (s.enter u) := by
  intro v hv
  by_cases hvu : v = u
  · subst hvu; simp [enter]
  · simpa [enter, hvu] using hv

theorem DfsState.unvisited_le {s s' : DfsState n} (h : s.Extends s') :
    s'.unvisited ≤ s.unvisited := by
  apply Finset.card_le_card
  intro v hv
  simp only [Finset.mem_filter, Finset.mem_univ, true_and] at hv ⊢
  by_contra hne
  have hvis := h v (by simpa using hne)
  simp [hv] at hvis

theorem DfsState.unvisited_enter_lt {s : DfsState n} {u : Fin n}
    (hu : s.visited u = false) : (s.enter u).unvisited < s.unvisited := by
  apply Finset.card_lt_card
  refine ⟨?_, ?_⟩
  · intro v hv
    simp only [Finset.mem_filter, Finset.mem_univ, true_and] at hv ⊢
    by_cases hvu : v = u
    · subst hvu; exact hu
    · simpa [enter, hvu] using hv
  · intro hsub
    have hmem : u ∈ Finset.univ.filter (fun v => (s.enter u).visited v = false) :=
      hsub (by simp [hu])
    have hvis := (Finset.mem_filter.mp hmem).2
    simp [enter] at hvis

theorem DfsState.unvisited_fresh_le : (DfsState.fresh n).unvisited ≤ n := by
  have h := Finset.card_filter_le (Finset.univ : Finset (Fin n))
    (fun v => (DfsState.fresh n).visited v = false)
  simpa [unvisited] using h

/-- The call `visit v s` returns and forgets no visited vertex. -/
def Returns (visit : Fin n → DfsState n → Option (Bool × DfsState n))
    (v : Fin n) (s : DfsState n) : Prop :=
  ∃ b s', visit v s = some (b, s') ∧ s.Extends s'

theorem dfsSuccessors_isSome (waitFor : Fin n → Fin n → Bool) (fuel : Nat)
    (visit : Fin n → DfsState n → Option (Bool × DfsState n))
    (hvisit : ∀ v s, s.visited v = false → s.unvisited ≤ fuel → Returns visit v s)
    (u : Fin n) (vs : List (Fin n)) :
    ∀ s : DfsState n, s.unvisited ≤ fuel →
      ∃ b s', dfsSuccessors waitFor visit u vs s = some (b, s') ∧ s.Extends s' := by
  induction vs with
  | nil => exact fun s _ => ⟨false, s.leave u, rfl, fun _ hv => hv⟩
  | cons v vs ih =>
      intro s hs
      rw [dfsSuccessors]
      by_cases hedge : waitFor u v = true
      · rw [if_pos hedge]
        by_cases hvis : s.visited v = true
        · rw [if_pos hvis]
          by_cases hrec : s.recStack v = true
          · exact ⟨true, s, if_pos hrec, .refl s⟩
          · rw [if_neg hrec]
            exact ih s hs
        · rw [if_neg hvis]
          obtain ⟨b, s', hcall, hext⟩ := hvisit v s (by simpa using hvis) hs
          rw [hcall]
          cases b with
          | true => exact ⟨true, s', rfl, hext⟩
          | false =>
              by_cases hrec : s'.recStack v = true
              · exact ⟨true, s', if_pos hrec, hext⟩
              · obtain ⟨b, s'', hrest, hext'⟩ :=
                  ih s' (Nat.le_trans (DfsState.unvisited_le hext) hs)
                exact ⟨b, s'', (if_neg hrec).trans hrest, hext.trans hext'⟩
      · rw [if_neg hedge]
        exact ih s hs

/-- A call of `dfs_cycle` on an unvisited vertex returns once the fuel covers
the unvisited vertices. -/
theorem dfsCycle_isSome (waitFor : Fin n → Fin n → Bool) (fuel : Nat) :
    ∀ (u : Fin n) (s : DfsState n), s.visited u = false → s.unvisited ≤ fuel →
      Returns (dfsCycle waitFor fuel) u s := by
  induction fuel with
  | zero =>
      intro u s hu hs
      have hlt := DfsState.unvisited_enter_lt hu
      omega
  | succ fuel ih =>
      intro u s hu hs
      have hlt := DfsState.unvisited_enter_lt hu
      obtain ⟨b, s', hcall, hext⟩ := dfsSuccessors_isSome waitFor fuel
        (dfsCycle waitFor fuel) ih u (List.finRange n) (s.enter u) (by omega)
      exact ⟨b, s', hcall, (s.extends_enter u).trans hext⟩

theorem dfsRoots_isSome (waitFor : Fin n → Fin n → Bool) (fuel : Nat)
    (roots : List (Fin n)) :
    ∀ s : DfsState n, s.unvisited ≤ fuel → (dfsRoots waitFor fuel roots s).isSome := by
  induction roots with
  | nil => exact fun s _ => rfl
  | cons i roots ih =>
      intro s hs
      rw [dfsRoots]
      by_cases hvis : s.visited i = true
      · rw [if_pos hvis]
        exact ih s hs
      · rw [if_neg hvis]
        obtain ⟨b, s', hcall, hext⟩ :=
          dfsCycle_isSome waitFor fuel i s (by simpa using hvis) hs
        rw [hcall]
        cases b with
        | true => rfl
        | false => exact ih s' (Nat.le_trans (DfsState.unvisited_le hext) hs)

/-- Fuel `n` is enough for every matrix. -/
theorem detectDeadlock_terminates (waitFor : Fin n → Fin n → Bool) :
    (detectDeadlockFuel waitFor n).isSome := by
  rw [detectDeadlockFuel, Option.isSome_map]
  exact dfsRoots_isSome waitFor n _ _ DfsState.unvisited_fresh_le

/-- `detect_deadlock()`. -/
def detectDeadlock (waitFor : Fin n → Fin n → Bool) : Bool :=
  (detectDeadlockFuel waitFor n).get (detectDeadlock_terminates waitFor)

/-! ## The verdict "no deadlock"

A vertex is finished when it has been visited and has left the recursion
stack.  As long as no call returns `true`, the finished vertices are closed
under edges and no cycle meets them.
-/

/-- The edge relation of the matrix. -/
def Waits (waitFor : Fin n → Fin n → Bool) (i j : Fin n) : Prop := waitFor i j = true

/-- Visited and off the recursion stack. -/
def DfsState.black (s : DfsState n) : Set (Fin n) :=
  {v | s.visited v = true ∧ s.recStack v = false}

/-- What the search maintains between calls. -/
structure SearchInv (waitFor : Fin n → Fin n → Bool) (s : DfsState n) : Prop where
  stackVisited : ∀ v, s.recStack v = true → s.visited v = true
  finished : Finished (Waits waitFor) s.black

/-- What a call on `u` that returned `false` did to the arrays. -/
structure Explored (waitFor : Fin n → Fin n → Bool) (u : Fin n)
    (s s' : DfsState n) : Prop where
  inv : SearchInv waitFor s'
  stack : ∀ v, s'.recStack v = s.recStack v
  mono : s.Extends s'
  done : s'.visited u = true

theorem Explored.black_mono {waitFor : Fin n → Fin n → Bool} {u v : Fin n}
    {s s' : DfsState n} (h : Explored waitFor u s s') (hv : v ∈ s.black) :
    v ∈ s'.black :=
  ⟨h.mono v hv.1, (h.stack v).trans hv.2⟩

theorem searchInv_fresh (waitFor : Fin n → Fin n → Bool) :
    SearchInv waitFor (DfsState.fresh n) where
  stackVisited := by simp [DfsState.fresh]
  finished := (finished_empty _).congr (by simp [DfsState.black, DfsState.fresh])

theorem SearchInv.enter {waitFor : Fin n → Fin n → Bool} {s : DfsState n}
    (h : SearchInv waitFor s) {u : Fin n} (hu : s.visited u = false) :
    SearchInv waitFor (s.enter u) := by
  refine
    { stackVisited := ?_
      finished := h.finished.congr ?_ }
  · intro v hv
    by_cases hvu : v = u
    · subst hvu; simp [DfsState.enter]
    · simp only [DfsState.enter, Function.update_of_ne hvu] at hv ⊢
      exact h.stackVisited v hv
  · intro v
    by_cases hvu : v = u
    · subst hvu; simp [DfsState.black, DfsState.enter, hu]
    · simp [DfsState.black, DfsState.enter, hvu]

/-- Leaving `u` after all its successors are finished finishes `u`. -/
theorem SearchInv.leave {waitFor : Fin n → Fin n → Bool} {s : DfsState n}
    (h : SearchInv waitFor s) {u : Fin n} (hu : s.recStack u = true)
    (hsucc : ∀ b, Waits waitFor u b → b ∈ s.black) :
    SearchInv waitFor (s.leave u) := by
  have hnot : u ∉ s.black := by simp [DfsState.black, hu]
  refine
    { stackVisited := ?_
      finished := (h.finished.insert hnot hsucc).congr ?_ }
  · intro v hv
    by_cases hvu : v = u
    · subst hvu; simp [DfsState.leave] at hv
    · simp only [DfsState.leave, Function.update_of_ne hvu] at hv ⊢
      exact h.stackVisited v hv
  · intro v
    by_cases hvu : v = u
    · subst hvu; simp [DfsState.black, DfsState.leave, h.stackVisited _ hu]
    · simp [DfsState.black, DfsState.leave, hvu]

/-- What the loop over the successors of `u` does with the vertex `v`. -/
inductive SuccessorRound (waitFor : Fin n → Fin n → Bool)
    (visit : Fin n → DfsState n → Option (Bool × DfsState n)) (u v : Fin n) (vs : List (Fin n))
    (s : DfsState n) (r : Bool × DfsState n) : Prop
  /-- there is no edge, or `v` is finished -/
  | skip (hskip : waitFor u v = true → s.visited v = true ∧ s.recStack v = false)
      (hrest : dfsSuccessors waitFor visit u vs s = some r)
  | back (hedge : waitFor u v = true) (hrec : s.recStack v = true) (hr : r = (true, s))
  /-- the call of `dfs_cycle(v)` returns 1 -/
  | found (s₁ : DfsState n) (hedge : waitFor u v = true) (hnew : s.visited v = false)
      (hcall : visit v s = some (true, s₁)) (hr : r = (true, s₁))
  /-- the call returns 0 and leaves `v` on the stack -/
  | stays (s₁ : DfsState n) (hedge : waitFor u v = true) (hnew : s.visited v = false)
      (hcall : visit v s = some (false, s₁)) (hrec : s₁.recStack v = true) (hr : r = (true, s₁))
  | descend (s₁ : DfsState n) (hedge : waitFor u v = true) (hnew : s.visited v = false)
      (hcall : visit v s = some (false, s₁)) (hrec : s₁.recStack v = false)
      (hrest : dfsSuccessors waitFor visit u vs s₁ = some r)

theorem dfsSuccessors_cons {waitFor : Fin n → Fin n → Bool}
    {visit : Fin n → DfsState n → Option (Bool × DfsState n)} {u v : Fin n} {vs : List (Fin n)}
    {s : DfsState n} {r : Bool × DfsState n}
    (hrun : dfsSuccessors waitFor visit u (v :: vs) s = some r) :
    SuccessorRound waitFor visit u v vs s r := by
  rw [dfsSuccessors] at hrun
  by_cases hedge : waitFor u v = true
  · rw [if_pos hedge] at hrun
    by_cases hvis : s.visited v = true
    · rw [if_pos hvis] at hrun
      by_cases hrec : s.recStack v = true
      · rw [if_pos hrec] at hrun
        exact .back hedge hrec (Option.some.inj hrun).symm
      · rw [if_neg hrec] at hrun
        exact .skip (fun _ => ⟨hvis, by simpa using hrec⟩) hrun
    · rw [if_neg hvis] at hrun
      have hnew : s.visited v = false := by simpa using hvis
      cases hcall : visit v s with
      | none => simp [hcall] at hrun
      | some result =>
          obtain ⟨found, s₁⟩ := result
          rw [hcall] at hrun
          cases found with
          | true => exact .found s₁ hedge hnew hcall (Option.some.inj hrun).symm
          | false =>
              by_cases hrec : s₁.recStack v = true
              · simp only [if_pos hrec] at hrun
                exact .stays s₁ hedge hnew hcall hrec (Option.some.inj hrun).symm
              · simp only [if_neg hrec] at hrun
                exact .descend s₁ hedge hnew hcall (by simpa using hrec) hrun
  · rw [if_neg hedge] at hrun
    exact .skip (fun h => absurd h hedge) hrun

/-- The loop over the successors of `u`, when every recursive call that returns
`false` has explored its vertex.  `vs` holds the successors still to be
looked at; all others are finished. -/
theorem dfsSuccessors_finished (waitFor : Fin n → Fin n → Bool)
    (visit : Fin n → DfsState n → Option (Bool × DfsState n))
    (hvisit : ∀ v s s', SearchInv waitFor s → s.visited v = false →
      visit v s = some (false, s') → Explored waitFor v s s')
    (u : Fin n) (vs : List (Fin n)) :
    ∀ s s' : DfsState n, SearchInv waitFor s → s.recStack u = true →
      (∀ b, Waits waitFor u b → b ∈ s.black ∨ b ∈ vs) →
      dfsSuccessors waitFor visit u vs s = some (false, s') →
      SearchInv waitFor s' ∧ s.Extends s' ∧
        (∀ v, s'.recStack v = (s.leave u).recStack v) := by
  induction vs with
  | nil =>
      intro s s' hinv hu hsucc hrun
      have hs' : s' = s.leave u := by
        simpa [dfsSuccessors] using hrun.symm
      subst hs'
      exact ⟨hinv.leave hu (fun b hb => by simpa using hsucc b hb), fun _ hv => hv,
        fun _ => rfl⟩
  | cons v vs ih =>
      intro s s' hinv hu hsucc hrun
      cases dfsSuccessors_cons hrun with
      | back _ _ hr => cases hr
      | found _ _ _ _ hr => cases hr
      | stays _ _ _ _ _ hr => cases hr
      | skip hskip hrest =>
          refine ih s s' hinv hu (fun b hb => ?_) hrest
          rcases hsucc b hb with hblack | hmem
          · exact Or.inl hblack
          · rcases List.mem_cons.mp hmem with rfl | hmem
            · exact Or.inl (hskip hb)
            · exact Or.inr hmem
      | descend s₁ hedge hnew hcall hrec hrest =>
          have hexp := hvisit v s s₁ hinv hnew hcall
          have hsucc' : ∀ b, Waits waitFor u b → b ∈ s₁.black ∨ b ∈ vs := by
            intro b hb
            rcases hsucc b hb with hblack | hmem
            · exact Or.inl (hexp.black_mono hblack)
            · rcases List.mem_cons.mp hmem with rfl | hmem
              · exact Or.inl ⟨hexp.done, hrec⟩
              · exact Or.inr hmem
          obtain ⟨hinv', hext, hstack⟩ := ih s₁ s' hexp.inv ((hexp.stack u).trans hu) hsucc' hrest
          refine ⟨hinv', hexp.mono.trans hext, fun x => ?_⟩
          rw [hstack x]
          by_cases hxu : x = u
          · subst hxu; simp [DfsState.leave]
          · simp [DfsState.leave, hxu, hexp.stack x]

/-- A call of `dfs_cycle` that returns `false` has explored its vertex. -/
theorem dfsCycle_finished (waitFor : Fin n → Fin n → Bool) (fuel : Nat) :
    ∀ (u : Fin n) (s s' : DfsState n), SearchInv waitFor s → s.visited u = false →
      dfsCycle waitFor fuel u s = some (false, s') → Explored waitFor u s s' := by
  induction fuel with
  | zero => intro u s s' _ _ hrun; simp [dfsCycle] at hrun
  | succ fuel ih =>
      intro u s s' hinv hu hrun
      have hoff : s.recStack u = false := by
        by_contra hon
        have hvis := hinv.stackVisited u (by simpa using hon)
        simp [hu] at hvis
      obtain ⟨hinv', hext, hstack⟩ := dfsSuccessors_finished waitFor
        (dfsCycle waitFor fuel) ih u (List.finRange n) (s.enter u) s'
        (hinv.enter hu) (by simp [DfsState.enter])
        (fun b _ => Or.inr (List.mem_finRange b)) hrun
      refine
        { inv := hinv'
          stack := fun v => ?_
          mono := (s.extends_enter u).trans hext
          done := hext u (by simp [DfsState.enter]) }
      rw [hstack v]
      by_cases hvu : v = u
      · subst hvu; simp [DfsState.leave, hoff]
      · simp [DfsState.leave, DfsState.enter, hvu]

/-- What the loop over the roots does with the vertex `i`. -/
inductive RootRound (waitFor : Fin n → Fin n → Bool) (fuel : Nat) (i : Fin n)
    (roots : List (Fin n)) (s : DfsState n) (r : Bool × DfsState n) : Prop
  | skip (hvis : s.visited i = true) (hrest : dfsRoots waitFor fuel roots s = some r)
  | found (s₁ : DfsState n) (hnew : s.visited i = false)
      (hcall : dfsCycle waitFor fuel i s = some (true, s₁)) (hr : r = (true, s₁))
  | next (s₁ : DfsState n) (hnew : s.visited i = false)
      (hcall : dfsCycle waitFor fuel i s = some (false, s₁))
      (hrest : dfsRoots waitFor fuel roots s₁ = some r)

theorem dfsRoots_cons {waitFor : Fin n → Fin n → Bool} {fuel : Nat} {i : Fin n}
    {roots : List (Fin n)} {s : DfsState n} {r : Bool × DfsState n}
    (hrun : dfsRoots waitFor fuel (i :: roots) s = some r) :
    RootRound waitFor fuel i roots s r := by
  rw [dfsRoots] at hrun
  by_cases hvis : s.visited i = true
  · rw [if_pos hvis] at hrun
    exact .skip hvis hrun
  · rw [if_neg hvis] at hrun
    have hnew : s.visited i = false := by simpa using hvis
    cases hcall : dfsCycle waitFor fuel i s with
    | none => simp [hcall] at hrun
    | some result =>
        obtain ⟨found, s₁⟩ := result
        rw [hcall] at hrun
        cases found with
        | true => exact .found s₁ hnew hcall (Option.some.inj hrun).symm
        | false => exact .next s₁ hnew hcall hrun

theorem dfsRoots_finished (waitFor : Fin n → Fin n → Bool) (fuel : Nat)
    (roots : List (Fin n)) :
    ∀ s s' : DfsState n, SearchInv waitFor s → (∀ v, s.recStack v = false) →
      dfsRoots waitFor fuel roots s = some (false, s') →
      SearchInv waitFor s' ∧ s.Extends s' ∧ (∀ v, s'.recStack v = false) ∧
        ∀ i ∈ roots, s'.visited i = true := by
  induction roots with
  | nil =>
      intro s s' hinv hstack hrun
      have hs' : s' = s := by simpa [dfsRoots] using hrun.symm
      subst hs'
      exact ⟨hinv, .refl _, hstack, by simp⟩
  | cons i roots ih =>
      intro s s' hinv hstack hrun
      cases dfsRoots_cons hrun with
      | skip hvis hrest =>
          obtain ⟨hinv', hext, hstack', hroots⟩ := ih s s' hinv hstack hrest
          exact ⟨hinv', hext, hstack', List.forall_mem_cons.mpr ⟨hext i hvis, hroots⟩⟩
      | found _ _ _ hr => cases hr
      | next s₁ hnew hcall hrest =>
          have hexp := dfsCycle_finished waitFor fuel i s s₁ hinv hnew hcall
          obtain ⟨hinv', hext, hstack', hroots⟩ := ih s₁ s' hexp.inv
            (fun v => (hexp.stack v).trans (hstack v)) hrest
          exact ⟨hinv', hexp.mono.trans hext, hstack',
            List.forall_mem_cons.mpr ⟨hext i hexp.done, hroots⟩⟩

/-- When `detect_deadlock` answers `false` the matrix has no cycle. -/
theorem acyclic_of_detectDeadlock_eq_false (waitFor : Fin n → Fin n → Bool)
    (h : detectDeadlock waitFor = false) : Acyclic (Waits waitFor) := by
  have hrun : detectDeadlockFuel waitFor n = some false := by
    rw [← h, detectDeadlock, Option.some_get]
  rw [detectDeadlockFuel, Option.map_eq_some_iff] at hrun
  obtain ⟨⟨found, s'⟩, hroots, hfound⟩ := hrun
  simp only at hfound
  subst hfound
  obtain ⟨hinv, -, hstack, hvisited⟩ := dfsRoots_finished waitFor n (List.finRange n)
    (DfsState.fresh n) s' (searchInv_fresh waitFor) (fun _ => rfl) hroots
  exact hinv.finished.acyclic_of_univ
    (fun v => ⟨hvisited v (List.mem_finRange v), hstack v⟩)

/-! ## The verdict "deadlock"

Every vertex on the recursion stack reaches the vertex of the current call, so an
edge from there to the stack closes a cycle.
-/

/-- The loop over the successors of `u`, when every recursive call that returns
`true` has found a cycle. -/
theorem dfsSuccessors_cycle (waitFor : Fin n → Fin n → Bool)
    (visit : Fin n → DfsState n → Option (Bool × DfsState n))
    (hfalse : ∀ v s s', SearchInv waitFor s → s.visited v = false →
      visit v s = some (false, s') → Explored waitFor v s s')
    (htrue : ∀ v s s', SearchInv waitFor s → s.visited v = false →
      (∀ w, s.recStack w = true → Relation.TransGen (Waits waitFor) w v) →
      visit v s = some (true, s') → ¬ Acyclic (Waits waitFor))
    (u : Fin n) (vs : List (Fin n)) :
    ∀ s s' : DfsState n, SearchInv waitFor s →
      (∀ w, s.recStack w = true → Relation.ReflTransGen (Waits waitFor) w u) →
      dfsSuccessors waitFor visit u vs s = some (true, s') → ¬ Acyclic (Waits waitFor) := by
  induction vs with
  | nil =>
      intro s s' hinv hstack hrun
      simp [dfsSuccessors] at hrun
  | cons v vs ih =>
      intro s s' hinv hstack hrun
      have hreach : waitFor u v = true →
          ∀ w, s.recStack w = true → Relation.TransGen (Waits waitFor) w v :=
        fun hedge w hw => Relation.TransGen.tail' (hstack w hw) hedge
      cases dfsSuccessors_cons hrun with
      | skip _ hrest => exact ih s s' hinv hstack hrest
      | back hedge hrec _ => exact fun hacyclic => hacyclic v (hreach hedge v hrec)
      | found s₁ hedge hnew hcall _ => exact htrue v s s₁ hinv hnew (hreach hedge) hcall
      | stays s₁ _ hnew hcall hrec _ =>
          -- a vertex that was not visited is not on the stack afterwards either
          have hexp := hfalse v s s₁ hinv hnew hcall
          rw [hexp.stack v] at hrec
          simp [hinv.stackVisited v hrec] at hnew
      | descend s₁ _ hnew hcall _ hrest =>
          have hexp := hfalse v s s₁ hinv hnew hcall
          exact ih s₁ s' hexp.inv (fun w hw => hstack w (by rwa [← hexp.stack w])) hrest

/-- A call of `dfs_cycle` that returns `true` has found a cycle. -/
theorem dfsCycle_cycle (waitFor : Fin n → Fin n → Bool) (fuel : Nat) :
    ∀ (u : Fin n) (s s' : DfsState n), SearchInv waitFor s → s.visited u = false →
      (∀ w, s.recStack w = true → Relation.TransGen (Waits waitFor) w u) →
      dfsCycle waitFor fuel u s = some (true, s') → ¬ Acyclic (Waits waitFor) := by
  induction fuel with
  | zero => intro u s s' _ _ _ hrun; simp [dfsCycle] at hrun
  | succ fuel ih =>
      intro u s s' hinv hu hstack hrun
      refine dfsSuccessors_cycle waitFor (dfsCycle waitFor fuel)
        (dfsCycle_finished waitFor fuel) ih u (List.finRange n) (s.enter u) s' (hinv.enter hu)
        (fun w hw => ?_) hrun
      by_cases hwu : w = u
      · subst hwu
        exact .refl
      · exact (hstack w (by simpa [DfsState.enter, hwu] using hw)).to_reflTransGen

theorem dfsRoots_cycle (waitFor : Fin n → Fin n → Bool) (fuel : Nat) (roots : List (Fin n)) :
    ∀ s s' : DfsState n, SearchInv waitFor s → (∀ v, s.recStack v = false) →
      dfsRoots waitFor fuel roots s = some (true, s') → ¬ Acyclic (Waits waitFor) := by
  induction roots with
  | nil => intro s s' hinv hstack hrun; simp [dfsRoots] at hrun
  | cons i roots ih =>
      intro s s' hinv hstack hrun
      cases dfsRoots_cons hrun with
      | skip _ hrest => exact ih s s' hinv hstack hrest
      | found s₁ hnew hcall _ =>
          exact dfsCycle_cycle waitFor fuel i s s₁ hinv hnew (by simp [hstack]) hcall
      | next s₁ hnew hcall hrest =>
          have hexp := dfsCycle_finished waitFor fuel i s s₁ hinv hnew hcall
          exact ih s₁ s' hexp.inv (fun v => (hexp.stack v).trans (hstack v)) hrest

/-- `detect_deadlock` answers `true` exactly when the matrix has a cycle. -/
theorem detectDeadlock_iff (waitFor : Fin n → Fin n → Bool) :
    detectDeadlock waitFor = true ↔ ∃ t, Relation.TransGen (Waits waitFor) t t := by
  constructor
  · intro h
    have hrun : detectDeadlockFuel waitFor n = some true := by
      rw [← h, detectDeadlock, Option.some_get]
    rw [detectDeadlockFuel, Option.map_eq_some_iff] at hrun
    obtain ⟨⟨found, s'⟩, hroots, hfound⟩ := hrun
    simp only at hfound
    subst hfound
    by_contra hnone
    exact dfsRoots_cycle waitFor n (List.finRange n) (DfsState.fresh n) s'
      (searchInv_fresh waitFor) (fun _ => rfl) hroots (fun t ht => hnone ⟨t, ht⟩)
  · rintro ⟨t, ht⟩
    by_contra h
    exact acyclic_of_detectDeadlock_eq_false waitFor (by simpa using h) t ht

/-! ## More fuel

A call that returns does so with the same result whatever the fuel is.
-/

/-- A recursive call that returns more often. -/
theorem dfsSuccessors_mono {waitFor : Fin n → Fin n → Bool}
    {visit visit' : Fin n → DfsState n → Option (Bool × DfsState n)}
    (hvisit : ∀ v s r, visit v s = some r → visit' v s = some r) {u : Fin n}
    {vs : List (Fin n)} {s : DfsState n} {r : Bool × DfsState n}
    (hrun : dfsSuccessors waitFor visit u vs s = some r) :
    dfsSuccessors waitFor visit' u vs s = some r := by
  induction vs generalizing s with
  | nil => exact hrun
  | cons v vs ih =>
      rw [dfsSuccessors] at hrun ⊢
      by_cases hedge : waitFor u v = true
      · rw [if_pos hedge] at hrun ⊢
        by_cases hvis : s.visited v = true
        · rw [if_pos hvis] at hrun ⊢
          by_cases hrec : s.recStack v = true
          · rwa [if_pos hrec] at hrun ⊢
          · rw [if_neg hrec] at hrun ⊢
            exact ih hrun
        · rw [if_neg hvis] at hrun ⊢
          cases hcall : visit v s with
          | none => simp [hcall] at hrun
          | some result =>
              obtain ⟨found, s₁⟩ := result
              rw [hcall] at hrun
              rw [hvisit v s _ hcall]
              cases found with
              | true => exact hrun
              | false =>
                  by_cases hrec : s₁.recStack v = true
                  · simpa only [if_pos hrec] using hrun
                  · simp only [if_neg hrec] at hrun ⊢
                    exact ih hrun
      · rw [if_neg hedge] at hrun ⊢
        exact ih hrun

theorem dfsCycle_mono {waitFor : Fin n → Fin n → Bool} {fuel fuel' : Nat} (hle : fuel ≤ fuel')
    {u : Fin n} {s : DfsState n} {r : Bool × DfsState n}
    (hrun : dfsCycle waitFor fuel u s = some r) : dfsCycle waitFor fuel' u s = some r := by
  induction fuel generalizing fuel' u s r with
  | zero => simp [dfsCycle] at hrun
  | succ fuel ih =>
      cases fuel' with
      | zero => omega
      | succ fuel' =>
          rw [dfsCycle] at hrun ⊢
          exact dfsSuccessors_mono (fun v s r hcall => ih (Nat.le_of_succ_le_succ hle) hcall) hrun

theorem dfsRoots_mono {waitFor : Fin n → Fin n → Bool} {fuel fuel' : Nat} (hle : fuel ≤ fuel')
    {roots : List (Fin n)} {s : DfsState n} {r : Bool × DfsState n}
    (hrun : dfsRoots waitFor fuel roots s = some r) :
    dfsRoots waitFor fuel' roots s = some r := by
  induction roots generalizing s with
  | nil => exact hrun
  | cons i roots ih =>
      rw [dfsRoots]
      cases dfsRoots_cons hrun with
      | skip hvis hrest =>
          rw [if_pos hvis]
          exact ih hrest
      | found s₁ hnew hcall hr =>
          rw [if_neg (by simp [hnew]), dfsCycle_mono hle hcall, hr]
      | next s₁ hnew hcall hrest =>
          rw [if_neg (by simp [hnew]), dfsCycle_mono hle hcall]
          exact ih hrest

/-- With fuel for every vertex the verdict is the one of `detectDeadlock`. -/
theorem detectDeadlockFuel_eq (waitFor : Fin n → Fin n → Bool) {fuel : Nat} (hfuel : n ≤ fuel) :
    detectDeadlockFuel waitFor fuel = some (detectDeadlock waitFor) := by
  have hrun : detectDeadlockFuel waitFor n = some (detectDeadlock waitFor) :=
    (Option.some_get _).symm
  rw [detectDeadlockFuel, Option.map_eq_some_iff] at hrun
  obtain ⟨result, hroots, hfound⟩ := hrun
  rw [detectDeadlockFuel, dfsRoots_mono hfuel hroots, Option.map_some, hfound]

/-- **Cycle detection is exact.**  The search ends, with recursion no deeper than the
number of transactions, and answers whether some transaction waits for itself
along the edges. -/
theorem cycleDetection_exact (n : Nat) (waitFor : Fin n → Fin n → Bool) :
    ∃ verdict, (∀ fuel, n ≤ fuel → detectDeadlockFuel waitFor fuel = some verdict) ∧
      (verdict = true ↔ ∃ t, Relation.TransGen (Waits waitFor) t t) :=
  ⟨detectDeadlock waitFor, fun _ hfuel => detectDeadlockFuel_eq waitFor hfuel,
    detectDeadlock_iff waitFor⟩

end SystemsInC.Ports.WaitForGraph
