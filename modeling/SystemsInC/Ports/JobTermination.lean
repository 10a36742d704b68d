import SystemsInC.Ports.JobTurns

/-!
# SIGTERM

The controller that gets SIGTERM passes it on to its children and waits for each of them.
Running children handle it themselves, and send it to the whole group once more, before
they exit; stopped children keep it pending, so the controller waits for ever.  `Ending`
is the invariant of both cases.
-/

namespace SystemsInC.Ports.JobController

open SystemsInC.Verified.GuardedRuns

variable {n : Nat} {s s' : Sys n}

/-! ## The invariant -/

/-- The steps of the processes themselves. -/
def Act.own : Act n → Bool
  | .signal _ | .interrupt => false
  | _ => true

/-- A process that has nothing to handle but SIGTERM. -/
structure Process.Ends (q : Process) : Prop where
  noOther : ∀ sig, sig ≠ .term → q.pending sig = false
  frames : q.frames = [] ∨ (∃ i, q.frames = [.terminating i]) ∨ ∃ i, q.frames = [.waiting i]

/-- A child that SIGTERM has come to. -/
def Process.Told (q : Process) : Prop :=
  q.exited = true ∨ q.pending .term = true ∨ q.frames ≠ []

/-- How far the controller has come with SIGTERM. -/
inductive Stage (s : Sys n) : Prop
  | asked (halive : (s.proc .controller).exited = false)
      (hframes : (s.proc .controller).frames = [])
      (hpending : (s.proc .controller).pending .term = true)
  | telling (i : Nat) (halive : (s.proc .controller).exited = false)
      (hframes : (s.proc .controller).frames = [.terminating i])
      (htold : ∀ c : Fin n, c.val < i → (s.proc (.child c)).Told)
  | waiting (i : Nat) (halive : (s.proc .controller).exited = false)
      (hframes : (s.proc .controller).frames = [.waiting i])
      (htold : ∀ c : Fin n, (s.proc (.child c)).Told)
      (hreaped : ∀ c : Fin n, c.val < i → s.reaped c = true)
  | gone (hexited : (s.proc .controller).exited = true) (hreaped : ∀ c, s.reaped c = true)

/-- `stopped` says whether the children were stopped when SIGTERM was sent. -/
structure Ending (stopped : Bool) (s : Sys n) : Prop where
  shape : ∀ p, (s.proc p).Ends
  running : (s.proc .controller).stopped = false
  kids : ∀ c, (s.proc (.child c)).stopped = stopped
  asleep : stopped = true → ∀ c, (s.proc (.child c)).exited = false
  exited : ∀ c, s.reaped c = true → (s.proc (.child c)).exited = true
  stage : Stage s

section Process

variable {q : Process}

theorem send_term_stopped (q : Process) : (q.send .term).stopped = q.stopped := by
  unfold Process.send
  split <;> rfl

/-- A SIGTERM that is sent to a process that has not exited is pending. -/
theorem send_term_pending (h : q.exited = false) : (q.send .term).pending .term = true := by
  rw [Process.send, if_neg (by rw [h]; decide)]
  change Function.update q.pending .term true .term = true
  rw [Function.update_self]

/-- A SIGTERM leaves a process with nothing else to handle. -/
theorem Process.Ends.send (h : q.Ends) : (q.send .term).Ends where
  noOther sig hsig := by
    unfold Process.send
    split
    · exact h.noOther sig hsig
    · change Function.update q.pending .term true sig = false
      rw [Function.update_of_ne hsig]
      exact h.noOther sig hsig
  frames := by rw [send_frames]; exact h.frames

/-- Only SIGTERM is delivered, and not inside its own handler. -/
theorem Process.Ends.deliver (h : q.Ends) {sig : Sig} (hdeliver : q.deliverable sig = true)
    (blocks : Bool) : sig = .term ∧ q.frames = [] ∧ (q.start sig blocks).Ends := by
  have hsig : sig = .term := by
    by_contra hne
    have hpending := pending_of_deliverable hdeliver
    rw [h.noOther sig hne] at hpending
    contradiction
  have hframes : q.frames = [] := by
    rcases h.frames with hnil | ⟨i, hcons⟩ | ⟨i, hcons⟩
    · exact hnil
    · simp [Process.deliverable, hcons, hsig, Frame.sig] at hdeliver
    · simp [Process.deliverable, hcons, hsig, Frame.sig] at hdeliver
  have hnew : (q.start sig blocks).Ends :=
    { noOther := fun sig' hsig' => by
        change Function.update q.pending sig false sig' = false
        rw [Function.update_of_ne (by rw [hsig]; exact hsig')]
        exact h.noOther sig' hsig'
      frames := .inr (.inl ⟨0, by
        cases blocks <;> simp [Process.start, hframes, hsig, interrupted, Sig.handler]⟩) }
  exact ⟨hsig, hframes, hnew⟩

theorem Process.Told.send (h : q.Told) : (q.send .term).Told := by
  rcases h with h | h | h
  · exact .inl ((send_exited q .term).trans h)
  · exact .inr (.inl (send_pending q .term h))
  · exact .inr (.inr (by rw [send_frames]; exact h))

/-- A process that SIGTERM is sent to has been told. -/
theorem told_send (q : Process) : (q.send .term).Told := by
  cases hexited : q.exited with
  | true => exact .inl ((send_exited q .term).trans hexited)
  | false => exact .inr (.inl (send_term_pending hexited))

end Process

/-- A call in the handler of SIGTERM. -/
inductive Ending.Call (s : Sys n) (p : Who n) : Sys n → Prop
  | terminate (i : Nat) (hframes : (s.proc p).frames = [.terminating i]) (h : i < n) :
      Call s p ((s.kill (children p ⟨i, h⟩) .term).setFrames p [.terminating (i + 1)])
  | terminated (i : Nat) (hframes : (s.proc p).frames = [.terminating i]) (hge : n ≤ i) :
      Call s p (s.setFrames p [.waiting 0])
  | wait (i : Nat) (hframes : (s.proc p).frames = [.waiting i]) (h : i < n)
      (hreturns : s.waitReturns ⟨i, h⟩ p = true) :
      Call s p ((s.reap ⟨i, h⟩ p).setFrames p [.waiting (i + 1)])
  | exit (i : Nat) (hframes : (s.proc p).frames = [.waiting i]) (hge : n ≤ i) :
      Call s p (s.exit p)

/-- The calls of a process that has nothing to handle but SIGTERM. -/
theorem ending_call {p : Who n} (h : (s.proc p).Ends) (hc : Call s p s') : Ending.Call s p s' := by
  have hshape : ∀ f rest, (s.proc p).frames = f :: rest →
      rest = [] ∧ ((∃ i, f = .terminating i) ∨ ∃ i, f = .waiting i) := by
    intro f rest hframes
    rcases h.frames with hturn | ⟨i, hturn⟩ | ⟨i, hturn⟩
    · rw [hframes] at hturn
      contradiction
    · rw [hframes] at hturn
      exact ⟨(List.cons.inj hturn).2, .inl ⟨i, (List.cons.inj hturn).1⟩⟩
    · rw [hframes] at hturn
      exact ⟨(List.cons.inj hturn).2, .inr ⟨i, (List.cons.inj hturn).1⟩⟩
  cases hc with
  | stop i rest hframes => exact absurd (hshape _ _ hframes).2 (by simp)
  | stopped i rest hframes => exact absurd (hshape _ _ hframes).2 (by simp)
  | resume i rest hframes => exact absurd (hshape _ _ hframes).2 (by simp)
  | resumed i rest hframes => exact absurd (hshape _ _ hframes).2 (by simp)
  | terminate i rest hframes hlt =>
      have hrest := (hshape _ _ hframes).1
      subst hrest
      exact .terminate i hframes hlt
  | terminated i rest hframes hge =>
      have hrest := (hshape _ _ hframes).1
      subst hrest
      exact .terminated i hframes hge
  | wait i rest hframes hlt hreturns =>
      have hrest := (hshape _ _ hframes).1
      subst hrest
      exact .wait i hframes hlt hreturns
  | exit i rest hframes hge =>
      have hrest := (hshape _ _ hframes).1
      subst hrest
      exact .exit i hframes hge

/-- What a step of `p` in this phase does to the processes. -/
structure Effect (p : Who n) (s s' : Sys n) : Prop where
  other : ∀ r, r ≠ p → s'.proc r = s.proc r ∨ s'.proc r = (s.proc r).send .term
  ends : (s'.proc p).Ends
  stopped : (s'.proc p).stopped = (s.proc p).stopped
  told : (s'.proc p).Told

/-- The effect of a delivery. -/
theorem effect_deliver {p : Who n} {sig : Sig} {blocks : Bool} (h : (s.proc p).Ends)
    (hs : deliver s p sig blocks = some s') : Effect p s s' := by
  have ⟨_, hdeliver, heq⟩ := deliver_cases hs
  have ⟨_, _, hends⟩ := h.deliver hdeliver blocks
  have hself : s'.proc p = (s.proc p).start sig blocks := by simp [heq]
  exact
    { other := fun r hr => .inl (by simp [heq, hr])
      ends := hself ▸ hends
      stopped := by rw [hself]; rfl
      told := .inr (.inr (by rw [hself]; exact List.cons_ne_nil _ _)) }

/-- A process with other frames in the handler of SIGTERM. -/
theorem Process.Ends.setFrames {q : Process} (h : q.Ends) {f : Frame}
    (hf : (∃ i, f = .terminating i) ∨ ∃ i, f = .waiting i) : { q with frames := [f] }.Ends where
  noOther := h.noOther
  frames := by
    right
    rcases hf with ⟨i, rfl⟩ | ⟨i, rfl⟩
    · exact .inl ⟨i, rfl⟩
    · exact .inr ⟨i, rfl⟩

theorem effect_setFrames {s₁ : Sys n} {p : Who n} {f : Frame}
    (hf : (∃ i, f = .terminating i) ∨ ∃ i, f = .waiting i) (h : (s.proc p).Ends)
    (hproc : ∀ r, s₁.proc r = s.proc r ∨ s₁.proc r = (s.proc r).send .term) :
    Effect p s (s₁.setFrames p [f]) where
  other r hr := by rw [setFrames_other _ hr]; exact hproc r
  ends := by
    rw [setFrames_self]
    rcases hproc p with heq | heq
    · rw [heq]
      exact h.setFrames hf
    · rw [heq]
      exact h.send.setFrames hf
  stopped := by
    rw [setFrames_self]
    rcases hproc p with heq | heq
    · rw [heq]
    · rw [heq]
      exact send_term_stopped _
  told := .inr (.inr (by rw [setFrames_self]; exact List.cons_ne_nil _ _))

/-- The effect of a call of the handler. -/
theorem effect_call {p : Who n} (h : (s.proc p).Ends) (hc : Ending.Call s p s') :
    Effect p s s' := by
  cases hc with
  | terminate i hframes hlt =>
      exact effect_setFrames (.inl ⟨_, rfl⟩) h (fun r => (kill_proc s _ _ r).symm)
  | terminated i hframes hge => exact effect_setFrames (.inr ⟨_, rfl⟩) h (fun r => .inl rfl)
  | wait i hframes hlt hreturns =>
      exact effect_setFrames (.inr ⟨_, rfl⟩) h (fun r => .inl (by rw [reap_proc]))
  | exit i hframes hge =>
      have hself : (s.exit p).proc p = { s.proc p with exited := true } := by simp [Sys.exit]
      exact
        { other := fun r hr => .inl (by simp [Sys.exit, hr])
          ends := by rw [hself]; exact { noOther := h.noOther, frames := h.frames }
          stopped := by rw [hself]
          told := .inl (by rw [hself]) }

section Effect

variable {p : Who n} (he : Effect p s s')
include he

theorem Effect.shape (h : ∀ r, (s.proc r).Ends) (r : Who n) : (s'.proc r).Ends := by
  by_cases hr : r = p
  · rw [hr]
    exact he.ends
  · rcases he.other r hr with heq | heq
    · rw [heq]
      exact h r
    · rw [heq]
      exact (h r).send

theorem Effect.stopped_eq (r : Who n) : (s'.proc r).stopped = (s.proc r).stopped := by
  by_cases hr : r = p
  · rw [hr]
    exact he.stopped
  · rcases he.other r hr with heq | heq
    · rw [heq]
    · rw [heq, send_term_stopped]

theorem Effect.exited_eq {r : Who n} (hr : r ≠ p) : (s'.proc r).exited = (s.proc r).exited := by
  rcases he.other r hr with heq | heq
  · rw [heq]
  · rw [heq, send_exited]

theorem Effect.frames_eq {r : Who n} (hr : r ≠ p) : (s'.proc r).frames = (s.proc r).frames := by
  rcases he.other r hr with heq | heq
  · rw [heq]
  · rw [heq, send_frames]

theorem Effect.told_of {r : Who n} (h : (s.proc r).Told) : (s'.proc r).Told := by
  by_cases hr : r = p
  · rw [hr]
    exact he.told
  · rcases he.other r hr with heq | heq
    · rw [heq]
      exact h
    · rw [heq]
      exact h.send

end Effect

/-- What a child does leaves the controller where it is. -/
theorem Stage.child {c : Fin n} (h : Stage s) (he : Effect (.child c) s s')
    (hreaped : s'.reaped = s.reaped) : Stage s' := by
  have hne : Who.controller ≠ Who.child c := by simp
  have hexited := he.exited_eq hne
  have hframes' := he.frames_eq hne
  cases h with
  | asked halive hframes hpending =>
      refine .asked (hexited.trans halive) (hframes'.trans hframes) ?_
      rcases he.other _ hne with heq | heq
      · rw [heq]
        exact hpending
      · rw [heq]
        exact send_pending _ _ hpending
  | telling i halive hframes htold =>
      exact .telling i (hexited.trans halive) (hframes'.trans hframes)
        (fun c hc => he.told_of (htold c hc))
  | waiting i halive hframes htold hr =>
      exact .waiting i (hexited.trans halive) (hframes'.trans hframes)
        (fun c => he.told_of (htold c)) (hreaped ▸ hr)
  | gone hgone hr => exact .gone (hexited.trans hgone) (hreaped ▸ hr)

/-- A step of a child keeps the stage that the controller is in. -/
theorem Ending.child {b : Bool} {c : Fin n} (h : Ending b s)
    (hrun : (s.proc (.child c)).canRun = true) (he : Effect (.child c) s s')
    (hreaped : s'.reaped = s.reaped) : Ending b s' where
  shape := he.shape h.shape
  running := (he.stopped_eq _).trans h.running
  kids d := (he.stopped_eq _).trans (h.kids d)
  asleep hb := by
    have hstopped := h.kids c
    simp [Process.canRun, hstopped, hb] at hrun
  exited d hd := by
    rw [hreaped] at hd
    have hexited := h.exited d hd
    by_cases heq : Who.child d = Who.child c
    · rw [← heq] at hrun
      simp [Process.canRun, hexited] at hrun
    · exact (he.exited_eq heq).trans hexited
  stage := h.stage.child he hreaped

/-- A step of the controller that comes to a stage. -/
theorem Ending.controller {b : Bool} (h : Ending b s) (he : Effect .controller s s')
    (hexited : ∀ c, s'.reaped c = true → (s.proc (.child c)).exited = true)
    (hstage : Stage s') : Ending b s' where
  shape := he.shape h.shape
  running := (he.stopped_eq _).trans h.running
  kids c := (he.stopped_eq _).trans (h.kids c)
  asleep hb c := (he.exited_eq (by simp)).trans (h.asleep hb c)
  exited c hc := (he.exited_eq (by simp)).trans (hexited c hc)
  stage := hstage

/-- While the controller tells its children, those in front have been told. -/
theorem Stage.of_telling (h : Stage s) {i : Nat} (halive : (s.proc .controller).exited = false)
    (hframes : (s.proc .controller).frames = [.terminating i]) :
    ∀ c : Fin n, c.val < i → (s.proc (.child c)).Told := by
  cases h with
  | asked _ hframes' => simp [hframes] at hframes'
  | telling j _ hframes' htold =>
      rw [hframes] at hframes'
      simp at hframes'
      rw [hframes']
      exact htold
  | waiting j _ hframes' => simp [hframes] at hframes'
  | gone hgone => simp [halive] at hgone

/-- While the controller waits, all have been told and those in front are reaped. -/
theorem Stage.of_waiting (h : Stage s) {i : Nat} (halive : (s.proc .controller).exited = false)
    (hframes : (s.proc .controller).frames = [.waiting i]) :
    (∀ c : Fin n, (s.proc (.child c)).Told) ∧ ∀ c : Fin n, c.val < i → s.reaped c = true := by
  cases h with
  | asked _ hframes' => simp [hframes] at hframes'
  | telling j _ hframes' => simp [hframes] at hframes'
  | waiting j _ hframes' htold hreaped =>
      rw [hframes] at hframes'
      simp at hframes'
      rw [hframes']
      exact ⟨htold, hreaped⟩
  | gone hgone => simp [halive] at hgone

theorem canRun_iff {q : Process} : q.canRun = true ↔ q.exited = false ∧ q.stopped = false := by
  simp [Process.canRun]

/-- The loops of the controller. -/
theorem Ending.controller_call {b : Bool} (h : Ending b s)
    (hrun : (s.proc .controller).canRun = true) (hc : Ending.Call s .controller s') :
    Ending b s' := by
  have he := effect_call (h.shape .controller) hc
  have halive := (canRun_iff.mp hrun).1
  cases hc with
  | terminate i hframes hlt =>
      have htold := h.stage.of_telling halive hframes
      refine h.controller he h.exited (.telling (i + 1) ?_ ?_ (fun c hc => ?_))
      · rw [loop_controller]
        exact halive
      · rw [loop_controller]
      · by_cases heq : c = ⟨i, hlt⟩
        · rw [loop_child, if_pos heq]
          exact told_send _
        · have hne : c.val ≠ i := fun h => heq (Fin.ext h)
          exact he.told_of (htold c (by omega))
  | terminated i hframes hge =>
      have htold := h.stage.of_telling halive hframes
      refine h.controller he h.exited (.waiting 0 ?_ ?_ (fun c => ?_)
        (fun c hc => absurd hc (Nat.not_lt_zero _)))
      · rw [setFrames_self]
        exact halive
      · rw [setFrames_self]
      · exact he.told_of (htold c (by omega))
  | wait i hframes hlt hreturns =>
      have ⟨htold, hbefore⟩ := h.stage.of_waiting halive hframes
      have hreaped : ∀ c, Function.update s.reaped ⟨i, hlt⟩ true c = true ↔
          c = ⟨i, hlt⟩ ∨ s.reaped c = true := by
        intro c
        by_cases heq : c = ⟨i, hlt⟩ <;> simp [heq]
      refine h.controller he (fun c hc => ?_) (.waiting (i + 1) ?_ ?_ (fun c => ?_)
        (fun c hc => (hreaped c).mpr ?_))
      · rcases (hreaped c).mp hc with heq | hold
        · rw [heq]
          simp only [Sys.waitReturns, Bool.or_eq_true] at hreturns
          exact hreturns.elim (h.exited _) id
        · exact h.exited c hold
      · rw [setFrames_self]
        exact halive
      · rw [setFrames_self]
      · exact he.told_of (htold c)
      · by_cases heq : c = ⟨i, hlt⟩
        · exact .inl heq
        · have hne : c.val ≠ i := fun h => heq (Fin.ext h)
          exact .inr (hbefore c (by omega))
  | exit i hframes hge =>
      have ⟨_, hbefore⟩ := h.stage.of_waiting halive hframes
      exact h.controller he h.exited (.gone (by simp [Sys.exit]) (fun c => hbefore c (by omega)))

/-- Every step of the processes themselves keeps what ends them. -/
theorem Ending.next {b : Bool} {a : Act n} (h : Ending b s) (ha : a.own = true)
    (hs : step s a = some s') : Ending b s' := by
  cases a with
  | signal sig => contradiction
  | interrupt => contradiction
  | count c =>
      simp only [JobController.step, countStep, Option.ite_none_right_eq_some] at hs
      have heq := Option.some.inj hs.2
      subst heq
      have hstage : Stage { s with count := Function.update s.count c (s.count c + 1) } := by
        cases h.stage with
        | asked halive hframes hpending => exact .asked halive hframes hpending
        | telling i halive hframes htold => exact .telling i halive hframes htold
        | waiting i halive hframes htold hr => exact .waiting i halive hframes htold hr
        | gone hgone hr => exact .gone hgone hr
      exact
        { shape := h.shape
          running := h.running
          kids := h.kids
          asleep := h.asleep
          exited := h.exited
          stage := hstage }
  | deliver p sig blocks =>
      have he := effect_deliver (h.shape p) hs
      have ⟨hrun, hdeliver, heq⟩ := deliver_cases hs
      cases p with
      | child c => exact h.child hrun he (by rw [heq])
      | controller =>
          have ⟨hsig, hframes, _⟩ := (h.shape .controller).deliver hdeliver blocks
          have halive := (canRun_iff.mp hrun).1
          refine h.controller he (by rw [heq]; exact h.exited) ?_
          refine .telling 0 ?_ ?_ (fun c hc => absurd hc (Nat.not_lt_zero _))
          · simp [heq, Process.start, halive]
          · cases blocks <;> simp [heq, Process.start, hframes, hsig, Sig.handler, interrupted]
  | handler p =>
      have ⟨hrun, hc⟩ := call_of_handlerStep hs
      have hcall := ending_call (h.shape p) hc
      cases p with
      | controller => exact h.controller_call hrun hcall
      | child c =>
          have hreaped : s'.reaped = s.reaped := by
            cases hcall <;> rfl
          exact h.child hrun (effect_call (h.shape _) hcall) hreaped

/-! ## How long it takes -/

/-- The steps that a process has left in the handler of SIGTERM. -/
def Process.left (n : Nat) (q : Process) : Nat :=
  if q.exited then 0
  else
    match q.frames with
    | [] => 2 * n + 4
    | .terminating i :: _ => (n - i) + n + 3
    | .waiting i :: _ => (n - i) + 1
    | _ => 0

/-- The steps that are left to all processes. -/
def Sys.left (s : Sys n) : Nat :=
  (s.proc .controller).left n + ∑ c, (s.proc (.child c)).left n

/-- The steps of the handlers. -/
def Act.handles : Act n → Bool
  | .deliver _ _ _ | .handler _ => true
  | _ => false

theorem left_congr {q q' : Process} (hexited : q'.exited = q.exited)
    (hframes : q'.frames = q.frames) : q'.left n = q.left n := by
  simp only [Process.left, hexited, hframes]

/-- A step of one process leaves fewer steps, if the others have as many left as before. -/
theorem left_lt {p : Who n} (hp : (s'.proc p).left n < (s.proc p).left n)
    (hr : ∀ r, r ≠ p → (s'.proc r).left n = (s.proc r).left n) : s'.left < s.left := by
  cases p with
  | controller =>
      have hsum : ∑ c, (s'.proc (.child c)).left n = ∑ c, (s.proc (.child c)).left n :=
        Finset.sum_congr rfl (fun c _ => hr (.child c) (by simp))
      simp only [Sys.left, hsum]
      omega
  | child c =>
      have hsum : ∑ d, (s'.proc (.child d)).left n < ∑ d, (s.proc (.child d)).left n := by
        apply Finset.sum_lt_sum
        · intro d _
          by_cases hd : d = c
          · rw [hd]
            exact Nat.le_of_lt hp
          · exact Nat.le_of_eq (hr (.child d) (by simpa using hd))
        · exact ⟨c, Finset.mem_univ c, hp⟩
      have hcontroller := hr .controller (by simp)
      simp only [Sys.left, hcontroller]
      omega

/-- Every call of the handler leaves its process fewer steps. -/
theorem left_call {p : Who n} (halive : (s.proc p).exited = false) (hc : Ending.Call s p s') :
    (s'.proc p).left n < (s.proc p).left n := by
  cases hc with
  | terminate i hframes hlt =>
      simp only [setFrames_self, Process.left, kill_exited, hframes, halive, Bool.false_eq_true,
        if_false]
      omega
  | terminated i hframes hge =>
      simp only [setFrames_self, Process.left, hframes, halive, Bool.false_eq_true, if_false]
      omega
  | wait i hframes hlt hreturns =>
      simp only [setFrames_self, Process.left, reap_proc, hframes, halive, Bool.false_eq_true,
        if_false]
      omega
  | exit i hframes hge => simp [Sys.exit, Process.left, hframes, halive]

/-- What is left goes down with each step of a handler, and never up. -/
theorem Ending.left_step {b : Bool} {a : Act n} (h : Ending b s) (ha : a.own = true)
    (hs : step s a = some s') :
    s'.left + (if a.handles then 1 else 0) ≤ s.left := by
  cases a with
  | signal sig => contradiction
  | interrupt => contradiction
  | count c =>
      simp only [JobController.step, countStep, Option.ite_none_right_eq_some] at hs
      have heq := Option.some.inj hs.2
      subst heq
      exact Nat.le_refl _
  | deliver p sig blocks =>
      have he := effect_deliver (h.shape p) hs
      have ⟨hrun, hdeliver, heq⟩ := deliver_cases hs
      have ⟨hsig, hframes, _⟩ := (h.shape p).deliver hdeliver blocks
      have halive := (canRun_iff.mp hrun).1
      apply left_lt (p := p)
      · have hself : s'.proc p = (s.proc p).start sig blocks := by simp [heq]
        rw [hself, hsig]
        cases blocks <;>
          simp [Process.start, Process.left, hframes, halive, Sig.handler] <;>
          omega
      · exact fun r hr => left_congr (he.exited_eq hr) (he.frames_eq hr)
  | handler p =>
      have ⟨hrun, hc⟩ := call_of_handlerStep hs
      have hcall := ending_call (h.shape p) hc
      have he := effect_call (h.shape p) hcall
      exact left_lt (left_call (canRun_iff.mp hrun).1 hcall)
        (fun r hr => left_congr (he.exited_eq hr) (he.frames_eq hr))

/-- The same for a whole run. -/
theorem Ending.after {b : Bool} {as : List (Act n)} (h : Ending b s)
    (hown : ∀ a ∈ as, a.own = true) (hrun : run step s as = some s') :
    Ending b s' ∧ as.countP Act.handles + s'.left ≤ s.left := by
  induction as generalizing s with
  | nil =>
      cases hrun
      exact ⟨h, by simp⟩
  | cons a as ih =>
      have ⟨s₁, hs, hrest⟩ := Option.bind_eq_some_iff.mp hrun
      have ha := hown a List.mem_cons_self
      have hleft := h.left_step ha hs
      have ⟨hend, hcount⟩ :=
        ih (h.next ha hs) (fun a' ha' => hown a' (List.mem_cons_of_mem _ ha')) hrest
      refine ⟨hend, ?_⟩
      rw [List.countP_cons]
      omega

/-! ## Running children let the controller exit -/

/-- A handler goes on unless it waits for a child that is alive. -/
theorem handlerStep_isSome {p : Who n} {i : Nat} (hrun : (s.proc p).canRun = true)
    (hframes : (s.proc p).frames = [.terminating i] ∨ (s.proc p).frames = [.waiting i] ∧
      ∀ h : i < n, s.waitReturns ⟨i, h⟩ p = true) : (handlerStep s p).isSome := by
  unfold handlerStep
  rw [if_pos hrun]
  rcases hframes with hframes | ⟨hframes, hreturns⟩
  · rw [hframes]
    dsimp only
    split <;> rfl
  · rw [hframes]
    dsimp only
    split
    · rename_i hlt
      rw [if_pos (hreturns hlt)]
      rfl
    · rfl

/-- A pending SIGTERM can be delivered. -/
theorem deliver_isSome {p : Who n} (hrun : (s.proc p).canRun = true)
    (hframes : (s.proc p).frames = []) (hpending : (s.proc p).pending .term = true) :
    (deliver s p .term false).isSome := by
  have hdeliver : (s.proc p).deliverable .term = true := by
    simp [Process.deliverable, hframes, hpending]
  simp [deliver, hrun, hdeliver]

/-- A running child that SIGTERM has come to can go on until it has exited. -/
theorem Ending.child_step (h : Ending false s) {c : Fin n} (htold : (s.proc (.child c)).Told)
    (halive : (s.proc (.child c)).exited = false) :
    ∃ a : Act n, a.handles = true ∧ (step s a).isSome := by
  have hrun : (s.proc (.child c)).canRun = true := canRun_iff.mpr ⟨halive, h.kids c⟩
  rcases (h.shape (.child c)).frames with hframes | ⟨i, hframes⟩ | ⟨i, hframes⟩
  · have hpending : (s.proc (.child c)).pending .term = true := by
      rcases htold with hexited | hpending | hne
      · rw [halive] at hexited
        contradiction
      · exact hpending
      · exact absurd hframes hne
    exact ⟨.deliver (.child c) .term false, rfl, deliver_isSome hrun hframes hpending⟩
  · exact ⟨.handler (.child c), rfl, handlerStep_isSome hrun (.inl hframes)⟩
  · exact ⟨.handler (.child c), rfl, handlerStep_isSome hrun (.inr ⟨hframes, fun _ => rfl⟩)⟩

/-- As long as the controller is there, and no process is stopped, some handler can go on. -/
theorem Ending.exists_step (h : Ending false s) (halive : (s.proc .controller).exited = false) :
    ∃ a : Act n, a.handles = true ∧ (step s a).isSome := by
  have hrun : (s.proc .controller).canRun = true := canRun_iff.mpr ⟨halive, h.running⟩
  cases h.stage with
  | asked _ hframes hpending =>
      exact ⟨.deliver .controller .term false, rfl, deliver_isSome hrun hframes hpending⟩
  | telling i _ hframes htold =>
      exact ⟨.handler .controller, rfl, handlerStep_isSome hrun (.inl hframes)⟩
  | waiting i _ hframes htold hreaped =>
      by_cases hreturns : ∀ hlt : i < n, s.waitReturns ⟨i, hlt⟩ .controller = true
      · exact ⟨.handler .controller, rfl, handlerStep_isSome hrun (.inr ⟨hframes, hreturns⟩)⟩
      · -- the controller waits for a child that has not exited
        have ⟨hlt, hwait⟩ := not_forall.mp hreturns
        have hchild : (s.proc (.child ⟨i, hlt⟩)).exited = false := by
          by_contra hexited
          exact hwait (by simp [Sys.waitReturns, hexited])
        exact h.child_step (htold _) hchild
  | gone hgone => simp [halive] at hgone

/-! ## The controller -/

/-- SIGTERM is sent to a controller in `pause`. -/
theorem CalmInv.ending (h : CalmInv s) (hquiet : (s.proc .controller).quiet = true) :
    Ending (s.lastLine == some .int) (s.signal .term) := by
  have hask := ask_quiet h.alive hquiet .term
  have ⟨hframes, hnone⟩ := quiet_iff.mp hquiet
  have ⟨halive, hrunning⟩ := canRun_iff.mp h.alive
  have hkids := h.at_pause hquiet
  exact
    { shape := fun p => by
        cases p with
        | controller =>
            rw [signal_controller, hask]
            exact
              { noOther := fun sig hsig => beq_eq_false_iff_ne.mpr hsig
                frames := .inl hframes }
        | child c =>
            rw [signal_child, hkids]
            exact { noOther := fun _ _ => rfl, frames := .inl rfl }
      running := by rw [signal_controller, hask]; exact hrunning
      kids := fun c => by rw [signal_child, hkids]; rfl
      asleep := fun _ c => by rw [signal_child, hkids]; rfl
      exited := fun c hc => by
        rw [show (s.signal .term).reaped c = s.reaped c from rfl, h.unreaped c] at hc
        contradiction
      stage := .asked (by rw [signal_controller, hask]; exact halive)
        (by rw [signal_controller, hask]; exact hframes)
        (by rw [signal_controller, hask]; rfl) }

/-- A SIGTERM to a controller at its pause starts a bounded number of steps. -/
theorem CalmInv.left_signal (h : CalmInv s) (hquiet : (s.proc .controller).quiet = true) :
    (s.signal .term).left ≤ (n + 1) * (2 * n + 4) := by
  have hle : ∀ q : Process, q.frames = [] → q.left n ≤ 2 * n + 4 := by
    intro q hframes
    unfold Process.left
    split
    · omega
    · rw [hframes]
  have hcontroller : ((s.signal .term).proc .controller).left n ≤ 2 * n + 4 := by
    apply hle
    rw [signal_controller, ask_quiet h.alive hquiet]
    exact (quiet_iff.mp hquiet).1
  have hsum := Finset.sum_le_card_nsmul Finset.univ
    (fun c : Fin n => ((s.signal .term).proc (.child c)).left n) (2 * n + 4)
    (fun c _ => hle _ (by rw [signal_child, h.at_pause hquiet]; rfl))
  rw [Finset.card_univ, Fintype.card_fin, Nat.nsmul_eq_mul] at hsum
  rw [Sys.left, Nat.succ_mul]
  omega

/-- **SIGTERM ends the controller if and only if its children are running.**  The user sends
one signal after the other to the controller, each when it is in `pause` again.  The children
are stopped then if the last one was SIGINT; in that case the controller that gets SIGTERM
never exits.  Otherwise the handlers take a bounded number of steps, some process can go on
until the controller has exited, and then all children have exited and have been waited for. -/
theorem sigterm_at_pause (hn : 1 ≤ n) (h : Reach step Calm (Sys.init n) s)
    (hquiet : (s.proc .controller).quiet = true) :
    (∀ c, (s.proc (.child c)).stopped = (s.lastLine == some .int)) ∧
    (s.lastLine = some .int → ∀ as s', (∀ a ∈ as, a.own = true) →
      run step (s.signal .term) as = some s' → (s'.proc .controller).exited = false) ∧
    (s.lastLine ≠ some .int → ∀ as s', (∀ a ∈ as, a.own = true) →
      run step (s.signal .term) as = some s' →
      as.countP Act.handles ≤ (n + 1) * (2 * n + 4) ∧
      ((s'.proc .controller).exited = false →
        ∃ a : Act n, a.handles = true ∧ (step s' a).isSome) ∧
      ((s'.proc .controller).exited = true →
        ∀ c, (s'.proc (.child c)).exited = true ∧ s'.reaped c = true)) := by
  have hcalm : CalmInv s := h.keeps (calmInv_init n) (fun _ _ _ h hok hs => h.step hok hs)
  have hending := hcalm.ending hquiet
  refine ⟨fun c => by rw [hcalm.at_pause hquiet c]; rfl, ?_, ?_⟩
  · intro hline as s' hown hrun
    rw [hline] at hending
    have ⟨hend, _⟩ := hending.after hown hrun
    by_contra hexited
    cases hend.stage with
    | asked halive => exact hexited halive
    | telling i halive => exact hexited halive
    | waiting i halive => exact hexited halive
    | gone hgone hreaped =>
        -- the first child is still stopped, so nobody has waited for it
        have hchild := hend.exited ⟨0, hn⟩ (hreaped ⟨0, hn⟩)
        rw [hend.asleep rfl] at hchild
        contradiction
  · intro hline as s' hown hrun
    rw [beq_eq_false_iff_ne.mpr hline] at hending
    have ⟨hend, hcount⟩ := hending.after hown hrun
    have hleft := hcalm.left_signal hquiet
    refine ⟨by omega, hend.exists_step, fun hexited c => ?_⟩
    have hreaped : ∀ c, s'.reaped c = true := by
      cases hend.stage with
      | asked halive => simp [halive] at hexited
      | telling i halive => simp [halive] at hexited
      | waiting i halive => simp [halive] at hexited
      | gone hgone hreaped => exact hreaped
    exact ⟨hend.exited c (hreaped c), hreaped c⟩

/-- Two children that SIGINT has stopped. -/
theorem exists_stopped : ∃ s : Sys 2, Reach step Calm (Sys.init 2) s ∧
    (s.proc .controller).quiet = true ∧ s.lastLine = some .int := by
  have hstart : Reach step Calm (Sys.init 2) (Sys.init 2) := .refl
  have hsent := hstart.step (Act.signal .int) ⟨by decide, rfl⟩ rfl
  have hstarted := hsent.step (Act.deliver .controller .int false) trivial rfl
  have hfirst := hstarted.step (Act.handler .controller) trivial rfl
  have hsecond := hfirst.step (Act.handler .controller) trivial rfl
  have hpause := hsecond.step (Act.handler .controller) trivial rfl
  exact ⟨_, hpause, rfl, rfl⟩

theorem sigterm_at_pause_stopped : ∃ s : Sys 2,
    (∀ c, (s.proc (.child c)).stopped = true) ∧
    ∀ as s', (∀ a ∈ as, a.own = true) → run step (s.signal .term) as = some s' →
      (s'.proc .controller).exited = false := by
  have ⟨s, hreach, hquiet, hline⟩ := exists_stopped
  have ⟨hstopped, hhang, _⟩ := sigterm_at_pause (by decide) hreach hquiet
  refine ⟨s, fun c => ?_, hhang hline⟩
  rw [hstopped c, hline]
  rfl

end SystemsInC.Ports.JobController
