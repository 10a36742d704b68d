import SystemsInC.Ports.JobController

/-!
# One signal at a time

The user sends SIGINT and SIGUSR1 to the controller alone, each when it is in `pause`
again.  Then the children handle nothing themselves, and in every `pause` all of them are
stopped or all of them are running.
-/

namespace SystemsInC.Ports.JobController

open SystemsInC.Verified.GuardedRuns

variable {n : Nat} {s s' : Sys n}

/-! ## The turns of the controller -/

/-- The user waits until the controller is in `pause` again, and keeps SIGTERM for the end. -/
def Calm (s : Sys n) : Act n → Prop
  | .signal sig => sig ≠ .term ∧ (s.proc .controller).quiet = true
  | .interrupt => False
  | _ => True

/-- The signal of the line that was printed last. -/
def Sys.lastLine (s : Sys n) : Option Sig := s.printed.getLast?.map Prod.snd

/-- A child that nobody has interrupted. -/
def Process.child (stopped : Bool) : Process := { Process.fresh with stopped := stopped }

/-- The loops of SIGINT (`true`) and SIGUSR1 (`false`): their frames, lines and signals. -/
def loopFrame : Bool → Nat → Frame
  | true => .stopping
  | false => .resuming

def loopSig : Bool → Sig
  | true => .int
  | false => .usr1

def loopOrder : Bool → Order
  | true => .stop
  | false => .cont

/-- Where the controller is, and which children its handler has come to. -/
inductive Turn (s : Sys n) : Prop
  | pause (hframes : (s.proc .controller).frames = [])
      (hone : ∀ sig sig', (s.proc .controller).pending sig = true →
        (s.proc .controller).pending sig' = true → sig = sig')
      (hkids : ∀ c, s.proc (.child c) = .child (s.lastLine == some .int))
  | loop (b : Bool) (i : Nat) (hframes : (s.proc .controller).frames = [loopFrame b i])
      (hnone : ∀ sig, (s.proc .controller).pending sig = false)
      (hline : s.lastLine = some (loopSig b))
      (hkids : ∀ c : Fin n, c.val < i → s.proc (.child c) = .child b)

structure CalmInv (s : Sys n) : Prop where
  alive : (s.proc .controller).canRun = true
  noTerm : (s.proc .controller).pending .term = false
  kids : ∀ c, ∃ b, s.proc (.child c) = .child b
  unreaped : ∀ c, s.reaped c = false
  turn : Turn s

theorem calmInv_init (n : Nat) : CalmInv (Sys.init n) where
  alive := rfl
  noTerm := rfl
  kids _ := ⟨false, rfl⟩
  unreaped _ := rfl
  turn := .pause rfl nofun (fun _ => rfl)

theorem kill_child (s : Sys n) (i : Fin n) (order : Order) (r : Who n) :
    (s.kill (some (.child i)) order).proc r =
      if r = .child i then (s.proc r).send order else s.proc r := by
  simp only [Sys.kill, reduceCtorEq, Option.some.injEq, false_or, eq_comm]

/-- A child of this phase runs no handler. -/
theorem CalmInv.child_call (h : CalmInv s) {c : Fin n} (hc : Call s (.child c) s') : False := by
  have ⟨b, hb⟩ := h.kids c
  have hframes : (s.proc (.child c)).frames = [] := by rw [hb]; rfl
  cases hc <;> simp_all

/-- The controller's own loops leave it as it is, its frames apart. -/
theorem loop_controller (s : Sys n) (i : Fin n) (order : Order) (frames : List Frame) :
    ((s.kill (children .controller i) order).setFrames .controller frames).proc .controller =
      { s.proc .controller with frames := frames } := by
  rw [setFrames_self, children, kill_child, if_neg nofun]

theorem loop_child (s : Sys n) (i : Fin n) (order : Order) (frames : List Frame) (c : Fin n) :
    ((s.kill (children .controller i) order).setFrames .controller frames).proc (.child c) =
      if c = i then (s.proc (.child c)).send order else s.proc (.child c) := by
  rw [setFrames_other _ (by simp), children, kill_child]
  simp only [Who.child.injEq]

theorem loopFrame_inj {b b' : Bool} {i i' : Nat} (h : loopFrame b i = loopFrame b' i') :
    b = b' ∧ i = i' := by
  cases b <;> cases b' <;> simp_all [loopFrame]

theorem Turn.of_loop (h : Turn s) {b : Bool} {i : Nat} {rest : List Frame}
    (hframes : (s.proc .controller).frames = loopFrame b i :: rest) :
    rest = [] ∧ (∀ sig, (s.proc .controller).pending sig = false) ∧
      s.lastLine = some (loopSig b) ∧
      ∀ c : Fin n, c.val < i → s.proc (.child c) = .child b := by
  cases h with
  | pause hframes' =>
      rw [hframes] at hframes'
      contradiction
  | loop b' i' hframes' hnone hline hkids =>
      rw [hframes] at hframes'
      have ⟨hhead, hrest⟩ := List.cons.inj hframes'
      obtain ⟨rfl, rfl⟩ := loopFrame_inj hhead
      exact ⟨hrest, hnone, hline, hkids⟩

/-- The handler comes to one more child. -/
theorem CalmInv.loop (h : CalmInv s) {b : Bool} {i : Nat} {rest : List Frame} (hlt : i < n)
    (hframes : (s.proc .controller).frames = loopFrame b i :: rest) :
    CalmInv ((s.kill (children .controller ⟨i, hlt⟩) (loopOrder b)).setFrames .controller
      (loopFrame b (i + 1) :: rest)) := by
  have ⟨hrest, hnone, hline, hkids⟩ := h.turn.of_loop hframes
  subst hrest
  have hsend : ∀ b', (Process.child b').send (loopOrder b) = .child b := by
    cases b <;> exact fun _ => rfl
  refine
    { alive := by rw [loop_controller]; exact h.alive
      noTerm := by rw [loop_controller]; exact h.noTerm
      kids := fun c => ?_
      unreaped := h.unreaped
      turn := .loop b (i + 1) (by rw [loop_controller]) (by rw [loop_controller]; exact hnone)
        hline (fun c hc => ?_) }
  · have ⟨b', hb'⟩ := h.kids c
    rw [loop_child, hb', hsend]
    split
    · exact ⟨b, rfl⟩
    · exact ⟨b', rfl⟩
  · have ⟨b', hb'⟩ := h.kids c
    rw [loop_child]
    by_cases heq : c = ⟨i, hlt⟩
    · rw [if_pos heq, hb', hsend]
    · have hne : c.val ≠ i := fun h => heq (Fin.ext h)
      rw [if_neg heq]
      exact hkids c (by omega)

/-- The handler has come to all children. -/
theorem CalmInv.loop_end (h : CalmInv s) {b : Bool} {i : Nat} {rest : List Frame} (hge : n ≤ i)
    (hframes : (s.proc .controller).frames = loopFrame b i :: rest) :
    CalmInv (s.setFrames .controller rest) := by
  have ⟨hrest, hnone, hline, hkids⟩ := h.turn.of_loop hframes
  subst hrest
  have hchild : ∀ c, (s.setFrames .controller []).proc (.child c) = s.proc (.child c) :=
    fun c => setFrames_other s (by simp) []
  have hlast : (s.setFrames .controller []).lastLine = some (loopSig b) := hline
  refine
    { alive := by rw [setFrames_self]; exact h.alive
      noTerm := by rw [setFrames_self]; exact h.noTerm
      kids := fun c => by rw [hchild]; exact h.kids c
      unreaped := h.unreaped
      turn := .pause (by rw [setFrames_self]) (fun sig sig' hsig => ?_) (fun c => ?_) }
  · rw [setFrames_self] at hsig
    rw [hnone sig] at hsig
    contradiction
  · have hline' : (some (loopSig b) == some Sig.int) = b := by cases b <;> rfl
    rw [hchild, hlast, hline']
    exact hkids c (by omega)

/-- The handler of SIGTERM does not run in this phase. -/
theorem CalmInv.frames_ne (h : CalmInv s) {f : Frame} {rest : List Frame} (hf : f.sig = .term) :
    (s.proc .controller).frames ≠ f :: rest := by
  intro hframes
  cases h.turn with
  | pause hframes' =>
      rw [hframes] at hframes'
      contradiction
  | loop b i hframes' =>
      rw [hframes] at hframes'
      rw [(List.cons.inj hframes').1] at hf
      cases b <;> contradiction

theorem CalmInv.call (h : CalmInv s) {p : Who n} (hc : Call s p s') : CalmInv s' := by
  cases p with
  | child c => exact (h.child_call hc).elim
  | controller =>
      cases hc with
      | stop i rest hframes hlt => exact h.loop (b := true) hlt hframes
      | stopped i rest hframes hge => exact h.loop_end (b := true) hge hframes
      | resume i rest hframes hlt => exact h.loop (b := false) hlt hframes
      | resumed i rest hframes hge => exact h.loop_end (b := false) hge hframes
      | terminate i rest hframes hlt => exact absurd hframes (h.frames_ne rfl)
      | terminated i rest hframes hge => exact absurd hframes (h.frames_ne rfl)
      | wait i rest hframes hlt hreturns => exact absurd hframes (h.frames_ne rfl)
      | exit i rest hframes hge => exact absurd hframes (h.frames_ne rfl)

theorem quiet_iff {q : Process} :
    q.quiet = true ↔ q.frames = [] ∧ ∀ sig, q.pending sig = false := by
  have hall : (∀ sig, q.pending sig = false) ↔
      q.pending .int = false ∧ q.pending .usr1 = false ∧ q.pending .term = false :=
    ⟨fun h => ⟨h _, h _, h _⟩, fun h sig => by cases sig <;> simp [h]⟩
  rw [hall]
  simp [Process.quiet, and_assoc]

/-- A process that waits for a signal starts the handler of the only one it has. -/
theorem start_pause {q : Process} {sig : Sig} (blocks : Bool) (hframes : q.frames = [])
    (hone : ∀ sig sig', q.pending sig = true → q.pending sig' = true → sig = sig')
    (hsig : q.pending sig = true) :
    (q.start sig blocks).frames = [sig.handler] ∧
      ∀ sig', (q.start sig blocks).pending sig' = false := by
  have hnone : ∀ sig', Function.update q.pending sig false sig' = false := by
    intro sig'
    by_cases heq : sig' = sig
    · rw [heq, Function.update_self]
    · rw [Function.update_of_ne heq]
      by_contra hpending
      exact heq (hone sig' sig (by simpa using hpending) hsig)
  refine ⟨?_, hnone⟩
  unfold Process.start
  rw [hframes]
  cases blocks <;> rfl

theorem pending_of_deliverable {q : Process} {sig : Sig} (h : q.deliverable sig = true) :
    q.pending sig = true := by
  unfold Process.deliverable at h
  rw [Bool.and_eq_true] at h
  exact h.1

theorem CalmInv.deliver (h : CalmInv s) {p : Who n} {sig : Sig} {blocks : Bool}
    (hs : deliver s p sig blocks = some s') : CalmInv s' := by
  have ⟨hrun, hdeliver, heq⟩ := deliver_cases hs
  have hsig := pending_of_deliverable hdeliver
  cases p with
  | child c =>
      have ⟨b, hb⟩ := h.kids c
      rw [hb] at hsig
      contradiction
  | controller =>
      cases h.turn with
      | loop b i hframes hnone =>
          rw [hnone] at hsig
          contradiction
      | pause hframes hone hkids =>
          have ⟨hframes', hnone'⟩ := start_pause blocks hframes hone hsig
          have hself : s'.proc .controller = (s.proc .controller).start sig blocks := by
            simp [heq]
          have hchild : ∀ c, s'.proc (.child c) = s.proc (.child c) := by
            simp [heq]
          have hline : s'.lastLine = some sig := by
            simp [heq, Sys.lastLine]
          have hloop : ∃ b, sig = loopSig b ∧ sig.handler = loopFrame b 0 := by
            cases sig with
            | int => exact ⟨true, rfl, rfl⟩
            | usr1 => exact ⟨false, rfl, rfl⟩
            | term =>
                rw [h.noTerm] at hsig
                contradiction
          have ⟨b, hb, hhandler⟩ := hloop
          exact
            { alive := by rw [hself]; exact h.alive
              noTerm := by rw [hself]; exact hnone' _
              kids := fun c => by rw [hchild]; exact h.kids c
              unreaped := by rw [heq]; exact h.unreaped
              turn := .loop b 0 (by rw [hself, hframes', hhandler]) (by rw [hself]; exact hnone')
                (by rw [hline, hb]) (fun c hc => absurd hc (Nat.not_lt_zero _)) }

/-- What a signal from outside does to a controller in `pause`. -/
theorem ask_quiet {q : Process} (hrun : q.canRun = true) (hquiet : q.quiet = true) (sig : Sig) :
    q.ask sig = { q with pending := fun sig' => sig' == sig } := by
  have hexited : q.exited = false := by
    unfold Process.canRun at hrun
    simp at hrun
    exact hrun.1
  have hnone := (quiet_iff.mp hquiet).2
  rw [Process.ask, if_neg (by rw [hexited]; decide)]
  have hpending : Function.update q.pending sig true = fun sig' => sig' == sig := by
    funext sig'
    by_cases heq : sig' = sig
    · rw [heq, Function.update_self, beq_self_eq_true]
    · rw [Function.update_of_ne heq, hnone, beq_eq_false_iff_ne.mpr heq]
  rw [hpending]

theorem CalmInv.signal (h : CalmInv s) {sig : Sig} (hsig : sig ≠ .term)
    (hquiet : (s.proc .controller).quiet = true) : CalmInv (s.signal sig) := by
  have hask := ask_quiet h.alive hquiet sig
  have hframes := (quiet_iff.mp hquiet).1
  have hkids : ∀ c, s.proc (.child c) = .child (s.lastLine == some .int) := by
    cases h.turn with
    | pause hframes' hone hkids => exact hkids
    | loop b i hframes' =>
        rw [hframes] at hframes'
        contradiction
  exact
    { alive := by rw [signal_controller, hask]; exact h.alive
      noTerm := by
        rw [signal_controller, hask]
        exact beq_eq_false_iff_ne.mpr (Ne.symm hsig)
      kids := fun c => by rw [signal_child]; exact h.kids c
      unreaped := h.unreaped
      turn := .pause (by rw [signal_controller, hask]; exact hframes)
        (by
          rw [signal_controller, hask]
          intro sig₁ sig₂ h₁ h₂
          exact (eq_of_beq h₁).trans (eq_of_beq h₂).symm)
        (fun c => by rw [signal_child]; exact hkids c) }

theorem CalmInv.step {a : Act n} (h : CalmInv s) (hok : Calm s a) (hs : step s a = some s') :
    CalmInv s' := by
  cases a with
  | signal sig =>
      have heq := Option.some.inj hs
      subst heq
      exact h.signal hok.1 hok.2
  | interrupt => exact hok.elim
  | deliver p sig blocks => exact h.deliver hs
  | handler p => exact h.call (call_of_handlerStep hs).2
  | count c =>
      unfold JobController.step countStep at hs
      rw [Option.ite_none_right_eq_some] at hs
      have heq := Option.some.inj hs.2
      subst heq
      have hturn : Turn { s with count := Function.update s.count c (s.count c + 1) } := by
        cases h.turn with
        | pause hframes hone hkids => exact .pause hframes hone hkids
        | loop b i hframes hnone hline hkids => exact .loop b i hframes hnone hline hkids
      exact
        { alive := h.alive
          noTerm := h.noTerm
          kids := h.kids
          unreaped := h.unreaped
          turn := hturn }

/-- When the controller is in `pause`, the children are stopped or not as the last signal
says. -/
theorem CalmInv.at_pause (h : CalmInv s) (hquiet : (s.proc .controller).quiet = true) (c : Fin n) :
    s.proc (.child c) = .child (s.lastLine == some .int) := by
  cases h.turn with
  | pause hframes hone hkids => exact hkids c
  | loop b i hframes =>
      rw [(quiet_iff.mp hquiet).1] at hframes
      contradiction

end SystemsInC.Ports.JobController
