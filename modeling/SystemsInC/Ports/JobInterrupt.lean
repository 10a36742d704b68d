import SystemsInC.Ports.JobController

/-!
# Ctrl+C

Ctrl+C sends SIGINT to the controller and to the children, and a child that handles it
sends SIGSTOP to the zeros of its table, which is the whole group.  So a child never comes
back from this handler: either the group stands still, or the child still has to handle
SIGINT, or it handles SIGTERM and exits.
-/

namespace SystemsInC.Ports.JobController

open SystemsInC.Verified.GuardedRuns

variable {n : Nat} {s s' : Sys n}

/-! ## Doomed children -/

/-- A child that has SIGINT pending, or is in the handler of SIGINT and has not come to the
zeros of its table, or is in the handler of SIGTERM, or has exited. -/
def Process.Doomed (q : Process) (c : Nat) : Prop :=
  q.exited = true ∨ q.pending .int = true ∨ (∃ i ≤ c, .stopping i ∈ q.frames) ∨
    ∃ f ∈ q.frames, f.sig = .term

/-- Every process is stopped or has exited. -/
def Standstill (s : Sys n) : Prop := ∀ p, (s.proc p).canRun = false

theorem Process.Doomed.send {q : Process} {c : Nat} (h : q.Doomed c) (order : Order) :
    (q.send order).Doomed c := by
  unfold Doomed at h ⊢
  rw [send_exited, send_frames]
  rcases h with h | h | h
  · exact .inl h
  · exact .inr (.inl (send_pending q order h))
  · exact .inr (.inr h)

theorem Process.Doomed.ask {q : Process} {c : Nat} (h : q.Doomed c) (sig : Sig) :
    (q.ask sig).Doomed c := by
  unfold Process.ask
  split
  · exact h
  · rcases h with h | h | h
    · exact .inl h
    · have hpending : Function.update q.pending sig true .int = true := by
        by_cases hsig : .int = sig
        · rw [← hsig, Function.update_self]
        · rw [Function.update_of_ne hsig]
          exact h
      exact .inr (.inl hpending)
    · exact .inr (.inr h)

theorem doomed_kill {target : Option (Who n)} {order : Order} {r : Who n} {c : Nat}
    (h : (s.proc r).Doomed c) : ((s.kill target order).proc r).Doomed c := by
  rcases kill_proc s target order r with heq | heq
  · rw [heq]
    exact h.send order
  · rw [heq]
    exact h

/-- The next frames of a handler are as good as those before. -/
theorem Process.Doomed.setFrames {q : Process} {c : Nat} {f : Frame} {rest frames : List Frame}
    (h : q.Doomed c) (hframes : q.frames = f :: rest) (hrest : ∀ g ∈ rest, g ∈ frames)
    (hstop : ∀ i ≤ c, f = .stopping i → ∃ j ≤ c, .stopping j ∈ frames)
    (hterm : f.sig = .term → ∃ g ∈ frames, g.sig = .term) :
    { q with frames := frames }.Doomed c := by
  unfold Doomed at h
  rw [hframes] at h
  rcases h with h | h | ⟨i, hi, hmem⟩ | ⟨g, hmem, hg⟩
  · exact .inl h
  · exact .inr (.inl h)
  · rcases List.mem_cons.mp hmem with heq | hmem
    · exact .inr (.inr (.inl (hstop i hi heq.symm)))
    · exact .inr (.inr (.inl ⟨i, hi, hrest _ hmem⟩))
  · rcases List.mem_cons.mp hmem with heq | hmem
    · exact .inr (.inr (.inr (hterm (heq ▸ hg))))
    · exact .inr (.inr (.inr ⟨g, hrest _ hmem, hg⟩))

/-- A call of one process changes another one by a signal at most. -/
theorem Call.other {p r : Who n} (hc : Call s p s') (hne : r ≠ p) :
    s'.proc r = s.proc r ∨ ∃ order, s'.proc r = (s.proc r).send order := by
  have hkill : ∀ target order frames,
      ((s.kill target order).setFrames p frames).proc r = s.proc r ∨
        ∃ order', ((s.kill target order).setFrames p frames).proc r = (s.proc r).send order' := by
    intro target order frames
    rw [setFrames_other _ hne]
    rcases kill_proc s target order r with h | h
    · exact .inr ⟨order, h⟩
    · exact .inl h
  cases hc with
  | stop i rest hframes h => exact hkill ..
  | stopped i rest hframes hge => exact .inl (setFrames_other s hne _)
  | resume i rest hframes h => exact hkill ..
  | resumed i rest hframes hge => exact .inl (setFrames_other s hne _)
  | terminate i rest hframes h => exact hkill ..
  | terminated i rest hframes hge => exact .inl (setFrames_other s hne _)
  | wait i rest hframes h hreturns =>
      left
      rw [setFrames_other _ hne, reap_proc]
  | exit i rest hframes hge => exact .inl (Function.update_of_ne hne ..)

/-- The zeros of a child's table stop the process group. -/
theorem standstill_of_kill {p : Who n} {frames : List Frame} :
    Standstill ((s.kill none .stop).setFrames p frames) := by
  have hkill : ∀ r, ((s.kill none .stop).proc r).canRun = false := by
    intro r
    have heq : (s.kill none .stop).proc r = (s.proc r).send .stop := by
      simp [Sys.kill]
    rw [heq, send_stop]
  intro r
  by_cases hr : r = p
  · rw [hr, setFrames_self]
    exact hkill p
  · rw [setFrames_other _ hr]
    exact hkill r

/-- A doomed child stays so until one of them stops the group. -/
theorem doomed_call {c : Fin n} (h : (s.proc (.child c)).Doomed c)
    (hc : Call s (.child c) s') : (s'.proc (.child c)).Doomed c ∨ Standstill s' := by
  cases hc with
  | stop i rest hframes hlt =>
      by_cases hi : i < c.val
      · left
        rw [setFrames_self]
        exact (doomed_kill h).setFrames ((kill_frames ..).trans hframes)
          (fun g hg => List.mem_cons_of_mem _ hg)
          (fun j hj heq => ⟨i + 1, hi, List.mem_cons_self⟩) nofun
      · right
        have hnone : children (.child c) ⟨i, hlt⟩ = none := if_neg hi
        rw [hnone]
        exact standstill_of_kill
  | stopped i rest hframes hge =>
      left
      rw [setFrames_self]
      refine h.setFrames hframes (fun g hg => hg) (fun j hj heq => ?_) nofun
      have hij := Frame.stopping.inj heq
      omega
  | resume i rest hframes hlt =>
      left
      rw [setFrames_self]
      exact (doomed_kill h).setFrames ((kill_frames ..).trans hframes)
        (fun g hg => List.mem_cons_of_mem _ hg) nofun nofun
  | resumed i rest hframes hge =>
      left
      rw [setFrames_self]
      exact h.setFrames hframes (fun g hg => hg) nofun nofun
  | terminate i rest hframes hlt =>
      left
      rw [setFrames_self]
      exact (doomed_kill h).setFrames ((kill_frames ..).trans hframes)
        (fun g hg => List.mem_cons_of_mem _ hg) nofun (fun _ => ⟨_, List.mem_cons_self, rfl⟩)
  | terminated i rest hframes hge =>
      left
      rw [setFrames_self]
      exact h.setFrames hframes (fun g hg => List.mem_cons_of_mem _ hg) nofun
        (fun _ => ⟨_, List.mem_cons_self, rfl⟩)
  | wait i rest hframes hlt hreturns =>
      left
      rw [setFrames_self]
      exact h.setFrames hframes (fun g hg => List.mem_cons_of_mem _ hg) nofun
        (fun _ => ⟨_, List.mem_cons_self, rfl⟩)
  | exit i rest hframes hge =>
      have hexited : (Function.update s.proc (.child c)
          { s.proc (.child c) with exited := true } (.child c)).exited = true := by
        rw [Function.update_self]
      exact .inl (.inl hexited)

theorem mem_interrupted {f : Frame} {frames : List Frame} (h : f ∈ frames)
    (hf : ∀ i, f ≠ .waiting i) : f ∈ interrupted frames := by
  unfold interrupted
  split
  · rename_i i rest
    exact List.mem_cons_of_mem _ ((List.mem_cons.mp h).resolve_left (hf i))
  · exact h

theorem exists_term_interrupted {frames : List Frame} (h : ∃ f ∈ frames, f.sig = .term) :
    ∃ f ∈ interrupted frames, f.sig = .term := by
  unfold interrupted
  split
  · exact ⟨_, List.mem_cons_self, rfl⟩
  · exact h

/-- A doomed child that starts a handler stays so. -/
theorem Process.Doomed.start {q : Process} {c : Nat} (h : q.Doomed c) (sig : Sig)
    (blocks : Bool) : (q.start sig blocks).Doomed c := by
  rcases h with h | h | ⟨i, hi, hmem⟩ | h
  · exact .inl h
  · by_cases hsig : .int = sig
    · rw [← hsig]
      exact .inr (.inr (.inl ⟨0, Nat.zero_le _, List.mem_cons_self⟩))
    · have hpending : Function.update q.pending sig false .int = true := by
        rw [Function.update_of_ne hsig]
        exact h
      exact .inr (.inl hpending)
  · have hkept : .stopping i ∈ (if blocks then interrupted q.frames else q.frames) := by
      cases blocks with
      | true => exact mem_interrupted hmem nofun
      | false => exact hmem
    exact .inr (.inr (.inl ⟨i, hi, List.mem_cons_of_mem _ hkept⟩))
  · have hkept : ∃ f ∈ (if blocks then interrupted q.frames else q.frames), f.sig = .term := by
      cases blocks with
      | true => exact exists_term_interrupted h
      | false => exact h
    have ⟨f, hmem, hf⟩ := hkept
    exact .inr (.inr (.inr ⟨f, List.mem_cons_of_mem _ hmem, hf⟩))

/-- No child will count again. -/
def Silent (s : Sys n) : Prop := (∀ c : Fin n, (s.proc (.child c)).Doomed c) ∨ Standstill s

theorem doomed_not_quiet {q : Process} {c : Nat} (h : q.Doomed c) (hrun : q.canRun = true) :
    q.quiet = false := by
  unfold Process.canRun at hrun
  unfold Process.quiet
  rcases h with h | h | ⟨i, -, hmem⟩ | ⟨f, hmem, -⟩
  · simp [h] at hrun
  · simp [h]
  · cases hframes : q.frames <;> simp_all
  · cases hframes : q.frames <;> simp_all

theorem ask_canRun {q : Process} (h : q.canRun = false) (sig : Sig) :
    (q.ask sig).canRun = false := by
  unfold Process.ask
  split
  · exact h
  · exact h

theorem Call.count {p : Who n} (hc : Call s p s') : s'.count = s.count := by
  cases hc
  case wait => cases p <;> rfl
  all_goals rfl

theorem silent_step {a : Act n} (h : Silent s) (hs : step s a = some s') :
    Silent s' ∧ s'.count = s.count := by
  cases a with
  | signal sig =>
      have heq := Option.some.inj hs
      subst heq
      refine ⟨?_, rfl⟩
      rcases h with hdoomed | hstill
      · left
        intro c
        rw [signal_child]
        exact hdoomed c
      · right
        intro p
        cases p with
        | controller =>
            rw [signal_controller]
            exact ask_canRun (hstill _) sig
        | child c =>
            rw [signal_child]
            exact hstill _
  | interrupt =>
      have heq := Option.some.inj hs
      subst heq
      refine ⟨?_, rfl⟩
      rcases h with hdoomed | hstill
      · exact .inl (fun c => (hdoomed c).ask .int)
      · exact .inr (fun p => ask_canRun (hstill p) .int)
  | deliver p sig blocks =>
      have ⟨hrun, hsig, heq⟩ := deliver_cases hs
      subst heq
      refine ⟨?_, rfl⟩
      rcases h with hdoomed | hstill
      · left
        intro c
        change (Function.update s.proc p ((s.proc p).start sig blocks) (.child c)).Doomed c
        by_cases hp : .child c = p
        · rw [← hp, Function.update_self]
          exact (hdoomed c).start sig blocks
        · rw [Function.update_of_ne hp]
          exact hdoomed c
      · exact absurd (hstill p) (by rw [hrun]; decide)
  | handler p =>
      have ⟨hrun, hc⟩ := call_of_handlerStep hs
      refine ⟨?_, ?_⟩
      · rcases h with hdoomed | hstill
        · by_cases hstop : Standstill s'
          · exact .inr hstop
          · left
            intro c
            by_cases hp : .child c = p
            · rw [← hp] at hc
              exact (doomed_call (hdoomed c) hc).resolve_right hstop
            · rcases hc.other hp with heq | ⟨order, heq⟩
              · rw [heq]
                exact hdoomed c
              · rw [heq]
                exact (hdoomed c).send order
        · exact absurd (hstill p) (by rw [hrun]; decide)
      · exact hc.count
  | count c =>
      unfold step countStep at hs
      rw [Option.ite_none_right_eq_some, Bool.and_eq_true] at hs
      have ⟨⟨hrun, hquiet⟩, _⟩ := hs
      rcases h with hdoomed | hstill
      · rw [doomed_not_quiet (hdoomed c) hrun] at hquiet
        contradiction
      · rw [hstill] at hrun
        contradiction

theorem silent_interrupt (s : Sys n) : Silent s.interrupt := by
  left
  intro c
  change ((s.proc (.child c)).ask .int).Doomed c
  unfold Process.ask
  split
  · rename_i hexited
    exact .inl hexited
  · have hpending : Function.update (s.proc (.child c)).pending .int true .int = true := by
      rw [Function.update_self]
    exact .inr (.inl hpending)

/-- **Ctrl+C stops the counting for good.**  After it no child counts again, whatever
signals the controller and the group get and however the processes interleave. -/
theorem count_after_interrupt (s s' : Sys n) (as : List (Act n))
    (hrun : run step s.interrupt as = some s') : s'.count = s.count := by
  have hkeep := (Reach.of_run hrun).keeps (P := fun r => Silent r ∧ r.count = s.count)
    ⟨silent_interrupt s, rfl⟩ (fun r a r' h _ hs => by
      have ⟨hsilent, hcount⟩ := silent_step h.1 hs
      exact ⟨hsilent, hcount.trans h.2⟩)
  exact hkeep.2

def firstChild : Fin 2 := ⟨0, Nat.succ_pos 1⟩

/-- Two children; the first one has counted. -/
def counted : Sys 2 := { Sys.init 2 with count := Function.update (fun _ => 0) firstChild 1 }

/-- The controller stops both children before they handle Ctrl+C and resumes the first one
on SIGUSR1; this handles its own SIGINT and stops the group. -/
def resumed : List (Act 2) :=
  [.deliver .controller .int false, .handler .controller, .handler .controller,
    .handler .controller, .signal .usr1, .deliver .controller .usr1 false, .handler .controller,
    .deliver (.child firstChild) .int false, .handler (.child firstChild)]

theorem count_after_interrupt_resumed :
    ∃ s', run step counted.interrupt resumed = some s' ∧ s'.count = counted.count :=
  ⟨_, rfl, count_after_interrupt counted _ resumed rfl⟩

end SystemsInC.Ports.JobController
