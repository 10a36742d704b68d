import SystemsInC.Ports.HashMapWorkers

/-!
# What the workers of the hash map know

A thread looks up what it has inserted itself, and what another thread inserts under the same
key is the same value.  `Turn` is the place of a thread in its loops and in its call, with the
part of the log that it knows there; `Inv` puts the threads, the map, the output and `main`
together.
-/

namespace SystemsInC.Ports.HashMapWorkers

open SystemsInC.Verified.CString
open SystemsInC.Verified.GuardedRuns
open SystemsInC.Ports.LockedHashMap hiding hash
open SystemsInC.Ports.HashMapOrder

/-! ## One thread of the program -/

/-- The inserts that a thread has made before the body of a loop are in the log. -/
def Past (keys : Nat) (log : List Op) : Loop → Prop
  | .inserting i => ∀ j < i, (Loop.inserting j).op ∈ log
  | .lookingUp _ => ∀ j < keys, (Loop.inserting j).op ∈ log

/-- A lookup has found the value of its key. -/
def Answers : Loop → Option Result → Prop
  | .inserting _, _ => True
  | .lookingUp i, result => result = some { found := 1, value := keyValue i }

/-- The place of a thread in its loops and in the map, and what it knows there. -/
inductive Turn (keys : Nat) (log : List Op) : WorkerPc → Pc → Prop
  | absent : Turn keys log .absent .idle
  | loop {l : Loop} (hle : l.index ≤ keys) (hpast : Past keys log l) :
      Turn keys log (.loop l) .idle
  | locking {l : Loop} {began : Nat} (hlt : l.index < keys) (hpast : Past keys log l) :
      Turn keys log (.calling l) (.locking l.op began)
  | walking {l : Loop} {call : Call} {pos : Nat} (hlt : l.index < keys) (hop : call.op = l.op)
      (hpast : Past keys call.before l) : Turn keys log (.calling l) (.walking call pos)
  | unlocking {l : Loop} {call : Call} {result : Option Result} (hlt : l.index < keys)
      (hop : call.op = l.op) (hpast : Past keys call.before l) :
      Turn keys log (.calling l) (.unlocking call result)
  | printing {l : Loop} {result : Option Result} (hlt : l.index < keys)
      (hpast : Past keys log l.next) (hanswer : Answers l result) :
      Turn keys log (.printing l result) .idle
  | exited (hpast : ∀ j < keys, (Loop.inserting j).op ∈ log) : Turn keys log .exited .idle

/-- What is behind a worker stays in the log. -/
theorem Past.mono {keys : Nat} {log log' : List Op} {l : Loop} (h : Past keys log l)
    (hsub : log ⊆ log') : Past keys log' l := by
  cases l with
  | inserting i => exact fun j hj => hsub (h j hj)
  | lookingUp i => exact fun j hj => hsub (h j hj)

theorem Turn.mono {keys : Nat} {log log' : List Op} {w : WorkerPc} {pc : Pc}
    (h : Turn keys log w pc) (hsub : log ⊆ log') : Turn keys log' w pc := by
  cases h with
  | absent => exact .absent
  | loop hle hpast => exact .loop hle (hpast.mono hsub)
  | locking hlt hpast => exact .locking hlt (hpast.mono hsub)
  | walking hlt hop hpast => exact .walking hlt hop hpast
  | unlocking hlt hop hpast => exact .unlocking hlt hop hpast
  | printing hlt hpast hanswer => exact .printing hlt (hpast.mono hsub) hanswer
  | exited hpast => exact .exited (fun j hj => hsub (hpast j hj))

/-- Outside the body of a loop a thread is in no call. -/
theorem Turn.idle {keys : Nat} {log : List Op} {w : WorkerPc} {pc : Pc}
    (h : Turn keys log w pc) (hw : ∀ l, w ≠ .calling l) : pc = .idle := by
  cases h with
  | absent | loop | printing | exited => rfl
  | locking | walking | unlocking => exact absurd rfl (hw _)

/-- Only a worker that has called is inside the map. -/
theorem Turn.calling {keys : Nat} {log : List Op} {w : WorkerPc} {pc : Pc}
    (h : Turn keys log w pc) (hpc : pc ≠ .idle) : ∃ l, w = .calling l := by
  cases h with
  | absent | loop | printing | exited => exact absurd rfl hpc
  | locking | walking | unlocking => exact ⟨_, rfl⟩

/-- The call of a body is in the log when it is over. -/
theorem Past.next {keys : Nat} {log before : List Op} {l : Loop} (h : Past keys before l)
    (hlog : before ++ [l.op] <+: log) : Past keys log l.next := by
  have hbefore : before ⊆ log :=
    fun op hop => hlog.subset (List.mem_append_left _ hop)
  have hself : l.op ∈ log := hlog.subset (List.mem_append_right _ List.mem_cons_self)
  cases l with
  | inserting i =>
      intro j hj
      rcases Nat.lt_succ_iff_lt_or_eq.mp hj with hlt | heq
      · exact hbefore (h j hlt)
      · exact heq ▸ hself
  | lookingUp i => exact fun j hj => hbefore (h j hj)

/-- A thread finds what it has inserted. -/
theorem answers_of_log {keys : Nat} {before : List Op} {l : Loop} {result : Option Result}
    (hlt : l.index < keys) (hknown : ∀ op ∈ before, Known keys op) (hpast : Past keys before l)
    (hresult : ∀ key, l.op = .lookup key → result = some (answer (lastInsert key before))) :
    Answers l result := by
  cases l with
  | inserting i => trivial
  | lookingUp i =>
      rw [Answers, hresult (keyText i) rfl, lastInsert_known hknown (hpast i hlt)]
      rfl

/-! ## The output -/

/-- What a thread has printed before the body of a loop. -/
def Loop.lines (keys : Nat) (self : Int) : Loop → List Bytes
  | .inserting i => (List.range i).map (fun j => insertedLine self (keyText j) (keyValue j))
  | .lookingUp i =>
      (List.range keys).map (fun j => insertedLine self (keyText j) (keyValue j)) ++
        (List.range i).map (fun j => lookedUpLine self (keyText j) (keyValue j))

/-- The lines that a worker has printed where it stands. -/
def WorkerPc.lines (keys : Nat) (self : Int) : WorkerPc → List Bytes
  | .absent => []
  | .loop l | .calling l | .printing l _ => l.lines keys self
  | .exited => transcript keys self

/-- A turn prints its line. -/
theorem Loop.lines_next {l : Loop} {result : Option Result} (h : Answers l result) (keys : Nat)
    (self : Int) : l.lines keys self ++ l.print self result = l.next.lines keys self := by
  cases l with
  | inserting i =>
      rw [Loop.next, Loop.lines, Loop.lines, List.range_succ, List.map_append]
      rfl
  | lookingUp i =>
      have h : result = some { found := 1, value := keyValue i } := h
      rw [Loop.next, Loop.lines, Loop.lines, List.range_succ, List.map_append, h,
        ← List.append_assoc]
      rfl

theorem Loop.lines_leave {l : Loop} {keys : Nat} (h : l.index = keys) (self : Int) :
    l.leave.lines keys self = l.lines keys self := by
  cases l with
  | inserting i =>
      cases h
      exact List.append_nil _
  | lookingUp i =>
      cases h
      rfl

/-- A worker has printed the start of its transcript. -/
theorem WorkerPc.lines_prefix {keys : Nat} {log : List Op} {w : WorkerPc} {pc : Pc}
    (h : Turn keys log w pc) (self : Int) : w.lines keys self <+: transcript keys self := by
  have hrange : ∀ {i : Nat} (line : Nat → Bytes), i ≤ keys →
      (List.range i).map line <+: (List.range keys).map line := by
    intro i line hi
    refine List.IsPrefix.map _ ?_
    rw [← Nat.add_sub_cancel' hi, List.range_add]
    exact List.prefix_append _ _
  have hloop : ∀ l : Loop, l.index ≤ keys → l.lines keys self <+: transcript keys self := by
    intro l hle
    cases l with
    | inserting i => exact (hrange _ hle).trans (List.prefix_append _ _)
    | lookingUp i => exact (List.prefix_append_right_inj _).mpr (hrange _ hle)
  cases h with
  | absent => exact List.nil_prefix
  | loop hle => exact hloop _ hle
  | locking hlt => exact hloop _ hlt.le
  | walking hlt => exact hloop _ hlt.le
  | unlocking hlt => exact hloop _ hlt.le
  | printing hlt => exact hloop _ hlt.le
  | exited => exact List.prefix_rfl

/-- A line counts for the thread that prints it. -/
theorem printedBy_append {T : Type*} [DecidableEq T] (t u : T) (lines : List (T × Bytes))
    (printed : List Bytes) :
    printedBy u (lines ++ printed.map (fun line => (t, line))) =
      printedBy u lines ++ if t = u then printed else [] := by
  rw [printedBy, List.filter_append, List.map_append, List.filter_map, List.map_map]
  by_cases hu : t = u
  · simp [hu, printedBy]
  · simp [hu, printedBy]

/-! ## The invariant -/

/-- Which threads there are, and which have exited. -/
inductive MainOk {n : Nat} (worker : Fin n → WorkerPc) : MainPc → Prop
  | creating (i : Nat) (hle : i ≤ n) (hnew : ∀ t : Fin n, i ≤ t.val → worker t = .absent)
      (hold : ∀ t : Fin n, t.val < i → worker t ≠ .absent) : MainOk worker (.creating i)
  | joining (i : Nat) (hle : i ≤ n) (hold : ∀ t, worker t ≠ .absent)
      (hjoined : ∀ t : Fin n, t.val < i → worker t = .exited) : MainOk worker (.joining i)
  | returned (hjoined : ∀ t, worker t = .exited) : MainOk worker .returned

/-- The invariant of the program: the map, the turns of the workers, what they have printed,
and the loops of `main`. -/
structure Inv {cfg : Config} (p : Program cfg) : Prop where
  map : MapOk cfg.keys p.map
  main : MainOk p.worker p.main
  turns : ∀ t, Turn cfg.keys p.map.log (p.worker t) (p.map.pc t)
  lines : ∀ t, printedBy t p.lines = (p.worker t).lines cfg.keys (cfg.self t)

theorem inv_init (cfg : Config) : Inv (Program.init cfg) where
  map := MapOk.init _
  main := .creating 0 (Nat.zero_le _) (fun _ _ => rfl) (fun _ h => nomatch h)
  turns := fun _ => .absent
  lines := fun _ => rfl

/-- A thread moves that `main` has created and not joined. -/
theorem MainOk.move {n : Nat} {worker : Fin n → WorkerPc} {main : MainPc} {t : Fin n}
    {w : WorkerPc} (h : MainOk worker main) (hactive : worker t ≠ .absent ∧ worker t ≠ .exited)
    (hw : w ≠ .absent) : MainOk (Function.update worker t w) main := by
  have hothers : ∀ {u w'}, worker u = w' → worker t ≠ w' →
      Function.update worker t w u = w' := by
    intro u w' hu ht
    rw [Function.update_of_ne, hu]
    rintro rfl
    exact ht hu
  have hpresent : ∀ u, worker u ≠ .absent → Function.update worker t w u ≠ .absent := by
    intro u hu
    by_cases heq : u = t
    · rw [heq, Function.update_self]
      exact hw
    · rw [Function.update_of_ne heq]
      exact hu
  cases h with
  | creating i hle hnew hold =>
      exact .creating i hle (fun u hu => hothers (hnew u hu) hactive.1)
        (fun u hu => hpresent u (hold u hu))
  | joining i hle hold hjoined =>
      exact .joining i hle (fun u => hpresent u (hold u))
        (fun u hu => hothers (hjoined u hu) hactive.2)
  | returned hjoined => exact absurd (hjoined t) hactive.2

section Invariant

variable {cfg : Config} {p p' : Program cfg} {t : Fin cfg.threads}

/-- What one thread does is nothing to the others, as the log only grows. -/
theorem Inv.move {map : Sys (Fin cfg.threads)} {w : WorkerPc} {pc : Pc} {printed : List Bytes}
    (inv : Inv p) (hmap : MapOk cfg.keys map) (hlog : p.map.log ⊆ map.log)
    (hpc : map.pc = Function.update p.map.pc t pc)
    (hactive : p.worker t ≠ .absent ∧ p.worker t ≠ .exited) (hw : w ≠ .absent)
    (hturn : Turn cfg.keys map.log w pc)
    (hlines : (p.worker t).lines cfg.keys (cfg.self t) ++ printed =
      w.lines cfg.keys (cfg.self t)) :
    Inv { p with
      map := map
      worker := Function.update p.worker t w
      lines := p.lines ++ printed.map (fun line => (t, line)) } where
  map := hmap
  main := inv.main.move hactive hw
  turns := by
    intro u
    change Turn cfg.keys map.log (Function.update p.worker t w u) (map.pc u)
    rw [hpc]
    by_cases hu : u = t
    · rw [hu, Function.update_self, Function.update_self]
      exact hturn
    · rw [Function.update_of_ne hu, Function.update_of_ne hu]
      exact (inv.turns u).mono hlog
  lines := by
    intro u
    change _ = (Function.update p.worker t w u).lines cfg.keys (cfg.self u)
    rw [printedBy_append, inv.lines u]
    by_cases hu : u = t
    · subst hu
      rw [if_pos rfl, Function.update_self]
      exact hlines
    · rw [if_neg (Ne.symm hu), List.append_nil, Function.update_of_ne hu]

/-- A step in which the thread prints nothing. -/
theorem Inv.quiet {map : Sys (Fin cfg.threads)} {w : WorkerPc} {pc : Pc}
    (inv : Inv p) (hmap : MapOk cfg.keys map) (hlog : p.map.log ⊆ map.log)
    (hpc : map.pc = Function.update p.map.pc t pc)
    (hactive : p.worker t ≠ .absent ∧ p.worker t ≠ .exited) (hw : w ≠ .absent)
    (hturn : Turn cfg.keys map.log w pc)
    (hlines : (p.worker t).lines cfg.keys (cfg.self t) = w.lines cfg.keys (cfg.self t)) :
    Inv { p with map := map, worker := Function.update p.worker t w } := by
  have hmove := inv.move hmap hlog hpc hactive hw hturn
    ((List.append_nil _).trans hlines)
  rwa [List.map_nil, List.append_nil] at hmove

/-- A step inside a call. -/
theorem Inv.inside {map : Sys (Fin cfg.threads)} {l : Loop} {pc : Pc} (inv : Inv p)
    (hmap : MapOk cfg.keys map) (hlog : p.map.log ⊆ map.log)
    (hpc : map.pc = Function.update p.map.pc t pc) (hw : p.worker t = .calling l)
    (hturn : Turn cfg.keys map.log (.calling l) pc) : Inv { p with map := map } := by
  have hactive : p.worker t ≠ .absent ∧ p.worker t ≠ .exited := by simp [hw]
  have hquiet := inv.quiet hmap hlog hpc hactive WorkerPc.noConfusion hturn (by rw [hw])
  rwa [← hw, Function.update_eq_self] at hquiet

/-! ## What a step does -/

/-- `main` creates a worker, goes on to its joins, joins a worker that has exited, or returns. -/
theorem mainStep_cases (hs : p.mainStep = some p') :
    (∃ i, ∃ h : i < cfg.threads, p.main = .creating i ∧ p' = { p with
      main := .creating (i + 1)
      worker := Function.update p.worker ⟨i, h⟩ (.loop (.inserting 0)) }) ∨
    (∃ i, cfg.threads ≤ i ∧ p.main = .creating i ∧ p' = { p with main := .joining 0 }) ∨
    (∃ i, ∃ h : i < cfg.threads, p.main = .joining i ∧ p.worker ⟨i, h⟩ = .exited ∧
      p' = { p with main := .joining (i + 1) }) ∨
    (∃ i, cfg.threads ≤ i ∧ p.main = .joining i ∧ p' = { p with main := .returned }) := by
  unfold Program.mainStep at hs
  cases hmain : p.main with
  | creating i =>
      simp only [hmain] at hs
      by_cases h : i < cfg.threads
      · rw [dif_pos h] at hs
        exact .inl ⟨i, h, rfl, (Option.some.inj hs).symm⟩
      · rw [dif_neg h] at hs
        exact .inr (.inl ⟨i, Nat.not_lt.mp h, rfl, (Option.some.inj hs).symm⟩)
  | joining i =>
      simp only [hmain] at hs
      by_cases h : i < cfg.threads
      · rw [dif_pos h, Option.ite_none_right_eq_some] at hs
        exact .inr (.inr (.inl ⟨i, h, rfl, hs.1, (Option.some.inj hs.2).symm⟩))
      · rw [dif_neg h] at hs
        exact .inr (.inr (.inr ⟨i, Nat.not_lt.mp h, rfl, (Option.some.inj hs).symm⟩))
  | returned => simp [hmain] at hs

/-- A worker calls the map for its next key, goes on to its lookups, or exits. -/
theorem callStep_cases (hs : p.callStep t = some p') :
    ∃ l, p.worker t = .loop l ∧
      ((l.index < cfg.keys ∧ ∃ map, p.map.begin t l.op = some map ∧
          p' = { p with map := map, worker := Function.update p.worker t (.calling l) }) ∨
        (cfg.keys ≤ l.index ∧ p' = { p with worker := Function.update p.worker t l.leave })) := by
  unfold Program.callStep at hs
  cases hw : p.worker t with
  | loop l =>
      simp only [hw] at hs
      refine ⟨l, rfl, ?_⟩
      by_cases hlt : l.index < cfg.keys
      · rw [if_pos hlt, Option.ite_none_right_eq_some] at hs
        have ⟨map, hbegin, heq⟩ := Option.map_eq_some_iff.mp hs.2
        exact .inl ⟨hlt, map, hbegin, heq.symm⟩
      · rw [if_neg hlt] at hs
        exact .inr ⟨Nat.not_lt.mp hlt, (Option.some.inj hs).symm⟩
  | absent => simp [hw] at hs
  | calling l => simp [hw] at hs
  | printing l result => simp [hw] at hs
  | exited => simp [hw] at hs

/-- A call returns with its result. -/
theorem unlockStep_cases (hs : p.unlockStep t = some p') :
    ∃ l call result map, p.worker t = .calling l ∧ p.map.pc t = .unlocking call result ∧
      p.map.unlock t = some map ∧
      p' = { p with map := map, worker := Function.update p.worker t (.printing l result) } := by
  unfold Program.unlockStep at hs
  split at hs
  · rename_i l call result hw hpc
    have ⟨map, hunlock, heq⟩ := Option.map_eq_some_iff.mp hs
    exact ⟨l, call, result, map, hw, hpc, hunlock, heq.symm⟩
  · cases hs

/-- A worker prints the line of its turn and goes on. -/
theorem printStep_cases (hs : p.printStep t = some p') :
    ∃ l result, p.worker t = .printing l result ∧ p' = { p with
      worker := Function.update p.worker t (.loop l.next)
      lines := p.lines ++ (l.print (cfg.self t) result).map (fun line => (t, line)) } := by
  unfold Program.printStep at hs
  cases hw : p.worker t with
  | printing l result =>
      simp only [hw] at hs
      exact ⟨l, result, rfl, (Option.some.inj hs).symm⟩
  | absent => simp [hw] at hs
  | loop l => simp [hw] at hs
  | calling l => simp [hw] at hs
  | exited => simp [hw] at hs

/-! ## The invariant is kept -/

/-- `main` creates one thread more, the first one that is absent. -/
theorem MainOk.create {n i : Nat} {worker : Fin n → WorkerPc} (h : MainOk worker (.creating i))
    (hi : i < n) : worker ⟨i, hi⟩ = .absent ∧
      MainOk (Function.update worker ⟨i, hi⟩ (.loop (.inserting 0))) (.creating (i + 1)) := by
  cases h with
  | creating _ _ hnew hold =>
      refine ⟨hnew _ (Nat.le_refl i), .creating (i + 1) hi (fun u hu => ?_) (fun u hu => ?_)⟩
      · have hne : u ≠ ⟨i, hi⟩ := Fin.ne_of_val_ne (Nat.ne_of_gt hu)
        rw [Function.update_of_ne hne]
        exact hnew u (Nat.le_of_succ_le hu)
      · by_cases heq : u = ⟨i, hi⟩
        · rw [heq, Function.update_self]
          exact WorkerPc.noConfusion
        · rw [Function.update_of_ne heq]
          exact hold u (Nat.lt_of_le_of_ne (Nat.lt_succ_iff.mp hu) (fun h => heq (Fin.ext h)))

theorem Inv.create {i : Nat} (inv : Inv p) (hmain : p.main = .creating i) (hi : i < cfg.threads) :
    Inv { p with
      main := .creating (i + 1)
      worker := Function.update p.worker ⟨i, hi⟩ (.loop (.inserting 0)) } := by
  have hstage := inv.main
  rw [hmain] at hstage
  have ⟨habsent, hcreated⟩ := hstage.create hi
  have hturn := inv.turns ⟨i, hi⟩
  rw [habsent] at hturn
  refine ⟨inv.map, hcreated, fun u => ?_, fun u => ?_⟩
  · -- the new thread starts where an absent one is
    change Turn _ _ (Function.update p.worker _ _ u) _
    by_cases heq : u = ⟨i, hi⟩
    · rw [heq, Function.update_self, hturn.idle (fun _ => WorkerPc.noConfusion)]
      exact .loop (Nat.zero_le _) (fun _ h => nomatch h)
    · rw [Function.update_of_ne heq]
      exact inv.turns u
  · change _ = (Function.update p.worker _ _ u).lines _ _
    by_cases heq : u = ⟨i, hi⟩
    · have hlines := inv.lines u
      rw [heq] at hlines ⊢
      rw [Function.update_self, hlines, habsent]
      rfl
    · rw [Function.update_of_ne heq]
      exact inv.lines u

theorem Inv.mainStep (inv : Inv p) (hs : p.mainStep = some p') : Inv p' := by
  rcases mainStep_cases hs with ⟨i, hi, hmain, rfl⟩ | ⟨i, hi, hmain, rfl⟩ |
    ⟨i, hi, hmain, hexited, rfl⟩ | ⟨i, hi, hmain, rfl⟩
  · exact inv.create hmain hi
  · have hstage := inv.main
    rw [hmain] at hstage
    cases hstage with
    | creating _ _ hnew hold =>
        exact { inv with
          main := .joining 0 (Nat.zero_le _)
            (fun u => hold u (Nat.lt_of_lt_of_le u.isLt hi)) (fun _ h => nomatch h) }
  · have hstage := inv.main
    rw [hmain] at hstage
    cases hstage with
    | joining _ _ hold hjoined =>
        refine { inv with main := .joining (i + 1) hi hold (fun u hu => ?_) }
        rcases Nat.lt_succ_iff_lt_or_eq.mp hu with hlt | heq
        · exact hjoined u hlt
        · have hu : u = ⟨i, hi⟩ := Fin.ext heq
          exact hu ▸ hexited
  · have hstage := inv.main
    rw [hmain] at hstage
    cases hstage with
    | joining _ _ hold hjoined =>
        exact { inv with
          main := .returned (fun u => hjoined u (Nat.lt_of_lt_of_le u.isLt hi)) }

theorem Inv.callStep (inv : Inv p) (hs : p.callStep t = some p') : Inv p' := by
  have ⟨l, hw, hcases⟩ := callStep_cases hs
  have hturn := inv.turns t
  have hactive : p.worker t ≠ .absent ∧ p.worker t ≠ .exited := by simp [hw]
  rw [hw] at hturn
  have hpc : p.map.pc t = .idle := hturn.idle (fun _ => WorkerPc.noConfusion)
  rw [hpc] at hturn
  cases hturn with
  | loop hle hpast =>
      rcases hcases with ⟨hlt, map, hbegin, rfl⟩ | ⟨hge, rfl⟩
      · have hmap := inv.map.begin ⟨l, hlt, rfl⟩ hbegin
        have ⟨_, heq⟩ := begin_cases hbegin
        subst heq
        exact inv.quiet hmap (fun _ h => h) rfl hactive WorkerPc.noConfusion
          (.locking hlt hpast) (by rw [hw]; rfl)
      · have hindex : l.index = cfg.keys := Nat.le_antisymm hle hge
        have hsame : p.map.pc = Function.update p.map.pc t .idle := by
          rw [← hpc, Function.update_eq_self]
        refine inv.quiet inv.map (fun _ h => h) hsame hactive ?_ ?_ ?_
        · cases l <;> exact WorkerPc.noConfusion
        · cases l with
          | inserting i =>
              cases hindex
              exact .loop (Nat.zero_le _) hpast
          | lookingUp i => exact .exited hpast
        · rw [hw, Loop.lines_leave hindex]
          rfl

/-- A worker gets the lock of its bucket. -/
theorem Inv.lock {map : Sys (Fin cfg.threads)} (inv : Inv p) (hs : p.map.lock t = some map) :
    Inv { p with map := map } := by
  have hmap := inv.map.lock hs
  have ⟨op, began, hpc, _, heq⟩ := lock_cases hs
  have hturn := inv.turns t
  rw [hpc] at hturn
  have ⟨l, hw⟩ := hturn.calling Pc.noConfusion
  rw [hw] at hturn
  cases hturn with
  | locking hlt hpast =>
      subst heq
      exact inv.inside hmap (fun _ h => List.mem_append_left _ h) rfl hw
        (.walking hlt rfl hpast)

/-- A worker goes on in the chain of its bucket. -/
theorem Inv.walk {map : Sys (Fin cfg.threads)} (inv : Inv p) (hs : p.map.walk t = some map) :
    Inv { p with map := map } := by
  have hmap := inv.map.walk hs
  have ⟨call, pos, hpc, hcases⟩ := walk_cases hs
  have hturn := inv.turns t
  rw [hpc] at hturn
  have ⟨l, hw⟩ := hturn.calling Pc.noConfusion
  rw [hw] at hturn
  cases hturn with
  | walking hlt hop hpast =>
      rcases hcases with ⟨_, heq⟩ | ⟨nodes, result, _, heq⟩
      · subst heq
        exact inv.inside hmap (fun _ h => h) rfl hw (.walking hlt hop hpast)
      · subst heq
        exact inv.inside hmap (fun _ h => h) rfl hw (.unlocking hlt hop hpast)

theorem Inv.unlockStep (inv : Inv p) (hs : p.unlockStep t = some p') : Inv p' := by
  have ⟨l, call, result, map, hw, hpc, hunlock, heq⟩ := unlockStep_cases hs
  have hmap := inv.map.unlock hunlock
  have hturn := inv.turns t
  rw [hw, hpc] at hturn
  cases hturn with
  | unlocking hlt hop hpast =>
      -- the place of the call in the log says what its lookup has found
      have hplaced := (inv.map.inv.placed t call (congrArg holding hpc)).in_log
      have hknown : ∀ op ∈ call.before, Known cfg.keys op :=
        fun op h => inv.map.log op (hplaced.subset (List.mem_append_left _ h))
      have hresult := (inv.map.inv.unlocking t call result hpc).2
      rw [hop] at hplaced hresult
      have hanswer : Answers l result := answers_of_log hlt hknown hpast hresult
      have ⟨_, _, _, hmapEq⟩ := unlock_cases hunlock
      subst heq
      subst hmapEq
      exact inv.quiet hmap (fun _ h => h) rfl (by simp [hw]) WorkerPc.noConfusion
        (.printing hlt (hpast.next hplaced) hanswer) (by rw [hw]; rfl)

theorem Loop.index_next (l : Loop) : l.next.index = l.index + 1 := by
  cases l <;> rfl

theorem Inv.printStep (inv : Inv p) (hs : p.printStep t = some p') : Inv p' := by
  have ⟨l, result, hw, heq⟩ := printStep_cases hs
  have hturn := inv.turns t
  rw [hw] at hturn
  have hpc : p.map.pc t = .idle := hturn.idle (fun _ => WorkerPc.noConfusion)
  rw [hpc] at hturn
  cases hturn with
  | printing hlt hpast hanswer =>
      subst heq
      refine inv.move inv.map (fun _ h => h) ?_ (by simp [hw])
        WorkerPc.noConfusion (.loop (l.index_next ▸ hlt) hpast) ?_
      · rw [← hpc, Function.update_eq_self]
      · rw [hw]
        exact Loop.lines_next hanswer cfg.keys (cfg.self t)

/-- Every step keeps the invariant. -/
theorem Inv.step {a : Act cfg} (inv : Inv p) (hs : step p a = some p') : Inv p' := by
  cases a with
  | main => exact inv.mainStep hs
  | call t => exact inv.callStep hs
  | lock t =>
      have ⟨map, hlock, heq⟩ := Option.map_eq_some_iff.mp hs
      exact heq ▸ inv.lock hlock
  | walk t =>
      have ⟨map, hwalk, heq⟩ := Option.map_eq_some_iff.mp hs
      exact heq ▸ inv.walk hwalk
  | unlock t => exact inv.unlockStep hs
  | print t => exact inv.printStep hs

end Invariant

end SystemsInC.Ports.HashMapWorkers
