import SystemsInC.Ports.StudentMenu
import SystemsInC.Verified.AttemptLog

/-!
# The entry loop of the student menu

The loop at the start of `student.c` calls `students` for the slots of its array.  A call
ends at one of its early returns or with success, and the loop then decides by five tests,
each at the index that the tests before it have left, which slot comes next.

The slots before the current one never carry a mark, so a marked record sends the loop back
to its own slot, `enter_cases`; only for slot 0 the next test looks at `p[-1]`.  What the
tests do not tell is success: a third subject that failed leaves no mark that they see, and
the name `x` is taken for the mark of a rejected name.  `entries_once` says which sequences
of calls fill every slot exactly once.
-/

namespace SystemsInC.Ports.StudentEntry

open SystemsInC.Verified.CString (Bytes)
open SystemsInC.Verified.GuardedRuns
open SystemsInC.Verified.AttemptLog
open SystemsInC.Ports.StudentMenu

/-! ## The outcomes of `students` -/

/-- Where a call of `students` ends. -/
inductive Return
  /-- no number from 1 to 100 -/
  | roll
  | rollPresent
  /-- not a return: the name runs out of its array -/
  | overflow
  | namePresent
  | subject1
  | subject2
  | subject3
  | success
  deriving DecidableEq

/-- The end of `students(p, s, num)`. -/
def studentsReturn (p : Student) (s : Nat → Student) (num : Nat) (input : Entry) : Return :=
  match input.roll with
  | none => .roll
  | some roll =>
      if roll ≤ 0 ∨ roll > 100 then .roll
      else if ∃ i < num, (s i).roll = roll then .rollPresent
      else if overflows input.name then .overflow
      else if ∃ i < num, (s i).name = typedName p input then .namePresent
      else if mark input.subject1 = none then .subject1
      else if mark input.subject2 = none then .subject2
      else if mark input.subject3 = none then .subject3
      else .success

/-- The tests of the loop find a mark in the record that the call leaves. -/
def Redone (ret : Return) (name : Bytes) : Prop :=
  match ret with
  | .success | .subject3 => name = nameX
  | .overflow => False
  | _ => True

section Records

variable {p : Student} {s : Nat → Student} {num : Nat} {input : Entry}

theorem students_of_overflow (h : studentsReturn p s num input = .overflow) :
    students p s num input = none := by
  unfold studentsReturn at h
  unfold students
  cases hroll : input.roll with
  | none => simp [hroll] at h
  | some roll =>
      simp only [hroll] at h ⊢
      split_ifs at h ⊢
      rfl

/-- With the first two marks read, only the name can mark the record. -/
theorem marked_marks_iff (hroll : 0 < p.roll) (h1 : mark input.subject1 ≠ none)
    (h2 : mark input.subject2 ≠ none) : Marked (marks p input) ↔ p.name = nameX := by
  have ⟨m1, hm1⟩ := Option.ne_none_iff_exists'.mp h1
  have ⟨m2, hm2⟩ := Option.ne_none_iff_exists'.mp h2
  have hpos1 := (mark_bounds hm1).1
  have hpos2 := (mark_bounds hm2).1
  have hsubjects : (marks p input).subject1 = m1 ∧ (marks p input).subject2 = m2 := by
    unfold marks
    rw [hm1, hm2]
    cases mark input.subject3 with
    | none => exact ⟨rfl, rfl⟩
    | some m3 => exact ⟨rfl, rfl⟩
  rw [Marked, marks_roll, marks_name, hsubjects.1, hsubjects.2]
  constructor
  · rintro (hr | hname | hs1 | hs2)
    · omega
    · exact hname
    · linarith
    · linarith
  · exact fun hname => .inr (.inl hname)

/-- What the tests of the loop make of a call. -/
theorem students_of_return (h : studentsReturn p s num input ≠ .overflow) :
    ∃ r, students p s num input = some r ∧
      (Marked r ↔ Redone (studentsReturn p s num input) (typedName p input)) := by
  unfold studentsReturn at h ⊢
  unfold students
  cases hinput : input.roll with
  | none => exact ⟨_, rfl, iff_of_true (.inl rfl) trivial⟩
  | some roll =>
      simp only [hinput] at h ⊢
      by_cases hrange : roll ≤ 0 ∨ roll > 100
      · simp only [if_pos hrange]
        exact ⟨_, rfl, iff_of_true (.inl rfl) trivial⟩
      by_cases htaken : ∃ i < num, (s i).roll = roll
      · simp only [if_neg hrange, if_pos htaken]
        exact ⟨_, rfl, iff_of_true (.inl rfl) trivial⟩
      by_cases hlong : overflows input.name = true
      · simp only [if_neg hrange, if_neg htaken, if_pos hlong] at h
        contradiction
      simp only [if_neg hrange, if_neg htaken, if_neg hlong]
      by_cases hname : ∃ i < num, (s i).name = typedName p input
      · simp only [if_pos hname]
        exact ⟨_, rfl, iff_of_true (.inr (.inl rfl)) trivial⟩
      simp only [if_neg hname]
      refine ⟨_, rfl, ?_⟩
      by_cases h1 : mark input.subject1 = none
      · rw [if_pos h1]
        exact iff_of_true (.inr (.inr (marks_rejected (by simp [h1])))) trivial
      rw [if_neg h1]
      by_cases h2 : mark input.subject2 = none
      · rw [if_pos h2]
        exact iff_of_true (.inr (.inr (marks_rejected (by simp [h2])))) trivial
      rw [if_neg h2]
      have hroll : 0 < roll := by omega
      have hmarked : Marked (marks { p with roll := roll, name := typedName p input } input) ↔
          typedName p input = nameX := marked_marks_iff hroll h1 h2
      by_cases h3 : mark input.subject3 = none
      · rw [if_pos h3]
        exact hmarked
      · rw [if_neg h3]
        exact hmarked

/-- A success leaves a valid record. -/
theorem passed_of_success (h : studentsReturn p s num input = .success) :
    ∃ r, students p s num input = some r ∧ Passed r := by
  unfold studentsReturn at h
  unfold students
  cases hinput : input.roll with
  | none => simp [hinput] at h
  | some roll =>
      simp only [hinput] at h ⊢
      split_ifs at h ⊢ with hrange _ _ _ h1 h2 h3
      have hroll : 1 ≤ roll ∧ roll ≤ 100 := by omega
      have hmarks : MarksOk input :=
        ⟨Option.isSome_iff_ne_none.mpr h1, Option.isSome_iff_ne_none.mpr h2,
          Option.isSome_iff_ne_none.mpr h3⟩
      exact ⟨_, rfl, marks_passed hroll hmarks⟩

end Records

/-! ## One turn of the loop -/

section Turn

variable {q : Nat → Student} {n : Nat} {test : Student → Bool}

theorem recheck_before (q : Nat → Student) (n : Nat) (test : Student → Bool) :
    recheck q n test (-1) = none := by
  rw [recheck, access, if_neg (by omega)]
  rfl

theorem recheck_first (hn : 0 < n) (h : test (q 0) = true) :
    recheck q n test (0 : Nat) = some (-1) := by
  rw [recheck, access_eq hn, Option.map_some, if_pos h]
  rfl

/-- Behind the test that finds a mark in the first record the next one looks at `p[-1]`. -/
theorem entryChecks_first (hn : 0 < n) (h : Marked (q 0)) : entryChecks q n (0 : Nat) = none := by
  unfold Marked at h
  rw [entryChecks]
  by_cases hroll : (q 0).roll = -1
  · rw [recheck_first hn (by simpa using hroll), Option.bind_some, recheck_before]
    rfl
  rw [recheck_of_false hn (by simpa using hroll), Option.bind_some]
  by_cases hname : (q 0).name = nameX
  · rw [recheck_first hn (by simpa using hname), Option.bind_some, recheck_before]
    rfl
  rw [recheck_of_false hn (by simpa using hname), Option.bind_some]
  by_cases h1 : (q 0).subject1 = -1
  · rw [recheck_first hn (by simpa using h1), Option.bind_some, recheck_before]
    rfl
  have h2 := ((h.resolve_left hroll).resolve_left hname).resolve_left h1
  rw [recheck_of_false hn (by simpa using h1), Option.bind_some,
    recheck_first hn (by simpa using h2), Option.bind_some, recheck_before]

end Turn

/-- The loop stands at slot `k`, or it has ended behind slot `k - 1`; the slots below carry no
marks. -/
structure Stands (n : Nat) (s : Sys) (k : Nat) : Prop where
  number : s.numberOfstudents = n
  slot : s.pc = .entering ∧ s.i = k ∧ k < n ∨ s.pc = .menu ∧ k = n
  unmarked : ∀ j < k, ¬ Marked (s.p j)

theorem Stands.entering {n k : Nat} {s : Sys} (h : Stands n s k) (hpc : s.pc = .entering) :
    s.i = k ∧ k < n := by
  rcases h.slot with ⟨_, hslot⟩ | ⟨hmenu, _⟩
  · exact hslot
  · rw [hpc] at hmenu
    cases hmenu

theorem Stands.eq_of_menu {n k : Nat} {s : Sys} (h : Stands n s k) (hpc : s.pc = .menu) :
    k = n := by
  rcases h.slot with ⟨hentering, _⟩ | ⟨_, hk⟩
  · rw [hpc] at hentering
    cases hentering
  · exact hk

theorem Stands.inside {n k : Nat} {s : Sys} (h : Stands n s k) : s.pc ≠ .undefined := by
  rcases h.slot with ⟨hpc, _⟩ | ⟨hpc, _⟩ <;> simp [hpc]

/-- What a turn at slot `k` comes to, by the end of its call. -/
inductive Entered (n : Nat) (k : Nat) (ret : Return) (name : Bytes) (s : Sys) : Prop
  | again : Redone ret name → k ≠ 0 → s.pc = .entering → Stands n s k → Entered n k ret name s
  | next : ¬ Redone ret name → ret ≠ .overflow → Stands n s (k + 1) → Entered n k ret name s
  | outside : ret = .overflow ∨ Redone ret name ∧ k = 0 → s.pc = .undefined →
      Entered n k ret name s

section Enter

variable {n k : Nat} {s : Sys} {input : Entry}

theorem unmarked_update (h : ∀ j < k, ¬ Marked (s.p j)) (r : Student) :
    ∀ j < k, ¬ Marked (Function.update s.p k r j) := by
  intro j hj
  rw [Function.update_of_ne (by omega)]
  exact h j hj

/-- **A turn of the loop.**  A marked record is entered again, and behind one without marks comes
the next slot. -/
theorem enter_cases (h : Stands n s k) (hpc : s.pc = .entering) (input : Entry) :
    Entered n k (studentsReturn (s.p k) s.p k input) (typedName (s.p k) input) (s.enter input) := by
  have ⟨hi, hk⟩ := h.entering hpc
  have hnumber := h.number
  have hk' : k < s.numberOfstudents := by omega
  by_cases hoverflow : studentsReturn (s.p k) s.p k input = .overflow
  · refine .outside (.inl hoverflow) ?_
    unfold Sys.enter
    rw [hi, access_eq hk']
    simp only [Int.toNat_natCast, students_of_overflow hoverflow]
  have ⟨r, hr, hmarked⟩ := students_of_return hoverflow
  by_cases hredone : Redone (studentsReturn (s.p k) s.p k input) (typedName (s.p k) input)
  · cases k with
    | zero =>
        have hfirst : Marked (Function.update s.p 0 r 0) := by
          rw [Function.update_self]
          exact hmarked.mpr hredone
        refine .outside (.inr ⟨hredone, rfl⟩) ?_
        unfold Sys.enter
        rw [hi, access_eq hk']
        simp only [Int.toNat_natCast, hr, entryChecks_first hk' hfirst]
    | succ k =>
        have hprev := h.unmarked k (Nat.lt_succ_self k)
        rw [enter_again hi hk' hr (hmarked.mpr hredone) hprev]
        refine .again hredone (Nat.succ_ne_zero k) rfl ⟨h.number, .inl ⟨rfl, ?_, hk⟩, ?_⟩
        · simp
        · exact unmarked_update h.unmarked r
  · have hclear : ¬ Marked r := fun hm => hredone (hmarked.mp hm)
    have hunmarked := forall_concat (P := fun r => ¬ Marked r) h.unmarked hclear
    rw [enter_keep hi hk' hr hclear]
    refine .next hredone hoverflow ⟨h.number, ?_, hunmarked⟩
    by_cases hnext : (k : Int) + 1 < s.numberOfstudents
    · exact .inl ⟨if_pos hnext, by simp, by omega⟩
    · exact .inr ⟨if_neg hnext, by omega⟩

end Enter

/-! ## Runs of the loop -/

/-- The program in its loop, with the calls of `students` that it has made. -/
structure Loop where
  sys : Sys
  log : List Attempt

/-- In front of the loop, with the uninitialised array. -/
def Loop.start (memory : Nat → Student) (numberOfstudents : Nat) : Loop :=
  { sys := (Sys.init memory).setNumber (some numberOfstudents)
    log := [] }

/-- The end of the next call of `students`. -/
def Loop.ret (t : Loop) (input : Entry) : Return :=
  studentsReturn (t.sys.p t.sys.i.toNat) t.sys.p t.sys.i.toNat input

/-- A turn of the loop. -/
def turn (t : Loop) (input : Entry) : Option Loop :=
  if t.sys.pc = .entering then
    some
      { sys := t.sys.enter input
        log := t.log ++ [⟨t.sys.i.toNat, decide (t.ret input = .success)⟩] }
  else
    none

/-- The turns of the loop are steps of the program. -/
theorem run_of_turns {t t' : Loop} {inputs : List Entry} (h : run turn t inputs = some t') :
    run step t.sys (inputs.map .entry) = some t'.sys := by
  induction inputs generalizing t with
  | nil =>
      cases h
      rfl
  | cons input inputs ih =>
      have ⟨t₁, hturn, hrest⟩ := Option.bind_eq_some_iff.mp h
      rw [turn, Option.ite_none_right_eq_some] at hturn
      have ⟨hpc, heq⟩ := hturn
      have hstep : step t.sys (.entry input) = some t₁.sys := by
        rw [← Option.some.inj heq]
        simp only [step, hpc]
      rw [List.map_cons, run, hstep]
      exact ih hrest

/-- The loop has stayed inside its arrays, it has entered no slot again behind its success, and
at its end every slot has been filled. -/
structure EntersOnce (numberOfstudents : Nat) (t : Loop) : Prop where
  inside : t.sys.pc ≠ .undefined
  once : Once t.log
  filled : t.sys.pc = .menu → ∀ slot < numberOfstudents, Filled t.log slot

/-- The call does not mislead the loop: for the first slot it succeeds, a success has a name
that is no mark, and a failure leaves a mark. -/
def CallOk (t : Loop) (input : Entry) : Prop :=
  match t.ret input with
  | .success => typedName (t.sys.p t.sys.i.toNat) input ≠ nameX
  | .subject3 => t.sys.i.toNat ≠ 0 ∧ typedName (t.sys.p t.sys.i.toNat) input = nameX
  | .overflow => False
  | _ => t.sys.i.toNat ≠ 0

instance (t : Loop) (input : Entry) : Decidable (CallOk t input) := by
  unfold CallOk
  split <;> infer_instance

variable {n : Nat} {t t' : Loop}

/-- The log is filled up to the slot at which the loop stands. -/
def OnTrack (n : Nat) (t : Loop) : Prop := ∃ k, Stands n t.sys k ∧ FilledTo t.log k

/-- The loop has left its array, or its log is spoiled, or is so with the next call. -/
def Astray (n : Nat) (t : Loop) : Prop :=
  t.sys.pc = .undefined ∨
    ∃ k, Stands n t.sys k ∧ (Spoiled t.log k ∨ t.sys.pc = .entering ∧ Filled t.log k)

theorem onTrack_start (memory : Nat → Student) (hn : 1 ≤ n ∧ n ≤ 100) :
    OnTrack n (Loop.start memory n) := by
  have hset : (Sys.init memory).setNumber (some n) =
      { Sys.init memory with numberOfstudents := n, i := 0, pc := .entering } := by
    rw [Sys.setNumber, if_neg (by omega), Int.toNat_natCast]
  refine ⟨0, ⟨?_, .inl ?_, fun j hj => absurd hj (Nat.not_lt_zero j)⟩, filledTo_nil⟩
  · rw [Loop.start, hset]
  · rw [Loop.start, hset]
    exact ⟨rfl, rfl, hn.1⟩

/-- What a turn does to the loop and to its log. -/
theorem turn_cases {k : Nat} {input : Entry} (h : Stands n t.sys k)
    (hturn : turn t input = some t') :
    t.sys.pc = .entering ∧ t.sys.i.toNat = k ∧
      t'.log = t.log ++ [⟨k, decide (t.ret input = .success)⟩] ∧
      Entered n k (t.ret input) (typedName (t.sys.p k) input) t'.sys := by
  rw [turn, Option.ite_none_right_eq_some] at hturn
  have ⟨hpc, heq⟩ := hturn
  have hi : t.sys.i.toNat = k := by
    rw [(h.entering hpc).1, Int.toNat_natCast]
  have hentered := enter_cases h hpc input
  cases heq
  rw [Loop.ret, hi]
  exact ⟨hpc, rfl, rfl, hentered⟩

/-- The loop enters its slot again exactly behind a call that has failed. -/
theorem callOk_iff {k : Nat} {input : Entry} (hi : t.sys.i.toNat = k) :
    CallOk t input ↔ t.ret input ≠ .overflow ∧
      (Redone (t.ret input) (typedName (t.sys.p k) input) ↔ t.ret input ≠ .success) ∧
      (Redone (t.ret input) (typedName (t.sys.p k) input) → k ≠ 0) := by
  rw [CallOk, hi]
  cases t.ret input <;> simp [Redone] <;> tauto

theorem OnTrack.turn {input : Entry} (h : OnTrack n t) (hok : CallOk t input)
    (hturn : turn t input = some t') : OnTrack n t' := by
  have ⟨k, hstands, hfilled⟩ := h
  have ⟨_, hi, hlog, hentered⟩ := turn_cases hstands hturn
  have ⟨hreturn, hredone, hfirst⟩ := (callOk_iff hi).mp hok
  cases hentered with
  | again hagain _ _ hstands' =>
      have hfailed := hredone.mp hagain
      rw [decide_eq_false hfailed] at hlog
      exact ⟨k, hstands', hlog ▸ hfilled.fail⟩
  | next hnext _ hstands' =>
      have hsuccess : t.ret input = .success := by
        by_contra hfailed
        exact hnext (hredone.mpr hfailed)
      rw [decide_eq_true hsuccess] at hlog
      exact ⟨k + 1, hstands', hlog ▸ hfilled.succeed⟩
  | outside hwhy _ =>
      rcases hwhy with hoverflow | ⟨hagain, hzero⟩
      · exact absurd hoverflow hreturn
      · exact absurd hzero (hfirst hagain)

/-- A call that misleads the loop. -/
theorem OnTrack.astray {input : Entry} (h : OnTrack n t) (hnot : ¬ CallOk t input)
    (hturn : StudentEntry.turn t input = some t') : Astray n t' := by
  have ⟨k, hstands, hfilled⟩ := h
  have ⟨_, hi, hlog, hentered⟩ := turn_cases hstands hturn
  rw [callOk_iff hi] at hnot
  cases hentered with
  | again hagain hk hpc hstands' =>
      have hsuccess : t.ret input = .success := by
        by_contra hfailed
        refine hnot ⟨fun hoverflow => ?_, iff_of_true hagain hfailed, fun _ => hk⟩
        rw [hoverflow] at hagain
        exact hagain
      rw [decide_eq_true hsuccess] at hlog
      have hfilled' : Filled t'.log k := by
        rw [hlog, filled_concat_iff]
        exact .inr ⟨rfl, rfl⟩
      exact .inr ⟨k, hstands', .inr ⟨hpc, hfilled'⟩⟩
  | next hnext hreturn hstands' =>
      have hfailed : t.ret input ≠ .success := fun hsuccess =>
        hnot ⟨hreturn, iff_of_false hnext (not_not.mpr hsuccess), fun hagain => absurd hagain hnext⟩
      rw [decide_eq_false hfailed] at hlog
      exact .inr ⟨k + 1, hstands', .inl (hlog ▸ hfilled.skip)⟩
  | outside _ hpc => exact .inl hpc

/-- The loop does not find back. -/
theorem Astray.turn {input : Entry} (h : Astray n t)
    (hturn : StudentEntry.turn t input = some t') : Astray n t' := by
  rcases h with hout | ⟨k, hstands, hwhy⟩
  · rw [StudentEntry.turn, if_neg (by simp [hout])] at hturn
    cases hturn
  · have ⟨_, _, hlog, hentered⟩ := turn_cases hstands hturn
    have hspoiled : ∀ k', k ≤ k' → Spoiled t'.log k' := by
      intro k' hk'
      rw [hlog]
      rcases hwhy with hspoiled | ⟨_, hfilled⟩
      · exact hspoiled.concat hk' _
      · exact hfilled.spoiled _ k'
    cases hentered with
    | again _ _ _ hstands' => exact .inr ⟨k, hstands', .inl (hspoiled k (Nat.le_refl k))⟩
    | next _ _ hstands' => exact .inr ⟨k + 1, hstands', .inl (hspoiled (k + 1) (by omega))⟩
    | outside _ hpc => exact .inl hpc

theorem OnTrack.entersOnce (h : OnTrack n t) : EntersOnce n t := by
  have ⟨k, hstands, hfilled⟩ := h
  refine ⟨hstands.inside, hfilled.once, fun hmenu slot hslot => ?_⟩
  rw [hfilled.filled_iff, hstands.eq_of_menu hmenu]
  exact hslot

theorem Astray.not_entersOnce (h : Astray n t) (hend : t.sys.pc ≠ .entering) :
    ¬ EntersOnce n t := by
  intro honce
  rcases h with hout | ⟨k, hstands, hspoiled | ⟨hpc, _⟩⟩
  · exact honce.inside hout
  · have ⟨hmenu, hk⟩ := hstands.slot.resolve_left (fun hpc => hend hpc.1)
    rcases hspoiled with ⟨slot, hslot, hempty⟩ | htwice
    · exact hempty (honce.filled hmenu slot (hk ▸ hslot))
    · exact htwice honce.once
  · exact hend hpc

/-- **The loop fills every slot once** in every run whose calls do not mislead it, and a run that
has ended has done so only then. -/
theorem entries_once {memory : Nat → Student} {numberOfstudents : Nat} {inputs : List Entry}
    {t : Loop} (hnumber : 1 ≤ numberOfstudents ∧ numberOfstudents ≤ 100)
    (hrun : run turn (Loop.start memory numberOfstudents) inputs = some t) :
    (Admitted turn CallOk (Loop.start memory numberOfstudents) inputs →
        EntersOnce numberOfstudents t) ∧
      (t.sys.pc ≠ .entering →
        (EntersOnce numberOfstudents t ↔
          Admitted turn CallOk (Loop.start memory numberOfstudents) inputs)) := by
  have hall := good_or_bad (P := OnTrack numberOfstudents) (Q := Astray numberOfstudents)
    (fun _ _ _ h hok hturn => h.turn hok hturn) (fun _ _ _ h hnot hturn => h.astray hnot hturn)
    (fun _ _ _ h hturn => h.turn hturn) (onTrack_start memory hnumber) hrun
  constructor
  · intro hok
    have ⟨hgood, _⟩ := hall.resolve_right (fun hbad => hbad.2 hok)
    exact hgood.entersOnce
  · intro hend
    constructor
    · intro honce
      have ⟨_, hok⟩ := hall.resolve_right (fun hbad => hbad.1.not_entersOnce hend honce)
      exact hok
    · intro hok
      have ⟨hgood, _⟩ := hall.resolve_right (fun hbad => hbad.2 hok)
      exact hgood.entersOnce

/-- Two students; the second one is first given the roll number of the first. -/
def secondRetried : List Entry :=
  [ ⟨some 1, some [97], some 50, some 60, some 70⟩
  , ⟨some 1, none, none, none, none⟩
  , ⟨some 2, some [98], some 50, some 60, some 70⟩ ]

theorem entries_once_secondRetried :
    ∃ t, run turn (Loop.start zeros 2) secondRetried = some t ∧ t.sys.pc = .menu ∧
      EntersOnce 2 t := by
  have hsome : (run (guarded turn CallOk) (Loop.start zeros 2) secondRetried).map
      (fun t => t.sys.pc) = some .menu := by
    decide +kernel
  have ⟨t, hguarded, hpc⟩ := Option.map_eq_some_iff.mp hsome
  have hrun := run_of_guarded hguarded
  exact ⟨t, hrun, hpc, (entries_once (by decide) hrun).1 (.of_guarded hguarded)⟩

/-- No number for the first roll: the test of the name looks at `p[-1]`. -/
theorem first_rejection_outside :
    ¬ ∀ (memory : Nat → Student) (numberOfstudents : Nat) (inputs : List Entry) (t : Loop),
      1 ≤ numberOfstudents ∧ numberOfstudents ≤ 100 →
        run turn (Loop.start memory numberOfstudents) inputs = some t →
          EntersOnce numberOfstudents t := by
  intro h
  have hsome : (run turn (Loop.start zeros 1) [⟨none, none, none, none, none⟩]).map
      (fun t => t.sys.pc) = some .undefined := by
    decide +kernel
  have ⟨t, hrun, hpc⟩ := Option.map_eq_some_iff.mp hsome
  exact (h zeros 1 _ t (by decide) hrun).inside hpc

end SystemsInC.Ports.StudentEntry
