import SystemsInC.Verified.CString
import SystemsInC.Verified.GuardedRuns
import Mathlib.Algebra.Order.Field.Rat
import Mathlib.Tactic.Linarith

/-!
# The student menu

`student.c` up to the display of its menu: `students` reads one record and marks the
field at which it gives up, and its two callers look at these marks to drop the record
again.  An action is what the calls of `scanf` between two prompts return.

Neither caller looks at all the marks.  The loop at the start tests `subject2` twice
and `subject3` never, and it counts `i` down as soon as one test hits, so the tests
behind it look at the record before, which for `i = 0` is outside the array.  `Add new
student` looks at no subject.  `menu_valid` says that there is no other way to an
invalid record.
-/

namespace SystemsInC.Ports.StudentMenu

open SystemsInC.Verified.CString
open SystemsInC.Verified.GuardedRuns

/-! ## Records -/

/-- `struct st`; the name is the string in its array. -/
structure Student where
  roll : Int
  name : Bytes
  subject1 : ℚ
  subject2 : ℚ
  subject3 : ℚ
  sum : ℚ
  avg : ℚ
  deriving DecidableEq

/-- What the calls of `scanf` in `students` return, if they convert anything. -/
structure Entry where
  roll : Option Int
  name : Option Bytes
  subject1 : Option ℚ
  subject2 : Option ℚ
  subject3 : Option ℚ

/-- The name `"x"` of a rejected record. -/
def nameX : Bytes := [120]

/-- The longest name that fits into `char name[20]`. -/
def maxName : Nat := 19

/-- A mark that passes the test of its field. -/
def mark : Option ℚ → Option ℚ
  | some v => if v ≤ 0 ∨ v > 101 then none else some v
  | none => none

/-- The token that `%s` reads is longer than the array. -/
def overflows : Option Bytes → Bool
  | some token => token.length > maxName
  | none => false

/-- The string in the array behind `scanf("%s", p->name)`. -/
def typedName (p : Student) (input : Entry) : Bytes :=
  match input.name with
  | some token => cstr token
  | none => p.name

/-- The three tests of `students` behind the name, and the sum and average. -/
def marks (p : Student) (input : Entry) : Student :=
  match mark input.subject1 with
  | none => { p with subject1 := -1 }
  | some m1 =>
      let p := { p with subject1 := m1 }
      match mark input.subject2 with
      | none => { p with subject2 := -1 }
      | some m2 =>
          let p := { p with subject2 := m2 }
          match mark input.subject3 with
          | none => { p with subject3 := -1 }
          | some m3 =>
              let p := { p with subject3 := m3 }
              let p := { p with sum := p.subject1 + p.subject2 + p.subject3 }
              { p with avg := p.sum / 3 }

/-- `students(p, s, num)`: the record that it leaves at `p`, unless the name runs out of its
array. -/
def students (p : Student) (s : Nat → Student) (num : Nat) (input : Entry) : Option Student :=
  match input.roll with
  | none => some { p with roll := -1 }
  | some roll =>
      if roll ≤ 0 ∨ roll > 100 then
        some { p with roll := -1 }
      else if ∃ i < num, (s i).roll = roll then
        some { p with roll := -1 }
      else if overflows input.name then
        none
      else
        let p := { p with roll := roll, name := typedName p input }
        if ∃ i < num, (s i).name = p.name then
          some { p with name := nameX }
        else
          some (marks p input)

/-! ## The program -/

inductive Pc
  /-- the prompt for the number of students -/
  | number
  /-- in the loop at the start, before `students(&p[i], p, i)` -/
  | entering
  /-- the menu is displayed -/
  | menu
  /-- the prompts of `Add new student` -/
  | adding
  /-- the prompts of `Find students` -/
  | finding
  | exited
  /-- an access outside an array -/
  | undefined
  deriving DecidableEq

structure Sys where
  /-- the array, and what is in the memory that it may grow into -/
  p : Nat → Student
  numberOfstudents : Nat
  i : Int
  pc : Pc

/-- The program at its start, with the uninitialised memory. -/
def Sys.init (memory : Nat → Student) : Sys :=
  { p := memory
    numberOfstudents := 0
    i := 0
    pc := .number }

/-- `p[i]` in an array of `n` records. -/
def access (p : Nat → Student) (n : Nat) (i : Int) : Option Student :=
  if 0 ≤ i ∧ i < n then some (p i.toNat) else none

/-- `if (test of p[i]) i--;` -/
def recheck (p : Nat → Student) (n : Nat) (test : Student → Bool) (i : Int) : Option Int :=
  (access p n i).map (fun r => if test r then i - 1 else i)

/-- The tests of the loop at the start. -/
def entryChecks (p : Nat → Student) (n : Nat) (i : Int) : Option Int :=
  (recheck p n (fun r => r.roll == -1) i).bind fun i =>
  (recheck p n (fun r => r.name == nameX) i).bind fun i =>
  (recheck p n (fun r => r.subject1 == -1) i).bind fun i =>
  (recheck p n (fun r => r.subject2 == -1) i).bind fun i =>
  recheck p n (fun r => r.subject2 == -1) i

/-- `if (test of p[numberOfstudents-1]) numberOfstudents--;` in an array of `n` records. -/
def recount (p : Nat → Student) (n : Nat) (test : Student → Bool) (count : Nat) : Option Nat :=
  (access p n (count - 1)).map (fun r => if test r then count - 1 else count)

/-- The tests of `Add new student`. -/
def addChecks (p : Nat → Student) (n : Nat) : Option Nat :=
  (recount p n (fun r => r.roll == -1) n).bind fun count =>
  recount p n (fun r => r.name == nameX) count

/-- The body of the loop at the start. -/
def Sys.enter (s : Sys) (input : Entry) : Sys :=
  match access s.p s.numberOfstudents s.i with
  | none => { s with pc := .undefined }
  | some r =>
      match students r s.p s.i.toNat input with
      | none => { s with pc := .undefined }
      | some r =>
          let p := Function.update s.p s.i.toNat r
          match entryChecks p s.numberOfstudents s.i with
          | none => { s with p := p, pc := .undefined }
          | some i =>
              { s with
                p := p
                i := i + 1
                pc := if i + 1 < s.numberOfstudents then .entering else .menu }

/-- `Add new student` behind its `realloc`. -/
def Sys.add (s : Sys) (input : Entry) : Sys :=
  match access s.p s.numberOfstudents (s.numberOfstudents - 1) with
  | none => { s with pc := .undefined }
  | some r =>
      match students r s.p (s.numberOfstudents - 1) input with
      | none => { s with pc := .undefined }
      | some r =>
          let p := Function.update s.p (s.numberOfstudents - 1) r
          match addChecks p s.numberOfstudents with
          | none => { s with p := p, pc := .undefined }
          | some count => { s with p := p, numberOfstudents := count, pc := .menu }

/-- The choice of an option; the ones that only print come back to the menu. -/
def Sys.choose (s : Sys) : Option Int → Sys
  | some 2 => { s with numberOfstudents := s.numberOfstudents + 1, pc := .adding }
  | some 6 => { s with pc := .finding }
  | some 8 => { s with pc := .exited }
  | _ => s

/-- The first prompt, which is repeated until the number is in range. -/
def Sys.setNumber (s : Sys) : Option Int → Sys
  | some n =>
      if n ≤ 0 ∨ n > 100 then s else { s with numberOfstudents := n.toNat, i := 0, pc := .entering }
  | none => s

/-- `Find students` with the value of `op`; a name to search has an array of 20 as well. -/
def Sys.find (s : Sys) (op : Int) (searchname : Option Bytes) : Sys :=
  if op = 2 ∧ overflows searchname then { s with pc := .undefined } else { s with pc := .menu }

inductive Act
  | number (n : Option Int)
  | entry (input : Entry)
  | option (options : Option Int)
  | find (op : Int) (searchname : Option Bytes)

def step (s : Sys) (a : Act) : Option Sys :=
  match s.pc, a with
  | .number, .number n => some (s.setNumber n)
  | .entering, .entry input => some (s.enter input)
  | .menu, .option options => some (s.choose options)
  | .adding, .entry input => some (s.add input)
  | .finding, .find op searchname => some (s.find op searchname)
  | _, _ => none

/-! ## Valid records, and the inputs that lead to them -/

/-- The record has passed the tests of `students`, and its sum and average are computed. -/
structure Passed (r : Student) : Prop where
  roll : 1 ≤ r.roll ∧ r.roll ≤ 100
  subject1 : 0 < r.subject1 ∧ r.subject1 ≤ 101
  subject2 : 0 < r.subject2 ∧ r.subject2 ≤ 101
  subject3 : 0 < r.subject3 ∧ r.subject3 ≤ 101
  sum : r.sum = r.subject1 + r.subject2 + r.subject3
  avg : r.avg = r.sum / 3

/-- The first `n` records are valid. -/
structure Valid (p : Nat → Student) (n : Nat) : Prop where
  passed : ∀ k < n, Passed (p k)
  rolls : ∀ j < n, ∀ k < n, j ≠ k → (p j).roll ≠ (p k).roll
  names : ∀ j < n, ∀ k < n, j ≠ k → (p j).name ≠ (p k).name

/-- The roll number passes its two tests. -/
def RollOk (s : Nat → Student) (num : Nat) (input : Entry) : Prop :=
  match input.roll with
  | some roll => (0 < roll ∧ roll ≤ 100) ∧ ∀ i < num, (s i).roll ≠ roll
  | none => False

/-- The name is a new one, and not the one that marks a rejected record. -/
def NameOk (p : Student) (s : Nat → Student) (num : Nat) (input : Entry) : Prop :=
  typedName p input ≠ nameX ∧ ∀ i < num, (s i).name ≠ typedName p input

/-- All marks pass. -/
def MarksOk (input : Entry) : Prop :=
  (mark input.subject1).isSome ∧ (mark input.subject2).isSome ∧ (mark input.subject3).isSome

/-- In the loop at the start no attempt fails at `subject3`, the first record is entered without
a rejection, and no name is too long. -/
def EntryOk (p : Student) (s : Nat → Student) (num : Nat) (input : Entry) : Prop :=
  (RollOk s num input → overflows input.name = false ∧
    (NameOk p s num input → (mark input.subject1).isSome → (mark input.subject2).isSome →
      (mark input.subject3).isSome)) ∧
    (num = 0 → RollOk s num input ∧ NameOk p s num input ∧ MarksOk input)

/-- In `Add new student` no attempt fails at a subject, and no name is too long. -/
def AddOk (p : Student) (s : Nat → Student) (num : Nat) (input : Entry) : Prop :=
  RollOk s num input → overflows input.name = false ∧ (NameOk p s num input → MarksOk input)

/-- The inputs of a step lead to no invalid record. -/
def InputOk (s : Sys) (a : Act) : Prop :=
  match s.pc, a with
  | .entering, .entry input => EntryOk (s.p s.i.toNat) s.p s.i.toNat input
  | .adding, .entry input =>
      AddOk (s.p (s.numberOfstudents - 1)) s.p (s.numberOfstudents - 1) input
  | .finding, .find op searchname => op = 2 → overflows searchname = false
  | _, _ => True

instance (s : Nat → Student) (num : Nat) (input : Entry) : Decidable (RollOk s num input) := by
  unfold RollOk
  split <;> infer_instance

instance (p : Student) (s : Nat → Student) (num : Nat) (input : Entry) :
    Decidable (NameOk p s num input) := by
  unfold NameOk
  infer_instance

instance (input : Entry) : Decidable (MarksOk input) := by
  unfold MarksOk
  infer_instance

instance (s : Sys) (a : Act) : Decidable (InputOk s a) := by
  unfold InputOk EntryOk AddOk
  split <;> infer_instance

/-- Whenever the menu is displayed the records are valid, and the program has stayed inside
its arrays. -/
def MenuValid (s : Sys) : Prop :=
  s.pc ≠ .undefined ∧ (s.pc = .menu → Valid s.p s.numberOfstudents)

/-! ## What `students` leaves -/

variable {p : Student} {s : Nat → Student} {num : Nat} {input : Entry}

/-- The ends of `students`, by the test that fails. -/
inductive Outcome (p : Student) (s : Nat → Student) (num : Nat) (input : Entry) :
    Option Student → Prop
  | roll (hroll : ¬ RollOk s num input) : Outcome p s num input (some { p with roll := -1 })
  | overflow (hroll : RollOk s num input) (hlong : overflows input.name = true) :
      Outcome p s num input none
  | name (roll : Int) (hroll : RollOk s num input) (hroll' : input.roll = some roll)
      (hname : ¬ NameOk p s num input) :
      Outcome p s num input (some { p with roll := roll, name := nameX })
  | marks (roll : Int) (hroll : RollOk s num input) (hroll' : input.roll = some roll)
      (hname : ∀ i < num, (s i).name ≠ typedName p input) :
      Outcome p s num input
        (some (marks { p with roll := roll, name := typedName p input } input))

theorem students_outcome (p : Student) (s : Nat → Student) (num : Nat) (input : Entry) :
    Outcome p s num input (students p s num input) := by
  unfold students
  cases hinput : input.roll with
  | none => exact .roll (by simp [RollOk, hinput])
  | some roll =>
      simp only []
      by_cases hrange : roll ≤ 0 ∨ roll > 100
      · rw [if_pos hrange]
        refine .roll ?_
        simp only [RollOk, hinput]
        omega
      · rw [if_neg hrange]
        by_cases htaken : ∃ i < num, (s i).roll = roll
        · rw [if_pos htaken]
          refine .roll ?_
          simp only [RollOk, hinput]
          have ⟨i, hi, heq⟩ := htaken
          exact fun h => h.2 i hi heq
        · rw [if_neg htaken]
          have hroll : RollOk s num input := by
            simp only [RollOk, hinput]
            exact ⟨by omega, fun i hi heq => htaken ⟨i, hi, heq⟩⟩
          by_cases hlong : overflows input.name = true
          · rw [if_pos hlong]
            exact .overflow hroll hlong
          · rw [if_neg hlong]
            by_cases hname : ∃ i < num, (s i).name = typedName p input
            · rw [if_pos hname]
              have ⟨i, hi, heq⟩ := hname
              exact .name roll hroll hinput (fun h => h.2 i hi heq)
            · rw [if_neg hname]
              exact .marks roll hroll hinput (fun i hi heq => hname ⟨i, hi, heq⟩)

/-- A name that is nobody else's can only be the one that marks a rejected record. -/
theorem typedName_eq_nameX {p : Student} {s : Nat → Student} {num : Nat} {input : Entry}
    (hnew : ∀ i < num, (s i).name ≠ typedName p input) (hname : ¬ NameOk p s num input) :
    typedName p input = nameX := by
  by_contra hx
  exact hname ⟨hx, hnew⟩

/-! ### The marks -/

theorem mark_bounds {m : Option ℚ} {v : ℚ} (h : mark m = some v) : 0 < v ∧ v ≤ 101 := by
  cases m with
  | none => cases h
  | some w =>
      rw [mark, Option.ite_none_left_eq_some] at h
      have ⟨hrange, heq⟩ := h
      cases heq
      rw [not_or, not_le, not_lt] at hrange
      exact hrange

/-- The roll number and the name are not touched. -/
theorem marks_eq (p : Student) (input : Entry) :
    ∃ subject1 subject2 subject3 sum avg, marks p input = { p with
      subject1 := subject1
      subject2 := subject2
      subject3 := subject3
      sum := sum
      avg := avg } := by
  unfold marks
  split
  · exact ⟨_, _, _, _, _, rfl⟩
  · split
    · exact ⟨_, _, _, _, _, rfl⟩
    · split <;> exact ⟨_, _, _, _, _, rfl⟩

theorem marks_roll (p : Student) (input : Entry) : (marks p input).roll = p.roll := by
  have ⟨_, _, _, _, _, heq⟩ := marks_eq p input
  rw [heq]

theorem marks_name (p : Student) (input : Entry) : (marks p input).name = p.name := by
  have ⟨_, _, _, _, _, heq⟩ := marks_eq p input
  rw [heq]

/-- With three good marks the record is complete. -/
theorem marks_passed (hroll : 1 ≤ p.roll ∧ p.roll ≤ 100) (h : MarksOk input) :
    Passed (marks p input) := by
  have ⟨h1, h2, h3⟩ := h
  have ⟨m1, hm1⟩ := Option.isSome_iff_exists.mp h1
  have ⟨m2, hm2⟩ := Option.isSome_iff_exists.mp h2
  have ⟨m3, hm3⟩ := Option.isSome_iff_exists.mp h3
  unfold marks
  rw [hm1, hm2, hm3]
  exact
    { roll := hroll
      subject1 := mark_bounds hm1
      subject2 := mark_bounds hm2
      subject3 := mark_bounds hm3
      sum := rfl
      avg := rfl }

/-- A mark that the loop at the start looks at has failed. -/
theorem marks_rejected (h : ¬ ((mark input.subject1).isSome ∧ (mark input.subject2).isSome)) :
    (marks p input).subject1 = -1 ∨ (marks p input).subject2 = -1 := by
  unfold marks
  cases h1 : mark input.subject1 with
  | none => exact .inl rfl
  | some m1 =>
      cases h2 : mark input.subject2 with
      | none => exact .inr rfl
      | some m2 => exact absurd ⟨by rw [h1]; rfl, by rw [h2]; rfl⟩ h

/-! ## The tests of the callers -/

/-- The loop at the start recognises the record as rejected. -/
def Marked (r : Student) : Prop :=
  r.roll = -1 ∨ r.name = nameX ∨ r.subject1 = -1 ∨ r.subject2 = -1

theorem Passed.not_marked {r : Student} (h : Passed r) (hname : r.name ≠ nameX) : ¬ Marked r := by
  rintro (hroll | hx | h1 | h2)
  · have hpos := h.roll.1
    omega
  · exact hname hx
  · have hpos := h.subject1.1
    linarith
  · have hpos := h.subject2.1
    linarith

section Checks

variable {q : Nat → Student} {n k : Nat} {test : Student → Bool}

theorem access_eq (hk : k < n) : access q n k = some (q k) := by
  rw [access, if_pos ⟨by omega, by omega⟩, Int.toNat_natCast]

theorem recheck_of_false (hk : k < n) (h : test (q k) = false) :
    recheck q n test k = some (k : Int) := by
  rw [recheck, access_eq hk, Option.map_some, if_neg (by simp [h])]

theorem recheck_of_true (hk : k + 1 < n) (h : test (q (k + 1)) = true) :
    recheck q n test (k + 1 : Nat) = some (k : Int) := by
  rw [recheck, access_eq hk, Option.map_some, if_pos h]
  congr 1
  omega

/-- A record without marks stays. -/
theorem entryChecks_keep (hk : k < n) (h : ¬ Marked (q k)) : entryChecks q n k = some (k : Int) := by
  unfold Marked at h
  simp only [not_or] at h
  have ⟨hroll, hname, h1, h2⟩ := h
  rw [entryChecks, recheck_of_false hk (by simpa using hroll), Option.bind_some,
    recheck_of_false hk (by simpa using hname), Option.bind_some,
    recheck_of_false hk (by simpa using h1), Option.bind_some,
    recheck_of_false hk (by simpa using h2), Option.bind_some,
    recheck_of_false hk (by simpa using h2)]

/-- A marked record behind one without marks is entered again. -/
theorem entryChecks_again (hk : k + 1 < n) (h : Marked (q (k + 1))) (hprev : ¬ Marked (q k)) :
    entryChecks q n (k + 1 : Nat) = some (k : Int) := by
  have hk' : k < n := by omega
  unfold Marked at hprev h
  simp only [not_or] at hprev
  have ⟨proll, pname, p1, p2⟩ := hprev
  have hafter2 : recheck q n (fun r => r.subject2 == -1) k = some (k : Int) :=
    recheck_of_false hk' (by simpa using p2)
  have hafter1 : recheck q n (fun r => r.subject1 == -1) k = some (k : Int) :=
    recheck_of_false hk' (by simpa using p1)
  have hafterName : recheck q n (fun r => r.name == nameX) k = some (k : Int) :=
    recheck_of_false hk' (by simpa using pname)
  rw [entryChecks]
  by_cases hroll : (q (k + 1)).roll = -1
  · rw [recheck_of_true hk (by simpa using hroll), Option.bind_some, hafterName, Option.bind_some,
      hafter1, Option.bind_some, hafter2, Option.bind_some, hafter2]
  · rw [recheck_of_false hk (by simpa using hroll), Option.bind_some]
    by_cases hname : (q (k + 1)).name = nameX
    · rw [recheck_of_true hk (by simpa using hname), Option.bind_some, hafter1, Option.bind_some,
        hafter2, Option.bind_some, hafter2]
    · rw [recheck_of_false hk (by simpa using hname), Option.bind_some]
      by_cases h1 : (q (k + 1)).subject1 = -1
      · rw [recheck_of_true hk (by simpa using h1), Option.bind_some, hafter2, Option.bind_some,
          hafter2]
      · have h2 := ((h.resolve_left hroll).resolve_left hname).resolve_left h1
        rw [recheck_of_false hk (by simpa using h1), Option.bind_some,
          recheck_of_true hk (by simpa using h2), Option.bind_some, hafter2]

theorem recount_of_false (hk : k < n) (h : test (q k) = false) :
    recount q n test (k + 1) = some (k + 1) := by
  have hindex : ((k + 1 : Nat) : Int) - 1 = (k : Nat) := by omega
  rw [recount, hindex, access_eq hk, Option.map_some, if_neg (by simp [h])]

theorem recount_of_true (hk : k < n) (h : test (q k) = true) :
    recount q n test (k + 1) = some k := by
  have hindex : ((k + 1 : Nat) : Int) - 1 = (k : Nat) := by omega
  rw [recount, hindex, access_eq hk, Option.map_some, if_pos h]
  rfl

end Checks

/-! ## The invariant -/

/-- The first `n` records are valid, and none is named like a rejected one. -/
structure Kept (p : Nat → Student) (n : Nat) : Prop where
  valid : Valid p n
  named : ∀ k < n, (p k).name ≠ nameX

/-- What holds between two prompts. -/
def Inv (s : Sys) : Prop :=
  match s.pc with
  | .number | .exited => True
  | .entering => ∃ k : Nat, s.i = k ∧ k < s.numberOfstudents ∧ Kept s.p k
  | .menu | .finding => 1 ≤ s.numberOfstudents ∧ Kept s.p s.numberOfstudents
  | .adding => 2 ≤ s.numberOfstudents ∧ Kept s.p (s.numberOfstudents - 1)
  | .undefined => False

section Kept

variable {q : Nat → Student} {k n : Nat} {r : Student}

theorem Kept.not_marked (h : Kept q n) (hk : k < n) : ¬ Marked (q k) :=
  (h.valid.passed k hk).not_marked (h.named k hk)

theorem Kept.zero (q : Nat → Student) : Kept q 0 where
  valid := ⟨fun _ hk => absurd hk (Nat.not_lt_zero _), fun _ hj => absurd hj (Nat.not_lt_zero _),
    fun _ hj => absurd hj (Nat.not_lt_zero _)⟩
  named _ hk := absurd hk (Nat.not_lt_zero _)

/-- What is written behind the records does not change them. -/
theorem Kept.update (h : Kept q k) (r : Student) : Kept (Function.update q k r) k := by
  have hsame : ∀ j < k, Function.update q k r j = q j := fun j hj =>
    Function.update_of_ne (by omega) _ _
  constructor
  · constructor
    · intro j hj
      rw [hsame j hj]
      exact h.valid.passed j hj
    · intro i hi j hj
      rw [hsame i hi, hsame j hj]
      exact h.valid.rolls i hi j hj
    · intro i hi j hj
      rw [hsame i hi, hsame j hj]
      exact h.valid.names i hi j hj
  · intro j hj
    rw [hsame j hj]
    exact h.named j hj

/-- A record with a key of its own joins the records with distinct keys. -/
theorem distinct_concat {β : Type*} {key : Student → β}
    (h : ∀ i < k, ∀ j < k, i ≠ j → key (q i) ≠ key (q j)) (hnew : ∀ i < k, key (q i) ≠ key r) :
    ∀ i < k + 1, ∀ j < k + 1, i ≠ j →
      key (Function.update q k r i) ≠ key (Function.update q k r j) := by
  intro i hi j hj hij
  by_cases hik : i = k
  · have hjk : j ≠ k := fun heq => hij (hik.trans heq.symm)
    rw [hik, Function.update_self, Function.update_of_ne hjk]
    exact (hnew j (by omega)).symm
  · rw [Function.update_of_ne hik]
    by_cases hjk : j = k
    · rw [hjk, Function.update_self]
      exact hnew i (by omega)
    · rw [Function.update_of_ne hjk]
      exact h i (by omega) j (by omega) hij

/-- What holds of the records and of a new one. -/
theorem forall_concat {P : Student → Prop} (h : ∀ i < k, P (q i)) (hr : P r) :
    ∀ i < k + 1, P (Function.update q k r i) := by
  intro i hi
  by_cases hik : i = k
  · rw [hik, Function.update_self]
    exact hr
  · rw [Function.update_of_ne hik]
    exact h i (by omega)

/-- A new valid record is kept. -/
theorem Kept.concat (h : Kept q k) (hr : Passed r) (hname : r.name ≠ nameX)
    (hrolls : ∀ j < k, (q j).roll ≠ r.roll) (hnames : ∀ j < k, (q j).name ≠ r.name) :
    Kept (Function.update q k r) (k + 1) where
  valid :=
    { passed := forall_concat h.valid.passed hr
      rolls := distinct_concat h.valid.rolls hrolls
      names := distinct_concat h.valid.names hnames }
  named := forall_concat (P := fun r => r.name ≠ nameX) h.named hname

/-- The record of an attempt that passes everything is a new valid one. -/
theorem Kept.concat_marks {roll : Int} (h : Kept q k) (hroll : RollOk q k input)
    (hroll' : input.roll = some roll) (hname : NameOk (q k) q k input) (hmarks : MarksOk input) :
    Kept (Function.update q k
      (marks { q k with roll := roll, name := typedName (q k) input } input)) (k + 1) := by
  simp only [RollOk, hroll'] at hroll
  apply h.concat
  · exact marks_passed ⟨by show 1 ≤ roll; omega, hroll.1.2⟩ hmarks
  · rw [marks_name]
    exact hname.1
  · rw [marks_roll]
    exact hroll.2
  · rw [marks_name]
    exact hname.2

end Kept

/-! ### The loop at the start -/

variable {t t' : Sys} {k : Nat}

/-- The loop goes on with the tests of the new record. -/
theorem enter_eq (hi : t.i = k) (hk : k < t.numberOfstudents) {r : Student}
    (hr : students (t.p k) t.p k input = some r) {j : Int}
    (hchecks : entryChecks (Function.update t.p k r) t.numberOfstudents k = some j) :
    t.enter input = { t with
      p := Function.update t.p k r
      i := j + 1
      pc := if j + 1 < t.numberOfstudents then .entering else .menu } := by
  unfold Sys.enter
  rw [hi, access_eq hk]
  simp only [Int.toNat_natCast, hr, hchecks]

/-- A marked record behind one without marks is entered again. -/
theorem enter_again (hi : t.i = (k + 1 : Nat)) (hk : k + 1 < t.numberOfstudents) {r : Student}
    (hr : students (t.p (k + 1)) t.p (k + 1) input = some r) (hmarked : Marked r)
    (hprev : ¬ Marked (t.p k)) :
    t.enter input =
      { t with p := Function.update t.p (k + 1) r, i := (k : Int) + 1, pc := .entering } := by
  have hbefore : ¬ Marked (Function.update t.p (k + 1) r k) := by
    rw [Function.update_of_ne (by omega)]
    exact hprev
  have hself : Marked (Function.update t.p (k + 1) r (k + 1)) := by
    rw [Function.update_self]
    exact hmarked
  have hnext : (k : Int) + 1 < t.numberOfstudents := by omega
  rw [enter_eq hi hk hr (entryChecks_again hk hself hbefore), if_pos hnext]

/-- Behind a record without marks comes the next one or the menu. -/
theorem enter_keep (hi : t.i = k) (hk : k < t.numberOfstudents) {r : Student}
    (hr : students (t.p k) t.p k input = some r) (hmarked : ¬ Marked r) :
    t.enter input = { t with
      p := Function.update t.p k r
      i := (k : Int) + 1
      pc := if (k : Int) + 1 < t.numberOfstudents then .entering else .menu } := by
  have hself : ¬ Marked (Function.update t.p k r k) := by
    rw [Function.update_self]
    exact hmarked
  rw [enter_eq hi hk hr (entryChecks_keep hk hself)]

/-- A rejected record behind the first one keeps the records before it. -/
theorem inv_enter_again (hi : t.i = k) (hk : k < t.numberOfstudents) (h : Kept t.p k)
    (hfirst : k ≠ 0) {r : Student} (hr : students (t.p k) t.p k input = some r)
    (hmarked : Marked r) : Inv (t.enter input) := by
  cases k with
  | zero => contradiction
  | succ k =>
      rw [enter_again hi hk hr hmarked (h.not_marked (Nat.lt_succ_self k))]
      exact ⟨k + 1, by simp, hk, h.update r⟩

theorem inv_enter_keep (hi : t.i = k) (hk : k < t.numberOfstudents) {r : Student}
    (hr : students (t.p k) t.p k input = some r) (hmarked : ¬ Marked r)
    (h : Kept (Function.update t.p k r) (k + 1)) : Inv (t.enter input) := by
  rw [enter_keep hi hk hr hmarked]
  by_cases hnext : (k : Int) + 1 < t.numberOfstudents
  · rw [if_pos hnext]
    exact ⟨k + 1, by simp, by show k + 1 < t.numberOfstudents; omega, h⟩
  · have hlast : k + 1 = t.numberOfstudents := by omega
    rw [if_neg hnext]
    refine ⟨by show 1 ≤ t.numberOfstudents; omega, ?_⟩
    show Kept (Function.update t.p k r) t.numberOfstudents
    rw [← hlast]
    exact h

theorem inv_enter (hi : t.i = k) (hk : k < t.numberOfstudents) (h : Kept t.p k)
    (hok : EntryOk (t.p k) t.p k input) : Inv (t.enter input) := by
  have houtcome := students_outcome (t.p k) t.p k input
  generalize hr : students (t.p k) t.p k input = result at houtcome
  cases houtcome with
  | roll hroll =>
      have hfirst : k ≠ 0 := fun hzero => hroll (hok.2 hzero).1
      exact inv_enter_again hi hk h hfirst hr (.inl rfl)
  | overflow hroll hlong =>
      rw [(hok.1 hroll).1] at hlong
      contradiction
  | name roll hroll hroll' hname =>
      have hfirst : k ≠ 0 := fun hzero => hname (hok.2 hzero).2.1
      exact inv_enter_again hi hk h hfirst hr (.inr (.inl rfl))
  | marks roll hroll hroll' hnew =>
      have hname' := marks_name { t.p k with roll := roll, name := typedName (t.p k) input } input
      by_cases hname : NameOk (t.p k) t.p k input
      · by_cases htested : (mark input.subject1).isSome ∧ (mark input.subject2).isSome
        · have hmarks : MarksOk input :=
            ⟨htested.1, htested.2, (hok.1 hroll).2 hname htested.1 htested.2⟩
          have hkept := h.concat_marks hroll hroll' hname hmarks
          have hnot := hkept.not_marked (Nat.lt_succ_self k)
          rw [Function.update_self] at hnot
          exact inv_enter_keep hi hk hr hnot hkept
        · have hfirst : k ≠ 0 := fun hzero =>
            htested ⟨(hok.2 hzero).2.2.1, (hok.2 hzero).2.2.2.1⟩
          exact inv_enter_again hi hk h hfirst hr (.inr (.inr (marks_rejected htested)))
      · have hfirst : k ≠ 0 := fun hzero => hname (hok.2 hzero).2.1
        have hx := hname'.trans (typedName_eq_nameX hnew hname)
        exact inv_enter_again hi hk h hfirst hr (.inr (.inl hx))

/-! ### Adding a student -/

/-- A record that is not marked by its roll number or name is added. -/
theorem addChecks_keep {q : Nat → Student} (hroll : (q k).roll ≠ -1) (hname : (q k).name ≠ nameX) :
    addChecks q (k + 1) = some (k + 1) := by
  have hk := Nat.lt_succ_self k
  rw [addChecks, recount_of_false hk (by simpa using hroll), Option.bind_some,
    recount_of_false hk (by simpa using hname)]

/-- A marked record is dropped; behind the first drop the record before it is looked at. -/
theorem addChecks_drop {q : Nat → Student}
    (hmarked : (q (k + 1)).roll = -1 ∨ (q (k + 1)).name = nameX) (hprev : (q k).name ≠ nameX) :
    addChecks q (k + 2) = some (k + 1) := by
  have hk : k + 1 < k + 2 := by omega
  rw [addChecks]
  by_cases hroll : (q (k + 1)).roll = -1
  · rw [recount_of_true hk (by simpa using hroll), Option.bind_some,
      recount_of_false (by omega) (by simpa using hprev)]
  · have hname := hmarked.resolve_left hroll
    rw [recount_of_false hk (by simpa using hroll), Option.bind_some,
      recount_of_true hk (by simpa using hname)]

theorem add_eq (hn : t.numberOfstudents = k + 2) {r : Student}
    (hr : students (t.p (k + 1)) t.p (k + 1) input = some r) {count : Nat}
    (hchecks : addChecks (Function.update t.p (k + 1) r) (k + 2) = some count) :
    t.add input = { t with
      p := Function.update t.p (k + 1) r
      numberOfstudents := count
      pc := .menu } := by
  have hindex : ((k + 2 : Nat) : Int) - 1 = (k + 1 : Nat) := by omega
  unfold Sys.add
  rw [hn, hindex, access_eq (by omega)]
  simp only [show k + 2 - 1 = k + 1 from rfl, hr, hchecks]

theorem inv_add_drop (hn : t.numberOfstudents = k + 2) (h : Kept t.p (k + 1)) {r : Student}
    (hr : students (t.p (k + 1)) t.p (k + 1) input = some r)
    (hmarked : r.roll = -1 ∨ r.name = nameX) : Inv (t.add input) := by
  have hkept := h.update r
  have hself : Function.update t.p (k + 1) r (k + 1) = r := Function.update_self ..
  rw [add_eq hn hr (addChecks_drop (by rw [hself]; exact hmarked) (hkept.named k (by omega)))]
  exact ⟨by show 1 ≤ k + 1; omega, hkept⟩

theorem inv_add_keep (hn : t.numberOfstudents = k + 2) {r : Student}
    (hr : students (t.p (k + 1)) t.p (k + 1) input = some r)
    (h : Kept (Function.update t.p (k + 1) r) (k + 2)) : Inv (t.add input) := by
  have hpassed := h.valid.passed (k + 1) (by omega)
  have hpos := hpassed.roll.1
  rw [add_eq hn hr (addChecks_keep (by omega) (h.named (k + 1) (by omega)))]
  exact ⟨by show 1 ≤ k + 2; omega, h⟩

theorem inv_add (hn : t.numberOfstudents = k + 2) (h : Kept t.p (k + 1))
    (hok : AddOk (t.p (k + 1)) t.p (k + 1) input) : Inv (t.add input) := by
  have houtcome := students_outcome (t.p (k + 1)) t.p (k + 1) input
  generalize hr : students (t.p (k + 1)) t.p (k + 1) input = result at houtcome
  cases houtcome with
  | roll hroll => exact inv_add_drop hn h hr (.inl rfl)
  | overflow hroll hlong =>
      rw [(hok hroll).1] at hlong
      contradiction
  | name roll hroll hroll' hname => exact inv_add_drop hn h hr (.inr rfl)
  | marks roll hroll hroll' hnew =>
      by_cases hname : NameOk (t.p (k + 1)) t.p (k + 1) input
      · exact inv_add_keep hn hr (h.concat_marks hroll hroll' hname ((hok hroll).2 hname))
      · refine inv_add_drop hn h hr (.inr ?_)
        rw [marks_name]
        exact typedName_eq_nameX hnew hname

/-! ## Runs -/

theorem inv_setNumber (h : t.pc = .number) (n : Option Int) : Inv (t.setNumber n) := by
  unfold Sys.setNumber
  split
  · split
    · simp only [Inv, h]
    · refine ⟨0, rfl, ?_, Kept.zero _⟩
      rename_i hrange
      show 0 < Int.toNat _
      omega
  · simp only [Inv, h]

theorem inv_choose (h : Inv t) (hpc : t.pc = .menu) (options : Option Int) :
    Inv (t.choose options) := by
  have hmenu : 1 ≤ t.numberOfstudents ∧ Kept t.p t.numberOfstudents := by
    simpa only [Inv, hpc] using h
  unfold Sys.choose
  split
  · exact ⟨by show 2 ≤ t.numberOfstudents + 1; omega, hmenu.2⟩
  · exact hmenu
  · trivial
  · exact h

theorem inv_find (h : Inv t) (hpc : t.pc = .finding) {op : Int} {searchname : Option Bytes}
    (hok : op = 2 → overflows searchname = false) : Inv (t.find op searchname) := by
  have hmenu : 1 ≤ t.numberOfstudents ∧ Kept t.p t.numberOfstudents := by
    simpa only [Inv, hpc] using h
  unfold Sys.find
  rw [if_neg]
  · exact hmenu
  · rintro ⟨hop, hlong⟩
    rw [hok hop] at hlong
    contradiction

theorem inv_step {a : Act} (h : Inv t) (hok : InputOk t a) (hs : step t a = some t') : Inv t' := by
  unfold step at hs
  split at hs
  · rename_i hpc
    exact Option.some.inj hs ▸ inv_setNumber hpc _
  · rename_i input hpc
    have ⟨k, hi, hk, hkept⟩ : ∃ k : Nat, t.i = k ∧ k < t.numberOfstudents ∧ Kept t.p k := by
      simpa only [Inv, hpc] using h
    have hentry : EntryOk (t.p k) t.p k input := by
      simpa only [InputOk, hpc, hi, Int.toNat_natCast] using hok
    exact Option.some.inj hs ▸ inv_enter hi hk hkept hentry
  · rename_i hpc
    exact Option.some.inj hs ▸ inv_choose h hpc _
  · rename_i input hpc
    have ⟨htwo, hkept⟩ : 2 ≤ t.numberOfstudents ∧ Kept t.p (t.numberOfstudents - 1) := by
      simpa only [Inv, hpc] using h
    have hadd : AddOk (t.p (t.numberOfstudents - 1)) t.p (t.numberOfstudents - 1) input := by
      simpa only [InputOk, hpc] using hok
    have ⟨k, hn⟩ : ∃ k, t.numberOfstudents = k + 2 := ⟨t.numberOfstudents - 2, by omega⟩
    have hindex : t.numberOfstudents - 1 = k + 1 := by omega
    rw [hindex] at hkept hadd
    exact Option.some.inj hs ▸ inv_add hn hkept hadd
  · rename_i hpc
    have hfind : ∀ {op : Int} {searchname : Option Bytes}, InputOk t (.find op searchname) →
        op = 2 → overflows searchname = false := by
      intro op searchname hok
      simpa only [InputOk, hpc] using hok
    exact Option.some.inj hs ▸ inv_find h hpc (hfind hok)
  · cases hs

theorem Inv.menuValid (h : Inv t) : MenuValid t := by
  constructor
  · intro hpc
    simp only [Inv, hpc] at h
  · intro hpc
    have hmenu : 1 ≤ t.numberOfstudents ∧ Kept t.p t.numberOfstudents := by
      simpa only [Inv, hpc] using h
    exact hmenu.2.valid

/-- **Whenever the menu is displayed its records are valid**, in a run whose inputs the callers
of `students` can tell apart. -/
theorem menu_valid {memory : Nat → Student} (h : Reach step InputOk (Sys.init memory) t) :
    MenuValid t :=
  (h.keeps (show Inv (Sys.init memory) from trivial)
    (fun _ _ _ hinv hok hs => inv_step hinv hok hs)).menuValid

/-- Memory that happens to be zero. -/
def zeros : Nat → Student := fun _ => ⟨0, [], 0, 0, 0, 0, 0⟩

/-- One student with roll number 1 and the name `a`. -/
def oneStudent (subject3 : Option ℚ) : List Act :=
  [.number (some 1), .entry ⟨some 1, some [97], some 50, some 60, subject3⟩]

theorem menu_valid_oneStudent : ∃ t, t.pc = .menu ∧ t.numberOfstudents = 1 ∧ MenuValid t := by
  have hsome : (run (guarded step InputOk) (Sys.init zeros) (oneStudent (some 70))).map
      (fun t => (t.pc, t.numberOfstudents)) = some (.menu, 1) := by decide +kernel
  have ⟨t, hrun, heq⟩ := Option.map_eq_some_iff.mp hsome
  have ⟨hpc, hnumber⟩ := Prod.mk.inj heq
  exact ⟨t, hpc, hnumber, menu_valid (Reach.refl.of_guarded hrun)⟩

/-- No number for the third subject: the record stays, with the mark -1. -/
theorem third_subject_unchecked :
    ¬ ∀ (memory : Nat → Student) (t : Sys),
      Reach step (fun _ _ => True) (Sys.init memory) t → MenuValid t := by
  intro h
  have hsome : (run step (Sys.init zeros) (oneStudent none)).map
      (fun t => (t.pc, t.numberOfstudents, (t.p 0).subject3)) = some (.menu, 1, -1) := by
    decide +kernel
  have ⟨t, hrun, heq⟩ := Option.map_eq_some_iff.mp hsome
  have ⟨hpc, hrest⟩ := Prod.mk.inj heq
  have ⟨hnumber, hmark⟩ := Prod.mk.inj hrest
  have hvalid := (h zeros t (Reach.of_run hrun)).2 hpc
  have hpos := (hvalid.passed 0 (by omega)).subject3.1
  rw [hmark] at hpos
  revert hpos
  decide +kernel

end SystemsInC.Ports.StudentMenu
