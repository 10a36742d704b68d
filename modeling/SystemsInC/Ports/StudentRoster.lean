import SystemsInC.Ports.StudentMenu
import Mathlib.Algebra.BigOperators.Group.List.Basic

/-!
# The student program as a roster

The options of the menu that print, and what the whole program does: it keeps a list of
students.  `enrol` puts a complete entry with a new roll number and a new name behind the
others and ignores any other entry; the program does this with an array, with marks in the
records that it drops, and with counters that it takes back.  `menu_refines_roster` says that
under the condition of `menu_valid` the array is that list, whatever was in the memory, and that
each report of the menu is what it should be for the list.
-/

namespace SystemsInC.Ports.StudentRoster

open SystemsInC.Verified.CString
open SystemsInC.Verified.GuardedRuns
open SystemsInC.Ports.StudentMenu

/-! ## The reports -/

/-- The loop of the two searches, with the number of records from `i` on. -/
def findLoop (test : Student → Bool) (p : Nat → Student) : Nat → Nat → Option Student
  | 0, _ => none
  | left + 1, i => if test (p i) then some (p i) else findLoop test p left (i + 1)

/-- `findStudentByRoll(p, num, searchroll)`: the record that is printed. -/
def findStudentByRoll (p : Nat → Student) (num : Nat) (searchroll : Int) : Option Student :=
  findLoop (fun r => r.roll == searchroll) p num 0

/-- `findStudentByName(p, num, Name)`. -/
def findStudentByName (p : Nat → Student) (num : Nat) (searchname : Bytes) : Option Student :=
  findLoop (fun r => r.name == searchname) p num 0

/-- The loop that counts the passes. -/
def countLoop (p : Nat → Student) : Nat → Nat
  | 0 => 0
  | i + 1 => countLoop p i + if (p i).sum > 150 then 1 else 0

def numberOfStudentsPassed (p : Nat → Student) (num : Nat) : Nat := countLoop p num

def passPercentage (p : Nat → Student) (num : Nat) : ℚ := (countLoop p num : ℚ) / num * 100

/-- The loop of `classaverage`. -/
def totalLoop (p : Nat → Student) : Nat → ℚ
  | 0 => 0
  | i + 1 => totalLoop p i + (p i).avg

def classaverage (p : Nat → Student) (num : Nat) : ℚ := totalLoop p num / num

/-- The records of the lines that `Student Details` prints and that `export` writes. -/
def displayed (p : Nat → Student) (num : Nat) : List Student := (List.range num).map p

theorem displayed_length (p : Nat → Student) (num : Nat) : (displayed p num).length = num := by
  simp [displayed]

theorem displayed_ne_nil {p : Nat → Student} {num : Nat} (hpos : 1 ≤ num) :
    displayed p num ≠ [] := by
  apply List.ne_nil_of_length_pos
  rw [displayed_length]
  exact hpos

theorem displayed_succ (p : Nat → Student) (num : Nat) :
    displayed p (num + 1) = displayed p num ++ [p num] := by
  simp [displayed, List.range_succ]

theorem displayed_update (p : Nat → Student) (num : Nat) (r : Student) :
    displayed (Function.update p num r) num = displayed p num := by
  refine List.map_congr_left (fun i hi => ?_)
  have hne : i ≠ num := Nat.ne_of_lt (List.mem_range.mp hi)
  rw [Function.update_of_ne hne]

theorem displayed_concat (p : Nat → Student) (num : Nat) (r : Student) :
    displayed (Function.update p num r) (num + 1) = displayed p num ++ [r] := by
  rw [displayed_succ, displayed_update, Function.update_self]

theorem mem_displayed {p : Nat → Student} {num : Nat} {r : Student} :
    r ∈ displayed p num ↔ ∃ i < num, p i = r := by
  simp [displayed]

theorem findLoop_eq (test : Student → Bool) (p : Nat → Student) (left i : Nat) :
    findLoop test p left i = ((List.range' i left).map p).find? test := by
  induction left generalizing i with
  | zero => rfl
  | succ left ih =>
      rw [findLoop, ih, List.range'_succ, List.map_cons, List.find?_cons]
      cases test (p i) <;> rfl

theorem find_eq (test : Student → Bool) (p : Nat → Student) (num : Nat) :
    findLoop test p num 0 = (displayed p num).find? test := by
  rw [findLoop_eq, displayed, List.range_eq_range']

theorem countLoop_eq (p : Nat → Student) (num : Nat) :
    countLoop p num = (displayed p num).countP (fun r => r.sum > 150) := by
  induction num with
  | zero => rfl
  | succ num ih =>
      rw [countLoop, displayed_succ, List.countP_append, ih, List.countP_singleton]
      simp

theorem totalLoop_eq (p : Nat → Student) (num : Nat) :
    totalLoop p num = ((displayed p num).map Student.avg).sum := by
  induction num with
  | zero => rfl
  | succ num ih => rw [totalLoop, displayed_succ, List.map_append, List.sum_append, ih]; simp

/-! ## The roster -/

/-- The record of a complete entry. -/
def record (input : Entry) : Option Student :=
  match input.roll, input.name, mark input.subject1, mark input.subject2, mark input.subject3 with
  | some roll, some token, some m1, some m2, some m3 =>
      if (0 < roll ∧ roll ≤ 100) ∧ cstr token ≠ nameX then
        some
          { roll := roll
            name := cstr token
            subject1 := m1
            subject2 := m2
            subject3 := m3
            sum := m1 + m2 + m3
            avg := (m1 + m2 + m3) / 3 }
      else
        none
  | _, _, _, _, _ => none

/-- A complete entry joins the list if its roll number and its name are new. -/
def enrol (records : List Student) (input : Entry) : List Student :=
  match record input with
  | some r =>
      if ∀ e ∈ records, e.roll ≠ r.roll ∧ e.name ≠ r.name then records ++ [r] else records
  | none => records

structure Roster where
  pc : Pc
  /-- how many students are entered at the start -/
  numberOfstudents : Nat
  records : List Student

def Roster.start : Roster :=
  { pc := .number
    numberOfstudents := 0
    records := [] }

def Roster.choose (r : Roster) : Option Int → Roster
  | some 2 => { r with pc := .adding }
  | some 6 => { r with pc := .finding }
  | some 8 => { r with pc := .exited }
  | _ => r

/-- The program over the list. -/
def rosterStep (r : Roster) (a : Act) : Option Roster :=
  match r.pc, a with
  | .number, .number (some n) =>
      if n ≤ 0 ∨ n > 100 then some r
      else some { r with pc := .entering, numberOfstudents := n.toNat }
  | .number, .number none => some r
  | .entering, .entry input =>
      let records := enrol r.records input
      some { r with
        records := records
        pc := if records.length < r.numberOfstudents then .entering else .menu }
  | .menu, .option options => some (r.choose options)
  | .adding, .entry input => some { r with records := enrol r.records input, pc := .menu }
  | .finding, .find _ _ => some { r with pc := .menu }
  | _, _ => none

/-! ## Entries -/

variable {p : Nat → Student} {k : Nat} {input : Entry}

/-- `students` accepts the entry for the record behind the first `k`. -/
def Accepted (p : Nat → Student) (k : Nat) (input : Entry) : Prop :=
  RollOk p k input ∧ NameOk (p k) p k input ∧ MarksOk input

/-- The record that `students` leaves then. -/
def entered (p : Nat → Student) (k : Nat) (input : Entry) (roll : Int) : Student :=
  marks { p k with roll := roll, name := typedName (p k) input } input

/-- Nothing of the memory is left in it. -/
theorem record_eq_entered {roll : Int} (h : Accepted p k input) (hroll : input.roll = some roll)
    (hname : input.name.isSome) : record input = some (entered p k input roll) := by
  have ⟨hrollok, hnameok, h1, h2, h3⟩ := h
  have ⟨token, htoken⟩ := Option.isSome_iff_exists.mp hname
  have ⟨m1, hm1⟩ := Option.isSome_iff_exists.mp h1
  have ⟨m2, hm2⟩ := Option.isSome_iff_exists.mp h2
  have ⟨m3, hm3⟩ := Option.isSome_iff_exists.mp h3
  simp only [RollOk, hroll] at hrollok
  have htyped : typedName (p k) input = cstr token := by rw [typedName, htoken]
  have hnew : cstr token ≠ nameX := htyped ▸ hnameok.1
  simp only [record, hroll, htoken, hm1, hm2, hm3]
  rw [if_pos ⟨hrollok.1, hnew⟩]
  simp only [entered, marks, hm1, hm2, hm3, htyped]

theorem enrol_accepted {roll : Int} (h : Accepted p k input) (hroll : input.roll = some roll)
    (hname : input.name.isSome) :
    enrol (displayed p k) input = displayed p k ++ [entered p k input roll] := by
  have hrollok := h.1
  have hnameok := h.2.1
  simp only [RollOk, hroll] at hrollok
  simp only [enrol, record_eq_entered h hroll hname]
  refine if_pos (fun e he => ?_)
  obtain ⟨i, hi, heq⟩ := mem_displayed.mp he
  rw [← heq, entered, marks_roll, marks_name]
  exact ⟨hrollok.2 i hi, hnameok.2 i hi⟩

theorem enrol_rejected (h : ¬ Accepted p k input) :
    enrol (displayed p k) input = displayed p k := by
  cases hrecord : record input with
  | none => simp only [enrol, hrecord]
  | some r =>
      simp only [enrol, hrecord]
      refine if_neg (fun hnew => h ?_)
      unfold record at hrecord
      split at hrecord
      · rename_i roll token m1 m2 m3 hroll htoken hm1 hm2 hm3
        have htyped : typedName (p k) input = cstr token := by rw [typedName, htoken]
        rw [Option.ite_none_right_eq_some] at hrecord
        have ⟨⟨hrange, hx⟩, heq⟩ := hrecord
        have hr := Option.some.inj heq
        rw [← hr] at hnew
        have hothers : ∀ i < k, (p i).roll ≠ roll ∧ (p i).name ≠ cstr token :=
          fun i hi => hnew (p i) (mem_displayed.mpr ⟨i, hi, rfl⟩)
        refine ⟨?_, ⟨?_, ?_⟩, ?_⟩
        · simp only [RollOk, hroll]
          exact ⟨hrange, fun i hi => (hothers i hi).1⟩
        · rw [htyped]
          exact hx
        · intro i hi
          rw [htyped]
          exact (hothers i hi).2
        · exact ⟨by rw [hm1]; rfl, by rw [hm2]; rfl, by rw [hm3]; rfl⟩
      · cases hrecord

/-! ## The array is the list -/

variable {t t' : Sys} {r r' : Roster}

/-- One turn of the loop at the start: a record more, or the same one again. -/
theorem enter_cases (hi : t.i = k) (hk : k < t.numberOfstudents) (h : Kept t.p k)
    (hok : EntryOk (t.p k) t.p k input) :
    (∃ roll, Accepted t.p k input ∧ input.roll = some roll ∧ t.enter input = { t with
      p := Function.update t.p k (entered t.p k input roll)
      i := (k : Int) + 1
      pc := if (k : Int) + 1 < t.numberOfstudents then .entering else .menu }) ∨
    (¬ Accepted t.p k input ∧ ∃ r, t.enter input =
      { t with p := Function.update t.p k r, i := (k : Int), pc := .entering }) := by
  have hagain : ∀ {r}, k ≠ 0 → students (t.p k) t.p k input = some r → Marked r →
      t.enter input =
        { t with p := Function.update t.p k r, i := (k : Int), pc := .entering } := by
    intro r hfirst hr hmarked
    have ⟨j, hj⟩ : ∃ j, k = j + 1 := ⟨k - 1, by omega⟩
    subst hj
    exact enter_again hi hk hr hmarked (h.not_marked (Nat.lt_succ_self j))
  have houtcome := students_outcome (t.p k) t.p k input
  generalize hr : students (t.p k) t.p k input = result at houtcome
  cases houtcome with
  | roll hroll =>
      have hfirst : k ≠ 0 := fun hzero => hroll (hok.2 hzero).1
      exact .inr ⟨fun hacc => hroll hacc.1, _, hagain hfirst hr (.inl rfl)⟩
  | overflow hroll hlong =>
      rw [(hok.1 hroll).1] at hlong
      contradiction
  | name roll hroll hroll' hname =>
      have hfirst : k ≠ 0 := fun hzero => hname (hok.2 hzero).2.1
      exact .inr ⟨fun hacc => hname hacc.2.1, _, hagain hfirst hr (.inr (.inl rfl))⟩
  | marks roll hroll hroll' hnew =>
      by_cases hname : NameOk (t.p k) t.p k input
      · by_cases htested : (mark input.subject1).isSome ∧ (mark input.subject2).isSome
        · have hmarks : MarksOk input :=
            ⟨htested.1, htested.2, (hok.1 hroll).2 hname htested.1 htested.2⟩
          have hkept := h.concat_marks hroll hroll' hname hmarks
          have hnot := hkept.not_marked (Nat.lt_succ_self k)
          rw [Function.update_self] at hnot
          exact .inl ⟨roll, ⟨hroll, hname, hmarks⟩, hroll', enter_keep hi hk hr hnot⟩
        · have hfirst : k ≠ 0 := fun hzero =>
            htested ⟨(hok.2 hzero).2.2.1, (hok.2 hzero).2.2.2.1⟩
          exact .inr ⟨fun hacc => htested ⟨hacc.2.2.1, hacc.2.2.2.1⟩, _,
            hagain hfirst hr (.inr (.inr (marks_rejected htested)))⟩
      · have hfirst : k ≠ 0 := fun hzero => hname (hok.2 hzero).2.1
        have hx := (marks_name { t.p k with roll := roll, name := typedName (t.p k) input }
          input).trans (typedName_eq_nameX hnew hname)
        exact .inr ⟨fun hacc => hname hacc.2.1, _, hagain hfirst hr (.inr (.inl hx))⟩

/-- `Add new student`: a record more, or none. -/
theorem add_cases (hn : t.numberOfstudents = k + 2) (h : Kept t.p (k + 1))
    (hok : AddOk (t.p (k + 1)) t.p (k + 1) input) :
    (∃ roll, Accepted t.p (k + 1) input ∧ input.roll = some roll ∧ t.add input = { t with
      p := Function.update t.p (k + 1) (entered t.p (k + 1) input roll)
      numberOfstudents := k + 2
      pc := .menu }) ∨
    (¬ Accepted t.p (k + 1) input ∧ ∃ r, t.add input = { t with
      p := Function.update t.p (k + 1) r
      numberOfstudents := k + 1
      pc := .menu }) := by
  have hdrop : ∀ {r}, students (t.p (k + 1)) t.p (k + 1) input = some r →
      r.roll = -1 ∨ r.name = nameX → t.add input = { t with
        p := Function.update t.p (k + 1) r
        numberOfstudents := k + 1
        pc := .menu } := by
    intro r hr hmarked
    have hself : Function.update t.p (k + 1) r (k + 1) = r := Function.update_self ..
    exact add_eq hn hr
      (addChecks_drop (by rw [hself]; exact hmarked) ((h.update r).named k (by omega)))
  have houtcome := students_outcome (t.p (k + 1)) t.p (k + 1) input
  generalize hr : students (t.p (k + 1)) t.p (k + 1) input = result at houtcome
  cases houtcome with
  | roll hroll => exact .inr ⟨fun hacc => hroll hacc.1, _, hdrop hr (.inl rfl)⟩
  | overflow hroll hlong =>
      rw [(hok hroll).1] at hlong
      contradiction
  | name roll hroll hroll' hname =>
      exact .inr ⟨fun hacc => hname hacc.2.1, _, hdrop hr (.inr rfl)⟩
  | marks roll hroll hroll' hnew =>
      by_cases hname : NameOk (t.p (k + 1)) t.p (k + 1) input
      · have hmarks := (hok hroll).2 hname
        have hkept := h.concat_marks hroll hroll' hname hmarks
        have hpos := (hkept.valid.passed (k + 1) (by omega)).roll.1
        exact .inl ⟨roll, ⟨hroll, hname, hmarks⟩, hroll',
          add_eq hn hr (addChecks_keep (fun heq => absurd (hpos.trans_eq heq) (by decide))
            (hkept.named (k + 1) (by omega)))⟩
      · have hx := (marks_name
          { t.p (k + 1) with roll := roll, name := typedName (t.p (k + 1)) input } input).trans
            (typedName_eq_nameX hnew hname)
        exact .inr ⟨fun hacc => hname hacc.2.1, _, hdrop hr (.inr hx)⟩

/-- How many records are complete. -/
def complete (t : Sys) : Nat :=
  match t.pc with
  | .number => 0
  | .entering => t.i.toNat
  | .adding => t.numberOfstudents - 1
  | _ => t.numberOfstudents

/-- The roster is at the same prompt, with the complete records. -/
structure Agrees (t : Sys) (r : Roster) : Prop where
  inv : StudentMenu.Inv t
  pc : r.pc = t.pc
  records : r.records = displayed t.p (complete t)
  number : t.pc = .entering → r.numberOfstudents = t.numberOfstudents

/-- Where a name is asked for one is read. -/
def Named (t : Sys) : Act → Prop
  | .entry input => RollOk t.p (complete t) input → input.name.isSome
  | _ => True

instance decidableNamed (t : Sys) : (a : Act) → Decidable (Named t a)
  | .entry input =>
      inferInstanceAs (Decidable (RollOk t.p (complete t) input → input.name.isSome = true))
  | .number _ => .isTrue trivial
  | .option _ => .isTrue trivial
  | .find _ _ => .isTrue trivial

/-- An input that answers the prompt, with a token where a name is read, and that leads to no
invalid record. -/
def RosterOk (t : Sys) (a : Act) : Prop :=
  (step t a).isSome = true ∧ InputOk t a ∧ Named t a

instance (t : Sys) (a : Act) : Decidable (RosterOk t a) := by
  unfold RosterOk
  infer_instance

theorem agrees_init (memory : Nat → Student) : Agrees (Sys.init memory) .start where
  inv := trivial
  pc := rfl
  records := rfl
  number hpc := by cases hpc

theorem Agrees.entering (h : Agrees t r) (hpc : t.pc = .entering)
    (hok : InputOk t (.entry input)) (hnamed : Named t (.entry input)) :
    ∃ r', rosterStep r (.entry input) = some r' ∧ Agrees (t.enter input) r' := by
  have ⟨k, hi, hk, hkept⟩ : ∃ k : Nat, t.i = k ∧ k < t.numberOfstudents ∧ Kept t.p k := by
    have hinv := h.inv
    simpa only [StudentMenu.Inv, hpc] using hinv
  have hentry : EntryOk (t.p k) t.p k input := by
    simpa only [InputOk, hpc, hi, Int.toNat_natCast] using hok
  have hname : RollOk t.p k input → input.name.isSome := by
    simpa only [Named, complete, hpc, hi, Int.toNat_natCast] using hnamed
  have hinv := inv_enter hi hk hkept hentry
  have hrecords : r.records = displayed t.p k := by
    rw [h.records]
    simp only [complete, hpc, hi, Int.toNat_natCast]
  have hnumber := h.number hpc
  have hstep : rosterStep r (.entry input) = some { r with
      records := enrol r.records input
      pc := if (enrol r.records input).length < r.numberOfstudents then .entering else .menu } := by
    simp only [rosterStep, h.pc, hpc]
  refine ⟨_, hstep, ?_⟩
  rw [hrecords, hnumber]
  rcases enter_cases hi hk hkept hentry with ⟨roll, hacc, hroll, heq⟩ | ⟨hnot, q, heq⟩
  · rw [heq] at hinv ⊢
    rw [enrol_accepted hacc hroll (hname hacc.1)]
    have hlen : (displayed t.p k ++ [entered t.p k input roll]).length = k + 1 := by
      rw [List.length_append, displayed_length, List.length_singleton]
    rw [hlen]
    by_cases hmore : k + 1 < t.numberOfstudents
    · have hint : (k : Int) + 1 < t.numberOfstudents := by omega
      rw [if_pos hint] at hinv
      rw [if_pos hmore, if_pos hint]
      exact
        { inv := hinv
          pc := rfl
          records := (displayed_concat t.p k _).symm
          number := fun _ => rfl }
    · have hint : ¬ (k : Int) + 1 < t.numberOfstudents := by omega
      have hlast : t.numberOfstudents = k + 1 := by omega
      rw [if_neg hint] at hinv
      rw [if_neg hmore, if_neg hint]
      exact
        { inv := hinv
          pc := rfl
          records := by
            show _ = displayed _ t.numberOfstudents
            rw [hlast, displayed_concat]
          number := fun hpc => by cases hpc }
  · rw [heq] at hinv ⊢
    rw [enrol_rejected hnot]
    rw [displayed_length, if_pos hk]
    exact
      { inv := hinv
        pc := rfl
        records := (displayed_update t.p k q).symm
        number := fun _ => rfl }

theorem Agrees.adding (h : Agrees t r) (hpc : t.pc = .adding) (hok : InputOk t (.entry input))
    (hnamed : Named t (.entry input)) :
    ∃ r', rosterStep r (.entry input) = some r' ∧ Agrees (t.add input) r' := by
  obtain ⟨htwo, hkept⟩ : 2 ≤ t.numberOfstudents ∧ Kept t.p (t.numberOfstudents - 1) := by
    have hinv := h.inv
    simpa only [StudentMenu.Inv, hpc] using hinv
  have hadd : AddOk (t.p (t.numberOfstudents - 1)) t.p (t.numberOfstudents - 1) input := by
    simpa only [InputOk, hpc] using hok
  obtain ⟨k, hn⟩ : ∃ k, t.numberOfstudents = k + 2 := ⟨t.numberOfstudents - 2, by omega⟩
  have hindex : t.numberOfstudents - 1 = k + 1 := by omega
  have hname : RollOk t.p (k + 1) input → input.name.isSome := by
    simpa only [Named, complete, hpc, hindex] using hnamed
  rw [hindex] at hkept hadd
  have hinv := inv_add hn hkept hadd
  have hrecords : r.records = displayed t.p (k + 1) := by
    rw [h.records]
    simp only [complete, hpc, hindex]
  have hstep : rosterStep r (.entry input) =
      some { r with records := enrol r.records input, pc := .menu } := by
    simp only [rosterStep, h.pc, hpc]
  refine ⟨_, hstep, ?_⟩
  rw [hrecords]
  rcases add_cases hn hkept hadd with ⟨roll, hacc, hroll, heq⟩ | ⟨hnot, q, heq⟩
  · rw [heq] at hinv ⊢
    rw [enrol_accepted hacc hroll (hname hacc.1)]
    exact
      { inv := hinv
        pc := rfl
        records := (displayed_concat t.p (k + 1) _).symm
        number := fun hpc => by cases hpc }
  · rw [heq] at hinv ⊢
    rw [enrol_rejected hnot]
    exact
      { inv := hinv
        pc := rfl
        records := (displayed_update t.p (k + 1) q).symm
        number := fun hpc => by cases hpc }

theorem Agrees.setNumber (h : Agrees t r) (hpc : t.pc = .number) (n : Option Int) :
    ∃ r', rosterStep r (.number n) = some r' ∧ Agrees (t.setNumber n) r' := by
  have hpc' : r.pc = .number := h.pc.trans hpc
  have hinv := inv_setNumber hpc n
  have hrecords : r.records = [] := by
    rw [h.records]
    simp only [complete, hpc]
    rfl
  cases n with
  | none => exact ⟨r, by simp only [rosterStep, hpc'], h⟩
  | some n =>
      by_cases hrange : n ≤ 0 ∨ n > 100
      · refine ⟨r, by simp only [rosterStep, hpc', if_pos hrange], ?_⟩
        rw [Sys.setNumber, if_pos hrange]
        exact h
      · refine ⟨_, by simp only [rosterStep, hpc', if_neg hrange]; rfl, ?_⟩
        rw [Sys.setNumber, if_neg hrange] at hinv ⊢
        exact
          { inv := hinv
            pc := rfl
            records := hrecords
            number := fun _ => rfl }

/-- The other options come back to the menu. -/
theorem choose_of_ne {options : Option Int} (t : Sys) (r : Roster) (hadd : options ≠ some 2)
    (hfind : options ≠ some 6) (hexit : options ≠ some 8) :
    t.choose options = t ∧ r.choose options = r := by
  constructor
  · unfold Sys.choose
    split
    · contradiction
    · contradiction
    · contradiction
    · rfl
  · unfold Roster.choose
    split
    · contradiction
    · contradiction
    · contradiction
    · rfl

theorem Agrees.choose (h : Agrees t r) (hpc : t.pc = .menu) (options : Option Int) :
    ∃ r', rosterStep r (.option options) = some r' ∧ Agrees (t.choose options) r' := by
  have hpc' : r.pc = .menu := h.pc.trans hpc
  have hinv := inv_choose h.inv hpc options
  have hrecords : r.records = displayed t.p t.numberOfstudents := by
    rw [h.records]
    simp only [complete, hpc]
  refine ⟨r.choose options, by simp only [rosterStep, hpc'], ?_⟩
  by_cases hadd : options = some 2
  · subst hadd
    exact
      { inv := hinv
        pc := rfl
        records := hrecords
        number := fun hpc => by cases hpc }
  · by_cases hfind : options = some 6
    · subst hfind
      exact
        { inv := hinv
          pc := rfl
          records := hrecords
          number := fun hpc => by cases hpc }
    · by_cases hexit : options = some 8
      · subst hexit
        exact
          { inv := hinv
            pc := rfl
            records := hrecords
            number := fun hpc => by cases hpc }
      · have ⟨ht, hr⟩ := choose_of_ne t r hadd hfind hexit
        rw [ht, hr]
        exact h

theorem Agrees.find (h : Agrees t r) (hpc : t.pc = .finding) {op : Int}
    {searchname : Option Bytes} (hok : InputOk t (.find op searchname)) :
    ∃ r', rosterStep r (.find op searchname) = some r' ∧ Agrees (t.find op searchname) r' := by
  have hpc' : r.pc = .finding := h.pc.trans hpc
  have hshort : op = 2 → overflows searchname = false := by simpa only [InputOk, hpc] using hok
  have hinv := inv_find h.inv hpc hshort
  have hfits : ¬ (op = 2 ∧ overflows searchname = true) := by
    intro hlong
    rw [hshort hlong.1] at hlong
    exact Bool.false_ne_true hlong.2
  refine ⟨{ r with pc := .menu }, by simp only [rosterStep, hpc'], ?_⟩
  rw [Sys.find, if_neg hfits] at hinv ⊢
  exact
    { inv := hinv
      pc := rfl
      records := by
        show r.records = _
        rw [h.records]
        simp only [complete, hpc]
      number := fun hpc => by cases hpc }

/-- **One prompt.**  The program and the roster take any input that answers it. -/
theorem Agrees.next {a : Act} (h : Agrees t r) (hok : RosterOk t a) :
    ∃ t' r', step t a = some t' ∧ rosterStep r a = some r' ∧ Agrees t' r' := by
  have ⟨hsome, hinput, hname⟩ := hok
  have ⟨t', hs⟩ := Option.isSome_iff_exists.mp hsome
  suffices hnext : ∃ r', rosterStep r a = some r' ∧ Agrees t' r' by
    have ⟨r', hroster, hagrees⟩ := hnext
    exact ⟨t', r', hs, hroster, hagrees⟩
  unfold StudentMenu.step at hs
  split at hs
  · rename_i n hpc
    cases hs
    exact h.setNumber hpc n
  · rename_i input hpc
    cases hs
    exact h.entering hpc hinput hname
  · rename_i options hpc
    cases hs
    exact h.choose hpc options
  · rename_i input hpc
    cases hs
    exact h.adding hpc hinput hname
  · rename_i op searchname hpc
    cases hs
    exact h.find hpc hinput
  · cases hs

/-! ## What the menu reports -/

/-- The students of a roster are complete, and told apart by roll number and by name. -/
structure Distinct (records : List Student) : Prop where
  passed : ∀ e ∈ records, Passed e
  rolls : (records.map Student.roll).Nodup
  names : (records.map Student.name).Nodup

theorem nodup_map_displayed {β : Type*} {key : Student → β} {p : Nat → Student} {n : Nat}
    (h : ∀ j < n, ∀ k < n, j ≠ k → key (p j) ≠ key (p k)) : ((displayed p n).map key).Nodup := by
  rw [displayed, List.map_map]
  refine List.Nodup.map_on (fun i hi j hj heq => ?_) List.nodup_range
  by_contra hne
  exact h i (List.mem_range.mp hi) j (List.mem_range.mp hj) hne heq

theorem distinct_displayed {p : Nat → Student} {n : Nat} (h : Valid p n) :
    Distinct (displayed p n) where
  passed e he := by
    have ⟨i, hi, heq⟩ := mem_displayed.mp he
    exact heq ▸ h.passed i hi
  rolls := nodup_map_displayed h.rolls
  names := nodup_map_displayed h.names

/-- What a search by a key finds. -/
theorem find?_eq_some_iff {β : Type*} [BEq β] [LawfulBEq β] {key : Student → β}
    {records : List Student} (hnodup : (records.map key).Nodup) (b : β) (e : Student) :
    records.find? (fun e => key e == b) = some e ↔ e ∈ records ∧ key e = b := by
  constructor
  · intro h
    have hkey := List.find?_some h
    exact ⟨List.mem_of_find?_eq_some h, beq_iff_eq.mp hkey⟩
  · intro ⟨hmem, hkey⟩
    cases hfound : records.find? (fun e => key e == b) with
    | none =>
        have hnot := List.find?_eq_none.mp hfound e hmem
        exact absurd (beq_iff_eq.mpr hkey) hnot
    | some e' =>
        have hbeq := List.find?_some hfound
        have hkey' : key e' = b := beq_iff_eq.mp hbeq
        have hmem' := List.mem_of_find?_eq_some hfound
        rw [List.inj_on_of_nodup_map hnodup hmem' hmem (hkey'.trans hkey.symm)]

/-- The averages of valid records lie between the bounds of their marks. -/
theorem Passed.avg_bounds {e : Student} (h : Passed e) : 0 < e.avg ∧ e.avg ≤ 101 := by
  have havg := h.avg
  rw [h.sum] at havg
  have ⟨h1, h1'⟩ := h.subject1
  have ⟨h2, h2'⟩ := h.subject2
  have ⟨h3, h3'⟩ := h.subject3
  constructor <;> linarith

theorem total_bounds {records : List Student} (h : ∀ e ∈ records, Passed e) :
    0 ≤ (records.map Student.avg).sum ∧
      (records.map Student.avg).sum ≤ 101 * records.length := by
  induction records with
  | nil => simp
  | cons e records ih =>
      have ⟨hlow, hhigh⟩ := ih (fun e he => h e (List.mem_cons_of_mem _ he))
      have ⟨hpos, hle⟩ := Passed.avg_bounds (h e List.mem_cons_self)
      simp only [List.map_cons, List.sum_cons, List.length_cons, Nat.cast_succ]
      constructor <;> linarith

/-- The average of the class is a mark. -/
theorem average_bounds {records : List Student} (hne : records ≠ [])
    (h : ∀ e ∈ records, Passed e) :
    0 < (records.map Student.avg).sum / records.length ∧
      (records.map Student.avg).sum / records.length ≤ 101 := by
  cases records with
  | nil => contradiction
  | cons e records =>
      have ⟨hlow, _⟩ := total_bounds (fun e he => h e (List.mem_cons_of_mem _ he))
      have hhigh := (total_bounds h).2
      have hpos := (Passed.avg_bounds (h e List.mem_cons_self)).1
      have hlen : (0 : ℚ) < ((e :: records).length : ℚ) :=
        Nat.cast_pos.mpr (Nat.succ_pos _)
      have hsum : 0 < ((e :: records).map Student.avg).sum := by
        rw [List.map_cons, List.sum_cons]
        linarith
      exact ⟨div_pos hsum hlen, (div_le_iff₀ hlen).mpr hhigh⟩

/-- The passes of a roster. -/
def passes (records : List Student) : Nat := records.countP (fun e => e.sum > 150)

/-- What the options of the menu report on `n` records is what there is to say of the list. -/
structure Reports (p : Nat → Student) (n : Nat) (records : List Student) : Prop where
  details : displayed p n = records
  byRoll : ∀ searchroll e,
    findStudentByRoll p n searchroll = some e ↔ e ∈ records ∧ e.roll = searchroll
  byName : ∀ searchname e,
    findStudentByName p n searchname = some e ↔ e ∈ records ∧ e.name = searchname
  passed : numberOfStudentsPassed p n = passes records
  percentage : passPercentage p n = (passes records : ℚ) / records.length * 100
  percentage_bounds : 0 ≤ passPercentage p n ∧ passPercentage p n ≤ 100
  average : classaverage p n = (records.map Student.avg).sum / records.length
  average_bounds : 0 < classaverage p n ∧ classaverage p n ≤ 101

theorem reports_displayed {p : Nat → Student} {n : Nat} (hpos : 1 ≤ n) (h : Valid p n) :
    Reports p n (displayed p n) := by
  have hdistinct := distinct_displayed h
  have hlength := displayed_length p n
  have hne : displayed p n ≠ [] := displayed_ne_nil hpos
  have hn : (0 : ℚ) < n := Nat.cast_pos.mpr hpos
  have hcount : countLoop p n = passes (displayed p n) := countLoop_eq p n
  have hle : passes (displayed p n) ≤ n := List.countP_le_length.trans_eq hlength
  have hpercentage : passPercentage p n = (passes (displayed p n) : ℚ) / n * 100 := by
    rw [passPercentage, hcount]
  have haverage :
      classaverage p n = ((displayed p n).map Student.avg).sum / (displayed p n).length := by
    rw [classaverage, totalLoop_eq, hlength]
  have hratio : (passes (displayed p n) : ℚ) / n ≤ 1 := by
    rw [div_le_iff₀ hn, one_mul]
    exact Nat.cast_le.mpr hle
  have hnonneg : (0 : ℚ) ≤ (passes (displayed p n) : ℚ) / n :=
    div_nonneg (Nat.cast_nonneg _) hn.le
  exact
    { details := rfl
      byRoll := fun searchroll e => by
        rw [findStudentByRoll, find_eq]
        exact find?_eq_some_iff hdistinct.rolls searchroll e
      byName := fun searchname e => by
        rw [findStudentByName, find_eq]
        exact find?_eq_some_iff hdistinct.names searchname e
      passed := hcount
      percentage := by rw [hpercentage, hlength]
      percentage_bounds := by
        rw [hpercentage]
        constructor <;> linarith
      average := haverage
      average_bounds := haverage ▸ average_bounds hne hdistinct.passed }

/-- **The program keeps a roster**: in a run that leads to no invalid record it has its prompts,
and whenever the menu is displayed its array is the list, whose students are complete and told
apart, and all reports are those of the list. -/
theorem menu_refines_roster {memory : Nat → Student} {as : List Act}
    (hok : Admitted step RosterOk (Sys.init memory) as) :
    ∃ t r, run step (Sys.init memory) as = some t ∧ run rosterStep Roster.start as = some r ∧
      t.pc = r.pc ∧ t.pc ≠ .undefined ∧
      (t.pc = .menu →
        r.records ≠ [] ∧ Distinct r.records ∧ Reports t.p t.numberOfstudents r.records) := by
  have hsim : ∀ t r a, Agrees t r → RosterOk t a →
      ∃ t' r', step t a = some t' ∧ rosterStep r a = some r' ∧ Agrees t' r' :=
    fun _ _ _ hagrees hinput => hagrees.next hinput
  have ⟨t, r, hrun, hroster, hagrees⟩ := run_simulates hsim (agrees_init memory) hok
  have ⟨hdefined, hvalid⟩ := hagrees.inv.menuValid
  refine ⟨t, r, hrun, hroster, hagrees.pc.symm, hdefined, fun hpc => ?_⟩
  have hpos : 1 ≤ t.numberOfstudents := by
    have hinv := hagrees.inv
    simp only [StudentMenu.Inv, hpc] at hinv
    exact hinv.1
  have hrecords : r.records = displayed t.p t.numberOfstudents := by
    rw [hagrees.records]
    simp only [complete, hpc]
  rw [hrecords]
  exact ⟨displayed_ne_nil hpos, distinct_displayed (hvalid hpc),
    reports_displayed hpos (hvalid hpc)⟩

/-- Two students at the start, the second one after an attempt with the first one's roll number;
then one whose name is taken, and one who is added. -/
def classOfThree : List Act :=
  [.number (some 2), .entry ⟨some 1, some [97], some 50, some 60, some 70⟩,
    .entry ⟨some 1, some [98], some 50, some 50, some 40⟩,
    .entry ⟨some 2, some [98], some 50, some 50, some 40⟩,
    .option (some 2), .entry ⟨some 3, some [97], some 90, some 90, some 90⟩,
    .option (some 2), .entry ⟨some 3, some [99], some 90, some 90, some 90⟩]

theorem menu_refines_roster_classOfThree :
    ∃ t, run step (Sys.init zeros) classOfThree = some t ∧ t.pc = .menu ∧
      numberOfStudentsPassed t.p t.numberOfstudents = 2 ∧
      findStudentByRoll t.p t.numberOfstudents 3 = some ⟨3, [99], 90, 90, 90, 270, 90⟩ := by
  have hsome : ((run (guarded step RosterOk) (Sys.init zeros) classOfThree).map
      (fun t => t.pc)) = some .menu := by decide +kernel
  have ⟨t', hguarded, _⟩ := Option.map_eq_some_iff.mp hsome
  have ⟨t, r, hrun, hroster, hpc, _, hmenu⟩ := menu_refines_roster (.of_guarded hguarded)
  have hlist : (run rosterStep Roster.start classOfThree).map (fun r => (r.pc, r.records)) =
      some (.menu, [⟨1, [97], 50, 60, 70, 180, 60⟩, ⟨2, [98], 50, 50, 40, 140, 140 / 3⟩,
        ⟨3, [99], 90, 90, 90, 270, 90⟩]) := by decide +kernel
  rw [hroster, Option.map_some] at hlist
  have ⟨hpc', hrecords⟩ := Prod.mk.inj (Option.some.inj hlist)
  have hatMenu : t.pc = .menu := hpc.trans hpc'
  have ⟨_, _, hreports⟩ := hmenu hatMenu
  rw [hrecords] at hreports
  refine ⟨t, hrun, hatMenu, ?_, ?_⟩
  · rw [hreports.passed]
    decide +kernel
  · rw [hreports.byRoll]
    exact ⟨by simp, rfl⟩

end SystemsInC.Ports.StudentRoster
