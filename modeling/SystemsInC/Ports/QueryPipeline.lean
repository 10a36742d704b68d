import SystemsInC.Verified.GuardedRuns
import SystemsInC.Verified.MachineInt
import SystemsInC.Verified.PullIterator
import SystemsInC.Verified.TextInput

/-!
# A query pipeline over a table

`qee.c` scans a table, filters its rows and prints two columns of them.  The three
layers share one cursor, `rowindex`, and pull from one another: `filtnext` is a `seek`
over `scannext` and `projnext` a `drain` over `filtnext`.

In a state with `Left` the rows behind the cursor are still to come.  So the scan
yields them, the filter yields the matching ones among them, and any number of
`filtnext` calls followed by a `projnext` splits the matching rows in two.
-/

namespace SystemsInC.Ports.QueryPipeline

open SystemsInC.Verified.CString
open SystemsInC.Verified.TextInput
open SystemsInC.Verified.GuardedRuns
open SystemsInC.Verified.MachineInt
open SystemsInC.Verified.PullIterator

structure Record where
  id : Int
  studentname : Bytes
  subject : Bytes
  score : Int
  deriving DecidableEq

/-- `records`; the number of its rows is an `int`. -/
structure Table where
  rows : List Record
  isInt : IsInt rows.length

/-- The table of the source. -/
def records : Table :=
  { rows :=
      [ ⟨101, ascii "abc", ascii "math", 90⟩
      , ⟨102, ascii "def", ascii "math", 70⟩
      , ⟨103, ascii "ghi", ascii "math", 65⟩
      , ⟨104, ascii "jkl", ascii "math", 84⟩
      , ⟨105, ascii "mno", ascii "math", 20⟩
      , ⟨106, ascii "xyz", ascii "math", 100⟩ ]
    isInt := by decide }

def Table.maxrows (t : Table) : Int := t.rows.length

/-- What the program prints. -/
inductive Line
  | text (s : String)
  | student (studentname : Bytes) (score : Int)
  deriving DecidableEq

structure Sys where
  rowindex : Int
  printed : List Line
  deriving DecidableEq

def Sys.init : Sys := ⟨0, []⟩

def Sys.print (s : Sys) (line : Line) : Sys := { s with printed := s.printed ++ [line] }

/-! ## The layers -/

def scanopen (s : Sys) : Sys := { s with rowindex := 0 }.print (.text "scan opened...")

/-- `records[i]`. -/
def Table.row (t : Table) (i : Int) : Option Record := if 0 ≤ i then t.rows[i.toNat]? else none

def scannext (t : Table) : Next Sys Record := fun s =>
  if s.rowindex ≥ t.maxrows then
    some (none, s)
  else do
    let r ← t.row s.rowindex
    let next ← int (s.rowindex + 1)
    return (some r, { s with rowindex := next })

def scanclose (s : Sys) : Sys := { s with rowindex := 0 }.print (.text "scan closed.")

def filtopen (s : Sys) : Sys := (scanopen s).print (.text "filter opened...")

/-- The test of `filtnext`. -/
def matching (r : Record) : Bool :=
  decide (r.score > 70) && decide (strcmpEq r.subject (ascii "math"))

def filtnext (t : Table) : Next Sys Record := seek matching (scannext t) (t.rows.length + 1)

def filtclose (s : Sys) : Sys := (scanclose s).print (.text "filter closed.")

def projopen (s : Sys) : Sys := (filtopen s).print (.text "projection opened...")

/-- `printf("student: %s   score: %d\n", …)`. -/
def student (r : Record) : Line := .student (cstr r.studentname) r.score

def projnext (t : Table) (s : Sys) : Option Sys :=
  drain (fun r s => s.print (student r)) (filtnext t) (t.rows.length + 1) s

def projclose (s : Sys) : Sys := (filtclose s).print (.text "projection closed.")

/-- A call of one of the functions. -/
inductive Call
  | scanopen
  | scannext
  | scanclose
  | filtopen
  | filtnext
  | filtclose
  | projopen
  | projnext
  | projclose
  deriving DecidableEq

def step (t : Table) (s : Sys) : Call → Option Sys
  | .scanopen => some (scanopen s)
  | .scannext => (scannext t s).map Prod.snd
  | .scanclose => some (scanclose s)
  | .filtopen => some (filtopen s)
  | .filtnext => (filtnext t s).map Prod.snd
  | .filtclose => some (filtclose s)
  | .projopen => some (projopen s)
  | .projnext => projnext t s
  | .projclose => some (projclose s)

/-! ## What is left -/

variable {t : Table} {s : Sys}

/-- The rows `xs` are behind the cursor, and `p` has been printed. -/
def Left (t : Table) (p : List Line) (s : Sys) (xs : List Record) : Prop :=
  s.printed = p ∧ ∃ k : Nat, s.rowindex = k ∧ k ≤ t.rows.length ∧ xs = t.rows.drop k

/-- The matching rows `ys` are behind the cursor. -/
def LeftMatching (t : Table) (p : List Line) : Sys → List Record → Prop :=
  Kept matching (Left t p) (t.rows.length + 1)

theorem Left.start (t : Table) (p : List Line) : Left t p ⟨0, p⟩ t.rows :=
  ⟨rfl, 0, rfl, Nat.zero_le _, rfl⟩

theorem Left.length_le {p : List Line} {xs : List Record} (h : Left t p s xs) :
    xs.length ≤ t.rows.length := by
  have ⟨_, k, _, hk, hxs⟩ := h
  rw [hxs, List.length_drop]
  omega

theorem Left.print {p : List Line} {xs : List Record} (h : Left t p s xs) (line : Line) :
    Left t (p ++ [line]) (s.print line) xs := by
  have ⟨hprinted, hcursor⟩ := h
  exact ⟨by rw [Sys.print, hprinted], hcursor⟩

theorem LeftMatching.print {p : List Line} {ys : List Record} (h : LeftMatching t p s ys)
    (line : Line) : LeftMatching t (p ++ [line]) (s.print line) ys := by
  have ⟨xs, hleft, hkept⟩ := h
  exact ⟨xs, hleft.print line, hkept⟩

theorem Left.leftMatching {p : List Line} {xs : List Record} (h : Left t p s xs) :
    LeftMatching t p s (xs.filter matching) :=
  ⟨xs, h, by
    have hle := h.length_le
    omega, rfl⟩

/-- A scan yields the rows behind the cursor. -/
theorem scannext_yields (t : Table) (p : List Line) : Yields (scannext t) (Left t p) where
  item s r xs h := by
    have ⟨hprinted, k, hcursor, hk, hxs⟩ := h
    have hlt : k < t.rows.length := by
      by_contra hge
      rw [List.drop_eq_nil_iff.mpr (by omega)] at hxs
      cases hxs
    have hmax := t.isInt
    have hdrop : t.rows[k]? = some r ∧ xs = t.rows.drop (k + 1) := by
      rw [List.drop_eq_getElem_cons hlt, List.cons.injEq] at hxs
      exact ⟨by rw [List.getElem?_eq_getElem hlt, hxs.1], hxs.2⟩
    have hrow : t.row s.rowindex = some r := by
      rw [Table.row, hcursor, if_pos (by omega), Int.toNat_natCast]
      exact hdrop.1
    have hint : int (s.rowindex + 1) = some ((k + 1 : Nat) : Int) := by
      rw [hcursor, int_eq_some (by unfold IsInt at hmax ⊢; omega)]
      rfl
    refine ⟨{ s with rowindex := (k + 1 : Nat) }, ?_, hprinted, k + 1, rfl, hlt, hdrop.2⟩
    have hlow : ¬ s.rowindex ≥ t.maxrows := by
      rw [hcursor, Table.maxrows]
      omega
    rw [scannext, if_neg hlow, hrow, hint]
    rfl
  null s h := by
    have ⟨hprinted, k, hcursor, hk, hxs⟩ := h
    have hend : t.rows.length ≤ k := List.drop_eq_nil_iff.mp hxs.symm
    have hhigh : s.rowindex ≥ t.maxrows := by
      rw [hcursor, Table.maxrows]
      omega
    exact ⟨s, by rw [scannext, if_pos hhigh], h⟩

/-- The filter yields the matching ones among them. -/
theorem filtnext_yields (t : Table) (p : List Line) : Yields (filtnext t) (LeftMatching t p) :=
  (scannext_yields t p).seek matching (t.rows.length + 1)

/-- `projnext` prints the matching rows that are left. -/
theorem projnext_prints {p : List Line} {ys : List Record} (h : LeftMatching t p s ys) :
    ∃ s', projnext t s = some s' ∧ LeftMatching t (p ++ ys.map student) s' [] := by
  have ⟨xs, hleft, hlen, hys⟩ := h
  have hfuel : ys.length < t.rows.length + 1 := by
    have hfilter := List.length_filter_le matching xs
    rw [hys]
    omega
  exact Yields.drain (filtnext_yields t) (fun r s => s.print (student r)) student
    (fun p s r ys h => h.print (student r)) h hfuel

/-! ## Calls in any order -/

/-- The cursor is at a row or behind the last one. -/
def AtRow (t : Table) (s : Sys) : Prop := ∃ xs, Left t s.printed s xs

theorem atRow_start (t : Table) (p : List Line) : AtRow t ⟨0, p⟩ := ⟨t.rows, .start t p⟩

theorem LeftMatching.atRow {p : List Line} {ys : List Record} (h : LeftMatching t p s ys) :
    AtRow t s := by
  have ⟨xs, hleft, _⟩ := h
  exact ⟨xs, hleft.1 ▸ hleft⟩

theorem AtRow.leftMatching (h : AtRow t s) : ∃ ys, LeftMatching t s.printed s ys := by
  have ⟨xs, hleft⟩ := h
  exact ⟨_, hleft.leftMatching⟩

/-- An iterator that yields what is left has an answer to every call. -/
theorem next_atRow {next : Next Sys Record} {R : List Line → Sys → List Record → Prop}
    (hyields : ∀ p, Yields next (R p)) (hrow : ∀ p s xs, R p s xs → AtRow t s) {xs : List Record}
    (hR : R s.printed s xs) : ∃ s', (next s).map Prod.snd = some s' ∧ AtRow t s' := by
  cases xs with
  | nil =>
      have ⟨s', hnext, hR'⟩ := (hyields s.printed).null s hR
      exact ⟨s', by rw [hnext]; rfl, hrow _ _ _ hR'⟩
  | cons x xs =>
      have ⟨s', hnext, hR'⟩ := (hyields s.printed).item s x xs hR
      exact ⟨s', by rw [hnext]; rfl, hrow _ _ _ hR'⟩

/-- Every call has a result, and no call takes the cursor out of the table. -/
theorem step_atRow (h : AtRow t s) (c : Call) : ∃ s', step t s c = some s' ∧ AtRow t s' := by
  cases c with
  | scanopen => exact ⟨_, rfl, atRow_start t _⟩
  | scannext =>
      have ⟨xs, hleft⟩ := h
      exact next_atRow (scannext_yields t) (fun p s xs h => ⟨xs, h.1 ▸ h⟩) hleft
  | scanclose => exact ⟨_, rfl, atRow_start t _⟩
  | filtopen => exact ⟨_, rfl, atRow_start t _⟩
  | filtnext =>
      have ⟨ys, hleft⟩ := h.leftMatching
      exact next_atRow (filtnext_yields t) (fun p s ys h => h.atRow) hleft
  | filtclose => exact ⟨_, rfl, atRow_start t _⟩
  | projopen => exact ⟨_, rfl, atRow_start t _⟩
  | projnext =>
      have ⟨ys, hleft⟩ := h.leftMatching
      have ⟨s', hnext, hleft'⟩ := projnext_prints hleft
      exact ⟨s', hnext, hleft'.atRow⟩
  | projclose => exact ⟨_, rfl, atRow_start t _⟩

theorem run_atRow (h : AtRow t s) (cs : List Call) :
    ∃ s', run (step t) s cs = some s' ∧ AtRow t s' := by
  induction cs generalizing s with
  | nil => exact ⟨s, rfl, h⟩
  | cons c cs ih =>
      have ⟨s₁, hstep, h₁⟩ := step_atRow h c
      have ⟨s₂, hrun, h₂⟩ := ih h₁
      exact ⟨s₂, by rw [run, hstep]; exact hrun, h₂⟩

/-! ## The pipeline -/

/-- The matching rows of the table, in its order. -/
def Table.matching (t : Table) : List Record := t.rows.filter QueryPipeline.matching

-- A score of 70 does not match.
example : records.matching.map Record.id = [101, 104, 106] := by decide

/-- What `projopen(); projnext(); projclose();` prints. -/
def Table.session (t : Table) : List Line :=
  [.text "scan opened...", .text "filter opened...", .text "projection opened..."] ++
    t.matching.map student ++
    [.text "scan closed.", .text "filter closed.", .text "projection closed."]

/-- After an opening call the matching rows of the whole table are to come. -/
theorem filtopen_left (t : Table) (s : Sys) :
    LeftMatching t (filtopen s).printed (filtopen s) t.matching :=
  (Left.start t _).leftMatching

theorem projopen_left (t : Table) (s : Sys) :
    LeftMatching t (projopen s).printed (projopen s) t.matching :=
  (Left.start t _).leftMatching

/-- From a state with the matching rows to come, `filtnext` answers them one by one and then
NULL, and `projnext` after any number of such calls prints the others. -/
def ExactFilter (t : Table) (s : Sys) : Prop :=
  ∀ j, ∃ s₁, calls (filtnext t) j s = some ((List.range j).map (fun i => t.matching[i]?), s₁) ∧
    ∃ s₂, projnext t s₁ = some s₂ ∧
      s₂.printed = s.printed ++ (t.matching.drop j).map student ∧
      ∀ n, ∃ s₃, calls (filtnext t) n s₂ = some (List.replicate n none, s₃)

theorem exactFilter_of_left (h : LeftMatching t s.printed s t.matching) : ExactFilter t s := by
  intro j
  have ⟨s₁, hcalls, hleft₁⟩ := (filtnext_yields t s.printed).calls j h
  have ⟨s₂, hnext, hleft₂⟩ := projnext_prints hleft₁
  have ⟨_, hend, _⟩ := hleft₂
  refine ⟨s₁, hcalls, s₂, hnext, hend.1, fun n => ?_⟩
  have ⟨s₃, hnulls, _⟩ := (filtnext_yields t _).calls n hleft₂
  refine ⟨s₃, ?_⟩
  rw [hnulls]
  simp

/-- **The pipeline is an exact filter.**  Whatever has been called before, an open of the filter
or of the projection starts it from the first row, and a whole session prints the same. -/
theorem pipeline_exact (t : Table) (before : List Call) :
    ∃ s, run (step t) Sys.init before = some s ∧
      ExactFilter t (filtopen s) ∧ ExactFilter t (projopen s) ∧
        ∃ s', run (step t) s [.projopen, .projnext, .projclose] = some s' ∧
          s'.printed = s.printed ++ t.session := by
  have ⟨s, hrun, _⟩ := run_atRow (atRow_start t []) before
  have hopen := projopen_left t s
  have ⟨s₂, hnext, _, hleft, _⟩ := projnext_prints hopen
  refine ⟨s, hrun, exactFilter_of_left (filtopen_left t s), exactFilter_of_left hopen,
    projclose s₂, ?_, ?_⟩
  · simp only [run, step, Option.bind_some, hnext]
  · have hprinted : s₂.printed = (projopen s).printed ++ t.matching.map student := hleft.1
    simp only [projclose, filtclose, scanclose, Sys.print, hprinted, projopen, filtopen,
      scanopen, Table.session, List.append_assoc, List.cons_append, List.nil_append]

end SystemsInC.Ports.QueryPipeline
