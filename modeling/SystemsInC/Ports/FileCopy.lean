import SystemsInC.Verified.BufferedCopy
import SystemsInC.Verified.CString
import SystemsInC.Verified.GuardedRuns

/-!
# A copy with `read_all` and `write_all`

The copy loop of `file-copy.c`, one step for each answer of the kernel to a `read`
or a `write`.  `read_all` collects until its block is full or the file ends,
`write_all` writes until its block is used up, and both go on after `EINTR`.

The loop is a `BufferedCopy`: the part of the block between `p` and its end is what
the buffer holds.  Every answer fills it or drains it, and none forgets anything
before the loop ends.
-/

namespace SystemsInC.Ports.FileCopy

open SystemsInC.Verified.CString
open SystemsInC.Verified.GuardedRuns
open SystemsInC.Verified.BufferedCopy

/-- `sizeof(buf)`. -/
def bufSize : Nat := 4096

/-- Where the program is when it calls the kernel. -/
inductive Pc
  /-- in `read_all`, which has put `buf` before `p` -/
  | readAll (buf : Bytes)
  /-- in `write_all` with a block of `count` bytes, of which `rest` begins at `p` -/
  | writeAll (count : Int) (rest : Bytes)
  /-- behind the copy loop -/
  | verification
  | exited (status : Int)
  deriving DecidableEq

structure Sys where
  /-- the source file from its offset on -/
  unread : Bytes
  dest : Bytes
  errno : Nat
  /-- the prefix and the error that `perror` has printed -/
  report : Option (String × Nat)
  pc : Pc

def Sys.init (source : Bytes) : Sys :=
  { unread := source
    dest := []
    errno := 0
    report := none
    pc := .readAll [] }

/-! ## The steps -/

/-- `perror`, then `return 1`. -/
def Sys.fail (s : Sys) (what : String) : Sys :=
  { s with report := some (what, s.errno), pc := .exited 1 }

/-- `main` after `n = read_all(src_fd, buf, sizeof(buf))`. -/
def Sys.readReturns (s : Sys) (n : Int) (buf : Bytes) : Sys :=
  if n > 0 then
    { s with pc := .writeAll n (buf.take n.toNat) }
  else if n < 0 then
    s.fail "read"
  else
    { s with pc := .verification }

/-- `main` after `write_all(dst_fd, buf, n)`. -/
def Sys.writeReturns (s : Sys) (n returned : Int) : Sys :=
  if returned ≠ n then s.fail "write" else { s with pc := .readAll [] }

/-- `read_all` with the answer to its `read`. -/
def readAll (s : Sys) (buf : Bytes) : Answer → Sys
  | .error errno =>
      if errno = EINTR then
        { s with errno := errno }
      else
        { s with errno := errno }.readReturns (-1) buf
  | .count n =>
      if n = 0 then
        s.readReturns buf.length buf
      else
        let buf' := buf ++ s.unread.take n
        let s' := { s with unread := s.unread.drop n }
        if buf'.length < bufSize then
          { s' with pc := .readAll buf' }
        else
          s'.readReturns buf'.length buf'

/-- `write_all` with the answer to its `write`. -/
def writeAll (s : Sys) (count : Int) (rest : Bytes) : Answer → Sys
  | .error errno =>
      if errno = EINTR then
        { s with errno := errno }
      else
        { s with errno := errno }.writeReturns count (-1)
  | .count n =>
      let s' := { s with dest := s.dest ++ rest.take n }
      if (rest.drop n).length > 0 then
        { s' with pc := .writeAll count (rest.drop n) }
      else
        s'.writeReturns count count

/-- The next answer of the kernel; `write` of a positive count never answers 0. -/
def step (s : Sys) (a : Answer) : Option Sys :=
  match s.pc with
  | .readAll buf =>
      if MayRead (bufSize - buf.length) s.unread a then some (readAll s buf a) else none
  | .writeAll count rest =>
      if MayWrite rest.length a ∧ a ≠ .count 0 then some (writeAll s count rest a) else none
  | .verification => none
  | .exited _ => none

/-! ## The loop as a copy -/

/-- The block from `p` on. -/
def Pc.pending : Pc → Bytes
  | .readAll buf => buf
  | .writeAll _ rest => rest
  | .verification => []
  | .exited _ => []

def Sys.copy (s : Sys) : Copy UInt8 := ⟨s.dest, s.pc.pending, s.unread⟩

/-- The loop has lost nothing, it keeps its block within bounds, and it ends at the end of the
file or with a report. -/
structure Copied (source : Bytes) (s : Sys) : Prop where
  whole : (∀ status, s.pc ≠ .exited status) → Copy.Whole source s.copy
  room : ∀ buf, s.pc = .readAll buf → buf.length < bufSize
  count_pos : ∀ count rest, s.pc = .writeAll count rest → 0 < count
  atEnd : s.pc = .verification → s.unread = []

variable {source : Bytes} {s s' : Sys} {a : Answer}

theorem Copied.init (source : Bytes) : Copied source (Sys.init source) where
  whole _ := .start source
  room buf hpc := by
    cases hpc
    show 0 < bufSize
    decide
  count_pos _ _ hpc := by cases hpc
  atEnd hpc := by cases hpc

/-- `main` after a block that `read_all` has filled without an error. -/
theorem Copied.readReturns {buf : Bytes} (hwhole : Copy.Whole source ⟨s.dest, buf, s.unread⟩)
    (hend : buf = [] → s.unread = []) : Copied source (s.readReturns buf.length buf) := by
  by_cases hbuf : buf = []
  · subst hbuf
    exact
      { whole := fun _ => hwhole
        room := fun _ hpc => by cases hpc
        count_pos := fun _ _ hpc => by cases hpc
        atEnd := fun _ => hend rfl }
  · have hpos := List.length_pos_iff.mpr hbuf
    have hnext : s.readReturns buf.length buf = { s with pc := .writeAll buf.length buf } := by
      rw [Sys.readReturns, if_pos (by omega), Int.toNat_natCast, List.take_length]
    rw [hnext]
    exact
      { whole := fun _ => hwhole
        room := fun _ hpc => by cases hpc
        count_pos := fun _ _ hpc => by
          cases hpc
          omega
        atEnd := fun hpc => by cases hpc }

theorem Copied.fail (what : String) : Copied source (s.fail what) where
  whole h := absurd rfl (h 1)
  room _ hpc := by cases hpc
  count_pos _ _ hpc := by cases hpc
  atEnd hpc := by cases hpc

/-- `read_all` fills the block. -/
theorem Copied.readAll {buf : Bytes} (h : Copied source s) (hpc : s.pc = .readAll buf)
    (hmay : MayRead (bufSize - buf.length) s.unread a) : Copied source (readAll s buf a) := by
  have hwhole := h.whole (by simp [hpc])
  have hcopy : s.copy = ⟨s.dest, buf, s.unread⟩ := by rw [Sys.copy, hpc]; rfl
  rw [hcopy] at hwhole
  cases a with
  | error errno =>
      by_cases hintr : errno = EINTR
      · rw [FileCopy.readAll, if_pos hintr]
        exact ⟨h.whole, h.room, h.count_pos, h.atEnd⟩
      · rw [FileCopy.readAll, if_neg hintr]
        exact .fail "read"
  | count n =>
      by_cases hn : n = 0
      · subst hn
        rw [FileCopy.readAll, if_pos rfl]
        exact .readReturns hwhole (fun _ => List.length_eq_zero_iff.mp (hmay.2.2 rfl))
      · have hfilled := hwhole.fill n
        have htaken : (buf ++ s.unread.take n).length = buf.length + n := by
          have hle := hmay.2.1
          rw [List.length_append, List.length_take]
          omega
        simp only [FileCopy.readAll, if_neg hn]
        by_cases hroom : (buf ++ s.unread.take n).length < bufSize
        · rw [if_pos hroom]
          exact
            { whole := fun _ => hfilled
              room := fun buf' hpc' => by
                cases hpc'
                exact hroom
              count_pos := fun _ _ hpc' => by cases hpc'
              atEnd := fun hpc' => by cases hpc' }
        · rw [if_neg hroom]
          refine .readReturns hfilled (fun hbuf => ?_)
          rw [hbuf] at htaken
          simp only [List.length_nil] at htaken
          omega

/-- `write_all` drains the block. -/
theorem Copied.writeAll {count : Int} {rest : Bytes} (h : Copied source s)
    (hpc : s.pc = .writeAll count rest) : Copied source (writeAll s count rest a) := by
  have hwhole := h.whole (by simp [hpc])
  have hcopy : s.copy = ⟨s.dest, rest, s.unread⟩ := by rw [Sys.copy, hpc]; rfl
  rw [hcopy] at hwhole
  have hpos := h.count_pos count rest hpc
  cases a with
  | error errno =>
      by_cases hintr : errno = EINTR
      · rw [FileCopy.writeAll, if_pos hintr]
        exact ⟨h.whole, h.room, h.count_pos, h.atEnd⟩
      · rw [FileCopy.writeAll, if_neg hintr, Sys.writeReturns, if_pos (by omega)]
        exact .fail "write"
  | count n =>
      have hdrained := hwhole.drain n
      simp only [FileCopy.writeAll]
      by_cases hleft : (rest.drop n).length > 0
      · rw [if_pos hleft]
        exact
          { whole := fun _ => hdrained
            room := fun _ hpc' => by cases hpc'
            count_pos := fun count' _ hpc' => by
              cases hpc'
              exact hpos
            atEnd := fun hpc' => by cases hpc' }
      · have hempty : rest.drop n = [] := List.length_eq_zero_iff.mp (by omega)
        rw [if_neg hleft, Sys.writeReturns, if_neg (by simp)]
        exact
          { whole := fun _ => hdrained.discard hempty
            room := fun buf hpc' => by
              cases hpc'
              show 0 < bufSize
              decide
            count_pos := fun _ _ hpc' => by cases hpc'
            atEnd := fun hpc' => by cases hpc' }

theorem copied_step (h : Copied source s) (hs : step s a = some s') : Copied source s' := by
  unfold step at hs
  split at hs
  · rename_i buf hpc
    rw [Option.ite_none_right_eq_some] at hs
    exact Option.some.inj hs.2 ▸ h.readAll hpc hs.1
  · rename_i count rest hpc
    rw [Option.ite_none_right_eq_some] at hs
    exact Option.some.inj hs.2 ▸ h.writeAll hpc
  · cases hs
  · cases hs

/-! ## Errors -/

/-- The program has printed an error of a `read` or `write` and returned 1. -/
def Reported (errno : Nat) (s : Sys) : Prop :=
  s.pc = .exited 1 ∧ (s.report = some ("read", errno) ∨ s.report = some ("write", errno))

theorem reported_of_error {errno : Nat} (h : Copied source s) (hne : errno ≠ EINTR)
    (hs : step s (.error errno) = some s') : Reported errno s' := by
  unfold step at hs
  split at hs
  · rename_i buf hpc
    rw [Option.ite_none_right_eq_some] at hs
    have heq := Option.some.inj hs.2
    rw [FileCopy.readAll, if_neg hne] at heq
    exact heq ▸ ⟨rfl, .inl rfl⟩
  · rename_i count rest hpc
    have hpos := h.count_pos count rest hpc
    rw [Option.ite_none_right_eq_some] at hs
    have heq := Option.some.inj hs.2
    rw [FileCopy.writeAll, if_neg hne, Sys.writeReturns, if_pos (by omega)] at heq
    exact heq ▸ ⟨rfl, .inr rfl⟩
  · cases hs
  · cases hs

/-- Behind the loop and after `return` there is no call that an answer would answer. -/
theorem step_eq_none (hpc : s.pc = .verification ∨ s.pc = .exited 1) (a : Answer) :
    step s a = none := by
  rcases hpc with hpc | hpc <;> simp only [step, hpc]

/-! ## Runs -/

variable {answers : List Answer}

theorem copied_of_run (hrun : run step (Sys.init source) answers = some s) : Copied source s :=
  (Reach.of_run hrun).keeps (.init source) (fun _ _ _ h _ hs => copied_step h hs)

/-- After an error that `EINTR` does not explain the program has ended. -/
theorem reported_of_run {errno : Nat} (h : Copied source s) (hne : errno ≠ EINTR)
    (hmem : .error errno ∈ answers) (hrun : run step s answers = some s') : Reported errno s' := by
  induction answers generalizing s with
  | nil => cases hmem
  | cons a answers ih =>
      have ⟨s₁, hs, hrest⟩ := Option.bind_eq_some_iff.mp hrun
      rcases List.mem_cons.mp hmem with rfl | hmem
      · have hreported := reported_of_error h hne hs
        cases answers with
        | nil =>
            cases hrest
            exact hreported
        | cons a answers =>
            rw [run, step_eq_none (.inr hreported.1)] at hrest
            cases hrest
      · exact ih (copied_step h hs) hmem hrest

/-- **The copy loop copies exactly.**  If it ends without a report, the destination is the
source; and an error other than `EINTR` ends the program with a report and status 1, on no
way through the verification. -/
theorem copy_exact (hrun : run step (Sys.init source) answers = some s) :
    (s.pc = .verification → s.dest = source) ∧
      ∀ errno, .error errno ∈ answers → errno ≠ EINTR →
        Reported errno s ∧ ∀ pre s₁, pre <+: answers →
          run step (Sys.init source) pre = some s₁ → s₁.pc ≠ .verification := by
  constructor
  · intro hpc
    have hcopied := copied_of_run hrun
    have hwhole := hcopied.whole (by simp [hpc])
    refine hwhole.copied_eq ?_ (hcopied.atEnd hpc)
    simp [Sys.copy, hpc, Pc.pending]
  · intro errno hmem hne
    have hreported := reported_of_run (.init source) hne hmem hrun
    refine ⟨hreported, ?_⟩
    rintro pre s₁ ⟨rest, rfl⟩ hrun₁ hpc
    rw [run_append, hrun₁, Option.bind_some] at hrun
    cases rest with
    | nil =>
        cases hrun
        rw [hreported.1] at hpc
        cases hpc
    | cons a rest =>
        rw [run, step_eq_none (.inl hpc)] at hrun
        cases hrun

/-- Three bytes in two pieces, with an interrupted call in each loop. -/
theorem copy_exact_threeBytes :
    ∃ s, run step (Sys.init [1, 2, 3]) [.count 2, .error EINTR, .count 1, .count 0, .count 1,
      .error EINTR, .count 2, .count 0] = some s ∧ s.pc = .verification ∧ s.dest = [1, 2, 3] := by
  have hrun : ∃ s, run step (Sys.init [1, 2, 3]) [.count 2, .error EINTR, .count 1, .count 0,
      .count 1, .error EINTR, .count 2, .count 0] = some s ∧ s.pc = .verification :=
    ⟨_, rfl, rfl⟩
  have ⟨s, hs, hpc⟩ := hrun
  exact ⟨s, hs, hpc, (copy_exact hs).1 hpc⟩

end SystemsInC.Ports.FileCopy
