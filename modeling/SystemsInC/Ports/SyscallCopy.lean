import SystemsInC.Verified.BufferedCopy
import SystemsInC.Verified.CString
import SystemsInC.Verified.GuardedRuns

/-!
# A copy with one `write` for each `read`

The program `fille-copy-syscalls.c` from its loop on, one step for each answer of the
kernel.  It adds up what `write` answers but does not look whether that is the
whole block: the rest of a block whose `write` was short is overwritten by the
next `read`, and the program still ends with status 0.
-/

namespace SystemsInC.Ports.SyscallCopy

open SystemsInC.Verified.CString
open SystemsInC.Verified.GuardedRuns
open SystemsInC.Verified.BufferedCopy

/-- `BUF_SIZE`. -/
def bufSize : Nat := 1024

/-- The call that the program makes next. -/
inductive Pc
  /-- the `read` of the loop -/
  | reading
  /-- the `write` of the first `bytes_read` bytes of `buffer` -/
  | writing (block : Bytes)
  | closingSrc
  | closingDest
  | exited (status : Int)
  deriving DecidableEq

structure Sys where
  /-- the source file from its offset on -/
  unread : Bytes
  dest : Bytes
  totalRead : Int
  totalWritten : Int
  /-- the prefix and the error that `perror` has printed -/
  report : Option (String × Nat)
  /-- what the program has written to its standard output -/
  message : Option String
  pc : Pc

def Sys.init (source : Bytes) : Sys :=
  { unread := source
    dest := []
    totalRead := 0
    totalWritten := 0
    report := none
    message := none
    pc := .reading }

/-- `perror`, then `exit(EXIT_FAILURE)`. -/
def Sys.fail (s : Sys) (what : String) (errno : Nat) : Sys :=
  { s with report := some (what, errno), pc := .exited 1 }

/-- The text that `snprintf` makes of the totals. -/
def totals (totalRead totalWritten : Int) : String :=
  "Total bytes read: " ++ toString totalRead ++ "\nTotal bytes written: " ++
    toString totalWritten ++ "\n"

def readBlock (s : Sys) : Answer → Sys
  | .error errno => s.fail "Error reading source file" errno
  | .count n =>
      if n > 0 then
        { s with
          totalRead := s.totalRead + n
          unread := s.unread.drop n
          pc := .writing (s.unread.take n) }
      else
        { s with pc := .closingSrc }

def writeBlock (s : Sys) (block : Bytes) : Answer → Sys
  | .error errno => s.fail "Error writing to destination file" errno
  | .count n =>
      { s with
        dest := s.dest ++ block.take n
        totalWritten := s.totalWritten + n
        pc := .reading }

def closeSrc (s : Sys) : Answer → Sys
  | .error errno => s.fail "Error closing source file" errno
  | .count _ => { s with pc := .closingDest }

/-- The last `close`, and the report of a program that ends well. -/
def closeDest (s : Sys) : Answer → Sys
  | .error errno => s.fail "Error closing destination file" errno
  | .count _ =>
      { s with
        message := some (totals s.totalRead s.totalWritten)
        pc := .exited 0 }

/-- The next answer of the kernel. -/
def step (s : Sys) (a : Answer) : Option Sys :=
  match s.pc with
  | .reading => if MayRead bufSize s.unread a then some (readBlock s a) else none
  | .writing block => if MayWrite block.length a then some (writeBlock s block a) else none
  | .closingSrc => if MayWrite 0 a then some (closeSrc s a) else none
  | .closingDest => if MayWrite 0 a then some (closeDest s a) else none
  | .exited _ => none

/-- The answer is not a count below the size of the block to write. -/
def NotShort (s : Sys) (a : Answer) : Prop :=
  ∀ block, s.pc = .writing block → ∀ n, a = .count n → block.length ≤ n

/-! ## The program as a copy -/

/-- What the buffer holds for the next `write`. -/
def Pc.pending : Pc → Bytes
  | .writing block => block
  | .reading | .closingSrc | .closingDest | .exited _ => []

def Sys.copy (s : Sys) : Copy UInt8 := ⟨s.dest, s.pc.pending, s.unread⟩

/-- Behind the loop the source has been read to its end. -/
def AtEnd (s : Sys) : Prop :=
  s.pc = .closingSrc ∨ s.pc = .closingDest ∨ s.pc = .exited 0 → s.unread = []

/-- Nothing is lost, unless the program has reported an error. -/
def Exact (source : Bytes) (s : Sys) : Prop :=
  s.pc = .exited 1 ∨ s.copy.Whole source

variable {source : Bytes} {s s' : Sys} {a : Answer}

/-- The steps, one case for each call and kind of answer. -/
inductive Move (s : Sys) : Answer → Sys → Prop
  | fail (what : String) (errno : Nat) : Move s (.error errno) (s.fail what errno)
  | read (n : Nat) (hpc : s.pc = .reading) :
      Move s (.count n) { s with
        totalRead := s.totalRead + n
        unread := s.unread.drop n
        pc := .writing (s.unread.take n) }
  | readEnd (hpc : s.pc = .reading) (hend : s.unread = []) :
      Move s (.count 0) { s with pc := .closingSrc }
  | write (block : Bytes) (n : Nat) (hpc : s.pc = .writing block) (hle : n ≤ block.length) :
      Move s (.count n) { s with
        dest := s.dest ++ block.take n
        totalWritten := s.totalWritten + n
        pc := .reading }
  | closeSrc (hpc : s.pc = .closingSrc) : Move s (.count 0) { s with pc := .closingDest }
  | closeDest (hpc : s.pc = .closingDest) :
      Move s (.count 0) { s with
        message := some (totals s.totalRead s.totalWritten)
        pc := .exited 0 }

theorem move_of_step (hs : step s a = some s') : Move s a s' := by
  unfold step at hs
  split at hs
  · rename_i hpc
    rw [Option.ite_none_right_eq_some] at hs
    have ⟨hmay, heq⟩ := hs
    cases a with
    | error errno => exact Option.some.inj heq ▸ .fail _ errno
    | count n =>
        by_cases hn : n > 0
        · rw [readBlock, if_pos hn] at heq
          exact Option.some.inj heq ▸ .read n hpc
        · have hzero : n = 0 := by omega
          subst hzero
          rw [readBlock, if_neg hn] at heq
          exact Option.some.inj heq ▸ .readEnd hpc (List.length_eq_zero_iff.mp (hmay.2.2 rfl))
  · rename_i block hpc
    rw [Option.ite_none_right_eq_some] at hs
    have ⟨hmay, heq⟩ := hs
    cases a with
    | error errno => exact Option.some.inj heq ▸ .fail _ errno
    | count n => exact Option.some.inj heq ▸ .write block n hpc hmay
  · rename_i hpc
    rw [Option.ite_none_right_eq_some] at hs
    have ⟨hmay, heq⟩ := hs
    cases a with
    | error errno => exact Option.some.inj heq ▸ .fail _ errno
    | count n =>
        have hzero : n = 0 := Nat.le_zero.mp hmay
        subst hzero
        exact Option.some.inj heq ▸ .closeSrc hpc
  · rename_i hpc
    rw [Option.ite_none_right_eq_some] at hs
    have ⟨hmay, heq⟩ := hs
    cases a with
    | error errno => exact Option.some.inj heq ▸ .fail _ errno
    | count n =>
        have hzero : n = 0 := Nat.le_zero.mp hmay
        subst hzero
        exact Option.some.inj heq ▸ .closeDest hpc
  · cases hs

/-! ### The moves of the copy -/

theorem copy_of_read {n : Nat} (hpc : s.pc = .reading) :
    Sys.copy { s with
      totalRead := s.totalRead + n
      unread := s.unread.drop n
      pc := .writing (s.unread.take n) } = s.copy.fill n := by
  simp [Sys.copy, Copy.fill, hpc, Pc.pending]

theorem copy_of_write {block : Bytes} {n : Nat} (hpc : s.pc = .writing block) :
    Sys.copy { s with
      dest := s.dest ++ block.take n
      totalWritten := s.totalWritten + n
      pc := .reading } = (s.copy.drain n).discard := by
  simp [Sys.copy, Copy.drain, Copy.discard, hpc, Pc.pending]

theorem copy_of_pc {q : Pc} (hq : q.pending = []) :
    Sys.copy { s with pc := q } = s.copy.discard := by
  simp [Sys.copy, Copy.discard, hq]

theorem pending_of_copy {q : Pc} (hpc : s.pc = q) : s.copy.pending = q.pending := by
  rw [← hpc]
  rfl

theorem atEnd_move (h : AtEnd s) (hm : Move s a s') : AtEnd s' := by
  intro hpc'
  cases hm with
  | fail what errno => simp [Sys.fail] at hpc'
  | read n hpc => simp at hpc'
  | readEnd hpc hend => exact hend
  | write block n hpc hle => simp at hpc'
  | closeSrc hpc => exact h (.inl hpc)
  | closeDest hpc => exact h (.inr (.inl hpc))

/-- A move that is no short `write` loses nothing. -/
theorem exact_move (h : Exact source s) (hok : NotShort s a) (hm : Move s a s') :
    Exact source s' := by
  cases hm with
  | fail what errno => exact .inl rfl
  | read n hpc =>
      right
      rw [copy_of_read hpc]
      exact (h.resolve_left (by simp [hpc])).fill n
  | readEnd hpc hend =>
      right
      rw [copy_of_pc rfl]
      exact (h.resolve_left (by simp [hpc])).discard (pending_of_copy hpc)
  | write block n hpc hle =>
      right
      rw [copy_of_write hpc]
      refine ((h.resolve_left (by simp [hpc])).drain n).discard ?_
      show (s.copy.pending).drop n = []
      rw [pending_of_copy hpc]
      exact List.drop_eq_nil_of_le (hok block hpc n rfl)
  | closeSrc hpc =>
      right
      rw [copy_of_pc rfl]
      exact (h.resolve_left (by simp [hpc])).discard (pending_of_copy hpc)
  | closeDest hpc =>
      right
      have hwhole := (h.resolve_left (by simp [hpc])).discard (pending_of_copy hpc)
      exact hwhole

/-- What was lost stays lost. -/
theorem lossy_move (h : s.copy.Lossy source) (hm : Move s a s') : s'.copy.Lossy source := by
  cases hm with
  | fail what errno => exact h.discard
  | read n hpc =>
      rw [copy_of_read hpc]
      exact h.fill n
  | readEnd hpc hend => exact h.discard
  | write block n hpc hle =>
      rw [copy_of_write hpc]
      exact (h.drain n).discard
  | closeSrc hpc => exact h.discard
  | closeDest hpc => exact h.discard

/-- A short `write` loses the rest of its block. -/
theorem lossy_of_short (h : Exact source s) (hshort : ¬ NotShort s a) (hm : Move s a s') :
    s'.copy.Lossy source := by
  have ⟨block, hblock⟩ := not_forall.mp hshort
  have ⟨hpc, hcount⟩ := Classical.not_imp.mp hblock
  have ⟨n, hn⟩ := not_forall.mp hcount
  have ⟨ha, hlt⟩ := Classical.not_imp.mp hn
  subst ha
  cases hm with
  | write block' k hpc' hle =>
      rw [hpc] at hpc'
      cases hpc'
      rw [copy_of_write hpc]
      refine ((h.resolve_left (by simp [hpc])).drain n).lossy_discard ?_
      show (s.copy.pending).drop n ≠ []
      rw [pending_of_copy hpc]
      show block.drop n ≠ []
      rw [ne_eq, List.drop_eq_nil_iff]
      omega
  | read k hpc' => exact absurd (hpc.symm.trans hpc') (by simp)
  | readEnd hpc' hend => exact absurd (hpc.symm.trans hpc') (by simp)
  | closeSrc hpc' => exact absurd (hpc.symm.trans hpc') (by simp)
  | closeDest hpc' => exact absurd (hpc.symm.trans hpc') (by simp)

/-! ## Programs that end with status 0 -/

/-- **The copy is exact if and only if no `write` of the loop is short**, for a program that
ends with status 0. -/
theorem copy_exact_iff {answers : List Answer}
    (hrun : run step (Sys.init source) answers = some s) (hexit : s.pc = .exited 0) :
    s.dest = source ↔ Admitted step NotShort (Sys.init source) answers := by
  have hatEnd : AtEnd s := (Reach.of_run hrun).keeps (fun _ => by simp [Sys.init] at *)
    (fun _ _ _ h _ hs => atEnd_move h (move_of_step hs))
  have hinit : Exact source (Sys.init source) := .inr (.start source)
  have hcases := good_or_bad (P := Exact source) (Q := fun s => s.copy.Lossy source)
    (fun _ _ _ h hok hs => exact_move h hok (move_of_step hs))
    (fun _ _ _ h hshort hs => lossy_of_short h hshort (move_of_step hs))
    (fun _ _ _ h hs => lossy_move h (move_of_step hs)) hinit hrun
  have hpending : s.copy.pending = [] := pending_of_copy hexit
  rcases hcases with ⟨hexact, hok⟩ | ⟨hlossy, hshort⟩
  · have hwhole := hexact.resolve_left (by simp [hexit])
    exact iff_of_true (hwhole.copied_eq hpending (hatEnd (.inr (.inr hexit)))) hok
  · exact iff_of_false hlossy.copied_ne hshort

/-- Two bytes in one whole block. -/
theorem copy_exact_iff_twoBytes :
    ∃ s, run step (Sys.init [1, 2]) [.count 2, .count 2, .count 0, .count 0, .count 0] = some s ∧
      s.pc = .exited 0 ∧ (s.dest = [1, 2] ↔ Admitted step NotShort (Sys.init [1, 2])
        [.count 2, .count 2, .count 0, .count 0, .count 0]) := by
  have hrun : ∃ s, run step (Sys.init [1, 2])
      [.count 2, .count 2, .count 0, .count 0, .count 0] = some s ∧ s.pc = .exited 0 :=
    ⟨_, rfl, rfl⟩
  have ⟨s, hs, hexit⟩ := hrun
  exact ⟨s, hs, hexit, copy_exact_iff hs hexit⟩

/-- The kernel takes one byte of two, and the program still ends with status 0. -/
theorem short_write_exits_zero :
    ¬ ∀ (source : Bytes) (answers : List Answer) (s : Sys),
      run step (Sys.init source) answers = some s → s.pc = .exited 0 → s.dest = source := by
  intro h
  have hrun : ∃ s, run step (Sys.init [1, 2])
      [.count 2, .count 1, .count 0, .count 0, .count 0] = some s ∧ s.pc = .exited 0 ∧
        s.dest = [1] := ⟨_, rfl, rfl, rfl⟩
  have ⟨s, hs, hexit, hdest⟩ := hrun
  have heq := h _ _ s hs hexit
  rw [hdest] at heq
  revert heq
  decide

end SystemsInC.Ports.SyscallCopy
