import SystemsInC.Ports.FileCopy

/-!
# The verification pass of `file-copy.c`

Behind the copy loop the program compares the sizes of its two files with `lseek`
and then their bytes with `read`.  The comparison loop ends at a difference, at the
end of a file and at an answer -1, and only the first of the three sets `mismatch`.

The destination was opened with `O_WRONLY`, so its first `read` is answered with
`EBADF`: no two bytes are ever compared, and `verification_writeOnly` says that equal
sizes are reported as identical content.  With a destination that can be read the
same loop is a real check, `realCheck_of_readable`.
-/

namespace SystemsInC.Ports.FileVerify

open SystemsInC.Verified.CString
open SystemsInC.Verified.GuardedRuns
open SystemsInC.Ports.FileCopy

/-! ## Open files -/

def O_RDONLY : Nat := 0
def O_WRONLY : Nat := 1
def O_CREAT : Nat := 0o100
def O_TRUNC : Nat := 0o1000
def O_ACCMODE : Nat := 0o3

def EBADF : Nat := 9

/-- An open file: the flags of `open`, what the file holds and the offset. -/
structure Descriptor where
  flags : Nat
  content : Bytes
  offset : Nat

variable {src dst : Descriptor} {source dest : Bytes}

def Descriptor.Readable (fd : Descriptor) : Prop := fd.flags &&& O_ACCMODE ≠ O_WRONLY

instance (fd : Descriptor) : Decidable fd.Readable := by
  unfold Descriptor.Readable
  infer_instance

/-- `src_fd` with `source` in its file. -/
def srcFd (source : Bytes) (offset : Nat) : Descriptor :=
  { flags := O_RDONLY
    content := source
    offset := offset }

/-- `dst_fd` with `dest` in its file. -/
def dstFd (dest : Bytes) (offset : Nat) : Descriptor :=
  { flags := O_WRONLY ||| O_CREAT ||| O_TRUNC
    content := dest
    offset := offset }

theorem srcFd_readable (source : Bytes) (offset : Nat) : (srcFd source offset).Readable := by
  show O_RDONLY &&& O_ACCMODE ≠ O_WRONLY
  decide

theorem dstFd_not_readable (dest : Bytes) (offset : Nat) : ¬ (dstFd dest offset).Readable := by
  show ¬ (O_WRONLY ||| O_CREAT ||| O_TRUNC) &&& O_ACCMODE ≠ O_WRONLY
  decide

/-- `lseek(fd, 0, SEEK_END)`. -/
def Descriptor.seekEnd (fd : Descriptor) : Nat × Descriptor :=
  (fd.content.length, { fd with offset := fd.content.length })

/-- `lseek(fd, 0, SEEK_SET)`. -/
def Descriptor.seekSet (fd : Descriptor) : Descriptor := { fd with offset := 0 }

/-- What `read(fd, &c, 1)` answers: -1 with `errno`, 0, or 1 with the byte in `c`. -/
inductive Got
  | error (errno : Nat)
  | eof
  | byte (c : UInt8)
  deriving DecidableEq

def Descriptor.read (fd : Descriptor) : Got × Descriptor :=
  if fd.Readable then
    match fd.content[fd.offset]? with
    | some c => (.byte c, { fd with offset := fd.offset + 1 })
    | none => (.eof, fd)
  else
    (.error EBADF, fd)

/-! ## The pass -/

/-- What the pass prints. -/
inductive Report
  | sizeMismatch (source dest : Nat)
  | mismatch (pos : Nat) (c1 c2 : UInt8)
  | identical
  deriving DecidableEq

/-- The comparison loop: what it has printed when it ends, and with that whether it has set
`mismatch`. -/
def compare : Nat → Descriptor → Descriptor → Nat → Option (Option Report)
  | 0, _, _, _ => none
  | fuel + 1, src, dst, pos =>
      match src.read with
      | (.byte c1, src) =>
          match dst.read with
          | (.byte c2, dst) =>
              if c1 ≠ c2 then
                some (some (.mismatch pos c1 c2))
              else
                compare fuel src dst (pos + 1)
          | _ => some none
      | _ => some none

/-- `main` behind the copy loop. -/
def verification (src dst : Descriptor) : Option (List Report) :=
  let (src_size, src) := src.seekEnd
  let (dst_size, dst) := dst.seekEnd
  if src_size ≠ dst_size then
    some [.sizeMismatch src_size dst_size]
  else
    (compare (src_size + 1) src.seekSet dst.seekSet 0).map
      (fun mismatch => mismatch.elim [.identical] ([·]))

/-! ## What a check has to report -/

/-- The report is true of the two contents. -/
def Report.Shows (source dest : Bytes) : Report → Prop
  | .sizeMismatch m n => m = source.length ∧ n = dest.length ∧ m ≠ n
  | .mismatch pos c1 c2 =>
      source.take pos = dest.take pos ∧ source[pos]? = some c1 ∧ dest[pos]? = some c2 ∧ c1 ≠ c2
  | .identical => source = dest

/-- A real check: identity is printed exactly for equal contents, and for different ones the
sizes or the first difference. -/
def RealCheck (source dest : Bytes) (out : List Report) : Prop :=
  (.identical ∈ out ↔ source = dest) ∧
    (source ≠ dest → ∃ r ∈ out, r ≠ .identical ∧ r.Shows source dest)

theorem Report.Shows.ne {r : Report} (h : r.Shows source dest) (hr : r ≠ .identical) :
    source ≠ dest := by
  intro heq
  subst heq
  cases r with
  | sizeMismatch m n => exact h.2.2 (h.1.trans h.2.1.symm)
  | mismatch pos c1 c2 =>
      have hsame : some c1 = some c2 := h.2.1.symm.trans h.2.2.1
      exact h.2.2.2 (Option.some.inj hsame)
  | identical => exact hr rfl

/-- One true report makes a real check. -/
theorem realCheck_of_shows {r : Report} (h : r.Shows source dest) :
    RealCheck source dest [r] := by
  by_cases hr : r = .identical
  · subst hr
    have heq : source = dest := h
    exact ⟨⟨fun _ => heq, fun _ => by simp⟩, fun hne => absurd heq hne⟩
  · have hne := h.ne hr
    have hnot : Report.identical ∉ [r] := by simpa using Ne.symm hr
    exact ⟨⟨fun hmem => absurd hmem hnot, fun heq => absurd heq hne⟩,
      fun _ => ⟨r, by simp, hr, h⟩⟩

/-! ## The loop -/

theorem read_of_readable (h : src.Readable) :
    src.read = match src.content[src.offset]? with
      | some c => (.byte c, { src with offset := src.offset + 1 })
      | none => (.eof, src) := by
  rw [Descriptor.read, if_pos h]

theorem read_of_not_readable (h : ¬ src.Readable) : src.read = (.error EBADF, src) := by
  rw [Descriptor.read, if_neg h]

/-- A destination that cannot be read ends the loop before any comparison. -/
theorem compare_not_readable (h : ¬ dst.Readable) (fuel pos : Nat) :
    compare (fuel + 1) src dst pos = some none := by
  rw [compare, read_of_not_readable h]
  split <;> rfl

/-- From two equal beginnings the loop finds the first difference or reaches both ends. -/
theorem compare_readable {fuel pos : Nat} (hsrc : src.Readable) (hdst : dst.Readable)
    (hlen : src.content.length = dst.content.length) (hpos : pos ≤ src.content.length)
    (htake : src.content.take pos = dst.content.take pos)
    (hsoff : src.offset = pos) (hdoff : dst.offset = pos)
    (hfuel : src.content.length < pos + fuel) :
    ∃ mismatch : Option Report, compare fuel src dst pos = some mismatch ∧
      (mismatch = none → src.content = dst.content) ∧
      ∀ r, mismatch = some r → r ≠ .identical ∧ r.Shows src.content dst.content := by
  induction fuel generalizing src dst pos with
  | zero => omega
  | succ fuel ih =>
      by_cases hend : pos = src.content.length
      · have hnone : src.content[src.offset]? = none :=
          List.getElem?_eq_none (by omega)
        refine ⟨none, ?_, fun _ => ?_, fun r hr => by cases hr⟩
        · rw [compare, read_of_readable hsrc, hnone]
        · rw [hend, List.take_length] at htake
          rw [htake, hlen, List.take_length]
      · have hlt : pos < src.content.length := by omega
        have ⟨c1, hc1⟩ : ∃ c, src.content[src.offset]? = some c :=
          ⟨_, List.getElem?_eq_getElem (by omega)⟩
        have ⟨c2, hc2⟩ : ∃ c, dst.content[dst.offset]? = some c :=
          ⟨_, List.getElem?_eq_getElem (by omega)⟩
        have hstep : compare (fuel + 1) src dst pos =
            if c1 ≠ c2 then some (some (.mismatch pos c1 c2))
            else compare fuel { src with offset := src.offset + 1 }
              { dst with offset := dst.offset + 1 } (pos + 1) := by
          rw [compare, read_of_readable hsrc, hc1]
          show (match dst.read with
            | (Got.byte c2, dst') => _
            | _ => _) = _
          rw [read_of_readable hdst, hc2]
        rw [hsoff] at hc1
        rw [hdoff] at hc2
        rw [hstep]
        by_cases hne : c1 ≠ c2
        · rw [if_pos hne]
          refine ⟨some (.mismatch pos c1 c2), rfl, (fun h => by cases h), fun r hr => ?_⟩
          cases hr
          exact ⟨by simp, htake, hc1, hc2, hne⟩
        · rw [if_neg hne]
          have heq : c1 = c2 := not_not.mp hne
          have hnext : src.content.take (pos + 1) = dst.content.take (pos + 1) := by
            rw [List.take_add_one, List.take_add_one, htake, hc1, hc2, heq]
          have hsrc' : Descriptor.Readable { src with offset := src.offset + 1 } := hsrc
          have hdst' : Descriptor.Readable { dst with offset := dst.offset + 1 } := hdst
          have hfuel' : src.content.length < pos + 1 + fuel := by omega
          exact ih hsrc' hdst' hlen hlt hnext (by simp [hsoff]) (by simp [hdoff]) hfuel'

/-! ## The verification -/

theorem verification_of_length_ne (hlen : src.content.length ≠ dst.content.length) :
    verification src dst =
      some [.sizeMismatch src.content.length dst.content.length] := by
  exact if_pos hlen

theorem verification_of_length_eq (hlen : src.content.length = dst.content.length) :
    verification src dst =
      (compare (src.content.length + 1) src.seekSet dst.seekSet 0).map
        (fun mismatch => mismatch.elim [.identical] ([·])) := by
  exact if_neg (fun hne => hne hlen)

/-- Files of equal size are reported identical whatever they hold. -/
theorem verification_writeOnly (hdst : ¬ dst.Readable)
    (hlen : src.content.length = dst.content.length) :
    verification src dst = some [.identical] := by
  have hdst' : ¬ dst.seekSet.Readable := hdst
  have hcompare : compare (src.content.length + 1) src.seekSet dst.seekSet 0 = some none :=
    compare_not_readable hdst' src.content.length 0
  rw [verification_of_length_eq hlen, hcompare]
  rfl

/-- With a destination that can be read the pass is a real check. -/
theorem realCheck_of_readable (hsrc : src.Readable) (hdst : dst.Readable) :
    ∃ out, verification src dst = some out ∧ RealCheck src.content dst.content out := by
  by_cases hlen : src.content.length = dst.content.length
  · have hsrc' : src.seekSet.Readable := hsrc
    have hdst' : dst.seekSet.Readable := hdst
    have hfuel : src.content.length < 0 + (src.content.length + 1) := by omega
    have ⟨mismatch, hcompare, hnone, hsome⟩ :=
      compare_readable hsrc' hdst' hlen (Nat.zero_le _) rfl rfl rfl hfuel
    refine ⟨_, by rw [verification_of_length_eq hlen, hcompare]; rfl, ?_⟩
    cases hmismatch : mismatch with
    | none =>
        have heq : src.content = dst.content := hnone hmismatch
        exact realCheck_of_shows (r := .identical) heq
    | some r => exact realCheck_of_shows (hsome r hmismatch).2
  · exact ⟨_, verification_of_length_ne hlen, realCheck_of_shows ⟨rfl, rfl, hlen⟩⟩

/-- **When the verification is a real check.**  With the descriptors that `main` has opened and
any two contents, exactly when the sizes tell the contents apart or nothing does. -/
theorem verification_real_iff (source dest : Bytes) (srcOffset dstOffset : Nat) :
    (∃ out, verification (srcFd source srcOffset) (dstFd dest dstOffset) = some out ∧
        RealCheck source dest out) ↔
      source = dest ∨ source.length ≠ dest.length := by
  by_cases hlen : source.length = dest.length
  · have hout : verification (srcFd source srcOffset) (dstFd dest dstOffset) =
        some [.identical] := verification_writeOnly (dstFd_not_readable dest dstOffset) hlen
    constructor
    · intro ⟨out, hverify, hreal⟩
      have heq : [Report.identical] = out := Option.some.inj (hout.symm.trans hverify)
      exact .inl (hreal.1.mp (heq ▸ by simp))
    · intro h
      have heq : source = dest := h.resolve_right (fun hne => hne hlen)
      exact ⟨_, hout, realCheck_of_shows heq⟩
  · have hout : verification (srcFd source srcOffset) (dstFd dest dstOffset) =
        some [.sizeMismatch source.length dest.length] := verification_of_length_ne hlen
    have hshows : (Report.sizeMismatch source.length dest.length).Shows source dest :=
      ⟨rfl, rfl, hlen⟩
    exact ⟨fun _ => .inr hlen, fun _ => ⟨_, hout, realCheck_of_shows hshows⟩⟩

/-- One byte each, and they differ. -/
theorem verification_accepts_other :
    ¬ ∀ (source dest : Bytes) (srcOffset dstOffset : Nat),
      ∃ out, verification (srcFd source srcOffset) (dstFd dest dstOffset) = some out ∧
        RealCheck source dest out := by
  intro h
  have ⟨out, hverify, hreal⟩ := h [97] [98] 1 1
  have hout : verification (srcFd [97] 1) (dstFd [98] 1) = some [.identical] := by decide
  have heq : [Report.identical] = out := Option.some.inj (hout.symm.trans hverify)
  have hsame : ([97] : Bytes) = [98] := hreal.1.mp (heq ▸ by simp)
  exact absurd hsame (by decide)

/-! ## Behind the copy loop -/

/-- After a copy that has ended without a report the pass prints that the content is identical,
which is then true. -/
theorem verification_after_copy {answers : List SystemsInC.Verified.BufferedCopy.Answer}
    {s : Sys} (hrun : run step (Sys.init source) answers = some s) (hpc : s.pc = .verification)
    (srcOffset dstOffset : Nat) :
    verification (srcFd source srcOffset) (dstFd s.dest dstOffset) = some [.identical] := by
  have hcopied := copied_of_run hrun
  have hwhole := hcopied.whole (by simp [hpc])
  have heq : s.dest = source :=
    hwhole.copied_eq (by simp [Sys.copy, hpc, Pc.pending]) (hcopied.atEnd hpc)
  exact verification_writeOnly (dstFd_not_readable s.dest dstOffset) (by rw [heq]; rfl)

end SystemsInC.Ports.FileVerify
