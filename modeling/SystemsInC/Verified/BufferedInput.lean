import SystemsInC.Verified.TextInput

/-!
# A stream over a file descriptor

A stream takes the bytes of its descriptor in reads of any size and hands them out one by
one.  What is unread is the buffer with what stands behind the offset of the descriptor, and
`gets_spec` says that `fgets` takes a line off that, however the reads fall.

The offset belongs to the open file and not to the process.  A process that ends gives back
what its stream has read ahead, `giveBack`, and a forked child moves the offset of its parent
with that: `unread_giveBack` says that the parent then reads its own buffer a second time.
-/

namespace SystemsInC.Verified.BufferedInput

open SystemsInC.Verified.CString
open SystemsInC.Verified.TextInput

/-- A stream, and the open file that it reads. -/
structure Input where
  file : Bytes
  /-- where the next `read` starts -/
  offset : Nat
  /-- read, but not handed out -/
  buffer : Bytes
  seekable : Bool
  /-- a `read` at an offset returns at most one byte more than this -/
  reads : Nat → Nat

namespace Input

/-- All that is still to be handed out. -/
def unread (s : Input) : Bytes := s.buffer ++ s.file.drop s.offset

/-- `read`, if there is nothing in the buffer. -/
def fill (s : Input) : Input :=
  if s.buffer = [] then
    let got := (s.file.drop s.offset).take (s.reads s.offset + 1)
    { s with buffer := got, offset := s.offset + got.length }
  else
    s

/-- The next byte, and the stream behind it. -/
def getc (s : Input) : Option (UInt8 × Input) :=
  match s.fill.buffer with
  | [] => none
  | b :: l => some (b, { s.fill with buffer := l })

/-- `fgets` with room for `n` bytes and a NUL: what it stores in front of the NUL. -/
def gets : Nat → Input → Bytes × Input
  | 0, s => ([], s)
  | n + 1, s =>
      match s.getc with
      | none => ([], s)
      | some (b, s') => if b = 10 then ([b], s') else (b :: (gets n s').1, (gets n s').2)

/-- What the `exit` of a forked child does to the stream of its parent: it moves the offset
back by the bytes that are left in the buffer.  No offset can become negative. -/
def giveBack (s : Input) : Input :=
  if s.seekable = true ∧ s.buffer.length ≤ s.offset then
    { s with offset := s.offset - s.buffer.length }
  else
    s

variable {s s' : Input} {b : UInt8}

/-! ## A byte -/

theorem unread_fill (s : Input) : s.fill.unread = s.unread := by
  by_cases hbuffer : s.buffer = []
  · have hsplit := List.prefix_iff_eq_append.mp
      (List.take_prefix (s.reads s.offset + 1) (s.file.drop s.offset))
    rw [List.drop_drop] at hsplit
    rw [fill, if_pos hbuffer, unread, unread, hbuffer]
    exact hsplit
  · rw [fill, if_neg hbuffer]

/-- A read at the end of the file changes nothing. -/
theorem fill_of_end (h : s.file.drop s.offset = []) : s.fill = s := by
  by_cases hbuffer : s.buffer = []
  · rw [fill, if_pos hbuffer, h, List.take_nil]
    obtain ⟨file, offset, buffer, seekable, reads⟩ := s
    cases hbuffer
    rfl
  · rw [fill, if_neg hbuffer]

/-- There is no next byte at the end of the input. -/
theorem unread_of_getc_none (h : s.getc = none) : s.unread = [] := by
  have hfill : s.fill.buffer = [] := by
    rw [getc] at h
    cases hfill : s.fill.buffer with
    | nil => rfl
    | cons b l =>
        rw [hfill] at h
        cases h
  by_cases hbuffer : s.buffer = []
  · rw [fill, if_pos hbuffer] at hfill
    have htake : (s.file.drop s.offset).take (s.reads s.offset + 1) = [] := hfill
    rw [List.take_eq_nil_iff] at htake
    rw [unread, hbuffer, htake.resolve_left (Nat.succ_ne_zero _), List.nil_append]
  · rw [fill, if_neg hbuffer] at hfill
    exact absurd hfill hbuffer

theorem getc_some (h : s.getc = some (b, s')) :
    s.fill.buffer = b :: s'.buffer ∧ s' = { s.fill with buffer := s'.buffer } := by
  rw [getc] at h
  cases hfill : s.fill.buffer with
  | nil =>
      rw [hfill] at h
      cases h
  | cons c l =>
      rw [hfill] at h
      cases h
      exact ⟨rfl, rfl⟩

theorem unread_getc (h : s.getc = some (b, s')) : s.unread = b :: s'.unread := by
  have ⟨hbuffer, hrest⟩ := getc_some h
  rw [← unread_fill s, unread, hbuffer, hrest]
  rfl

theorem seekable_getc (h : s.getc = some (b, s')) : s'.seekable = s.seekable := by
  rw [(getc_some h).2]
  show s.fill.seekable = s.seekable
  rw [fill]
  split <;> rfl

/-- A stream that reads byte by byte has nothing left in its buffer. -/
theorem getc_bytewise (hreads : ∀ o, s.reads o = 0) (hbuffer : s.buffer = [])
    (h : s.getc = some (b, s')) : (∀ o, s'.reads o = 0) ∧ s'.buffer = [] := by
  have ⟨hfirst, hrest⟩ := getc_some h
  rw [fill, if_pos hbuffer] at hfirst hrest
  have hone : (s.file.drop s.offset).take (s.reads s.offset + 1) = b :: s'.buffer := hfirst
  have hlen := congrArg List.length hone
  rw [List.length_take, List.length_cons, hreads] at hlen
  refine ⟨?_, List.length_eq_zero_iff.mp (by omega)⟩
  rw [hrest]
  exact hreads

/-- The whole file has been read, and its last bytes are in the buffer. -/
def ReadAhead (s : Input) : Prop :=
  s.offset = s.file.length ∧ ∃ front, s.file = front ++ s.buffer

theorem ReadAhead.drop_offset (h : s.ReadAhead) : s.file.drop s.offset = [] := by
  rw [h.1, List.drop_length]

theorem ReadAhead.unread (h : s.ReadAhead) : s.unread = s.buffer := by
  rw [Input.unread, h.drop_offset, List.append_nil]

theorem ReadAhead.getc (h : s.ReadAhead) (hgetc : s.getc = some (b, s')) : s'.ReadAhead := by
  have ⟨hend, front, hfile⟩ := h
  have ⟨hfirst, hrest⟩ := getc_some hgetc
  rw [fill_of_end h.drop_offset] at hfirst hrest
  rw [hrest]
  refine ⟨hend, front ++ [b], ?_⟩
  show s.file = front ++ [b] ++ s'.buffer
  rw [hfile, hfirst, List.append_assoc]
  rfl

/-! ## A line -/

theorem fgetsLine_nil (size : Nat) : fgetsLine size [] = [] := by
  rw [fgetsLine, List.take_nil]
  rfl

theorem fgetsLine_newline (n : Nat) (l : Bytes) : fgetsLine (n + 2) (10 :: l) = [10] := by
  have hempty : ∀ b ∈ ([] : Bytes), b ≠ 10 := fun _ hb => absurd hb List.not_mem_nil
  exact fgetsLine_of_lt hempty (Nat.succ_pos n) l

theorem fgetsLine_cons (hb : b ≠ 10) (n : Nat) (l : Bytes) :
    fgetsLine (n + 2) (b :: l) = b :: fgetsLine (n + 1) l := by
  have hhead : ¬ (decide (b = 10)) = true := by simpa using hb
  have hsize : n + 2 - 1 = n + 1 := rfl
  rw [fgetsLine, fgetsLine, hsize, Nat.add_sub_cancel, List.take_succ_cons, List.findIdx?_cons,
    if_neg hhead]
  cases (l.take n).findIdx? (fun c => c = 10) with
  | none => rfl
  | some i => rfl

/-- `fgets` takes a line off what is unread, however the reads fall. -/
theorem gets_spec (n : Nat) (s : Input) :
    (s.gets n).1 = fgetsLine (n + 1) s.unread ∧
      (s.gets n).2.unread = s.unread.drop (fgetsLine (n + 1) s.unread).length := by
  induction n generalizing s with
  | zero =>
      have hnone : fgetsLine 1 s.unread = [] := by
        rw [fgetsLine, List.take_zero]
        rfl
      rw [hnone]
      exact ⟨rfl, rfl⟩
  | succ n ih =>
      cases hgetc : s.getc with
      | none =>
          have hunread := unread_of_getc_none hgetc
          rw [gets, hgetc, hunread, fgetsLine_nil]
          exact ⟨rfl, List.drop_nil.symm⟩
      | some next =>
          obtain ⟨b, s'⟩ := next
          rw [gets, hgetc, unread_getc hgetc]
          by_cases hb : b = 10
          · subst hb
            rw [fgetsLine_newline]
            exact ⟨rfl, rfl⟩
          · obtain ⟨hline, hrest⟩ := ih s'
            simp only [if_neg hb]
            rw [fgetsLine_cons hb]
            exact ⟨congrArg (b :: ·) hline, hrest⟩

/-- What every byte leaves as it is, a line leaves as it is. -/
theorem gets_induct {Q : Input → Prop}
    (hgetc : ∀ s b s', Q s → s.getc = some (b, s') → Q s') (n : Nat) (hs : Q s) :
    Q (s.gets n).2 := by
  induction n generalizing s with
  | zero => exact hs
  | succ n ih =>
      cases hnext : s.getc with
      | none =>
          rw [gets, hnext]
          exact hs
      | some next =>
          obtain ⟨b, s'⟩ := next
          have hs' := hgetc s b s' hs hnext
          rw [gets, hnext]
          by_cases hb : b = 10
          · simp only [if_pos hb]
            exact hs'
          · simp only [if_neg hb]
            exact ih hs'

theorem seekable_gets (n : Nat) (s : Input) : (s.gets n).2.seekable = s.seekable :=
  gets_induct (Q := fun s' => s'.seekable = s.seekable)
    (fun _ _ _ hs hgetc => (seekable_getc hgetc).trans hs) n rfl

/-! ## The exit of a child -/

theorem giveBack_of_pipe (h : s.seekable = false) : s.giveBack = s := by
  rw [giveBack, if_neg (by rw [h]; exact fun hand => Bool.false_ne_true hand.1)]

theorem giveBack_of_nil (h : s.buffer = []) : s.giveBack = s := by
  rw [giveBack, h, List.length_nil, Nat.sub_zero]
  obtain ⟨file, offset, buffer, seekable, reads⟩ := s
  cases h
  split <;> rfl

/-- Where the file has been read ahead, the buffer is read a second time. -/
theorem ReadAhead.unread_giveBack (h : s.ReadAhead) (hseek : s.seekable = true) :
    s.giveBack.unread = s.buffer ++ s.buffer := by
  have ⟨hend, front, hfile⟩ := h
  have hlen := congrArg List.length hfile
  rw [List.length_append] at hlen
  have hback : s.offset - s.buffer.length = front.length := by omega
  rw [giveBack, if_pos ⟨hseek, by omega⟩]
  show s.buffer ++ s.file.drop (s.offset - s.buffer.length) = _
  rw [hback, hfile, List.drop_left]

end Input

end SystemsInC.Verified.BufferedInput
