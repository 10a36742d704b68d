import Mathlib.Data.List.Basic

/-!
# Copying through a buffer

A copy moves items from a source to a destination in pieces.  `fill` takes some
of the unread items into the buffer, `drain` puts some of the buffered ones into
the destination, and `discard` forgets what is still in the buffer.

Filling and draining keep a copy `Whole`: the parts make up the source.  Forgetting
even one item makes it `Lossy`, and it stays so.

`Answer` is what `read` and `write` answer; `MayRead` and `MayWrite` say which
answers a call can get.
-/

namespace SystemsInC.Verified.BufferedCopy

variable {α : Type*}

/-! ## The answers of `read` and `write` -/

/-- A count, or -1 with `errno`. -/
inductive Answer
  | count (n : Nat)
  | error (errno : Nat)
  deriving DecidableEq

def EINTR : Nat := 4

/-- What `read` may answer when there is room for `left` items: at most as many as there
are, and none only at the end. -/
def MayRead (left : Nat) (unread : List α) : Answer → Prop
  | .count n => n ≤ left ∧ n ≤ unread.length ∧ (n = 0 → unread.length = 0)
  | .error _ => True

/-- What `write` may answer to `left` items. -/
def MayWrite (left : Nat) : Answer → Prop
  | .count n => n ≤ left
  | .error _ => True

instance (left : Nat) (unread : List α) (a : Answer) : Decidable (MayRead left unread a) := by
  cases a <;> unfold MayRead <;> infer_instance

instance (left : Nat) (a : Answer) : Decidable (MayWrite left a) := by
  cases a <;> unfold MayWrite <;> infer_instance

/-! ## The copy -/

/-- Where the items of the source are. -/
structure Copy (α : Type*) where
  copied : List α
  pending : List α
  unread : List α

namespace Copy

variable {source : List α} {c : Copy α}

def start (source : List α) : Copy α := ⟨[], [], source⟩

def fill (c : Copy α) (n : Nat) : Copy α :=
  ⟨c.copied, c.pending ++ c.unread.take n, c.unread.drop n⟩

def drain (c : Copy α) (n : Nat) : Copy α :=
  ⟨c.copied ++ c.pending.take n, c.pending.drop n, c.unread⟩

def discard (c : Copy α) : Copy α := ⟨c.copied, [], c.unread⟩

/-- Every item of the source is in its place. -/
def Whole (source : List α) (c : Copy α) : Prop :=
  c.copied ++ (c.pending ++ c.unread) = source

/-- The number of items that are still somewhere. -/
def size (c : Copy α) : Nat := c.copied.length + c.pending.length + c.unread.length

/-- An item has been lost. -/
def Lossy (source : List α) (c : Copy α) : Prop := c.size < source.length

theorem Whole.start (source : List α) : Whole source (start source) := rfl

theorem Whole.size_eq (h : Whole source c) : c.size = source.length := by
  have hlength := congrArg List.length h
  simp only [List.length_append] at hlength
  simp only [size]
  omega

theorem Whole.fill (h : Whole source c) (n : Nat) : Whole source (c.fill n) := by
  show c.copied ++ ((c.pending ++ c.unread.take n) ++ c.unread.drop n) = source
  rw [List.append_assoc, List.take_append_drop]
  exact h

theorem Whole.drain (h : Whole source c) (n : Nat) : Whole source (c.drain n) := by
  show (c.copied ++ c.pending.take n) ++ (c.pending.drop n ++ c.unread) = source
  rw [List.append_assoc, ← List.append_assoc (c.pending.take n), List.take_append_drop]
  exact h

/-- An empty buffer holds nothing to lose. -/
theorem Whole.discard (h : Whole source c) (hpending : c.pending = []) :
    Whole source c.discard := by
  unfold Whole at h
  rw [hpending] at h
  exact h

/-- At the end of the source with an empty buffer the copy is the source. -/
theorem Whole.copied_eq (h : Whole source c) (hpending : c.pending = [])
    (hunread : c.unread = []) : c.copied = source := by
  rw [← h, hpending, hunread, List.append_nil, List.append_nil]

@[simp] theorem size_fill (c : Copy α) (n : Nat) : (c.fill n).size = c.size := by
  simp only [size, Copy.fill, List.length_append, List.length_take, List.length_drop]
  omega

@[simp] theorem size_drain (c : Copy α) (n : Nat) : (c.drain n).size = c.size := by
  simp only [size, Copy.drain, List.length_append, List.length_take, List.length_drop]
  omega

theorem size_discard (c : Copy α) : c.discard.size + c.pending.length = c.size := by
  simp only [size, Copy.discard, List.length_nil]
  omega

theorem Lossy.fill (h : Lossy source c) (n : Nat) : Lossy source (c.fill n) := by
  rw [Lossy, size_fill]
  exact h

theorem Lossy.drain (h : Lossy source c) (n : Nat) : Lossy source (c.drain n) := by
  rw [Lossy, size_drain]
  exact h

theorem Lossy.discard (h : Lossy source c) : Lossy source c.discard := by
  have hsize := size_discard c
  unfold Lossy at h ⊢
  omega

/-- What is forgotten is lost. -/
theorem Whole.lossy_discard (h : Whole source c) (hpending : c.pending ≠ []) :
    Lossy source c.discard := by
  have hsize := size_discard c
  have hwhole := h.size_eq
  have hpos := List.length_pos_iff.mpr hpending
  unfold Lossy
  omega

theorem Lossy.copied_ne (h : Lossy source c) : c.copied ≠ source := by
  intro heq
  unfold Lossy size at h
  rw [heq] at h
  omega

end Copy

end SystemsInC.Verified.BufferedCopy
