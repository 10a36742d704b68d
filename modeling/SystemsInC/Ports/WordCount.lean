import Mathlib.Algebra.GroupWithZero.Nat
import Mathlib.Data.List.Perm.Basic
import SystemsInC.Verified.MaximalRuns

/-!
# The parallel word count

`task-word-count-pthread.c` cuts a file into one chunk for each worker and adds up
the words of the chunks.  `globalWordCount_eq` says what comes out: the words of the file,
and one more for each boundary between two chunks that goes through a word.
-/

namespace SystemsInC.Ports.WordCount

open SystemsInC.Verified.MaximalRuns

/-! ## The program -/

/-- `isspace` in the C locale. -/
def isspace (c : UInt8) : Bool := decide (9 ≤ c ∧ c ≤ 13 ∨ c = 32)

structure Scan where
  inWord : Bool
  localCount : Nat

/-- The body of the loop of `worker_thread`. -/
def scanByte (scan : Scan) (c : UInt8) : Scan :=
  if isspace c then
    if scan.inWord then
      { scan with
        localCount := scan.localCount + 1
        inWord := false }
    else scan
  else { scan with inWord := true }

/-- What `worker_thread` adds to the global count. -/
def workerThread (data : List UInt8) (start stop : Nat) : Nat :=
  let scan := (List.range' start (stop - start)).foldl
    (fun scan i => scanByte scan (data.getD i 0))
    { inWord := false
      localCount := 0 }
  if scan.inWord then scan.localCount + 1 else scan.localCount

def chunkSize (data : List UInt8) (workers : Nat) : Nat := data.length / workers

def chunkStart (data : List UInt8) (workers i : Nat) : Nat := i * chunkSize data workers

def chunkEnd (data : List UInt8) (workers i : Nat) : Nat :=
  if i = workers - 1 then data.length else (i + 1) * chunkSize data workers

/-- The global count after the workers have added theirs in the given order. -/
def globalWordCount (data : List UInt8) (workers : Nat) (order : List Nat) : Nat :=
  order.foldl
    (fun count i =>
      count + workerThread data (chunkStart data workers i) (chunkEnd data workers i))
    0

/-! ## What it should count -/

def inWord (c : UInt8) : Bool := !isspace c

/-- The number of maximal runs of bytes that are no white space. -/
def wordCount (data : List UInt8) : Nat := (maximalRuns inWord data).card

/-- There is a word on both sides of a position. -/
def cutsWord (data : List UInt8) (i : Nat) : Bool :=
  decide (0 < i) && holdsAt inWord data (i - 1) && holdsAt inWord data i

/-- The number of chunks that start inside a word. -/
def cutWords (data : List UInt8) (workers : Nat) : Nat :=
  (List.range workers).countP (fun i => cutsWord data (chunkStart data workers i))

/-! ## One worker -/

/-- The bytes from `start` up to `stop`. -/
def chunk (data : List UInt8) (start stop : Nat) : List UInt8 :=
  (data.drop start).take (stop - start)

/-- The words a worker has counted, the one it is in included. -/
def Scan.words (scan : Scan) : Nat := scan.localCount + (if scan.inWord then 1 else 0)

theorem words_foldl (bytes : List UInt8) (scan : Scan) :
    (bytes.foldl scanByte scan).words = scan.words + starts inWord scan.inWord bytes := by
  induction bytes generalizing scan with
  | nil => rfl
  | cons c bytes ih =>
      rw [List.foldl_cons, ih, starts]
      cases hspace : isspace c <;> cases hin : scan.inWord <;>
        simp [scanByte, Scan.words, inWord, hspace, hin]
      omega

theorem map_getD_range' (data : List UInt8) (start n : Nat) (h : start + n ≤ data.length) :
    (List.range' start n).map (fun i => data.getD i 0) = (data.drop start).take n := by
  apply List.ext_getElem
  · rw [List.length_map, List.length_range', List.length_take, List.length_drop]
    omega
  · intro i hi hi'
    rw [List.length_map, List.length_range'] at hi
    rw [List.getElem_map, List.getElem_range', List.getElem_take, List.getElem_drop,
      List.getD_eq_getElem?_getD, List.getElem?_eq_getElem (by omega), Option.getD_some]
    congr 1
    omega

/-- **A worker counts the words of its chunk.** -/
theorem workerThread_eq (data : List UInt8) {start stop : Nat} (hle : start ≤ stop)
    (h : stop ≤ data.length) :
    workerThread data start stop = runs inWord (chunk data start stop) := by
  have hbytes := map_getD_range' data start (stop - start) (by omega)
  have hwords := words_foldl (chunk data start stop) { inWord := false, localCount := 0 }
  rw [chunk, ← hbytes, List.foldl_map] at hwords
  rw [chunk, ← hbytes, runs]
  unfold workerThread
  simp only [Scan.words, Nat.zero_add, Bool.false_eq_true, if_false] at hwords ⊢
  rw [← hwords]
  split
  · rfl
  · rfl

/-! ## All workers -/

/-- A chunk is what follows the chunks before it. -/
theorem take_eq_append_chunk (data : List UInt8) {start stop : Nat} (h : start ≤ stop) :
    data.take stop = data.take start ++ chunk data start stop := by
  have hsplit := List.take_append_drop start (data.take stop)
  rw [List.take_take, Nat.min_eq_left h, List.drop_take] at hsplit
  exact hsplit.symm

/-- A boundary before a chunk that is not empty splits a run if it cuts a word. -/
theorem splits_take (data : List UInt8) {start stop : Nat} (h : start < stop ∨ start = 0)
    (hstop : stop ≤ data.length) :
    splits inWord (data.take start) (chunk data start stop) = cutsWord data start := by
  rcases Nat.eq_zero_or_pos start with rfl | hpos
  · simp [splits, endsInside, cutsWord]
  · have hlt : start < stop := by omega
    have hlast : (data.take start).getLast? = data[start - 1]? := by
      rw [List.getLast?_take, if_neg (by omega), List.getElem?_eq_getElem (by omega)]
      rfl
    have hfirst : (chunk data start stop)[0]? = data[start]? := by
      rw [chunk, List.getElem?_take_of_lt (by omega), List.getElem?_drop, Nat.add_zero]
    rw [splits, endsInside, holdsAt, hlast, hfirst, cutsWord, holdsAt, holdsAt,
      List.getElem?_eq_getElem (by omega : start - 1 < data.length)]
    simp [hpos]

/-- Where the first `k` chunks end. -/
def boundary (data : List UInt8) (workers k : Nat) : Nat :=
  if k = workers then data.length else k * chunkSize data workers

theorem mul_chunkSize_le (data : List UInt8) {workers k : Nat} (h : k ≤ workers) :
    k * chunkSize data workers ≤ data.length :=
  Nat.le_trans (Nat.mul_le_mul_right _ h) (Nat.mul_div_le data.length workers)

theorem boundary_le (data : List UInt8) {workers k : Nat} (h : k ≤ workers) :
    boundary data workers k ≤ data.length := by
  unfold boundary
  split
  · exact Nat.le_refl _
  · exact mul_chunkSize_le data h

theorem chunkEnd_eq (data : List UInt8) {workers k : Nat} (h : k < workers) :
    chunkEnd data workers k = boundary data workers (k + 1) := by
  unfold chunkEnd boundary
  by_cases hlast : k + 1 = workers
  · rw [if_pos (by omega), if_pos hlast]
  · rw [if_neg (by omega), if_neg hlast]

theorem boundary_eq_start (data : List UInt8) {workers k : Nat} (h : k < workers) :
    boundary data workers k = chunkStart data workers k := if_neg (Nat.ne_of_lt h)

/-- A chunk is not empty, unless all but the last one are. -/
theorem chunkStart_lt (data : List UInt8) {workers k : Nat} (h : k < workers) :
    chunkStart data workers k < boundary data workers (k + 1) ∨
      chunkStart data workers k = 0 := by
  rcases Nat.eq_zero_or_pos (chunkSize data workers) with hzero | hpos
  · right
    rw [chunkStart, hzero, Nat.mul_zero]
  · left
    have hnext : chunkStart data workers k < (k + 1) * chunkSize data workers :=
      Nat.mul_lt_mul_of_pos_right (Nat.lt_succ_self k) hpos
    unfold boundary
    split
    · exact Nat.lt_of_lt_of_le hnext (mul_chunkSize_le data h)
    · exact hnext

/-- The words of the first `k` chunks. -/
theorem sum_chunks (data : List UInt8) (workers k : Nat) (hk : k ≤ workers) (hpos : 0 < workers) :
    ((List.range k).map (fun i =>
        workerThread data (chunkStart data workers i) (chunkEnd data workers i))).sum =
      runs inWord (data.take (boundary data workers k)) +
        (List.range k).countP (fun i => cutsWord data (chunkStart data workers i)) := by
  induction k with
  | zero =>
      have hzero : boundary data workers 0 = 0 := by
        rw [boundary_eq_start data hpos, chunkStart, Nat.zero_mul]
      rw [hzero]
      rfl
  | succ k ih =>
      have hend : boundary data workers (k + 1) ≤ data.length := boundary_le data hk
      have hstart := chunkStart_lt data hk
      have hle : chunkStart data workers k ≤ boundary data workers (k + 1) := by omega
      have happend := runs_append inWord (data.take (chunkStart data workers k))
        (chunk data (chunkStart data workers k) (boundary data workers (k + 1)))
      rw [← take_eq_append_chunk data hle, splits_take data hstart hend] at happend
      rw [List.range_succ, List.map_append, List.sum_append, ih (by omega), List.countP_append,
        boundary_eq_start data hk, List.map_singleton, List.sum_singleton, List.countP_singleton,
        chunkEnd_eq data hk, workerThread_eq data hle hend]
      omega

/-- One worker over the whole file counts its words. -/
theorem workerThread_whole (data : List UInt8) :
    workerThread data 0 data.length = wordCount data := by
  rw [workerThread_eq data (Nat.zero_le _) (Nat.le_refl _), wordCount, card_maximalRuns, chunk,
    List.drop_zero, Nat.sub_zero, List.take_length]

/-- A word that is cut is counted once more for each cut. -/
theorem globalWordCount_eq (data : List UInt8) (workers : Nat) (hpos : 0 < workers)
    (order : List Nat) (horder : order.Perm (List.range workers)) :
    globalWordCount data workers order = wordCount data + cutWords data workers := by
  have hsum := sum_chunks data workers workers (Nat.le_refl _) hpos
  rw [boundary, if_pos rfl, List.take_length] at hsum
  have horderSum := (horder.map (fun i =>
    workerThread data (chunkStart data workers i) (chunkEnd data workers i))).sum_eq
  rw [List.sum_eq_foldl, List.foldl_map] at horderSum
  rw [wordCount, card_maximalRuns, cutWords, ← hsum, ← horderSum]
  rfl

theorem cutWords_eq_zero_iff (data : List UInt8) (workers : Nat) :
    cutWords data workers = 0 ↔
      ∀ i, 0 < i → i < workers → cutsWord data (chunkStart data workers i) = false := by
  rw [cutWords, List.countP_eq_zero]
  constructor
  · intro h i _ hi
    simpa using h i (List.mem_range.mpr hi)
  · intro h i hi
    rcases Nat.eq_zero_or_pos i with rfl | hpos
    · simp [cutsWord, chunkStart]
    · simp [h i hpos (List.mem_range.mp hi)]

/-- **The chunks have the words of the file exactly if no boundary cuts a word.** -/
theorem globalWordCount_iff (data : List UInt8) (workers : Nat) (hpos : 0 < workers)
    (order : List Nat) (horder : order.Perm (List.range workers)) :
    (globalWordCount data workers order = wordCount data ∧
      globalWordCount data workers order = workerThread data 0 data.length) ↔
    ∀ i, 0 < i → i < workers → cutsWord data (chunkStart data workers i) = false := by
  rw [workerThread_whole, and_self, globalWordCount_eq data workers hpos order horder,
    Nat.add_eq_left, cutWords_eq_zero_iff]

/-- Two workers over `a b c`, the second one first. -/
theorem globalWordCount_iff_spaced :
    (globalWordCount [97, 32, 98, 32, 99] 2 [1, 0] = wordCount [97, 32, 98, 32, 99] ∧
      globalWordCount [97, 32, 98, 32, 99] 2 [1, 0] =
        workerThread [97, 32, 98, 32, 99] 0 5) ↔
    ∀ i, 0 < i → i < 2 →
      cutsWord [97, 32, 98, 32, 99] (chunkStart [97, 32, 98, 32, 99] 2 i) = false :=
  globalWordCount_iff [97, 32, 98, 32, 99] 2 (by decide) [1, 0] (by decide)

/-- Four workers over the one word `word` count four. -/
theorem not_globalWordCount_word :
    ¬ ∀ (data : List UInt8) (workers : Nat), 0 < workers → ∀ order : List Nat,
      order.Perm (List.range workers) →
      globalWordCount data workers order = wordCount data := by
  intro h
  have hword := h [119, 111, 114, 100] 4 (by decide) [0, 1, 2, 3] (by decide)
  revert hword
  decide

end SystemsInC.Ports.WordCount
