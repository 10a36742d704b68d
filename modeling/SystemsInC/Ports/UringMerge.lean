import SystemsInC.Verified.BufferedCopy
import SystemsInC.Verified.CString
import Mathlib.Data.List.Perm.Basic

/-!
# A merge of files through io_uring

`main` of `reads-from-multiple-files-asynchronously-io_uring.c`: a loop that submits
one read for each input file and a loop that takes the completions in the order in
which the kernel delivers them.

The first loop skips a file that it cannot open or stat, and gives up when all
entries of the queue are taken, which are only submitted behind the loop.  The
second one waits once for each argument, submitted or not, and writes the whole
buffer of a read that may have filled only a part of it.  `merge_exact_iff` says
when none of this matters.
-/

namespace SystemsInC.Ports.UringMerge

open SystemsInC.Verified.CString
open SystemsInC.Verified.BufferedCopy

/-- `QUEUE_DEPTH`. -/
def queueDepth : Nat := 4

/-! ## Files, requests and completions -/

/-- An input file and what the kernel does with the calls on it. -/
structure InputFile where
  name : String
  content : Bytes
  /-- the error of `open`, if it fails -/
  openError : Option Nat
  /-- the error of `fstat`, if it fails -/
  fstatError : Option Nat
  /-- the bytes of the buffer before the read -/
  garbage : Bytes
  /-- `res` of the completion -/
  answer : Answer
  garbage_length : garbage.length = content.length
  answer_le : ∀ n, answer = .count n → n ≤ content.length

/-- The program gets a descriptor and a size. -/
def InputFile.Openable (file : InputFile) : Prop :=
  file.openError = none ∧ file.fstatError = none

instance (file : InputFile) : Decidable file.Openable := by
  unfold InputFile.Openable
  infer_instance

/-- The bytes that a successful read returns. -/
def InputFile.returned (file : InputFile) : Bytes :=
  match file.answer with
  | .error _ => []
  | .count n => file.content.take n

structure ReadRequest where
  file : InputFile
  offset : Nat
  fileSize : Nat
  buffer : Bytes

def InputFile.request (file : InputFile) : ReadRequest :=
  { file := file
    offset := 0
    fileSize := file.content.length
    buffer := file.garbage }

/-- The kernel completes a request: a read of `n` bytes puts them to the start of the buffer. -/
def ReadRequest.complete (request : ReadRequest) : ReadRequest :=
  match request.file.answer with
  | .error _ => request
  | .count n =>
      { request with
        buffer := (request.file.content.drop request.offset).take n ++ request.buffer.drop n }

/-! ## The program -/

inductive Message
  | usage
  | perror (what : String) (errno : Nat)
  | noEntry
  | readFailed (name : String) (errno : Nat)
  | merged (name : String) (bytes : Nat)
  deriving DecidableEq

inductive Status
  | returned (status : Int)
  | exited (status : Int)
  /-- in `io_uring_wait_cqe`, with no request left that could complete -/
  | blocked
  deriving DecidableEq

/-- The state of the two loops. -/
structure Sys where
  /-- the entries of the submission queue -/
  requests : List ReadRequest
  output : Bytes
  messages : List Message
  /-- the completions that the second loop has got -/
  completed : Nat

def Sys.init : Sys := ⟨[], [], [], 0⟩

def Sys.say (s : Sys) (message : Message) : Sys :=
  { s with messages := s.messages ++ [message] }

/-- The first loop; it ends early if the queue has no free entry. -/
def submissionLoop (s : Sys) : List InputFile → Sys × Bool
  | [] => (s, true)
  | file :: files =>
      match file.openError, file.fstatError with
      | some errno, _ => submissionLoop (s.say (.perror "open input file" errno)) files
      | none, some errno => submissionLoop (s.say (.perror "fstat" errno)) files
      | none, none =>
          if s.requests.length < queueDepth then
            submissionLoop { s with requests := s.requests ++ [file.request] } files
          else
            (s.say .noEntry, false)

/-- The body of the second loop for a completion. -/
def Sys.handle (s : Sys) (request : ReadRequest) : Sys :=
  match request.file.answer with
  | .error errno =>
      { s.say (.readFailed request.file.name errno) with completed := s.completed + 1 }
  | .count _ =>
      { s.say (.merged request.file.name request.fileSize) with
        output := s.output ++ request.buffer.take request.fileSize
        completed := s.completed + 1 }

/-- The second loop: `rounds` more rounds, with the requests in the order in which they
complete. -/
def completionLoop (s : Sys) : Nat → List ReadRequest → Sys × Status
  | 0, _ => (s, .returned 0)
  | _ + 1, [] => (s, .blocked)
  | rounds + 1, request :: order =>
      completionLoop (s.handle request.complete) rounds order

/-- What `io_uring_submit` submits for these files. -/
def submitted (files : List InputFile) : List ReadRequest :=
  (submissionLoop Sys.init files).1.requests

/-- `main` for these input files; `order` are the submitted requests in the order in which they
complete. -/
def main (files : List InputFile) (order : List ReadRequest) : Sys × Status :=
  if files.length < 1 then
    (Sys.init.say .usage, .returned 1)
  else
    let (s, accepted) := submissionLoop Sys.init files
    if accepted then completionLoop s files.length order else (s, .exited 1)

/-- The program ends well, every openable file takes part, a completion has been taken for each
request, and the output is what the reads returned. -/
structure MergesExactly (files : List InputFile) (order : List ReadRequest) : Prop where
  ends : (main files order).2 = .returned 0
  takesPart : submitted files = (files.filter (fun file => file.Openable)).map InputFile.request
  waits : (main files order).1.completed = (submitted files).length
  output : (main files order).1.output = order.flatMap (fun request => request.file.returned)

/-! ## The submission loop -/

variable {files : List InputFile} {order : List ReadRequest} {s : Sys}

/-- The requests of the files that open. -/
def openRequests (files : List InputFile) : List ReadRequest :=
  (files.filter (fun file => file.Openable)).map InputFile.request

theorem openRequests_cons_of_openable {file : InputFile} (h : file.Openable) :
    openRequests (file :: files) = file.request :: openRequests files := by
  rw [openRequests, List.filter_cons_of_pos (by simpa using h)]
  rfl

theorem openRequests_cons_of_not {file : InputFile} (h : ¬ file.Openable) :
    openRequests (file :: files) = openRequests files := by
  rw [openRequests, List.filter_cons_of_neg (by simpa using h)]
  rfl

theorem length_openRequests_le (files : List InputFile) :
    (openRequests files).length ≤ files.length := by
  rw [openRequests, List.length_map]
  exact List.length_filter_le _ _

/-- As many requests as files: all files open. -/
theorem openable_of_length (files : List InputFile)
    (h : files.length ≤ (openRequests files).length) :
    ∀ file ∈ files, file.Openable := by
  rw [openRequests, List.length_map] at h
  have hall := List.length_filter_eq_length_iff.mp
    (Nat.le_antisymm (List.length_filter_le _ files) h)
  intro file hfile
  simpa using hall file hfile

theorem openRequests_of_openable (h : ∀ file ∈ files, file.Openable) :
    openRequests files = files.map InputFile.request := by
  rw [openRequests, List.filter_eq_self.mpr (fun file hfile => by simpa using h file hfile)]

/-- Where the queue is deep enough the loop takes all files that open, and otherwise it
gives up. -/
theorem submissionLoop_spec (files : List InputFile) (s : Sys)
    (hs : s.requests.length ≤ queueDepth) :
    if s.requests.length + (openRequests files).length ≤ queueDepth then
      ∃ messages, submissionLoop s files =
        ({ s with requests := s.requests ++ openRequests files, messages := messages }, true)
    else
      (submissionLoop s files).2 = false := by
  induction files generalizing s with
  | nil =>
      rw [if_pos (by simpa [openRequests] using hs)]
      exact ⟨s.messages, by simp [submissionLoop, openRequests]⟩
  | cons file files ih =>
      cases hopen : file.openError with
      | some errno =>
          have hnot : ¬ file.Openable := by simp [InputFile.Openable, hopen]
          rw [openRequests_cons_of_not hnot]
          simp only [submissionLoop, hopen]
          exact ih (s.say _) hs
      | none =>
          cases hstat : file.fstatError with
          | some errno =>
              have hnot : ¬ file.Openable := by simp [InputFile.Openable, hstat]
              rw [openRequests_cons_of_not hnot]
              simp only [submissionLoop, hopen, hstat]
              exact ih (s.say _) hs
          | none =>
              rw [openRequests_cons_of_openable ⟨hopen, hstat⟩]
              simp only [submissionLoop, hopen, hstat, List.length_cons]
              by_cases hfree : s.requests.length < queueDepth
              · have htail := ih { s with requests := s.requests ++ [file.request] }
                  (by rw [List.length_append, List.length_singleton]; omega)
                rw [if_pos hfree]
                simp only [List.length_append, List.length_singleton, List.append_assoc,
                  List.singleton_append] at htail
                rwa [Nat.add_assoc, Nat.add_comm 1] at htail
              · rw [if_neg hfree, if_neg (by omega)]

/-- All files that open fit into the queue. -/
theorem submissionLoop_accepts (h : (openRequests files).length ≤ queueDepth) :
    ∃ messages, submissionLoop Sys.init files =
      ({ Sys.init with requests := openRequests files, messages := messages }, true) := by
  have hspec := submissionLoop_spec files Sys.init (Nat.zero_le _)
  have hnil : Sys.init.requests = [] := rfl
  rw [hnil, List.length_nil, Nat.zero_add, if_pos h, List.nil_append] at hspec
  exact hspec

theorem submissionLoop_gives_up (h : queueDepth < (openRequests files).length) :
    (submissionLoop Sys.init files).2 = false := by
  have hspec := submissionLoop_spec files Sys.init (Nat.zero_le _)
  have hnil : Sys.init.requests = [] := rfl
  rwa [hnil, List.length_nil, Nat.zero_add, if_neg (by omega)] at hspec

/-! ## The completion loop -/

/-- What the second loop writes for a request. -/
def ReadRequest.written (request : ReadRequest) : Bytes :=
  match request.file.answer with
  | .error _ => []
  | .count _ => request.complete.buffer.take request.complete.fileSize

theorem complete_file (request : ReadRequest) : request.complete.file = request.file := by
  unfold ReadRequest.complete
  split <;> rfl

theorem handle_complete (s : Sys) (request : ReadRequest) :
    (s.handle request.complete).output = s.output ++ request.written ∧
      (s.handle request.complete).completed = s.completed + 1 := by
  unfold Sys.handle ReadRequest.written
  rw [complete_file]
  cases request.file.answer with
  | error errno => exact ⟨(List.append_nil _).symm, rfl⟩
  | count n => exact ⟨rfl, rfl⟩

/-- With a completion for each round the loop ends. -/
theorem completionLoop_returns (s : Sys) {rounds : Nat} (h : order.length = rounds) :
    (completionLoop s rounds order).2 = .returned 0 ∧
      (completionLoop s rounds order).1.completed = s.completed + rounds ∧
      (completionLoop s rounds order).1.output = s.output ++ order.flatMap ReadRequest.written := by
  induction order generalizing s rounds with
  | nil =>
      subst h
      exact ⟨rfl, rfl, (List.append_nil _).symm⟩
  | cons request order ih =>
      subst h
      have ⟨houtput, hcompleted⟩ := handle_complete s request
      have ⟨hends, hcount, hwritten⟩ := ih (s.handle request.complete) rfl
      refine ⟨hends, ?_, ?_⟩
      · rw [List.length_cons, completionLoop, hcount, hcompleted]
        omega
      · rw [List.length_cons, completionLoop, hwritten, houtput, List.flatMap_cons,
          List.append_assoc]

/-- With fewer completions than rounds the loop waits for one that cannot come. -/
theorem completionLoop_blocks (s : Sys) {rounds : Nat} (h : order.length < rounds) :
    (completionLoop s rounds order).2 = .blocked := by
  induction order generalizing s rounds with
  | nil =>
      obtain _ | rounds := rounds
      · contradiction
      · rfl
  | cons request order ih =>
      obtain _ | rounds := rounds
      · contradiction
      · exact ih _ (by simpa using h)

/-! ## What is written and what was read -/

/-- The buffer that the program writes starts with what the read returned, and the rest is
what was there before. -/
theorem written_request (file : InputFile) {n : Nat} (h : file.answer = .count n) :
    file.request.written = file.returned ++ file.garbage.drop n := by
  have hle := file.answer_le n h
  have hgarbage := file.garbage_length
  have hlength : (file.content.take n ++ file.garbage.drop n).length = file.content.length := by
    rw [List.length_append, List.length_take, List.length_drop]
    omega
  simp only [ReadRequest.written, ReadRequest.complete, InputFile.request, InputFile.returned, h,
    List.drop_zero]
  exact List.take_of_length_le (Nat.le_of_eq hlength)

theorem written_request_of_error (file : InputFile) {errno : Nat}
    (h : file.answer = .error errno) : file.request.written = file.returned := by
  simp only [ReadRequest.written, InputFile.request, InputFile.returned, h]

/-- The read was not short. -/
def InputFile.Whole (file : InputFile) : Prop :=
  ∀ n, file.answer = .count n → n = file.content.length

theorem returned_length_le (file : InputFile) :
    file.returned.length ≤ file.request.written.length := by
  cases h : file.answer with
  | error errno => rw [written_request_of_error file h]
  | count n =>
      rw [written_request file h, List.length_append]
      omega

/-- Only for a whole read is as much written as was read. -/
theorem whole_iff (file : InputFile) :
    file.Whole ↔ file.returned.length = file.request.written.length := by
  cases h : file.answer with
  | error errno =>
      refine iff_of_true (fun n hn => ?_) (by rw [written_request_of_error file h])
      rw [h] at hn
      cases hn
  | count n =>
      have hle := file.answer_le n h
      have hgarbage := file.garbage_length
      rw [written_request file h, List.length_append, List.length_drop]
      constructor
      · intro hwhole
        have heq := hwhole n h
        omega
      · intro hlength k hk
        rw [h] at hk
        cases hk
        omega

theorem written_of_whole {file : InputFile} (hwhole : file.Whole) :
    file.request.written = file.returned := by
  cases h : file.answer with
  | error errno => exact written_request_of_error file h
  | count n =>
      have hn := hwhole n h
      have hgarbage := file.garbage_length
      rw [written_request file h, List.drop_eq_nil_of_le (by omega), List.append_nil]

section Pieces

variable {α β : Type*} {f g : α → List β} {l : List α}

theorem length_flatMap_le (hle : ∀ x ∈ l, (f x).length ≤ (g x).length) :
    (l.flatMap f).length ≤ (l.flatMap g).length := by
  induction l with
  | nil => exact Nat.le_refl _
  | cons x l ih =>
      have hhead := hle x (by simp)
      have htail := ih (fun y hy => hle y (by simp [hy]))
      rw [List.flatMap_cons, List.flatMap_cons, List.length_append, List.length_append]
      omega

/-- Pieces that are no longer, one by one, than others of the same total length are as long. -/
theorem length_eq_of_flatMap (hle : ∀ x ∈ l, (f x).length ≤ (g x).length)
    (heq : (l.flatMap f).length = (l.flatMap g).length) :
    ∀ x ∈ l, (f x).length = (g x).length := by
  induction l with
  | nil => simp
  | cons x l ih =>
      have hhead := hle x (by simp)
      have htail : ∀ y ∈ l, (f y).length ≤ (g y).length := fun y hy => hle y (by simp [hy])
      have hrest := length_flatMap_le htail
      rw [List.flatMap_cons, List.flatMap_cons, List.length_append, List.length_append] at heq
      intro y hy
      rcases List.mem_cons.mp hy with rfl | hy
      · omega
      · exact ih htail (by omega) y hy

end Pieces

/-! ## When the merge is exact -/

theorem submitted_eq (h : (openRequests files).length ≤ queueDepth) :
    submitted files = openRequests files := by
  have ⟨messages, heq⟩ := submissionLoop_accepts h
  rw [submitted, heq]

theorem main_of_accepted (order : List ReadRequest) (hfiles : files ≠ [])
    (h : (openRequests files).length ≤ queueDepth) :
    ∃ messages, main files order =
      completionLoop { Sys.init with requests := openRequests files, messages := messages }
        files.length order := by
  have ⟨messages, heq⟩ := submissionLoop_accepts h
  have hpos := List.length_pos_iff.mpr hfiles
  refine ⟨messages, ?_⟩
  rw [main, if_neg (by omega), heq]
  rfl

/-- A program that gives up does not end well. -/
theorem openRequests_le_of_returned (hfiles : files ≠ [])
    (h : (main files order).2 = .returned 0) : (openRequests files).length ≤ queueDepth := by
  by_contra hmany
  have hpos := List.length_pos_iff.mpr hfiles
  have hloop := submissionLoop_gives_up (Nat.lt_of_not_le hmany)
  rw [main, if_neg (by omega)] at h
  simp only [hloop] at h
  contradiction

/-- A program that waits for a completion that cannot come does not end well. -/
theorem length_le_of_returned (hfiles : files ≠ []) (h : (main files order).2 = .returned 0) :
    files.length ≤ order.length := by
  by_contra hfew
  have ⟨messages, hmain⟩ := main_of_accepted order hfiles (openRequests_le_of_returned hfiles h)
  have hblocked := completionLoop_blocks
    { Sys.init with requests := openRequests files, messages := messages } (Nat.lt_of_not_le hfew)
  rw [← hmain, h] at hblocked
  cases hblocked

/-- The program ends well only where all files open and fit into the queue. -/
theorem openable_of_returned (hfiles : files ≠ []) (horder : order.Perm (submitted files))
    (h : (main files order).2 = .returned 0) :
    (∀ file ∈ files, file.Openable) ∧ files.length ≤ queueDepth := by
  have hfits := openRequests_le_of_returned hfiles h
  have hrounds := length_le_of_returned hfiles h
  have hlength := horder.length_eq
  rw [submitted_eq hfits] at hlength
  exact ⟨openable_of_length files (by omega), by omega⟩

/-- Where all files open and fit into the queue, the program ends well and writes a buffer for
each request, in the order of the completions. -/
theorem main_of_openable (hfiles : files ≠ []) (hopen : ∀ file ∈ files, file.Openable)
    (hdepth : files.length ≤ queueDepth) (horder : order.Perm (submitted files)) :
    (main files order).2 = .returned 0 ∧ (main files order).1.completed = files.length ∧
      (main files order).1.output = order.flatMap ReadRequest.written := by
  have hcount : (openRequests files).length = files.length := by
    rw [openRequests_of_openable hopen, List.length_map]
  have hfits : (openRequests files).length ≤ queueDepth := by omega
  have ⟨messages, hmain⟩ := main_of_accepted order hfiles hfits
  rw [submitted_eq hfits] at horder
  have ⟨hends, hcompleted, hwritten⟩ := completionLoop_returns
    { Sys.init with requests := openRequests files, messages := messages }
    (horder.length_eq.trans hcount)
  rw [← hmain] at hends hcompleted hwritten
  exact ⟨hends, hcompleted.trans (Nat.zero_add _), hwritten.trans (List.nil_append _)⟩

theorem submitted_of_openable (hopen : ∀ file ∈ files, file.Openable)
    (hdepth : files.length ≤ queueDepth) : submitted files = files.map InputFile.request := by
  rw [submitted_eq ((length_openRequests_le files).trans hdepth), openRequests_of_openable hopen]

/-- A merge that is exact has written no byte that was not read, so no read was short. -/
theorem whole_of_merges (hopen : ∀ file ∈ files, file.Openable)
    (hdepth : files.length ≤ queueDepth) (horder : order.Perm (submitted files))
    (hwritten : order.flatMap ReadRequest.written =
      order.flatMap (fun request => request.file.returned)) :
    ∀ file ∈ files, file.Whole := by
  rw [submitted_of_openable hopen hdepth] at horder
  have hpieces := length_eq_of_flatMap (l := order)
    (f := fun request => request.file.returned) (g := ReadRequest.written) ?_
    (congrArg List.length hwritten).symm
  · intro file hfile
    rw [whole_iff]
    exact hpieces file.request (horder.symm.subset (List.mem_map_of_mem hfile))
  · intro request hrequest
    have ⟨file, _, heq⟩ := List.mem_map.mp (horder.subset hrequest)
    rw [← heq]
    exact returned_length_le file

/-- What is written is what was read, where no read was short. -/
theorem written_of_all_whole (hopen : ∀ file ∈ files, file.Openable)
    (hdepth : files.length ≤ queueDepth) (horder : order.Perm (submitted files))
    (hwhole : ∀ file ∈ files, file.Whole) :
    order.flatMap ReadRequest.written =
      order.flatMap (fun request => request.file.returned) := by
  rw [submitted_of_openable hopen hdepth] at horder
  refine List.flatMap_congr (fun request hrequest => ?_)
  have ⟨file, hfile, heq⟩ := List.mem_map.mp (horder.subset hrequest)
  rw [← heq]
  exact written_of_whole (hwhole file hfile)

/-- **The merge is exact if and only if** every input file opens, they all fit into the
submission queue, and no read is short. -/
theorem merge_exact_iff (files : List InputFile) (order : List ReadRequest)
    (hfiles : files ≠ []) (horder : order.Perm (submitted files)) :
    MergesExactly files order ↔
      (∀ file ∈ files, file.Openable) ∧ files.length ≤ queueDepth ∧ ∀ file ∈ files, file.Whole := by
  constructor
  · intro h
    have ⟨hopen, hdepth⟩ := openable_of_returned hfiles horder h.ends
    have ⟨_, _, hwritten⟩ := main_of_openable hfiles hopen hdepth horder
    exact ⟨hopen, hdepth, whole_of_merges hopen hdepth horder (hwritten.symm.trans h.output)⟩
  · rintro ⟨hopen, hdepth, hwhole⟩
    have ⟨hends, hcompleted, hwritten⟩ := main_of_openable hfiles hopen hdepth horder
    exact
      { ends := hends
        takesPart := submitted_eq ((length_openRequests_le files).trans hdepth)
        waits := by rw [hcompleted, submitted_of_openable hopen hdepth, List.length_map]
        output := hwritten.trans (written_of_all_whole hopen hdepth horder hwhole) }

/-- A file that opens and is read as a whole. -/
def wholeFile (name : String) (content : Bytes) : InputFile :=
  { name := name
    content := content
    openError := none
    fstatError := none
    garbage := List.replicate content.length 0
    answer := .count content.length
    garbage_length := List.length_replicate
    answer_le := fun _ h => by
      cases h
      exact Nat.le_refl _ }

/-- Two files, of which the second one is read first. -/
theorem merge_exact_iff_twoFiles :
    MergesExactly [wholeFile "a" [1, 2], wholeFile "b" [3]]
        [(wholeFile "b" [3]).request, (wholeFile "a" [1, 2]).request] ↔
      (∀ file ∈ [wholeFile "a" [1, 2], wholeFile "b" [3]], file.Openable) ∧ 2 ≤ queueDepth ∧
        ∀ file ∈ [wholeFile "a" [1, 2], wholeFile "b" [3]], file.Whole :=
  merge_exact_iff _ _ (by simp) (List.Perm.swap _ _ [])

/-- One file that cannot be opened: no read is submitted, and the program waits for one. -/
theorem missing_file_blocks :
    ¬ ∀ (files : List InputFile) (order : List ReadRequest), files ≠ [] →
      order.Perm (submitted files) → MergesExactly files order := by
  intro h
  have hmerge := h [{ wholeFile "a" [] with openError := some 2 }] [] (by simp)
    (List.Perm.refl [])
  have hblocked : Status.blocked = .returned 0 := hmerge.ends
  cases hblocked

end SystemsInC.Ports.UringMerge
