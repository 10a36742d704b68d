import SystemsInC.Verified.BufferedInput
import SystemsInC.Verified.Words

/-!
# The command line of a shell

`minishell.c` reads a line into an array of 1024 bytes, cuts it into words in place and
starts a child with at most 63 of them.  What does not fit into the array is read by the
next turn of the loop as a line of its own.  A child that finds no command ends with `exit`,
which gives what the shell has read ahead back to an input that can be seeked, and the shell
reads it a second time.

`lineTurns_calm` says what the turns for one line do where no child gives anything back: they
run its `pieces` one after the other.  A command that stands in one piece is run with its
first 63 words, `runs_first_words`, and `runs_line_iff` says when a line is run as it was
typed, whatever input it stands in.
-/

namespace SystemsInC.Ports.MiniShell

open SystemsInC.Verified.CString
open SystemsInC.Verified.TextInput
open SystemsInC.Verified.BufferedInput
open SystemsInC.Verified.Words

def MAX_INPUT : Nat := 1024

def MAX_ARGS : Nat := 64

/-- The delimiter of `strtok`. -/
def isBlank (b : UInt8) : Bool := b = 32

/-- `strtok` on what is left of the string: the token, and what is left behind it. -/
def strtok (left : Bytes) : Option (Bytes × Bytes) :=
  match left.dropWhile isBlank with
  | [] => none
  | b :: l =>
      -- the delimiter behind the token becomes its NUL
      some (b :: l.takeWhile (fun c => !isBlank c), (l.dropWhile (fun c => !isBlank c)).drop 1)

/-- The loop that fills `args`; `room` is `MAX_ARGS - 1 - i`. -/
def fillArgs : Nat → Option (Bytes × Bytes) → List Bytes
  | 0, _ => []
  | _ + 1, none => []
  | room + 1, some (token, left) => token :: fillArgs room (strtok left)

section Loop

-- whether `execvp` finds the command of an argument vector
variable (found : List Bytes → Bool)

/-- The input of the shell behind a child.  A command that is found leaves it alone; where
`execvp` fails, the child ends with `exit`. -/
def afterChild (args : List Bytes) (stdin : Input) : Input :=
  if found args then stdin else stdin.giveBack

/-- What a turn of the loop does. -/
inductive Turn
  | exit
  /-- `args` is the argument vector of the child, if one is started -/
  | next (args : Option (List Bytes)) (stdin : Input)

/-- A turn behind the removal of the newline. -/
def command (input : Bytes) (stdin : Input) : Turn :=
  if strcmpEq input (ascii "exit") then
    .exit
  else
    match fillArgs (MAX_ARGS - 1) (strtok input) with
    | [] => .next none stdin
    | args => .next (some args) (afterChild found args stdin)

def turn (stdin : Input) : Turn :=
  let line := stdin.gets (MAX_INPUT - 1)
  if line.1 = [] then
    .exit
  else
    command found (chomp line.1) line.2

/-- The argument vectors of all children, if the loop ends within `fuel` turns. -/
def session : Nat → Input → Option (List (List Bytes))
  | 0, _ => none
  | fuel + 1, stdin =>
      match turn found stdin with
      | .exit => some []
      | .next args stdin' => (session fuel stdin').map (args.toList ++ ·)

/-- The turns for one line, up to the one that reads its newline: the argument vectors of the
children, and the input that is left. -/
def lineTurns : Nat → Input → Option (List (List Bytes) × Input)
  | 0, _ => none
  | fuel + 1, stdin =>
      match turn found stdin with
      | .exit => none
      | .next args stdin' =>
          if 10 ∈ (stdin.gets (MAX_INPUT - 1)).1 then
            some (args.toList, stdin')
          else
            (lineTurns fuel stdin').map (fun r => (args.toList ++ r.1, r.2))

end Loop

/-- A line of input without its newline. -/
structure Line where
  text : Bytes
  plain : ∀ b ∈ text, b ≠ 0 ∧ b ≠ 10
  notExit : text ≠ ascii "exit"

/-- The commands of some lines, in their order. -/
def commands (lines : List Line) : List (List Bytes) :=
  (lines.map (fun line => words isBlank line.text)).filter (fun args => !args.isEmpty)

/-! ## One turn -/

variable {found : List Bytes → Bool} {text rest : Bytes} {stdin : Input}

theorem fillArgs_strtok (room : Nat) (left : Bytes) :
    fillArgs room (strtok left) = (words isBlank left).take room := by
  induction room generalizing left with
  | zero =>
      rw [List.take_zero]
      rfl
  | succ room ih =>
      rw [strtok, ← words_dropWhile]
      cases hstart : left.dropWhile isBlank with
      | nil => rfl
      | cons b l =>
          have hb : isBlank b = false := by
            have hhead := List.head?_dropWhile_not isBlank left
            rw [hstart] at hhead
            simpa using hhead
          have hdelimiter : words isBlank ((l.dropWhile (fun c => !isBlank c)).drop 1) =
              words isBlank (l.dropWhile (fun c => !isBlank c)) := by
            have hstop := head?_dropWhile_all isBlank l
            cases hrest : l.dropWhile (fun c => !isBlank c) with
            | nil => rfl
            | cons c l' =>
                rw [hrest] at hstop
                have hc : isBlank c = true := hstop
                exact (words_cons_of_sep hc).symm
          rw [words_cons_of_not_sep hb, List.take_succ_cons, fillArgs, ih, hdelimiter]

/-- What a turn does with a command. -/
theorem command_eq (htext : ∀ b ∈ text, b ≠ 0) (stdin : Input) :
    command found text stdin =
      if text = ascii "exit" then .exit
      else if words isBlank text = [] then .next none stdin
      else .next (some ((words isBlank text).take 63))
        (afterChild found ((words isBlank text).take 63) stdin) := by
  have hword : cstr (ascii "exit") = ascii "exit" := by decide
  have hexit : strcmpEq text (ascii "exit") ↔ text = ascii "exit" := by
    rw [strcmpEq, cstr_eq_self htext, hword]
  rw [command, fillArgs_strtok]
  by_cases h : text = ascii "exit"
  · rw [if_pos (hexit.mpr h), if_pos h]
  · rw [if_neg (fun heq => h (hexit.mp heq)), if_neg h]
    cases hwords : words isBlank text with
    | nil => rfl
    | cons w ws => rfl

/-- A line that fits is run as a whole. -/
theorem turn_of_lt (found : List Bytes → Bool) (htext : ∀ b ∈ text, b ≠ 0 ∧ b ≠ 10)
    (hlen : text.length < MAX_INPUT - 1) (hunread : stdin.unread = text ++ 10 :: rest) :
    turn found stdin = command found text (stdin.gets (MAX_INPUT - 1)).2 ∧
      10 ∈ (stdin.gets (MAX_INPUT - 1)).1 ∧
      (stdin.gets (MAX_INPUT - 1)).2.unread = rest := by
  have ⟨hline, hrest⟩ := Input.gets_spec (MAX_INPUT - 1) stdin
  have hfits : fgetsLine (MAX_INPUT - 1 + 1) (text ++ 10 :: rest) = text ++ [10] :=
    fgetsLine_of_lt (fun b hb => (htext b hb).2) hlen rest
  rw [hunread, hfits] at hline hrest
  refine ⟨?_, ?_, ?_⟩
  · rw [turn, hline, if_neg (by simp), chomp_newline htext]
  · rw [hline]
    exact List.mem_append_right text (List.mem_singleton.mpr rfl)
  · have hsplit : text ++ 10 :: rest = text ++ [10] ++ rest := by simp
    rw [hrest, hsplit, List.drop_left]

/-- Of a line that does not fit the start is run. -/
theorem turn_of_le (found : List Bytes → Bool) (htext : ∀ b ∈ text, b ≠ 0 ∧ b ≠ 10)
    (hlen : MAX_INPUT - 1 ≤ text.length) (hunread : stdin.unread = text ++ 10 :: rest) :
    turn found stdin =
        command found (text.take (MAX_INPUT - 1)) (stdin.gets (MAX_INPUT - 1)).2 ∧
      10 ∉ (stdin.gets (MAX_INPUT - 1)).1 ∧
      (stdin.gets (MAX_INPUT - 1)).2.unread = text.drop (MAX_INPUT - 1) ++ 10 :: rest := by
  have ⟨hline, hrest⟩ := Input.gets_spec (MAX_INPUT - 1) stdin
  have hfull : fgetsLine (MAX_INPUT - 1 + 1) (text ++ 10 :: rest) =
      text.take (MAX_INPUT - 1) := fgetsLine_of_le (fun b hb => (htext b hb).2) hlen rest
  have hstart : ∀ b ∈ text.take (MAX_INPUT - 1), b ≠ 0 ∧ b ≠ 10 :=
    fun b hb => htext b (List.mem_of_mem_take hb)
  have hpos : text.take (MAX_INPUT - 1) ≠ [] := by
    intro hnil
    have hnone := congrArg List.length hnil
    rw [List.length_take, Nat.min_eq_left hlen] at hnone
    exact absurd hnone (by decide)
  rw [hunread, hfull] at hline hrest
  refine ⟨?_, ?_, ?_⟩
  · rw [turn, hline, if_neg hpos, chomp_eq_self hstart]
  · rw [hline]
    exact fun hmem => (hstart 10 hmem).2 rfl
  · rw [hrest, List.length_take, Nat.min_eq_left hlen, List.drop_append_of_le_length hlen]

/-- What a turn does that is given a piece of a line. -/
theorem turn_exit (htext : ∀ b ∈ text, b ≠ 0) {s : Input}
    (hturn : turn found stdin = command found text s) (hexit : text = ascii "exit") :
    turn found stdin = .exit := by
  rw [hturn, command_eq htext, if_pos hexit]

theorem turn_blank (htext : ∀ b ∈ text, b ≠ 0) {s : Input}
    (hturn : turn found stdin = command found text s) (hexit : text ≠ ascii "exit")
    (hblank : words isBlank text = []) : turn found stdin = .next none s := by
  rw [hturn, command_eq htext, if_neg hexit, if_pos hblank]

theorem turn_child (htext : ∀ b ∈ text, b ≠ 0) {s : Input}
    (hturn : turn found stdin = command found text s) (hexit : text ≠ ascii "exit")
    (hwords : words isBlank text ≠ []) :
    turn found stdin = .next (some ((words isBlank text).take 63))
      (afterChild found ((words isBlank text).take 63) s) := by
  rw [hturn, command_eq htext, if_neg hexit, if_neg hwords]

/-! ## Enough turns -/

theorem lineTurns_mono {n m : Nat} {r : List (List Bytes) × Input} (hle : n ≤ m)
    (h : lineTurns found n stdin = some r) : lineTurns found m stdin = some r := by
  induction n generalizing m stdin r with
  | zero => cases h
  | succ n ih =>
      obtain ⟨m', rfl⟩ : ∃ m', m = m' + 1 := ⟨m - 1, by omega⟩
      rw [lineTurns] at h ⊢
      cases hturn : turn found stdin with
      | exit =>
          rw [hturn] at h
          cases h
      | next args stdin' =>
          simp only [hturn] at h ⊢
          by_cases hend : 10 ∈ (stdin.gets (MAX_INPUT - 1)).1
          · rw [if_pos hend] at h ⊢
            exact h
          · rw [if_neg hend, Option.map_eq_some_iff] at h
            have ⟨r', hr', heq⟩ := h
            rw [if_neg hend, ih (Nat.le_of_succ_le_succ hle) hr', Option.map_some, heq]

/-- The parts that a line is read in: as long as a whole array is full, another one follows. -/
def pieces (text : Bytes) : List Bytes :=
  if text.length < MAX_INPUT - 1 then
    [text]
  else
    text.take (MAX_INPUT - 1) :: pieces (text.drop (MAX_INPUT - 1))
termination_by text.length
decreasing_by
  have hpos : 0 < MAX_INPUT - 1 := by decide
  rw [List.length_drop]
  omega

/-- The pieces run one after the other, up to one that is `exit`. -/
def runPieces : List Bytes → List (List Bytes)
  | [] => []
  | p :: ps =>
      if p = ascii "exit" then
        []
      else if words isBlank p = [] then
        runPieces ps
      else
        (words isBlank p).take 63 :: runPieces ps

theorem flatten_pieces (text : Bytes) : (pieces text).flatten = text := by
  induction text using pieces.induct with
  | case1 text hlen =>
      rw [pieces, if_pos hlen]
      simp
  | case2 text hlen ih =>
      rw [pieces, if_neg hlen, List.flatten_cons, ih, List.take_append_drop]

/-- The turn for a line that fits. -/
theorem lineTurns_of_lt {Q : Input → Prop} (hgets : ∀ s, Q s → Q (s.gets (MAX_INPUT - 1)).2)
    (htext : ∀ b ∈ text, b ≠ 0 ∧ b ≠ 10) (hlen : text.length < MAX_INPUT - 1)
    (hcalm : ∀ args ∈ runPieces [text], ∀ s, Q s → afterChild found args s = s)
    (hstdin : Q stdin) (hunread : stdin.unread = text ++ 10 :: rest) (fuel : Nat) :
    (text = ascii "exit" ∧ lineTurns found (fuel + 1) stdin = none) ∨
      text ≠ ascii "exit" ∧ ∃ s, Q s ∧ s.unread = rest ∧
        lineTurns found (fuel + 1) stdin = some (runPieces [text], s) := by
  have ⟨hturn, hend, hrest⟩ := turn_of_lt found htext hlen hunread
  have hplain : ∀ b ∈ text, b ≠ 0 := fun b hb => (htext b hb).1
  have hkept := hgets stdin hstdin
  rw [runPieces] at hcalm ⊢
  rw [lineTurns]
  by_cases hexit : text = ascii "exit"
  · left
    rw [turn_exit hplain hturn hexit]
    exact ⟨hexit, rfl⟩
  · right
    refine ⟨hexit, (stdin.gets (MAX_INPUT - 1)).2, hkept, hrest, ?_⟩
    rw [if_neg hexit] at hcalm ⊢
    by_cases hblank : words isBlank text = []
    · simp only [turn_blank hplain hturn hexit hblank]
      rw [if_pos hend, if_pos hblank]
      rfl
    · rw [if_neg hblank] at hcalm ⊢
      simp only [turn_child hplain hturn hexit hblank]
      rw [if_pos hend, hcalm _ List.mem_cons_self _ hkept]
      rfl

/-- The turns for a line whose children give nothing back.  `Q` is what all turns keep. -/
theorem lineTurns_calm {Q : Input → Prop} (hgets : ∀ s, Q s → Q (s.gets (MAX_INPUT - 1)).2)
    (htext : ∀ b ∈ text, b ≠ 0 ∧ b ≠ 10)
    (hcalm : ∀ args ∈ runPieces (pieces text), ∀ s, Q s → afterChild found args s = s)
    (hstdin : Q stdin) (hunread : stdin.unread = text ++ 10 :: rest) {fuel : Nat}
    (hfuel : text.length < fuel) :
    (ascii "exit" ∈ pieces text ∧ lineTurns found fuel stdin = none) ∨
      ascii "exit" ∉ pieces text ∧ ∃ s, Q s ∧ s.unread = rest ∧
        lineTurns found fuel stdin = some (runPieces (pieces text), s) := by
  obtain ⟨fuel, rfl⟩ : ∃ n, fuel = n + 1 := ⟨fuel - 1, by omega⟩
  induction text using pieces.induct generalizing stdin fuel with
  | case1 text hlen =>
      rw [pieces, if_pos hlen] at hcalm ⊢
      rw [List.mem_singleton, eq_comm]
      exact lineTurns_of_lt hgets htext hlen hcalm hstdin hunread fuel
  | case2 text hlen ih =>
      have hle : MAX_INPUT - 1 ≤ text.length := Nat.le_of_not_lt hlen
      have ⟨hturn, hend, hrest⟩ := turn_of_le found htext hle hunread
      have hplain : ∀ b ∈ text.take (MAX_INPUT - 1), b ≠ 0 :=
        fun b hb => (htext b (List.mem_of_mem_take hb)).1
      have hkept := hgets stdin hstdin
      obtain ⟨fuel, rfl⟩ : ∃ n, fuel = n + 1 := by
        have hpos : 0 < MAX_INPUT - 1 := by decide
        exact ⟨fuel - 1, by omega⟩
      have hless : (text.drop (MAX_INPUT - 1)).length < fuel + 1 := by
        have hpos : 0 < MAX_INPUT - 1 := by decide
        rw [List.length_drop]
        omega
      have hdrop : ∀ b ∈ text.drop (MAX_INPUT - 1), b ≠ 0 ∧ b ≠ 10 :=
        fun b hb => htext b (List.mem_of_mem_drop hb)
      rw [pieces, if_neg hlen, runPieces] at hcalm ⊢
      rw [lineTurns]
      by_cases hexit : text.take (MAX_INPUT - 1) = ascii "exit"
      · left
        rw [turn_exit hplain hturn hexit, hexit]
        exact ⟨List.mem_cons_self, rfl⟩
      · rw [if_neg hexit] at hcalm ⊢
        have hmem : ascii "exit" ∈ text.take (MAX_INPUT - 1) ::
            pieces (text.drop (MAX_INPUT - 1)) ↔
              ascii "exit" ∈ pieces (text.drop (MAX_INPUT - 1)) := by
          rw [List.mem_cons]
          exact ⟨fun h => h.resolve_left (fun heq => hexit heq.symm), .inr⟩
        rw [hmem]
        by_cases hblank : words isBlank (text.take (MAX_INPUT - 1)) = []
        · rw [if_pos hblank] at hcalm ⊢
          simp only [turn_blank hplain hturn hexit hblank]
          rw [if_neg hend]
          rcases ih hdrop hcalm hkept hrest fuel hless with
            ⟨hmem, hnone⟩ | ⟨hmem, s, hs, hs', hsome⟩
          · exact .inl ⟨hmem, by rw [hnone]; rfl⟩
          · exact .inr ⟨hmem, s, hs, hs', by rw [hsome]; rfl⟩
        · rw [if_neg hblank] at hcalm ⊢
          simp only [turn_child hplain hturn hexit hblank]
          rw [if_neg hend, hcalm _ List.mem_cons_self _ hkept]
          have hlater := fun args hargs => hcalm args (List.mem_cons_of_mem _ hargs)
          rcases ih hdrop hlater hkept hrest fuel hless with
            ⟨hmem, hnone⟩ | ⟨hmem, s, hs, hs', hsome⟩
          · exact .inl ⟨hmem, by rw [hnone]; rfl⟩
          · exact .inr ⟨hmem, s, hs, hs', by rw [hsome]; rfl⟩

/-- The same, for any number of turns that the line has been read in. -/
theorem lineTurns_of_some {Q : Input → Prop} (hgets : ∀ s, Q s → Q (s.gets (MAX_INPUT - 1)).2)
    (htext : ∀ b ∈ text, b ≠ 0 ∧ b ≠ 10)
    (hcalm : ∀ args ∈ runPieces (pieces text), ∀ s, Q s → afterChild found args s = s)
    (hstdin : Q stdin) (hunread : stdin.unread = text ++ 10 :: rest) {fuel : Nat}
    {r : List (List Bytes) × Input} (h : lineTurns found fuel stdin = some r) :
    r.1 = runPieces (pieces text) ∧ r.2.unread = rest := by
  have hmore := lineTurns_mono (Nat.le_add_right fuel (text.length + 1)) h
  rcases lineTurns_calm hgets htext hcalm hstdin hunread
    (Nat.lt_of_lt_of_le (Nat.lt_succ_self _) (Nat.le_add_left _ fuel)) with
      ⟨_, hnone⟩ | ⟨_, s, _, hrest, hsome⟩
  · rw [hnone] at hmore
    cases hmore
  · rw [hsome] at hmore
    cases hmore
    exact ⟨rfl, hrest⟩

/-! ## The command that was typed -/

/-- At most one child is started, and for a line that is not blank one with all its words. -/
def RunsLine (text : Bytes) (cs : List (List Bytes)) : Prop :=
  cs.length ≤ 1 ∧ (words isBlank text ≠ [] → cs = [words isBlank text])

/-- There is nothing but blanks. -/
def Blank (text : Bytes) : Prop := ∀ b ∈ text, isBlank b = true

/-- Everything but blanks is in one piece, and that is not `exit`. -/
def InOnePiece (text : Bytes) : Prop :=
  ∃ before p after, pieces text = before ++ p :: after ∧ p ≠ ascii "exit" ∧
    Blank before.flatten ∧ Blank after.flatten

/-- A line that fits is one piece. -/
theorem inOnePiece_of_lt (hexit : text ≠ ascii "exit") (hlen : text.length < MAX_INPUT - 1) :
    InOnePiece text :=
  ⟨[], text, [], by rw [pieces, if_pos hlen]; rfl, hexit, (fun b hb => by cases hb),
    fun b hb => by cases hb⟩

theorem Blank.ne_exit {p : Bytes} (h : Blank p) : p ≠ ascii "exit" := by
  intro heq
  subst heq
  exact absurd (h 101 (by decide)) (by decide)

theorem Blank.of_mem {ps : List Bytes} (h : Blank ps.flatten) {p : Bytes} (hp : p ∈ ps) :
    Blank p := fun b hb => h b (List.mem_flatten.mpr ⟨p, hp, hb⟩)

theorem runPieces_blank {ps : List Bytes} (h : Blank ps.flatten) (rest : List Bytes) :
    runPieces (ps ++ rest) = runPieces rest := by
  induction ps with
  | nil => rfl
  | cons p ps ih =>
      have hp : Blank p := h.of_mem List.mem_cons_self
      have hps : Blank ps.flatten := by
        intro b hb
        refine h b ?_
        rw [List.flatten_cons]
        exact List.mem_append_right p hb
      rw [List.cons_append, runPieces, if_neg hp.ne_exit, if_pos (words_eq_nil_of_all hp)]
      exact ih hps

theorem runPieces_of_flatten {ps : List Bytes} (h : Blank ps.flatten) : runPieces ps = [] := by
  have hrun := runPieces_blank h []
  rwa [List.append_nil] at hrun

/-- Where one child is started it gets the first 63 words of a piece, and the pieces in front of
that are blank. -/
theorem runPieces_single {ps : List Bytes} {args : List Bytes} (h : runPieces ps = [args]) :
    ∃ before p after, ps = before ++ p :: after ∧ p ≠ ascii "exit" ∧ Blank before.flatten ∧
      args = (words isBlank p).take 63 := by
  induction ps with
  | nil => cases h
  | cons p ps ih =>
      rw [runPieces] at h
      by_cases hexit : p = ascii "exit"
      · rw [if_pos hexit] at h
        cases h
      · rw [if_neg hexit] at h
        by_cases hblank : words isBlank p = []
        · rw [if_pos hblank] at h
          have ⟨before, p', after, heq, hp', hbefore, hargs⟩ := ih h
          refine ⟨p :: before, p', after, by rw [heq]; rfl, hp', ?_, hargs⟩
          intro b hb
          rw [List.flatten_cons] at hb
          rcases List.mem_append.mp hb with hb | hb
          · exact words_eq_nil_iff_forall.mp hblank b hb
          · exact hbefore b hb
        · rw [if_neg hblank] at h
          have heq : (words isBlank p).take 63 = args := (List.cons.inj h).1
          exact ⟨[], p, ps, rfl, hexit, (fun b hb => by cases hb), heq.symm⟩

theorem words_of_onePiece {before after : List Bytes} {p : Bytes}
    (hpieces : pieces text = before ++ p :: after) (hbefore : Blank before.flatten)
    (hafter : Blank after.flatten) : words isBlank text = words isBlank p := by
  have htext := flatten_pieces text
  rw [hpieces, List.flatten_append, List.flatten_cons] at htext
  rw [← htext, words_blank_append hbefore, words_append_blank p hafter]

/-- If the child has all words of the line, the pieces behind its own are blank. -/
theorem blank_of_args {before after : List Bytes} {p : Bytes}
    (hpieces : pieces text = before ++ p :: after)
    (hargs : words isBlank text = (words isBlank p).take 63) : Blank after.flatten := by
  have htext := flatten_pieces text
  rw [hpieces, List.flatten_append, List.flatten_cons] at htext
  have hall := flatten_words isBlank text
  have hpiece := flatten_words isBlank p
  have hsplit : (words isBlank p).flatten =
      ((words isBlank p).take 63).flatten ++ ((words isBlank p).drop 63).flatten := by
    rw [← List.flatten_append, List.take_append_drop]
  have hcount : (text.filter (fun b => !isBlank b)).length =
      (before.flatten.filter (fun b => !isBlank b)).length +
        ((p.filter (fun b => !isBlank b)).length +
          (after.flatten.filter (fun b => !isBlank b)).length) := by
    rw [← List.length_append, ← List.filter_append, ← List.length_append, ← List.filter_append,
      htext]
  have hall' := congrArg List.length hall
  have hpiece' := congrArg List.length hpiece
  have hsplit' := congrArg List.length hsplit
  rw [hargs] at hall'
  rw [List.length_append] at hsplit'
  have hzero : (after.flatten.filter (fun b => !isBlank b)).length = 0 := by omega
  intro b hb
  have hnil := List.length_eq_zero_iff.mp hzero
  rw [List.filter_eq_nil_iff] at hnil
  simpa using hnil b hb

theorem runPieces_of_blank (hall : Blank text) : runPieces (pieces text) = [] := by
  have hpieces : Blank (pieces text).flatten := by
    rw [flatten_pieces]
    exact hall
  exact runPieces_of_flatten hpieces

theorem runPieces_of_onePiece (hone : InOnePiece text) (hwords : words isBlank text ≠ []) :
    runPieces (pieces text) = [(words isBlank text).take 63] := by
  have ⟨before, p, after, hpieces, hexit, hbefore, hafter⟩ := hone
  have hsame := words_of_onePiece hpieces hbefore hafter
  rw [hpieces, runPieces_blank hbefore, runPieces, if_neg hexit,
    if_neg (fun hnil => hwords (hsame.trans hnil)), runPieces_of_flatten hafter, ← hsame]

theorem runsLine_iff (text : Bytes) :
    RunsLine text (runPieces (pieces text)) ↔
      Blank text ∨ InOnePiece text ∧ (words isBlank text).length ≤ 63 := by
  by_cases hblank : words isBlank text = []
  · have hall := words_eq_nil_iff_forall.mp hblank
    rw [runPieces_of_blank hall]
    exact ⟨fun _ => .inl hall, fun _ => ⟨Nat.zero_le 1, fun hne => absurd hblank hne⟩⟩
  · constructor
    · intro ⟨_, hruns⟩
      have hsingle := hruns hblank
      have ⟨before, p, after, hpieces, hexit, hbefore, hargs⟩ := runPieces_single hsingle
      have hafter := blank_of_args hpieces hargs
      refine .inr ⟨⟨before, p, after, hpieces, hexit, hbefore, hafter⟩, ?_⟩
      rw [hargs, List.length_take]
      exact Nat.min_le_left _ _
    · intro h
      have ⟨hone, hlen⟩ := h.resolve_left (fun hall => hblank (words_eq_nil_of_all hall))
      rw [runPieces_of_onePiece hone hblank, List.take_of_length_le hlen]
      exact ⟨Nat.le_refl 1, fun _ => rfl⟩

theorem Blank.exit_notMem (h : Blank text) : ascii "exit" ∉ pieces text := by
  intro hmem
  rw [← flatten_pieces text] at h
  exact (h.of_mem hmem).ne_exit rfl

theorem InOnePiece.exit_notMem (h : InOnePiece text) : ascii "exit" ∉ pieces text := by
  have ⟨before, p, after, hpieces, hexit, hbefore, hafter⟩ := h
  rw [hpieces, List.mem_append, List.mem_cons]
  intro hmem
  rcases hmem with hmem | hmem | hmem
  · exact (hbefore.of_mem hmem).ne_exit rfl
  · exact hexit hmem.symm
  · exact (hafter.of_mem hmem).ne_exit rfl

/-- The turns for a line whose children leave the input alone. -/
theorem lineTurns_of_found (htext : ∀ b ∈ text, b ≠ 0 ∧ b ≠ 10)
    (hexit : ascii "exit" ∉ pieces text)
    (hfound : stdin.seekable = true → ∀ args ∈ runPieces (pieces text), found args = true)
    (hunread : stdin.unread = text ++ 10 :: rest) :
    ∃ fuel s, lineTurns found fuel stdin = some (runPieces (pieces text), s) ∧
      s.seekable = stdin.seekable ∧ s.unread = rest := by
  have hcalm : ∀ args ∈ runPieces (pieces text), ∀ s : Input, s.seekable = stdin.seekable →
      afterChild found args s = s := by
    intro args hargs s hs
    rw [afterChild]
    split
    · rfl
    · refine Input.giveBack_of_pipe ?_
      rw [hs, ← Bool.not_eq_true]
      exact fun hseek => ‹¬ found args = true› (hfound hseek args hargs)
  rcases lineTurns_calm (Q := fun s => s.seekable = stdin.seekable)
    (fun s hs => (Input.seekable_gets _ s).trans hs) htext hcalm rfl hunread
    (Nat.lt_succ_self _) with ⟨hmem, _⟩ | ⟨_, s, hs, hrest, hsome⟩
  · exact absurd hmem hexit
  · exact ⟨_, s, hsome, hs, hrest⟩

/-- **A command is run with its first words.**  For every line in front of any further input: if
its command stands in one piece and is found, it is started as one child with its first 63
words, and the shell goes on behind the line. -/
theorem runs_first_words (line : Line) (hunread : stdin.unread = line.text ++ 10 :: rest)
    (hone : InOnePiece line.text) (hblank : ¬ Blank line.text)
    (hfound : found ((words isBlank line.text).take 63) = true) :
    ∃ fuel s, lineTurns found fuel stdin = some ([(words isBlank line.text).take 63], s) ∧
      s.unread = rest := by
  have hrun := runPieces_of_onePiece hone
    (fun hnil => hblank (words_eq_nil_iff_forall.mp hnil))
  have hall : stdin.seekable = true → ∀ args ∈ runPieces (pieces line.text),
      found args = true := by
    rw [hrun]
    intro _ args hargs
    rwa [List.mem_singleton.mp hargs]
  have ⟨fuel, s, hsome, _, hrest⟩ :=
    lineTurns_of_found line.plain hone.exit_notMem hall hunread
  rw [hrun] at hsome
  exact ⟨fuel, s, hsome, hrest⟩

/-! ## A command that is not found -/

/-- What the shell has read ahead is unread twice behind a child that finds no command. -/
theorem unread_afterChild {args : List Bytes} (hfound : found args = false)
    (hahead : stdin.ReadAhead) (hseek : stdin.seekable = true) :
    (afterChild found args stdin).unread = stdin.unread ++ stdin.unread := by
  rw [afterChild, hfound, if_neg Bool.false_ne_true, hahead.unread_giveBack hseek, hahead.unread]

theorem readAhead_gets (hahead : stdin.ReadAhead) (n : Nat) : (stdin.gets n).2.ReadAhead :=
  Input.gets_induct (fun _ _ _ hs hgetc => hs.getc hgetc) n hahead

/-- Behind a line that fits and whose command is not found, the shell does not go on with what
follows it. -/
theorem unread_ne_of_lt {args : List Bytes} (htext : ∀ b ∈ text, b ≠ 0 ∧ b ≠ 10)
    (hlen : text.length < MAX_INPUT - 1) (hargs : runPieces [text] = [args])
    (hfound : found args = false) (hahead : stdin.ReadAhead) (hseek : stdin.seekable = true)
    (hunread : stdin.unread = text ++ 10 :: rest) (hrest : rest ≠ []) {fuel : Nat}
    {r : List (List Bytes) × Input} (h : lineTurns found (fuel + 1) stdin = some r) :
    r.2.unread ≠ rest := by
  have ⟨hturn, hend, hleft⟩ := turn_of_lt found htext hlen hunread
  have hsecond := unread_afterChild hfound (readAhead_gets hahead (MAX_INPUT - 1))
    ((Input.seekable_gets _ _).trans hseek)
  rw [runPieces] at hargs
  by_cases hexit : text = ascii "exit"
  · rw [if_pos hexit] at hargs
    cases hargs
  · rw [if_neg hexit] at hargs
    by_cases hblank : words isBlank text = []
    · rw [if_pos hblank] at hargs
      cases hargs
    · rw [if_neg hblank] at hargs
      rw [lineTurns, turn_child (fun b hb => (htext b hb).1) hturn hexit hblank,
        (List.cons.inj hargs).1] at h
      simp only [if_pos hend] at h
      rw [← Option.some.inj h, hsecond, hleft]
      exact fun heq => hrest (List.append_right_eq_self.mp heq)

/-- The same for a line of any length. -/
theorem unread_ne_of_lineTurns {args : List Bytes} (htext : ∀ b ∈ text, b ≠ 0 ∧ b ≠ 10)
    (hargs : runPieces (pieces text) = [args]) (hfound : found args = false)
    (hahead : stdin.ReadAhead) (hseek : stdin.seekable = true)
    (hunread : stdin.unread = text ++ 10 :: rest) (hrest : rest ≠ []) {fuel : Nat}
    {r : List (List Bytes) × Input} (h : lineTurns found fuel stdin = some r) :
    r.2.unread ≠ rest := by
  obtain ⟨fuel, rfl⟩ : ∃ n, fuel = n + 1 := by
    cases fuel with
    | zero => cases h
    | succ n => exact ⟨n, rfl⟩
  induction text using pieces.induct generalizing stdin fuel r with
  | case1 text hlen =>
      rw [pieces, if_pos hlen] at hargs
      exact unread_ne_of_lt htext hlen hargs hfound hahead hseek hunread hrest h
  | case2 text hlen ih =>
      have hle : MAX_INPUT - 1 ≤ text.length := Nat.le_of_not_lt hlen
      have ⟨hturn, hend, hleft⟩ := turn_of_le found htext hle hunread
      have hplain : ∀ b ∈ text.take (MAX_INPUT - 1), b ≠ 0 :=
        fun b hb => (htext b (List.mem_of_mem_take hb)).1
      have hdrop : ∀ b ∈ text.drop (MAX_INPUT - 1), b ≠ 0 ∧ b ≠ 10 :=
        fun b hb => htext b (List.mem_of_mem_drop hb)
      have hseek' := (Input.seekable_gets (MAX_INPUT - 1) stdin).trans hseek
      have hahead' := readAhead_gets hahead (MAX_INPUT - 1)
      rw [pieces, if_neg hlen, runPieces] at hargs
      by_cases hexit : text.take (MAX_INPUT - 1) = ascii "exit"
      · rw [if_pos hexit] at hargs
        cases hargs
      · rw [if_neg hexit] at hargs
        by_cases hblank : words isBlank (text.take (MAX_INPUT - 1)) = []
        · rw [if_pos hblank] at hargs
          rw [lineTurns, turn_blank hplain hturn hexit hblank] at h
          simp only [if_neg hend] at h
          have ⟨r', hr', heq⟩ := Option.map_eq_some_iff.mp h
          rw [← heq]
          cases fuel with
          | zero => cases hr'
          | succ n => exact ih hdrop hargs hahead' hseek' hleft n hr'
        · rw [if_neg hblank] at hargs
          have ⟨hfirst, hnone⟩ := List.cons.inj hargs
          rw [lineTurns, turn_child hplain hturn hexit hblank, hfirst] at h
          simp only [if_neg hend] at h
          have ⟨r', hr', heq⟩ := Option.map_eq_some_iff.mp h
          -- the rest of the line is blank, and the bytes that were given back stand behind it
          have hsecond : (afterChild found args (stdin.gets (MAX_INPUT - 1)).2).unread =
              text.drop (MAX_INPUT - 1) ++ 10 ::
                (rest ++ (text.drop (MAX_INPUT - 1) ++ 10 :: rest)) := by
            rw [unread_afterChild hfound hahead' hseek', hleft, List.append_assoc,
              List.cons_append]
          have hcalm : ∀ args ∈ runPieces (pieces (text.drop (MAX_INPUT - 1))), ∀ s,
              True → afterChild found args s = s := by
            rw [hnone]
            exact fun args hmem => absurd hmem List.not_mem_nil
          have ⟨_, hleft'⟩ := lineTurns_of_some (Q := fun _ => True) (fun _ _ => trivial) hdrop
            hcalm trivial hsecond hr'
          rw [← heq]
          show r'.2.unread ≠ rest
          rw [hleft']
          exact fun heq => absurd (List.append_right_eq_self.mp heq) (by simp)

/-! ## When a line is run as it was typed -/

/-- The turns for a line start at most one child, for a line that is not blank one with all its
words, and what is unread then is what follows the line. -/
def RunsTyped (found : List Bytes → Bool) (stdin : Input) (text rest : Bytes) : Prop :=
  ∃ fuel r, lineTurns found fuel stdin = some r ∧ RunsLine text r.1 ∧ r.2.unread = rest

/-- The command stands in one piece and has at most 63 words, and no child gives anything
back. -/
def Fits (found : List Bytes → Bool) (seekable : Bool) (text : Bytes) : Prop :=
  Blank text ∨ InOnePiece text ∧ (words isBlank text).length ≤ 63 ∧
    (seekable = true → found (words isBlank text) = true)

theorem Fits.exit_notMem {seekable : Bool} (h : Fits found seekable text) :
    ascii "exit" ∉ pieces text := by
  rcases h with hblank | ⟨hone, _⟩
  · exact hblank.exit_notMem
  · exact hone.exit_notMem

theorem Fits.runPieces_eq {seekable : Bool} (h : Fits found seekable text) :
    runPieces (pieces text) = [words isBlank text].filter (fun args => !args.isEmpty) := by
  rcases h with hblank | ⟨hone, hlen, _⟩
  · rw [runPieces_of_blank hblank, words_eq_nil_of_all hblank]
    rfl
  · cases hwords : words isBlank text with
    | nil =>
        rw [runPieces_of_blank (words_eq_nil_iff_forall.mp hwords)]
        rfl
    | cons w ws =>
        rw [runPieces_of_onePiece hone (by rw [hwords]; exact List.cons_ne_nil w ws),
          List.take_of_length_le hlen, hwords]
        rfl

/-- A line that fits is run as it was typed. -/
theorem Fits.lineTurns (h : Fits found stdin.seekable text)
    (htext : ∀ b ∈ text, b ≠ 0 ∧ b ≠ 10) (hunread : stdin.unread = text ++ 10 :: rest) :
    ∃ fuel s, lineTurns found fuel stdin =
        some ([words isBlank text].filter (fun args => !args.isEmpty), s) ∧
      s.seekable = stdin.seekable ∧ s.unread = rest := by
  rw [← h.runPieces_eq]
  refine lineTurns_of_found htext h.exit_notMem (fun hseek args hargs => ?_) hunread
  rw [h.runPieces_eq, List.mem_filter, List.mem_singleton] at hargs
  rcases h with hblank | ⟨_, _, hfound⟩
  · rw [hargs.1, words_eq_nil_of_all hblank] at hargs
    exact absurd hargs.2 Bool.false_ne_true
  · rw [hargs.1]
    exact hfound hseek

theorem RunsTyped.fits (line : Line) {seekable : Bool}
    (h : ∀ stdin rest, stdin.seekable = seekable → stdin.unread = line.text ++ 10 :: rest →
      RunsTyped found stdin line.text rest) : Fits found seekable line.text := by
  -- an input that is read byte by byte has nothing to give back
  have hbytes := h ⟨line.text ++ [10], 0, [], seekable, fun _ => 0⟩ [] rfl rfl
  obtain ⟨fuel, r, hturns, hruns, _⟩ := hbytes
  have hcalm : ∀ args ∈ runPieces (pieces line.text), ∀ s : Input,
      (∀ o, s.reads o = 0) ∧ s.buffer = [] → afterChild found args s = s := by
    intro args _ s hs
    rw [afterChild, Input.giveBack_of_nil hs.2, ite_self]
  obtain ⟨hchildren, _⟩ := lineTurns_of_some
    (Q := fun s => (∀ o, s.reads o = 0) ∧ s.buffer = [])
    (fun s hs => Input.gets_induct
      (fun _ _ _ hs hgetc => Input.getc_bytewise hs.1 hs.2 hgetc) _ hs)
    line.plain hcalm ⟨fun _ => rfl, rfl⟩ rfl hturns
  rw [hchildren, runsLine_iff] at hruns
  by_cases hblank : Blank line.text
  · exact .inl hblank
  · obtain ⟨hone, hlen⟩ := hruns.resolve_left hblank
    refine .inr ⟨hone, hlen, fun hseek => ?_⟩
    -- one that has been read ahead gives back a byte behind the line
    have hread : Input.unread ⟨line.text ++ [10, 10], (line.text ++ [10, 10]).length,
        line.text ++ [10, 10], seekable, fun _ => 0⟩ = line.text ++ 10 :: [10] := by
      rw [Input.unread, List.drop_length, List.append_nil]
    obtain ⟨fuel, r, hturns, _, hrest⟩ := h _ [10] rfl hread
    have hargs := runPieces_of_onePiece hone
      (fun hnil => hblank (words_eq_nil_iff_forall.mp hnil))
    rw [List.take_of_length_le hlen] at hargs
    by_contra hfound
    rw [Bool.not_eq_true] at hfound
    exact unread_ne_of_lineTurns line.plain hargs hfound ⟨rfl, [], rfl⟩ hseek hread
      (List.cons_ne_nil 10 []) hturns hrest

end SystemsInC.Ports.MiniShell
