import SystemsInC.Ports.ChatQueue

/-!
# Which chats are delivered

The kernel takes the first four bytes of `mtext` for the upper half of the type.
So a message has the type that its receiver asks for only if these bytes are 0,
which makes the text of the line empty.  Every other line stays in the queue, or
its type is negative and `msgsnd` fails.

A chat is delivered, in each order of the steps of its four processes, if and only
if both users type blank lines only and the uninitialised bytes behind the first
one happen to be 0 (`chat_delivers_iff`).
-/

namespace SystemsInC.Ports.ChatDelivery

open SystemsInC.Verified.ByteMemory
open SystemsInC.Verified.CString
open SystemsInC.Verified.GuardedRuns
open SystemsInC.Verified.SelectiveQueue
open SystemsInC.Verified.TextInput (chomp chomp_isPrefix fgetsLine fgetsLine_pos
  fgetsLine_length_le)
open SystemsInC.Ports.ChatQueue

/-! ## The lines that keep their type -/

/-- The bytes of `mtext` in the upper half of the type are 0. -/
def HeadZero (m : Memory) : Prop := ∀ i < 4, m (mtextPos + i) = 0

/-- An empty line, or NULs in its first four places. -/
def Blank (piece : Bytes) : Prop := piece = [10] ∨ ∀ b ∈ piece.take 4, b = 0

/-- Only blank lines are typed, and behind the NUL of the first one there are
zeros up to the end of the upper half of the type. -/
structure Clear (m : Memory) (stdin : Bytes) : Prop where
  blank : ∀ piece ∈ pieces stdin, Blank piece
  behind : ∀ piece, (pieces stdin).head? = some piece → ∀ i < 4, piece.length < i →
    m (mtextPos + i) = 0

/-- What the children have printed is a part of what was typed on the other side,
and all of it when none of the four processes can go on. -/
def Delivers (cfg : Config) : Prop :=
  ∀ s, Reach (Sys.step cfg.qbytes) (fun _ _ => True) (Sys.init cfg) s →
    ∀ u, s.printed u.other <+: texts (cfg.stdin u) ∧
      ((∀ a, s.step cfg.qbytes a = none) → s.printed u.other = texts (cfg.stdin u))

/-- A piece that `fgets` has read. -/
structure IsPiece (piece : Bytes) : Prop where
  pos : 0 < piece.length
  short : piece.length + 1 ≤ maxText
  newline : piece.head? = some 10 → piece = [10]

theorem isPiece_fgetsLine {stdin : Bytes} (h : stdin ≠ []) :
    IsPiece (fgetsLine maxText stdin) where
  pos := fgetsLine_pos (by decide) h
  short := by
    have hle := fgetsLine_length_le maxText stdin
    have hmax : maxText = 128 := rfl
    omega
  newline := by
    cases stdin with
    | nil => exact absurd rfl h
    | cons b rest =>
        intro hhead
        have hb : b = 10 := by
          unfold fgetsLine at hhead
          split at hhead <;> exact Option.some.inj hhead
        rw [hb]
        rfl

variable {u : User} {m : Memory} {piece : Bytes}

/-- The bytes of the text after `fgets` and the cut. -/
theorem typed_at (hpiece : IsPiece piece) (i : Nat) : typed u m piece (mtextPos + i) =
    if i = (chomp piece).length then 0 else (m.write mtextPos (piece ++ [0])) (mtextPos + i) := by
  have htype : 0 + (leBytes 4 u.mtype).length ≤ mtextPos + i := by
    rw [leBytes_length]
    show 4 ≤ 4 + i
    omega
  rw [typed, newlinePos_write hpiece.short, write_above _ htype]
  by_cases hi : i = (chomp piece).length
  · rw [if_pos hi, hi]
    exact write_at _ _ (show 0 < [(0 : UInt8)].length by decide)
  · rw [if_neg hi]
    rcases Nat.lt_or_gt_of_ne hi with hlt | hgt
    · exact write_below _ (by omega)
    · exact write_above _ (by rw [List.length_singleton]; omega)

theorem write_piece_at {i : Nat} (h : i < piece.length) :
    (m.write mtextPos (piece ++ [0])) (mtextPos + i) = piece[i] := by
  rw [write_at m _ (show i < (piece ++ [0]).length by rw [List.length_append]; omega)]
  exact List.getElem_append_left h

theorem write_piece_end :
    (m.write mtextPos (piece ++ [0])) (mtextPos + piece.length) = 0 := by
  rw [write_at m _ (show piece.length < (piece ++ [0]).length by simp)]
  exact List.getElem_concat_length rfl _

theorem write_piece_behind {i : Nat} (h : piece.length < i) :
    (m.write mtextPos (piece ++ [0])) (mtextPos + i) = m (mtextPos + i) :=
  write_above m (by rw [List.length_append, List.length_singleton]; omega)

theorem chomp_of_blank (h : Blank piece) : chomp piece = [] := by
  rcases h with h | h
  · rw [h]
    rfl
  · cases piece with
    | nil => rfl
    | cons b rest =>
        have hb : b = 0 := h b (by simp)
        rw [hb]
        rfl

/-- A line without text that leaves zeros in the type is blank. -/
theorem blank_of_zeros (hpiece : IsPiece piece) (htext : chomp piece = [])
    (hzeros : ∀ i < 4, 0 < i → (m.write mtextPos (piece ++ [0])) (mtextPos + i) = 0) :
    Blank piece := by
  cases piece with
  | nil => exact absurd hpiece.pos (by decide)
  | cons b rest =>
      by_cases hb : b = 0
      · refine .inr fun c hc => ?_
        have ⟨i, hi, hget⟩ := List.getElem_of_mem hc
        rw [List.getElem_take] at hget
        rw [List.length_take] at hi
        have hilen : i < (b :: rest).length := by omega
        cases i with
        | zero => exact hget ▸ hb
        | succ i =>
            rw [← hget, ← write_piece_at hilen]
            exact hzeros (i + 1) (by omega) (Nat.succ_pos i)
      · have hnewline : b = 10 := by
          by_contra hne
          simp [chomp, cstr, hb, hne] at htext
        exact .inl (hpiece.newline (congrArg some hnewline))

/-- A line leaves zeros in the type if it is blank, and there are zeros behind
it. -/
theorem headZero_typed_iff (hpiece : IsPiece piece) : HeadZero (typed u m piece) ↔
    Blank piece ∧ ∀ i < 4, piece.length < i → m (mtextPos + i) = 0 := by
  constructor
  · intro hzero
    have hstring : string (typed u m piece) = [] := by
      have hfirst : typed u m piece mtextPos = 0 := hzero 0 (by decide)
      rw [string, show maxText = 1 + 127 from rfl, read_add]
      simp [Memory.read, hfirst, cstr]
    have htext : chomp piece = [] := (string_typed hpiece.short).symm.trans hstring
    have hat : ∀ i < 4, 0 < i → (m.write mtextPos (piece ++ [0])) (mtextPos + i) = 0 := by
      intro i hi hpos
      have h := hzero i hi
      rwa [typed_at hpiece, htext, if_neg (by simpa using Nat.ne_of_gt hpos)] at h
    refine ⟨blank_of_zeros hpiece htext hat, fun i hi hlen => ?_⟩
    rw [← write_piece_behind (m := m) hlen]
    exact hat i hi (by omega)
  · rintro ⟨hblank, hbehind⟩ i hi
    rw [typed_at hpiece, chomp_of_blank hblank, List.length_nil]
    by_cases hpos : i = 0
    · rw [if_pos hpos]
    · rw [if_neg hpos]
      rcases Nat.lt_trichotomy i piece.length with hlt | heq | hgt
      · rw [write_piece_at hlt]
        rcases hblank with h | h
        · rw [h, List.length_singleton] at hlt
          omega
        · exact h _ (List.mem_take_iff_getElem.mpr ⟨i, by omega, rfl⟩)
      · rw [heq]
        exact write_piece_end
      · rw [write_piece_behind hgt]
        exact hbehind i hi hgt

theorem clear_nil (m : Memory) : Clear m [] where
  blank := by simp [pieces_nil]
  behind := by simp [pieces_nil]

/-- The first line is blank and leaves zeros for the others. -/
theorem clear_iff {stdin : Bytes} (h : stdin ≠ []) : Clear m stdin ↔
    HeadZero (typed u m (fgetsLine maxText stdin)) ∧
      Clear (typed u m (fgetsLine maxText stdin))
        (stdin.drop (fgetsLine maxText stdin).length) := by
  rw [headZero_typed_iff (isPiece_fgetsLine h)]
  constructor
  · intro hclear
    have hblank := hclear.blank
    have hbehind := hclear.behind
    rw [pieces_cons h] at hblank hbehind
    have hhead : Blank _ ∧ ∀ i < 4, _ < i → m (mtextPos + i) = 0 :=
      ⟨hblank _ List.mem_cons_self, hbehind _ rfl⟩
    refine ⟨hhead, fun p hp => hblank p (List.mem_cons_of_mem _ hp), fun p _ i hi _ => ?_⟩
    exact (headZero_typed_iff (isPiece_fgetsLine h)).mpr hhead i hi
  · rintro ⟨⟨hblank, hbehind⟩, hrest⟩
    refine ⟨?_, ?_⟩
    · rw [pieces_cons h]
      exact List.forall_mem_cons.mpr ⟨hblank, hrest.blank⟩
    · rw [pieces_cons h]
      intro p hp
      rw [← Option.some.inj hp]
      exact hbehind

/-! ## The type that the kernel reads -/

theorem read_type (u : User) (m : Memory) (piece : Bytes) :
    (typed u m piece).read 0 4 = leBytes 4 u.mtype := by
  have hself := read_write_self
    ((m.write mtextPos (piece ++ [0])).write
      (mtextPos + newlinePos (m.write mtextPos (piece ++ [0]))) [0])
    0 (leBytes 4 u.mtype)
  rwa [leBytes_length] at hself

/-- The number in `mtype`, and in front of it what stands in `mtext`. -/
theorem long_typed (u : User) (m : Memory) (piece : Bytes) : (typed u m piece).long 0 =
    Int.bmod (u.mtype + 2 ^ 32 * leNat ((typed u m piece).read mtextPos 4)) UInt64.size := by
  have hmtype : leNat (leBytes 4 u.mtype) = u.mtype := by
    cases u <;> rfl
  have hbytes : (typed u m piece).read 0 8 =
      leBytes 4 u.mtype ++ (typed u m piece).read mtextPos 4 := by
    rw [← read_type u m piece]
    exact read_add (typed u m piece) 0 4 4
  have hnat : leNat ((typed u m piece).read 0 8) =
      u.mtype + 2 ^ 32 * leNat ((typed u m piece).read mtextPos 4) := by
    rw [hbytes, leNat_append, hmtype, leBytes_length, show (256 : Nat) ^ 4 = 2 ^ 32 from rfl]
  show Int.bmod (leNat ((typed u m piece).read 0 8) : Int) _ = _
  rw [hnat, Int.natCast_add, Int.natCast_mul]
  rfl

theorem mtype_lt (u : User) : u.mtype < 2 ^ 32 := by
  cases u <;> decide

theorem mtype_other (u : User) : u.mtype ≠ u.other.mtype := by
  cases u <;> decide

@[simp] theorem other_other (u : User) : u.other.other = u := by
  cases u <;> rfl

/-- A number is its lower half only if the upper half is 0. -/
theorem bmod_eq_iff {n h : Nat} (hn : n < 2 ^ 32) (hh : h < 2 ^ 32) :
    Int.bmod (n + 2 ^ 32 * h) UInt64.size = n ↔ h = 0 := by
  simp only [Int.bmod, UInt64.size]
  split <;> omega

/-- A number with one lower half is not one with another. -/
theorem bmod_ne {n k h : Nat} (hn : n < 2 ^ 32) (hk : k < 2 ^ 32) (hne : n ≠ k) :
    Int.bmod (n + 2 ^ 32 * h) UInt64.size ≠ k := by
  simp only [Int.bmod, UInt64.size]
  split <;> omega

theorem headZero_iff (m : Memory) : HeadZero m ↔ leNat (m.read mtextPos 4) = 0 := by
  rw [leNat_eq_zero_iff]
  constructor
  · intro h b hb
    have ⟨k, hk, heq⟩ := (mem_read m).mp hb
    rw [← heq]
    exact h k hk
  · intro h i hi
    exact h _ ((mem_read m).mpr ⟨i, hi, rfl⟩)

theorem long_eq_iff : (typed u m piece).long 0 = u.mtype ↔ HeadZero (typed u m piece) := by
  have hlt := leNat_lt ((typed u m piece).read mtextPos 4)
  rw [read_length] at hlt
  rw [long_typed, headZero_iff]
  exact bmod_eq_iff (mtype_lt u) hlt

theorem long_ne_other : (typed u m piece).long 0 ≠ u.other.mtype := by
  rw [long_typed]
  exact bmod_ne (mtype_lt u) (mtype_lt _) (mtype_other u)

theorem loadMsg_eq_some {msg : Msg} {n : Nat} (h : loadMsg m n = some msg) :
    msg.type = m.long 0 ∧ msg.text = m.read kernelTextPos n := by
  unfold loadMsg at h
  split at h
  · cases h
  · have heq := Option.some.inj h
    exact ⟨by rw [← heq], by rw [← heq]⟩

/-- No message looks like one of the other user. -/
theorem fromUser_other {msg : Msg} {n : Nat} (h : loadMsg (typed u m piece) n = some msg) :
    fromUser u.other msg = false := by
  rw [fromUser, (loadMsg_eq_some h).1]
  exact decide_eq_false long_ne_other

/-- A message keeps its type if its line leaves zeros there. -/
theorem fromUser_iff {msg : Msg} {n : Nat} (h : loadMsg (typed u m piece) n = some msg) :
    fromUser u msg = true ↔ HeadZero (typed u m piece) := by
  rw [fromUser, (loadMsg_eq_some h).1, decide_eq_true_iff]
  exact long_eq_iff

/-- `msgsnd` fails only with a line that leaves something there. -/
theorem not_headZero_of_refused {n : Nat} (h : loadMsg (typed u m piece) n = none) :
    ¬ HeadZero (typed u m piece) := by
  intro hzero
  have hpos : ¬ (u.mtype : Int) < 1 := by
    cases u <;> decide
  rw [loadMsg, long_eq_iff.mpr hzero, if_neg hpos] at h
  cases h

/-- A message of one of the two types is printed as an empty text. -/
theorem string_storeMsg {msg : Msg} (h : fromUser u msg = true) (m : Memory) :
    string (storeMsg m msg) = [] := by
  have htype : msg.type = u.mtype := of_decide_eq_true h
  have hfirst : storeMsg m msg mtextPos = 0 := by
    rw [storeMsg, htype, write_below _ (by decide)]
    cases u <;> rfl
  rw [string, show maxText = 1 + 127 from rfl, read_add]
  simp [Memory.read, hfirst, cstr]

/-! ## The steps -/

variable {s s' : Sys} {qbytes : Nat}

theorem send_cases (h : send qbytes s u = some s') : s.sender u = .running ∧
    (s.stdin u = [] ∧ s' = { s with sender := Function.update s.sender u .exited } ∨
      s.stdin u ≠ [] ∧
        (s.load u = none ∧
            s' = { s.lineRead u with sender := Function.update s.sender u .died } ∨
          ∃ msg, s.load u = some msg ∧
            s' = { s.lineRead u with queue := s.queue ++ [msg] })) := by
  unfold send at h
  by_cases hrunning : s.sender u = .running
  · rw [if_pos hrunning] at h
    refine ⟨hrunning, ?_⟩
    by_cases hnil : s.stdin u = []
    · rw [if_pos hnil] at h
      exact .inl ⟨hnil, (Option.some.inj h).symm⟩
    · rw [if_neg hnil] at h
      refine .inr ⟨hnil, ?_⟩
      cases hload : s.load u with
      | none =>
          rw [hload] at h
          exact .inl ⟨rfl, (Option.some.inj h).symm⟩
      | some msg =>
          simp only [hload] at h
          split at h
          · exact .inr ⟨msg, rfl, (Option.some.inj h).symm⟩
          · cases h
  · rw [if_neg hrunning] at h
    cases h

theorem receive_cases (h : receive s u = some s') : s.receiver u = .running ∧
    ∃ msg queue, take (fromUser u.other) s.queue = some (msg, queue) ∧
      (maxText < msg.text.length ∧
          s' = { s with receiver := Function.update s.receiver u .died } ∨
        msg.text.length ≤ maxText ∧
          s' = { s with
            queue := queue
            childMemory := Function.update s.childMemory u (storeMsg (s.childMemory u) msg)
            printed := Function.update s.printed u
              (s.printed u ++ [string (storeMsg (s.childMemory u) msg)]) }) := by
  unfold receive at h
  by_cases hrunning : s.receiver u = .running
  · rw [if_pos hrunning] at h
    cases htake : take (fromUser u.other) s.queue with
    | none => simp [htake] at h
    | some found =>
        obtain ⟨msg, queue⟩ := found
        simp only [htake] at h
        refine ⟨hrunning, msg, queue, rfl, ?_⟩
        by_cases hlong : maxText < msg.text.length
        · rw [if_pos hlong] at h
          exact .inl ⟨hlong, (Option.some.inj h).symm⟩
        · rw [if_neg hlong] at h
          exact .inr ⟨Nat.le_of_not_lt hlong, (Option.some.inj h).symm⟩
  · rw [if_neg hrunning] at h
    cases h

/-! ## What became of the lines -/

/-- The lines of a user that are printed, in the queue with their type, or not
yet read. -/
def accounted (s : Sys) (u : User) : Nat :=
  (s.printed u.other).length + (s.queue.filter (fromUser u)).length +
    (pieces (s.stdin u)).length

/-- Of `total` lines `n` are left.  As long as none is lost, what is to come
meets the condition if the whole input does; if one is lost, the input does
not. -/
structure Balance (n total : Nat) (now start : Prop) : Prop where
  le : n ≤ total
  whole : n = total → (now ↔ start)
  lost : n < total → ¬ start

theorem Balance.keep {n n' total : Nat} {now now' start : Prop}
    (balance : Balance n total now start) (hn : n' = n) (hnow : now ↔ now') :
    Balance n' total now' start where
  le := hn ▸ balance.le
  whole := fun heq => hnow.symm.trans (balance.whole (hn ▸ heq))
  lost := fun hlt => balance.lost (hn ▸ hlt)

/-- A line that is lost now is lost of the whole input. -/
theorem Balance.not_start {n total : Nat} {now start : Prop} (balance : Balance n total now start)
    (hnow : ¬ now) : ¬ start := by
  rcases Nat.lt_or_eq_of_le balance.le with hlt | heq
  · exact balance.lost hlt
  · exact fun hstart => hnow ((balance.whole heq).mpr hstart)

theorem Balance.lose {n n' total : Nat} {now now' start : Prop}
    (balance : Balance n total now start) (hn : n' + 1 = n) (hnow : ¬ now) :
    Balance n' total now' start := by
  have hle := balance.le
  exact ⟨by omega, fun heq => by omega, fun _ => balance.not_start hnow⟩

structure ChatInv (cfg : Config) (s : Sys) : Prop where
  balance : ∀ u, Balance (accounted s u) (pieces (cfg.stdin u)).length
    (Clear (s.memory u) (s.stdin u)) (Clear (cfg.memory u) (cfg.stdin u))
  died : ∀ u, s.sender u = .died → ¬ Clear (cfg.memory u) (cfg.stdin u)
  exited : ∀ u, s.sender u = .exited → s.stdin u = []
  receiver : ∀ u, s.receiver u = .running
  size : ∀ msg ∈ s.queue, msg.text.length ≤ maxText
  known : ∀ msg ∈ s.queue, (∃ u, fromUser u msg = true) ∨
    ∃ u, ¬ Clear (cfg.memory u) (cfg.stdin u)
  printed : ∀ u, ∀ line ∈ s.printed u, line = []

theorem user_cases (u v : User) : v = u ∨ v = u.other := by
  cases u <;> cases v <;> simp [User.other]

theorem other_ne (u : User) : u.other ≠ u := by
  cases u <;> decide

theorem ChatInv.init (cfg : Config) : ChatInv cfg (Sys.init cfg) where
  balance := fun u => by
    have hall : accounted (Sys.init cfg) u = (pieces (cfg.stdin u)).length := by
      simp [accounted, Sys.init]
    exact ⟨Nat.le_of_eq hall, fun _ => Iff.rfl, fun hlt => absurd hall (Nat.ne_of_lt hlt)⟩
  died := fun _ h => nomatch h
  exited := fun _ h => nomatch h
  receiver := fun _ => rfl
  size := fun _ h => nomatch h
  known := fun _ h => nomatch h
  printed := fun _ _ h => nomatch h

/-- A line less is to be read. -/
theorem accounted_lineRead (hne : s.stdin u ≠ []) (sender : User → Process) (queue : List Msg) :
    accounted { s.lineRead u with sender := sender, queue := queue } u + 1 =
      (s.printed u.other).length + (queue.filter (fromUser u)).length +
        (pieces (s.stdin u)).length := by
  show (s.printed u.other).length + (queue.filter (fromUser u)).length +
    (pieces (Function.update s.stdin u _ u)).length + 1 = _
  rw [Function.update_self, pieces_cons hne, List.length_cons]
  omega

/-- The other user's lines stay where they are. -/
theorem accounted_lineRead_other (sender : User → Process) {queue : List Msg}
    (hqueue : queue.filter (fromUser u.other) = s.queue.filter (fromUser u.other)) :
    accounted { s.lineRead u with sender := sender, queue := queue } u.other =
      accounted s u.other := by
  show _ + (queue.filter (fromUser u.other)).length +
    (pieces (Function.update s.stdin u _ u.other)).length = _
  rw [Function.update_of_ne (other_ne u), hqueue]
  rfl

/-- What is to come for the other user is as it was. -/
theorem clear_lineRead_other : Clear ((s.lineRead u).memory u.other) ((s.lineRead u).stdin u.other)
    ↔ Clear (s.memory u.other) (s.stdin u.other) := by
  show Clear (Function.update s.memory u _ u.other) (Function.update s.stdin u _ u.other) ↔ _
  rw [Function.update_of_ne (other_ne u), Function.update_of_ne (other_ne u)]

/-- The next line of a user leaves zeros, and so do the others. -/
theorem clear_lineRead (hne : s.stdin u ≠ []) : Clear (s.memory u) (s.stdin u) ↔
    HeadZero (s.built u) ∧ Clear ((s.lineRead u).memory u) ((s.lineRead u).stdin u) := by
  show _ ↔ _ ∧ Clear (Function.update s.memory u _ u) (Function.update s.stdin u _ u)
  rw [Function.update_self, Function.update_self]
  exact clear_iff hne

/-- The text that is sent fits on the other side. -/
theorem load_size {msg : Msg} (hne : s.stdin u ≠ []) (h : s.load u = some msg) :
    msg.text.length ≤ maxText := by
  have hpiece := isPiece_fgetsLine hne
  have htext := (chomp_isPrefix (fgetsLine maxText (s.stdin u))).length_le
  rw [(loadMsg_eq_some h).2, read_length, Sys.built, string_typed hpiece.short]
  have hshort := hpiece.short
  omega

variable {cfg : Config}

theorem ChatInv.refused (inv : ChatInv cfg s) (hne : s.stdin u ≠ []) (h : s.load u = none) :
    ChatInv cfg { s.lineRead u with sender := Function.update s.sender u .died } := by
  have hnot : ¬ HeadZero (s.built u) := not_headZero_of_refused h
  have hnow : ¬ Clear (s.memory u) (s.stdin u) := fun hclear =>
    hnot ((clear_lineRead hne).mp hclear).1
  refine { inv with
    balance := fun v => ?_
    died := fun v hv => ?_
    exited := fun v hv => ?_ }
  · rcases user_cases u v with hvu | hvu
    · subst hvu
      exact (inv.balance v).lose (accounted_lineRead hne _ _) hnow
    · exact hvu ▸ (inv.balance u.other).keep (accounted_lineRead_other _ rfl)
        clear_lineRead_other.symm
  · rcases user_cases u v with hvu | hvu
    · exact hvu ▸ (inv.balance u).not_start hnow
    · have hother : Function.update s.sender u .died v = .died := hv
      rw [hvu, Function.update_of_ne (other_ne u)] at hother
      exact hvu ▸ inv.died u.other hother
  · have hsender : Function.update s.sender u .died v = .exited := hv
    show Function.update s.stdin u _ v = []
    rcases user_cases u v with hvu | hvu
    · rw [hvu, Function.update_self] at hsender
      cases hsender
    · rw [hvu, Function.update_of_ne (other_ne u)] at hsender ⊢
      exact inv.exited u.other hsender

/-- A message of the user's type is one of the lines still to come, and any other is a
line less. -/
theorem ChatInv.balance_sent {msg : Msg} (inv : ChatInv cfg s) (hne : s.stdin u ≠ [])
    (h : s.load u = some msg) :
    Balance (accounted { s.lineRead u with queue := s.queue ++ [msg] } u)
      (pieces (cfg.stdin u)).length
      (Clear ({ s.lineRead u with queue := s.queue ++ [msg] }.memory u)
        ({ s.lineRead u with queue := s.queue ++ [msg] }.stdin u))
      (Clear (cfg.memory u) (cfg.stdin u)) := by
  have htype : fromUser u msg = true ↔ HeadZero (s.built u) := fromUser_iff h
  have haccounted := accounted_lineRead hne s.sender (s.queue ++ [msg])
  by_cases hzero : HeadZero (s.built u)
  · rw [List.filter_append, List.filter_cons_of_pos (htype.mpr hzero),
      List.length_append] at haccounted
    refine (inv.balance u).keep (Nat.succ.inj (haccounted.trans ?_)) ?_
    · show _ + (_ + 1) + _ = _ + _ + _ + 1
      omega
    · rw [clear_lineRead hne]
      exact and_iff_right hzero
  · rw [List.filter_append, List.filter_cons_of_neg (fun hmsg => hzero (htype.mp hmsg)),
      List.filter_nil, List.append_nil] at haccounted
    exact (inv.balance u).lose haccounted
      (fun hclear => hzero ((clear_lineRead hne).mp hclear).1)

theorem ChatInv.sent {msg : Msg} (inv : ChatInv cfg s) (hrunning : s.sender u = .running)
    (hne : s.stdin u ≠ []) (h : s.load u = some msg) :
    ChatInv cfg { s.lineRead u with queue := s.queue ++ [msg] } := by
  have hother : (s.queue ++ [msg]).filter (fromUser u.other) =
      s.queue.filter (fromUser u.other) := by
    rw [List.filter_append, List.filter_cons_of_neg (by simp [fromUser_other h])]
    exact List.append_nil _
  refine { inv with
    balance := fun v => ?_
    exited := fun v hv => ?_
    size := fun found hfound => ?_
    known := fun found hfound => ?_ }
  · rcases user_cases u v with hvu | hvu
    · subst hvu
      exact inv.balance_sent hne h
    · exact hvu ▸ (inv.balance u.other).keep (accounted_lineRead_other _ hother)
        clear_lineRead_other.symm
  · show Function.update s.stdin u _ v = []
    rcases user_cases u v with hvu | hvu
    · have hexited : s.sender v = .exited := hv
      rw [hvu, hrunning] at hexited
      cases hexited
    · rw [hvu, Function.update_of_ne (other_ne u)]
      exact inv.exited u.other (hvu ▸ hv)
  · rcases List.mem_append.mp hfound with hold | hnew
    · exact inv.size found hold
    · rw [List.mem_singleton.mp hnew]
      exact load_size hne h
  · rcases List.mem_append.mp hfound with hold | hnew
    · exact inv.known found hold
    · rw [List.mem_singleton.mp hnew]
      by_cases hzero : HeadZero (s.built u)
      · exact .inl ⟨u, (fromUser_iff h).mpr hzero⟩
      · exact .inr ⟨u, (inv.balance u).not_start
          (fun hclear => hzero ((clear_lineRead hne).mp hclear).1)⟩

theorem ChatInv.exit (inv : ChatInv cfg s) (hnil : s.stdin u = []) :
    ChatInv cfg { s with sender := Function.update s.sender u .exited } := by
  refine { inv with
    died := fun v hv => ?_
    exited := fun v hv => ?_ }
  · have hsender : Function.update s.sender u .exited v = .died := hv
    rcases user_cases u v with hvu | hvu
    · rw [hvu, Function.update_self] at hsender
      cases hsender
    · rw [hvu, Function.update_of_ne (other_ne u)] at hsender
      exact hvu ▸ inv.died u.other hsender
  · have hsender : Function.update s.sender u .exited v = .exited := hv
    rcases user_cases u v with hvu | hvu
    · exact hvu ▸ hnil
    · rw [hvu, Function.update_of_ne (other_ne u)] at hsender
      exact hvu ▸ inv.exited u.other hsender

theorem fromUser_unique {msg : Msg} (h : fromUser u msg = true) : fromUser u.other msg = false := by
  have htype : msg.type = u.mtype := of_decide_eq_true h
  rw [fromUser, htype]
  exact decide_eq_false (fun heq => mtype_other u (Int.ofNat.inj heq))

theorem ChatInv.receive {msg : Msg} {queue : List Msg} (inv : ChatInv cfg s)
    (htake : take (fromUser u.other) s.queue = some (msg, queue)) :
    ChatInv cfg { s with
      queue := queue
      childMemory := Function.update s.childMemory u (storeMsg (s.childMemory u) msg)
      printed := Function.update s.printed u
        (s.printed u ++ [string (storeMsg (s.childMemory u) msg)]) } := by
  have ⟨hmsg, _⟩ := take_split htake
  refine { inv with
    balance := fun v => (inv.balance v).keep ?_ Iff.rfl
    size := fun found hfound => inv.size found (mem_of_mem_rest htake hfound)
    known := fun found hfound => inv.known found (mem_of_mem_rest htake hfound)
    printed := fun v line hline => ?_ }
  · show (Function.update s.printed u _ v.other).length + (queue.filter (fromUser v)).length +
        (pieces (s.stdin v)).length =
      (s.printed v.other).length + (s.queue.filter (fromUser v)).length +
        (pieces (s.stdin v)).length
    rcases user_cases u v with hvu | hvu
    · -- the lines of the user who receives
      subst hvu
      have hfilter : queue.filter (fromUser v) = s.queue.filter (fromUser v) :=
        take_filter_other htake (fun b hb => by
          have hb := fromUser_unique hb
          rwa [other_other] at hb)
      rw [Function.update_of_ne (other_ne v), hfilter]
    · -- the lines of the user who sent the message
      subst hvu
      have hlen := congrArg List.length (take_filter htake)
      rw [List.length_cons] at hlen
      rw [other_other, Function.update_self, hlen, List.length_append, List.length_singleton]
      omega
  · have hline : line ∈ Function.update s.printed u
      (s.printed u ++ [string (storeMsg (s.childMemory u) msg)]) v := hline
    rcases user_cases u v with hvu | hvu
    · rw [hvu, Function.update_self] at hline
      rcases List.mem_append.mp hline with hold | hnew
      · exact inv.printed u line hold
      · rw [List.mem_singleton.mp hnew]
        exact string_storeMsg hmsg _
    · rw [hvu, Function.update_of_ne (other_ne u)] at hline
      exact inv.printed u.other line hline

theorem ChatInv.step {a : Act} (inv : ChatInv cfg s) (h : s.step qbytes a = some s') :
    ChatInv cfg s' := by
  cases a with
  | send u =>
      rw [Sys.step] at h
      have ⟨hrunning, hcases⟩ := send_cases h
      rcases hcases with ⟨hnil, heq⟩ | ⟨hne, ⟨hload, heq⟩ | ⟨msg, hload, heq⟩⟩
      · exact heq ▸ inv.exit hnil
      · exact heq ▸ inv.refused hne hload
      · exact heq ▸ inv.sent hrunning hne hload
  | receive u =>
      rw [Sys.step] at h
      have ⟨_, msg, queue, htake, hcases⟩ := receive_cases h
      have hsize := inv.size msg (mem_of_take htake)
      rcases hcases with ⟨hlong, _⟩ | ⟨_, heq⟩
      · exact absurd hsize (Nat.not_le.mpr hlong)
      · exact heq ▸ inv.receive htake

/-! ## Runs end -/

/-- A running process has a last step to do. -/
def stepsLeft : Process → Nat
  | .running => 1
  | .exited => 0
  | .died => 0

theorem stepsLeft_le (p : Process) : stepsLeft p ≤ 1 := by
  cases p <;> decide

/-- What a user's processes have still to do. -/
def weight (s : Sys) (u : User) : Nat :=
  2 * (s.stdin u).length + stepsLeft (s.sender u) + stepsLeft (s.receiver u)

def remaining (s : Sys) : Nat := weight s .user1 + weight s .user2 + s.queue.length

theorem remaining_eq (s : Sys) (u : User) :
    remaining s = weight s u + weight s u.other + s.queue.length := by
  cases u with
  | user1 => rfl
  | user2 => exact congrArg (· + s.queue.length) (Nat.add_comm _ _)

/-- A step of the processes of one user. -/
theorem remaining_lt (u : User) (hother : weight s' u.other = weight s u.other)
    (h : weight s' u + s'.queue.length < weight s u + s.queue.length) :
    remaining s' < remaining s := by
  rw [remaining_eq s u, remaining_eq s' u, hother]
  omega

/-- A line less is to be read, and there is one message more at most. -/
theorem weight_lineRead_lt (hrunning : s.sender u = .running) (hne : s.stdin u ≠ [])
    (sender : User → Process) (queue : List Msg) :
    weight { s.lineRead u with sender := sender, queue := queue } u + 1 < weight s u := by
  have hpos := (isPiece_fgetsLine hne).pos
  have hlen := List.length_pos_iff.mpr hne
  have hleft := stepsLeft_le (sender u)
  show 2 * (Function.update s.stdin u _ u).length + stepsLeft (sender u) +
    stepsLeft (s.receiver u) + 1 <
      2 * (s.stdin u).length + stepsLeft (s.sender u) + stepsLeft (s.receiver u)
  rw [Function.update_self, List.length_drop, hrunning, show stepsLeft .running = 1 from rfl]
  omega

theorem weight_lineRead_other (sender : User → Process) (queue : List Msg)
    (hsender : sender u.other = s.sender u.other) :
    weight { s.lineRead u with sender := sender, queue := queue } u.other = weight s u.other := by
  show 2 * (Function.update s.stdin u _ u.other).length + stepsLeft (sender u.other) + _ = _
  rw [Function.update_of_ne (other_ne u), hsender]
  rfl

theorem step_remaining {a : Act} (h : s.step qbytes a = some s') : remaining s' < remaining s := by
  cases a with
  | send u =>
      rw [Sys.step] at h
      have ⟨hrunning, hcases⟩ := send_cases h
      rcases hcases with ⟨hnil, heq⟩ | ⟨hne, ⟨hload, heq⟩ | ⟨msg, hload, heq⟩⟩
      · subst heq
        apply remaining_lt u
        · simp [weight, Function.update_of_ne (other_ne u)]
        · simp [weight, hrunning, stepsLeft]
      · subst heq
        have hlt := weight_lineRead_lt hrunning hne (Function.update s.sender u .died) s.queue
        apply remaining_lt u (weight_lineRead_other _ _ (Function.update_of_ne (other_ne u) _ _))
        exact Nat.add_lt_add_right (Nat.lt_of_succ_lt hlt) _
      · subst heq
        have hlt := weight_lineRead_lt hrunning hne s.sender (s.queue ++ [msg])
        apply remaining_lt u (weight_lineRead_other _ _ rfl)
        show _ + (s.queue ++ [msg]).length < _
        rw [List.length_append, List.length_singleton]
        omega
  | receive u =>
      rw [Sys.step] at h
      have ⟨hrunning, msg, queue, htake, hcases⟩ := receive_cases h
      rcases hcases with ⟨_, heq⟩ | ⟨_, heq⟩
      · subst heq
        apply remaining_lt u
        · simp [weight, Function.update_of_ne (other_ne u)]
        · simp [weight, hrunning, stepsLeft]
      · have hlen := take_length htake
        subst heq
        refine remaining_lt (s := s) u rfl ?_
        show weight s u + queue.length < _
        omega

/-! ## The chats that are delivered -/

theorem texts_length (stdin : Bytes) : (texts stdin).length = (pieces stdin).length :=
  List.length_map _

theorem pieces_eq_nil {stdin : Bytes} (h : (pieces stdin).length = 0) : stdin = [] := by
  by_contra hne
  rw [pieces_cons hne] at h
  cases h

/-- Blank lines are empty texts. -/
theorem texts_of_clear {stdin : Bytes} (h : Clear m stdin) :
    texts stdin = List.replicate (pieces stdin).length [] := by
  rw [List.eq_replicate_iff]
  refine ⟨texts_length stdin, fun line hline => ?_⟩
  have ⟨piece, hpiece, heq⟩ := List.mem_map.mp hline
  rw [← heq]
  exact chomp_of_blank (h.blank piece hpiece)

theorem ChatInv.printed_eq (inv : ChatInv cfg s) (u : User) :
    s.printed u = List.replicate (s.printed u).length [] :=
  List.eq_replicate_iff.mpr ⟨rfl, inv.printed u⟩

/-- If all that was typed is clear, a state without a next step has printed all
of it. -/
theorem ChatInv.final (inv : ChatInv cfg s)
    (hclear : ∀ u, Clear (cfg.memory u) (cfg.stdin u))
    (hfinal : ∀ a, s.step cfg.qbytes a = none) (u : User) :
    (s.printed u.other).length = (pieces (cfg.stdin u)).length := by
  have hwhole : accounted s u = (pieces (cfg.stdin u)).length := by
    have hle := (inv.balance u).le
    have hlost := (inv.balance u).lost
    by_contra hne
    exact hlost (Nat.lt_of_le_of_ne hle hne) (hclear u)
  -- the children have nothing to receive, so that the queue is empty
  have htaken : ∀ v : User, ∀ msg ∈ s.queue, fromUser v.other msg = false := by
    intro v
    apply take_eq_none.mp
    have hreceive := hfinal (.receive v)
    rw [Sys.step, ChatQueue.receive, if_pos (inv.receiver v)] at hreceive
    cases htake : take (fromUser v.other) s.queue with
    | none => rfl
    | some found =>
        simp only [htake] at hreceive
        split at hreceive <;> cases hreceive
  have hqueue : s.queue = [] := by
    apply List.eq_nil_iff_forall_not_mem.mpr
    intro msg hmsg
    rcases inv.known msg hmsg with ⟨v, hv⟩ | ⟨v, hv⟩
    · have hnot := htaken v.other msg hmsg
      rw [other_other, hv] at hnot
      cases hnot
    · exact hv (hclear v)
  -- so the parents are not blocked, and have read everything
  have hstdin : s.stdin u = [] := by
    by_contra hne
    cases hsender : s.sender u with
    | exited => exact hne (inv.exited u hsender)
    | died => exact inv.died u hsender (hclear u)
    | running =>
        have hsend := hfinal (.send u)
        rw [Sys.step, send, if_pos hsender, if_neg hne] at hsend
        cases hload : s.load u with
        | none =>
            rw [hload] at hsend
            cases hsend
        | some msg =>
            have hroom : Room cfg.qbytes s.queue msg := by
              have hsize := load_size hne hload
              have hbytes := cfg.room
              have hmax : maxText = 128 := rfl
              rw [hqueue]
              show msg.text.length + 0 ≤ _ ∧ 1 + 0 ≤ _
              omega
            simp only [hload, if_pos hroom] at hsend
            cases hsend
  rw [← hwhole, accounted, hqueue, hstdin, pieces_nil]
  rfl

/-- **A chat is delivered if and only if it is clear.** -/
theorem chat_delivers_iff (cfg : Config) :
    Delivers cfg ↔ ∀ u, Clear (cfg.memory u) (cfg.stdin u) := by
  have hinv : ∀ s, Reach (Sys.step cfg.qbytes) (fun _ _ => True) (Sys.init cfg) s →
      ChatInv cfg s := fun s h =>
    h.keeps (ChatInv.init cfg) (fun _ _ _ inv _ hs => inv.step hs)
  constructor
  · intro hdelivers u
    have ⟨s, hreach, hfinal⟩ : ∃ s, Reach (Sys.step cfg.qbytes) (fun _ _ => True) (Sys.init cfg) s ∧
        ∀ a, s.step cfg.qbytes a = none :=
      Reach.refl.exists_final (fun _ _ _ hs => step_remaining hs)
    have inv := hinv s hreach
    have hprinted := congrArg List.length ((hdelivers s hreach u).2 hfinal)
    rw [texts_length] at hprinted
    have hle := (inv.balance u).le
    have hwhole : accounted s u = (pieces (cfg.stdin u)).length := by
      unfold accounted at hle ⊢
      omega
    have hstdin : s.stdin u = [] := by
      apply pieces_eq_nil
      unfold accounted at hwhole
      omega
    apply ((inv.balance u).whole hwhole).mp
    rw [hstdin]
    exact clear_nil _
  · intro hclear s hreach u
    have inv := hinv s hreach
    have hle : (s.printed u.other).length ≤ (pieces (cfg.stdin u)).length := by
      have hle := (inv.balance u).le
      unfold accounted at hle
      omega
    refine ⟨?_, fun hfinal => ?_⟩
    · rw [texts_of_clear (hclear u), inv.printed_eq u.other]
      exact ⟨_, List.replicate_append_replicate.trans
        (congrArg (List.replicate · []) (Nat.add_sub_cancel' hle))⟩
    · rw [texts_of_clear (hclear u), inv.printed_eq u.other, inv.final hclear hfinal u]

/-- User 1 types `hi`, and user 2 nothing. -/
def hiConfig : Config :=
  { stdin := fun u => match u with
      | .user1 => [104, 105, 10]
      | .user2 => []
    memory := fun _ _ => 0
    qbytes := 16384
    room := by decide }

/-- The message `hi` of user 1 stays in the queue, and all processes are at their
end or wait. -/
theorem hi_not_delivered : ¬ Delivers hiConfig := by
  intro hdelivers
  have hrun : run (Sys.step hiConfig.qbytes) (Sys.init hiConfig)
      [.send .user1, .send .user1, .send .user2] = some _ := rfl
  have hfinal := (hdelivers _ (Reach.of_run hrun) .user1).2 (fun a => by
    cases a with
    | send u => cases u <;> rfl
    | receive u => cases u <;> rfl)
  have hlen := congrArg List.length hfinal
  rw [texts_length, hiConfig, pieces_cons (by simp)] at hlen
  cases hlen

end SystemsInC.Ports.ChatDelivery
