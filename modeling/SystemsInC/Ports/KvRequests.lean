import SystemsInC.Verified.Words
import SystemsInC.Ports.KvStore

/-!
# Which requests the servers take

A white-space directive of `sscanf` matches no white space as well, so the command
letters need not be a word of their own: `SETk v` sets the key `k`, and `GETk` gets
it.  For every other buffer the servers do what the words of the buffer say.
-/

namespace SystemsInC.Ports.KvRequests

open SystemsInC.Verified
open SystemsInC.Verified.CString
open SystemsInC.Verified.TextInput (ascii isSpace)
open SystemsInC.Verified.FormatScan
open SystemsInC.Verified.Words
open SystemsInC.Ports.KvStore

/-! ## Well-formed requests -/

/-- The first word is `SET`, and two more follow. -/
def IsSet (buf : Bytes) : Prop :=
  ∃ key value more, words isSpace buf = ascii "SET" :: key :: value :: more

/-- The first word is `GET`, and one more follows. -/
def IsGet (buf : Bytes) : Prop :=
  ∃ key more, words isSpace buf = ascii "GET" :: key :: more

/-- The server sets or gets a key only if the buffer says so, and answers any other
buffer with an error that leaves the store alone. -/
structure ExecutesWellFormed (srv : Server) (buf : Bytes) : Prop where
  set : ∀ request, srv.setRequest buf = some request → IsSet buf
  get : ∀ key, srv.setRequest buf = none → srv.getRequest buf = some key → IsGet buf
  other : ¬ IsSet buf → ¬ IsGet buf → ∀ store, srv.handle store buf = (store, .error)

/-- The command letters are the start of a longer word. -/
def Glued (letters buf : Bytes) : Prop :=
  ∃ c rest, buf = letters ++ c :: rest ∧ isSpace c = false

/-! ## The words of a request -/

theorem letters_no_space {letters : Bytes} (h : letters = ascii "SET" ∨ letters = ascii "GET") :
    ∀ b ∈ letters, isSpace b = false := by
  rcases h with rfl | rfl <;> exact List.all_iff_forall_prop.mp (by decide)

section Words

variable {letters rest : Bytes} (hspace : ∀ b ∈ letters, isSpace b = false)
include hspace

/-- The letters are a word, or the start of one. -/
theorem words_or_glued (hne : letters ≠ []) (rest : Bytes) :
    words isSpace (letters ++ rest) = letters :: words isSpace rest ∨
      Glued letters (letters ++ rest) := by
  cases rest with
  | nil => exact .inl (words_append hne hspace rfl)
  | cons c rest =>
      cases hc : isSpace c with
      | true => exact .inl (words_append hne hspace hc)
      | false => exact .inr ⟨c, rest, rfl, hc⟩

/-- The first word is longer than the letters. -/
theorem Glued.words_ne {buf : Bytes} (h : Glued letters buf) (more : List Bytes) :
    words isSpace buf ≠ letters :: more := by
  obtain ⟨c, rest, rfl, hc⟩ := h
  rw [words_append_cons hspace hc]
  intro heq
  have hlen := congrArg List.length (List.cons.inj heq).1
  rw [List.length_append, List.length_cons] at hlen
  omega

/-- Glued letters do not change the number of words. -/
theorem Glued.length_words (h : Glued letters (letters ++ rest)) :
    (words isSpace (letters ++ rest)).length = (words isSpace rest).length := by
  obtain ⟨c, rest', heq, hc⟩ := h
  obtain rfl := List.append_cancel_left heq
  rw [words_append_cons hspace hc, words_cons_of_not_sep hc, List.length_cons, List.length_cons]

end Words

/-! ## What `sscanf` finds -/

section Scan

variable {srv : Server} {rest : Bytes}

/-- The rest of a request has a next word. -/
theorem exists_dropWhile_cons (h : words isSpace rest ≠ []) :
    ∃ c more, rest.dropWhile isSpace = c :: more ∧ isSpace c = false := by
  have hne : rest.dropWhile isSpace ≠ [] := fun hnil => h (words_eq_nil_iff.mpr hnil)
  obtain ⟨c, more, hdrop⟩ := List.exists_cons_of_ne_nil hne
  refine ⟨c, more, hdrop, ?_⟩
  have hhead := List.head?_dropWhile_not isSpace rest
  rw [hdrop] at hhead
  simpa using hhead

theorem length_le_width_of_dropWhile (hlen : rest.length ≤ bufSize - 1) {tail : Bytes}
    (hdrop : rest.dropWhile isSpace = tail) : ∀ n, srv.width = some n → tail.length ≤ n := by
  apply length_le_width
  rw [← hdrop]
  exact ((List.dropWhile_suffix isSpace).length_le).trans hlen

/-- `" %s"` finds a word if there is one. -/
theorem scan_white_str (hlen : rest.length ≤ bufSize - 1) :
    scan [.white, str srv.width] rest [] =
      match words isSpace rest with
      | [] => (-1, [])
      | key :: _ => (1, [key]) := by
  rw [scan]
  by_cases hblank : words isSpace rest = []
  · have hdrop := words_eq_nil_iff.mp hblank
    rw [hblank, hdrop, scan_str_blank rfl]
    rfl
  · obtain ⟨c, more, hdrop, hc⟩ := exists_dropWhile_cons hblank
    have hwords := words_dropWhile isSpace rest
    rw [hdrop, words_cons_of_not_sep hc] at hwords
    rw [← hwords, hdrop, scan_str_word (by rw [List.dropWhile_cons, hc]; rfl)
      (length_le_width_of_dropWhile hlen hdrop)]
    rfl

/-- `" %[^\n]"` finds a value if a word follows. -/
theorem scan_white_line (hlen : rest.length ≤ bufSize - 1) (key : Bytes) :
    scan [.white, line srv.width] rest [key] =
      if words isSpace rest = [] then (1, [key])
      else (2, [key, (rest.dropWhile isSpace).takeWhile (fun b => b != 10)]) := by
  rw [scan]
  by_cases hblank : words isSpace rest = []
  · rw [if_pos hblank, words_eq_nil_iff.mp hblank]
    rfl
  · obtain ⟨c, value, hdrop, hc⟩ := exists_dropWhile_cons hblank
    have hnewline : (c != 10) = true := by
      rw [bne_iff_ne]
      rintro rfl
      contradiction
    have htaken : taken srv.width (fun b => b != 10) (c :: value) =
        c :: value.takeWhile (fun b => b != 10) := by
      rw [taken_eq_takeWhile (length_le_width_of_dropWhile hlen hdrop), List.takeWhile_cons,
        if_pos hnewline]
    rw [if_neg hblank, hdrop, List.takeWhile_cons, if_pos hnewline]
    simp only [line, scan, fieldStart, Bool.false_eq_true, if_false, htaken, reduceCtorEq]
    rfl

/-- `" %s %[^\n]"` finds a word and a value exactly if there are two words. -/
theorem scan_white_str_line (hlen : rest.length ≤ bufSize - 1) :
    (∃ key value, scan [.white, str srv.width, .white, line srv.width] rest [] =
        (2, [key, value])) ↔ 2 ≤ (words isSpace rest).length := by
  rw [scan]
  by_cases hblank : words isSpace rest = []
  · rw [hblank, words_eq_nil_iff.mp hblank, scan_str_blank rfl]
    simp
  · obtain ⟨c, more, hdrop, hc⟩ := exists_dropWhile_cons hblank
    have hbehind : (more.dropWhile (fun b => !isSpace b)).length ≤ bufSize - 1 := by
      have hword := (List.dropWhile_suffix (l := rest) isSpace).length_le
      have hrest := (List.dropWhile_suffix (l := more) (fun b => !isSpace b)).length_le
      rw [hdrop, List.length_cons] at hword
      omega
    have hwords := words_dropWhile isSpace rest
    rw [hdrop, words_cons_of_not_sep hc] at hwords
    rw [hdrop, scan_str_word (by rw [List.dropWhile_cons, hc]; rfl)
      (length_le_width_of_dropWhile hlen hdrop), List.nil_append, scan_white_line hbehind,
      ← hwords, List.length_cons]
    by_cases hlast : words isSpace (more.dropWhile (fun b => !isSpace b)) = []
    · rw [if_pos hlast, hlast]
      simp
    · have hpos := List.length_pos_iff.mpr hlast
      rw [if_neg hlast]
      apply iff_of_true
      · exact ⟨_, _, rfl⟩
      · omega

end Scan

section Requests

variable {srv : Server} {buf : Bytes}

theorem getRequest_eq_some_iff {key : Bytes} :
    srv.getRequest buf = some key ↔ sscanf buf srv.getFormat = (1, [key]) := by
  unfold Server.getRequest
  split
  next found heq => simp [heq]
  next hother => exact iff_of_false (by simp) (fun heq => hother key heq)

theorem setRequest_eq_some_iff {key value : Bytes} :
    srv.setRequest buf = some (key, value) ↔ sscanf buf srv.setFormat = (2, [key, value]) := by
  unfold Server.setRequest
  split
  next k v heq => simp [heq]
  next hother => exact iff_of_false (by simp) (fun heq => hother key value heq)

variable (hlen : buf.length ≤ bufSize - 1) (hnul : ∀ b ∈ buf, b ≠ 0)
include hlen hnul

/-- A GET is found in a buffer that has a word behind the letters. -/
theorem getRequest_isSome_iff :
    (srv.getRequest buf).isSome ↔
      ∃ rest, buf = ascii "GET" ++ rest ∧ words isSpace rest ≠ [] := by
  rw [Option.isSome_iff_exists]
  simp only [getRequest_eq_some_iff, sscanf, cstr_eq_self hnul]
  by_cases hpre : ascii "GET" <+: buf
  · obtain ⟨rest, rfl⟩ := hpre
    have hrest : rest.length ≤ bufSize - 1 := by
      rw [List.length_append] at hlen
      omega
    simp only [Server.getFormat, scan_lits, scan_white_str hrest, List.append_cancel_left_eq,
      exists_eq_left']
    cases words isSpace rest with
    | nil => simp
    | cons key more => simp
  · have hnone : (scan srv.getFormat buf []).2 = [] := scan_lits_fail hpre
    apply iff_of_false
    · rintro ⟨key, hkey⟩
      rw [hkey] at hnone
      contradiction
    · rintro ⟨rest, rfl, -⟩
      exact hpre (List.prefix_append _ _)

/-- A SET is found in a buffer that has two words behind the letters. -/
theorem setRequest_isSome_iff :
    (srv.setRequest buf).isSome ↔
      ∃ rest, buf = ascii "SET" ++ rest ∧ 2 ≤ (words isSpace rest).length := by
  rw [Option.isSome_iff_exists]
  simp only [Prod.exists, setRequest_eq_some_iff, sscanf, cstr_eq_self hnul]
  by_cases hpre : ascii "SET" <+: buf
  · obtain ⟨rest, rfl⟩ := hpre
    have hrest : rest.length ≤ bufSize - 1 := by
      rw [List.length_append] at hlen
      omega
    simp only [Server.setFormat, scan_lits, scan_white_str_line hrest,
      List.append_cancel_left_eq, exists_eq_left']
  · have hnone : (scan srv.setFormat buf []).2 = [] := scan_lits_fail hpre
    apply iff_of_false
    · rintro ⟨key, value, hkey⟩
      rw [hkey] at hnone
      contradiction
    · rintro ⟨rest, rfl, -⟩
      exact hpre (List.prefix_append _ _)

end Requests

/-! ## Which buffers are handled as their words say -/

theorem letters_ne {rest rest' : Bytes} : ascii "SET" ++ rest ≠ ascii "GET" ++ rest' := by
  intro heq
  exact absurd (List.cons.inj heq).1 (by decide)

section Handled

variable {srv : Server} {buf : Bytes} (hlen : buf.length ≤ bufSize - 1) (hnul : ∀ b ∈ buf, b ≠ 0)
include hlen hnul

/-- A SET is asked for, or its letters are glued to what follows. -/
theorem isSet_or_glued (h : (srv.setRequest buf).isSome) :
    IsSet buf ∨ Glued (ascii "SET") buf ∧ 2 ≤ (words isSpace buf).length := by
  have hspace := letters_no_space (.inl rfl)
  obtain ⟨rest, rfl, htwo⟩ := (setRequest_isSome_iff hlen hnul).mp h
  rcases words_or_glued hspace (by decide) rest with hwords | hglued
  · left
    cases hrest : words isSpace rest with
    | nil => simp [hrest] at htwo
    | cons key more =>
        cases more with
        | nil => simp [hrest] at htwo
        | cons value more => exact ⟨key, value, more, by rw [hwords, hrest]⟩
  · right
    rw [hglued.length_words hspace]
    exact ⟨hglued, htwo⟩

theorem isGet_or_glued (h : (srv.getRequest buf).isSome) :
    IsGet buf ∨ Glued (ascii "GET") buf := by
  have hspace := letters_no_space (.inr rfl)
  obtain ⟨rest, rfl, hone⟩ := (getRequest_isSome_iff hlen hnul).mp h
  rcases words_or_glued hspace (by decide) rest with hwords | hglued
  · left
    obtain ⟨key, more, hrest⟩ := List.exists_cons_of_ne_nil hone
    exact ⟨key, more, by rw [hwords, hrest]⟩
  · exact .inr hglued

/-- Glued letters are taken for a command. -/
theorem setRequest_of_glued (h : Glued (ascii "SET") buf) (htwo : 2 ≤ (words isSpace buf).length) :
    (srv.setRequest buf).isSome := by
  rw [setRequest_isSome_iff hlen hnul]
  obtain ⟨c, rest, rfl, hc⟩ := h
  have hglued : Glued (ascii "SET") (ascii "SET" ++ c :: rest) := ⟨c, rest, rfl, hc⟩
  rw [hglued.length_words (letters_no_space (.inl rfl))] at htwo
  exact ⟨c :: rest, rfl, htwo⟩

theorem getRequest_of_glued (h : Glued (ascii "GET") buf) :
    srv.setRequest buf = none ∧ (srv.getRequest buf).isSome := by
  obtain ⟨c, rest, rfl, hc⟩ := h
  constructor
  · rw [← Option.not_isSome_iff_eq_none, setRequest_isSome_iff hlen hnul]
    rintro ⟨rest', heq, -⟩
    exact letters_ne heq.symm
  · rw [getRequest_isSome_iff hlen hnul]
    exact ⟨c :: rest, rfl, by rw [words_cons_of_not_sep hc]; exact List.cons_ne_nil _ _⟩

end Handled

/-- **When only well-formed commands are executed**: unless the buffer starts with
`GET` glued to what follows, or with `SET` glued to the first of two words. -/
theorem executesWellFormed_iff (srv : Server) (msg : Message) (hnul : ∀ b ∈ msg.bytes, b ≠ 0) :
    ExecutesWellFormed srv msg.bytes ↔
      ¬ (Glued (ascii "SET") msg.bytes ∧ 2 ≤ (words isSpace msg.bytes).length) ∧
        ¬ Glued (ascii "GET") msg.bytes := by
  constructor
  · intro h
    constructor
    · intro hset
      have hsome : (srv.setRequest msg.bytes).isSome :=
        setRequest_of_glued msg.length_le hnul hset.1 hset.2
      obtain ⟨request, hrequest⟩ := Option.isSome_iff_exists.mp hsome
      obtain ⟨key, value, more, hwords⟩ := h.set request hrequest
      exact hset.1.words_ne (letters_no_space (.inl rfl)) _ hwords
    · intro hglued
      have hget : srv.setRequest msg.bytes = none ∧ (srv.getRequest msg.bytes).isSome :=
        getRequest_of_glued msg.length_le hnul hglued
      obtain ⟨key, hkey⟩ := Option.isSome_iff_exists.mp hget.2
      obtain ⟨key', more, hwords⟩ := h.get key hget.1 hkey
      exact hglued.words_ne (letters_no_space (.inr rfl)) _ hwords
  · intro h
    have hset : (srv.setRequest msg.bytes).isSome → IsSet msg.bytes :=
      fun hsome => (isSet_or_glued msg.length_le hnul hsome).resolve_right h.1
    have hget : (srv.getRequest msg.bytes).isSome → IsGet msg.bytes :=
      fun hsome => (isGet_or_glued msg.length_le hnul hsome).resolve_right h.2
    exact
      { set := fun request hrequest => hset (Option.isSome_iff_exists.mpr ⟨request, hrequest⟩)
        get := fun key _ hkey => hget (Option.isSome_iff_exists.mpr ⟨key, hkey⟩)
        other := by
          intro hnoSet hnoGet store
          have hnone : srv.setRequest msg.bytes = none := by
            rw [← Option.not_isSome_iff_eq_none]
            exact fun hsome => hnoSet (hset hsome)
          have hnone' : srv.getRequest msg.bytes = none := by
            rw [← Option.not_isSome_iff_eq_none]
            exact fun hsome => hnoGet (hget hsome)
          rw [Server.handle, hnone, hnone'] }

/-- The request `GET k`. -/
theorem executesWellFormed_iff_get :
    ExecutesWellFormed .modular (ascii "GET k") ↔
      ¬ (Glued (ascii "SET") (ascii "GET k") ∧ 2 ≤ (words isSpace (ascii "GET k")).length) ∧
        ¬ Glued (ascii "GET") (ascii "GET k") :=
  executesWellFormed_iff .modular ⟨ascii "GET k", by decide, by decide⟩
    (List.all_iff_forall_prop.mp (by decide))

/-- The buffer `SETk v` has the first word `SETk`, and both servers set the key `k`. -/
theorem not_executesWellFormed_glued :
    ¬ ExecutesWellFormed .keyValue (ascii "SETk v") ∧
      ¬ ExecutesWellFormed .modular (ascii "SETk v") := by
  have hwords : words isSpace (ascii "SETk v") = [ascii "SETk", ascii "v"] := by decide
  constructor
  · intro h
    obtain ⟨key, value, more, heq⟩ := h.set (ascii "k", ascii "v") (by decide)
    rw [hwords] at heq
    exact absurd (List.cons.inj heq).1 (by decide)
  · intro h
    obtain ⟨key, value, more, heq⟩ := h.set (ascii "k", ascii "v") (by decide)
    rw [hwords] at heq
    exact absurd (List.cons.inj heq).1 (by decide)

end SystemsInC.Ports.KvRequests
