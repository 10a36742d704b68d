import SystemsInC.Verified.TextInput

/-!
# `sscanf` with fields of text

A format of literal characters, white space and conversions that store a field:
`%s`, which skips white space and takes what is not white space, and `%[...]`,
which takes bytes of a set where it stands.  A conversion may have a width, and
it takes at least one byte.

`scan_lits`, `scan_white` and `scan_field` run a format over an input that is
written as the pieces it consists of; `scan_mem` bounds what any input can store.
-/

namespace SystemsInC.Verified.FormatScan

open SystemsInC.Verified.CString
open SystemsInC.Verified.TextInput (isSpace)

inductive Directive
  /-- white space, which matches any amount of white space -/
  | white
  /-- a character that has to be there -/
  | lit (b : UInt8)
  /-- a conversion that stores the bytes that `accept` accepts, `width` of them at
  most; `skip` says whether it skips white space first -/
  | field (skip : Bool) (width : Option Nat) (accept : UInt8 → Bool)

/-- `%s`, with a width or without one. -/
def str (width : Option Nat) : Directive := .field true width (fun b => !isSpace b)

/-- `%[^\n]`, with a width or without one. -/
def line (width : Option Nat) : Directive := .field false width (fun b => b != 10)

/-- Where a conversion starts. -/
def fieldStart (skip : Bool) (inp : Bytes) : Bytes :=
  if skip then inp.dropWhile isSpace else inp

/-- The bytes that a conversion takes off the input. -/
def taken (width : Option Nat) (accept : UInt8 → Bool) (inp : Bytes) : Bytes :=
  match width with
  | none => inp.takeWhile accept
  | some n => (inp.take n).takeWhile accept

/-- What `sscanf` returns when the input ends: `EOF` if nothing is stored yet. -/
def inputFailure (got : List Bytes) : Int := if got = [] then -1 else got.length

/-- `sscanf` from some directive on; `got` has the fields stored so far.  The
result is the return value with all stored fields. -/
def scan : List Directive → Bytes → List Bytes → Int × List Bytes
  | [], _, got => (got.length, got)
  | .white :: fmt, inp, got => scan fmt (inp.dropWhile isSpace) got
  | .lit b :: fmt, inp, got =>
      match inp with
      | [] => (inputFailure got, got)
      | c :: inp => if c = b then scan fmt inp got else (got.length, got)
  | .field skip width accept :: fmt, inp, got =>
      let inp := fieldStart skip inp
      if inp = [] then
        (inputFailure got, got)
      else if taken width accept inp = [] then
        (got.length, got)
      else
        scan fmt (inp.drop (taken width accept inp).length) (got ++ [taken width accept inp])

/-- `sscanf(input, fmt, ...)`: the return value and the stored fields. -/
def sscanf (input : Bytes) (fmt : List Directive) : Int × List Bytes :=
  scan fmt (cstr input) []

/-! ## An input in pieces -/

section Pieces

variable {fmt : List Directive} {rest tok text : Bytes} {got : List Bytes}

/-- Literal characters match themselves. -/
theorem scan_lits (text : Bytes) (fmt : List Directive) (rest : Bytes) (got : List Bytes) :
    scan (text.map .lit ++ fmt) (text ++ rest) got = scan fmt rest got := by
  induction text with
  | nil => rfl
  | cons b text ih =>
      show scan (.lit b :: (text.map .lit ++ fmt)) (b :: (text ++ rest)) got = scan fmt rest got
      rw [scan, if_pos rfl]
      exact ih

/-- A blank in the format takes the blank in the input. -/
theorem scan_white (hrest : ∀ b, rest.head? = some b → isSpace b = false) :
    scan (.white :: fmt) (32 :: rest) got = scan fmt rest got := by
  have hdrop : (32 :: rest).dropWhile isSpace = rest := by
    show rest.dropWhile isSpace = rest
    cases rest with
    | nil => rfl
    | cons b rest =>
        rw [List.dropWhile_cons_of_neg]
        rw [hrest b rfl]
        exact Bool.false_ne_true
  rw [scan, hdrop]

/-- A list of accepted bytes in front of one that is not accepted. -/
theorem takeWhile_append_stop {accept : UInt8 → Bool} (hacc : ∀ b ∈ tok, accept b = true)
    (hstop : ∀ b, rest.head? = some b → accept b = false) :
    (tok ++ rest).takeWhile accept = tok := by
  have hrest : rest.takeWhile accept = [] := by
    cases rest with
    | nil => rfl
    | cons b rest =>
        rw [List.takeWhile_cons_of_neg]
        rw [hstop b rfl]
        exact Bool.false_ne_true
  rw [List.takeWhile_append_of_pos hacc, hrest, List.append_nil]

theorem taken_append {width : Option Nat} {accept : UInt8 → Bool}
    (hacc : ∀ b ∈ tok, accept b = true)
    (hstop : ∀ b, rest.head? = some b → accept b = false)
    (hwidth : ∀ n, width = some n → tok.length ≤ n) : taken width accept (tok ++ rest) = tok := by
  cases width with
  | none => exact takeWhile_append_stop hacc hstop
  | some n =>
      have hle := hwidth n rfl
      show ((tok ++ rest).take n).takeWhile accept = tok
      rw [List.take_append, List.take_of_length_le hle]
      apply takeWhile_append_stop hacc
      intro b hb
      apply hstop b
      cases hn : n - tok.length with
      | zero =>
          rw [hn] at hb
          cases hb
      | succ m =>
          rw [hn] at hb
          cases rest with
          | nil => cases hb
          | cons c rest => exact hb

/-- A field that its conversion takes whole. -/
theorem scan_field {skip : Bool} {width : Option Nat} {accept : UInt8 → Bool} (hne : tok ≠ [])
    (hacc : ∀ b ∈ tok, accept b = true)
    (hstop : ∀ b, rest.head? = some b → accept b = false)
    (hwidth : ∀ n, width = some n → tok.length ≤ n)
    (hskip : skip = true → ∀ b, tok.head? = some b → isSpace b = false) :
    scan (.field skip width accept :: fmt) (tok ++ rest) got = scan fmt rest (got ++ [tok]) := by
  have hstart : fieldStart skip (tok ++ rest) = tok ++ rest := by
    cases skip with
    | false => rfl
    | true =>
        cases tok with
        | nil => exact absurd rfl hne
        | cons b tok =>
            show (b :: (tok ++ rest)).dropWhile isSpace = b :: (tok ++ rest)
            rw [List.dropWhile_cons_of_neg]
            rw [hskip rfl b rfl]
            exact Bool.false_ne_true
  have htaken := taken_append hacc hstop hwidth
  have hsome : tok ++ rest ≠ [] := by simp [hne]
  simp only [scan, hstart, htaken]
  rw [if_neg hsome, if_neg hne, List.drop_left]

end Pieces

/-! ## Any input -/

section Inputs

variable {fmt : List Directive} {inp rest : Bytes} {got : List Bytes} {width : Option Nat} {c : UInt8}

/-- Nothing is stored if the literal characters do not match. -/
theorem scan_lits_fail {text : Bytes} (h : ¬ text <+: inp) :
    (scan (text.map .lit ++ fmt) inp []).2 = [] := by
  induction text generalizing inp with
  | nil => exact absurd List.nil_prefix h
  | cons b text ih =>
      cases inp with
      | nil => rfl
      | cons c inp =>
          show (if c = b then scan (text.map .lit ++ fmt) inp [] else (0, [])).2 = []
          split
          next hc =>
            apply ih
            intro hpre
            exact h (List.cons_prefix_cons.mpr ⟨hc.symm, hpre⟩)
          next => rfl

/-- A width that the input does not reach has no effect. -/
theorem taken_eq_takeWhile {accept : UInt8 → Bool}
    (hwidth : ∀ n, width = some n → inp.length ≤ n) :
    taken width accept inp = inp.takeWhile accept := by
  cases width with
  | none => rfl
  | some n =>
      show (inp.take n).takeWhile accept = _
      rw [List.take_of_length_le (hwidth n rfl)]

/-- `%s` fails on a blank input. -/
theorem scan_str_blank (h : inp.dropWhile isSpace = []) :
    scan (str width :: fmt) inp got = (inputFailure got, got) := by
  show (if inp.dropWhile isSpace = [] then _ else _) = _
  rw [if_pos h]

/-- `%s` takes the first word. -/
theorem scan_str_word (h : inp.dropWhile isSpace = c :: rest)
    (hwidth : ∀ n, width = some n → (c :: rest).length ≤ n) :
    scan (str width :: fmt) inp got =
      scan fmt (rest.dropWhile (fun b => !isSpace b))
        (got ++ [c :: rest.takeWhile (fun b => !isSpace b)]) := by
  have hc : (!isSpace c) = true := by
    have hhead := List.head?_dropWhile_not isSpace inp
    rw [h] at hhead
    simpa using hhead
  have htaken : taken width (fun b => !isSpace b) (c :: rest) =
      c :: rest.takeWhile (fun b => !isSpace b) := by
    rw [taken_eq_takeWhile hwidth, List.takeWhile_cons, if_pos hc]
  have hrest : (c :: rest).drop (c :: rest.takeWhile (fun b => !isSpace b)).length =
      rest.dropWhile (fun b => !isSpace b) := by
    have hsplit := List.takeWhile_append_dropWhile (p := fun b => !isSpace b) (l := rest)
    calc (c :: rest).drop (c :: rest.takeWhile (fun b => !isSpace b)).length
        = (rest.takeWhile (fun b => !isSpace b) ++ rest.dropWhile (fun b => !isSpace b)).drop
            (rest.takeWhile (fun b => !isSpace b)).length := by
          rw [hsplit, List.length_cons, List.drop_succ_cons]
      _ = rest.dropWhile (fun b => !isSpace b) := List.drop_left
  simp only [str, scan, fieldStart, if_true, h, reduceCtorEq, if_false, htaken, hrest]

end Inputs

/-! ## What can be stored -/

theorem taken_sublist (width : Option Nat) (accept : UInt8 → Bool) (inp : Bytes) :
    (taken width accept inp).Sublist inp := by
  cases width with
  | none => exact (List.takeWhile_prefix accept).sublist
  | some n => exact (List.takeWhile_prefix accept).sublist.trans (List.take_sublist n inp)

/-- Every stored field is a part of the input. -/
theorem scan_mem (fmt : List Directive) (inp : Bytes) (got : List Bytes) {x : Bytes}
    (h : x ∈ (scan fmt inp got).2) : x ∈ got ∨ x.Sublist inp := by
  induction fmt generalizing inp got with
  | nil => exact .inl h
  | cons d fmt ih =>
      cases d with
      | white =>
          rcases ih _ _ h with hgot | hsub
          · exact .inl hgot
          · exact .inr (hsub.trans (List.dropWhile_suffix _).sublist)
      | lit b =>
          cases inp with
          | nil => exact .inl h
          | cons c inp =>
              rw [scan] at h
              split at h
              · rcases ih _ _ h with hgot | hsub
                · exact .inl hgot
                · exact .inr (hsub.trans (List.sublist_cons_self c inp))
              · exact .inl h
      | field skip width accept =>
          have hstart : (fieldStart skip inp).Sublist inp := by
            cases skip with
            | true => exact (List.dropWhile_suffix _).sublist
            | false => exact List.Sublist.refl inp
          simp only [scan] at h
          split at h
          · exact .inl h
          · split at h
            · exact .inl h
            · rcases ih _ _ h with hgot | hsub
              · rcases List.mem_append.mp hgot with hgot | hnew
                · exact .inl hgot
                · rw [List.mem_singleton.mp hnew]
                  exact .inr ((taken_sublist width accept _).trans hstart)
              · exact .inr ((hsub.trans (List.drop_sublist _ _)).trans hstart)

/-- What stands for the literal characters at the start of a format is not
stored. -/
theorem scan_lits_length {text : Bytes} {fmt : List Directive} {inp x : Bytes}
    (h : x ∈ (scan (text.map .lit ++ fmt) inp []).2) : x.length + text.length ≤ inp.length := by
  induction text generalizing inp with
  | nil =>
      rcases scan_mem fmt inp [] h with hnil | hsub
      · cases hnil
      · exact hsub.length_le
  | cons b text ih =>
      cases inp with
      | nil => cases h
      | cons c inp =>
          have h : x ∈ (if c = b then scan (text.map .lit ++ fmt) inp [] else (0, [])).2 := h
          split at h
          · have hle := ih h
            rw [List.length_cons, List.length_cons]
            omega
          · cases h

/-- The fields that `sscanf` stores have no NUL and are no longer than the
input. -/
theorem sscanf_mem {input x : Bytes} {fmt : List Directive} (h : x ∈ (sscanf input fmt).2) :
    (∀ b ∈ x, b ≠ 0) ∧ x.length ≤ input.length := by
  rcases scan_mem fmt (cstr input) [] h with hnil | hsub
  · cases hnil
  · have hpre : (cstr input).Sublist input := (List.takeWhile_prefix _).sublist
    exact ⟨fun b hb => mem_cstr_ne_zero (hsub.subset hb), (hsub.trans hpre).length_le⟩

end SystemsInC.Verified.FormatScan
