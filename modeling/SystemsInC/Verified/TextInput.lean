import SystemsInC.Verified.CString

/-!
# Reading text: `fgets` and `sscanf`

`fgets` takes a line off a stream, or as much of it as fits, and `chomp` takes the
newline off the line.  `sscanf` matches a string against a format: white space,
literal characters, `%*d` and `%s`.  It returns the number of assigned items, or
`EOF` if the input ends before a first conversion is complete.

What the return value does not say is how far the format was matched:
`scan_append` shows that no directive behind the last conversion has a part in
it.
-/

namespace SystemsInC.Verified.TextInput

open SystemsInC.Verified.CString

/-- The bytes of an ASCII text. -/
def ascii (text : String) : Bytes := text.toList.map (fun c => c.toNat.toUInt8)

/-- A number in decimal, as `%d` prints it. -/
def decimal (n : Nat) : Bytes := (Nat.toDigits 10 n).map (fun c => c.toNat.toUInt8)

/-- `isspace` in the C locale. -/
def isSpace (b : UInt8) : Bool := b = 32 || 9 ≤ b && b ≤ 13

def isDigit (b : UInt8) : Bool := 48 ≤ b && b ≤ 57

/-! ## Decimals -/

theorem digitChar_byte {d : Nat} (h : d < 10) :
    (Nat.digitChar d).toNat.toUInt8 = UInt8.ofNat (48 + d) := by
  have hall : ∀ d < 10, (Nat.digitChar d).toNat.toUInt8 = UInt8.ofNat (48 + d) := by decide
  exact hall d h

theorem decimal_of_lt {n : Nat} (h : n < 10) : decimal n = [UInt8.ofNat (48 + n)] := by
  rw [decimal, Nat.toDigits_of_lt_base h, List.map_singleton, digitChar_byte h]

theorem decimal_of_le {n : Nat} (h : 10 ≤ n) :
    decimal n = decimal (n / 10) ++ [UInt8.ofNat (48 + n % 10)] := by
  rw [decimal, Nat.toDigits_of_base_le (by decide) h, List.map_append, List.map_singleton,
    digitChar_byte (Nat.mod_lt n (by decide))]
  rfl

/-- The number that decimal digits denote. -/
def ofDecimal (digits : Bytes) : Nat := digits.foldl (fun n b => 10 * n + (b.toNat - 48)) 0

theorem digit_byte {d : Nat} (h : d < 10) :
    isDigit (UInt8.ofNat (48 + d)) = true ∧ (UInt8.ofNat (48 + d)).toNat - 48 = d := by
  have hall : ∀ d < 10, isDigit (UInt8.ofNat (48 + d)) = true ∧
      (UInt8.ofNat (48 + d)).toNat - 48 = d := by decide
  exact hall d h

/-- A number in decimal is one or more digits, and these denote it. -/
theorem decimal_spec (n : Nat) :
    decimal n ≠ [] ∧ (∀ b ∈ decimal n, isDigit b = true) ∧ ofDecimal (decimal n) = n := by
  induction n using Nat.strong_induction_on with
  | _ n ih =>
      rcases Nat.lt_or_ge n 10 with hlt | hge
      · have ⟨hdigit, hvalue⟩ := digit_byte hlt
        rw [decimal_of_lt hlt]
        refine ⟨List.cons_ne_nil _ _, by simpa using hdigit, ?_⟩
        rw [ofDecimal, List.foldl_cons, hvalue]
        exact Nat.zero_add n
      · have ⟨_, hdigits, hdenotes⟩ := ih (n / 10) (by omega)
        have ⟨hdigit, hvalue⟩ := digit_byte (Nat.mod_lt n (show 10 > 0 by decide))
        rw [decimal_of_le hge]
        refine ⟨by simp, fun b hb => ?_, ?_⟩
        · rcases List.mem_append.mp hb with hb | hb
          · exact hdigits b hb
          · rw [List.mem_singleton.mp hb]
            exact hdigit
        · rw [ofDecimal, List.foldl_append]
          show 10 * ofDecimal (decimal (n / 10)) + _ = n
          rw [hdenotes, hvalue]
          omega

theorem isDigit_iff (b : UInt8) : isDigit b = true ↔ 48 ≤ b.toNat ∧ b.toNat ≤ 57 := by
  rw [isDigit, Bool.and_eq_true, decide_eq_true_eq, decide_eq_true_eq, UInt8.le_iff_toNat_le,
    UInt8.le_iff_toNat_le]
  rfl

/-! ## Lines -/

/-- The line that `fgets(line, size, stream)` stores, without its NUL: up to the
first newline and at most `size - 1` bytes. -/
def fgetsLine (size : Nat) (stream : Bytes) : Bytes :=
  match (stream.take (size - 1)).findIdx? (fun b => b = 10) with
  | some i => stream.take (i + 1)
  | none => stream.take (size - 1)

theorem fgetsLine_pos {size : Nat} {stream : Bytes} (hsize : 2 ≤ size) (hne : stream ≠ []) :
    0 < (fgetsLine size stream).length := by
  have hpos := List.length_pos_iff.mpr hne
  unfold fgetsLine
  split
  · rw [List.length_take]
    omega
  · rw [List.length_take]
    omega

theorem fgetsLine_length_le (size : Nat) (stream : Bytes) :
    (fgetsLine size stream).length ≤ size - 1 := by
  unfold fgetsLine
  split
  case h_1 i hi =>
      have hlt := (List.findIdx?_eq_some_iff_getElem.mp hi).1
      rw [List.length_take] at hlt ⊢
      omega
  case h_2 =>
      rw [List.length_take]
      omega

/-- A line that fits is stored with its newline. -/
theorem fgetsLine_of_lt {size : Nat} {text : Bytes} (htext : ∀ b ∈ text, b ≠ 10)
    (hsize : text.length < size - 1) (rest : Bytes) :
    fgetsLine size (text ++ 10 :: rest) = text ++ [10] := by
  have htake : (text ++ 10 :: rest).take (text.length + 1) = text ++ [10] := by
    rw [List.take_length_add_append]
    rfl
  have hfind : ((text ++ 10 :: rest).take (size - 1)).findIdx? (fun b => b = 10) =
      some text.length := by
    rw [List.findIdx?_eq_some_iff_getElem]
    refine ⟨by rw [List.length_take, List.length_append, List.length_cons]; omega, ?_, ?_⟩
    · simp
    · intro i hi
      have hget : ((text ++ 10 :: rest).take (size - 1))[i]? = text[i]? := by
        rw [List.getElem?_take_of_lt (by omega), List.getElem?_append_left hi]
      rw [List.getElem?_eq_getElem (by rw [List.length_take, List.length_append]; omega),
        List.getElem?_eq_getElem hi] at hget
      have hne := htext text[i] (List.getElem_mem hi)
      rw [← Option.some.inj hget] at hne
      simpa using hne
  rw [fgetsLine, hfind]
  exact htake

/-- Of a line that does not fit the start is stored. -/
theorem fgetsLine_of_le {size : Nat} {text : Bytes} (htext : ∀ b ∈ text, b ≠ 10)
    (hsize : size - 1 ≤ text.length) (rest : Bytes) :
    fgetsLine size (text ++ 10 :: rest) = text.take (size - 1) := by
  have htake : (text ++ 10 :: rest).take (size - 1) = text.take (size - 1) :=
    List.take_append_of_le_length hsize
  have hfind : (text.take (size - 1)).findIdx? (fun b => b = 10) = none := by
    rw [List.findIdx?_eq_none_iff]
    intro b hb
    simpa using htext b (List.mem_of_mem_take hb)
  rw [fgetsLine, htake, hfind]

/-- The string that is left of a line when a NUL is put in the place of its first newline:
`line[strcspn(line, "\n")] = 0`. -/
def chomp (line : Bytes) : Bytes := (cstr line).takeWhile (fun b => b != 10)

theorem chomp_isPrefix (line : Bytes) : chomp line <+: line :=
  (List.takeWhile_prefix _).trans (List.takeWhile_prefix _)

theorem mem_chomp_ne_zero {line : Bytes} {b : UInt8} (h : b ∈ chomp line) : b ≠ 0 :=
  mem_cstr_ne_zero ((List.takeWhile_prefix _).subset h)

theorem chomp_eq_self {text : Bytes} (htext : ∀ b ∈ text, b ≠ 0 ∧ b ≠ 10) :
    chomp text = text := by
  rw [chomp, cstr_eq_self (fun b hb => (htext b hb).1), List.takeWhile_eq_self_iff]
  intro b hb
  simpa using (htext b hb).2

theorem chomp_newline {text : Bytes} (htext : ∀ b ∈ text, b ≠ 0 ∧ b ≠ 10) :
    chomp (text ++ [10]) = text := by
  have hcstr : cstr (text ++ [10]) = text ++ [10] := by
    refine cstr_eq_self (fun b hb => ?_)
    rcases List.mem_append.mp hb with hb | hb
    · exact (htext b hb).1
    · rw [List.mem_singleton.mp hb]
      decide
  rw [chomp, hcstr, List.takeWhile_append_of_pos (fun b hb => by simpa using (htext b hb).2)]
  simp

/-! ## Formats -/

inductive Directive
  /-- white space, which matches any amount of white space -/
  | white
  /-- a character that has to be there -/
  | lit (b : UInt8)
  /-- `%*d` -/
  | skipInt
  /-- `%s` -/
  | str
  deriving DecidableEq, Repr

/-- A directive that converts nothing. -/
def Directive.plain : Directive → Bool
  | .white => true
  | .lit _ => true
  | .skipInt => false
  | .str => false

/-- The directives of a format. -/
def directives : Bytes → List Directive
  | [] => []
  | 37 :: 42 :: 100 :: fmt => .skipInt :: directives fmt
  | 37 :: 115 :: fmt => .str :: directives fmt
  | b :: fmt => (if isSpace b then .white else .lit b) :: directives fmt

/-- What is left behind a decimal number, if there is one. -/
def skipDecimal (inp : Bytes) : Option Bytes :=
  let digits := if inp.head? = some 43 ∨ inp.head? = some 45 then inp.tail else inp
  if digits.takeWhile isDigit = [] then none else some (digits.dropWhile isDigit)

/-- What `sscanf` returns when the input ends: `EOF` unless a conversion is
complete. -/
def inputFailure (converted : Bool) (got : List Bytes) : Int :=
  if converted then got.length else -1

/-- `sscanf` from some directive on: `converted` says whether a conversion is
complete, `got` has the strings assigned so far.  The result is the return value
with all assigned strings. -/
def scan : List Directive → Bytes → Bool → List Bytes → Int × List Bytes
  | [], _, _, got => (got.length, got)
  | .white :: fmt, inp, converted, got => scan fmt (inp.dropWhile isSpace) converted got
  | .lit b :: fmt, inp, converted, got =>
      match inp with
      | [] => (inputFailure converted got, got)
      | c :: inp => if c = b then scan fmt inp converted got else (got.length, got)
  | .skipInt :: fmt, inp, converted, got =>
      if inp.dropWhile isSpace = [] then
        (inputFailure converted got, got)
      else
        match skipDecimal (inp.dropWhile isSpace) with
        | none => (got.length, got)
        | some inp => scan fmt inp true got
  | .str :: fmt, inp, converted, got =>
      if inp.dropWhile isSpace = [] then
        (inputFailure converted got, got)
      else
        scan fmt ((inp.dropWhile isSpace).dropWhile (fun b => ! isSpace b)) true
          (got ++ [(inp.dropWhile isSpace).takeWhile (fun b => ! isSpace b)])

/-- `sscanf(input, fmt, ...)`: the return value and the assigned strings. -/
def sscanf (input fmt : Bytes) : Int × List Bytes :=
  scan (directives fmt) (cstr input) false []

/-! ## Behind the last conversion -/

/-- After a conversion, directives that convert nothing do not change the
result. -/
theorem scan_plain {fmt : List Directive} (hplain : ∀ d ∈ fmt, d.plain = true) (inp : Bytes)
    (got : List Bytes) : scan fmt inp true got = ((got.length : Int), got) := by
  induction fmt generalizing inp with
  | nil => rfl
  | cons d fmt ih =>
      have htail : ∀ d ∈ fmt, d.plain = true := fun d hd => hplain d (List.mem_cons_of_mem _ hd)
      have hhead := hplain d List.mem_cons_self
      cases d with
      | white => exact ih htail _
      | lit b =>
          cases inp with
          | nil => rfl
          | cons c inp =>
              simp only [scan]
              split
              · exact ih htail _
              · rfl
      | skipInt => cases hhead
      | str => cases hhead

/-- Directives behind the last conversion of a format do not change what
`sscanf` returns and assigns. -/
theorem scan_append {fmt rest : List Directive} (hplain : ∀ d ∈ rest, d.plain = true)
    (hconv : ∃ d ∈ fmt, d.plain = false) (inp : Bytes) (converted : Bool) (got : List Bytes) :
    scan (fmt ++ rest) inp converted got = scan fmt inp converted got := by
  induction fmt generalizing inp converted got with
  | nil => simp at hconv
  | cons d fmt ih =>
      -- behind a completed conversion there may be no further one
      have hdone : ∀ inp got, scan (fmt ++ rest) inp true got = scan fmt inp true got := by
        intro inp got
        by_cases hmore : ∃ d ∈ fmt, d.plain = false
        · exact ih hmore inp true got
        · have hfmt : ∀ d ∈ fmt, d.plain = true := by simpa using hmore
          have hall : ∀ d ∈ fmt ++ rest, d.plain = true := by
            intro d hd
            rcases List.mem_append.mp hd with hd | hd
            · exact hfmt d hd
            · exact hplain d hd
          rw [scan_plain hall, scan_plain hfmt]
      have hlater : d.plain = true → ∃ d ∈ fmt, d.plain = false := by
        intro hd
        obtain ⟨d', hmem, hd'⟩ := hconv
        rcases List.mem_cons.mp hmem with rfl | hmem
        · simp [hd] at hd'
        · exact ⟨d', hmem, hd'⟩
      cases d with
      | white => exact ih (hlater rfl) _ converted got
      | lit b =>
          cases inp with
          | nil => rfl
          | cons c inp =>
              simp only [List.cons_append, scan]
              split
              · exact ih (hlater rfl) inp converted got
              · rfl
      | skipInt =>
          simp only [List.cons_append, scan]
          split
          · rfl
          · split
            · rfl
            · exact hdone _ got
      | str =>
          simp only [List.cons_append, scan]
          split
          · rfl
          · exact hdone _ _

end SystemsInC.Verified.TextInput
