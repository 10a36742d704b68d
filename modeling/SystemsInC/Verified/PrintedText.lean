import SystemsInC.Verified.MachineInt
import SystemsInC.Verified.TextInput
import SystemsInC.Verified.TreeZipper

/-!
# Printed text that can be read back

`signed` is what `%d` prints and `scanSigned` what it reads.  A field that ends with a
delimiter, a list of lines and a tree printed on its side with one step of indentation for
each level can be taken apart again in one way only.
-/

namespace SystemsInC.Verified.PrintedText

open SystemsInC.Verified.CString
open SystemsInC.Verified.TextInput
open SystemsInC.Verified.MachineInt
open SystemsInC.Verified.TreeZipper

/-! ## Delimiters -/

section Delimiters

variable {α β : Type*}

/-- What stands before the first `x` with `p x` ends there. -/
theorem first_inj {p : α → Prop} {x x' : α} {field field' rest rest' : List α}
    (h : ∀ y ∈ field, ¬ p y) (h' : ∀ y ∈ field', ¬ p y) (hx : p x) (hx' : p x')
    (heq : field ++ x :: rest = field' ++ x' :: rest') :
    field = field' ∧ x = x' ∧ rest = rest' := by
  induction field generalizing field' with
  | nil =>
      cases field' with
      | nil => exact ⟨rfl, List.cons.inj heq⟩
      | cons y field' =>
          have hhead : x = y := (List.cons.inj heq).1
          exact absurd (hhead ▸ hx) (h' y List.mem_cons_self)
  | cons y field ih =>
      cases field' with
      | nil =>
          have hhead : y = x' := (List.cons.inj heq).1
          exact absurd (hhead ▸ hx') (h y List.mem_cons_self)
      | cons z field' =>
          obtain ⟨hhead, htail⟩ := List.cons.inj heq
          obtain ⟨hfield, hrest⟩ := ih (fun w hw => h w (List.mem_cons_of_mem y hw))
            (fun w hw => h' w (List.mem_cons_of_mem z hw)) htail
          exact ⟨by rw [hhead, hfield], hrest⟩

/-- A field without the delimiter behind it ends at the first one. -/
theorem delimited_inj {x : α} {field field' rest rest' : List α} (h : x ∉ field)
    (h' : x ∉ field') (heq : field ++ x :: rest = field' ++ x :: rest') :
    field = field' ∧ rest = rest' := by
  have hbefore : ∀ l : List α, x ∉ l → ∀ y ∈ l, ¬ y = x := by
    rintro l hl y hy rfl
    exact hl hy
  obtain ⟨hfield, -, hrest⟩ := first_inj (p := (· = x)) (hbefore _ h) (hbefore _ h') rfl rfl heq
  exact ⟨hfield, hrest⟩

/-- The lines of a text, each with the end of line behind it. -/
theorem lines_inj {nl : α} {line : β → List α} (hline : ∀ b, nl ∉ line b) {bs bs' : List β}
    (heq : bs.flatMap (fun b => line b ++ [nl]) = bs'.flatMap (fun b => line b ++ [nl])) :
    bs.map line = bs'.map line := by
  induction bs generalizing bs' with
  | nil =>
      cases bs' with
      | nil => rfl
      | cons b' bs' => simp at heq
  | cons b bs ih =>
      cases bs' with
      | nil => simp at heq
      | cons b' bs' =>
          rw [List.flatMap_cons, List.flatMap_cons, List.append_assoc, List.append_assoc,
            List.singleton_append, List.singleton_append] at heq
          obtain ⟨hhead, htail⟩ := delimited_inj (hline b) (hline b') heq
          rw [List.map_cons, List.map_cons, hhead, ih htail]

end Delimiters

/-! ## Indented trees -/

section Indented

variable {ν κ : Type*}

/-- A tree on its side: the right subtree, the root with its depth, the left subtree. -/
def indented (g : ν → κ) : Nat → HeapTree ν → List (Nat × κ)
  | _, .leaf => []
  | d, .node _ v l r => indented g (d + 1) r ++ (d, g v) :: indented g (d + 1) l

/-- The tree of what is printed of the values, without the addresses. -/
def erase (g : ν → κ) : HeapTree ν → HeapTree κ
  | .leaf => .leaf
  | .node _ v l r => .node 0 (g v) (erase g l) (erase g r)

theorem le_of_mem_indented {g : ν → κ} {d : Nat} {t : HeapTree ν} {e : Nat × κ}
    (h : e ∈ indented g d t) : d ≤ e.1 := by
  induction t generalizing d with
  | leaf => cases h
  | node a v l r ihl ihr =>
      rw [indented, List.mem_append, List.mem_cons] at h
      rcases h with hright | rfl | hleft
      · exact Nat.le_of_succ_le (ihr hright)
      · exact Nat.le_refl _
      · exact Nat.le_of_succ_le (ihl hleft)

/-- From the last line to the first it is the traversal of the tree. -/
theorem reverse_indented (g : ν → κ) (d : Nat) (t : HeapTree ν) :
    ((indented g d t).map Prod.snd).reverse = inorder (fun _ v => g v) t := by
  induction t generalizing d with
  | leaf => rfl
  | node a v l r ihl ihr =>
      simp [indented, inorder, ← ihl (d + 1), ← ihr (d + 1)]

/-- The depths determine the shape: the root is the only entry of its depth. -/
theorem indented_inj {g : ν → κ} {d : Nat} {t t' : HeapTree ν} :
    indented g d t = indented g d t' ↔ erase g t = erase g t' := by
  constructor
  · intro h
    induction t generalizing d t' with
    | leaf =>
        cases t' with
        | leaf => rfl
        | node a' v' l' r' => simp [indented] at h
    | node a v l r ihl ihr =>
        cases t' with
        | leaf => simp [indented] at h
        | node a' v' l' r' =>
            have hdeeper : ∀ s : HeapTree ν, ∀ e ∈ indented g (d + 1) s, ¬ e.1 ≤ d :=
              fun s e he => Nat.not_le_of_lt (le_of_mem_indented he)
            obtain ⟨hright, hroot, hleft⟩ := first_inj (p := fun e => e.1 ≤ d) (hdeeper r)
              (hdeeper r') (Nat.le_refl d) (Nat.le_refl d) h
            rw [erase, erase, ihl hleft, ihr hright, (Prod.mk.inj hroot).2]
  · intro h
    induction t generalizing d t' with
    | leaf =>
        cases t' with
        | leaf => rfl
        | node a' v' l' r' => cases h
    | node a v l r ihl ihr =>
        cases t' with
        | leaf => cases h
        | node a' v' l' r' =>
            obtain ⟨-, hval, hleft, hright⟩ := HeapTree.node.inj h
            rw [indented, indented, ihl hleft, ihr hright, hval]

end Indented

/-! ## Numbers -/

/-- `%d` of `printf`. -/
def signed (z : Int) : Bytes := if z < 0 then 45 :: decimal z.natAbs else decimal z.natAbs

theorem decimal_inj {n m : Nat} (h : decimal n = decimal m) : n = m := by
  have hn := (decimal_spec n).2.2
  rw [h, (decimal_spec m).2.2] at hn
  exact hn.symm

theorem digit_ne {b c : UInt8} (hb : isDigit b = true) (hc : isDigit c = false) : b ≠ c := by
  rintro rfl
  rw [hb] at hc
  cases hc

/-- A number is printed with digits and a sign only. -/
theorem not_mem_signed {z : Int} {b : UInt8} (hdigit : isDigit b = false) (hsign : b ≠ 45) :
    b ∉ signed z := by
  have hdecimal : b ∉ decimal z.natAbs :=
    fun hmem => digit_ne ((decimal_spec _).2.1 b hmem) hdigit rfl
  unfold signed
  split
  · exact fun hmem => (List.mem_cons.mp hmem).elim hsign hdecimal
  · exact hdecimal

theorem signed_inj {z y : Int} (h : signed z = signed y) : z = y := by
  have hsign : ∀ n m, decimal n ≠ 45 :: decimal m := by
    intro n m heq
    have hdigit := (decimal_spec n).2.1 45 (heq ▸ List.mem_cons_self)
    cases hdigit
  unfold signed at h
  split at h <;> split at h
  · have habs := decimal_inj (List.cons.inj h).2
    omega
  · exact absurd h.symm (hsign _ _)
  · exact absurd h (hsign _ _)
  · have habs := decimal_inj h
    omega

/-- The value of a number read by `%d`: `strtol` stops at the limits of a `long`, and the
result is converted to `int`. -/
def scanned (negative : Bool) (digits : Bytes) : Int :=
  toInt (max (-2 ^ 63) (min (2 ^ 63 - 1)
    (if negative then -(ofDecimal digits : Int) else (ofDecimal digits : Int))))

/-- The digits at the head of the input, if there is one. -/
def scanDigits (negative : Bool) (inp : Bytes) : Option (Int × Bytes) :=
  if inp.takeWhile isDigit = [] then none
  else some (scanned negative (inp.takeWhile isDigit), inp.dropWhile isDigit)

/-- `%d` of `scanf`: white space, a sign and digits; the value and the input left. -/
def scanSigned (inp : Bytes) : Option (Int × Bytes) :=
  match inp.dropWhile isSpace with
  | [] => none
  | b :: rest =>
      if b = 45 then scanDigits true rest
      else if b = 43 then scanDigits false rest
      else scanDigits false (b :: rest)

theorem scanDigits_length {negative : Bool} {inp rest : Bytes} {z : Int}
    (h : scanDigits negative inp = some (z, rest)) : rest.length < inp.length := by
  unfold scanDigits at h
  split at h
  · cases h
  · rename_i hne
    have hrest : inp.dropWhile isDigit = rest := congrArg Prod.snd (Option.some.inj h)
    have hlen := congrArg List.length (List.takeWhile_append_dropWhile (p := isDigit) (l := inp))
    have hpos := List.length_pos_iff.mpr hne
    rw [List.length_append] at hlen
    rw [← hrest]
    omega

/-- A number takes input. -/
theorem scanSigned_length {inp rest : Bytes} {z : Int} (h : scanSigned inp = some (z, rest)) :
    rest.length < inp.length := by
  have hle : (inp.dropWhile isSpace).length ≤ inp.length := (List.dropWhile_suffix _).length_le
  unfold scanSigned at h
  split at h
  · cases h
  · rename_i b tail hinp
    rw [hinp, List.length_cons] at hle
    split at h
    · have hlt := scanDigits_length h
      omega
    · split at h
      · have hlt := scanDigits_length h
        omega
      · have hlt := scanDigits_length h
        rw [List.length_cons] at hlt
        omega

/-- The digits of a number, up to something else. -/
theorem scanDigits_decimal (negative : Bool) (n : Nat) {rest : Bytes}
    (hrest : ∀ b, rest.head? = some b → isDigit b = false) :
    scanDigits negative (decimal n ++ rest) = some (scanned negative (decimal n), rest) := by
  obtain ⟨hne, hdigits, -⟩ := decimal_spec n
  have hstop : rest.takeWhile isDigit = [] ∧ rest.dropWhile isDigit = rest := by
    cases rest with
    | nil => exact ⟨rfl, rfl⟩
    | cons b rest =>
        have hb := hrest b rfl
        simp [hb]
  have htake : (decimal n ++ rest).takeWhile isDigit = decimal n := by
    rw [List.takeWhile_append_of_pos hdigits, hstop.1, List.append_nil]
  have hdrop : (decimal n ++ rest).dropWhile isDigit = rest := by
    rw [List.dropWhile_append_of_pos hdigits, hstop.2]
  rw [scanDigits, htake, hdrop, if_neg hne]

/-- **`%d` reads what `%d` has printed.** -/
theorem scanSigned_signed {white rest : Bytes} {z : Int} (hwhite : ∀ b ∈ white, isSpace b = true)
    (hz : IsInt z) (hrest : ∀ b, rest.head? = some b → isDigit b = false) :
    scanSigned (white ++ signed z ++ rest) = some (z, rest) := by
  obtain ⟨hne, hdigits, hvalue⟩ := decimal_spec z.natAbs
  have hclamp : max (-2 ^ 63) (min (2 ^ 63 - 1) z) = z := by
    unfold IsInt at hz
    omega
  unfold signed
  split
  · rename_i hneg
    have hskip : (white ++ (45 :: decimal z.natAbs) ++ rest).dropWhile isSpace =
        45 :: (decimal z.natAbs ++ rest) := by
      rw [List.append_assoc, List.dropWhile_append_of_pos hwhite]
      rfl
    have habs : (if true = true then -(z.natAbs : Int) else (z.natAbs : Int)) = z := by
      rw [if_pos rfl]
      omega
    unfold scanSigned
    rw [hskip]
    simp only [if_true]
    rw [scanDigits_decimal true _ hrest, scanned, hvalue, habs, hclamp, toInt_eq hz]
  · rename_i hpos
    cases hdecimal : decimal z.natAbs with
    | nil => exact absurd hdecimal hne
    | cons d digits =>
        have hd : isDigit d = true := hdigits d (hdecimal ▸ List.mem_cons_self)
        have hspace : isSpace d = false := by
          have hrange := (isDigit_iff d).mp hd
          simp only [isSpace, Bool.or_eq_false_iff, Bool.and_eq_false_iff, decide_eq_false_iff_not]
          constructor
          · rintro rfl
            simp at hrange
          · right
            intro hle
            have hnat := UInt8.le_iff_toNat_le.mp hle
            have hthirteen : (13 : UInt8).toNat = 13 := rfl
            omega
        have hskip : (white ++ (d :: digits) ++ rest).dropWhile isSpace =
            d :: (digits ++ rest) := by
          rw [List.append_assoc, List.dropWhile_append_of_pos hwhite, List.cons_append,
            List.dropWhile_cons_of_neg (by rw [hspace]; exact Bool.false_ne_true)]
        have habs : (if false = true then -(z.natAbs : Int) else (z.natAbs : Int)) = z := by
          rw [if_neg Bool.false_ne_true]
          omega
        unfold scanSigned
        rw [hskip]
        simp only [if_neg (digit_ne hd (rfl : isDigit 45 = false)),
          if_neg (digit_ne hd (rfl : isDigit 43 = false))]
        rw [← List.cons_append, ← hdecimal, scanDigits_decimal false _ hrest, scanned, hvalue,
          habs, hclamp, toInt_eq hz]

end SystemsInC.Verified.PrintedText
