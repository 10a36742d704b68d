import Mathlib.Data.List.TakeWhile

/-!
# NUL-terminated strings in bounded `char` arrays

A `char` array is a list of bytes read from its start.  The string it holds is
the part before the first NUL, and the library calls that the programs use on
such arrays (`strncpy`, `strcmp`, `strncmp`) see nothing but that part.

`strncpy` is total here: where the C function would run past the end of an
unterminated source array, the model stops at the end of the list.  No result
below is used on such a source with a bound beyond its end.
-/

namespace SystemsInC.Verified.CString

/-- The bytes of a `char` array. -/
abbrev Bytes := List UInt8

/-- The string a `char` array holds: its bytes before the first NUL. -/
def cstr (mem : Bytes) : Bytes := mem.takeWhile (fun b => b != 0)

/-- `strcmp(a, b) == 0`. -/
def strcmpEq (a b : Bytes) : Prop := cstr a = cstr b

instance (a b : Bytes) : Decidable (strcmpEq a b) := by
  unfold strcmpEq
  infer_instance

/-- `strncmp(a, b, n) == 0`. -/
def strncmpEq (a b : Bytes) (n : Nat) : Prop := (cstr a).take n = (cstr b).take n

instance (a b : Bytes) (n : Nat) : Decidable (strncmpEq a b n) := by
  unfold strncmpEq
  infer_instance

/-- The `n` bytes that `strncpy(dst, src, n)` leaves at `dst`: the string of
`src` cut to `n` bytes and padded with NULs. -/
def strncpy (src : Bytes) (n : Nat) : Bytes :=
  (cstr src).take n ++ List.replicate (n - (cstr src).length) 0

theorem mem_cstr_ne_zero {mem : Bytes} {b : UInt8} (h : b ∈ cstr mem) : b ≠ 0 := by
  have hb := List.mem_takeWhile_imp h
  simpa using hb

/-- Bytes without a NUL in front of a NUL are exactly the string. -/
theorem cstr_append_zero {s : Bytes} (hs : ∀ b ∈ s, b ≠ 0) (rest : Bytes) :
    cstr (s ++ 0 :: rest) = s := by
  induction s with
  | nil => simp [cstr]
  | cons b s ih =>
      have hb : b ≠ 0 := hs b (by simp)
      have htail : cstr (s ++ 0 :: rest) = s := ih (fun x hx => hs x (by simp [hx]))
      simpa [cstr, hb] using htail

/-- Bytes without a NUL are their own string. -/
theorem cstr_eq_self {s : Bytes} (hs : ∀ b ∈ s, b ≠ 0) : cstr s = s := by
  induction s with
  | nil => rfl
  | cons b s ih =>
      have hb : b ≠ 0 := hs b (by simp)
      have htail : cstr s = s := ih (fun x hx => hs x (by simp [hx]))
      simpa [cstr, hb] using htail

@[simp] theorem cstr_cstr (mem : Bytes) : cstr (cstr mem) = cstr mem :=
  cstr_eq_self (fun _ hb => mem_cstr_ne_zero hb)

/-- The copy holds the source string cut to the bound. -/
@[simp] theorem cstr_strncpy (src : Bytes) (n : Nat) :
    cstr (strncpy src n) = (cstr src).take n := by
  have hne : ∀ b ∈ (cstr src).take n, b ≠ 0 :=
    fun b hb => mem_cstr_ne_zero (List.mem_of_mem_take hb)
  unfold strncpy
  cases hpad : n - (cstr src).length with
  | zero => simpa using cstr_eq_self hne
  | succ m => simpa [List.replicate_succ] using cstr_append_zero hne (List.replicate m 0)

/-- A NUL behind the copy terminates it. -/
@[simp] theorem cstr_strncpy_append_zero (src : Bytes) (n : Nat) :
    cstr (strncpy src n ++ [0]) = (cstr src).take n := by
  have hne : ∀ b ∈ (cstr src).take n, b ≠ 0 :=
    fun b hb => mem_cstr_ne_zero (List.mem_of_mem_take hb)
  rw [strncpy, List.append_assoc, ← List.replicate_succ', List.replicate_succ]
  exact cstr_append_zero hne _

/-- Only the string of the source matters. -/
theorem strncpy_congr {a b : Bytes} (h : cstr a = cstr b) (n : Nat) :
    strncpy a n = strncpy b n := by
  unfold strncpy
  rw [h]

/-- Copying a copy again with the same bound changes nothing. -/
@[simp] theorem strncpy_strncpy (src : Bytes) (n : Nat) :
    strncpy (strncpy src n) n = strncpy src n := by
  have hlen : n - ((cstr src).take n).length = n - (cstr src).length := by
    rw [List.length_take]
    omega
  rw [strncpy, cstr_strncpy, List.take_take, Nat.min_self, hlen, strncpy]

/-- The copy fills all `n` bytes. -/
@[simp] theorem length_strncpy (src : Bytes) (n : Nat) : (strncpy src n).length = n := by
  rw [strncpy, List.length_append, List.length_take, List.length_replicate]
  omega

/-- A NUL among the first `n` bytes ends the string there. -/
theorem length_cstr_lt_of_zero_mem {mem : Bytes} {n : Nat} (h : 0 ∈ mem.take n) :
    (cstr mem).length < n := by
  induction mem generalizing n with
  | nil => simp at h
  | cons b mem ih =>
      cases n with
      | zero => simp at h
      | succ n =>
          by_cases hb : b = 0
          · simp [cstr, hb]
          · have htail : 0 ∈ mem.take n := by simpa [Ne.symm hb] using h
            have hlt : (cstr mem).length < n := ih htail
            have hlength : (cstr (b :: mem)).length = (cstr mem).length + 1 := by simp [cstr, hb]
            omega

/-- The copy has a NUL exactly when the string is shorter than the bound. -/
theorem zero_mem_strncpy_iff {src : Bytes} {n : Nat} :
    0 ∈ strncpy src n ↔ (cstr src).length < n := by
  constructor
  · intro h
    rw [strncpy, List.mem_append] at h
    rcases h with hstring | hpad
    · exact absurd rfl (mem_cstr_ne_zero (List.mem_of_mem_take hstring))
    · have hpos := (List.mem_replicate.mp hpad).1
      omega
  · intro h
    exact List.mem_append_right _ (List.mem_replicate.mpr ⟨by omega, rfl⟩)

end SystemsInC.Verified.CString
