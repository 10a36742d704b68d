import SystemsInC.Verified.CString
import Mathlib.Algebra.GroupWithZero.Nat
import Mathlib.Data.List.GetD
import Mathlib.Data.Nat.Digits.Lemmas

/-!
# Bytes in memory and little-endian numbers

A memory gives a byte to each address.  `write` stores a list of bytes from an
address on and leaves all others alone; `read` is the list of bytes from an
address on.  A number of `k` bytes stands in memory with its lowest byte first
(`leBytes`, `leNat`), and a `long` is the signed number of eight bytes.
-/

namespace SystemsInC.Verified.ByteMemory

open SystemsInC.Verified.CString (Bytes)

/-! ## Little-endian numbers -/

/-- The number that stands in some bytes, its lowest byte first. -/
def leNat (bs : Bytes) : Nat := Nat.ofDigits 256 (bs.map UInt8.toNat)

/-- The `k` lowest bytes of a number, the lowest one first. -/
def leBytes : Nat → Nat → Bytes
  | 0, _ => []
  | k + 1, v => UInt8.ofNat v :: leBytes k (v / 256)

@[simp] theorem leNat_nil : leNat [] = 0 := rfl

@[simp] theorem leNat_cons (b : UInt8) (bs : Bytes) : leNat (b :: bs) = b.toNat + 256 * leNat bs :=
  rfl

@[simp] theorem leBytes_length (k v : Nat) : (leBytes k v).length = k := by
  induction k generalizing v with
  | zero => rfl
  | succ k ih => rw [leBytes, List.length_cons, ih]

theorem leNat_append (bs cs : Bytes) :
    leNat (bs ++ cs) = leNat bs + 256 ^ bs.length * leNat cs := by
  rw [leNat, List.map_append, Nat.ofDigits_append, List.length_map]
  rfl

theorem leNat_lt (bs : Bytes) : leNat bs < 256 ^ bs.length := by
  have hlt := Nat.ofDigits_lt_base_pow_length (b := 256) (l := bs.map UInt8.toNat) (by decide) (by
    intro d hd
    have ⟨b, _, hb⟩ := List.mem_map.mp hd
    rw [← hb]
    exact b.toNat_lt)
  rwa [List.length_map] at hlt

theorem leNat_eq_zero_iff {bs : Bytes} : leNat bs = 0 ↔ ∀ b ∈ bs, b = 0 := by
  induction bs with
  | nil => simp
  | cons b bs ih =>
      have hb : b.toNat = 0 ↔ b = 0 := by
        rw [← UInt8.toNat_inj]
        rfl
      rw [leNat_cons, Nat.add_eq_zero_iff, Nat.mul_eq_zero, List.forall_mem_cons, hb, ih]
      simp

/-! ## Memory -/

abbrev Memory := Nat → UInt8

/-- The `n` bytes from an address on. -/
def Memory.read (m : Memory) (pos n : Nat) : Bytes := (List.range n).map (fun k => m (pos + k))

/-- Store bytes from an address on. -/
def Memory.write (m : Memory) (pos : Nat) (bs : Bytes) : Memory :=
  fun i => if pos ≤ i then bs.getD (i - pos) (m i) else m i

/-- The `long` at an address. -/
def Memory.long (m : Memory) (pos : Nat) : Int := Int.bmod (leNat (m.read pos 8)) UInt64.size

variable (m : Memory) {pos n k : Nat} {bs : Bytes}

@[simp] theorem read_length : (m.read pos n).length = n := by
  rw [Memory.read, List.length_map, List.length_range]

theorem mem_read {b : UInt8} : b ∈ m.read pos n ↔ ∃ k < n, m (pos + k) = b := by
  simp [Memory.read]

theorem read_add (pos n k : Nat) : m.read pos (n + k) = m.read pos n ++ m.read (pos + n) k := by
  simp only [Memory.read, List.range_add, List.map_append, List.map_map, Function.comp_def,
    Nat.add_assoc]

theorem read_take (h : n ≤ k) : m.read pos n = (m.read pos k).take n := by
  have hk : k = n + (k - n) := by omega
  rw [hk, read_add, List.take_left' (read_length m)]

theorem read_congr {m' : Memory} (h : ∀ k < n, m (pos + k) = m' (pos + k)) :
    m.read pos n = m'.read pos n :=
  List.map_congr_left (fun k hk => h k (List.mem_range.mp hk))

theorem write_below {i : Nat} (h : i < pos) : m.write pos bs i = m i :=
  if_neg (Nat.not_le.mpr h)

theorem write_at (pos : Nat) (h : k < bs.length) : m.write pos bs (pos + k) = bs[k] := by
  rw [Memory.write, if_pos (Nat.le_add_right pos k), Nat.add_sub_cancel_left]
  exact List.getD_eq_getElem _ _ h

theorem write_above {i : Nat} (h : pos + bs.length ≤ i) : m.write pos bs i = m i := by
  rw [Memory.write, if_pos (by omega)]
  exact List.getD_eq_default _ _ (by omega)

/-- What was stored is read back. -/
theorem read_write_self (pos : Nat) (bs : Bytes) : (m.write pos bs).read pos bs.length = bs := by
  apply List.ext_getElem
  · exact read_length _
  · intro k h₁ h₂
    simp only [Memory.read, List.getElem_map, List.getElem_range]
    exact write_at m pos h₂

/-- Bytes in front of what was stored. -/
theorem read_write_below (h : n + k ≤ pos) : (m.write pos bs).read n k = m.read n k := by
  apply read_congr
  intro i hi
  exact write_below m (by omega)

/-- Bytes behind what was stored. -/
theorem read_write_above (h : pos + bs.length ≤ n) : (m.write pos bs).read n k = m.read n k := by
  apply read_congr
  intro i _
  exact write_above m (by omega)

end SystemsInC.Verified.ByteMemory
