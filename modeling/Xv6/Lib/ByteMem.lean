import Mathlib.Algebra.Ring.Nat
import Mathlib.Tactic.Common

/-!
# Byte memory

A memory of bytes at natural-number addresses, with little-endian words of four bytes. A word reads
back, and a store leaves the words and bytes alone that it does not overlap.
-/

/-- A memory of bytes. -/
abbrev ByteMem := ℕ → UInt8

namespace ByteMem

/-- The word at address `a`. -/
def ld (m : ByteMem) (a : ℕ) : ℕ :=
  (m a).toNat + 256 * (m (a + 1)).toNat + 65536 * (m (a + 2)).toNat + 16777216 * (m (a + 3)).toNat

/-- The memory with the word `v` at address `a`. -/
def st (m : ByteMem) (a v : ℕ) : ByteMem := fun x =>
  if x = a then UInt8.ofNat (v % 256)
  else if x = a + 1 then UInt8.ofNat (v / 256 % 256)
  else if x = a + 2 then UInt8.ofNat (v / 65536 % 256)
  else if x = a + 3 then UInt8.ofNat (v / 16777216 % 256)
  else m x

/-- `n` bytes of value `b` from address `a` on. -/
def fill (m : ByteMem) (a n : ℕ) (b : UInt8) : ByteMem := fun x =>
  if a ≤ x ∧ x < a + n then b else m x

/-- The bytes of a list from address `a` on. -/
def write (m : ByteMem) (a : ℕ) (l : List UInt8) : ByteMem := fun x =>
  if a ≤ x ∧ x < a + l.length then l.getD (x - a) 0 else m x

/-- The `n` bytes from address `a` on. -/
def read (m : ByteMem) (a n : ℕ) : List UInt8 := (List.range n).map fun i => m (a + i)

variable {m m' : ByteMem} {a b v : ℕ}

theorem st_of_not_mem (h : b < a ∨ a + 4 ≤ b) : m.st a v b = m b := by
  unfold st
  rw [if_neg (by omega), if_neg (by omega), if_neg (by omega), if_neg (by omega)]

theorem ld_congr (h : ∀ i < 4, m (a + i) = m' (a + i)) : m.ld a = m'.ld a := by
  have h₀ : m a = m' a := h 0 (by omega)
  unfold ld
  rw [h₀, h 1 (by omega), h 2 (by omega), h 3 (by omega)]

/-- A word reads back. -/
theorem ld_st (h : v < 2 ^ 32) : (m.st a v).ld a = v := by
  have byte : ∀ n, (UInt8.ofNat (n % 256)).toNat = n % 256 := fun n => by simp
  unfold ld st
  rw [if_pos rfl, if_neg (by omega), if_pos rfl, if_neg (by omega), if_neg (by omega), if_pos rfl,
    if_neg (by omega), if_neg (by omega), if_neg (by omega), if_pos rfl, byte, byte, byte, byte]
  omega

/-- Another word stays. -/
theorem ld_st_of_disjoint (h : a + 4 ≤ b ∨ b + 4 ≤ a) : (m.st a v).ld b = m.ld b :=
  ld_congr fun _ _ => st_of_not_mem (by omega)

@[simp] theorem length_read (n : ℕ) : (m.read a n).length = n := by
  unfold read
  rw [List.length_map, List.length_range]

theorem read_getElem? {n i : ℕ} (hi : i < n) : (m.read a n)[i]? = some (m (a + i)) := by
  unfold read
  rw [List.getElem?_map, List.getElem?_range hi]
  rfl

/-- A copy of `n` bytes. -/
theorem write_read {n i : ℕ} (hi : i < n) : m.write b (m'.read a n) (b + i) = m' (a + i) := by
  unfold write
  rw [length_read, if_pos (by omega), Nat.add_sub_cancel_left, List.getD_eq_getElem?_getD,
    read_getElem? hi]
  rfl

theorem write_of_not_mem {l : List UInt8} {x : ℕ} (h : x < a ∨ a + l.length ≤ x) :
    m.write a l x = m x := if_neg (by omega)

end ByteMem
