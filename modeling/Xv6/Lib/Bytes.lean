import Mathlib.Data.Nat.Notation
import Mathlib.Tactic.Ring

/-!
# Fixed-size byte arrays

`Bytes n` is an array of `n` bytes, read and written at a natural-number offset: a read outside
the array gives `0`, a write outside it does nothing. On top of `get` and `set` there are
little-endian numbers of any width (`rd`, `wr`), copies (`blit`) and slices (`slice`), each with
the lemma that says what `get`, or `rd`, sees through it. A statement about an array is then a
statement about the bytes at its offsets (`Bytes.ext`).
-/

/-- An array of `n` bytes. -/
def Bytes (n : ℕ) := Fin n → UInt8

namespace Bytes

variable {n m : ℕ}

/-- The byte at offset `i`; `0` past the end. -/
def get (b : Bytes n) (i : ℕ) : UInt8 := if h : i < n then b ⟨i, h⟩ else 0

/-- The array with the byte at offset `i` replaced. -/
def set (b : Bytes n) (i : ℕ) (v : UInt8) : Bytes n := fun j => if j.val = i then v else b j

/-- The array of zeros. -/
def zero (n : ℕ) : Bytes n := fun _ => 0

/-- The array with the byte `f i` at every offset `i`. -/
def ofFn (n : ℕ) (f : ℕ → UInt8) : Bytes n := fun i => f i

instance : Inhabited (Bytes n) := ⟨zero n⟩

theorem get_of_lt (b : Bytes n) {i : ℕ} (h : i < n) : b.get i = b ⟨i, h⟩ := dif_pos h

theorem get_of_le (b : Bytes n) {i : ℕ} (h : n ≤ i) : b.get i = 0 := dif_neg (by omega)

theorem ext {b c : Bytes n} (h : ∀ i < n, b.get i = c.get i) : b = c := by
  funext ⟨i, hi⟩
  have := h i hi
  rwa [get_of_lt _ hi, get_of_lt _ hi] at this

@[simp] theorem get_zero (i : ℕ) : (zero n).get i = 0 := by
  unfold get zero
  split <;> rfl

theorem get_ofFn (f : ℕ → UInt8) {i : ℕ} (h : i < n) : (ofFn n f).get i = f i := by
  rw [get_of_lt _ h]
  rfl

theorem get_set (b : Bytes n) (i j : ℕ) (v : UInt8) :
    (b.set i v).get j = if j = i ∧ i < n then v else b.get j := by
  by_cases hj : j < n
  · rw [get_of_lt _ hj, get_of_lt _ hj]
    by_cases hij : j = i
    · subst hij
      simp [set, hj]
    · simp [set, hij]
  · rw [get_of_le _ (not_lt.1 hj), get_of_le _ (not_lt.1 hj), if_neg (by omega)]

@[simp] theorem get_set_self (b : Bytes n) {i : ℕ} (v : UInt8) (h : i < n) :
    (b.set i v).get i = v := by
  rw [get_set, if_pos ⟨rfl, h⟩]

theorem get_set_of_ne (b : Bytes n) {i j : ℕ} (v : UInt8) (h : j ≠ i) :
    (b.set i v).get j = b.get j := by
  rw [get_set, if_neg fun h' => h h'.1]

/-! ## Little-endian numbers -/

/-- The number in the `k` bytes at offset `o`, least significant byte first. -/
def rd (b : Bytes n) (o : ℕ) : ℕ → ℕ
  | 0 => 0
  | k + 1 => (b.get o).toNat + 256 * b.rd (o + 1) k

/-- The array with `v` in the `k` bytes at offset `o`; the bits of `v` past them are lost. -/
def wr (b : Bytes n) (o : ℕ) : ℕ → ℕ → Bytes n
  | 0, _ => b
  | k + 1, v => (b.set o (UInt8.ofNat (v % 256))).wr (o + 1) k (v / 256)

theorem rd_lt (b : Bytes n) (o k : ℕ) : b.rd o k < 256 ^ k := by
  induction k generalizing o with
  | zero => simp [rd]
  | succ k ih =>
    have h₁ := ih (o + 1)
    have h₂ := (b.get o).toNat_lt
    rw [rd, pow_succ]
    omega

theorem rd_congr {b : Bytes n} {c : Bytes m} {o o' k : ℕ}
    (h : ∀ i < k, b.get (o + i) = c.get (o' + i)) : b.rd o k = c.rd o' k := by
  induction k generalizing o o' with
  | zero => rfl
  | succ k ih =>
    have h₀ : b.get o = c.get o' := h 0 (by omega)
    have h₁ : b.rd (o + 1) k = c.rd (o' + 1) k := ih fun i hi => by
      have := h (i + 1) (by omega)
      rwa [show o + (i + 1) = o + 1 + i by omega, show o' + (i + 1) = o' + 1 + i by omega] at this
    rw [rd, rd, h₀, h₁]

theorem get_wr_of_not_mem (b : Bytes n) {o k i : ℕ} (v : ℕ) (h : i < o ∨ o + k ≤ i) :
    (b.wr o k v).get i = b.get i := by
  induction k generalizing b o v with
  | zero => rfl
  | succ k ih => rw [wr, ih _ _ (by omega), get_set_of_ne _ _ (by omega)]

/-- A number reads back, up to the bits that do not fit. -/
theorem rd_wr (b : Bytes n) {o k : ℕ} (v : ℕ) (h : o + k ≤ n) :
    (b.wr o k v).rd o k = v % 256 ^ k := by
  induction k generalizing b o v with
  | zero => simp [rd, Nat.mod_one]
  | succ k ih =>
    have byte : (UInt8.ofNat (v % 256)).toNat = v % 256 := by simp
    rw [rd, wr, ih _ _ (by omega), get_wr_of_not_mem _ _ (by omega),
      get_set_self _ _ (by omega), byte, pow_succ, mul_comm (256 ^ k) 256, Nat.mod_mul]

theorem rd_wr_of_lt (b : Bytes n) {o k v : ℕ} (h : o + k ≤ n) (hv : v < 256 ^ k) :
    (b.wr o k v).rd o k = v := by
  rw [rd_wr b v h, Nat.mod_eq_of_lt hv]

/-- A write outside the bytes of a number does not change it. -/
theorem rd_wr_of_disjoint (b : Bytes n) {o k o' k' : ℕ} (v : ℕ) (h : o + k ≤ o' ∨ o' + k' ≤ o) :
    (b.wr o' k' v).rd o k = b.rd o k :=
  rd_congr fun _ _ => get_wr_of_not_mem _ _ (by omega)

/-- The number whose bytes stand at an offset. -/
theorem rd_eq_of_bytes (b : Bytes n) {o k v : ℕ}
    (h : ∀ i < k, b.get (o + i) = UInt8.ofNat (v / 256 ^ i % 256)) : b.rd o k = v % 256 ^ k := by
  induction k generalizing o v with
  | zero => simp [rd, Nat.mod_one]
  | succ k ih =>
    have h₀ : b.get o = UInt8.ofNat (v % 256) := by simpa using h 0 (by omega)
    have h₁ : b.rd (o + 1) k = v / 256 % 256 ^ k := ih fun i hi => by
      have := h (i + 1) (by omega)
      rwa [show o + (i + 1) = o + 1 + i by omega, pow_succ', ← Nat.div_div_eq_div_mul] at this
    have byte : (UInt8.ofNat (v % 256)).toNat = v % 256 := by simp
    rw [rd, h₀, h₁, byte, pow_succ', Nat.mod_mul]

/-! ## Slices and copies -/

/-- The `m` bytes from offset `o` on. -/
def slice (b : Bytes n) (o m : ℕ) : Bytes m := fun i => b.get (o + i)

/-- The array with the `len` bytes from offset `o` on replaced by `src 0`, `src 1`, and so on. -/
def blit (b : Bytes n) (o len : ℕ) (src : ℕ → UInt8) : Bytes n :=
  fun i => if o ≤ i.val ∧ i.val < o + len then src (i - o) else b i

theorem get_slice (b : Bytes n) (o : ℕ) {i : ℕ} (h : i < m) : (b.slice o m).get i = b.get (o + i) := by
  rw [get_of_lt _ h]
  rfl

theorem get_blit (b : Bytes n) (o len : ℕ) (src : ℕ → UInt8) {i : ℕ} (h : i < n) :
    (b.blit o len src).get i = if o ≤ i ∧ i < o + len then src (i - o) else b.get i := by
  rw [get_of_lt _ h, get_of_lt _ h]
  rfl

theorem rd_blit_of_not_mem (b : Bytes n) {o len o' k : ℕ} (src : ℕ → UInt8)
    (h : o' + k ≤ o ∨ o + len ≤ o') : (b.blit o len src).rd o' k = b.rd o' k := by
  refine rd_congr fun i hi => ?_
  by_cases hn : o' + i < n
  · rw [get_blit _ _ _ _ hn, if_neg (by omega)]
  · rw [get_of_le _ (by omega), get_of_le _ (by omega)]

@[simp] theorem blit_zero (b : Bytes n) (o : ℕ) (src : ℕ → UInt8) : b.blit o 0 src = b := by
  refine ext fun i hi => ?_
  rw [get_blit _ _ _ _ hi, if_neg (by omega)]

end Bytes
