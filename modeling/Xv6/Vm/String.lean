import Xv6.Vm.Memory
import Mathlib.Logic.Function.Basic

/-!
# `memset` and `memmove`

The two functions of `string.c` that the kernel writes memory with, on a memory of bytes with 32-bit
addresses. `memset` stores bytes up to a multiple of four, then words, then bytes again; the processor
stops at a store of a word to an address that is not a multiple of four. `memmove` copies from the end
when the destination begins inside the source.

Both do what their plain definitions say, for every alignment and every overlap (`memset_memmove_plain`),
and so the page allocator and the page tables may use the plain ones (`memset_eq_zeroPage`,
`memmove_eq_memmove`).
-/

namespace Xv6.Vm.Str

/-! ## The code -/

/-- How the processor stops: at a word that is not aligned, or in a loop that never ends. -/
inductive Fault
  | misaligned (a : ℕ)
  | spin

/-- Programs over memory. -/
abbrev StrM := Det Fault ByteMem

/-- A load of a byte. -/
def loadByte (a : ℕ) : StrM UInt8 := fun m => .ok (m a, m)

/-- A store of a byte. -/
def storeByte (a : ℕ) (b : UInt8) : StrM Unit := fun m => .ok ((), Function.update m a b)

/-- A store of a word. -/
def storeWord (a v : ℕ) : StrM Unit := fun m =>
  if a % 4 ≠ 0 then .error (.misaligned a) else .ok ((), m.st a v)

/-- The low byte of an `int`. -/
def uchar (c : ℤ) : UInt8 := UInt8.ofNat (c % 256).toNat

/-- The word that `memset` stores. -/
def word (c : ℤ) : ℕ :=
  let w := (uchar c).toNat
  let w := w ||| w <<< 8 % 2 ^ 32
  w ||| w <<< 16 % 2 ^ 32

section Memset

variable (cdst : ℕ) (c : ℤ) (n : ℕ)

/-- `while(i < n && ((uint)(cdst+i) & 3)) cdst[i++] = c;` -/
def headLoop : ℕ → ℕ → StrM ℕ
  | 0, _ => throw .spin
  | k + 1, i =>
    if i < n ∧ (cdst + i) % 2 ^ 32 &&& 3 ≠ 0 then do
      storeByte ((cdst + i) % 2 ^ 32) (uchar c)
      headLoop k ((i + 1) % 2 ^ 32)
    else return i

/-- `while(i + 4 <= n){ *(uint*)(cdst+i) = word; i += 4; }` -/
def wordLoop : ℕ → ℕ → StrM ℕ
  | 0, _ => throw .spin
  | k + 1, i =>
    if (i + 4) % 2 ^ 32 ≤ n then do
      storeWord ((cdst + i) % 2 ^ 32) (word c)
      wordLoop k ((i + 4) % 2 ^ 32)
    else return i

/-- `while(i < n) cdst[i++] = c;` -/
def tailLoop : ℕ → ℕ → StrM ℕ
  | 0, _ => throw .spin
  | k + 1, i =>
    if i < n then do
      storeByte ((cdst + i) % 2 ^ 32) (uchar c)
      tailLoop k ((i + 1) % 2 ^ 32)
    else return i

end Memset

/-- `memset`. The loops are given more turns than there are bytes. -/
def memset (dst : ℕ) (c : ℤ) (n : ℕ) : StrM ℕ := do
  let i ← headLoop dst c n (n + 1) 0
  let i ← wordLoop dst c n (n + 1) i
  let _ ← tailLoop dst c n (n + 1) i
  return dst

/-- `while(n-- > 0) *--d = *--s;` -/
def backLoop : ℕ → ℕ → ℕ → StrM Unit
  | 0, _, _ => return
  | n + 1, d, s => do
    let b ← loadByte ((s + 2 ^ 32 - 1) % 2 ^ 32)
    storeByte ((d + 2 ^ 32 - 1) % 2 ^ 32) b
    backLoop n ((d + 2 ^ 32 - 1) % 2 ^ 32) ((s + 2 ^ 32 - 1) % 2 ^ 32)

/-- `while(n-- > 0) *d++ = *s++;` -/
def fwdLoop : ℕ → ℕ → ℕ → StrM Unit
  | 0, _, _ => return
  | n + 1, d, s => do
    let b ← loadByte s
    storeByte d b
    fwdLoop n ((d + 1) % 2 ^ 32) ((s + 1) % 2 ^ 32)

/-- `memmove`. -/
def memmove (dst src n : ℕ) : StrM ℕ :=
  if n = 0 then return dst
  else if src < dst ∧ (src + n) % 2 ^ 32 > dst then do
    backLoop n ((dst + n) % 2 ^ 32) ((src + n) % 2 ^ 32)
    return dst
  else do
    fwdLoop n dst src
    return dst

/-! ## `memset` -/

section Memset

variable {E : Fault → Prop} {m : ByteMem} {dst i n k : ℕ} {c : ℤ}

/-- The word has the byte four times. -/
theorem word_eq (c : ℤ) : word c = (uchar c).toNat * 0x01010101 := by
  have hb := (uchar c).toNat_lt
  unfold word
  simp only
  generalize (uchar c).toNat = b at *
  have h₁ : b ||| b <<< 8 % 2 ^ 32 = b * 0x101 := by
    rw [Nat.mod_eq_of_lt (by rw [Nat.shiftLeft_eq]; omega), Nat.or_comm,
      ← Nat.shiftLeft_add_eq_or_of_lt (by omega), Nat.shiftLeft_eq]
    omega
  rw [h₁, Nat.mod_eq_of_lt (by rw [Nat.shiftLeft_eq]; omega), Nat.or_comm,
    ← Nat.shiftLeft_add_eq_or_of_lt (by omega), Nat.shiftLeft_eq]
  omega

/-- A byte more. -/
theorem update_fill {b : UInt8} :
    Function.update (m.fill dst i b) (dst + i) b = m.fill dst (i + 1) b := by
  funext x
  unfold ByteMem.fill
  by_cases hx : x = dst + i
  · rw [hx, Function.update_self, if_pos (by omega)]
  · rw [Function.update_of_ne hx]
    exact ite_congr (propext (by omega)) (fun _ => rfl) fun _ => rfl

/-- A word more. -/
theorem st_fill : (m.fill dst i (uchar c)).st (dst + i) (word c) = m.fill dst (i + 4) (uchar c) := by
  have hb := (uchar c).toNat_lt
  have byte : ∀ v, v % 256 = (uchar c).toNat → UInt8.ofNat (v % 256) = uchar c := fun v hv => by
    rw [hv]
    exact UInt8.ofNat_toNat
  funext x
  unfold ByteMem.st ByteMem.fill
  rw [word_eq]
  by_cases hin : dst + i ≤ x ∧ x < dst + (i + 4)
  · rw [if_pos (show dst ≤ x ∧ x < dst + (i + 4) by omega)]
    obtain rfl | rfl | rfl | rfl : x = dst + i ∨ x = dst + i + 1 ∨ x = dst + i + 2 ∨ x = dst + i + 3 := by
      omega
    · rw [if_pos rfl]
      exact byte _ (by omega)
    · rw [if_neg (by omega), if_pos rfl,
        show (uchar c).toNat * 0x01010101 / 256 = (uchar c).toNat * 0x010101 by omega]
      exact byte _ (by omega)
    · rw [if_neg (by omega), if_neg (by omega), if_pos rfl,
        show (uchar c).toNat * 0x01010101 / 65536 = (uchar c).toNat * 0x0101 by omega]
      exact byte _ (by omega)
    · rw [if_neg (by omega), if_neg (by omega), if_neg (by omega), if_pos rfl,
        show (uchar c).toNat * 0x01010101 / 16777216 = (uchar c).toNat by omega]
      exact byte _ (by omega)
  · rw [if_neg (by omega), if_neg (by omega), if_neg (by omega), if_neg (by omega)]
    exact ite_congr (propext (by omega)) (fun _ => rfl) fun _ => rfl

/-- The bytes before the first word. -/
theorem headLoop_ends (hi : i ≤ n) (hn : dst + n ≤ 2 ^ 32) (hn' : n < 2 ^ 31) (hk : n < i + k) :
    Det.Ends E (headLoop dst c n k i) (m.fill dst i (uchar c)) fun i' m' =>
      i' ≤ n ∧ m' = m.fill dst i' (uchar c) ∧ (i' = n ∨ (dst + i') % 4 = 0) := by
  induction k generalizing i with
  | zero => omega
  | succ k ih =>
    unfold headLoop
    rw [show (3 : ℕ) = 2 ^ 2 - 1 from rfl, Nat.and_two_pow_sub_one_eq_mod]
    by_cases hc : i < n ∧ (dst + i) % 2 ^ 32 % 2 ^ 2 ≠ 0
    · rw [if_pos hc, Nat.mod_eq_of_lt (show dst + i < 2 ^ 32 by omega),
        Nat.mod_eq_of_lt (show i + 1 < 2 ^ 32 by omega)]
      refine .bind (.of_eq rfl ?_)
      rw [update_fill]
      exact ih hc.1 (by omega)
    · rw [if_neg hc]
      exact .pure ⟨hi, rfl, by omega⟩

/-- The words, from an address that is aligned or when no word is left. -/
theorem wordLoop_ends (hi : i ≤ n) (hn : dst + n ≤ 2 ^ 32) (hn' : n < 2 ^ 31) (hk : n < i + k)
    (ha : i = n ∨ (dst + i) % 4 = 0) :
    Det.Ends E (wordLoop dst c n k i) (m.fill dst i (uchar c)) fun i' m' =>
      i' ≤ n ∧ m' = m.fill dst i' (uchar c) := by
  induction k generalizing i with
  | zero => omega
  | succ k ih =>
    unfold wordLoop
    rw [Nat.mod_eq_of_lt (show i + 4 < 2 ^ 32 by omega)]
    by_cases hc : i + 4 ≤ n
    · have ha' : (dst + i) % 4 = 0 := ha.resolve_left (by omega)
      rw [if_pos hc, Nat.mod_eq_of_lt (show dst + i < 2 ^ 32 by omega)]
      refine .bind (.of_eq (if_neg (not_not.2 ha')) ?_)
      rw [st_fill]
      exact ih hc (by omega) (by omega)
    · rw [if_neg hc]
      exact .pure ⟨hi, rfl⟩

/-- The bytes after the last word. -/
theorem tailLoop_ends (hi : i ≤ n) (hn : dst + n ≤ 2 ^ 32) (hn' : n < 2 ^ 31) (hk : n < i + k) :
    Det.Ends E (tailLoop dst c n k i) (m.fill dst i (uchar c)) fun _ m' =>
      m' = m.fill dst n (uchar c) := by
  induction k generalizing i with
  | zero => omega
  | succ k ih =>
    unfold tailLoop
    by_cases hc : i < n
    · rw [if_pos hc, Nat.mod_eq_of_lt (show dst + i < 2 ^ 32 by omega),
        Nat.mod_eq_of_lt (show i + 1 < 2 ^ 32 by omega)]
      refine .bind (.of_eq rfl ?_)
      rw [update_fill]
      exact ih hc (by omega)
    · rw [if_neg hc]
      obtain rfl : i = n := by omega
      exact .pure rfl

theorem memset_ends (hn : n < 2 ^ 31) (hd : dst + n ≤ 2 ^ 32) :
    Det.Ends E (memset dst c n) m fun r m' => r = dst ∧ m' = m.fill dst n (uchar c) := by
  have hnil : m.fill dst 0 (uchar c) = m := funext fun x => if_neg (by omega)
  unfold memset
  rw [← hnil]
  refine .bind (.mono (headLoop_ends (Nat.zero_le n) hd hn (by omega)) ?_)
  rintro i _ ⟨hi, rfl, ha⟩
  refine .bind (.mono (wordLoop_ends hi hd hn (by omega) ha) ?_)
  rintro i _ ⟨hi, rfl⟩
  refine .bind (.mono (tailLoop_ends hi hd hn (by omega)) ?_)
  rintro _ _ rfl
  exact .pure ⟨rfl, by rw [hnil]⟩

end Memset

/-! ## `memmove` -/

section Memmove

variable {E : Fault → Prop} {m : ByteMem} {dst src lo hi n : ℕ}

/-- Memory in which bytes `lo` to `hi` of the source have been copied. -/
def copied (m : ByteMem) (dst src lo hi : ℕ) : ByteMem := fun x =>
  if dst + lo ≤ x ∧ x < dst + hi then m (src + (x - dst)) else m x

/-- A byte more at the end. -/
theorem copied_succ (h : lo ≤ hi) :
    Function.update (copied m dst src lo hi) (dst + hi) (m (src + hi)) = copied m dst src lo (hi + 1) := by
  funext x
  unfold copied
  by_cases hx : x = dst + hi
  · rw [hx, Function.update_self, if_pos (by omega), Nat.add_sub_cancel_left]
  · rw [Function.update_of_ne hx]
    exact ite_congr (propext (by omega)) (fun _ => rfl) fun _ => rfl

/-- A byte more at the beginning. -/
theorem copied_pred (h : lo < hi) :
    Function.update (copied m dst src (lo + 1) hi) (dst + lo) (m (src + lo)) = copied m dst src lo hi := by
  funext x
  unfold copied
  by_cases hx : x = dst + lo
  · rw [hx, Function.update_self, if_pos (by omega), Nat.add_sub_cancel_left]
  · rw [Function.update_of_ne hx]
    exact ite_congr (propext (by omega)) (fun _ => rfl) fun _ => rfl

/-- The copy from the front, when no byte of the source is behind a byte of the destination that comes
before it. -/
theorem fwdLoop_ends (hd : dst + (hi + n) ≤ 2 ^ 32) (hs : src + (hi + n) ≤ 2 ^ 32)
    (hno : dst ≤ src ∨ src + (hi + n) ≤ dst) :
    Det.Ends E (fwdLoop n ((dst + hi) % 2 ^ 32) ((src + hi) % 2 ^ 32)) (copied m dst src 0 hi)
      fun _ m' => m' = copied m dst src 0 (hi + n) := by
  induction n generalizing hi with
  | zero => exact .pure rfl
  | succ n ih =>
    unfold fwdLoop
    rw [Nat.mod_eq_of_lt (show dst + hi < 2 ^ 32 by omega), Nat.mod_eq_of_lt (show src + hi < 2 ^ 32 by omega)]
    refine .bind (.of_eq rfl (.bind (.of_eq rfl ?_)))
    have hread : copied m dst src 0 hi (src + hi) = m (src + hi) := if_neg (by omega)
    rw [hread, copied_succ (Nat.zero_le hi), Nat.add_assoc, Nat.add_assoc,
      show hi + (n + 1) = hi + 1 + n by omega]
    exact ih (by omega) (by omega) (by omega)

/-- The copy from the end, when the destination is behind the source. -/
theorem backLoop_ends (hd : dst + hi ≤ 2 ^ 32) (hs : src < dst) (hn : n ≤ hi) :
    Det.Ends E (backLoop n ((dst + n) % 2 ^ 32) ((src + n) % 2 ^ 32)) (copied m dst src n hi)
      fun _ m' => m' = copied m dst src 0 hi := by
  induction n with
  | zero => exact .pure rfl
  | succ n ih =>
    have hdec : ∀ a, a + (n + 1) ≤ 2 ^ 32 → ((a + (n + 1)) % 2 ^ 32 + 2 ^ 32 - 1) % 2 ^ 32 = a + n := by
      intro a ha
      omega
    unfold backLoop
    rw [hdec dst (by omega), hdec src (by omega)]
    refine .bind (.of_eq rfl (.bind (.of_eq rfl ?_)))
    have hread : copied m dst src (n + 1) hi (src + n) = m (src + n) := if_neg (by omega)
    have hrest := ih (by omega)
    rw [Nat.mod_eq_of_lt (show dst + n < 2 ^ 32 by omega),
      Nat.mod_eq_of_lt (show src + n < 2 ^ 32 by omega)] at hrest
    rw [hread, copied_pred hn]
    exact hrest

theorem memmove_ends (hd : dst + n ≤ 2 ^ 32) (hs : src + n ≤ 2 ^ 32) :
    Det.Ends E (memmove dst src n) m fun r m' => r = dst ∧ m' = copied m dst src 0 n := by
  have hnil : ∀ k, copied m dst src k k = m := fun k => funext fun x => if_neg (by omega)
  unfold memmove
  by_cases h0 : n = 0
  · rw [if_pos h0, h0, hnil 0]
    exact .pure ⟨rfl, rfl⟩
  · rw [if_neg h0]
    by_cases hc : src < dst ∧ (src + n) % 2 ^ 32 > dst
    · rw [if_pos hc]
      have hloop := backLoop_ends (E := E) (m := m) hd hc.1 (Nat.le_refl n)
      rw [hnil] at hloop
      exact .bind (.mono hloop fun _ m' hm => .pure ⟨rfl, hm⟩)
    · rw [if_neg hc]
      have hno : dst ≤ src ∨ src + (0 + n) ≤ dst := by
        by_contra hno
        rw [Nat.mod_eq_of_lt (show src + n < 2 ^ 32 by omega)] at hc
        omega
      have hloop := @fwdLoop_ends E m dst src 0 n (by omega) (by omega) hno
      rw [hnil, Nat.add_zero, Nat.add_zero, Nat.mod_eq_of_lt (show dst < 2 ^ 32 by omega),
        Nat.mod_eq_of_lt (show src < 2 ^ 32 by omega), Nat.zero_add] at hloop
      exact .bind (.mono hloop fun _ m' hm => .pure ⟨rfl, hm⟩)

/-- The bytes of the source as they were, written in one piece. -/
theorem copied_eq_write : copied m dst src 0 n = m.write dst (m.read src n) := by
  funext x
  unfold copied
  by_cases hx : dst ≤ x ∧ x < dst + n
  · obtain ⟨i, rfl⟩ := Nat.exists_eq_add_of_le hx.1
    rw [if_pos (by omega), ByteMem.write_read (by omega), Nat.add_sub_cancel_left]
  · rw [if_neg (by omega), ByteMem.write_of_not_mem (by rw [ByteMem.length_read]; omega)]

/-- Both functions of `string.c`, at every alignment and every overlap: `memset` ends with the `n` bytes
from `dst` set and no word stored askew, `memmove` with the bytes that the source had. -/
theorem memset_memmove_plain (m : ByteMem) (dst n : ℕ) (hd : dst + n ≤ 2 ^ 32) :
    (∀ c : ℤ, n < 2 ^ 31 → ∃ m', memset dst c n m = .ok (dst, m') ∧
      (∀ x, dst ≤ x → x < dst + n → (m' x).toNat = (c % 256).toNat) ∧
      ∀ x, x < dst ∨ dst + n ≤ x → m' x = m x) ∧
    ∀ src, src + n ≤ 2 ^ 32 → ∃ m', memmove dst src n m = .ok (dst, m') ∧
      (∀ i < n, m' (dst + i) = m (src + i)) ∧
      ∀ x, x < dst ∨ dst + n ≤ x → m' x = m x := by
  refine ⟨fun c hn => ?_, fun src hs => ?_⟩
  · obtain ⟨_, _, heq, rfl, rfl⟩ := (memset_ends (m := m) (c := c) hn hd).returns
    refine ⟨_, heq, fun x hlo hhi => ?_, fun x hx => if_neg (by omega)⟩
    have hc : (c % 256).toNat < UInt8.size := by
      have := Int.emod_lt_of_pos c (show (0 : ℤ) < 256 by decide)
      exact (Int.toNat_lt (Int.emod_nonneg c (by decide))).2 this
    unfold ByteMem.fill uchar
    rw [if_pos ⟨hlo, hhi⟩, UInt8.toNat_ofNat_of_lt' hc]
  · obtain ⟨_, _, heq, rfl, rfl⟩ := (memmove_ends (m := m) hd hs).returns
    refine ⟨_, heq, fun i hi => ?_, fun x hx => if_neg (by omega)⟩
    unfold copied
    rw [if_pos (by omega), Nat.add_sub_cancel_left]

/-- Six bytes from an address that is not aligned, and a copy over itself. -/
theorem memset_memmove_plain_askew :
    (∃ m', memset 5 (-1) 6 UInt8.ofNat = .ok (5, m') ∧ (m' 10).toNat = 255) ∧
    ∃ m', memmove 5 3 6 UInt8.ofNat = .ok (5, m') ∧ m' 5 = 3 := by
  obtain ⟨hset, hmove⟩ := memset_memmove_plain UInt8.ofNat 5 6 (by decide)
  obtain ⟨m₁, h₁, hbytes, -⟩ := hset (-1) (by decide)
  obtain ⟨m₂, h₂, hcopy, -⟩ := hmove 3 (by decide)
  exact ⟨⟨m₁, h₁, hbytes 10 (by decide) (by decide)⟩, m₂, h₂, hcopy 0 (by decide)⟩

end Memmove

/-! ## The primitives of the page tables -/

section Phys

variable {s : Phys} {a d n : ℕ}

/-- `memset(a, 0, PGSIZE)`. -/
theorem memset_eq_zeroPage (ha : a + pgsize ≤ 2 ^ 32) :
    ∃ m', memset a 0 pgsize s.mem = .ok (a, m') ∧ zeroPage a s = .ok ((), { s with mem := m' }) := by
  obtain ⟨_, _, heq, rfl, rfl⟩ := (memset_ends (m := s.mem) (c := 0) (by decide) ha).returns
  exact ⟨_, heq, rfl⟩

/-- `memmove(d, a, n)`. -/
theorem memmove_eq_memmove (hd : d + n ≤ 2 ^ 32) (ha : a + n ≤ 2 ^ 32) :
    ∃ m', memmove d a n s.mem = .ok (d, m') ∧ Vm.memmove d a n s = .ok ((), { s with mem := m' }) := by
  obtain ⟨_, _, heq, rfl, rfl⟩ := (memmove_ends (m := s.mem) hd ha).returns
  exact ⟨_, heq, by rw [copied_eq_write]; rfl⟩

end Phys

end Xv6.Vm.Str
