import Mathlib.Data.Nat.Notation
import Mathlib.Tactic.Common

/-!
# Console input

The input buffer of `console.c`, the interrupt handler that fills it and the loop of `consoleread`
that empties it. As for pipes, each function is what happens under `cons_lock` up to a return or a
`sleep`.
-/

namespace Xv6

/-- `cons_buf` and its indices. -/
structure Cons where
  buf : ℕ → UInt8
  r : BitVec 32
  w : BitVec 32
  e : BitVec 32

/-- How a turn of `consoleread` ends: the process was killed, or there is no input with `n` bytes to
go, or it returns with `n` bytes to go. -/
inductive ConsEnd
  | fail
  | wait (n : ℕ)
  | done (n : ℕ)
  deriving DecidableEq

namespace Cons

/-- `INPUT_BUF_SIZE`. -/
abbrev size : ℕ := 128

/-- The loop of `consoleread` with `n` bytes to go; `dst` says which bytes `copyout` can write. -/
def readLoop (killed : Bool) (dst : ℕ → Bool) (target : ℕ) : ℕ → Cons → Cons × ConsEnd
  | 0, c => (c, .done 0)
  | n + 1, c =>
    if c.r = c.w then (c, if killed then .fail else .wait (n + 1))
    else
      let ch := c.buf (c.r.toNat % size)
      let c' := { c with r := c.r + 1 }
      if ch = 4 then
        -- `^D` is kept for the next call when this one has read something
        (if n + 1 < target then { c' with r := c'.r - 1 } else c', .done (n + 1))
      -- a byte that cannot be copied is lost
      else if dst (target - (n + 1)) = false then (c', .done (n + 1))
      else if ch = 10 then (c', .done n)
      else readLoop killed dst target n c'

/-- The loop of `consoleintr` on `^U`. Every turn brings `cons_e` closer to `cons_w`, so that
`cons_e - cons_w` turns are enough. -/
def killLine : ℕ → Cons → Cons
  | 0, c => c
  | k + 1, c =>
    if c.e ≠ c.w ∧ c.buf ((c.e - 1).toNat % size) ≠ 10 then killLine k { c with e := c.e - 1 }
    else c

/-- The end of `consoleintr`'s default case: store a character, and on the end of a line or of the
buffer hand the input to the readers and call `wakeup` (the flag). -/
def store (c : Cons) (x : UInt8) : Cons × Bool :=
  let c' := { c with
    buf := fun j => if j = c.e.toNat % size then x else c.buf j
    e := c.e + 1 }
  if x = 10 ∨ x = 4 ∨ c'.e - c'.r = BitVec.ofNat 32 size then ({ c' with w := c'.e }, true)
  else (c', false)

/-- `consoleintr`; the flag says whether it calls `wakeup`. -/
def intr (c : Cons) (ch : UInt8) : Cons × Bool :=
  if ch = 16 then (c, false)
  else if ch = 21 then (c.killLine (c.e - c.w).toNat, false)
  else if ch = 8 ∨ ch = 127 then (if c.e ≠ c.w then { c with e := c.e - 1 } else c, false)
  else if ch ≠ 0 ∧ (c.e - c.r).toNat < size then
    c.store (if ch = 13 then 10 else ch)
  else (c, false)

variable {c : Cons} {killed : Bool} {dst : ℕ → Bool} {target n k : ℕ}

/-- `killLine` is the loop of the source: it ends where the loop's condition fails. -/
theorem killLine_stops (h : (c.e - c.w).toNat ≤ k) :
    (c.killLine k).e = (c.killLine k).w ∨
      (c.killLine k).buf (((c.killLine k).e - 1).toNat % size) = 10 := by
  induction k generalizing c with
  | zero => exact .inl (by simp only [killLine]; bv_omega)
  | succ k ih =>
    unfold killLine
    split
    · rename_i hc
      exact ih (c := { c with e := c.e - 1 }) (by have := hc.1; simp only; bv_omega)
    · rename_i hc
      by_cases he : c.e = c.w
      · exact .inl he
      · exact .inr (by simpa [he] using hc)

theorem killLine_rw : (c.killLine k).r = c.r ∧ (c.killLine k).w = c.w := by
  induction k generalizing c with
  | zero => exact ⟨rfl, rfl⟩
  | succ k ih =>
    unfold killLine
    split
    · exact ih (c := { c with e := c.e - 1 })
    · exact ⟨rfl, rfl⟩

theorem store_rw (x : UInt8) (h : (c.store x).2 = false) :
    (c.store x).1.r = c.r ∧ (c.store x).1.w = c.w := by
  by_cases hx : x = 10 ∨ x = 4 ∨ c.e + 1 - c.r = BitVec.ofNat 32 size
  · rw [store, if_pos hx] at h
    cases h
  · rw [store, if_neg hx]
    exact ⟨rfl, rfl⟩

/-- An interrupt that wakes nobody leaves readers the input they had. -/
theorem intr_rw (ch : UInt8) (h : (c.intr ch).2 = false) :
    (c.intr ch).1.r = c.r ∧ (c.intr ch).1.w = c.w := by
  unfold intr at h ⊢
  by_cases h₁ : ch = 16
  · rw [if_pos h₁]
    exact ⟨rfl, rfl⟩
  rw [if_neg h₁] at h ⊢
  by_cases h₂ : ch = 21
  · rw [if_pos h₂]
    exact killLine_rw
  rw [if_neg h₂] at h ⊢
  by_cases h₃ : ch = 8 ∨ ch = 127
  · rw [if_pos h₃]
    split <;> exact ⟨rfl, rfl⟩
  rw [if_neg h₃] at h ⊢
  by_cases h₄ : ch ≠ 0 ∧ (c.e - c.r).toNat < size
  · rw [if_pos h₄] at h ⊢
    exact store_rw _ h
  · rw [if_neg h₄]
    exact ⟨rfl, rfl⟩

/-- `consoleread` does nothing to an empty buffer, and waits only when the buffer is empty and the
process not killed. -/
theorem readLoop_spec (c : Cons) (killed : Bool) (dst : ℕ → Bool) (target n : ℕ) :
    (c.r = c.w → (c.readLoop killed dst target n).1 = c) ∧
    ∀ j, (c.readLoop killed dst target n).2 = .wait j →
      (c.readLoop killed dst target n).1.r = (c.readLoop killed dst target n).1.w ∧
        killed = false := by
  refine ⟨fun h => ?_, ?_⟩
  · cases n with
    | zero => rfl
    | succ n => simp [readLoop, h]
  · induction n generalizing c with
    | zero => simp [readLoop]
    | succ n ih =>
      intro j hj
      unfold readLoop at hj ⊢
      by_cases he : c.r = c.w
      · cases killed <;> simp_all
      · simp only [if_neg he] at hj ⊢
        split_ifs at hj ⊢
        exact ih _ j hj

end Cons

end Xv6
