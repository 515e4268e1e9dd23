import Xv6.Lib.Det
import Xv6.Lib.ByteMem
import Mathlib.Data.Nat.Bitwise

/-!
# Physical memory

The constants of `memlayout.h` and `cputwo.h`, physical memory as the kernel sees it through its
identity map, and the page allocator of `kalloc.c`. The free list is a list of page addresses; the
pointer that `kfree` stores in a freed page is stored here too. `kalloc` is told for each call
whether it fails although there may be a page left.
-/

namespace Xv6.Vm

/-- `PGSIZE`. -/
abbrev pgsize : ℕ := 4096

/-- `MAXVA`. -/
abbrev maxva : ℕ := 2 ^ 31

/-- `PHYSTOP`. -/
abbrev phystop : ℕ := 0x03E7E000

/-- `TRAMPOLINE`. -/
abbrev trampoline : ℕ := 0x03EFE000

/-- `TRAPFRAME`. -/
abbrev trapframe : ℕ := trampoline - pgsize

/-- `PGROUNDUP`, on 32-bit numbers. -/
def pgroundup (sz : ℕ) : ℕ := (sz + pgsize - 1) % 2 ^ 32 / pgsize * pgsize

/-- `PGROUNDDOWN`. -/
def pgrounddown (a : ℕ) : ℕ := a / pgsize * pgsize

/-- What the linker decides: `_end`, the end of the kernel, and `trampoline_start`, a page of it. -/
structure Layout where
  kend : ℕ
  trampolineStart : ℕ
  kend_ge : 0x1000 ≤ kend
  kend_le : kend ≤ phystop
  tramp_aligned : trampolineStart % pgsize = 0
  tramp_le : trampolineStart + pgsize ≤ kend

/-- How the code can stop: in `panic`, in a loop that never ends, or with a store beyond the end of an
array of the kernel, after which nothing is known. -/
inductive Halt
  | panic (msg : String)
  | spin
  | bounds

/-- Physical memory with the free list. -/
structure Phys where
  mem : ByteMem
  /-- The pages of `kmem_freelist`. -/
  freelist : List ℕ
  /-- For the calls of `kalloc` to come, whether the call fails. -/
  deny : List Bool

/-- Programs over physical memory. -/
abbrev PhysM := Det Halt Phys

variable {α : Type}

/-- `panic`. -/
def panic (msg : String) : PhysM α := throw (.panic msg)

/-- A load of a word. -/
def loadWord (a : ℕ) : PhysM ℕ := fun s => .ok (s.mem.ld a, s)

/-- A store of a word. -/
def storeWord (a v : ℕ) : PhysM Unit := fun s => .ok ((), { s with mem := s.mem.st a v })

/-- `memset(a, 0, PGSIZE)`. -/
def zeroPage (a : ℕ) : PhysM Unit := fun s => .ok ((), { s with mem := s.mem.fill a pgsize 0 })

/-- The `n` bytes at `a`. -/
def peek (a n : ℕ) : PhysM (List UInt8) := fun s => .ok (s.mem.read a n, s)

/-- Bytes are copied to `a`. -/
def poke (a : ℕ) (l : List UInt8) : PhysM Unit := fun s => .ok ((), { s with mem := s.mem.write a l })

/-- `memmove(d, a, n)`. -/
def memmove (d a n : ℕ) : PhysM Unit := do
  let l ← peek a n
  poke d l

section Primitives

variable (a : ℕ) (l : List UInt8) (f : ℕ → PhysM α) (g : Unit → PhysM α) (s : Phys)

theorem loadWord_bind : (loadWord a >>= f) s = f (s.mem.ld a) s := Det.bind_ok rfl

theorem poke_bind : (poke a l >>= g) s = g () { s with mem := s.mem.write a l } := Det.bind_ok rfl

end Primitives

/-- `kalloc`. -/
def kalloc : PhysM (Option ℕ) := fun s =>
  if s.deny.headD false then .ok (none, { s with deny := s.deny.tail })
  else
    match s.freelist with
    | [] => .ok (none, { s with deny := s.deny.tail })
    | r :: l => .ok (some r, { s with freelist := l, deny := s.deny.tail })

variable (K : Layout)

/-- `kfree`. -/
def kfree (pa : ℕ) : PhysM Unit := fun s =>
  if pa % pgsize ≠ 0 ∨ pa < K.kend ∨ phystop ≤ pa then .error (.panic "kfree")
  else .ok ((), { s with mem := s.mem.st pa (s.freelist.headD 0), freelist := pa :: s.freelist })

/-! ## Page-table entries -/

/-- The bits of `PTE_V`, `PTE_R`, `PTE_W`, `PTE_X` and `PTE_U`. -/
abbrev vBit : ℕ := 0
abbrev rBit : ℕ := 5
abbrev wBit : ℕ := 6
abbrev xBit : ℕ := 7
abbrev uBit : ℕ := 8

/-- `PTE_V`. -/
abbrev pteV : ℕ := 1 <<< vBit

/-- `PTE_R`. -/
abbrev pteR : ℕ := 1 <<< rBit

/-- `PTE_W`. -/
abbrev pteW : ℕ := 1 <<< wBit

/-- `PTE_X`. -/
abbrev pteX : ℕ := 1 <<< xBit

/-- `PTE_U`. -/
abbrev pteU : ℕ := 1 <<< uBit

/-- `PA2PTE`. -/
def pa2pte (pa : ℕ) : ℕ := pa >>> 12 <<< 12

/-- `PTE2PA`. -/
def pte2pa (pte : ℕ) : ℕ := pte >>> 12 <<< 12

/-- `PTE_FLAGS`. -/
def pteFlags (pte : ℕ) : ℕ := pte &&& 0xFFF

/-- `PX(1, va)`, the index in the first level. -/
def px1 (va : ℕ) : ℕ := va >>> 22 &&& 0x3FF

/-- `PX(0, va)`, the index in the second level. -/
def px0 (va : ℕ) : ℕ := va >>> 12 &&& 0x3FF

end Xv6.Vm
