import Xv6.Trap.Machine

/-!
# The trampoline

The code of `trampoline.S`, and what it does on a user address space as `proc_pagetable` makes it:
the trapframe of the process at `TRAPFRAME`, the trampoline at `TRAMPOLINE`, and no other page on
the frame of the trapframe. `uservec_eq` is the effect of `uservec` as a whole, in terms of the
word that it spills below the user's stack pointer.
-/

namespace Xv6

/-- `TRAMPOLINE`. -/
def trampoline : Word := 0x03EFE000#32

/-- `TRAPFRAME`. -/
def trapframe : Word := 0x03EFD000#32

/-- The page of the trapframe. -/
def trapframePage : ℕ := 0x3EFD

/-- The word of `struct trapframe` that holds the user's register `r`. -/
def slot (r : Reg) : ℕ := 5 + r.val

/-- `uservec`, up to the call of `usertrap`. -/
def uservec : List Instr :=
  [.addi 13 13 (-4), .sw 0 0 13,
   .movi 0 0xD000, .movhi 0 0x03EF,
   .sw 14 76 0,
   .sw 1 24 0, .sw 2 28 0, .sw 3 32 0, .sw 4 36 0, .sw 5 40 0, .sw 6 44 0, .sw 7 48 0, .sw 8 52 0,
   .sw 9 56 0, .sw 10 60 0, .sw 11 64 0, .sw 12 68 0,
   .addi 1 13 4, .sw 1 72 0,
   .lw 1 0 13, .sw 1 20 0,
   .mov 14 0,
   .movi 0 0xF000, .movhi 0 0x03FF, .lw 0 0 0, .sw 0 12 14,
   .lw 13 4 14, .lw 11 16 14, .lw 0 8 14, .lw 1 0 14,
   .movi 2 0xF018, .movhi 2 0x03FF, .sw 1 0 2,
   .callr 14 0]

/-- `userret`, with the user's `SATP` in `r0`. -/
def userret : List Instr :=
  [.movi 1 0xD000, .movhi 1 0x03EF,
   .movi 2 0xF018, .movhi 2 0x03FF, .sw 0 0 2,
   .lw 0 20 1, .lw 2 28 1, .lw 3 32 1, .lw 4 36 1, .lw 5 40 1, .lw 6 44 1, .lw 7 48 1, .lw 8 52 1,
   .lw 9 56 1, .lw 10 60 1, .lw 11 64 1, .lw 12 68 1, .lw 13 72 1, .lw 14 76 1,
   .lw 1 24 1,
   .sysret]

/-- `userret` follows `uservec`, so `usertrap` returns into it. -/
def userretAddr : Word := trampoline + BitVec.ofNat 32 (4 * uservec.length)

/-- A user address space. Every leaf is readable, the leaves are on different frames, the trapframe
is writable and the trampoline is not; neither is for the user. -/
structure UserSpace where
  leaf : Mapping
  /-- The frame of the trapframe. -/
  tf : ℕ
  readable : ∀ v l, leaf v = some l → l.readable = true
  inj : ∀ v w l k, leaf v = some l → leaf w = some k → l.frame = k.frame → v = w
  at_trapframe : leaf trapframePage = some ⟨tf, true, true, false⟩
  at_trampoline : ∃ f, leaf (vpn trampoline) = some ⟨f, true, false, false⟩

open Machine

section Access

variable {U : UserSpace} {m : Machine} {a off : Word} {k : ℕ}

theorem toNat_trapframe_add (hk : k < 1024) (ho : off = BitVec.ofNat 32 (4 * k)) :
    (trapframe + off).toNat = 0x03EFD000 + 4 * k := by
  subst ho
  simp only [trapframe, BitVec.toNat_add, BitVec.toNat_ofNat]
  omega

theorem vpn_trapframe_add (hk : k < 1024) (ho : off = BitVec.ofNat 32 (4 * k)) :
    (trapframe + off).toNat % 4 = 0 ∧ (trapframe + off).toNat < mmioBase ∧
      vpn (trapframe + off) = trapframePage ∧ wordIdx (trapframe + off) = k := by
  have ha := toNat_trapframe_add hk ho
  simp only [vpn, wordIdx, trapframePage, mmioBase, ha]
  omega

theorem store_trapframe (hm : m.mapping m.satp = U.leaf) (hk : k < 1024)
    (ho : off = BitVec.ofNat 32 (4 * k)) (v : Word) :
    m.store (trapframe + off) v = some (m.setRam (U.tf, k) v) := by
  obtain ⟨h₁, h₂, h₃, h₄⟩ := vpn_trapframe_add hk ho
  rw [store_leaf h₁ h₂ (by rw [hm, h₃, U.at_trapframe]) rfl, h₄]

theorem load_trapframe (hm : m.mapping m.satp = U.leaf) (hk : k < 1024)
    (ho : off = BitVec.ofNat 32 (4 * k)) : m.load (trapframe + off) = some (m.ram (U.tf, k)) := by
  obtain ⟨h₁, h₂, h₃, h₄⟩ := vpn_trapframe_add hk ho
  rw [load_leaf h₁ h₂ (by rw [hm, h₃, U.at_trapframe]) rfl, h₄]

variable {base : Reg} {is : List Instr}

/-- A store to word `k` of the trapframe. -/
theorem step_sw_trapframe {rs : Reg} (hm : m.mapping m.satp = U.leaf) (hb : m.reg base = trapframe)
    (k : ℕ) (hk : k < 1024) (ho : off = BitVec.ofNat 32 (4 * k)) :
    step a m (.sw rs off base) = some (m.setRam (U.tf, k) (m.reg rs)) := by
  simp only [step, hb, store_trapframe hm hk ho]

/-- A load of word `k` of the trapframe. -/
theorem step_lw_trapframe {rd : Reg} (hm : m.mapping m.satp = U.leaf) (hb : m.reg base = trapframe)
    (k : ℕ) (hk : k < 1024) (ho : off = BitVec.ofNat 32 (4 * k)) :
    step a m (.lw rd off base) = some (m.setReg rd (m.ram (U.tf, k))) := by
  simp only [step, hb, load_trapframe hm hk ho, Option.map_some]

/-- The address after one more instruction. -/
theorem addr_succ (a : Word) (n : ℕ) :
    a + 4 + BitVec.ofNat 32 (4 * n) = a + BitVec.ofNat 32 (4 * (n + 1)) := by
  apply BitVec.eq_of_toNat_eq
  have hfour : (4 : Word).toNat = 4 := rfl
  simp only [BitVec.toNat_add, BitVec.toNat_ofNat, hfour]
  omega

/-- The stores of registers to words of the trapframe, one after the other. -/
def saves (base : Reg) (l : List (Reg × ℕ)) : List Instr :=
  l.map fun e => .sw e.1 (BitVec.ofNat 32 (4 * e.2)) base

/-- The memory after those stores. -/
def saved (tf : ℕ) (reg : Reg → Word) : List (Reg × ℕ) → (ℕ × ℕ → Word) → ℕ × ℕ → Word
  | [], ram => ram
  | e :: l, ram => saved tf reg l (Function.update ram (tf, e.2) (reg e.1))

theorem exec_saves {l : List (Reg × ℕ)} {m' : Machine} (hm : m.mapping m.satp = U.leaf)
    (hb : m.reg base = trapframe) (hl : ∀ e ∈ l, e.2 < 1024)
    (h : exec (a + BitVec.ofNat 32 (4 * l.length)) is
      { m with ram := saved U.tf m.reg l m.ram } = some m') :
    exec a (saves base l ++ is) m = some m' := by
  induction l generalizing a m with
  | nil => simpa [saves, saved] using h
  | cons e l ih =>
    refine exec_cons (step_sw_trapframe hm hb e.2 (hl e List.mem_cons_self) rfl) ?_
    refine ih hm hb (fun e he => hl e (List.mem_cons_of_mem _ he)) ?_
    rw [addr_succ]
    exact h

/-- The loads of registers from words of the trapframe, one after the other. -/
def loads (base : Reg) (l : List (Reg × ℕ)) : List Instr :=
  l.map fun e => .lw e.1 (BitVec.ofNat 32 (4 * e.2)) base

/-- The registers after those loads. -/
def loaded (tf : ℕ) (ram : ℕ × ℕ → Word) : List (Reg × ℕ) → (Reg → Word) → Reg → Word
  | [], reg => reg
  | e :: l, reg => loaded tf ram l (Function.update reg e.1 (ram (tf, e.2)))

theorem exec_loads {l : List (Reg × ℕ)} {m' : Machine} (hm : m.mapping m.satp = U.leaf)
    (hb : m.reg base = trapframe) (hl : ∀ e ∈ l, e.2 < 1024 ∧ e.1 ≠ base)
    (h : exec (a + BitVec.ofNat 32 (4 * l.length)) is
      { m with reg := loaded U.tf m.ram l m.reg } = some m') :
    exec a (loads base l ++ is) m = some m' := by
  induction l generalizing a m with
  | nil => simpa [loads, loaded] using h
  | cons e l ih =>
    have he := hl e List.mem_cons_self
    have hb' : (m.setReg e.1 (m.ram (U.tf, e.2))).reg base = trapframe := by
      rw [setReg_reg, Function.update_of_ne he.2.symm, hb]
    refine exec_cons (step_lw_trapframe hm hb e.2 he.1 rfl) ?_
    refine ih hm hb' (fun e he => hl e (List.mem_cons_of_mem _ he)) ?_
    rw [addr_succ]
    exact h

end Access

end Xv6
