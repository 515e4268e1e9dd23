import Mathlib.Algebra.Ring.Nat
import Mathlib.Logic.Function.Basic
import Mathlib.Data.Nat.Notation
import Mathlib.Data.Prod.Basic

/-!
# The processor under a trap

As much of the CPUTwo processor as the trampoline uses, in supervisor mode: the registers `r0` to
`r14`, straight-line code (`exec`), the physical memory in page frames of 1024 words, and the
address map. An address from `0x03F00000` on is a device or processor register and bypasses the
page table; below it, an access goes through the page table that `SATP` names, and a store succeeds
on any mapped writable page, whether the user may access it or not. Every store to a device or
processor register is recorded.

An access that is misaligned, not mapped or not permitted traps again. The trap handler then starts
over with the state of the first trap lost, so `exec` has no result in that case.
-/

namespace Xv6

/-- A machine word. -/
abbrev Word := BitVec 32

instance neZero_regs : NeZero (15 : ℕ) := ⟨by decide⟩

/-- The register `r0`, ..., `r14`; `r13` is the stack pointer and `r14` the link register. -/
abbrev Reg := Fin 15

/-- A leaf of a page table. -/
structure Leaf where
  frame : ℕ
  readable : Bool
  writable : Bool
  user : Bool
  deriving DecidableEq

/-- The mappings of a page table, from virtual page numbers. -/
abbrev Mapping := ℕ → Option Leaf

/-- The state of the processor and the memory. -/
structure Machine where
  reg : Reg → Word
  pc : Word
  flags : Word
  /-- The word at an index of a page frame. -/
  ram : ℕ × ℕ → Word
  /-- The device and processor registers. -/
  mmio : Word → Word
  /-- The stores to device and processor registers, the last one first. -/
  writes : List (Word × Word)
  /-- The page table that a value of `SATP` names. -/
  mapping : Word → Mapping

/-! ## Addresses -/

def mmioBase : ℕ := 0x03F00000

def regEpc : Word := 0x03FFF000#32
def regEflags : Word := 0x03FFF004#32
def regCause : Word := 0x03FFF00C#32
def regEstatus : Word := 0x03FFF014#32
def regSatp : Word := 0x03FFF018#32
def regBadaddr : Word := 0x03FFF01C#32

/-- `STATUS_IE`. -/
def statusIe : Word := 2#32

/-- The virtual page of an address. -/
def vpn (a : Word) : ℕ := a.toNat / 4096

/-- The index of the word at an address in its page. -/
def wordIdx (a : Word) : ℕ := a.toNat % 4096 / 4

namespace Machine

/-- `SATP`. -/
def satp (m : Machine) : Word := m.mmio regSatp

def setReg (m : Machine) (r : Reg) (v : Word) : Machine :=
  { m with reg := Function.update m.reg r v }

def setRam (m : Machine) (p : ℕ × ℕ) (v : Word) : Machine :=
  { m with ram := Function.update m.ram p v }

/-- A store to a device or processor register. -/
def setMmio (m : Machine) (a v : Word) : Machine :=
  { m with mmio := Function.update m.mmio a v, writes := (a, v) :: m.writes }

/-- A store of a word by the supervisor. -/
def store (m : Machine) (a v : Word) : Option Machine :=
  if a.toNat % 4 ≠ 0 then none
  else if mmioBase ≤ a.toNat then some (m.setMmio a v)
  else match m.mapping m.satp (vpn a) with
    | some l => if l.writable then some (m.setRam (l.frame, wordIdx a) v) else none
    | none => none

/-- A load of a word by the supervisor. -/
def load (m : Machine) (a : Word) : Option Word :=
  if a.toNat % 4 ≠ 0 then none
  else if mmioBase ≤ a.toNat then some (m.mmio a)
  else match m.mapping m.satp (vpn a) with
    | some l => if l.readable then some (m.ram (l.frame, wordIdx a)) else none
    | none => none

@[simp] theorem setReg_ram (m : Machine) (r : Reg) (v : Word) : (m.setReg r v).ram = m.ram := rfl

@[simp] theorem setReg_mmio (m : Machine) (r : Reg) (v : Word) : (m.setReg r v).mmio = m.mmio := rfl

@[simp] theorem setReg_satp (m : Machine) (r : Reg) (v : Word) : (m.setReg r v).satp = m.satp := rfl

@[simp] theorem setReg_mapping (m : Machine) (r : Reg) (v : Word) :
    (m.setReg r v).mapping = m.mapping := rfl

@[simp] theorem setReg_writes (m : Machine) (r : Reg) (v : Word) :
    (m.setReg r v).writes = m.writes := rfl

@[simp] theorem setReg_reg (m : Machine) (r : Reg) (v : Word) :
    (m.setReg r v).reg = Function.update m.reg r v := rfl

@[simp] theorem setRam_reg (m : Machine) (p : ℕ × ℕ) (v : Word) : (m.setRam p v).reg = m.reg := rfl

@[simp] theorem setRam_mmio (m : Machine) (p : ℕ × ℕ) (v : Word) : (m.setRam p v).mmio = m.mmio := rfl

@[simp] theorem setRam_satp (m : Machine) (p : ℕ × ℕ) (v : Word) : (m.setRam p v).satp = m.satp := rfl

@[simp] theorem setRam_mapping (m : Machine) (p : ℕ × ℕ) (v : Word) :
    (m.setRam p v).mapping = m.mapping := rfl

@[simp] theorem setRam_writes (m : Machine) (p : ℕ × ℕ) (v : Word) :
    (m.setRam p v).writes = m.writes := rfl

@[simp] theorem setRam_ram (m : Machine) (p : ℕ × ℕ) (v : Word) :
    (m.setRam p v).ram = Function.update m.ram p v := rfl

/-- A store through a leaf of the page table. -/
theorem store_leaf {m : Machine} {a v : Word} {l : Leaf} (ha : a.toNat % 4 = 0)
    (hlt : a.toNat < mmioBase) (hl : m.mapping m.satp (vpn a) = some l) (hw : l.writable = true) :
    m.store a v = some (m.setRam (l.frame, wordIdx a) v) := by
  unfold store
  rw [if_neg (by omega), if_neg (by omega), hl]
  simp [hw]

/-- A load through a leaf of the page table. -/
theorem load_leaf {m : Machine} {a : Word} {l : Leaf} (ha : a.toNat % 4 = 0)
    (hlt : a.toNat < mmioBase) (hl : m.mapping m.satp (vpn a) = some l) (hr : l.readable = true) :
    m.load a = some (m.ram (l.frame, wordIdx a)) := by
  unfold load
  rw [if_neg (by omega), if_neg (by omega), hl]
  simp [hr]

theorem load_mmio {m : Machine} {a : Word} (ha : a.toNat % 4 = 0) (hge : mmioBase ≤ a.toNat) :
    m.load a = some (m.mmio a) := by
  unfold load
  rw [if_neg (by omega), if_pos hge]

theorem store_mmio {m : Machine} {a v : Word} (ha : a.toNat % 4 = 0) (hge : mmioBase ≤ a.toNat) :
    m.store a v = some (m.setMmio a v) := by
  unfold store
  rw [if_neg (by omega), if_pos hge]

/-- A store below the device registers succeeds on aligned words of writable pages only. -/
theorem store_eq_some {m m' : Machine} {a v : Word} (h : m.store a v = some m') :
    a.toNat % 4 = 0 ∧ (mmioBase ≤ a.toNat ∧ m' = m.setMmio a v ∨ a.toNat < mmioBase ∧
      ∃ l, m.mapping m.satp (vpn a) = some l ∧ l.writable = true ∧
        m' = m.setRam (l.frame, wordIdx a) v) := by
  unfold store at h
  split at h
  · cases h
  · rename_i ha
    refine ⟨by omega, ?_⟩
    split at h
    · rename_i hmm
      exact .inl ⟨hmm, (Option.some.inj h).symm⟩
    · rename_i hmm
      refine .inr ⟨by omega, ?_⟩
      split at h
      · rename_i l hl
        split at h
        · rename_i hw
          exact ⟨l, hl, hw, (Option.some.inj h).symm⟩
        · cases h
      · cases h

end Machine

/-! ## Straight-line code -/

/-- The instructions of the trampoline. -/
inductive Instr
  | addi (rd rs : Reg) (imm : Word)
  | movi (rd : Reg) (imm : BitVec 16)
  | movhi (rd : Reg) (imm : BitVec 16)
  | mov (rd rs : Reg)
  | lw (rd : Reg) (off : Word) (base : Reg)
  | sw (rs : Reg) (off : Word) (base : Reg)
  | callr (rd rs : Reg)
  | sysret

/-- The instruction at address `a`. -/
def step (a : Word) (m : Machine) : Instr → Option Machine
  | .addi rd rs imm => some (m.setReg rd (m.reg rs + imm))
  | .movi rd imm => some (m.setReg rd (imm.zeroExtend 32))
  | .movhi rd imm => some (m.setReg rd (imm ++ (m.reg rd).extractLsb' 0 16))
  | .mov rd rs => some (m.setReg rd (m.reg rs))
  | .lw rd off base => (m.load (m.reg base + off)).map (m.setReg rd)
  | .sw rs off base => m.store (m.reg base + off) (m.reg rs)
  | .callr rd rs => some { m.setReg rd (a + 4) with pc := m.reg rs }
  | .sysret => some { m with pc := m.mmio regEpc, flags := m.mmio regEflags }

/-- The instructions from address `a` on. -/
def exec (a : Word) : List Instr → Machine → Option Machine
  | [], m => some m
  | i :: is, m => (step a m i).bind (exec (a + 4) is)

theorem exec_cons {a : Word} {i : Instr} {is : List Instr} {m m₁ m' : Machine}
    (hs : step a m i = some m₁) (h : exec (a + 4) is m₁ = some m') :
    exec a (i :: is) m = some m' := by
  rw [exec, hs, Option.bind_some, h]

/-- `movi` and `movhi` build a constant. -/
theorem exec_const {a v : Word} {rd : Reg} {lo hi : BitVec 16} {is : List Instr} {m m' : Machine}
    (hv : hi ++ lo = v) (h : exec (a + 4 + 4) is (m.setReg rd v) = some m') :
    exec a (.movi rd lo :: .movhi rd hi :: is) m = some m' := by
  have hlo : ((lo.zeroExtend 32).extractLsb' 0 16 : BitVec 16) = lo := by
    apply BitVec.eq_of_toNat_eq
    have := lo.isLt
    simp
    omega
  refine exec_cons rfl (exec_cons rfl ?_)
  simpa [Machine.setReg, hlo, hv] using h

theorem step_load {a v : Word} {m : Machine} {rd base : Reg} {off : Word}
    (h : m.load (m.reg base + off) = some v) :
    step a m (.lw rd off base) = some (m.setReg rd v) := by
  rw [step, h, Option.map_some]

/-- Code that runs to its end runs to the end of a first part of it. -/
theorem exec_append {a : Word} {l l' : List Instr} {m m' : Machine}
    (h : exec a (l ++ l') m = some m') : ∃ c m₁, exec a l m = some m₁ ∧ exec c l' m₁ = some m' := by
  induction l generalizing a m with
  | nil => exact ⟨a, m, rfl, h⟩
  | cons i is ih =>
    rw [List.cons_append, exec] at h
    obtain ⟨m₁, hs, h⟩ := Option.bind_eq_some_iff.1 h
    obtain ⟨c, m₂, h₁, h₂⟩ := ih h
    exact ⟨c, m₂, exec_cons hs h₁, h₂⟩

theorem step_writes {a : Word} {i : Instr} {m m' : Machine} (h : step a m i = some m') :
    m.writes.length ≤ m'.writes.length := by
  cases i with
  | sw rs off base =>
    obtain ⟨-, ⟨-, rfl⟩ | ⟨-, l, -, -, rfl⟩⟩ := Machine.store_eq_some h
    · simp [Machine.setMmio]
    · simp
  | lw rd off base =>
    rw [step, Option.map_eq_some_iff] at h
    obtain ⟨v, -, rfl⟩ := h
    simp
  | addi rd rs imm => rw [← Option.some.inj h]; simp
  | movi rd imm => rw [← Option.some.inj h]; simp
  | movhi rd imm => rw [← Option.some.inj h]; simp
  | mov rd rs => rw [← Option.some.inj h]; simp
  | callr rd rs => rw [← Option.some.inj h]; simp
  | sysret =>
    obtain rfl := Option.some.inj h
    simp

/-- The record of stores only grows. -/
theorem exec_writes {a : Word} {l : List Instr} {m m' : Machine} (h : exec a l m = some m') :
    m.writes.length ≤ m'.writes.length := by
  induction l generalizing a m with
  | nil =>
    obtain rfl := Option.some.inj h
    exact Nat.le_refl _
  | cons i is ih =>
    rw [exec] at h
    obtain ⟨m₁, hs, h⟩ := Option.bind_eq_some_iff.1 h
    exact Nat.le_trans (step_writes hs) (ih h)

end Xv6
